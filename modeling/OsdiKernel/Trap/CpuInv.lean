import OsdiKernel.Trap.Cpu

/-!
# The record and the memory

Every event keeps `CpuInv`. Most of them only concern the thread on the core:
`CpuInv.update` says what has to be seen then, and that the words of the others
are elsewhere is always for the same reason, `ThreadsApart`. A switch is the one
event that makes a thread's context out of what is on the core.
-/

namespace OsdiKernel

open A64

variable {M : Type} {m m' : Cpu M} {p q a b n el low top : Nat} {t u : Thread} {f g : Saved} {fs : List Saved}

/-! ## Frames on a stack -/

theorem Stacked.le_floor (h : Stacked low top fs) : low ≤ floorOf top fs := by
  cases fs with
  | nil => exact h
  | cons f fs => exact h.1

theorem Stacked.floor_le (h : Stacked low top fs) : floorOf top fs ≤ top := by
  induction fs with
  | nil => exact Nat.le_refl _
  | cons f fs ih =>
      obtain ⟨_, hf, hfs⟩ := h
      have hle := ih hfs
      unfold sFrameSize at hf
      show f.base ≤ top
      omega

/-- A frame is between the free part and the top. -/
theorem Stacked.mem (h : Stacked low top fs) (hf : f ∈ fs) : floorOf top fs ≤ f.base ∧ f.base + sFrameSize ≤ top := by
  induction fs with
  | nil => exact absurd hf (by simp)
  | cons g fs ih =>
      obtain ⟨_, hg, hfs⟩ := h
      have hle := hfs.floor_le
      rcases List.mem_cons.mp hf with rfl | hf
      · exact ⟨Nat.le_refl _, by omega⟩
      · obtain ⟨h1, h2⟩ := ih hfs hf
        refine ⟨?_, h2⟩
        unfold sFrameSize at hg
        show g.base ≤ f.base
        omega

/-- Two frames have no byte in common. -/
theorem Stacked.apart (h : Stacked low top fs) {i j : Nat} (hij : i < j) (hf : fs[i]? = some f) (hg : fs[j]? = some g) :
    f.base + sFrameSize ≤ g.base := by
  induction fs generalizing i j with
  | nil => exact absurd hf (by simp)
  | cons k fs ih =>
      obtain ⟨_, hk, hfs⟩ := h
      obtain ⟨j, rfl⟩ : ∃ j', j = j' + 1 := ⟨j - 1, by omega⟩
      rw [List.getElem?_cons_succ] at hg
      cases i with
      | zero =>
          obtain rfl := Option.some.inj hf
          have hle := (hfs.mem (List.mem_of_getElem? hg)).1
          omega
      | succ i => exact ih hfs (by omega) hf hg

/-! ## Words of a thread -/

/-- The words of its frames and of its context. -/
def Thread.Word (p : Nat) (t : Thread) (a : Nat) : Prop :=
  (∃ f i, f ∈ t.saved ∧ i < 34 ∧ a = f.base + 8 * i) ∨ ∃ i, i < 13 ∧ a = p + 8 * i

namespace Cpu

/-- They are held while it does not run. -/
theorem holds_word (hne : q ≠ m.current) (hq : m.thread q = some u) (ha : u.Word q a) : m.Holds a := by
  rcases ha with ⟨f, i, hf, hi, rfl⟩ | ⟨i, hi, rfl⟩
  · exact Or.inl ⟨q, u, f, i, hq, hf, hi, rfl⟩
  · exact Or.inr ⟨q, u, i, hne, hq, hi, rfl⟩

theorem holds_frame (hp : m.thread p = some t) (hf : f ∈ t.saved) {i : Nat} (hi : i < 34) : m.Holds (f.base + 8 * i) :=
  Or.inl ⟨p, t, f, i, hp, hf, hi, rfl⟩

theorem ThreadsApart.symm (h : ThreadsApart p t q u) : ThreadsApart q u p t :=
  ⟨h.contexts.symm, h.kernelStacks.symm, h.there, h.here⟩

/-- They are neither in another's context nor on its stack. -/
theorem ThreadsApart.word (h : ThreadsApart p t q u) (hu : Stacked u.low u.top u.saved) (ha : u.Word q a) :
    (a + 8 ≤ p ∨ p + cpuContextSize ≤ a) ∧ (a + 8 ≤ t.low ∨ t.top ≤ a) := by
  obtain ⟨hcontexts, hstacks, hhere, hthere⟩ := h
  unfold cpuContextSize at *
  rcases ha with ⟨f, i, hf, hi, rfl⟩ | ⟨i, hi, rfl⟩
  · obtain ⟨hlo, hhi⟩ := hu.mem hf
    have hfloor := hu.le_floor
    unfold sFrameSize at hhi
    omega
  · omega

end Cpu

section Memory

variable [WordMemory M] {mem mem' : M} {core : State M}

open Cpu

theorem Cpu.frame_congr (hb : WordsAt mem f.base (frameWords f.el f.ctx))
    (hsame : ∀ i < 34, load mem' (f.base + 8 * i) = load mem (f.base + 8 * i)) :
    WordsAt mem' f.base (frameWords f.el f.ctx) :=
  hb.congr fun i hi => hsame i (by simpa using hi)

theorem Cpu.context_congr (hb : WordsAt mem p (contextWords t.x t.sp))
    (hsame : ∀ i < 13, load mem' (p + 8 * i) = load mem (p + 8 * i)) : WordsAt mem' p (contextWords t.x t.sp) :=
  hb.congr fun i hi => hsame i (by simpa using hi)

/-- The frames of everybody, once the words that are held are as they were, -/
theorem CpuInv.frames_spared (h : CpuInv m) (hs : m.Spares mem) (hp : m.thread p = some t) (hf : f ∈ t.saved) :
    WordsAt mem f.base (frameWords f.el f.ctx) :=
  frame_congr (h.frames p t hp f hf) (fun _ hi => hs _ (holds_frame hp hf hi))

/-- and the contexts. -/
theorem CpuInv.contexts_spared (h : CpuInv m) (hs : m.Spares mem) (hne : p ≠ m.current) (hp : m.thread p = some t) :
    WordsAt mem p (contextWords t.x t.sp) :=
  context_congr (h.contexts p t hne hp).1 (fun i hi => hs _ (Or.inr ⟨p, t, i, hne, hp, hi, rfl⟩))

/-- **The thread on the core** changes what is interrupted on it. The words of the others stay. -/
theorem CpuInv.update (core : State M) (h : CpuInv m) (ht : m.thread m.current = some t) (hlow : u.low = t.low) (htop : u.top = t.top)
    (hstacked : Stacked t.low t.top u.saved) (hsp : OnStack u core.regs.sp)
    (hframes : ∀ f ∈ u.saved, WordsAt core.mem f.base (frameWords f.el f.ctx))
    (hothers : ∀ q v, q ≠ m.current → m.thread q = some v → ∀ a, v.Word q a → load core.mem a = load m.core.mem a) :
    CpuInv { m with core, thread := m.setThread m.current (some u) } := by
  obtain ⟨hcontext, htop64, hapart, _⟩ := h.placed _ _ ht
  have hself : m.setThread m.current (some u) m.current = some u := Function.update_self ..
  have hne : ∀ {q}, q ≠ m.current → m.setThread m.current (some u) q = m.thread q := fun hq => Function.update_of_ne hq ..
  have hnear : ∀ {q v}, q ≠ m.current → m.thread q = some v → ThreadsApart m.current u q v := by
    intro q v hq hv
    obtain ⟨h1, h2, h3, h4⟩ := h.apart _ _ _ _ ht hv (Ne.symm hq)
    exact ⟨h1, by rw [hlow, htop]; exact h2, h3, by rw [hlow, htop]; exact h4⟩
  refine ⟨⟨u, hself, hsp⟩, ?_, ?_, ?_, ?_⟩
  · intro q v hv
    by_cases hq : q = m.current
    · subst hq
      obtain rfl := Option.some.inj (hself.symm.trans hv)
      exact ⟨hcontext, by rw [htop]; exact htop64, by rw [hlow, htop]; exact hapart, by rw [hlow, htop]; exact hstacked⟩
    · exact h.placed q v ((hne hq).symm.trans hv)
  · intro q v r w hv hw hqr
    by_cases hq : q = m.current
    · subst hq
      obtain rfl := Option.some.inj (hself.symm.trans hv)
      exact hnear (Ne.symm hqr) ((hne (Ne.symm hqr)).symm.trans hw)
    · have hv := (hne hq).symm.trans hv
      by_cases hr : r = m.current
      · subst hr
        obtain rfl := Option.some.inj (hself.symm.trans hw)
        exact (hnear hq hv).symm
      · exact h.apart q v r w hv ((hne hr).symm.trans hw) hqr
  · intro q v hv f hf
    by_cases hq : q = m.current
    · subst hq
      obtain rfl := Option.some.inj (hself.symm.trans hv)
      exact hframes f hf
    · have hv := (hne hq).symm.trans hv
      exact frame_congr (h.frames q v hv f hf) (fun i hi => hothers q v hq hv _ (Or.inl ⟨f, i, hf, hi, rfl⟩))
  · intro q v hq hv
    have hv := (hne hq).symm.trans hv
    obtain ⟨hb, hon⟩ := h.contexts q v hq hv
    exact ⟨context_congr hb (fun i hi => hothers q v hq hv _ (Or.inr ⟨i, hi, rfl⟩)), hon⟩

/-! ## The events -/

theorem CpuInv.work {regs : Regs} (h : CpuInv m) (hs : m.Spares mem) (ht : m.thread m.current = some t)
    (hsp : OnStack t regs.sp) : CpuInv (m.step (.work regs mem)) := by
  have hsame : m.setThread m.current (some t) = m.thread := by
    rw [setThread, ← ht, Function.update_eq_self]
  have hinv := h.update ⟨regs, mem⟩ ht rfl rfl (h.placed _ _ ht).stacked hsp
    (fun f hf => h.frames_spared hs ht hf) (fun q v hq hv a ha => hs a (holds_word hq hv ha))
  rw [hsame] at hinv
  exact hinv

/-- Where the frame of an interruption goes. -/
theorem CpuInv.room (h : CpuInv m) (ht : m.thread m.current = some t) (hroom : t.low + sFrameSize ≤ m.core.regs.sp.toNat) :
    RoomAt m.core.regs (m.core.regs.sp - BitVec.ofNat 64 sFrameSize).toNat ∧
    t.low ≤ (m.core.regs.sp - BitVec.ofNat 64 sFrameSize).toNat ∧
    (m.core.regs.sp - BitVec.ofNat 64 sFrameSize).toNat + sFrameSize ≤ t.floor := by
  obtain ⟨t', ht', _, hfloor⟩ := h.running
  obtain rfl := Option.some.inj (ht.symm.trans ht')
  have hroomAt : RoomAt m.core.regs (m.core.regs.sp.toNat - sFrameSize) := by
    unfold RoomAt
    omega
  rw [hroomAt.sub]
  exact ⟨hroomAt, by omega, by omega⟩

theorem CpuInv.interrupt {vector : BitVec 64} (h : CpuInv m) (ht : m.thread m.current = some t)
    (hroom : t.low + sFrameSize ≤ m.core.regs.sp.toNat) : CpuInv (m.step (.interrupt el vector)) := by
  obtain ⟨hat, hlow, hfloor⟩ := h.room ht hroom
  obtain ⟨hmem, hsp, _⟩ := enterKernel_spec el vector hat
  obtain ⟨_, _, _, hstacked⟩ := h.placed _ _ ht
  have htop := hstacked.floor_le
  have hsize : sFrameSize = 272 := rfl
  have hfloor' : t.floor = floorOf t.top t.saved := rfl
  simp only [step, ht, Option.map_some]
  refine h.update _ ht rfl rfl ⟨hlow, hfloor, hstacked⟩ ?_ ?_ ?_
  · show OnStack _ (enterKernel el vector m.core).regs.sp
    rw [hsp]
    exact ⟨hlow, Nat.le_refl _⟩
  · intro f hf
    rw [hmem]
    rcases List.mem_cons.mp hf with rfl | hf
    · exact wordsAt_storeWords m.core.mem _ _
    · -- an older frame is higher up
      have hup := (hstacked.mem hf).1
      refine (h.frames _ _ ht f hf).storeWords (Or.inr ?_)
      rw [frameWords_length]
      omega
  · intro q v hq hv a ha
    rw [hmem]
    have hapart := ((h.apart _ _ _ _ ht hv (Ne.symm hq)).word (h.placed q v hv).stacked ha).2
    refine load_storeWords_apart ?_
    rw [frameWords_length]
    omega

/-- A frame can be read where the stack pointer is. -/
theorem CpuInv.frameAt (h : CpuInv m) (ht : m.thread m.current = some t) (hsaved : t.saved = f :: fs)
    (hsp : m.core.regs.sp.toNat = f.base) : SpAt m.core.regs f.base sFrameSize ∧ f.base + sFrameSize ≤ floorOf t.top fs := by
  obtain ⟨_, htop, _, hstacked⟩ := h.placed _ _ ht
  have hmem := (hstacked.mem (f := f) (by rw [hsaved]; exact List.mem_cons_self)).2
  rw [hsaved] at hstacked
  exact ⟨⟨hsp, by omega⟩, hstacked.2.1⟩

theorem CpuInv.resume (h : CpuInv m) (ht : m.thread m.current = some t) (hsaved : t.saved = f :: fs)
    (hsp : m.core.regs.sp.toNat = f.base) : CpuInv (m.step (.resume f.el)) := by
  obtain ⟨hat, hfloor⟩ := h.frameAt ht hsaved hsp
  have hin : f ∈ t.saved := by rw [hsaved]; exact List.mem_cons_self
  obtain ⟨hmem, hrest⟩ := leaveKernel_spec hat (h.frames _ _ ht f hin)
  obtain ⟨_, htop, _, hstacked⟩ := h.placed _ _ ht
  rw [hsaved] at hstacked
  obtain ⟨hlow, _, hstacked⟩ := hstacked
  have hpop : (popped t).saved = fs := by rw [popped, hsaved]; rfl
  simp only [step, ht, Option.map_some]
  refine h.update _ ht rfl rfl (by rw [hpop]; exact hstacked) ?_ ?_ ?_
  · have hup : (leaveKernel f.el m.core).regs.sp.toNat = f.base + sFrameSize := by
      have hle := hstacked.floor_le
      rw [hrest.sp, BitVec.toNat_add, BitVec.toNat_ofNat, hsp]
      unfold sFrameSize at *
      omega
    show t.low ≤ (leaveKernel f.el m.core).regs.sp.toNat ∧ (leaveKernel f.el m.core).regs.sp.toNat ≤ floorOf t.top (popped t).saved
    rw [hpop, hup]
    exact ⟨by omega, hfloor⟩
  · rw [hmem]
    intro g hg
    rw [hpop] at hg
    exact h.frames _ _ ht g (by rw [hsaved]; exact List.mem_cons_of_mem _ hg)
  · intro q v _ _ a _
    rw [hmem]

/-- Frame `n` with another program in it. -/
theorem Stacked.amended (h : Stacked t.low t.top t.saved) (n : Nat) (ctx : Ctx) :
    (amended t n ctx).floor = t.floor ∧ Stacked t.low t.top (amended t n ctx).saved := by
  have hgen : ∀ (fs : List Saved) (n : Nat), Stacked t.low t.top fs →
      floorOf t.top (fs.modify n fun f => { f with ctx := ctx }) = floorOf t.top fs ∧
        Stacked t.low t.top (fs.modify n fun f => { f with ctx := ctx }) := by
    intro fs
    induction fs with
    | nil => exact fun n h => by simpa using h
    | cons f fs ih =>
        rintro (_ | n) ⟨hlow, hfloor, hstacked⟩
        · exact ⟨rfl, hlow, hfloor, hstacked⟩
        · obtain ⟨heq, hrest⟩ := ih n hstacked
          exact ⟨rfl, hlow, heq ▸ hfloor, hrest⟩
  exact hgen _ n h

theorem CpuInv.amend {ctx : Ctx} (h : CpuInv m) (ht : m.thread m.current = some t) (hf : t.saved[n]? = some f)
    (hb : WordsAt mem f.base (frameWords f.el ctx))
    (hs : ∀ a, m.Holds a → (∀ i < 34, a ≠ f.base + 8 * i) → load mem a = load m.core.mem a) :
    CpuInv (m.step (.amend n ctx mem)) := by
  obtain ⟨t', ht', hsp⟩ := h.running
  obtain rfl := Option.some.inj (ht.symm.trans ht')
  have hstacked := (h.placed _ _ ht).stacked
  obtain ⟨hfloor, hstacked'⟩ := hstacked.amended n ctx
  have hin := List.mem_of_getElem? hf
  simp only [step, ht, Option.map_some]
  refine h.update { m.core with mem } ht rfl rfl hstacked' ?_ ?_ ?_
  · exact ⟨hsp.1, hfloor ▸ hsp.2⟩
  · intro g hg
    obtain ⟨k, hk⟩ := List.getElem?_of_mem hg
    rw [OsdiKernel.Cpu.amended, List.getElem?_modify] at hk
    by_cases hkn : n = k
    · subst hkn
      simp only [hf, if_true, Option.map_eq_map, Option.map_some] at hk
      obtain rfl := Option.some.inj hk
      exact hb
    · simp only [if_neg hkn, Option.map_eq_map, Option.map_id_fun', id] at hk
      have hgin := List.mem_of_getElem? hk
      refine frame_congr (h.frames _ _ ht g hgin) (fun i hi => hs _ (holds_frame ht hgin hi) (fun j hj => ?_))
      have hsize : sFrameSize = 272 := rfl
      rcases Nat.lt_or_gt_of_ne hkn with hlt | hlt
      · have := hstacked.apart hlt hf hk
        omega
      · have := hstacked.apart hlt hk hf
        omega
  · intro q v hq hv a ha
    refine hs a (holds_word hq hv ha) (fun i hi => ?_)
    have hapart := ((h.apart _ _ _ _ ht hv (Ne.symm hq)).word (h.placed q v hv).stacked ha).2
    have hlo := (hstacked.mem hin).1
    have hhi := (hstacked.mem hin).2
    have hle := hstacked.le_floor
    have hsize : sFrameSize = 272 := rfl
    omega

theorem CpuInv.create (h : CpuInv m) (hnone : m.thread p = none)
    (hapart : ∀ q u, m.thread q = some u → ThreadsApart p t q u) (hl : Laid p t mem) (hs : m.Spares mem) :
    CpuInv (m.step (.create p t mem)) := by
  obtain ⟨hplaced, hframes, hcontext, hsp⟩ := hl
  have hcur : m.current ≠ p := by
    rintro rfl
    obtain ⟨u, hu, _⟩ := h.running
    exact absurd (hnone.symm.trans hu) (by simp)
  have hself : m.setThread p (some t) p = some t := Function.update_self ..
  have hne : ∀ {q}, q ≠ p → m.setThread p (some t) q = m.thread q := fun hq => Function.update_of_ne hq ..
  refine ⟨?_, ?_, ?_, ?_, ?_⟩
  · obtain ⟨u, hu, hon⟩ := h.running
    exact ⟨u, (hne hcur).trans hu, hon⟩
  · intro q u hu
    by_cases hq : q = p
    · subst hq
      exact Option.some.inj (hself.symm.trans hu) ▸ hplaced
    · exact h.placed q u ((hne hq).symm.trans hu)
  · intro q u r v hu hv hqr
    by_cases hq : q = p
    · subst hq
      obtain rfl := Option.some.inj (hself.symm.trans hu)
      exact hapart r v ((hne (Ne.symm hqr)).symm.trans hv)
    · have hu' := (hne hq).symm.trans hu
      by_cases hr : r = p
      · subst hr
        obtain rfl := Option.some.inj (hself.symm.trans hv)
        exact (hapart q u hu').symm
      · exact h.apart q u r v hu' ((hne hr).symm.trans hv) hqr
  · intro q u hu f hf
    by_cases hq : q = p
    · subst hq
      obtain rfl := Option.some.inj (hself.symm.trans hu)
      exact hframes f hf
    · exact h.frames_spared hs ((hne hq).symm.trans hu) hf
  · intro q u hq hu
    by_cases hqp : q = p
    · subst hqp
      obtain rfl := Option.some.inj (hself.symm.trans hu)
      exact ⟨hcontext, hsp⟩
    · have hu := (hne hqp).symm.trans hu
      exact ⟨h.contexts_spared hs hq hu, (h.contexts q u hq hu).2⟩

/-- A switch: the words that are stored, and what is on the core then. -/
theorem CpuInv.switched (h : CpuInv m) (ht : m.thread m.current = some t) (hu : m.thread p = some u) (hp : p ≠ m.current)
    (h0 : (m.core.regs.x 0).toNat = m.current) (h1 : (m.core.regs.x 1).toNat = p) :
    (callSwitch m.core).mem = storeWords m.core.mem m.current (contextWords m.core.regs.x m.core.regs.sp) ∧
      SwitchedTo u.x u.sp m.core.regs (callSwitch m.core).regs := by
  have hcur := (h.placed _ _ ht).context
  have hnext := (h.placed _ _ hu).context
  have hapart := (h.apart _ _ _ _ ht hu (Ne.symm hp)).contexts
  refine callSwitch_spec h0 h1 hcur hnext ((h.contexts p u hp hu).1.storeWords ?_)
  unfold cpuContextSize at hapart
  rw [contextWords_length, contextWords_length]
  omega

theorem CpuInv.switch (h : CpuInv m) (ht : m.thread m.current = some t) (hu : m.thread p = some u) (hp : p ≠ m.current)
    (h0 : (m.core.regs.x 0).toNat = m.current) (h1 : (m.core.regs.x 1).toNat = p) : CpuInv (m.step (.switch p)) := by
  obtain ⟨hmem, hregs⟩ := h.switched ht hu hp h0 h1
  obtain ⟨t', ht', hsp⟩ := h.running
  obtain rfl := Option.some.inj (ht.symm.trans ht')
  have hcsize : cpuContextSize = 104 := rfl
  have hself : m.setThread m.current (some (parked t m.core.regs)) m.current = some (parked t m.core.regs) :=
    Function.update_self ..
  have hne : ∀ {q}, q ≠ m.current → m.setThread m.current (some (parked t m.core.regs)) q = m.thread q :=
    fun hq => Function.update_of_ne hq ..
  -- a thread is where it was, with the same frames
  have hold : ∀ {q v}, m.setThread m.current (some (parked t m.core.regs)) q = some v →
      ∃ w, m.thread q = some w ∧ w.low = v.low ∧ w.top = v.top ∧ w.saved = v.saved := by
    intro q v hv
    by_cases hq : q = m.current
    · subst hq
      obtain rfl := Option.some.inj (hself.symm.trans hv)
      exact ⟨t, ht, rfl, rfl, rfl⟩
    · exact ⟨v, (hne hq).symm.trans hv, rfl, rfl, rfl⟩
  simp only [step, ht, Option.map_some]
  refine ⟨⟨u, (hne hp).trans hu, ?_⟩, ?_, ?_, ?_, ?_⟩
  · show OnStack u (callSwitch m.core).regs.sp
    rw [hregs.sp]
    exact (h.contexts p u hp hu).2
  · intro q v hv
    obtain ⟨w, hw, hlow, htop, hsaved⟩ := hold hv
    obtain ⟨h1, h2, h3, h4⟩ := h.placed q w hw
    exact ⟨h1, htop ▸ h2, by rw [← hlow, ← htop]; exact h3, by rw [← hlow, ← htop, ← hsaved]; exact h4⟩
  · intro q v r v' hv hv' hqr
    obtain ⟨w, hw, hlow, htop, _⟩ := hold hv
    obtain ⟨w', hw', hlow', htop', _⟩ := hold hv'
    obtain ⟨h1, h2, h3, h4⟩ := h.apart q w r w' hw hw' hqr
    exact ⟨h1, by rw [← hlow, ← htop, ← hlow', ← htop']; exact h2, by rw [← hlow', ← htop']; exact h3,
      by rw [← hlow, ← htop]; exact h4⟩
  · -- what was stored is in no frame
    intro q v hv f hf
    obtain ⟨w, hw, _, _, hsaved⟩ := hold hv
    rw [← hsaved] at hf
    refine frame_congr (h.frames q w hw f hf) (fun i hi => ?_)
    have hplaced := h.placed q w hw
    have hmemf := hplaced.stacked.mem hf
    have hle := hplaced.stacked.le_floor
    have hsize : sFrameSize = 272 := rfl
    have hctx : m.current + cpuContextSize ≤ w.low ∨ w.top ≤ m.current := by
      by_cases hq : q = m.current
      · subst hq
        exact hplaced.apart
      · exact (h.apart _ _ _ _ ht hw (Ne.symm hq)).here
    show load (callSwitch m.core).mem _ = _
    rw [hmem]
    refine load_storeWords_apart ?_
    rw [contextWords_length]
    omega
  · intro q v hq hv
    show WordsAt (callSwitch m.core).mem _ _ ∧ _
    rw [hmem]
    by_cases hqc : q = m.current
    · -- the one that was on the core
      subst hqc
      obtain rfl := Option.some.inj (hself.symm.trans hv)
      exact ⟨wordsAt_storeWords m.core.mem _ _, hsp⟩
    · have hv := (hne hqc).symm.trans hv
      obtain ⟨hb, hon⟩ := h.contexts q v hqc hv
      have hapart := (h.apart _ _ _ _ ht hv (Ne.symm hqc)).contexts
      refine ⟨hb.storeWords ?_, hon⟩
      rw [contextWords_length, contextWords_length]
      omega

theorem CpuInv.remove (h : CpuInv m) (hp : p ≠ m.current) : CpuInv (m.step (.remove p)) := by
  have hold : ∀ {q u}, m.setThread p none q = some u → m.thread q = some u := by
    intro q u hu
    by_cases hq : q = p
    · subst hq
      rw [setThread, Function.update_self] at hu
      exact absurd hu (by simp)
    · exact (Function.update_of_ne hq ..).symm.trans hu
  refine ⟨?_, fun q u hu => h.placed q u (hold hu), fun q u r v hu hv hqr => h.apart q u r v (hold hu) (hold hv) hqr,
    fun q u hu => h.frames q u (hold hu), fun q u hq hu => h.contexts q u hq (hold hu)⟩
  obtain ⟨u, hu, hon⟩ := h.running
  exact ⟨u, (Function.update_of_ne (Ne.symm hp) ..).trans hu, hon⟩

/-! ## Runs -/

theorem cpuInv_booted (h : Booted m) : CpuInv m := by
  obtain ⟨⟨t, ht, hplaced, hsaved, hsp⟩, honly⟩ := h
  have hone : ∀ {p u}, m.thread p = some u → p = m.current ∧ u = t := by
    intro p u hu
    by_cases hp : p = m.current
    · subst hp
      exact ⟨rfl, Option.some.inj (hu.symm.trans ht)⟩
    · exact absurd ((honly p hp).symm.trans hu) (by simp)
  refine ⟨⟨t, ht, hsp⟩, ?_, ?_, ?_, ?_⟩
  · intro p u hu
    obtain ⟨rfl, rfl⟩ := hone hu
    exact hplaced
  · intro p u q v hu hv hpq
    exact absurd ((hone hu).1.trans (hone hv).1.symm) hpq
  · intro p u hu f hf
    obtain ⟨rfl, rfl⟩ := hone hu
    rw [hsaved] at hf
    exact absurd hf (by simp)
  · intro p u hp hu
    exact absurd (hone hu).1 hp

/-- **Any event** keeps what the record says. -/
theorem CpuInv.step {e : CpuEvent M} (h : CpuInv m) (hl : m.Legal e) : CpuInv (m.step e) := by
  cases e with
  | work regs mem =>
      obtain ⟨hs, t, ht, hsp⟩ := hl
      exact h.work hs ht hsp
  | interrupt el vector =>
      obtain ⟨t, ht, hroom⟩ := hl
      exact h.interrupt ht hroom
  | resume el =>
      obtain ⟨t, f, fs, ht, hsaved, rfl, hsp⟩ := hl
      exact h.resume ht hsaved hsp
  | switch next =>
      obtain ⟨hne, ⟨u, hu⟩, h0, h1⟩ := hl
      obtain ⟨t, ht, _⟩ := h.running
      exact h.switch ht hu hne h0 h1
  | amend n ctx mem =>
      obtain ⟨t, f, ht, hf, hb, hs⟩ := hl
      exact h.amend ht hf hb hs
  | create p t mem =>
      obtain ⟨hnone, hapart, hlaid, hs⟩ := hl
      exact h.create hnone hapart hlaid hs
  | remove p => exact h.remove hl

theorem CpuInv.run {es : List (CpuEvent M)} (h : CpuInv m) (hr : Run m es m') : CpuInv m' := by
  induction hr with
  | nil m => exact h
  | cons hl _ ih => exact ih (h.step hl)

theorem cpuInv_reachable (h : Cpu.Reachable m) : CpuInv m := by
  obtain ⟨m₀, es, hboot, hr⟩ := h
  exact (cpuInv_booted hboot).run hr

end Memory

end OsdiKernel
