import OsdiKernel.Trap.CpuInv

/-!
# Nobody notices an interruption

Between an exception and the return from it anything may happen: the handler
runs, other threads get the core, they are interrupted themselves, and so are the
handlers. `depth` counts, event by event, how deep the interruptions of one
thread are; when it is back at what it was and the thread returns, what it
goes on with is what was interrupted. A thread that calls `cpu_switch_to` has
even less to wait for: the next switch to it is the return from its call.
-/

namespace OsdiKernel

open A64

variable {M : Type}

namespace Cpu

/-- Who is on the core after an event. -/
def currentAfter (cur : Nat) : CpuEvent M → Nat
  | .switch next => next
  | _ => cur

/--
How many interruptions deep thread `p` is after an event, when it was `d` deep
and `cur` was on the core. There is no answer once it has gone back beyond where
the count began, or what is there was written to or given up.
-/
def depthAfter (p cur d : Nat) : CpuEvent M → Option Nat
  | .interrupt _ _ => some (if cur = p then d + 1 else d)
  | .resume _ => if cur = p then if d = 0 then none else some (d - 1) else some d
  | .amend n _ _ => if cur = p ∧ d ≤ n then none else some d
  | .remove q => if q = p then none else some d
  | _ => some d

/-- Who is on the core after some events, and how deep `p` is. -/
def depth (p : Nat) : Nat → Nat → List (CpuEvent M) → Option (Nat × Nat)
  | cur, d, [] => some (cur, d)
  | cur, d, e :: es => (depthAfter p cur d e).bind fun d' => depth p (currentAfter cur e) d' es

theorem depth_append (p : Nat) {es es' : List (CpuEvent M)} {cur d : Nat} :
    depth p cur d (es ++ es') = (depth p cur d es).bind fun s => depth p s.1 s.2 es' := by
  induction es generalizing cur d with
  | nil => rfl
  | cons e es ih =>
      simp only [List.cons_append, depth]
      cases depthAfter p cur d e with
      | none => rfl
      | some d' => exact ih

/-- Thread `p` is interrupted `d` times more than when that was `fs`. -/
def Deep (m : Cpu M) (p d : Nat) (fs : List Saved) : Prop :=
  ∃ t, m.thread p = some t ∧ d ≤ t.saved.length ∧ t.saved.drop d = fs

variable [WordMemory M] {m m' : Cpu M} {p d d' el : Nat} {fs : List Saved} {t u : Thread} {e : CpuEvent M}
  {es : List (CpuEvent M)}

theorem step_current (m : Cpu M) (e : CpuEvent M) : (m.step e).current = currentAfter m.current e := by
  cases e <;> rfl

omit [WordMemory M] in
/-- Another thread's frames are none of its business, whoever is on the core. -/
theorem Deep.other {f : Thread → Thread} (h : m.Deep p d fs) (hp : m.current ≠ p) :
    ∃ t, m.setThread m.current ((m.thread m.current).map f) p = some t ∧ d ≤ t.saved.length ∧ t.saved.drop d = fs := by
  obtain ⟨t, ht, hd, hfs⟩ := h
  exact ⟨t, (Function.update_of_ne (Ne.symm hp) ..).trans ht, hd, hfs⟩

omit [WordMemory M] in
/-- The thread on the core, when its frames change. -/
theorem Deep.self {f : Thread → Thread} (ht : m.thread p = some t) (hp : m.current = p) (hd : d ≤ (f t).saved.length)
    (hfs : (f t).saved.drop d = fs) :
    ∃ t, m.setThread m.current ((m.thread m.current).map f) p = some t ∧ d ≤ t.saved.length ∧ t.saved.drop d = fs := by
  subst hp
  refine ⟨f t, ?_, hd, hfs⟩
  rw [setThread, Function.update_self, ht]
  rfl

/-- **One event.** -/
theorem Deep.step (h : m.Deep p d fs) (hl : m.Legal e) (hd : depthAfter p m.current d e = some d') :
    (m.step e).Deep p d' fs := by
  obtain ⟨t, ht, hlen, hdrop⟩ := id h
  cases e with
  | work regs mem =>
      obtain rfl := Option.some.inj hd
      exact h
  | interrupt el vector =>
      obtain rfl := Option.some.inj hd
      by_cases hp : m.current = p
      · rw [if_pos hp]
        exact Deep.self ht hp (Nat.succ_le_succ hlen) hdrop
      · rw [if_neg hp]
        exact h.other hp
  | resume el =>
      rw [depthAfter] at hd
      by_cases hp : m.current = p
      · rw [if_pos hp] at hd
        by_cases h0 : d = 0
        · rw [if_pos h0] at hd
          exact absurd hd (by simp)
        · rw [if_neg h0] at hd
          obtain rfl := Option.some.inj hd
          obtain ⟨d, rfl⟩ : ∃ n, d = n + 1 := ⟨d - 1, by omega⟩
          refine Deep.self ht hp ?_ ?_
          · rw [popped, List.length_tail]
            omega
          · rw [popped, List.drop_tail]
            exact hdrop
      · rw [if_neg hp] at hd
        obtain rfl := Option.some.inj hd
        exact h.other hp
  | switch next =>
      obtain rfl := Option.some.inj hd
      by_cases hp : m.current = p
      · exact Deep.self ht hp hlen hdrop
      · exact h.other hp
  | amend n ctx mem =>
      rw [depthAfter] at hd
      by_cases hn : m.current = p ∧ d ≤ n
      · rw [if_pos hn] at hd
        exact absurd hd (by simp)
      · rw [if_neg hn] at hd
        obtain rfl := Option.some.inj hd
        by_cases hp : m.current = p
        · -- what is written to is further in
          have hlt : n < d := by
            by_contra hge
            exact hn ⟨hp, by omega⟩
          refine Deep.self ht hp ?_ ?_
          · rw [amended, List.length_modify]
            exact hlen
          · rw [amended, List.drop_modify_of_lt _ _ _ _ hlt]
            exact hdrop
        · exact h.other hp
  | create q v mem =>
      obtain rfl := Option.some.inj hd
      have hq : p ≠ q := by
        rintro rfl
        exact absurd (hl.1.symm.trans ht) (by simp)
      exact ⟨t, (Function.update_of_ne hq ..).trans ht, hlen, hdrop⟩
  | remove q =>
      rw [depthAfter] at hd
      by_cases hq : q = p
      · rw [if_pos hq] at hd
        exact absurd hd (by simp)
      · rw [if_neg hq] at hd
        obtain rfl := Option.some.inj hd
        exact ⟨t, (Function.update_of_ne (Ne.symm hq) ..).trans ht, hlen, hdrop⟩

/-- **A run.** -/
theorem Deep.run {cur' : Nat} (h : m.Deep p d fs) (hr : Run m es m') (hd : depth p m.current d es = some (cur', d')) :
    m'.Deep p d' fs ∧ m'.current = cur' := by
  induction hr generalizing d with
  | nil m =>
      obtain ⟨rfl, rfl⟩ := Prod.mk.inj (Option.some.inj hd)
      exact ⟨h, rfl⟩
  | @cons m m' e es hl _ ih =>
      rw [depth] at hd
      obtain ⟨d₁, h₁, hd⟩ := Option.bind_eq_some_iff.mp hd
      rw [← step_current] at hd
      exact ih (h.step hl h₁) hd

/-- Thread `p` is not on the core, and is as it was. -/
def Away (m : Cpu M) (p : Nat) (t : Thread) : Prop := m.current ≠ p ∧ m.thread p = some t

theorem Away.step (h : m.Away p t) (hl : m.Legal e) (hne : e ≠ .switch p ∧ e ≠ .remove p) : (m.step e).Away p t := by
  obtain ⟨hp, ht⟩ := id h
  have hother : ∀ {q v}, q ≠ p → m.setThread q v p = some t := fun hq => (Function.update_of_ne (Ne.symm hq) ..).trans ht
  cases e with
  | work regs mem => exact h
  | interrupt el vector => exact ⟨hp, hother hp⟩
  | resume el => exact ⟨hp, hother hp⟩
  | switch next =>
      refine ⟨?_, hother hp⟩
      rintro rfl
      exact hne.1 rfl
  | amend n ctx mem => exact ⟨hp, hother hp⟩
  | create q v mem =>
      refine ⟨hp, hother ?_⟩
      rintro rfl
      exact absurd (hl.1.symm.trans ht) (by simp)
  | remove q =>
      refine ⟨hp, hother ?_⟩
      rintro rfl
      exact hne.2 rfl

theorem Away.run (h : m.Away p t) (hr : Run m es m') (hne : ∀ e ∈ es, e ≠ .switch p ∧ e ≠ .remove p) : m'.Away p t := by
  induction hr with
  | nil m => exact h
  | cons hl _ ih => exact ih (h.step hl (hne _ List.mem_cons_self)) (fun e he => hne e (List.mem_cons_of_mem _ he))

end Cpu

open Cpu

variable [WordMemory M] {m m' : Cpu M} {p el : Nat} {vector : BitVec 64} {es : List (CpuEvent M)}

/-- What is interrupted first when an exception is taken. -/
theorem deep_interrupt {t : Thread} (el : Nat) (vector : BitVec 64) (ht : m.thread m.current = some t) :
    (m.step (.interrupt el vector)).Deep m.current 0 ((pushed t el m.core.regs).saved) := by
  refine ⟨pushed t el m.core.regs, ?_, Nat.zero_le _, rfl⟩
  show m.setThread m.current ((m.thread m.current).map _) m.current = _
  rw [setThread, Function.update_self, ht]
  rfl

/-- What a thread goes on with that leaves frame `f`. -/
theorem CpuInv.resumed {f : Saved} {fs : List Saved} (h : CpuInv m) (hd : m.Deep m.current 0 (f :: fs))
    (hret : m.Legal (.resume el)) :
    ctxOf (m.step (.resume el)).core.regs =
      { f.ctx with
        sp := BitVec.ofNat 64 (f.base + sFrameSize)
        spEl0 := if el = 0 then f.ctx.spEl0 else m.core.regs.spEl0 } := by
  obtain ⟨t, ht, _, hsaved⟩ := hd
  rw [List.drop_zero] at hsaved
  obtain ⟨t', f', fs', ht', hsaved', rfl, hsp⟩ := hret
  obtain rfl := Option.some.inj (ht.symm.trans ht')
  obtain ⟨rfl, rfl⟩ := List.cons.inj (hsaved.symm.trans hsaved')
  have hframe := h.frames _ _ ht f (by rw [hsaved]; exact List.mem_cons_self)
  obtain ⟨hx, hsp', hspEl0, hpc, hpstate⟩ := (leaveKernel_spec (h.frameAt ht hsaved hsp).1 hframe).2
  -- and the stack pointer is above the frame
  have hbase : m.core.regs.sp = BitVec.ofNat 64 f.base := by rw [← hsp, BitVec.ofNat_toNat, BitVec.setWidth_eq]
  have hup : (leaveKernel f.el m.core).regs.sp = BitVec.ofNat 64 (f.base + sFrameSize) := by
    rw [hsp', hbase, ← BitVec.ofNat_add]
  show ctxOf (leaveKernel f.el m.core).regs = _
  rw [ctxOf, hx, hup, hspEl0, hpc, hpstate]

/-- A frame is written to. -/
theorem Cpu.Deep.amended {f : Saved} {fs : List Saved} (h : m.Deep m.current 0 (f :: fs)) (ctx : Ctx) (mem : M) :
    (m.step (.amend 0 ctx mem)).Deep m.current 0 ({ f with ctx := ctx } :: fs) := by
  obtain ⟨t, ht, _, hsaved⟩ := h
  rw [List.drop_zero] at hsaved
  refine ⟨Cpu.amended t 0 ctx, ?_, Nat.zero_le _, ?_⟩
  · show m.setThread m.current ((m.thread m.current).map _) m.current = _
    rw [setThread, Function.update_self, ht]
    rfl
  · rw [List.drop_zero, Cpu.amended, hsaved]
    rfl

/-- That leaves as much room. -/
theorem Cpu.interrupt_amended {n : Nat} {ctx : Ctx} {mem : M} (h : m.Legal (.interrupt el vector)) :
    (m.step (.amend n ctx mem)).Legal (.interrupt el vector) := by
  obtain ⟨t, ht, hroom⟩ := h
  refine ⟨Cpu.amended t n ctx, ?_, hroom⟩
  show m.setThread m.current ((m.thread m.current).map _) m.current = _
  rw [setThread, Function.update_self, ht]
  rfl

/-- A frame can be left when the stack pointer is at it. -/
theorem Cpu.Deep.can_resume {f : Saved} {fs : List Saved} (h : m.Deep m.current 0 (f :: fs))
    (hsp : m.core.regs.sp.toNat = f.base) : m.Legal (.resume f.el) := by
  obtain ⟨t, ht, _, hsaved⟩ := h
  exact ⟨t, f, fs, ht, hsaved, rfl, hsp⟩

theorem CpuInv.interrupt_sp (h : CpuInv m) (hint : m.Legal (.interrupt el vector)) :
    (m.step (.interrupt el vector)).core.regs.sp = m.core.regs.sp - BitVec.ofNat 64 sFrameSize := by
  obtain ⟨t, ht, hroom⟩ := hint
  obtain ⟨hat, _, _⟩ := h.room ht hroom
  obtain ⟨_, hsp, _⟩ := enterKernel_spec el vector hat
  exact hsp

/-- Above the frame the stack pointer is where it was. -/
theorem CpuInv.frame_top (h : CpuInv m) (hint : m.Legal (.interrupt el vector)) :
    BitVec.ofNat 64 ((m.core.regs.sp - BitVec.ofNat 64 sFrameSize).toNat + sFrameSize) = m.core.regs.sp := by
  obtain ⟨t, ht, hroom⟩ := hint
  obtain ⟨hat, _, _⟩ := h.room ht hroom
  unfold RoomAt at hat
  rw [← hat, BitVec.ofNat_toNat, BitVec.setWidth_eq]

/-- An exception can be returned from at once. -/
theorem CpuInv.can_resume (h : CpuInv m) (hint : m.Legal (.interrupt el vector)) :
    (m.step (.interrupt el vector)).Legal (.resume el) := by
  obtain ⟨t, ht, _⟩ := id hint
  have hdeep : (m.step (.interrupt el vector)).Deep (m.step (.interrupt el vector)).current 0 (_ :: t.saved) :=
    deep_interrupt el vector ht
  exact hdeep.can_resume (congrArg BitVec.toNat (h.interrupt_sp hint))

/-- And leaves the stack pointer where it was. -/
theorem CpuInv.resumed_sp (h : CpuInv m) (hint : m.Legal (.interrupt el vector)) :
    ((m.step (.interrupt el vector)).step (.resume el)).core.regs.sp = m.core.regs.sp := by
  obtain ⟨t, ht, _⟩ := id hint
  have hres := (h.step hint).resumed (deep_interrupt el vector ht) (h.can_resume hint)
  exact (congrArg Ctx.sp hres).trans (h.frame_top hint)

/-- A thread about to leave a frame is interrupted once more, and leaves it then. -/
theorem CpuInv.interrupted_return {f : Saved} {fs : List Saved} (h : CpuInv m) (hdeep : m.Deep m.current 0 (f :: fs))
    (hsp : m.core.regs.sp.toNat = f.base) (hint : m.Legal (.interrupt el vector)) :
    let m' := (m.step (.interrupt el vector)).step (.resume el)
    let es : List (CpuEvent M) := [.interrupt el vector, .resume el]
    Run m es m' ∧ depth m.current m.current 0 es = some (m.current, 0) ∧ m'.Legal (.resume f.el) := by
  intro m' es
  have hrun : Run m es m' := .cons hint (.cons (h.can_resume hint) (.nil _))
  have hback : depth m.current m.current 0 es = some (m.current, 0) := by simp [es, depth, depthAfter, currentAfter]
  obtain ⟨hdeep', hcur⟩ := hdeep.run hrun hback
  rw [← hcur] at hdeep'
  exact ⟨hrun, hback, hdeep'.can_resume (by rw [h.resumed_sp hint, hsp])⟩

/-- What is on the core when a thread is switched to that was away. -/
theorem CpuInv.switchedTo {t : Thread} (h : CpuInv m) (haway : m.Away p t) (hrun : Run m es m')
    (hstay : ∀ e ∈ es, e ≠ .switch p ∧ e ≠ .remove p) (hin : m'.Legal (.switch p)) :
    SwitchedTo t.x t.sp m'.core.regs (m'.step (.switch p)).core.regs ∧ (m'.step (.switch p)).Deep p 0 t.saved := by
  obtain ⟨_, ht⟩ := haway.run hrun hstay
  obtain ⟨hne, _, h0, h1⟩ := hin
  obtain ⟨v, hv, _⟩ := (h.run hrun).running
  refine ⟨((h.run hrun).switched hv ht hne h0 h1).2, t, ?_, Nat.zero_le _, rfl⟩
  exact (Function.update_of_ne hne ..).trans ht

/-- One run after the other. -/
theorem Cpu.Run.append {m₁ m₂ : Cpu M} {es' : List (CpuEvent M)} (h : Run m es m₁) (h' : Run m₁ es' m₂) :
    Run m (es ++ es') m₂ := by
  induction h with
  | nil m => exact h'
  | cons hl _ ih => exact .cons hl (ih h')

/-! ## A way round -/

/-- What is on the core when `cpu_switch_to` is called, with `v` in the registers that do not matter. -/
def callFrom (v : BitVec 64) (prev next : Nat) (sp : BitVec 64) : Regs where
  x := fun r => if r = 0 then BitVec.ofNat 64 prev else if r = 1 then BitVec.ofNat 64 next else v
  sp := sp
  spEl0 := 0
  elr := 0
  spsr := 0
  esr := 0
  pc := 0
  pstate := 5

/-- Thread `p` gives the core to `q`, which is interrupted before it gives it back. -/
def detour (p q : Nat) (sp sp' : BitVec 64) (mem mem' : M) : List (CpuEvent M) :=
  [.work (callFrom 3 p q sp) mem, .switch q, .work (callFrom 4 q p sp') mem', .interrupt 1 0x80a80, .resume 1, .switch p]

omit [WordMemory M] in
theorem depth_detour {p q : Nat} (hq : q ≠ p) (sp sp' : BitVec 64) (mem mem' : M) :
    depth p p 0 (detour p q sp sp' mem mem') = some (p, 0) := by
  simp [detour, depth, depthAfter, currentAfter, hq]

/-- **There is a way round** by any other thread that has room on its stack for a frame. -/
theorem CpuInv.detour {q : Nat} {t u : Thread} {sp : BitVec 64} (h : CpuInv m) (ht : m.thread m.current = some t)
    (hu : m.thread q = some u) (hq : q ≠ m.current) (hsp : OnStack t sp) (hroom : u.low + sFrameSize ≤ u.sp.toNat) :
    ∃ mem m', Run m (detour m.current q sp u.sp m.core.mem mem) m' ∧ m'.core.regs.sp = sp ∧ m'.current = m.current ∧
      m'.Deep m.current 0 t.saved := by
  have hp64 : m.current < 2 ^ 64 := by have := (h.placed _ _ ht).context; omega
  have hq64 : q < 2 ^ 64 := by have := (h.placed _ _ hu).context; omega
  have hwork : m.Legal (.work (callFrom 3 m.current q sp) m.core.mem) := ⟨fun _ _ => rfl, t, ht, hsp⟩
  let m₁ : Cpu M := m.step (.work (callFrom 3 m.current q sp) m.core.mem)
  have h₁ : CpuInv m₁ := h.step hwork
  have hout : m₁.Legal (.switch q) :=
    ⟨hq, ⟨u, hu⟩, (BitVec.toNat_ofNat ..).trans (Nat.mod_eq_of_lt hp64),
      (BitVec.toNat_ofNat ..).trans (Nat.mod_eq_of_lt hq64)⟩
  let m₂ : Cpu M := m₁.step (.switch q)
  have h₂ : CpuInv m₂ := h₁.step hout
  have haway : m₂.Away m.current (parked t (callFrom 3 m.current q sp)) := by
    refine ⟨hq, ?_⟩
    show m₁.setThread m.current ((m₁.thread m.current).map _) m.current = _
    rw [setThread, Function.update_self, show m₁.thread m.current = some t from ht]
    rfl
  have hu₂ : m₂.thread q = some u := (Function.update_of_ne hq ..).trans hu
  -- the second thread, as it was when it last ran
  have hback : m₂.Legal (.work (callFrom 4 q m.current u.sp) m₂.core.mem) :=
    ⟨fun _ _ => rfl, u, hu₂, (h.contexts _ _ hq hu).2⟩
  let m₃ : Cpu M := m₂.step (.work (callFrom 4 q m.current u.sp) m₂.core.mem)
  have h₃ : CpuInv m₃ := h₂.step hback
  have hint : m₃.Legal (.interrupt 1 0x80a80) := ⟨u, hu₂, hroom⟩
  let m₄ : Cpu M := m₃.step (.interrupt 1 0x80a80)
  have hret : m₄.Legal (.resume 1) := h₃.can_resume hint
  have hrun : Run m₂ [.work (callFrom 4 q m.current u.sp) m₂.core.mem, .interrupt 1 0x80a80, .resume 1] (m₄.step (.resume 1)) :=
    .cons hback (.cons hint (.cons hret (.nil _)))
  -- it goes on with the registers it had
  have hx : ctxOf (m₄.step (.resume 1)).core.regs = _ := (h₃.step hint).resumed (deep_interrupt _ _ hu₂) hret
  have hregs : (m₄.step (.resume 1)).core.regs.x = (callFrom 4 q m.current u.sp).x := congrArg Ctx.x hx
  have hstay : ∀ e ∈ [CpuEvent.work (callFrom 4 q m.current u.sp) m₂.core.mem, .interrupt 1 0x80a80, .resume 1],
      e ≠ .switch m.current ∧ e ≠ .remove m.current := by simp
  have hin : (m₄.step (.resume 1)).Legal (.switch m.current) := by
    refine ⟨hq.symm, ⟨_, (haway.run hrun hstay).2⟩, ?_, ?_⟩
    · rw [hregs]
      exact (BitVec.toNat_ofNat ..).trans (Nat.mod_eq_of_lt hq64)
    · rw [hregs]
      exact (BitVec.toNat_ofNat ..).trans (Nat.mod_eq_of_lt hp64)
  obtain ⟨hswitched, hdeep⟩ := h₂.switchedTo haway hrun hstay hin
  exact ⟨m₂.core.mem, _, .cons hwork (.cons hout (hrun.append (.cons hin (.nil _)))), hswitched.sp, rfl, hdeep⟩

/-! ## The first two threads -/

/-- The addresses of the thirteen routines in `sys_call_table`. -/
def startedTable : List (BitVec 64) := (List.range 13).map fun i => BitVec.ofNat 64 (0x88000 + 0x100 * i)

/-- A kernel that has just started, with its stack below `0x80000` and the table at `0x85000`. -/
def startedCpu : Cpu (Nat → UInt8) where
  core := ⟨⟨fun _ => 7, 0x80000, 0x40000, 0, 0, 0x56000000, 0x80abc, 5⟩, storeWords (fun _ => 0) 0x85000 startedTable⟩
  current := 0x90000
  thread := fun p => if p = 0x90000 then some ⟨0x10000, 0x80000, [], fun _ => 0, 0⟩ else none

theorem startedCpu_booted : Booted startedCpu where
  thread := ⟨⟨0x10000, 0x80000, [], fun _ => 0, 0⟩, rfl,
    ⟨by decide, by decide, Or.inr (by decide), show (0x10000 : Nat) ≤ 0x80000 by decide⟩,
    rfl, by decide, by decide⟩
  only := fun p hp => if_neg hp

/-- A second thread, that has not run yet. -/
def secondThread : Thread := ⟨0x200100, 0x201000, [], fun _ => 0, 0x201000⟩

/-- Memory with its context. -/
def secondMem : Nat → UInt8 := storeWords startedCpu.core.mem 0x200000 (contextWords secondThread.x secondThread.sp)

theorem startedCpu_holds (a : Nat) : ¬ startedCpu.Holds a := by
  have hno : ∀ {p t}, startedCpu.thread p = some t → p = startedCpu.current ∧ t.saved = [] := by
    intro p t ht
    simp only [startedCpu] at ht
    by_cases hp : p = 0x90000
    · rw [if_pos hp] at ht
      exact ⟨hp, by rw [← Option.some.inj ht]⟩
    · rw [if_neg hp] at ht
      exact absurd ht (by simp)
  rintro (⟨p, t, f, i, ht, hf, _⟩ | ⟨p, t, i, hp, ht, _⟩)
  · rw [(hno ht).2] at hf
    exact absurd hf (by simp)
  · exact hp (hno ht).1

/-- The first thread's program, about to make a system call: `fork`. -/
def firstProgram : Regs where
  x := fun r => if r = 8 then 4 else BitVec.ofNat 64 (9 + r)
  sp := 0x80000
  spEl0 := 0x40000
  elr := 0
  spsr := 0
  esr := 0x56000000
  pc := 0x1000
  pstate := 0

/-- Two threads, the first of them in user mode. -/
def twoThreads : Cpu (Nat → UInt8) :=
  (startedCpu.step (.create 0x200000 secondThread secondMem)).step (.work firstProgram secondMem)

theorem twoThreads_run : Run startedCpu [.create 0x200000 secondThread secondMem, .work firstProgram secondMem] twoThreads := by
  refine .cons ⟨rfl, ?_, ⟨⟨by decide, by decide, Or.inl (by decide), show (0x200100 : Nat) ≤ 0x201000 by decide⟩,
    fun f hf => absurd hf (by simp [secondThread]), wordsAt_storeWords _ _ _, by decide, by decide⟩,
    fun a ha => absurd ha (startedCpu_holds a)⟩ (.cons ⟨fun a _ => rfl, _, rfl, by decide, by decide⟩ (.nil _))
  intro q u hu
  simp only [startedCpu] at hu
  by_cases hq : q = 0x90000
  · rw [if_pos hq] at hu
    obtain rfl := Option.some.inj hu
    subst hq
    exact ⟨Or.inr (by decide), Or.inr (by decide), Or.inr (by decide), Or.inl (by decide)⟩
  · rw [if_neg hq] at hu
    exact absurd hu (by simp)

theorem twoThreads_reachable : Cpu.Reachable twoThreads := ⟨startedCpu, _, startedCpu_booted, twoThreads_run⟩

/-! ## What a thread does not notice -/

/--
**An interruption is not noticed**, whatever happens before the return from it.
Only `kernel_exit 1` leaves `sp_el0` as it finds it.
-/
theorem interrupt_transparent (hreach : Cpu.Reachable m) (hint : m.Legal (.interrupt el vector))
    (hrun : Run (m.step (.interrupt el vector)) es m') (hback : depth m.current m.current 0 es = some (m.current, 0))
    (hret : m'.Legal (.resume el)) :
    ctxOf (m'.step (.resume el)).core.regs =
      { ctxOf m.core.regs with spEl0 := if el = 0 then m.core.regs.spEl0 else m'.core.regs.spEl0 } := by
  have hinv := cpuInv_reachable hreach
  obtain ⟨t, ht, _⟩ := id hint
  obtain ⟨hdeep, hcur⟩ := (deep_interrupt el vector ht).run hrun hback
  have hres := ((hinv.step hint).run hrun).resumed (hcur.symm ▸ hdeep) hret
  rw [hres, hinv.frame_top hint]
  rfl

/-- The handler gives the core to the second thread, which is interrupted before it gives it back. -/
theorem interrupt_transparent_detour :
    let m := twoThreads.step (.interrupt 0 0x480)
    ∃ mem m', Run m (detour 0x90000 0x200000 m.core.regs.sp secondThread.sp m.core.mem mem) m' ∧
      ctxOf (m'.step (.resume 0)).core.regs = ctxOf firstProgram := by
  have hint : twoThreads.Legal (.interrupt 0 0x480) := ⟨_, rfl, by decide⟩
  have hinv := cpuInv_reachable twoThreads_reachable
  obtain ⟨t, ht, hon⟩ := (hinv.step hint).running
  obtain ⟨mem, m', hrun, hsp, hcur, hdeep⟩ :=
    (hinv.step hint).detour (q := 0x200000) (u := secondThread) ht rfl (by decide) hon (by decide)
  obtain rfl := Option.some.inj ht
  have hdeep' : m'.Deep m'.current 0 (_ :: []) := hcur.symm ▸ hdeep
  have hret : m'.Legal (.resume 0) := hdeep'.can_resume (congrArg BitVec.toNat (hsp.trans (hinv.interrupt_sp hint)))
  exact ⟨mem, m', hrun, interrupt_transparent twoThreads_reachable hint hrun (depth_detour (by decide) _ _ _ _) hret⟩

/-- **A switch away and back** is a call that returns, whatever other threads did in between. -/
theorem switch_transparent {q : Nat} (hreach : Cpu.Reachable m) (hout : m.Legal (.switch q))
    (hrun : Run (m.step (.switch q)) es m') (hstay : ∀ e ∈ es, e ≠ .switch m.current ∧ e ≠ .remove m.current)
    (hin : m'.Legal (.switch m.current)) :
    let back := (m'.step (.switch m.current)).core.regs
    (∀ r ∈ calleeSaved, back.x r = m.core.regs.x r) ∧ back.x 30 = m.core.regs.x 30 ∧ back.sp = m.core.regs.sp ∧
      back.pc = m.core.regs.x 30 := by
  have hinv := cpuInv_reachable hreach
  obtain ⟨t, ht, _⟩ := hinv.running
  have haway : (m.step (.switch q)).Away m.current (parked t m.core.regs) := by
    refine ⟨hout.1, ?_⟩
    show m.setThread m.current ((m.thread m.current).map _) m.current = _
    rw [setThread, Function.update_self, ht]
    rfl
  obtain ⟨hback, _⟩ := (hinv.step hout).switchedTo haway hrun hstay hin
  exact ⟨hback.callee, hback.lr, hback.sp, hback.pc⟩

/-- The first thread is about to call `cpu_switch_to`. -/
def firstCalls : Cpu (Nat → UInt8) := twoThreads.step (.work (callFrom 9 0x90000 0x200000 0x80000) twoThreads.core.mem)

theorem firstCalls_reachable : Cpu.Reachable firstCalls := by
  have hwork : twoThreads.Legal (.work (callFrom 9 0x90000 0x200000 0x80000) twoThreads.core.mem) :=
    ⟨fun _ _ => rfl, _, rfl, by decide, by decide⟩
  exact ⟨startedCpu, _, startedCpu_booted, twoThreads_run.append (.cons hwork (.nil _))⟩

/-- The second thread gives the core back. -/
theorem switch_transparent_two :
    let back := (((firstCalls.step (.switch 0x200000)).step (.work (callFrom 4 0x200000 0x90000 0x201000)
      (firstCalls.step (.switch 0x200000)).core.mem)).step (.switch 0x90000)).core.regs
    (∀ r ∈ calleeSaved, back.x r = 9) ∧ back.x 30 = 9 ∧ back.sp = 0x80000 ∧ back.pc = 9 := by
  have hout : firstCalls.Legal (.switch 0x200000) := ⟨by decide, ⟨_, rfl⟩, by decide, by decide⟩
  have hrun : Run (firstCalls.step (.switch 0x200000)) [.work (callFrom 4 0x200000 0x90000 0x201000)
      (firstCalls.step (.switch 0x200000)).core.mem] _ :=
    .cons ⟨fun a _ => rfl, secondThread, rfl, by decide, by decide⟩ (.nil _)
  have hback := switch_transparent firstCalls_reachable hout hrun (fun e he => by
    obtain rfl := List.mem_singleton.mp he
    exact ⟨by simp, by simp⟩) ⟨by decide, ⟨_, rfl⟩, by decide, by decide⟩
  obtain ⟨hcallee, hlr, hsp, hpc⟩ := hback
  refine ⟨fun r hr => (hcallee r hr).trans ?_, hlr, hsp, hpc⟩
  have h2 : ∀ r ∈ calleeSaved, (callFrom 9 0x90000 0x200000 0x80000).x r = 9 := by decide
  exact h2 r hr

end OsdiKernel
