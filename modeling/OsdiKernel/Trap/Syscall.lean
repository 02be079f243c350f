import OsdiKernel.Trap.Transparent

/-!
# System calls

The two handlers of synchronous exceptions, from the `kernel_entry` to the call
of a routine of `sys_call_table`, and from its return to the `kernel_exit`. What
the caller gets back is what it had, with the routine's result in `x0`.
-/

namespace OsdiKernel

open A64

/-- `ESR_ELx_EC_SHIFT` -/
def esrEcShift : Nat := 26

/-- `ESR_ELx_EC_SVC64` -/
def esrEcSvc64 : BitVec 64 := 0x15

/-- `__NR_syscalls` -/
def nrSyscalls : Nat := 11

/-- `SYNC_ERROR` -/
def syncError : Nat := 16

/-- `SYSCALL_ERROR` -/
def syscallError : Nat := 17

/-- Where the linker puts `sys_call_table`, and where `bl enable_irq` returns to. -/
structure HandlerLabels where
  sysCallTable : Nat
  enabled : Nat

/-- Where a handler goes on. -/
inductive Dispatch where
  /-- `blr x16` -/
  | routine (target : BitVec 64)
  /-- `handle_invalid_entry el, type`, which does not return -/
  | hang (el type : Nat)
  deriving DecidableEq, Repr

variable {M : Type} [WordMemory M]

/--
`el0_sync_exc_handler` and `el1_sync_exc_handler` after their `kernel_entry`.
`ni_sys` is the label of the first, and the second goes there too.
-/
def syncExcHandler (el : Nat) (l : HandlerLabels) (s : State M) : State M × Dispatch :=
  let s := run s [.mrs 25 .esrEl1, .lsr 24 25 esrEcShift]
  if s.regs.x 24 = esrEcSvc64 then
    let s := run s [.movImm 27 l.sysCallTable, .uxtw 26 8, .movImm 25 nrSyscalls]
    -- `bl enable_irq`
    let s := run s [.movImm 30 l.enabled, .daifClr 2]
    if s.regs.x 25 ≤ s.regs.x 26 then (s, .hang 0 syscallError)
    else
      let s := exec s (.ldrIdx 16 27 26)
      (s, .routine (s.regs.x 16))
  else (s, .hang el syncError)

/-- The number of the system call: what is in `w8`. -/
def syscallNumber (c : Regs) : Nat := (c.x 8).toNat % 2 ^ 32

/-- What a synchronous exception is for. -/
def dispatchOf (el : Nat) (l : HandlerLabels) (mem : M) (c : Regs) : Dispatch :=
  if c.esr >>> esrEcShift = esrEcSvc64 then
    if syscallNumber c < nrSyscalls then .routine (load mem (l.sysCallTable + 8 * syscallNumber c))
    else .hang 0 syscallError
  else .hang el syncError

variable {s : State M} {l : HandlerLabels} {el : Nat}

/-- **The handler** comes to the routine of the number in `w8`, and only if there is one. -/
theorem syncExcHandler_spec (el : Nat) (s : State M) (hl : l.sysCallTable + 8 * nrSyscalls < 2 ^ 64) :
    (syncExcHandler el l s).2 = dispatchOf el l s.mem s.regs ∧ (syncExcHandler el l s).1.mem = s.mem ∧
      (syncExcHandler el l s).1.regs.sp = s.regs.sp ∧ (syncExcHandler el l s).1.regs.spEl0 = s.regs.spEl0 := by
  let s₁ : State M := run s [.mrs 25 .esrEl1, .lsr 24 25 esrEcShift]
  have h24 : s₁.regs.x 24 = s.regs.esr >>> esrEcShift := rfl
  let s₂ : State M := run (run s₁ [.movImm 27 l.sysCallTable, .uxtw 26 8, .movImm 25 nrSyscalls]) [.movImm 30 l.enabled, .daifClr 2]
  have h25 : s₂.regs.x 25 = BitVec.ofNat 64 nrSyscalls := rfl
  have h26 : s₂.regs.x 26 = ((s.regs.x 8).setWidth 32).setWidth 64 := rfl
  have h27 : s₂.regs.x 27 = BitVec.ofNat 64 l.sysCallTable := rfl
  have hnr : (s₂.regs.x 26).toNat = syscallNumber s.regs := by
    rw [h26, BitVec.toNat_setWidth, BitVec.toNat_setWidth, syscallNumber]
    omega
  have hle : s₂.regs.x 25 ≤ s₂.regs.x 26 ↔ ¬ syscallNumber s.regs < nrSyscalls := by
    rw [BitVec.le_def, hnr, h25, Nat.not_lt]
    rfl
  -- the entry of the table
  have haddr : syscallNumber s.regs < nrSyscalls →
      (s₂.regs.x 27 + s₂.regs.x 26 <<< 3).toNat = l.sysCallTable + 8 * syscallNumber s.regs := by
    intro hlt
    have hshift : (s₂.regs.x 26 <<< 3).toNat = 8 * syscallNumber s.regs := by
      rw [BitVec.toNat_shiftLeft, hnr, Nat.shiftLeft_eq]
      unfold nrSyscalls at hlt
      omega
    rw [BitVec.toNat_add, hshift, h27, BitVec.toNat_ofNat]
    unfold nrSyscalls at hl hlt
    omega
  by_cases hec : s.regs.esr >>> esrEcShift = esrEcSvc64
  · have hec₁ : s₁.regs.x 24 = esrEcSvc64 := h24.trans hec
    by_cases hlt : syscallNumber s.regs < nrSyscalls
    · have hno : ¬ s₂.regs.x 25 ≤ s₂.regs.x 26 := fun h => hle.mp h hlt
      have hrun : syncExcHandler el l s = (exec s₂ (.ldrIdx 16 27 26), .routine ((exec s₂ (.ldrIdx 16 27 26)).regs.x 16)) := by
        rw [syncExcHandler]
        exact (if_pos hec₁).trans (if_neg hno)
      have h16 : (exec s₂ (.ldrIdx 16 27 26)).regs.x 16 = load s.mem (l.sysCallTable + 8 * syscallNumber s.regs) := by
        rw [← haddr hlt]
        rfl
      rw [hrun, dispatchOf, if_pos hec, if_pos hlt, h16]
      exact ⟨rfl, rfl, rfl, rfl⟩
    · have hrun : syncExcHandler el l s = (s₂, .hang 0 syscallError) := by
        rw [syncExcHandler]
        exact (if_pos hec₁).trans (if_pos (hle.mpr hlt))
      rw [hrun, dispatchOf, if_pos hec, if_neg hlt]
      exact ⟨rfl, rfl, rfl, rfl⟩
  · have hrun : syncExcHandler el l s = (s₁, .hang el syncError) := by
      rw [syncExcHandler]
      exact if_neg (fun h => hec (h24.symm.trans h))
    rw [hrun, dispatchOf, if_neg hec]
    exact ⟨rfl, rfl, rfl, rfl⟩

/-! ## The way back -/

open Cpu

/-- The caller, once its `x0` is written to. -/
def Ctx.setResult (c : Ctx) (w : BitVec 64) : Ctx := { c with x := Function.update c.x 0 w }

/-- `str x0, [sp, #S_X0]`, where `f` is the frame. -/
def storeResult (m : Cpu M) (f : Saved) : CpuEvent M :=
  .amend 0 (f.ctx.setResult (m.core.regs.x 0)) (exec m.core (.strSp 0 sX0)).mem

variable {m m' : Cpu M} {f : Saved} {fs : List Saved} {t : Thread} {vector target : BitVec 64} {es : List (CpuEvent M)}

theorem frameWords_setResult (el : Nat) (c : Ctx) (w : BitVec 64) :
    frameWords el (c.setResult w) = (frameWords el c).set 0 w := by
  have hcons : List.finRange 31 = 0 :: (List.finRange 30).map Fin.succ := List.finRange_succ
  have hrest : ((List.finRange 30).map Fin.succ).map (Function.update c.x 0 w) = ((List.finRange 30).map Fin.succ).map c.x := by
    rw [List.map_map, List.map_map]
    exact List.map_congr_left (fun r _ => Function.update_of_ne (Fin.succ_ne_zero r) ..)
  simp only [frameWords, Ctx.setResult, hcons, List.map_cons, hrest, Function.update_self, List.cons_append, List.set_cons_zero]

/-- A word that is held and not in the frame is not near it. -/
theorem CpuInv.held_apart {a : Nat} (h : CpuInv m) (ht : m.thread m.current = some t) (hsaved : t.saved = f :: fs)
    (ha : m.Holds a) (hne : ∀ i < 34, a ≠ f.base + 8 * i) : a + 8 ≤ f.base ∨ f.base + sFrameSize ≤ a := by
  have hstacked := (h.placed _ _ ht).stacked
  have hf := hstacked.mem (f := f) (by rw [hsaved]; exact List.mem_cons_self)
  have hlow := hstacked.le_floor
  have hother : ∀ q u, q ≠ m.current → m.thread q = some u → u.Word q a → a + 8 ≤ f.base ∨ f.base + sFrameSize ≤ a := by
    intro q u hq hu hw
    have hapart := ((h.apart _ _ _ _ ht hu (Ne.symm hq)).word (h.placed q u hu).stacked hw).2
    omega
  rcases ha with ⟨q, u, g, i, hu, hg, hi, rfl⟩ | ⟨q, u, i, hq, hu, hi, rfl⟩
  · by_cases hq : q = m.current
    · subst hq
      obtain rfl := Option.some.inj (ht.symm.trans hu)
      rw [hsaved] at hg
      rcases List.mem_cons.mp hg with rfl | hg
      · exact absurd rfl (hne i hi)
      · obtain ⟨k, hk⟩ := List.getElem?_of_mem hg
        have hup := hstacked.apart (f := f) (g := g) (i := 0) (j := k + 1) (by omega) (by rw [hsaved]; rfl)
          (by rw [hsaved]; exact hk)
        omega
    · exact hother q u hq hu (Or.inl ⟨g, i, hg, hi, rfl⟩)
  · exact hother q u hq hu (Or.inr ⟨i, hi, rfl⟩)

theorem CpuInv.can_storeResult (h : CpuInv m) (ht : m.thread m.current = some t) (hsaved : t.saved = f :: fs)
    (hsp : m.core.regs.sp.toNat = f.base) : m.Legal (storeResult m f) := by
  have hat : m.core.regs.atSp sX0 = f.base := (h.frameAt ht hsaved hsp).1.atSp (by decide)
  have hin : f ∈ t.saved := by rw [hsaved]; exact List.mem_cons_self
  have hframe := h.frames _ _ ht f hin
  have hmem : (exec m.core (.strSp 0 sX0)).mem = store m.core.mem f.base (m.core.regs.x 0) := by rw [← hat]; rfl
  refine ⟨t, f, ht, by rw [hsaved]; rfl, ?_, ?_⟩
  · rw [hmem, frameWords_setResult]
    intro i w hi
    cases i with
    | zero =>
        obtain rfl := Option.some.inj hi
        exact load_store ..
    | succ i =>
        rw [load_store_ne _ _ _ _ (Or.inr (by omega))]
        exact hframe (i + 1) w hi
  · intro a ha hne
    have hapart := h.held_apart ht hsaved ha hne
    rw [hmem, load_store_ne]
    unfold sFrameSize at hapart
    omega

/-- A result stored, and the return to the caller. -/
theorem CpuInv.result_resumed (h : CpuInv m) (hd : m.Deep m.current 0 (f :: fs)) (hret : m.Legal (.resume el)) :
    m.Legal (storeResult m f) ∧ ctxOf ((m.step (storeResult m f)).step (.resume el)).core.regs =
      { f.ctx.setResult (m.core.regs.x 0) with
        sp := BitVec.ofNat 64 (f.base + sFrameSize)
        spEl0 := if el = 0 then f.ctx.spEl0 else m.core.regs.spEl0 } := by
  obtain ⟨t, ht, _, hsaved⟩ := hd
  rw [List.drop_zero] at hsaved
  obtain ⟨t', f', fs', ht', hsaved', hel, hsp⟩ := hret
  obtain rfl := Option.some.inj (ht.symm.trans ht')
  obtain ⟨rfl, rfl⟩ := List.cons.inj (hsaved.symm.trans hsaved')
  have hlegal := h.can_storeResult ht hsaved hsp
  -- the frame with the result in it
  have hthread : (m.step (storeResult m f)).thread m.current = some (amended t 0 (f.ctx.setResult (m.core.regs.x 0))) := by
    show m.setThread m.current ((m.thread m.current).map _) m.current = _
    rw [setThread, Function.update_self, ht]
    rfl
  have hamended : (amended t 0 (f.ctx.setResult (m.core.regs.x 0))).saved
      = { f with ctx := f.ctx.setResult (m.core.regs.x 0) } :: fs := by
    rw [amended, hsaved]
    rfl
  exact ⟨hlegal, (h.step hlegal).resumed ⟨_, hthread, Nat.zero_le _, hamended⟩ ⟨_, _, _, hthread, hamended, hel, hsp⟩⟩

/-- The handler of a synchronous exception, where it has found out what that is for. -/
def inHandler (m : Cpu M) (el : Nat) (l : HandlerLabels) (vector : BitVec 64) : Cpu M :=
  let m := m.step (.interrupt el vector)
  m.step (.work (syncExcHandler el l m.core).1.regs m.core.mem)

/-- The handler comes so far. -/
theorem CpuInv.can_dispatch (h : CpuInv m) (hint : m.Legal (.interrupt el vector))
    (hl : l.sysCallTable + 8 * nrSyscalls < 2 ^ 64) :
    (m.step (.interrupt el vector)).Legal
      (.work (syncExcHandler el l (m.step (.interrupt el vector)).core).1.regs (m.step (.interrupt el vector)).core.mem) := by
  obtain ⟨_, _, hsp, _⟩ := syncExcHandler_spec el (m.step (.interrupt el vector)).core hl
  obtain ⟨t, ht, hon⟩ := (h.step hint).running
  exact ⟨fun _ _ => rfl, t, ht, hsp.symm ▸ hon⟩

/--
**A system call** is a call of a routine of `sys_call_table`. Whatever happens
until the routine returns, its caller goes on with what it had, and the result.
-/
theorem syscall_returns (hreach : Cpu.Reachable m) (hint : m.Legal (.interrupt el vector))
    (hl : l.sysCallTable + 8 * nrSyscalls < 2 ^ 64)
    (hcall : (syncExcHandler el l (m.step (.interrupt el vector)).core).2 = .routine target)
    (hrun : Run (inHandler m el l vector) es m') (hback : depth m.current m.current 0 es = some (m.current, 0))
    (hret : m'.Legal (.resume el)) :
    (syscallNumber m.core.regs < nrSyscalls ∧
      target = load (m.step (.interrupt el vector)).core.mem (l.sysCallTable + 8 * syscallNumber m.core.regs)) ∧
    ∃ f, f.ctx = ctxOf m.core.regs ∧ m'.Legal (storeResult m' f) ∧
      ctxOf ((m'.step (storeResult m' f)).step (.resume el)).core.regs =
        { (ctxOf m.core.regs).setResult (m'.core.regs.x 0) with
          spEl0 := if el = 0 then m.core.regs.spEl0 else m'.core.regs.spEl0 } := by
  have hinv := cpuInv_reachable hreach
  obtain ⟨t, ht, hroom⟩ := id hint
  obtain ⟨hat, _, _⟩ := hinv.room ht hroom
  obtain ⟨_, _, hx, _, _, _⟩ := enterKernel_spec el vector hat
  obtain ⟨hdispatch, _⟩ := syncExcHandler_spec el (m.step (.interrupt el vector)).core hl
  refine ⟨?_, ?_⟩
  · -- the handler sees the number in the register the caller left it in
    have hnr : syscallNumber (m.step (.interrupt el vector)).core.regs = syscallNumber m.core.regs := by
      show ((enterKernel el vector m.core).regs.x 8).toNat % 2 ^ 32 = _
      rw [hx 8 (by decide)]
      rfl
    rw [hcall, dispatchOf, hnr] at hdispatch
    by_cases hec : (m.step (.interrupt el vector)).core.regs.esr >>> esrEcShift = esrEcSvc64
    · rw [if_pos hec] at hdispatch
      by_cases hlt : syscallNumber m.core.regs < nrSyscalls
      · rw [if_pos hlt] at hdispatch
        exact ⟨hlt, Dispatch.routine.inj hdispatch⟩
      · rw [if_neg hlt] at hdispatch
        exact Dispatch.noConfusion hdispatch
    · rw [if_neg hec] at hdispatch
      exact Dispatch.noConfusion hdispatch
  · -- the frame, to the end of the routine
    have hinv₁ := hinv.step hint
    have hwork := hinv.can_dispatch hint hl
    obtain ⟨hdeep, hcur⟩ := ((deep_interrupt el vector ht).step hwork rfl).run hrun hback
    obtain ⟨hstore, hres⟩ := ((hinv₁.step hwork).run hrun).result_resumed (hcur.symm ▸ hdeep) hret
    refine ⟨_, rfl, hstore, ?_⟩
    rw [hres, hinv.frame_top hint]
    rfl

/-- A table, out of the way. -/
def startedLabels : HandlerLabels := ⟨0x85000, 0x80900⟩

theorem twoThreads_calls : (syncExcHandler 0 startedLabels (twoThreads.step (.interrupt 0 0x400)).core).2 = .routine 0x88400 := by
  decide +kernel

/--
The first thread calls routine 4, which gives the core to the second thread; that
is interrupted and gives it back, and the routine returns 42.
-/
theorem syscall_returns_detour :
    let m := inHandler twoThreads 0 startedLabels 0x400
    (syscallNumber twoThreads.core.regs < nrSyscalls ∧
      0x88400 = load (twoThreads.step (.interrupt 0 0x400)).core.mem (0x85000 + 8 * 4)) ∧
    ∃ mem m₁ f, Run m (detour 0x90000 0x200000 m.core.regs.sp secondThread.sp m.core.mem mem) m₁ ∧
      let m' := m₁.step (.work (m₁.core.regs.set 0 42) m₁.core.mem)
      m'.Legal (storeResult m' f) ∧
        ctxOf ((m'.step (storeResult m' f)).step (.resume 0)).core.regs = (ctxOf firstProgram).setResult 42 := by
  intro m
  have hl : startedLabels.sysCallTable + 8 * nrSyscalls < 2 ^ 64 := by decide
  have hint : twoThreads.Legal (.interrupt 0 0x400) := ⟨_, rfl, by decide⟩
  have hinv := cpuInv_reachable twoThreads_reachable
  have hm : CpuInv m := (hinv.step hint).step (hinv.can_dispatch hint hl)
  have hsp : m.core.regs.sp = twoThreads.core.regs.sp - BitVec.ofNat 64 sFrameSize :=
    (syncExcHandler_spec 0 _ hl).2.2.1.trans (hinv.interrupt_sp hint)
  obtain ⟨t, ht, hon⟩ := hm.running
  obtain ⟨mem, m₁, hrun, hsp₁, hcur, hdeep⟩ := hm.detour (q := 0x200000) (u := secondThread) ht rfl (by decide) hon (by decide)
  obtain rfl := Option.some.inj ht
  -- the end of the routine
  have hend : m₁.Legal (.work (m₁.core.regs.set 0 42) m₁.core.mem) := ⟨fun _ _ => rfl, (hm.run hrun).running⟩
  have hdeep' : (m₁.step (.work (m₁.core.regs.set 0 42) m₁.core.mem)).Deep m₁.current 0 (_ :: []) := hcur.symm ▸ hdeep
  have hret : (m₁.step (.work (m₁.core.regs.set 0 42) m₁.core.mem)).Legal (.resume 0) :=
    hdeep'.can_resume (congrArg BitVec.toNat (hsp₁.trans hsp))
  have hback : depth 0x90000 0x90000 0 (detour 0x90000 0x200000 m.core.regs.sp secondThread.sp m.core.mem mem ++
      [.work (m₁.core.regs.set 0 42) m₁.core.mem]) = some (0x90000, 0) := by
    rw [depth_append, depth_detour (by decide)]
    rfl
  obtain ⟨htarget, f, _, hstore, hres⟩ := syscall_returns twoThreads_reachable hint hl twoThreads_calls
    (hrun.append (.cons hend (.nil _))) hback hret
  exact ⟨htarget, mem, m₁, f, hrun, hstore, hres⟩

end OsdiKernel
