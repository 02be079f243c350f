import OsdiKernel.Trap.Syscall

/-!
# The system calls a program can make

`sys.S` has a stub for each, and there is none for `sys_clone`: the number goes into
`w8`, and `svc` does the rest.
The numbers are those of `sys.h`, and `sys_call_table` in `sys.c` has the routines
in the order of them; but `__NR_syscalls` is two short of the table, so the last
two are never called.
-/

namespace OsdiKernel

open A64 Cpu

/-- The routines of `sys.c`. -/
inductive Routine where
  | sysGitPid
  | sysUartRead
  | sysUartWrite
  | sysExec
  | sysFork
  | sysExit
  | sysMboxCall
  | sysKill
  | sysMalloc
  | sysClone
  | sysCoreTimerOn
  | sysCoreTimerOff
  | sysWrite
  deriving DecidableEq, Repr

namespace Routine

/-- `sys_call_table` -/
def sysCallTable : List Routine :=
  [sysGitPid, sysUartRead, sysUartWrite, sysExec, sysFork, sysExit, sysMboxCall, sysKill,
    sysMalloc, sysClone, sysCoreTimerOn, sysCoreTimerOff, sysWrite]

/-- The `SYS_…_NUMBER` of `sys.h`. -/
def number : Routine → Nat
  | sysGitPid => 0
  | sysUartRead => 1
  | sysUartWrite => 2
  | sysExec => 3
  | sysFork => 4
  | sysExit => 5
  | sysMboxCall => 6
  | sysKill => 7
  | sysMalloc => 8
  | sysClone => 9
  | sysCoreTimerOn => 10
  | sysCoreTimerOff => 11
  | sysWrite => 12

/-- The table has each routine at its number. -/
theorem sysCallTable_number (r : Routine) : sysCallTable[r.number]? = some r := by
  cases r <;> rfl

/-- And no routine is there twice. -/
theorem number_of_sysCallTable {i : Nat} {r : Routine} (h : sysCallTable[i]? = some r) : r.number = i := by
  have hnodup : sysCallTable.Nodup := by decide
  have hi := (List.getElem?_eq_some_iff.mp h).1
  exact ((List.getElem?_inj hi hnodup).mp (h.trans r.sysCallTable_number.symm)).symm

/-- `__NR_syscalls` lets it through. -/
theorem number_lt_iff (r : Routine) : r.number < nrSyscalls ↔ r ≠ sysCoreTimerOff ∧ r ≠ sysWrite := by
  cases r <;> decide

end Routine

variable {M : Type} [WordMemory M]

/-- `ESR_EL1` after `svc #0` -/
def esrSvc : BitVec 64 := 0x56000000

/-- A stub, up to the exception: `mov w8, #NUMBER` and `svc #0`, with `ret` at `back`. -/
def callStub (r : Routine) (back : BitVec 64) (s : State M) : State M :=
  let s := exec s (.movImm 8 r.number)
  { s with regs := { s.regs with pc := back, esr := esrSvc } }

/-- `sys_call_table` in memory. -/
def TableAt (mem : M) (l : HandlerLabels) (addr : Routine → BitVec 64) : Prop :=
  ∀ i r, Routine.sysCallTable[i]? = some r → load mem (l.sysCallTable + 8 * i) = addr r

variable {m : Cpu M} {s : State M} {l : HandlerLabels} {el : Nat} {vector back : BitVec 64} {r : Routine}
  {addr : Routine → BitVec 64}

/-- The handler leaves the arguments where they are. -/
theorem syncExcHandler_args {x : Fin 31} (hx : x < 8) : (syncExcHandler el l s).1.regs.x x = s.regs.x x := by
  have hne : ∀ y : Fin 31, 8 ≤ y → x ≠ y := fun y hy h => by
    subst h
    omega
  have hearly : (run s [.mrs 25 .esrEl1, .lsr 24 25 esrEcShift]).regs.x x = s.regs.x x := by
    simp only [run_cons, run_nil, exec]
    rw [Regs.set_ne (hne 24 (by decide)), Regs.set_ne (hne 25 (by decide))]
  unfold syncExcHandler
  simp only
  split
  · have hlate : ∀ s' : State M, (run (run s' [.movImm 27 l.sysCallTable, .uxtw 26 8, .movImm 25 nrSyscalls])
        [.movImm 30 l.enabled, .daifClr 2]).regs.x x = s'.regs.x x := by
      intro s'
      simp only [run_cons, run_nil, exec]
      rw [Regs.set_ne (hne 30 (by decide)), Regs.set_ne (hne 25 (by decide)), Regs.set_ne (hne 26 (by decide)),
        Regs.set_ne (hne 27 (by decide))]
    split
    · rw [hlate, hearly]
    · show (Regs.set _ 16 _).x x = _
      rw [Regs.set_ne (hne 16 (by decide)), hlate, hearly]
  · exact hearly

section Stub

variable (r : Routine) (back : BitVec 64) (s : State M)

@[simp] theorem callStub_mem : (callStub r back s).mem = s.mem := rfl
@[simp] theorem callStub_sp : (callStub r back s).regs.sp = s.regs.sp := rfl
@[simp] theorem callStub_esr : (callStub r back s).regs.esr = esrSvc := rfl

theorem callStub_number : (callStub r back s).regs.x 8 = BitVec.ofNat 64 r.number :=
  Regs.set_self s.regs 8 _

theorem callStub_args {x : Fin 31} (hx : x ≠ 8) : (callStub r back s).regs.x x = s.regs.x x := Regs.set_ne hx

end Stub

theorem entryScratch_args : ∀ x : Fin 31, x ≤ 8 → x ∉ entryScratch := by decide

/-- **Past `kernel_entry`**, where the frame is not laid over the table. -/
theorem stub_dispatched {base : Nat} (hat : RoomAt (callStub r back s).regs base)
    (hl : l.sysCallTable + 8 * Routine.sysCallTable.length < 2 ^ 64) (htable : TableAt s.mem l addr)
    (hapart : l.sysCallTable + 8 * Routine.sysCallTable.length ≤ base ∨ base + sFrameSize ≤ l.sysCallTable) :
    (syncExcHandler el l (enterKernel el vector (callStub r back s))).2 =
        (if r = .sysCoreTimerOff ∨ r = .sysWrite then .hang 0 syscallError else .routine (addr r)) ∧
      ∀ x < 8, (syncExcHandler el l (enterKernel el vector (callStub r back s))).1.regs.x x = s.regs.x x := by
  obtain ⟨hmem, _, hx, _, hesr, _⟩ := enterKernel_spec el vector hat
  have hi := (List.getElem?_eq_some_iff.mp r.sysCallTable_number).1
  have hlength : Routine.sysCallTable.length = 13 := rfl
  have hsize : nrSyscalls = 11 := rfl
  have hframe : sFrameSize = 272 := rfl
  refine ⟨?_, fun x hx8 => ?_⟩
  · have hentry : load (enterKernel el vector (callStub r back s)).mem (l.sysCallTable + 8 * r.number) = addr r := by
      rw [hmem, load_storeWords_apart (by rw [frameWords_length]; omega)]
      exact htable _ r r.sysCallTable_number
    have hnumber : syscallNumber (enterKernel el vector (callStub r back s)).regs = r.number := by
      rw [syscallNumber, hx 8 (entryScratch_args 8 (by decide)), callStub_number, BitVec.toNat_ofNat]
      omega
    have hec : (enterKernel el vector (callStub r back s)).regs.esr >>> esrEcShift = esrEcSvc64 := by
      rw [hesr, callStub_esr]
      rfl
    have hlet := r.number_lt_iff
    rw [(syncExcHandler_spec _ _ (by omega)).1, dispatchOf, if_pos hec, hnumber, hentry]
    by_cases hlast : r = .sysCoreTimerOff ∨ r = .sysWrite
    · rw [if_pos hlast, if_neg (fun h => hlast.elim (hlet.mp h).1 (hlet.mp h).2)]
    · rw [if_neg hlast, if_pos (hlet.mpr (not_or.mp hlast))]
  · have hne : x ≠ 8 := fun h => by
      subst h
      exact absurd hx8 (by decide)
    rw [syncExcHandler_args hx8, hx x (entryScratch_args x (Fin.le_of_lt hx8)), callStub_args r back s hne]

/-- The current thread goes through a stub. -/
def atStub (m : Cpu M) (r : Routine) (back : BitVec 64) : Cpu M :=
  m.step (.work (callStub r back m.core).regs (callStub r back m.core).mem)

theorem atStub_interrupted (m : Cpu M) (r : Routine) (back : BitVec 64) (el : Nat) (vector : BitVec 64) :
    ((atStub m r back).step (.interrupt el vector)).core = enterKernel el vector (callStub r back m.core) := rfl

/--
**A stub** comes to the routine it is named after, with the arguments of its
caller, or hangs the machine: so it is with the last two of the table.
-/
theorem stub_called (hreach : Cpu.Reachable m) (hint : (atStub m r back).Legal (.interrupt el vector))
    (hl : l.sysCallTable + 8 * Routine.sysCallTable.length < 2 ^ 64) (htable : TableAt m.core.mem l addr)
    (hapart : ∀ t, m.thread m.current = some t →
      l.sysCallTable + 8 * Routine.sysCallTable.length ≤ t.low ∨ t.top ≤ l.sysCallTable) :
    (syncExcHandler el l ((atStub m r back).step (.interrupt el vector)).core).2 =
        (if r = .sysCoreTimerOff ∨ r = .sysWrite then .hang 0 syscallError else .routine (addr r)) ∧
      ∀ x < 8, (syncExcHandler el l ((atStub m r back).step (.interrupt el vector)).core).1.regs.x x = m.core.regs.x x := by
  have hinv := cpuInv_reachable hreach
  have hwork : m.Legal (.work (callStub r back m.core).regs (callStub r back m.core).mem) :=
    ⟨fun _ _ => rfl, hinv.running⟩
  obtain ⟨t, ht, hroom⟩ := hint
  have ht₀ : m.thread m.current = some t := ht
  obtain ⟨hat, hlow, hhigh⟩ := (hinv.step hwork).room ht hroom
  have htop := (hinv.placed _ _ ht₀).stacked.floor_le
  have hfar := hapart t ht₀
  have hfloor : t.floor = floorOf t.top t.saved := rfl
  have hapart' : l.sysCallTable + 8 * Routine.sysCallTable.length ≤ (m.core.regs.sp - BitVec.ofNat 64 sFrameSize).toNat ∨
      (m.core.regs.sp - BitVec.ofNat 64 sFrameSize).toNat + sFrameSize ≤ l.sysCallTable := by
    have hlow : t.low ≤ (m.core.regs.sp - BitVec.ofNat 64 sFrameSize).toNat := hlow
    have hhigh : (m.core.regs.sp - BitVec.ofNat 64 sFrameSize).toNat + sFrameSize ≤ t.floor := hhigh
    omega
  rw [atStub_interrupted]
  exact stub_dispatched hat hl htable hapart'

theorem startedTable_getElem {i : Nat} {r : Routine} (h : Routine.sysCallTable[i]? = some r) :
    startedTable[i]? = some (BitVec.ofNat 64 (0x88000 + 0x100 * r.number)) := by
  obtain rfl := Routine.number_of_sysCallTable h
  cases r <;> rfl

/-- The table is where the first two threads have nothing. -/
theorem twoThreads_table : TableAt twoThreads.core.mem startedLabels fun r => BitVec.ofNat 64 (0x88000 + 0x100 * r.number) := by
  intro i r hr
  have hwords : WordsAt secondMem 0x85000 startedTable :=
    (wordsAt_storeWords _ 0x85000 startedTable).storeWords (Or.inl (by decide))
  exact hwords i _ (startedTable_getElem hr)

/-- `uartwrite`, from the first thread: the third routine, with what was in `x0` to `x7`. -/
theorem stub_called_uartwrite :
    (syncExcHandler 0 startedLabels ((atStub twoThreads .sysUartWrite 0x80ac0).step (.interrupt 0 0x400)).core).2
        = .routine 0x88200 ∧
      ∀ x < 8, (syncExcHandler 0 startedLabels ((atStub twoThreads .sysUartWrite 0x80ac0).step (.interrupt 0 0x400)).core).1.regs.x x
        = BitVec.ofNat 64 (9 + x) := by
  have hlegal : (atStub twoThreads .sysUartWrite 0x80ac0).Legal (.interrupt 0 0x400) := ⟨_, rfl, by decide⟩
  obtain ⟨htarget, hargs⟩ := stub_called twoThreads_reachable hlegal (by decide) twoThreads_table
    (fun t ht => by obtain rfl := Option.some.inj ht; decide)
  have hregs : ∀ x : Fin 31, x < 8 → twoThreads.core.regs.x x = BitVec.ofNat 64 (9 + x) := by decide
  exact ⟨htarget, fun x hx => (hargs x hx).trans (hregs x hx)⟩

end OsdiKernel
