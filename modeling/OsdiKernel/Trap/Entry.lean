import Mathlib.Tactic.IntervalCases
import OsdiKernel.Lib.A64
import OsdiKernel.Sched.Task

/-!
# Entering and leaving the kernel

The macros `kernel_entry` and `kernel_exit` of `entry.S` and `cpu_switch_to` of
`sched.S`, instruction by instruction, with the exception and the `eret` around
them. An entry lays the interrupted program out below its kernel stack, in the 34
words of a `struct pt_regs`; an exit reads such a frame back. A switch lays out
what a function has to preserve in the 13 words of a `struct cpu_context`.
-/

namespace OsdiKernel

open A64

/-- `S_FRAME_SIZE` -/
def sFrameSize : Nat := 272

/-- `S_X0` -/
def sX0 : Nat := 0

/-- `kernel_entry` -/
def kernelEntry (el : Nat) : List Instr :=
  ([.subSp sFrameSize,
    .stpSp 0 1 (16 * 0),
    .stpSp 2 3 (16 * 1),
    .stpSp 4 5 (16 * 2),
    .stpSp 6 7 (16 * 3),
    .stpSp 8 9 (16 * 4),
    .stpSp 10 11 (16 * 5),
    .stpSp 12 13 (16 * 6),
    .stpSp 14 15 (16 * 7),
    .stpSp 16 17 (16 * 8),
    .stpSp 18 19 (16 * 9),
    .stpSp 20 21 (16 * 10),
    .stpSp 22 23 (16 * 11),
    .stpSp 24 25 (16 * 12),
    .stpSp 26 27 (16 * 13),
    .stpSp 28 29 (16 * 14)] : List Instr) ++
  (if el = 0 then [.mrs 21 .spEl0] else [.addFromSp 21 sFrameSize] : List Instr) ++
  ([.mrs 22 .elrEl1,
    .mrs 23 .spsrEl1,
    .stpSp 30 21 (16 * 15),
    .stpSp 22 23 (16 * 16)] : List Instr)

/-- `kernel_exit`, up to its `eret`. -/
def kernelExit (el : Nat) : List Instr :=
  ([.ldpSp 22 23 (16 * 16),
    .ldpSp 30 21 (16 * 15)] : List Instr) ++
  (if el = 0 then [.msr .spEl0 21] else [] : List Instr) ++
  ([.msr .elrEl1 22,
    .msr .spsrEl1 23,
    .ldpSp 0 1 (16 * 0),
    .ldpSp 2 3 (16 * 1),
    .ldpSp 4 5 (16 * 2),
    .ldpSp 6 7 (16 * 3),
    .ldpSp 8 9 (16 * 4),
    .ldpSp 10 11 (16 * 5),
    .ldpSp 12 13 (16 * 6),
    .ldpSp 14 15 (16 * 7),
    .ldpSp 16 17 (16 * 8),
    .ldpSp 18 19 (16 * 9),
    .ldpSp 20 21 (16 * 10),
    .ldpSp 22 23 (16 * 11),
    .ldpSp 24 25 (16 * 12),
    .ldpSp 26 27 (16 * 13),
    .ldpSp 28 29 (16 * 14),
    .addSp sFrameSize] : List Instr)

/-- `THREAD_CPU_CONTEXT` -/
def threadCpuContext : Nat := 0

/-- `cpu_switch_to`, up to its `ret`. -/
def cpuSwitchTo : List Instr :=
  [.movImm 10 threadCpuContext,
    .add 8 0 10,
    .movFromSp 9,
    .stpPost 19 20 8,
    .stpPost 21 22 8,
    .stpPost 23 24 8,
    .stpPost 25 26 8,
    .stpPost 27 28 8,
    .stpPost 29 9 8,
    .str 30 8,
    .add 8 1 10,
    .ldpPost 19 20 8,
    .ldpPost 21 22 8,
    .ldpPost 23 24 8,
    .ldpPost 25 26 8,
    .ldpPost 27 28 8,
    .ldpPost 29 9 8,
    .ldr 30 8,
    .movToSp 9]

/-- `pstate` in a handler: EL1 with its own stack pointer, every exception masked. -/
def handlerPstate : BitVec 64 := 0x3c5

section Code

variable {M : Type}

/-- The core takes an exception to EL1. -/
def takeException (vector : BitVec 64) (s : State M) : State M :=
  { s with regs := { s.regs with elr := s.regs.pc, spsr := s.regs.pstate, pc := vector, pstate := handlerPstate } }

/-- `eret` -/
def eret (s : State M) : State M := { s with regs := { s.regs with pc := s.regs.elr, pstate := s.regs.spsr } }

/-- `ret` -/
def ret (s : State M) : State M := { s with regs := { s.regs with pc := s.regs.x 30 } }

variable [WordMemory M]

/-- An exception, and the handler's `kernel_entry`. -/
def enterKernel (el : Nat) (vector : BitVec 64) (s : State M) : State M := run (takeException vector s) (kernelEntry el)

/-- `kernel_exit` -/
def leaveKernel (el : Nat) (s : State M) : State M := eret (run s (kernelExit el))

/-- A call of `cpu_switch_to`: its arguments are in `x0` and `x1`. -/
def callSwitch (s : State M) : State M := ret (run s cpuSwitchTo)

end Code

/-! ## Frames -/

/-- What a program goes on with after an interruption. -/
structure Ctx where
  x : Fin 31 → BitVec 64
  /-- the kernel's stack pointer -/
  sp : BitVec 64
  spEl0 : BitVec 64
  pc : BitVec 64
  pstate : BitVec 64

/-- The program on the core. -/
def ctxOf (c : Regs) : Ctx := ⟨c.x, c.sp, c.spEl0, c.pc, c.pstate⟩

/-- The 34 words of its `struct pt_regs`, as `kernel_entry` fills it in. -/
def frameWords (el : Nat) (c : Ctx) : List (BitVec 64) :=
  (List.finRange 31).map c.x ++ [if el = 0 then c.spEl0 else c.sp, c.pc, c.pstate]

@[simp] theorem frameWords_length (el : Nat) (c : Ctx) : (frameWords el c).length = 34 := by
  simp [frameWords]

/-- The pairs of registers `kernel_entry` stores first. -/
def framePairs : List (Fin 31 × Fin 31) :=
  [(0, 1), (2, 3), (4, 5), (6, 7), (8, 9), (10, 11), (12, 13), (14, 15), (16, 17), (18, 19), (20, 21), (22, 23),
    (24, 25), (26, 27), (28, 29)]

theorem finRange_eq : List.finRange 31 = pairRegs framePairs ++ [30] := by decide

theorem nodup_framePairs : (pairRegs framePairs).Nodup := by decide

/-- There is room for a frame below the stack pointer, at `base`. -/
def RoomAt (c : Regs) (base : Nat) : Prop := c.sp.toNat = base + sFrameSize

theorem RoomAt.sub {c : Regs} {base : Nat} (h : RoomAt c base) : (c.sp - BitVec.ofNat 64 sFrameSize).toNat = base := by
  have hlt := c.sp.isLt
  unfold RoomAt at h
  unfold sFrameSize at h ⊢
  rw [BitVec.toNat_sub, BitVec.toNat_ofNat, h]
  omega

/-- What `kernel_entry` uses for itself. -/
def entryScratch : List (Fin 31) := [21, 22, 23]

variable {M : Type} [WordMemory M] {s : State M} {el base : Nat} {vector : BitVec 64} {c : Ctx}

/-- **An exception and `kernel_entry`**: the program is in a frame below the stack pointer. -/
theorem enterKernel_spec (el : Nat) (vector : BitVec 64) (h : RoomAt s.regs base) :
    (enterKernel el vector s).mem = storeWords s.mem base (frameWords el (ctxOf s.regs)) ∧
    (enterKernel el vector s).regs.sp = s.regs.sp - BitVec.ofNat 64 sFrameSize ∧
    (∀ r, r ∉ entryScratch → (enterKernel el vector s).regs.x r = s.regs.x r) ∧
    (enterKernel el vector s).regs.spEl0 = s.regs.spEl0 ∧
    (enterKernel el vector s).regs.esr = s.regs.esr ∧
    (enterKernel el vector s).regs.pc = vector ∧
    (enterKernel el vector s).regs.pstate = handlerPstate := by
  have hlt := s.regs.sp.isLt
  have hle : base + 272 ≤ 2 ^ 64 := by
    unfold RoomAt sFrameSize at h
    omega
  -- the stores of the pairs
  let s₁ : State M := exec (takeException vector s) (.subSp sFrameSize)
  have hsp₁ : SpAt s₁.regs base 272 := ⟨h.sub, hle⟩
  have hpairs := run_stpsSp framePairs s₁ 0 hsp₁ (by decide)
  -- the words behind them
  let w : BitVec 64 := if el = 0 then s.regs.spEl0 else s.regs.sp
  have hsp : s.regs.sp - BitVec.ofNat 64 sFrameSize + BitVec.ofNat 64 sFrameSize = s.regs.sp := BitVec.sub_add_cancel ..
  have hscratch : run (run s₁ (stpsSp framePairs 0))
      ((if el = 0 then [.mrs 21 .spEl0] else [.addFromSp 21 sFrameSize] : List Instr) ++
        ([.mrs 22 .elrEl1, .mrs 23 .spsrEl1] : List Instr)) =
      { mem := (run s₁ (stpsSp framePairs 0)).mem
        regs := ((s₁.regs.set 21 w).set 22 s.regs.pc).set 23 s.regs.pstate } := by
    rw [hpairs]
    by_cases hel : el = 0
    · simp only [hel, if_true, List.cons_append, List.nil_append, run_cons, run_nil, exec, Regs.sys, Regs.set, w]
      rfl
    · simp only [hel, if_false, List.cons_append, List.nil_append, run_cons, run_nil, exec, Regs.sys, Regs.set, w]
      rw [show s₁.regs.sp = s.regs.sp - BitVec.ofNat 64 sFrameSize from rfl, hsp]
      rfl
  let c₂ : Regs := ((s₁.regs.set 21 w).set 22 s.regs.pc).set 23 s.regs.pstate
  have hlast := run_stpsSp [(30, 21), (22, 23)] { mem := (run s₁ (stpsSp framePairs 0)).mem, regs := c₂ } 240
    (show SpAt c₂ base 272 from hsp₁) (by decide)
  have hsplit : enterKernel el vector s = run (run (run s₁ (stpsSp framePairs 0))
      ((if el = 0 then [.mrs 21 .spEl0] else [.addFromSp 21 sFrameSize] : List Instr) ++
        ([.mrs 22 .elrEl1, .mrs 23 .spsrEl1] : List Instr)))
      (stpsSp [(30, 21), (22, 23)] 240) := by
    rw [← run_append, ← run_append]
    by_cases hel : el = 0
    · simp only [enterKernel, kernelEntry, hel, if_true]
      rfl
    · simp only [enterKernel, kernelEntry, hel, if_false]
      rfl
  have hregs : (enterKernel el vector s).regs = c₂ := by rw [hsplit, hscratch, hlast]
  refine ⟨?_, ?_, ?_, ?_, ?_, ?_, ?_⟩
  · have hx : (pairRegs [((30 : Fin 31), (21 : Fin 31)), (22, 23)]).map c₂.x
        = [s.regs.x 30, w, s.regs.pc, s.regs.pstate] := rfl
    have hframe : frameWords el (ctxOf s.regs)
        = (pairRegs framePairs).map s.regs.x ++ [s.regs.x 30, w, s.regs.pc, s.regs.pstate] := by
      rw [frameWords, finRange_eq, List.map_append, List.append_assoc]
      rfl
    rw [hsplit, hscratch, hlast, hframe, storeWords_append, hx, hpairs]
    rfl
  · rw [hregs]
    rfl
  · intro r hr
    simp only [entryScratch, List.mem_cons, List.not_mem_nil, or_false, not_or] at hr
    rw [hregs]
    show Function.update (Function.update (Function.update s.regs.x 21 w) 22 _) 23 _ r = s.regs.x r
    rw [Function.update_of_ne hr.2.2, Function.update_of_ne hr.2.1, Function.update_of_ne hr.1]
  all_goals
    rw [hregs]
    rfl

/-- What an exit leaves on the core, when `c` was in the frame. -/
structure Restored (el : Nat) (c : Ctx) (base : Nat) (before after : Regs) : Prop where
  x : after.x = c.x
  sp : after.sp = before.sp + BitVec.ofNat 64 sFrameSize
  spEl0 : after.spEl0 = if el = 0 then c.spEl0 else before.spEl0
  pc : after.pc = c.pc
  pstate : after.pstate = c.pstate

/-- **`kernel_exit`** goes on with what is in the frame at the stack pointer. -/
theorem leaveKernel_spec (hsp : SpAt s.regs base sFrameSize) (hframe : WordsAt s.mem base (frameWords el c)) :
    (leaveKernel el s).mem = s.mem ∧ Restored el c base s.regs (leaveKernel el s).regs := by
  have hword : ∀ i w, (frameWords el c)[i]? = some w → load s.mem (base + 8 * i) = w := hframe
  -- the last three words and `x30`
  have h30 := hword 30 (c.x 30) (by simp [frameWords, finRange_eq, framePairs, pairRegs])
  have h31 := hword 31 (if el = 0 then c.spEl0 else c.sp) (by simp [frameWords])
  have h32 := hword 32 c.pc (by simp [frameWords])
  have h33 := hword 33 c.pstate (by simp [frameWords])
  have hpairs : WordsAt s.mem base ((pairRegs framePairs).map c.x) := by
    intro i w hi
    refine hword i w ?_
    rw [frameWords, finRange_eq, List.map_append, List.append_assoc, List.getElem?_append_left]
    · exact hi
    · exact (List.getElem?_eq_some_iff.mp hi).1
  have hat : ∀ off, off < 272 → s.regs.atSp off = base + off := fun off hoff => hsp.atSp hoff
  -- what the core has when it comes to `x0`
  let c₁ : Regs := (((s.regs.set 22 c.pc).set 23 c.pstate).set 30 (c.x 30)).set 21 (if el = 0 then c.spEl0 else c.sp)
  let c₂ : Regs := { c₁ with spEl0 := if el = 0 then c.spEl0 else s.regs.spEl0, elr := c.pc, spsr := c.pstate }
  have hfirst : run s (([.ldpSp 22 23 (16 * 16), .ldpSp 30 21 (16 * 15)] : List Instr) ++
      (if el = 0 then [.msr .spEl0 21] else [] : List Instr) ++ ([.msr .elrEl1 22, .msr .spsrEl1 23] : List Instr))
      = { s with regs := c₂ } := by
    have hl1 : exec s (.ldpSp 22 23 (16 * 16)) = { s with regs := (s.regs.set 22 c.pc).set 23 c.pstate } := by
      simp only [exec, hat (16 * 16) (by decide), next]
      rw [show base + 16 * 16 = base + 8 * 32 by omega, h32, show base + 8 * 32 + 8 = base + 8 * 33 by omega, h33]
    have hl2 : exec { s with regs := (s.regs.set 22 c.pc).set 23 c.pstate } (.ldpSp 30 21 (16 * 15))
        = { s with regs := c₁ } := by
      have hat' : ((s.regs.set 22 c.pc).set 23 c.pstate).atSp (16 * 15) = base + 16 * 15 := hat _ (by decide)
      simp only [exec, hat', next]
      rw [show base + 16 * 15 = base + 8 * 30 by omega, h30, show base + 8 * 30 + 8 = base + 8 * 31 by omega, h31]
    by_cases hel : el = 0
    · subst hel
      simp only [if_true, List.cons_append, List.nil_append, run_cons, run_nil, hl1, hl2]
      rfl
    · simp only [hel, if_false, List.cons_append, List.nil_append, List.append_nil, run_cons, run_nil, hl1, hl2]
      simp only [exec, Regs.setSys, c₁, c₂, hel, if_false]
      rfl
  have hrest := run_ldpsSp framePairs { s with regs := c₂ } 0 (show SpAt c₂ base 272 from hsp) (by decide)
  have hsplit : leaveKernel el s = eret (run (run (run s (([.ldpSp 22 23 (16 * 16), .ldpSp 30 21 (16 * 15)] : List Instr) ++
      (if el = 0 then [.msr .spEl0 21] else [] : List Instr) ++ ([.msr .elrEl1 22, .msr .spsrEl1 23] : List Instr)))
      (ldpsSp framePairs 0)) [.addSp sFrameSize]) := by
    rw [leaveKernel, ← run_append, ← run_append]
    rw [kernelExit, List.append_assoc, List.append_assoc, List.append_assoc]
    rfl
  rw [hfirst, hrest] at hsplit
  rw [hsplit]
  refine ⟨rfl, ?_, rfl, rfl, rfl, rfl⟩
  show loadRegs s.mem c₂.x (base + 0) (pairRegs framePairs) = c.x
  funext r
  by_cases hr : r ∈ pairRegs framePairs
  · exact hpairs.loadRegs nodup_framePairs hr
  · -- the only register that is in no pair
    have h30r : r = 30 := by
      have hall : r ∈ pairRegs framePairs ++ [30] := finRange_eq ▸ List.mem_finRange r
      exact (List.mem_append.mp hall).elim (fun hp => absurd hp hr) (fun hp => List.mem_singleton.mp hp)
    rw [loadRegs_notMem _ _ _ _ _ hr, h30r]
    rfl

/-! ## The switch -/

/-- The registers of a `struct cpu_context`, but for `sp` and `pc`. -/
def calleeSaved : List (Fin 31) := [19, 20, 21, 22, 23, 24, 25, 26, 27, 28, 29]

/-- The 13 words of a `struct cpu_context`, as `cpu_switch_to` fills it in. -/
def contextWords (x : Fin 31 → BitVec 64) (sp : BitVec 64) : List (BitVec 64) := calleeSaved.map x ++ [sp, x 30]

@[simp] theorem contextWords_length (x : Fin 31 → BitVec 64) (sp : BitVec 64) : (contextWords x sp).length = 13 := rfl

/-- The pairs of registers `cpu_switch_to` stores and loads. -/
def contextPairs : List (Fin 31 × Fin 31) := [(19, 20), (21, 22), (23, 24), (25, 26), (27, 28), (29, 9)]

theorem nodup_contextPairs : (pairRegs contextPairs).Nodup := by decide

/-- Each has its word, and is not used for something else. -/
theorem calleeSaved_slot : ∀ r ∈ calleeSaved, ∃ i, i < calleeSaved.length ∧ calleeSaved[i]? = some r ∧
    (pairRegs contextPairs)[i]? = some r ∧ r ≠ 8 ∧ r ≠ 30 := by decide

/-- What a switch leaves on the core, when `x` and `sp` were in the context it went to. -/
structure SwitchedTo (x : Fin 31 → BitVec 64) (sp : BitVec 64) (before after : Regs) : Prop where
  callee : ∀ r ∈ calleeSaved, after.x r = x r
  lr : after.x 30 = x 30
  sp : after.sp = sp
  pc : after.pc = x 30
  spEl0 : after.spEl0 = before.spEl0
  pstate : after.pstate = before.pstate

/-- **`cpu_switch_to`** leaves one context in memory and goes on with another. -/
theorem callSwitch_spec {prev next : Nat} {x : Fin 31 → BitVec 64} {sp : BitVec 64} (hprev : (s.regs.x 0).toNat = prev)
    (hnext : (s.regs.x 1).toNat = next) (hp : prev + 104 < 2 ^ 64) (hn : next + 104 < 2 ^ 64)
    (hblock : WordsAt (storeWords s.mem prev (contextWords s.regs.x s.regs.sp)) next (contextWords x sp)) :
    (callSwitch s).mem = storeWords s.mem prev (contextWords s.regs.x s.regs.sp) ∧
      SwitchedTo x sp s.regs (callSwitch s).regs := by
  -- up to the first store
  let c₁ : Regs := ((s.regs.set 10 0).set 8 (s.regs.x 0)).set 9 s.regs.sp
  have hfirst : run s [.movImm 10 threadCpuContext, .add 8 0 10, .movFromSp 9] = { s with regs := c₁ } := by
    simp only [run_cons, run_nil, exec, threadCpuContext, Regs.set, c₁]
    congr 3
    simp
  have hbase₁ : BaseAt c₁ 8 prev 104 := ⟨hprev, hp⟩
  have hstores := run_stpsPost contextPairs { s with regs := c₁ } prev 104 hbase₁ (by decide) (by decide)
  have hvals : (pairRegs contextPairs).map c₁.x ++ [s.regs.x 30] = contextWords s.regs.x s.regs.sp := rfl
  let m' : M := storeWords s.mem prev (contextWords s.regs.x s.regs.sp)
  have hmem : store (storeWords s.mem prev ((pairRegs contextPairs).map c₁.x)) (prev + 96) (s.regs.x 30) = m' := by
    have happ := storeWords_append s.mem prev ((pairRegs contextPairs).map c₁.x) [s.regs.x 30]
    rw [hvals] at happ
    exact happ.symm
  -- from the last store to the first load
  let c₂ : Regs := (c₁.set 8 (BitVec.ofNat 64 (prev + 16 * contextPairs.length))).set 8 (s.regs.x 1)
  let s₁ : State M :=
    { regs := c₁.set 8 (BitVec.ofNat 64 (prev + 16 * contextPairs.length))
      mem := storeWords s.mem prev ((pairRegs contextPairs).map c₁.x) }
  have hmid : run s₁ [.str 30 8, .add 8 1 10] = { regs := c₂, mem := m' } := by
    have haddr : (BitVec.ofNat 64 (prev + 16 * contextPairs.length)).toNat = prev + 96 := by
      rw [BitVec.toNat_ofNat, show 16 * contextPairs.length = 96 from rfl, Nat.mod_eq_of_lt (by omega)]
    have hx8 : (c₁.set 8 (BitVec.ofNat 64 (prev + 16 * contextPairs.length))).x 8
        = BitVec.ofNat 64 (prev + 16 * contextPairs.length) := Regs.set_self ..
    have hx30 : (c₁.set 8 (BitVec.ofNat 64 (prev + 16 * contextPairs.length))).x 30 = s.regs.x 30 := rfl
    have hsum : (c₁.set 8 (BitVec.ofNat 64 (prev + 16 * contextPairs.length))).x 1
        + (c₁.set 8 (BitVec.ofNat 64 (prev + 16 * contextPairs.length))).x 10 = s.regs.x 1 := BitVec.add_zero ..
    simp only [run_cons, run_nil, exec, s₁, hx8, haddr, hx30, hmem, hsum]
    rfl
  have hbase₂ : BaseAt c₂ 8 next 104 := ⟨hnext, hn⟩
  have hloads := run_ldpsPost contextPairs { regs := c₂, mem := m' } next 104 hbase₂ (by decide) (by decide)
  -- the loads
  let y : Fin 31 → BitVec 64 := loadRegs m' c₂.x next (pairRegs contextPairs)
  let c₃ : Regs := { c₂ with x := y }.set 8 (BitVec.ofNat 64 (next + 16 * contextPairs.length))
  have hword : ∀ i w, (contextWords x sp)[i]? = some w → load m' (next + 8 * i) = w := hblock
  have hy : ∀ i r, (pairRegs contextPairs)[i]? = some r → y r = load m' (next + 8 * i) :=
    fun i r hi => loadRegs_getElem m' _ c₂.x next nodup_contextPairs i r hi
  have hlast : run { regs := c₃, mem := m' } [.ldr 30 8, .movToSp 9]
      = { regs := { c₃.set 30 (x 30) with sp := sp }, mem := m' } := by
    have haddr : (c₃.x 8).toNat = next + 8 * 12 := by
      have hx8 : c₃.x 8 = BitVec.ofNat 64 (next + 16 * contextPairs.length) := Regs.set_self ..
      rw [hx8, BitVec.toNat_ofNat, show 16 * contextPairs.length = 8 * 12 from rfl, Nat.mod_eq_of_lt (by omega)]
    have h9 : (c₃.set 30 (x 30)).x 9 = sp := by
      have hy9 : y 9 = load m' (next + 8 * 11) := hy 11 9 (by decide)
      exact hy9.trans (hword 11 sp rfl)
    simp only [run_cons, run_nil, exec, haddr, hword 12 (x 30) rfl, h9]
  have hrun : run s cpuSwitchTo = { regs := { c₃.set 30 (x 30) with sp := sp }, mem := m' } := by
    have hsplit : cpuSwitchTo = ([.movImm 10 threadCpuContext, .add 8 0 10, .movFromSp 9] : List Instr) ++
        (stpsPost 8 contextPairs ++ (([.str 30 8, .add 8 1 10] : List Instr) ++
          (ldpsPost 8 contextPairs ++ ([.ldr 30 8, .movToSp 9] : List Instr)))) := rfl
    rw [hsplit, run_append, hfirst, run_append, hstores, run_append, hmid, run_append, hloads]
    exact hlast
  rw [callSwitch, hrun]
  have hlr : (c₃.set 30 (x 30)).x 30 = x 30 := Regs.set_self ..
  refine ⟨rfl, ?_, hlr, rfl, hlr, rfl, rfl⟩
  intro r hr
  obtain ⟨i, hi, hcallee, hpair, h8, h30⟩ := calleeSaved_slot r hr
  have hw : (contextWords x sp)[i]? = some (x r) := by
    rw [contextWords, List.getElem?_append_left (by simpa using hi), List.getElem?_map, hcallee]
    rfl
  have hkept : (c₃.set 30 (x 30)).x r = y r := (Regs.set_ne h30).trans (Regs.set_ne h8)
  rw [← hword i (x r) hw, ← hy i r hpair]
  exact hkept

end OsdiKernel
