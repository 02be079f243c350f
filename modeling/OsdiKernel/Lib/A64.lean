import Mathlib.Algebra.Ring.Nat
import Mathlib.Data.List.Basic
import Mathlib.Logic.Function.Basic

/-!
# A few instructions of a 64-bit ARM core

What a kernel's entry code is made of: pairs of registers stored and loaded, the
stack pointer moved, system registers read and written. The memory is anything
that words can be stored to and loaded from.

A sequence of pair stores is one thing, whatever its length: it stores a list of
words one behind the other. A sequence of pair loads reads such a list back into
the same registers. `run_stpsSp` and `run_ldpsSp` say so for offsets from the
stack pointer, `run_stpsPost` and `run_ldpsPost` for a base that moves along.
-/

namespace OsdiKernel

/-- Words of eight bytes, by the address of the first. -/
class WordMemory (M : Type) where
  load : M → Nat → BitVec 64
  store : M → Nat → BitVec 64 → M
  load_store : ∀ m a w, load (store m a w) a = w
  load_store_ne : ∀ m a b w, a + 8 ≤ b ∨ b + 8 ≤ a → load (store m b w) a = load m a

namespace A64

export WordMemory (load store load_store load_store_ne)

/-- What a core at EL1 has. `sp` is its own stack pointer, `spEl0` the one of EL0. -/
structure Regs where
  x : Fin 31 → BitVec 64
  sp : BitVec 64
  spEl0 : BitVec 64
  elr : BitVec 64
  spsr : BitVec 64
  esr : BitVec 64
  pc : BitVec 64
  pstate : BitVec 64

/-- A core and its memory. -/
structure State (M : Type) where
  regs : Regs
  mem : M

/-- The system registers used here. -/
inductive SysReg where
  | spEl0
  | elrEl1
  | spsrEl1
  | esrEl1
  deriving DecidableEq, Repr

/-- Instructions that go on with the next one. -/
inductive Instr where
  /-- `stp xa, xb, [sp, #off]` -/
  | stpSp (a b : Fin 31) (off : Nat)
  /-- `ldp xa, xb, [sp, #off]` -/
  | ldpSp (a b : Fin 31) (off : Nat)
  /-- `str xa, [sp, #off]` -/
  | strSp (a : Fin 31) (off : Nat)
  /-- `stp xa, xb, [xn], #16` -/
  | stpPost (a b n : Fin 31)
  /-- `ldp xa, xb, [xn], #16` -/
  | ldpPost (a b n : Fin 31)
  /-- `str xa, [xn]` -/
  | str (a n : Fin 31)
  /-- `ldr xa, [xn]` -/
  | ldr (a n : Fin 31)
  /-- `ldr xd, [xb, xi, lsl #3]` -/
  | ldrIdx (d b i : Fin 31)
  /-- `mov xd, #imm` -/
  | movImm (d : Fin 31) (imm : Nat)
  /-- `mov xd, sp` -/
  | movFromSp (d : Fin 31)
  /-- `mov sp, xs` -/
  | movToSp (s : Fin 31)
  /-- `add xd, xa, xb` -/
  | add (d a b : Fin 31)
  /-- `add xd, sp, #imm` -/
  | addFromSp (d : Fin 31) (imm : Nat)
  /-- `add sp, sp, #imm` -/
  | addSp (imm : Nat)
  /-- `sub sp, sp, #imm` -/
  | subSp (imm : Nat)
  /-- `lsr xd, xs, #n` -/
  | lsr (d s : Fin 31) (n : Nat)
  /-- `uxtw xd, ws` -/
  | uxtw (d s : Fin 31)
  /-- `mrs xd, r` -/
  | mrs (d : Fin 31) (r : SysReg)
  /-- `msr r, xs` -/
  | msr (r : SysReg) (s : Fin 31)
  /-- `msr daifclr, #imm` -/
  | daifClr (imm : Nat)
  /-- `msr daifset, #imm` -/
  | daifSet (imm : Nat)
  deriving DecidableEq, Repr

namespace Regs

/-- Write to a general register. -/
def set (c : Regs) (d : Fin 31) (w : BitVec 64) : Regs := { c with x := Function.update c.x d w }

@[simp] theorem set_self (c : Regs) (d : Fin 31) (w : BitVec 64) : (c.set d w).x d = w := Function.update_self ..

theorem set_ne {c : Regs} {d r : Fin 31} {w : BitVec 64} (h : r ≠ d) : (c.set d w).x r = c.x r :=
  Function.update_of_ne h ..

/-- `mrs` -/
def sys (c : Regs) : SysReg → BitVec 64
  | .spEl0 => c.spEl0
  | .elrEl1 => c.elr
  | .spsrEl1 => c.spsr
  | .esrEl1 => c.esr

/-- `msr` -/
def setSys (c : Regs) (w : BitVec 64) : SysReg → Regs
  | .spEl0 => { c with spEl0 := w }
  | .elrEl1 => { c with elr := w }
  | .spsrEl1 => { c with spsr := w }
  | .esrEl1 => { c with esr := w }

/-- The address that is `off` above the stack pointer. -/
def atSp (c : Regs) (off : Nat) : Nat := (c.sp + BitVec.ofNat 64 off).toNat

end Regs

variable {M : Type} [WordMemory M]

/-- A word behind the one at `a`. -/
def next (a : Nat) : Nat := a + 8

/-- One instruction. -/
def exec (s : State M) : Instr → State M
  | .stpSp a b off =>
      { s with mem := store (store s.mem (s.regs.atSp off) (s.regs.x a)) (next (s.regs.atSp off)) (s.regs.x b) }
  | .ldpSp a b off =>
      { s with regs := (s.regs.set a (load s.mem (s.regs.atSp off))).set b (load s.mem (next (s.regs.atSp off))) }
  | .strSp a off => { s with mem := store s.mem (s.regs.atSp off) (s.regs.x a) }
  | .stpPost a b n =>
      { regs := s.regs.set n (s.regs.x n + 16)
        mem := store (store s.mem (s.regs.x n).toNat (s.regs.x a)) (next (s.regs.x n).toNat) (s.regs.x b) }
  | .ldpPost a b n =>
      { s with
        regs := ((s.regs.set a (load s.mem (s.regs.x n).toNat)).set b (load s.mem (next (s.regs.x n).toNat))).set n
          (s.regs.x n + 16) }
  | .str a n => { s with mem := store s.mem (s.regs.x n).toNat (s.regs.x a) }
  | .ldr a n => { s with regs := s.regs.set a (load s.mem (s.regs.x n).toNat) }
  | .ldrIdx d b i => { s with regs := s.regs.set d (load s.mem (s.regs.x b + s.regs.x i <<< 3).toNat) }
  | .movImm d imm => { s with regs := s.regs.set d (BitVec.ofNat 64 imm) }
  | .movFromSp d => { s with regs := s.regs.set d s.regs.sp }
  | .movToSp r => { s with regs := { s.regs with sp := s.regs.x r } }
  | .add d a b => { s with regs := s.regs.set d (s.regs.x a + s.regs.x b) }
  | .addFromSp d imm => { s with regs := s.regs.set d (s.regs.sp + BitVec.ofNat 64 imm) }
  | .addSp imm => { s with regs := { s.regs with sp := s.regs.sp + BitVec.ofNat 64 imm } }
  | .subSp imm => { s with regs := { s.regs with sp := s.regs.sp - BitVec.ofNat 64 imm } }
  | .lsr d r n => { s with regs := s.regs.set d (s.regs.x r >>> n) }
  | .uxtw d r => { s with regs := s.regs.set d ((s.regs.x r).setWidth 32 |>.setWidth 64) }
  | .mrs d r => { s with regs := s.regs.set d (s.regs.sys r) }
  | .msr r a => { s with regs := s.regs.setSys (s.regs.x a) r }
  | .daifClr imm => { s with regs := { s.regs with pstate := s.regs.pstate &&& ~~~(BitVec.ofNat 64 imm <<< 6) } }
  | .daifSet imm => { s with regs := { s.regs with pstate := s.regs.pstate ||| BitVec.ofNat 64 imm <<< 6 } }

/-- A sequence of them. -/
def run (s : State M) (is : List Instr) : State M := is.foldl exec s

@[simp] theorem run_nil (s : State M) : run s [] = s := rfl

@[simp] theorem run_cons (s : State M) (i : Instr) (is : List Instr) : run s (i :: is) = run (exec s i) is := rfl

theorem run_append (s : State M) (is js : List Instr) : run s (is ++ js) = run (run s is) js := List.foldl_append

/-! ## Blocks of words -/

/-- The words `ws` lie in memory from `a` on. -/
def WordsAt (m : M) (a : Nat) (ws : List (BitVec 64)) : Prop :=
  ∀ i w, ws[i]? = some w → load m (a + 8 * i) = w

/-- Store them there. -/
def storeWords (m : M) (a : Nat) : List (BitVec 64) → M
  | [] => m
  | w :: ws => storeWords (store m a w) (a + 8) ws

variable {m m' : M} {a b : Nat} {w : BitVec 64} {ws vs : List (BitVec 64)}

theorem storeWords_append (m : M) (a : Nat) (ws vs : List (BitVec 64)) :
    storeWords m a (ws ++ vs) = storeWords (storeWords m a ws) (a + 8 * ws.length) vs := by
  induction ws generalizing m a with
  | nil => rfl
  | cons w ws ih =>
      have hnext : a + 8 + 8 * ws.length = a + 8 * (w :: ws).length := by
        rw [List.length_cons]
        omega
      rw [List.cons_append, storeWords, ih, hnext]
      rfl

/-- A word that is apart from a block is as it was. -/
theorem load_storeWords_apart (h : b + 8 ≤ a ∨ a + 8 * ws.length ≤ b) : load (storeWords m a ws) b = load m b := by
  induction ws generalizing m a with
  | nil => rfl
  | cons w ws ih =>
      rw [List.length_cons] at h
      rw [storeWords, ih (by omega), load_store_ne _ _ _ _ (by omega)]

/-- **What was stored is there.** -/
theorem wordsAt_storeWords (m : M) (a : Nat) (ws : List (BitVec 64)) : WordsAt (storeWords m a ws) a ws := by
  induction ws generalizing m a with
  | nil => exact fun i w h => absurd h (by simp)
  | cons v ws ih =>
      intro i w hi
      cases i with
      | zero =>
          obtain rfl := Option.some.inj hi
          rw [storeWords, load_storeWords_apart (by omega), Nat.mul_zero, Nat.add_zero, load_store]
      | succ i =>
          have haddr : a + 8 * (i + 1) = a + 8 + 8 * i := by omega
          rw [haddr]
          exact ih _ _ i w hi

/-- A block only depends on its words. -/
theorem WordsAt.congr (h : WordsAt m a ws) (hsame : ∀ i < ws.length, load m' (a + 8 * i) = load m (a + 8 * i)) :
    WordsAt m' a ws := by
  intro i w hi
  rw [hsame i (List.getElem?_eq_some_iff.mp hi).1]
  exact h i w hi

/-- A block that is apart from what was stored. -/
theorem WordsAt.storeWords (h : WordsAt m a ws) (hapart : a + 8 * ws.length ≤ b ∨ b + 8 * vs.length ≤ a) :
    WordsAt (storeWords m b vs) a ws :=
  h.congr fun i hi => load_storeWords_apart (by omega)

/-! ## Pairs stored and loaded -/

/-- `stp` after `stp`, upwards from `[sp, #off]`. -/
def stpsSp : List (Fin 31 × Fin 31) → Nat → List Instr
  | [], _ => []
  | (a, b) :: ps, off => .stpSp a b off :: stpsSp ps (off + 16)

/-- `ldp` after `ldp`, upwards from `[sp, #off]`. -/
def ldpsSp : List (Fin 31 × Fin 31) → Nat → List Instr
  | [], _ => []
  | (a, b) :: ps, off => .ldpSp a b off :: ldpsSp ps (off + 16)

/-- `stp` after `stp`, with the base moving along. -/
def stpsPost (n : Fin 31) (ps : List (Fin 31 × Fin 31)) : List Instr := ps.map fun p => .stpPost p.1 p.2 n

/-- `ldp` after `ldp`, with the base moving along. -/
def ldpsPost (n : Fin 31) (ps : List (Fin 31 × Fin 31)) : List Instr := ps.map fun p => .ldpPost p.1 p.2 n

/-- The registers of the pairs, in order. -/
def pairRegs (ps : List (Fin 31 × Fin 31)) : List (Fin 31) := ps.flatMap fun p => [p.1, p.2]

@[simp] theorem pairRegs_cons (a b : Fin 31) (ps : List (Fin 31 × Fin 31)) :
    pairRegs ((a, b) :: ps) = a :: b :: pairRegs ps := rfl

/-- The stack pointer is `base`, and `size` bytes above it can be addressed. -/
def SpAt (c : Regs) (base size : Nat) : Prop := c.sp.toNat = base ∧ base + size ≤ 2 ^ 64

theorem SpAt.atSp {c : Regs} {base size off : Nat} (h : SpAt c base size) (hoff : off < size) :
    c.atSp off = base + off := by
  obtain ⟨hsp, hle⟩ := h
  unfold Regs.atSp
  rw [BitVec.toNat_add, BitVec.toNat_ofNat, hsp, Nat.mod_eq_of_lt (show off < 2 ^ 64 by omega),
    Nat.mod_eq_of_lt (by omega)]

/-- **Pairs are stored** one behind the other. -/
theorem run_stpsSp {base size : Nat} : ∀ (ps : List (Fin 31 × Fin 31)) (s : State M) (off : Nat),
    SpAt s.regs base size → off + 16 * ps.length ≤ size →
    run s (stpsSp ps off) = { s with mem := storeWords s.mem (base + off) ((pairRegs ps).map s.regs.x) }
  | [], s, off, _, _ => rfl
  | (a, b) :: ps, s, off, hsp, hle => by
      rw [List.length_cons] at hle
      have haddr : s.regs.atSp off = base + off := hsp.atSp (by omega)
      have ih := run_stpsSp ps (exec s (.stpSp a b off)) (off + 16) hsp (by omega)
      rw [stpsSp, run_cons, ih]
      simp only [exec, haddr, pairRegs_cons, List.map_cons, storeWords, next]
      rfl

/-- What registers hold after words were loaded into them. -/
def loadRegs (m : M) (x : Fin 31 → BitVec 64) (a : Nat) : List (Fin 31) → Fin 31 → BitVec 64
  | [] => x
  | r :: rs => loadRegs m (Function.update x r (load m a)) (a + 8) rs

theorem loadRegs_notMem (m : M) (rs : List (Fin 31)) : ∀ (x : Fin 31 → BitVec 64) (a : Nat) (r : Fin 31), r ∉ rs →
    loadRegs m x a rs r = x r := by
  induction rs with
  | nil => exact fun x a r _ => rfl
  | cons q rs ih =>
      intro x a r hr
      rw [List.mem_cons, not_or] at hr
      rw [loadRegs, ih _ _ _ hr.2, Function.update_of_ne hr.1]

/-- Each of them has its word, if none is loaded twice. -/
theorem loadRegs_getElem (m : M) (rs : List (Fin 31)) : ∀ (x : Fin 31 → BitVec 64) (a : Nat), rs.Nodup →
    ∀ (i : Nat) (r : Fin 31), rs[i]? = some r → loadRegs m x a rs r = load m (a + 8 * i) := by
  induction rs with
  | nil => exact fun x a _ i r h => absurd h (by simp)
  | cons q rs ih =>
      intro x a hnd i r hi
      obtain ⟨hq, hnd'⟩ := List.nodup_cons.mp hnd
      cases i with
      | zero =>
          obtain rfl := Option.some.inj hi
          rw [loadRegs, loadRegs_notMem m rs _ _ _ hq, Function.update_self, Nat.mul_zero, Nat.add_zero]
      | succ i =>
          have haddr : a + 8 * (i + 1) = a + 8 + 8 * i := by omega
          rw [haddr]
          exact ih _ _ hnd' i r hi

/-- Another register's value makes no difference to them. -/
theorem loadRegs_update_notMem {n : Fin 31} {w : BitVec 64} (m : M) (rs : List (Fin 31)) (hn : n ∉ rs) :
    ∀ (x : Fin 31 → BitVec 64) (a : Nat),
      loadRegs m (Function.update x n w) a rs = Function.update (loadRegs m x a rs) n w := by
  induction rs with
  | nil => exact fun x a => rfl
  | cons r rs ih =>
      intro x a
      rw [List.mem_cons, not_or] at hn
      rw [loadRegs, Function.update_comm hn.1, ih hn.2]
      rfl

/-- Registers that are loaded from a block have its words. -/
theorem WordsAt.loadRegs {rs : List (Fin 31)} {x : Fin 31 → BitVec 64} {y : Fin 31 → BitVec 64}
    (h : WordsAt m a (rs.map y)) (hnd : rs.Nodup) {r : Fin 31} (hr : r ∈ rs) : loadRegs m x a rs r = y r := by
  obtain ⟨i, hi, rfl⟩ := List.getElem_of_mem hr
  rw [loadRegs_getElem m rs x a hnd i rs[i] (List.getElem?_eq_getElem hi)]
  refine h i _ ?_
  rw [List.getElem?_map, List.getElem?_eq_getElem hi]
  rfl

/-- **Pairs are loaded**, each register from its word. -/
theorem run_ldpsSp {base size : Nat} : ∀ (ps : List (Fin 31 × Fin 31)) (s : State M) (off : Nat),
    SpAt s.regs base size → off + 16 * ps.length ≤ size →
    run s (ldpsSp ps off) = { s with regs := { s.regs with x := loadRegs s.mem s.regs.x (base + off) (pairRegs ps) } }
  | [], s, off, _, _ => rfl
  | (a, b) :: ps, s, off, hsp, hle => by
      rw [List.length_cons] at hle
      have haddr : s.regs.atSp off = base + off := hsp.atSp (by omega)
      have ih := run_ldpsSp ps (exec s (.ldpSp a b off)) (off + 16) hsp (by omega)
      rw [ldpsSp, run_cons, ih]
      simp only [exec, haddr, pairRegs_cons, loadRegs, next, Regs.set]
      rfl

/-- The base register does not wrap on the way. -/
def BaseAt (c : Regs) (n : Fin 31) (base size : Nat) : Prop := (c.x n).toNat = base ∧ base + size < 2 ^ 64

theorem BaseAt.step {c : Regs} {n : Fin 31} {base size : Nat} (h : BaseAt c n base size) (h16 : 16 ≤ size) :
    (c.x n + 16).toNat = base + 16 := by
  obtain ⟨hn, hle⟩ := h
  rw [BitVec.toNat_add, hn, show (16 : BitVec 64).toNat = 16 from rfl, Nat.mod_eq_of_lt (by omega)]

/-- **Pairs are stored** where a register points, and it moves behind them. -/
theorem run_stpsPost {n : Fin 31} : ∀ (ps : List (Fin 31 × Fin 31)) (s : State M) (base size : Nat),
    BaseAt s.regs n base size → 16 * ps.length ≤ size → n ∉ pairRegs ps →
    run s (stpsPost n ps) =
      { regs := s.regs.set n (BitVec.ofNat 64 (base + 16 * ps.length))
        mem := storeWords s.mem base ((pairRegs ps).map s.regs.x) }
  | [], s, base, size, hb, _, _ => by
      have hn : BitVec.ofNat 64 (base + 16 * ([] : List (Fin 31 × Fin 31)).length) = s.regs.x n := by
        rw [List.length_nil, Nat.mul_zero, Nat.add_zero, ← hb.1, BitVec.ofNat_toNat, BitVec.setWidth_eq]
      rw [hn, Regs.set, Function.update_eq_self]
      rfl
  | (a, b) :: ps, s, base, size, hb, hle, hn => by
      rw [List.length_cons] at hle
      rw [pairRegs_cons, List.mem_cons, List.mem_cons, not_or, not_or] at hn
      have hbase : BaseAt (exec s (.stpPost a b n)).regs n (base + 16) (size - 16) := by
        have hx : (exec s (.stpPost a b n)).regs.x n = s.regs.x n + 16 := Function.update_self ..
        refine ⟨?_, by have := hb.2; omega⟩
        rw [hx, hb.step (by omega)]
      have ih := run_stpsPost ps (exec s (.stpPost a b n)) (base + 16) (size - 16) hbase (by omega) hn.2.2
      have hvals : (pairRegs ps).map (Function.update s.regs.x n (s.regs.x n + 16)) = (pairRegs ps).map s.regs.x := by
        refine List.map_congr_left fun r hr => Function.update_of_ne ?_ _ _
        rintro rfl
        exact hn.2.2 hr
      have hend : base + 16 + 16 * ps.length = base + 16 * ((a, b) :: ps).length := by
        rw [List.length_cons]
        omega
      rw [show stpsPost n ((a, b) :: ps) = .stpPost a b n :: stpsPost n ps from rfl, run_cons, ih, hend]
      simp only [exec, Regs.set, Function.update_idem, hvals, hb.1, pairRegs_cons, List.map_cons, storeWords, next]

/-- **Pairs are loaded** from where a register points, and it moves behind them. -/
theorem run_ldpsPost {n : Fin 31} : ∀ (ps : List (Fin 31 × Fin 31)) (s : State M) (base size : Nat),
    BaseAt s.regs n base size → 16 * ps.length ≤ size → n ∉ pairRegs ps →
    run s (ldpsPost n ps) =
      { s with
        regs := { s.regs with
          x := Function.update (loadRegs s.mem s.regs.x base (pairRegs ps)) n
            (BitVec.ofNat 64 (base + 16 * ps.length)) } }
  | [], s, base, size, hb, _, _ => by
      have hn : BitVec.ofNat 64 (base + 16 * ([] : List (Fin 31 × Fin 31)).length) = s.regs.x n := by
        rw [List.length_nil, Nat.mul_zero, Nat.add_zero, ← hb.1, BitVec.ofNat_toNat, BitVec.setWidth_eq]
      rw [hn, show loadRegs s.mem s.regs.x base (pairRegs []) = s.regs.x from rfl, Function.update_eq_self]
      rfl
  | (a, b) :: ps, s, base, size, hb, hle, hn => by
      rw [List.length_cons] at hle
      rw [pairRegs_cons, List.mem_cons, List.mem_cons, not_or, not_or] at hn
      have hbase : BaseAt (exec s (.ldpPost a b n)).regs n (base + 16) (size - 16) := by
        have hx : (exec s (.ldpPost a b n)).regs.x n = s.regs.x n + 16 := Function.update_self ..
        refine ⟨?_, by have := hb.2; omega⟩
        rw [hx, hb.step (by omega)]
      have ih := run_ldpsPost ps (exec s (.ldpPost a b n)) (base + 16) (size - 16) hbase (by omega) hn.2.2
      have hend : base + 16 + 16 * ps.length = base + 16 * ((a, b) :: ps).length := by
        rw [List.length_cons]
        omega
      rw [show ldpsPost n ((a, b) :: ps) = .ldpPost a b n :: ldpsPost n ps from rfl, run_cons, ih, hend]
      simp only [exec, Regs.set, hb.1, pairRegs_cons, loadRegs, next]
      congr 2
      -- where the base was before does not matter
      rw [loadRegs_update_notMem _ _ hn.2.2, Function.update_idem]

end A64

end OsdiKernel
