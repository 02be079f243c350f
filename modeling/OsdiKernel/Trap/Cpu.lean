import OsdiKernel.Lib.Words
import OsdiKernel.Trap.Entry

/-!
# Threads on one core

What becomes of the core when exceptions, returns from them and switches of
thread come in any order. A thread has a kernel stack, on which what was
interrupted lies frame above frame, and a `struct cpu_context` at its address.
Between two events whatever runs may do what it likes, as long as it leaves
alone the frames and the contexts of those that are not running, and keeps its
stack pointer on its own stack.

The record of who was interrupted where is not in the kernel. It is what an
onlooker writes down; `CpuInv` says that the memory has it, word by word.
-/

namespace OsdiKernel

open A64

/-- Memory of bytes. -/
instance wordMemory_bytes : WordMemory (Nat → UInt8) where
  load mem a := BitVec.ofNat 64 (load64 mem a)
  store mem a w := store64 mem a w.toNat
  load_store mem a w := by rw [load64_store64, Nat.mod_eq_of_lt w.isLt, BitVec.ofNat_toNat, BitVec.setWidth_eq]
  load_store_ne mem a b w h := by rw [load64_store64_ne h]

/-- A program that was interrupted: where its frame is and what it goes on with. -/
structure Saved where
  el : Nat
  base : Nat
  ctx : Ctx

/-- The lowest address in use, when the stack pointer may go as high as `top`. -/
def floorOf (top : Nat) : List Saved → Nat
  | [] => top
  | f :: _ => f.base

/-- Frames lie one above the other, all of them from `low` to `top`. -/
def Stacked (low top : Nat) : List Saved → Prop
  | [] => low ≤ top
  | f :: fs => low ≤ f.base ∧ f.base + sFrameSize ≤ floorOf top fs ∧ Stacked low top fs

/-- A thread: its kernel stack, what is interrupted on it, innermost first, and
what `cpu_switch_to` put away when it was last switched from. -/
structure Thread where
  low : Nat
  top : Nat
  saved : List Saved
  x : Fin 31 → BitVec 64
  sp : BitVec 64

/-- Below it the stack is free. -/
def Thread.floor (t : Thread) : Nat := floorOf t.top t.saved

/-- The bytes of a `struct cpu_context`. -/
def cpuContextSize : Nat := 104

/-- The core, and all threads by the address of their `task_struct`. -/
structure Cpu (M : Type) where
  core : State M
  current : Nat
  thread : Nat → Option Thread

/-- What happens next. -/
inductive CpuEvent (M : Type) where
  /-- Whoever is on the core goes on, and does this to it. -/
  | work (regs : Regs) (mem : M)
  /-- An exception, with the `kernel_entry` of its handler. -/
  | interrupt (el : Nat) (vector : BitVec 64)
  /-- `kernel_exit` -/
  | resume (el : Nat)
  /-- `cpu_switch_to` -/
  | switch (next : Nat)
  /-- Frame `n` of the current thread is written to: a system call's result, a new `pc`. -/
  | amend (n : Nat) (ctx : Ctx) (mem : M)
  /-- A new thread, laid out in memory. -/
  | create (p : Nat) (t : Thread) (mem : M)
  /-- A thread that is not running is given up. -/
  | remove (p : Nat)

variable {M : Type}

namespace Cpu

/-- The words nobody may write who does not mean to. -/
def Holds (m : Cpu M) (a : Nat) : Prop :=
  (∃ p t f i, m.thread p = some t ∧ f ∈ t.saved ∧ i < 34 ∧ a = f.base + 8 * i) ∨
    ∃ p t i, p ≠ m.current ∧ m.thread p = some t ∧ i < 13 ∧ a = p + 8 * i

/-- Where threads `p` and `q` are, nothing is shared. -/
structure ThreadsApart (p : Nat) (t : Thread) (q : Nat) (u : Thread) : Prop where
  contexts : p + cpuContextSize ≤ q ∨ q + cpuContextSize ≤ p
  kernelStacks : t.top ≤ u.low ∨ u.top ≤ t.low
  here : p + cpuContextSize ≤ u.low ∨ u.top ≤ p
  there : q + cpuContextSize ≤ t.low ∨ t.top ≤ q

/-- Where a thread may be. -/
structure Placed (p : Nat) (t : Thread) : Prop where
  context : p + cpuContextSize < 2 ^ 64
  top : t.top < 2 ^ 64
  apart : p + cpuContextSize ≤ t.low ∨ t.top ≤ p
  stacked : Stacked t.low t.top t.saved

/-- The stack pointer is on the part of the stack that is free. -/
def OnStack (t : Thread) (sp : BitVec 64) : Prop := t.low ≤ sp.toNat ∧ sp.toNat ≤ t.floor

/-- Change a thread. -/
def setThread (m : Cpu M) (p : Nat) (t : Option Thread) : Nat → Option Thread := Function.update m.thread p t

/-- What a thread is once its program is interrupted, -/
def pushed (t : Thread) (el : Nat) (c : Regs) : Thread :=
  { t with saved := ⟨el, (c.sp - BitVec.ofNat 64 sFrameSize).toNat, ctxOf c⟩ :: t.saved }

/-- once it goes on with what was interrupted last, -/
def popped (t : Thread) : Thread := { t with saved := t.saved.tail }

/-- once another one runs, -/
def parked (t : Thread) (c : Regs) : Thread := { t with x := c.x, sp := c.sp }

/-- and once frame `n` is written to. -/
def amended (t : Thread) (n : Nat) (ctx : Ctx) : Thread :=
  { t with saved := t.saved.modify n fun f => { f with ctx := ctx } }

variable [WordMemory M]

/-- The words that are held are as they were. -/
def Spares (m : Cpu M) (mem : M) : Prop := ∀ a, m.Holds a → load mem a = load m.core.mem a

/-- A thread as its maker has to lay it out. -/
structure Laid (p : Nat) (t : Thread) (mem : M) : Prop where
  placed : Placed p t
  frames : ∀ f ∈ t.saved, WordsAt mem f.base (frameWords f.el f.ctx)
  context : WordsAt mem p (contextWords t.x t.sp)
  sp : OnStack t t.sp

/-- What may happen. -/
def Legal (m : Cpu M) : CpuEvent M → Prop
  | .work regs mem => m.Spares mem ∧ ∃ t, m.thread m.current = some t ∧ OnStack t regs.sp
  | .interrupt _ _ => ∃ t, m.thread m.current = some t ∧ t.low + sFrameSize ≤ m.core.regs.sp.toNat
  | .resume el => ∃ t f fs, m.thread m.current = some t ∧ t.saved = f :: fs ∧ f.el = el ∧
      m.core.regs.sp.toNat = f.base
  | .switch next => next ≠ m.current ∧ (∃ t, m.thread next = some t) ∧ (m.core.regs.x 0).toNat = m.current ∧
      (m.core.regs.x 1).toNat = next
  | .amend n ctx mem => ∃ t f, m.thread m.current = some t ∧ t.saved[n]? = some f ∧
      WordsAt mem f.base (frameWords f.el ctx) ∧
      ∀ a, m.Holds a → (∀ i < 34, a ≠ f.base + 8 * i) → load mem a = load m.core.mem a
  | .create p t mem => m.thread p = none ∧ (∀ q u, m.thread q = some u → ThreadsApart p t q u) ∧ Laid p t mem ∧
      m.Spares mem
  | .remove p => p ≠ m.current

/-- What happens then. -/
def step (m : Cpu M) : CpuEvent M → Cpu M
  | .work regs mem => { m with core := ⟨regs, mem⟩ }
  | .interrupt el vector =>
      { m with
        core := enterKernel el vector m.core
        thread := m.setThread m.current ((m.thread m.current).map fun t => pushed t el m.core.regs) }
  | .resume el =>
      { m with
        core := leaveKernel el m.core
        thread := m.setThread m.current ((m.thread m.current).map popped) }
  | .switch next =>
      { core := callSwitch m.core
        current := next
        thread := m.setThread m.current ((m.thread m.current).map fun t => parked t m.core.regs) }
  | .amend n ctx mem =>
      { m with
        core := { m.core with mem }
        thread := m.setThread m.current ((m.thread m.current).map fun t => amended t n ctx) }
  | .create p t mem => { m with core := { m.core with mem }, thread := m.setThread p (some t) }
  | .remove p => { m with thread := m.setThread p none }

/-- One event after the other. -/
inductive Run : Cpu M → List (CpuEvent M) → Cpu M → Prop where
  | nil (m : Cpu M) : Run m [] m
  | cons {m m' : Cpu M} {e : CpuEvent M} {es : List (CpuEvent M)} : m.Legal e → Run (m.step e) es m' → Run m (e :: es) m'

/-- The kernel at its start: one thread, nothing interrupted. -/
structure Booted (m : Cpu M) : Prop where
  thread : ∃ t, m.thread m.current = some t ∧ Placed m.current t ∧ t.saved = [] ∧ OnStack t m.core.regs.sp
  only : ∀ p, p ≠ m.current → m.thread p = none

/-- What any events lead to. -/
def Reachable (m : Cpu M) : Prop := ∃ m₀ es, Booted m₀ ∧ Run m₀ es m

end Cpu

/-- **The memory has what the record says.** -/
structure CpuInv [WordMemory M] (m : Cpu M) : Prop where
  running : ∃ t, m.thread m.current = some t ∧ Cpu.OnStack t m.core.regs.sp
  placed : ∀ p t, m.thread p = some t → Cpu.Placed p t
  apart : ∀ p t q u, m.thread p = some t → m.thread q = some u → p ≠ q → Cpu.ThreadsApart p t q u
  frames : ∀ p t, m.thread p = some t → ∀ f ∈ t.saved, WordsAt m.core.mem f.base (frameWords f.el f.ctx)
  contexts : ∀ p t, p ≠ m.current → m.thread p = some t →
    WordsAt m.core.mem p (contextWords t.x t.sp) ∧ Cpu.OnStack t t.sp

end OsdiKernel
