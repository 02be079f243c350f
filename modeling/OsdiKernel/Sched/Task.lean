import OsdiKernel.CInt
import OsdiKernel.Mm.Slab

/-!
# Tasks

`struct task_struct`, the task table, and what else the kernel keeps about the
tasks. Every task but the static `init_task` lives in a page of its own: the
`task_struct` at the bottom, the kernel stack growing down from the trap frame
at the top. The two ends are kept as one record here, and everything else in
memory (user stacks, programs) as bytes.
-/

namespace OsdiKernel

/-- `NR_TASKS` -/
def taskSlots : Nat := 64

/-- `PF_KTHREAD` -/
def pfKthread : Nat := 2

/-- Where a saved context goes on: at a numbered address, or at one of the kernel's own labels. -/
inductive CodeAddr where
  | addr (a : Nat)
  | retFromFork
  deriving DecidableEq, Repr

/-- `struct cpu_context`: the callee-saved registers. -/
structure CpuContext where
  x19 : Nat
  x20 : Nat
  x21 : Nat
  x22 : Nat
  x23 : Nat
  x24 : Nat
  x25 : Nat
  x26 : Nat
  x27 : Nat
  x28 : Nat
  fp : Nat
  sp : Nat
  pc : CodeAddr
  deriving DecidableEq, Repr

/-- `memzero` of a `cpu_context`. -/
def CpuContext.zero : CpuContext := ⟨0, 0, 0, 0, 0, 0, 0, 0, 0, 0, 0, 0, .addr 0⟩

/-- There is a register `x0`. -/
instance neZero_registers : NeZero 31 := ⟨by decide⟩

/-- `struct pt_regs` -/
structure PtRegs where
  regs : Fin 31 → Nat
  sp : Nat
  pc : Nat
  pstate : Nat

/-- `memzero` of a `pt_regs`. -/
def PtRegs.zero : PtRegs := ⟨fun _ => 0, 0, 0, 0⟩

/-- `TASK_RUNNING`, `TASK_WAITING`, `TASK_ZOMBIE` -/
inductive TaskState where
  | running
  | waiting
  | zombie
  deriving DecidableEq, Repr

/-- `struct task_struct`, with the trap frame `task_pt_regs` finds at the top of its page. -/
structure Task where
  cpuContext : CpuContext
  state : TaskState
  counter : Int
  priority : Int
  preemptCount : Int
  stack : Nat
  flags : Nat
  pid : Int
  ptRegs : PtRegs

/-- A `struct task_struct *` that is not NULL. -/
inductive TaskPtr where
  | initTask
  | page (addr : Nat)
  deriving DecidableEq, Repr

/-- The kernel's globals and memory, as far as tasks are concerned. -/
structure Kernel where
  mm : Mm
  /-- Bytes, by address. -/
  mem : Nat → UInt8
  /-- The `task_struct` and trap frame behind a pointer. -/
  tasks : TaskPtr → Task
  /-- `task[i]` -/
  task : Nat → Option TaskPtr
  current : TaskPtr
  nrTasks : Int

namespace Kernel

/-- Write through a `struct task_struct *`. -/
def updateTask (k : Kernel) (p : TaskPtr) (f : Task → Task) : Kernel :=
  { k with tasks := Function.update k.tasks p (f (k.tasks p)) }

/-- `current->…` -/
def cur (k : Kernel) : Task := k.tasks k.current

section Access

variable (k : Kernel) (p q : TaskPtr) (f : Task → Task)

@[simp] theorem updateTask_mm : (k.updateTask p f).mm = k.mm := rfl
@[simp] theorem updateTask_mem : (k.updateTask p f).mem = k.mem := rfl
@[simp] theorem updateTask_task : (k.updateTask p f).task = k.task := rfl
@[simp] theorem updateTask_current : (k.updateTask p f).current = k.current := rfl
@[simp] theorem updateTask_nrTasks : (k.updateTask p f).nrTasks = k.nrTasks := rfl

@[simp] theorem updateTask_self : (k.updateTask p f).tasks p = f (k.tasks p) :=
  Function.update_self ..

theorem updateTask_ne (h : q ≠ p) : (k.updateTask p f).tasks q = k.tasks q :=
  Function.update_of_ne h ..

end Access

end Kernel

/-! ## Memory -/

/-- `ldr`: eight bytes, the least significant first. -/
def load64 (mem : Nat → UInt8) (addr : Nat) : Nat :=
  (List.range 8).foldr (fun i w => (mem (addr + i)).toNat + 256 * w) 0

/-- `str` -/
def store64 (mem : Nat → UInt8) (addr : Nat) (w : Nat) : Nat → UInt8 :=
  fun a => if addr ≤ a ∧ a < addr + 8 then UInt8.ofNat (w / 256 ^ (a - addr)) else mem a

/-- The loop of `memcpy`, `n` turns of it. -/
def memcpyTurns (mem : Nat → UInt8) (x0 x1 : Nat) : Nat → Nat → UInt8
  | 0 => mem
  | n + 1 => memcpyTurns (store64 mem x0 (load64 mem x1)) (x0 + 8) (x1 + 8) n

/-- `memcpy(dst, src, n)`: eight bytes a turn, at least one turn, until none are left. -/
def memcpy (mem : Nat → UInt8) (dst src n : Nat) : Nat → UInt8 :=
  memcpyTurns mem dst src (max 1 ((n + 7) / 8))

end OsdiKernel
