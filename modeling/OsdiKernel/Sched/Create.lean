import OsdiKernel.Sched.TaskInv

/-!
# Creating a process

`copy_process` needs a page and a slot, `sys_fork` a page more. When they are
there, what the two do is one equation each: the table gains a task, and
everything raised on the way is lowered again. When they are not, neither
returns: `kmalloc` dereferences the NULL the buddy allocator gave it, and with
every slot taken `copy_process` writes `task[-1]`.
-/

namespace OsdiKernel

variable {k k' : Kernel} {c c' : Link → List Nat} {live : List Live} {i a s : Nat}
  {mm₁ mm₂ : Mm}

/-- There is a NULL slot. -/
def FreeSlot (k : Kernel) : Prop := ∃ i, i < taskSlots ∧ k.task i = none

instance (k : Kernel) : Decidable (FreeSlot k) := inferInstanceAs (Decidable (∃ i, i < taskSlots ∧ _))

/-- A slot, and a page for the task. -/
def CanCopy (k : Kernel) : Prop := FreeSlot k ∧ (freeFrames k.mm).Nonempty

/-- A slot, and two pages: for the stack and for the task. -/
def CanFork (k : Kernel) : Prop := FreeSlot k ∧ (freeFrames k.mm).Nontrivial

theorem firstFree_some (h : firstFree k.task = some i) : i < taskSlots ∧ k.task i = none := by
  have hnone : (k.task i).isNone = true := List.find?_some (p := fun i => (k.task i).isNone) h
  exact ⟨List.mem_range.mp (List.mem_of_find?_eq_some h), Option.isNone_iff_eq_none.mp hnone⟩

theorem firstFree_none : firstFree k.task = none ↔ ¬ FreeSlot k := by
  unfold firstFree FreeSlot
  rw [List.find?_eq_none]
  constructor
  · intro hall hfree
    obtain ⟨i, hi, ht⟩ := hfree
    exact hall i (List.mem_range.mpr hi) (Option.isNone_iff_eq_none.mpr ht)
  · intro hno i hi hnone
    exact hno ⟨i, List.mem_range.mp hi, Option.isNone_iff_eq_none.mp hnone⟩

theorem FreeSlot.firstFree (h : FreeSlot k) : ∃ i, firstFree k.task = some i := by
  cases hf : OsdiKernel.firstFree k.task with
  | none => exact absurd h (firstFree_none.mp hf)
  | some i => exact ⟨i, rfl⟩

/-! ## `copy_process` -/

/-- The new task's stack is the one it was made with, if it is a user process. -/
theorem copyTask_userStack {cur : Task} {cloneFlags fn arg stack childregs b : Nat} {pid : Int}
    (hb : (copyTask cur cloneFlags fn arg stack childregs pid).userStack = some b) :
    cloneFlags &&& pfKthread = 0 ∧ stack ≠ 0 ∧ b = stack := by
  unfold Task.userStack at hb
  by_cases hk : cloneFlags &&& pfKthread ≠ 0
  · simp [copyTask, hk] at hb
  · rw [not_not] at hk
    by_cases hs : stack = 0
    · simp [copyTask, hk, hs] at hb
    · simp only [copyTask, hk, hs, ne_eq, not_true_eq_false, if_false, or_false,
        reduceCtorEq, Option.some.injEq] at hb
      exact ⟨hk, hs, hb.symm⟩

/-- **`copy_process`** with a page and a slot. -/
theorem copyProcess_eq (hcur : k.current ≠ .page a) (hpage : kmalloc k.mm pageSize = .ok (some a, mm₁))
    (hslot : firstFree k.task = some i) (cloneFlags fn arg stack : Nat) :
    copyProcess k cloneFlags fn arg stack = .ok ((i : Int), addTask k mm₁ i a
      (copyTask k.cur cloneFlags fn arg stack (taskPtRegs a) i)) := by
  have hi := (firstFree_some hslot).1
  have hrange : (0 : Int) ≤ (i : Int) ∧ (i : Int) < taskSlots := by omega
  simp only [copyProcess, preemptDisable, preemptEnable, Kernel.updateTask_mm, hpage, ok_bind,
    assignPID, Kernel.updateTask_task, hslot, setTask, if_pos hrange, Int.toNat_natCast]
  refine congrArg Except.ok (Prod.ext rfl ?_)
  simp only [addTask, Kernel.updateTask, Kernel.mk.injEq, true_and, and_true]
  funext q
  by_cases hq : q = .page a
  · subst hq
    simp [Kernel.cur, copyTask, hcur.symm]
  · by_cases hqc : q = k.current
    · subst hqc
      simp [hq]
    · simp [hq, hqc]

/-- With every slot taken it writes in front of the table. -/
theorem copyProcess_full (hpage : kmalloc k.mm pageSize = .ok (some a, mm₁))
    (hslot : ¬ FreeSlot k) (cloneFlags fn arg stack : Nat) :
    copyProcess k cloneFlags fn arg stack = .error .outOfBounds := by
  have hfind := firstFree_none.mpr hslot
  have hrange : ¬ ((0 : Int) ≤ -1 ∧ (-1 : Int) < taskSlots) := by omega
  simp only [copyProcess, preemptDisable, Kernel.updateTask_mm, hpage, ok_bind, assignPID,
    Kernel.updateTask_task, hfind, setTask, if_neg hrange, error_bind]

theorem copyProcess_noPage (hpage : kmalloc k.mm pageSize = .error .nullDeref)
    (cloneFlags fn arg stack : Nat) :
    copyProcess k cloneFlags fn arg stack = .error .nullDeref := by
  simp only [copyProcess, preemptDisable, Kernel.updateTask_mm, hpage, error_bind]

/-! ## `sys_fork` -/

/-- The child of `cur`, on page `a` with its stack at `s`, in slot `i`. -/
def forkTask (cur : Task) (s a i : Nat) : Task :=
  let t := copyTask cur 0 0 0 s (taskPtRegs a) i
  { t with ptRegs := { t.ptRegs with
      sp := toUnsignedLong (s + toInt ((cur.ptRegs.sp : Int) - cur.stack)) } }

/-- The kernel after the fork: the child is in the table, and its stack is a copy. -/
def forked (k : Kernel) (mm : Mm) (i s a : Nat) : Kernel :=
  { addTask k mm i a (forkTask k.cur s a i) with mem := memcpy k.mem s k.cur.stack pageSize }

/-- **`sys_fork`** with two pages and a slot. -/
theorem sysFork_eq (hcur : k.current ≠ .page a) (hstack : kmalloc k.mm pageSize = .ok (some s, mm₁))
    (hpage : kmalloc mm₁ pageSize = .ok (some a, mm₂)) (hslot : firstFree k.task = some i) :
    sysFork k = .ok ((i : Int), forked k mm₂ i s a) := by
  have hi := (firstFree_some hslot).1
  have hrange : (0 : Int) ≤ (i : Int) ∧ (i : Int) < taskSlots := by omega
  have hcopy := copyProcess_eq (k := { preemptDisable k with mm := mm₁ }) (i := i) hcur
    hpage hslot 0 0 0 s
  have hcopyTask : copyTask (Kernel.cur { preemptDisable k with mm := mm₁ }) 0 0 0 s (taskPtRegs a) i
      = copyTask k.cur 0 0 0 s (taskPtRegs a) i := by
    simp [Kernel.cur, copyTask, preemptDisable]
  rw [hcopyTask] at hcopy
  have hmm : (preemptDisable k).mm = k.mm := rfl
  simp only [sysFork, hmm, hstack, ok_bind, Option.getD_some, hcopy, taskAt, if_pos hrange,
    Int.toNat_natCast, addTask_task_self]
  refine congrArg Except.ok (Prod.ext rfl ?_)
  have hne : (TaskPtr.page a) ≠ k.current := hcur.symm
  simp only [forked, addTask, preemptEnable, preemptDisable, Kernel.updateTask, Kernel.mk.injEq,
    true_and, and_true]
  refine ⟨?_, ?_⟩
  · simp [Kernel.cur, copyTask, hcur]
  · funext q
    by_cases hq : q = .page a
    · subst hq
      simp [Kernel.cur, copyTask, forkTask, hne, hcur]
    · by_cases hqc : q = k.current
      · subst hqc
        simp [hq]
      · simp [hq, hqc]

theorem sysFork_noStack (hstack : kmalloc k.mm pageSize = .error .nullDeref) :
    sysFork k = .error .nullDeref := by
  have hmm : (preemptDisable k).mm = k.mm := rfl
  simp only [sysFork, hmm, hstack, error_bind]

/-- What stops `copy_process` stops `sys_fork`. -/
theorem sysFork_noCopy {f : Fault} (hstack : kmalloc k.mm pageSize = .ok (some s, mm₁))
    (hcopy : copyProcess { preemptDisable k with mm := mm₁ } 0 0 0 s = .error f) :
    sysFork k = .error f := by
  have hmm : (preemptDisable k).mm = k.mm := rfl
  simp only [sysFork, hmm, hstack, ok_bind, Option.getD_some, hcopy, error_bind]

end OsdiKernel
