import OsdiKernel.Sched.TaskSystem

/-!
# When creation fails

`copy_process` and `sys_fork` test for failure, and their callers test for a
negative pid, but no failure gets that far: `kmalloc` does not return NULL for
want of memory but dereferences it, and `assignPID`'s -1 is used as an index.
So creation is atomic exactly when it does not fail.
-/

namespace OsdiKernel

/-- Nothing anybody could see is different. -/
structure Unchanged (k k' : Kernel) : Prop where
  task : k'.task = k.task
  nrTasks : k'.nrTasks = k.nrTasks
  current : k'.current = k.current
  /-- `preempt_count` is one of the fields. -/
  tasks : k'.tasks = k.tasks
  free : freeFrames k'.mm = freeFrames k.mm
  mem : k'.mem = k.mem

/-- Creation where `can` says whether what it needs is there: all or nothing, and no fault. -/
def CreationAtomic (can : Prop) (k : Kernel) (r : Except Fault (Int × Kernel)) : Prop :=
  ∃ pid k', r = .ok (pid, k') ∧
    (can → 0 ≤ pid ∧ pid < taskSlots ∧ k.task pid.toNat = none ∧
      ∀ j, j ≠ pid.toNat → k'.task j = k.task j) ∧
    (¬ can → pid < 0 ∧ Unchanged k k')

variable {k : Kernel} {c : Link → List Nat} {live : List Live} {can : Prop}

theorem not_creationAtomic_error {f : Fault} : ¬ CreationAtomic can k (.error f) := by
  intro h
  obtain ⟨pid, k', he, _⟩ := h
  exact absurd he (by simp)

/-- A task added in a free slot is all there is to it. -/
theorem creationAtomic_addTask {k' : Kernel} {i a : Nat} (hcan : can) (hi : i < taskSlots)
    (hnone : k.task i = none) (htask : k'.task = Function.update k.task i (some (.page a))) :
    CreationAtomic can k (.ok ((i : Int), k')) := by
  refine ⟨i, k', rfl, fun _ => ⟨by omega, by omega, hnone, fun j hj => ?_⟩, fun hno => absurd hcan hno⟩
  rw [Int.toNat_natCast] at hj
  rw [htask, Function.update_of_ne hj]

/-- `copy_process` faults for want of a page, or for want of a slot. -/
theorem UseInv.copyProcess_faults (h : UseInv k c live) (hno : ¬ CanCopy k)
    (cloneFlags fn arg stack : Nat) :
    ∃ f, copyProcess k cloneFlags fn arg stack = .error f := by
  rcases kmalloc_page h.mm with ⟨_, hrun⟩ | ⟨a, mm', c', ht⟩
  · exact ⟨_, copyProcess_noPage hrun cloneFlags fn arg stack⟩
  · have hslot : ¬ FreeSlot k := fun hs => hno ⟨hs, _, ht.wasFree⟩
    exact ⟨_, copyProcess_full ht.run hslot cloneFlags fn arg stack⟩

theorem TaskInv.copyProcess_atomic (h : TaskInv k c live) (cloneFlags fn arg stack : Nat) :
    CreationAtomic (CanCopy k) k (copyProcess k cloneFlags fn arg stack) ↔ CanCopy k := by
  constructor
  · intro hat
    by_contra hno
    obtain ⟨f, hf⟩ := h.copyProcess_faults hno cloneFlags fn arg stack
    rw [hf] at hat
    exact not_creationAtomic_error hat
  · intro hcan
    obtain ⟨i, hi⟩ := hcan.1.firstFree
    obtain ⟨a, mm', c', ht⟩ := takePage h.mm hcan.2
    obtain ⟨hi64, hnone⟩ := firstFree_some hi
    rw [copyProcess_eq (h.fresh_ne ht.fresh h.current.1) ht.run hi]
    exact creationAtomic_addTask hcan hi64 hnone rfl

/-- `sys_fork` faults where it gets its stack, or where `copy_process` does. -/
theorem UseInv.sysFork_faults (h : UseInv k c live) (hno : ¬ CanFork k) :
    ∃ f, sysFork k = .error f := by
  rcases kmalloc_page h.mm with ⟨_, hrun⟩ | ⟨s, mm₁, c₁, hs⟩
  · exact ⟨_, sysFork_noStack hrun⟩
  · have hgrow : UseInv { k with mm := mm₁ } c₁ (pageAt s :: live) :=
      h.grow hs.inv (fun _ he => List.mem_cons_of_mem _ he)
    have h₁ : UseInv (preemptDisable { k with mm := mm₁ }) c₁ (pageAt s :: live) := hgrow.updateTask rfl
    have hno₁ : ¬ CanCopy (preemptDisable { k with mm := mm₁ }) :=
      fun hcan => hno ⟨hcan.1, hs.nonempty_iff.mp hcan.2⟩
    obtain ⟨f, hf⟩ := h₁.copyProcess_faults hno₁ 0 0 0 s
    exact ⟨f, sysFork_noCopy hs.run hf⟩

theorem TaskInv.sysFork_atomic (h : TaskInv k c live) :
    CreationAtomic (CanFork k) k (sysFork k) ↔ CanFork k := by
  constructor
  · intro hat
    by_contra hno
    obtain ⟨f, hf⟩ := h.sysFork_faults hno
    rw [hf] at hat
    exact not_creationAtomic_error hat
  · intro hcan
    obtain ⟨i, s, a, mm₁, c₁, mm₂, c₂, hi, _, _, hrun, _⟩ := sysFork_spec h hcan
    obtain ⟨hi64, hnone⟩ := firstFree_some hi
    rw [hrun]
    exact creationAtomic_addTask hcan hi64 hnone rfl

/--
**When creation is atomic.** In every reachable state, whatever the arguments,
`copy_process` and `sys_fork` are all or nothing if and only if they have what
they need: a slot, and one page or two.
-/
theorem creation_atomic_iff (h : TaskReachable k) :
    (∀ cloneFlags fn arg stack,
      CreationAtomic (CanCopy k) k (copyProcess k cloneFlags fn arg stack) ↔ CanCopy k) ∧
    (CreationAtomic (CanFork k) k (sysFork k) ↔ CanFork k) := by
  obtain ⟨c, live, hinv⟩ := taskOk_reachable h
  exact ⟨hinv.copyProcess_atomic, hinv.sysFork_atomic⟩

/-- A process that forked twice and killed the first child forks again, into the slot that is free between the two. -/
theorem creation_atomic_refill : ∃ k, TaskReachable k ∧ k.nrTasks = 3 ∧ k.task 2 = none ∧ k.task 3 ≠ none ∧
    CreationAtomic (CanFork k) k (sysFork k) := by
  have hrun : (taskRun [.copyProcess pfKthread 0 0, .schedule, .moveToUserMode 0, .sysFork, .sysFork, .sysKill 2]).map
      (fun k => (k.nrTasks, k.task 2, (k.task 3).isSome, ready k .sysFork)) = some (3, none, true, true) := by
    decide +kernel
  obtain ⟨k, hk, hr⟩ := Option.map_eq_some_iff.mp hrun
  have hreach := taskReachable_of_run hk
  obtain ⟨hn, hfree, htaken, hready⟩ : k.nrTasks = 3 ∧ k.task 2 = none ∧ (k.task 3).isSome = true ∧
      ready k .sysFork = true := by
    simpa using hr
  exact ⟨k, hreach, hn, hfree, Option.isSome_iff_ne_none.mp htaken,
    (creation_atomic_iff hreach).2.mpr ((taskOk_reachable hreach).legal_of_ready _ hready)⟩

/-- After 63 threads the table is full, and the next one is written in front of it. -/
theorem creation_not_atomic :
    ¬ (∀ k, TaskReachable k → ∀ cloneFlags fn arg stack,
      CreationAtomic (CanCopy k) k (copyProcess k cloneFlags fn arg stack)) := by
  intro hall
  have hrun : (taskRun (List.replicate 63 (.copyProcess pfKthread 0 0))).map
      (fun k => decide (FreeSlot k)) = some false := by decide +kernel
  obtain ⟨k, hk, hfull⟩ := Option.map_eq_some_iff.mp hrun
  have hreach := taskReachable_of_run hk
  have hcan := ((creation_atomic_iff hreach).1 pfKthread 0 0 0).mp (hall k hreach pfKthread 0 0 0)
  exact of_decide_eq_false hfull hcan.1

end OsdiKernel
