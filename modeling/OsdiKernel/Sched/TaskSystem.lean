import OsdiKernel.Sched.Calls

/-!
# Runs of the task table

The kernel after `mm_init` with `init_task` alone, then any sequence of the
calls that make, change, end and choose tasks, made by whoever is current.
A call that makes something needs a free slot and the pages it will ask for;
without them it does not return (`Create`).
-/

namespace OsdiKernel

/-- `INIT_TASK`, with whatever its trap frame holds. -/
def initTask (ptRegs : PtRegs) : Task where
  cpuContext := CpuContext.zero
  state := .running
  counter := 0
  priority := 1
  preemptCount := 0
  stack := 0
  flags := pfKthread
  pid := 0
  ptRegs := ptRegs

/-- The kernel once `mm_init` has run. -/
structure Boot (k : Kernel) : Prop where
  mm : mmInit Mm.bss = .ok k.mm
  task : k.task = fun i => if i = 0 then some .initTask else none
  current : k.current = .initTask
  nrTasks : k.nrTasks = 1
  init : ∃ ptRegs, k.tasks .initTask = initTask ptRegs

/-- What the current task may do. -/
inductive TaskOp where
  | copyProcess (cloneFlags fn arg : Nat)
  | moveToUserMode (pc : Nat)
  | sysFork
  | exitProcess
  | sysKill (pid : Int)
  | schedule
  | sysMalloc (bytes : Int)

/-- Threads are made where a slot and a page are free, and `init_task` does not exit. -/
def taskSystem : System Kernel TaskOp Fault where
  legal := fun k op =>
    match op with
    | .copyProcess cloneFlags _ _ =>
        cloneFlags &&& pfKthread ≠ 0 ∧ CanCopy k
    | .moveToUserMode _ => (freeFrames k.mm).Nonempty
    | .sysFork => CanFork k
    | .exitProcess => k.current ≠ .initTask
    | .sysKill pid => 0 ≤ pid ∧ pid < taskSlots ∧ k.task pid.toNat ≠ none
    | .schedule => True
    | .sysMalloc bytes => kmallocCan k.mm bytes = true
  exec := fun k op =>
    match op with
    | .copyProcess cloneFlags fn arg => do
        let (_, k) ← copyProcess k cloneFlags fn arg 0
        .ok k
    | .moveToUserMode pc => do
        let (_, k) ← moveToUserMode k pc
        .ok k
    | .sysFork => do
        let (_, k) ← sysFork k
        .ok k
    | .exitProcess => exitProcess k
    | .sysKill pid => sysKill k pid
    | .schedule => schedule k
    | .sysMalloc bytes => do
        let (_, k) ← sysMalloc k bytes
        .ok k

/-- Reachable from the initial task table. -/
def TaskReachable (k : Kernel) : Prop := ∃ k₀, Boot k₀ ∧ taskSystem.Reach k₀ k

variable {k k' : Kernel} {c c' : Link → List Nat} {live : List Live} {p : TaskPtr} {i a s : Nat}

/-! ## Each operation -/

/-- The invariant holds, for some record of what is handed out. -/
def TaskOk (k : Kernel) : Prop := ∃ c live, TaskInv k c live

/-- Only `init_task` is in the table, -/
theorem Boot.slot (h : Boot k) (hp : k.task i = some p) : i = 0 ∧ p = .initTask := by
  have hif : k.task i = if i = 0 then some .initTask else none := congrFun h.task i
  rw [hif] at hp
  by_cases hi : i = 0
  · rw [if_pos hi] at hp
    exact ⟨hi, (Option.some.inj hp).symm⟩
  · rw [if_neg hi] at hp
    exact absurd hp (by simp)

/-- and it has no page. -/
theorem Boot.pageOf (h : Boot k) (hp : k.task i = some p) (u : Use) : pageOf k p u = none := by
  obtain ⟨r, hr⟩ := h.init
  rw [(h.slot hp).2]
  cases u with
  | task => rfl
  | stack => rw [OsdiKernel.pageOf, hr]; rfl

theorem Boot.useInv (h : Boot k) : ∃ c, UseInv k c [] := by
  obtain ⟨c, hmm⟩ := mmInv_init h.mm
  have hpages : ∀ q, InTable k q → ∀ u, OsdiKernel.pageOf k q u = none := fun q ⟨_, _, hq⟩ => h.pageOf hq
  refine ⟨c, hmm, ?_, ?_, ?_, ?_⟩
  · intro i hi
    rw [h.task]
    exact if_neg (by unfold taskSlots at hi; omega)
  · rw [h.task]; rfl
  · intro q hq u b hb
    rw [hpages q hq u] at hb
    exact absurd hb (by simp)
  · intro q _ hq _ u _ b hb _
    rw [hpages q hq u] at hb
    exact absurd hb (by simp)

theorem taskOk_boot (h : Boot k) : TaskOk k := by
  obtain ⟨c, hpages⟩ := h.useInv
  obtain ⟨r, hr⟩ := h.init
  refine ⟨c, [], ⟨⟨hpages, ?_, ?_, ?_, ?_⟩, ?_⟩⟩
  · intro i q hq
    obtain ⟨rfl, rfl⟩ := h.slot hq
    rw [hr]; rfl
  · have hslots : usedSlots k = {0} := by
      refine Finset.ext fun j => ?_
      simp only [usedSlots, h.task, Finset.mem_filter, Finset.mem_range, Finset.mem_singleton]
      by_cases hj : j = 0 <;> simp [hj, taskSlots]
    rw [h.nrTasks, hslots]; rfl
  · rw [hr]; rfl
  · rintro q ⟨_, _, hq⟩
    rw [(h.slot hq).2, hr]
    refine ⟨⟨?_, ?_⟩, ?_, ?_⟩ <;> simp [initTask]
  · rw [h.current]
    exact ⟨hpages.init_inTable, by rw [hr]; rfl⟩

theorem exitProcess_outcome (h : TaskInv k c live) (hne : k.current ≠ .initTask) :
    ∃ k', exitProcess k = .ok k' ∧ TaskOk k' := by
  obtain ⟨mm', c', live', hrun, htab, _⟩ := exited_spec h hne
  obtain ⟨k', _, hs, _, hinv⟩ := schedule_outcome htab
  exact ⟨k', hrun.trans hs, c', live', hinv⟩

theorem sysKill_outcome (h : TaskInv k c live) {pid : Int} (h0 : 0 ≤ pid) (h64 : pid < taskSlots)
    (hslot : k.task pid.toNat ≠ none) : ∃ k', sysKill k pid = .ok k' ∧ TaskOk k' := by
  obtain ⟨i, rfl⟩ : ∃ i : Nat, pid = i := ⟨pid.toNat, by omega⟩
  rw [Int.toNat_natCast] at hslot
  by_cases hpid : k.cur.pid = i
  · exact ⟨k, by rw [sysKill, if_pos hpid], c, live, h⟩
  · by_cases hi0 : i = 0
    · exact ⟨k, by rw [sysKill, if_neg hpid, if_pos (by omega)], c, live, h⟩
    · obtain ⟨a, mm', c', _, _, hrun, hinv⟩ := sysKill_spec h (by omega) hi0 hpid hslot
      exact ⟨_, hrun, c', _, hinv⟩

theorem sysMalloc_outcome (h : TaskInv k c live) {bytes : Int} (hcan : kmallocCan k.mm bytes = true) :
    ∃ r k', sysMalloc k bytes = .ok (r, k') ∧ TaskOk k' := by
  rcases kmalloc_outcome h.mm bytes with ⟨hno, _⟩ | ⟨_, r, hrun, hal⟩
  · rw [hno] at hcan
    exact absurd hcan (by simp)
  · obtain ⟨addr, mm'⟩ := r
    obtain ⟨c', hmm⟩ := hal.inv
    refine ⟨addr, { k with mm := mm' }, by simp only [sysMalloc, hrun, ok_bind], ?_⟩
    cases addr with
    | none => exact ⟨c', live, h.grow hmm (fun e he => he), h.current⟩
    | some a => exact ⟨c', _, h.grow hmm (fun e he => List.mem_cons_of_mem _ he), h.current⟩

/-! ## Runs -/

/-- **Every lawful call returns, and keeps the invariant.** -/
theorem taskOk_step : taskSystem.Keeps TaskOk := by
  intro k op hk hl
  obtain ⟨c, live, h⟩ := hk
  cases op with
  | copyProcess cloneFlags fn arg =>
      obtain ⟨i, a, mm', c', _, _, hrun, hinv⟩ := copyProcess_spec h hl.1 hl.2 fn arg 0
      exact ⟨_, by simp only [taskSystem, hrun, ok_bind], c', _, hinv⟩
  | moveToUserMode pc =>
      obtain ⟨s, mm', c', _, hrun, hinv⟩ := moveToUserMode_spec h hl pc
      exact ⟨_, by simp only [taskSystem, hrun, ok_bind], c', _, hinv⟩
  | sysFork =>
      obtain ⟨i, s, a, mm₁, c₁, mm₂, c₂, _, _, _, hrun, hinv⟩ := sysFork_spec h hl
      exact ⟨_, by simp only [taskSystem, hrun, ok_bind], c₂, _, hinv⟩
  | exitProcess => exact exitProcess_outcome h hl
  | sysKill pid => exact sysKill_outcome h hl.1 hl.2.1 hl.2.2
  | schedule =>
      obtain ⟨k', _, hrun, _, hinv⟩ := schedule_outcome h.toTableInv
      exact ⟨k', hrun, c, live, hinv⟩
  | sysMalloc bytes =>
      obtain ⟨r, k', hrun, hok⟩ := sysMalloc_outcome h hl
      exact ⟨k', by simp only [taskSystem, hrun, ok_bind], hok⟩

theorem taskOk_reachable (h : TaskReachable k) : TaskOk k := by
  obtain ⟨k₀, h₀, hr⟩ := h
  exact hr.inv (taskOk_boot h₀) taskOk_step

/-! ## The table -/

/-- What `task[]` and the buddy allocator say about each other. -/
structure TaskTable (k : Kernel) : Prop where
  count : k.nrTasks = (usedSlots k).card
  pid : ∀ i p, i < taskSlots → k.task i = some p → (k.tasks p).pid = i
  init : k.task 0 = some .initTask
  /-- Every other task is on an allocated page, -/
  page : ∀ i p, i ≠ 0 → i < taskSlots → k.task i = some p → ∃ a, p = .page a ∧ PageAllocated k.mm a
  /-- of its own. -/
  distinct : ∀ i j p, k.task i = some p → k.task j = some p → i = j
  /-- So is every stack of a task that is alive, -/
  stack : ∀ i p s, k.task i = some p → (k.tasks p).userStack = some s → PageAllocated k.mm s
  /-- which no other task has, -/
  stackOnce : ∀ i j p q s, k.task i = some p → k.task j = some q → (k.tasks p).userStack = some s →
    (k.tasks q).userStack = some s → i = j
  /-- and where no task is. -/
  stackApart : ∀ i j p s, k.task i = some p → (k.tasks p).userStack = some s → k.task j ≠ some (.page s)
  current : ∃ i, i < taskSlots ∧ k.task i = some k.current

theorem TaskInv.table (h : TaskInv k c live) : TaskTable k where
  count := h.count
  pid := fun i p _ hp => h.pid i p hp
  init := h.init
  page := by
    intro i p hi0 _ hp
    cases p with
    | initTask => exact absurd (h.slot_unique hp h.init) hi0
    | page a => exact ⟨a, rfl, h.mm.slab.pageAllocated (h.live _ (h.inTable hp) .task a rfl)⟩
  distinct := fun i j p hi hj => h.slot_unique hi hj
  stack := fun i p s hp hs => h.mm.slab.pageAllocated (h.live p (h.inTable hp) .stack s hs)
  stackOnce := by
    intro i j p q s hp hq hs hs'
    have hpq := (h.once p q (h.inTable hp) (h.inTable hq) .stack .stack s hs hs').1
    rw [← hpq] at hq
    exact h.slot_unique hp hq
  stackApart := by
    intro i j p s hp hs hj
    have := (h.once p _ (h.inTable hp) (h.inTable hj) .stack .task s hs rfl).2
    exact Use.noConfusion this
  current := h.current.1

/--
**The task table.** However tasks are made, ended and killed, every slot knows
its number, every task and every living stack has an allocated page to itself,
`nr_tasks` is right and the current task is in the table; and no lawful call
fails.
-/
theorem taskTable_reachable (h : TaskReachable k) :
    TaskTable k ∧ ∀ op, taskSystem.legal k op → ∃ k', taskSystem.exec k op = .ok k' := by
  obtain ⟨c, live, hinv⟩ := taskOk_reachable h
  refine ⟨hinv.table, fun op hl => ?_⟩
  obtain ⟨k', hrun, _⟩ := taskOk_step k op ⟨c, live, hinv⟩ hl
  exact ⟨k', hrun⟩

/-! ## Runs that can be computed -/

/-- The kernel after `mm_init`, with all else zero. -/
def bootKernel (mm : Mm) : Kernel where
  mm := mm
  mem := fun _ => 0
  tasks := fun _ => initTask PtRegs.zero
  task := fun i => if i = 0 then some .initTask else none
  current := .initTask
  nrTasks := 1

/-- Enough for a call to be lawful, and decidable: the free lists stand for the free frames. -/
def ready (k : Kernel) : TaskOp → Bool
  | .copyProcess cloneFlags _ _ => cloneFlags &&& pfKthread ≠ 0 ∧ FreeSlot k ∧ hasFree k.mm 0 = true
  | .moveToUserMode _ => hasFree k.mm 0
  | .sysFork => FreeSlot k ∧ hasFree k.mm 1 = true
  | .exitProcess => k.current ≠ .initTask
  | .sysKill pid => 0 ≤ pid ∧ pid < taskSlots ∧ k.task pid.toNat ≠ none
  | .schedule => true
  | .sysMalloc bytes => kmallocCan k.mm bytes

theorem TaskOk.legal_of_ready (h : TaskOk k) (op : TaskOp) (hr : ready k op = true) :
    taskSystem.legal k op := by
  obtain ⟨c, live, h⟩ := h
  have hb := h.mm.slab.buddy
  cases op with
  | copyProcess cloneFlags fn arg =>
      obtain ⟨h1, h2, h3⟩ := of_decide_eq_true hr
      exact ⟨h1, h2, hb.hasFree_iff_nonempty.mp h3⟩
  | moveToUserMode pc => exact hb.hasFree_iff_nonempty.mp hr
  | sysFork =>
      obtain ⟨h1, h2⟩ := of_decide_eq_true hr
      exact ⟨h1, hb.nontrivial_of_hasFree h2⟩
  | exitProcess =>
      have hne : k.current ≠ .initTask := of_decide_eq_true hr
      exact hne
  | sysKill pid =>
      have hpid : 0 ≤ pid ∧ pid < taskSlots ∧ k.task pid.toNat ≠ none := of_decide_eq_true hr
      exact hpid
  | schedule => trivial
  | sysMalloc bytes => exact hr

/-- The task system, as far as it can be computed. -/
def readySystem : System Kernel TaskOp Fault where
  legal := fun k op => ready k op = true
  exec := taskSystem.exec

instance (k : Kernel) (op : TaskOp) : Decidable (readySystem.legal k op) :=
  inferInstanceAs (Decidable (ready k op = true))

/-- Carry out a list of calls after `mm_init`. -/
def taskRun (ops : List TaskOp) : Option Kernel :=
  match mmInit Mm.bss with
  | .ok mm => readySystem.run (bootKernel mm) ops
  | .error _ => none

theorem taskReachable_of_run {ops : List TaskOp} (h : taskRun ops = some k) : TaskReachable k := by
  cases h₀ : mmInit Mm.bss with
  | error e => simp [taskRun, h₀] at h
  | ok mm =>
      have hboot : Boot (bootKernel mm) := ⟨h₀, rfl, rfl, rfl, PtRegs.zero, rfl⟩
      simp only [taskRun, h₀] at h
      have hreach : readySystem.Reach (bootKernel mm) k := System.Reach.of_run .init h
      have hsame : readySystem.exec = taskSystem.exec := rfl
      exact ⟨_, hboot, hreach.mono_inv (taskOk_boot hboot) taskOk_step
        (fun _ _ hk hr => hk.legal_of_ready _ hr) hsame⟩

/-- A kernel thread goes to user mode, forks and exits, and its child kills what is left of it. -/
theorem taskTable_reachable_fork :
    ∃ k, TaskReachable k ∧ k.nrTasks = 2 ∧ TaskTable k := by
  have hrun : (taskRun [.copyProcess pfKthread 0 0, .schedule, .moveToUserMode 0, .sysFork, .exitProcess,
      .sysKill 1]).map (fun k => k.nrTasks) = some 2 := by decide +kernel
  obtain ⟨k, hk, hn⟩ := Option.map_eq_some_iff.mp hrun
  exact ⟨k, taskReachable_of_run hk, hn, (taskTable_reachable (taskReachable_of_run hk)).1⟩

end OsdiKernel
