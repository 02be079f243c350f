import OsdiKernel.Sched.ForkMemory

/-!
# The scheduler, in memory

`sched.c` on the words of the `task_struct`s: a counter is a `long` at an address.
`_schedule` is cut at `cpu_switch_to`, where the core changes hands. What is left
of it there is the `preempt_enable` of the task that goes on.

`Represents` says that memory has what the records of `Sched` say, and every
function here keeps up with its namesake there. Nothing is written on the way but
words of tasks in the table, behind their contexts.
-/

namespace OsdiKernel

/-! ## The code -/

/-- One turn of the selection loop, with `(c, next)` so far. -/
def considerTaskMem (im : Linked) (r : RawKernel) (best : Int × Nat) (i : Nat) : Int × Nat :=
  match r.task i with
  | none => best
  | some p =>
      let counter := toLong (word r.mem (im.addr p) counterWord)
      if word r.mem (im.addr p) stateWord = TaskState.running.code ∧ counter > best.1 then (toInt counter, i) else best

/-- The selection loop: `(c, next)`. -/
def selectTaskMem (im : Linked) (r : RawKernel) : Int × Nat := (List.range taskSlots).foldl (considerTaskMem im r) (-1, 0)

/-- One turn of the refresh loop. -/
def refreshTaskMem (im : Linked) (r : RawKernel) (i : Nat) : RawKernel :=
  match r.task i with
  | none => r
  | some p =>
      let counter := toLong (word r.mem (im.addr p) counterWord)
      let priority := toLong (word r.mem (im.addr p) priorityWord)
      { r with mem := setWord r.mem (im.addr p) counterWord (toUnsignedLong ((counter >>> (1 : Nat)) + priority)) }

/-- The refresh loop. -/
def refreshCountersMem (im : Linked) (r : RawKernel) : RawKernel := (List.range taskSlots).foldl (refreshTaskMem im) r

/-- The `while (1)` of `_schedule`, for so many rounds. -/
def pickNextMem (im : Linked) : Nat → RawKernel → Except Fault (Nat × RawKernel)
  | 0, _ => .error .spin
  | fuel + 1, r =>
      if (selectTaskMem im r).1 ≠ 0 then .ok ((selectTaskMem im r).2, r) else pickNextMem im fuel (refreshCountersMem im r)

/-- `_schedule` and `switch_to`, down to `cpu_switch_to(prev, next)`. -/
def scheduleInnerMem (im : Linked) (r : RawKernel) : Except Fault RawKernel := do
  let r := { r with mem := disableMem r.mem (im.addr r.current) }
  let (next, r) ← pickNextMem im scheduleRounds r
  match r.task next with
  | none => .error .nullDeref
  | some p => .ok { r with current := p }

/-- `schedule`, as far. -/
def scheduleMem (im : Linked) (r : RawKernel) : Except Fault RawKernel :=
  scheduleInnerMem im { r with mem := setWord r.mem (im.addr r.current) counterWord 0 }

/-- What is left to do for whoever is current then: the end of `_schedule`, or `schedule_tail`. -/
def scheduleTailMem (im : Linked) (r : RawKernel) : RawKernel := { r with mem := enableMem r.mem (im.addr r.current) }

/-- `timer_tick` -/
def timerTickMem (im : Linked) (r : RawKernel) : RawKernel :=
  let cur := im.addr r.current
  { r with mem := setWord r.mem cur counterWord (word r.mem cur counterWord + (2 ^ 64 - 1)) }

/-- `task_preemption`: whether `_schedule` is called, and the kernel as it is then at `cpu_switch_to`. -/
def taskPreemptionMem (im : Linked) (r : RawKernel) : Except Fault (Bool × RawKernel) :=
  let cur := im.addr r.current
  if toLong (word r.mem cur counterWord) > 0 ∨ toLong (word r.mem cur preemptCountWord) > 0 then .ok (false, r)
  else do
    let r ← scheduleInnerMem im { r with mem := setWord r.mem cur counterWord 0 }
    .ok (true, r)

/-- `exit_process`, down to `cpu_switch_to`. -/
def exitProcessMem (im : Linked) (r : RawKernel) : Except Fault RawKernel := do
  let cur := im.addr r.current
  let r := { r with mem := disableMem r.mem cur }
  let r := { r with mem := setWord r.mem cur stateWord TaskState.zombie.code }
  let r ←
    if word r.mem cur stackWord ≠ 0 then do
      let mm ← kfree r.mm (word r.mem cur stackWord)
      .ok { r with mm }
    else .ok r
  scheduleMem im { r with mem := enableMem r.mem cur }

/-- `sys_malloc` -/
def sysMallocMem (r : RawKernel) (bytes : Int) : Except Fault (Option Nat × RawKernel) := do
  let (addr, mm) ← kmalloc r.mm bytes
  .ok (addr, { r with mm })

/-- `sys_kill` -/
def sysKillMem (im : Linked) (r : RawKernel) (pid : Int) : Except Fault RawKernel :=
  if toLong (word r.mem (im.addr r.current) pidWord) = pid then .ok r
  else if pid = 0 then .ok r
  else if 0 ≤ pid ∧ pid < taskSlots then
    match r.task pid.toNat with
    | none => .error .nullDeref
    | some p => do
        -- `if(task[pid]->flags = 0)`
        let mem := setWord r.mem (im.addr p) flagsWord 0
        match p with
        | .initTask => .error .outOfBounds
        | .page addr => do
            let mm ← kfree r.mm addr
            .ok { r with mm, mem, task := Function.update r.task pid.toNat none, nrTasks := r.nrTasks - 1 }
  else .error .outOfBounds

variable {im : Linked} {mem mem' : Nat → UInt8} {a w x i n : Nat} {t : Task} {r r' : RawKernel} {k k' : Kernel} {p q : TaskPtr}
  {c : Int}

/-! ## `long`s -/

theorem toLong_of_range (hlo : -2 ^ 63 ≤ c) (hhi : c < 2 ^ 63) : toLong (toUnsignedLong c) = c := by
  unfold toLong toUnsignedLong
  rw [Int.bmod_def]
  omega

theorem toUnsignedLong_lt (c : Int) : toUnsignedLong c < 2 ^ 64 := by
  unfold toUnsignedLong
  omega

theorem toUnsignedLong_mod (c : Int) : toUnsignedLong c % 2 ^ 64 = toUnsignedLong c := Nat.mod_eq_of_lt (toUnsignedLong_lt c)

theorem toUnsignedLong_succ (c : Int) : (toUnsignedLong c + 1) % 2 ^ 64 = toUnsignedLong (c + 1) := by
  unfold toUnsignedLong
  omega

theorem toUnsignedLong_pred (c : Int) : (toUnsignedLong c + (2 ^ 64 - 1)) % 2 ^ 64 = toUnsignedLong (c - 1) := by
  unfold toUnsignedLong
  omega

/-! ## The records in memory -/

/-- What a `task_struct` has in word `j`, behind its context. -/
def taskWord (t : Task) (j : Nat) : Nat :=
  if j = stateWord then t.state.code
  else if j = counterWord then toUnsignedLong t.counter
  else if j = priorityWord then toUnsignedLong t.priority
  else if j = preemptCountWord then toUnsignedLong t.preemptCount
  else if j = stackWord then t.stack
  else if j = flagsWord then t.flags
  else toUnsignedLong t.pid

/-- The whole of a `task_struct`, but for its `cpu_context`. -/
def TaskAt (mem : Nat → UInt8) (a : Nat) (t : Task) : Prop := ∀ j, stateWord ≤ j → j ≤ pidWord → word mem a j = taskWord t j

/-- The kernel of `Sched`, in memory. Frames, contexts and stacks hold anything. -/
structure Represents (im : Linked) (r : RawKernel) (k : Kernel) : Prop where
  mm : r.mm = k.mm
  task : r.task = k.task
  current : r.current = k.current
  nrTasks : r.nrTasks = k.nrTasks
  tasks : ∀ q, InTable k q → TaskAt r.mem (im.addr q) (k.tasks q)

/-- Two tasks have no byte in common. -/
def TasksApart (im : Linked) (task : Nat → Option TaskPtr) : Prop :=
  ∀ i j p q, i < taskSlots → j < taskSlots → task i = some p → task j = some q → p ≠ q → PagesApart (im.addr p) (im.addr q)

/-- A byte of a task in the table, behind the context. -/
def TaskByte (im : Linked) (task : Nat → Option TaskPtr) (x : Nat) : Prop :=
  ∃ i p, i < taskSlots ∧ task i = some p ∧ Within (im.addr p + 8 * stateWord) 56 x

/-- The words of tasks in the table are as they were. -/
def KeepsWords (im : Linked) (task : Nat → Option TaskPtr) (mem mem' : Nat → UInt8) : Prop :=
  ∀ i p j, i < taskSlots → task i = some p → stateWord ≤ j → j ≤ pidWord → word mem' (im.addr p) j = word mem (im.addr p) j

/-- Nothing but such bytes is written to. -/
def OnlyTasks (im : Linked) (task : Nat → Option TaskPtr) (mem mem' : Nat → UInt8) : Prop :=
  ∀ x, ¬ TaskByte im task x → mem' x = mem x

namespace TaskAt

theorem state (h : TaskAt mem a t) : word mem a stateWord = t.state.code := h _ (by decide) (by decide)

theorem counter (h : TaskAt mem a t) : word mem a counterWord = toUnsignedLong t.counter := h _ (by decide) (by decide)

theorem priority (h : TaskAt mem a t) : word mem a priorityWord = toUnsignedLong t.priority := h _ (by decide) (by decide)

theorem preemptCount (h : TaskAt mem a t) : word mem a preemptCountWord = toUnsignedLong t.preemptCount :=
  h _ (by decide) (by decide)

theorem stack (h : TaskAt mem a t) : word mem a stackWord = t.stack := h _ (by decide) (by decide)

theorem flags (h : TaskAt mem a t) : word mem a flagsWord = t.flags := h _ (by decide) (by decide)

theorem pid (h : TaskAt mem a t) : word mem a pidWord = toUnsignedLong t.pid := h _ (by decide) (by decide)

/-- One word is written to, and one field of the record changes. -/
theorem setWord {t' : Task} {j : Nat} (h : TaskAt mem a t) (hw : w % 2 ^ 64 = taskWord t' j)
    (hrest : ∀ n, n ≠ j → taskWord t' n = taskWord t n) : TaskAt (OsdiKernel.setWord mem a j w) a t' := by
  intro n hlo hhi
  by_cases hn : n = j
  · subst hn
    exact setWord_self.trans hw
  · rw [setWord_ne hn, hrest n hn]
    exact h n hlo hhi

theorem of_words (hstate : word mem a stateWord = t.state.code) (hcounter : word mem a counterWord = toUnsignedLong t.counter)
    (hpriority : word mem a priorityWord = toUnsignedLong t.priority)
    (hpreempt : word mem a preemptCountWord = toUnsignedLong t.preemptCount) (hstack : word mem a stackWord = t.stack)
    (hflags : word mem a flagsWord = t.flags) (hpid : word mem a pidWord = toUnsignedLong t.pid) : TaskAt mem a t := by
  intro j hlo hhi
  unfold stateWord at hlo
  unfold pidWord at hhi
  obtain rfl | rfl | rfl | rfl | rfl | rfl | rfl : j = stateWord ∨ j = counterWord ∨ j = priorityWord ∨ j = preemptCountWord ∨
      j = stackWord ∨ j = flagsWord ∨ j = pidWord := by
    unfold stateWord counterWord priorityWord preemptCountWord stackWord flagsWord pidWord
    omega
  · exact hstate
  · exact hcounter
  · exact hpriority
  · exact hpreempt
  · exact hstack
  · exact hflags
  · exact hpid

theorem taskWords (h : TaskAt mem a t) : TaskWords mem a t where
  zombie := by
    rw [h.state]
    cases t.state <;> simp [TaskState.code]
  priority := h.priority
  stack := h.stack
  flags := h.flags
  pid := h.pid

end TaskAt

theorem Represents.inMemory (h : Represents im r k) : InMemory im r k :=
  ⟨h.mm, h.task, h.current, h.nrTasks, fun q hq => (h.tasks q hq).taskWords⟩

theorem OnlyTasks.refl (im : Linked) (task : Nat → Option TaskPtr) (mem : Nat → UInt8) : OnlyTasks im task mem mem :=
  fun _ _ => rfl

theorem OnlyTasks.trans {task : Nat → Option TaskPtr} {mem'' : Nat → UInt8} (h : OnlyTasks im task mem mem')
    (h' : OnlyTasks im task mem' mem'') : OnlyTasks im task mem mem'' := fun x hx => (h' x hx).trans (h x hx)

theorem code_running {s : TaskState} : s.code = TaskState.running.code ↔ s = .running := by cases s <;> decide

/-- Two tasks are on two pages. -/
theorem UseInv.tasks_apart {lk : Link → List Nat} {live : List Live} (h : UseInv k lk live) (im : Linked) (hp : InTable k p)
    (hq : InTable k q) (hne : p ≠ q) : PagesApart (im.addr p) (im.addr q) := by
  cases p with
  | initTask =>
      cases q with
      | initTask => exact absurd rfl hne
      | page b => exact image_apart im h.mm (h.live _ hq .task b rfl)
  | page a =>
      cases q with
      | initTask => exact (image_apart im h.mm (h.live _ hp .task a rfl)).symm
      | page b =>
          have hab : a ≠ b := fun he => hne (congrArg TaskPtr.page he)
          exact live_apart h.mm (h.live _ hp .task a rfl) (h.live _ hq .task b rfl) hab

theorem UseInv.tasksApart {lk : Link → List Nat} {live : List Live} (h : UseInv k lk live) (im : Linked) : TasksApart im k.task :=
  fun i j _ _ hi hj hp hq hne => h.tasks_apart im ⟨i, hi, hp⟩ ⟨j, hj, hq⟩ hne

/-! ## One word -/

theorem onlyTasks_setWord {task : Nat → Option TaskPtr} {j : Nat} (hi : i < taskSlots) (hp : task i = some p)
    (hlo : stateWord ≤ j) (hhi : j ≤ pidWord) : OnlyTasks im task mem (setWord mem (im.addr p) j w) := by
  intro x hx
  refine store64_ne (fun hin => hx ⟨i, p, hi, hp, ?_⟩)
  unfold Within at *
  unfold stateWord pidWord at *
  omega

/-- **A write to a task** changes its record and no other. -/
theorem Represents.setWord {j : Nat} {f : Task → Task} (h : Represents im r k) (ha : TasksApart im k.task) (hp : InTable k p)
    (hj : j ≤ pidWord) (hw : w % 2 ^ 64 = taskWord (f (k.tasks p)) j)
    (hrest : ∀ n, n ≠ j → taskWord (f (k.tasks p)) n = taskWord (k.tasks p) n) :
    Represents im { r with mem := OsdiKernel.setWord r.mem (im.addr p) j w } (k.updateTask p f) := by
  refine ⟨h.mm, h.task, h.current, h.nrTasks, fun q hq => ?_⟩
  by_cases hqp : q = p
  · subst hqp
    rw [k.updateTask_self]
    exact (h.tasks q hq).setWord hw hrest
  · rw [k.updateTask_ne p q f hqp]
    obtain ⟨i, hi, hti⟩ := id hq
    obtain ⟨n, hn, htn⟩ := hp
    have hpages := ha i n q p hi hn hti htn hqp
    intro m hlo hhi
    unfold pidWord at hhi hj
    rw [setWord_apart hpages (by omega) (by omega)]
    exact h.tasks q hq m hlo hhi

theorem Represents.setCounter (h : Represents im r k) (ha : TasksApart im k.task) (hp : InTable k p) {f : Task → Int}
    (hw : w % 2 ^ 64 = toUnsignedLong (f (k.tasks p))) :
    Represents im { r with mem := OsdiKernel.setWord r.mem (im.addr p) counterWord w }
      (k.updateTask p (fun t => { t with counter := f t })) := by
  refine h.setWord ha hp (by decide) hw (fun n hn => ?_)
  simp only [taskWord, if_neg hn]

theorem Represents.setPreemptCount (h : Represents im r k) (ha : TasksApart im k.task) (hp : InTable k p) {f : Task → Int}
    (hw : w % 2 ^ 64 = toUnsignedLong (f (k.tasks p))) :
    Represents im { r with mem := OsdiKernel.setWord r.mem (im.addr p) preemptCountWord w }
      (k.updateTask p (fun t => { t with preemptCount := f t })) := by
  refine h.setWord ha hp (by decide) hw (fun n hn => ?_)
  simp only [taskWord, if_neg hn]

/-- `preempt_disable` -/
theorem Represents.disable (h : Represents im r k) (ha : TasksApart im k.task) (hp : InTable k k.current) :
    Represents im { r with mem := disableMem r.mem (im.addr r.current) } (preemptDisable k) := by
  rw [show disableMem r.mem (im.addr r.current) = disableMem r.mem (im.addr k.current) by rw [h.current]]
  refine h.setPreemptCount ha hp (f := fun t => t.preemptCount + 1) ?_
  rw [(h.tasks _ hp).preemptCount, toUnsignedLong_succ]

/-- `preempt_enable` -/
theorem Represents.enable (h : Represents im r k) (ha : TasksApart im k.task) (hp : InTable k k.current) :
    Represents im { r with mem := enableMem r.mem (im.addr r.current) } (preemptEnable k) := by
  rw [show enableMem r.mem (im.addr r.current) = enableMem r.mem (im.addr k.current) by rw [h.current]]
  refine h.setPreemptCount ha hp (f := fun t => t.preemptCount - 1) ?_
  rw [(h.tasks _ hp).preemptCount, toUnsignedLong_pred]

/-! ## `_schedule` -/

theorem considerTaskMem_eq (h : Represents im r k) (hr : InBounds k) (hi : i < taskSlots) (best : Int × Nat) :
    considerTaskMem im r best i = considerTask k best i := by
  unfold considerTaskMem considerTask
  rw [h.task]
  cases ht : k.task i with
  | none => rfl
  | some p =>
      have hp : InTable k p := ⟨i, hi, ht⟩
      obtain ⟨_, hlo, hhi⟩ := hr p hp
      have hword := h.tasks p hp
      have hcounter : toLong (word r.mem (im.addr p) counterWord) = (k.tasks p).counter := by
        rw [hword.counter, toLong_of_range (by omega) (by omega)]
      simp only [hcounter, hword.state, code_running]

theorem selectTaskMem_eq (h : Represents im r k) (hr : InBounds k) : selectTaskMem im r = selectTask k :=
  List.foldl_ext _ _ _ fun best _ hi => considerTaskMem_eq h hr (List.mem_range.mp hi) best

theorem refreshTask_inBounds (hr : InBounds k) (i : Nat) : InBounds (refreshTask k i) := by
  unfold refreshTask
  cases ht : k.task i with
  | none => exact hr
  | some p =>
      intro q hq
      have hq' : InTable k q := hq
      obtain ⟨hpr, hlo, hhi⟩ := hr q hq'
      by_cases hqp : q = p
      · subst hqp
        simp only [Kernel.updateTask_self, Int.shiftRight_eq_div_pow]
        omega
      · simp only [k.updateTask_ne p q _ hqp]
        exact ⟨hpr, hlo, hhi⟩

/-- One turn of the refresh loop, here and there. -/
theorem refreshTaskMem_step (h : Represents im r k) (ha : TasksApart im k.task) (hr : InBounds k) (hi : i < taskSlots) :
    Represents im (refreshTaskMem im r i) (refreshTask k i) ∧ OnlyTasks im k.task r.mem (refreshTaskMem im r i).mem := by
  unfold refreshTaskMem refreshTask
  rw [show r.task i = k.task i from congrFun h.task i]
  cases ht : k.task i with
  | none => exact ⟨h, .refl _ _ _⟩
  | some p =>
      have hp : InTable k p := ⟨i, hi, ht⟩
      obtain ⟨hpr, hlo, hhi⟩ := hr p hp
      have hword := h.tasks p hp
      have hcounter : toLong (word r.mem (im.addr p) counterWord) = (k.tasks p).counter := by
        rw [hword.counter, toLong_of_range (by omega) (by omega)]
      have hpriority : toLong (word r.mem (im.addr p) priorityWord) = (k.tasks p).priority := by
        rw [hword.priority, toLong_of_range (by omega) (by omega)]
      simp only [hcounter, hpriority]
      exact ⟨h.setCounter ha hp (f := fun t => (t.counter >>> (1 : Nat)) + t.priority) (toUnsignedLong_mod _),
        onlyTasks_setWord hi ht (by decide) (by decide)⟩

theorem refreshTask_task (k : Kernel) (i : Nat) : (refreshTask k i).task = k.task := by
  unfold refreshTask
  cases k.task i <;> rfl

theorem refreshMem_turns (h : Represents im r k) (ha : TasksApart im k.task) (hr : InBounds k) :
    ∀ xs : List Nat, (∀ i ∈ xs, i < taskSlots) →
      Represents im (xs.foldl (refreshTaskMem im) r) (xs.foldl refreshTask k) ∧ InBounds (xs.foldl refreshTask k) ∧
        (xs.foldl refreshTask k).task = k.task ∧ OnlyTasks im k.task r.mem (xs.foldl (refreshTaskMem im) r).mem := by
  intro xs
  induction xs generalizing r k with
  | nil => exact fun _ => ⟨h, hr, rfl, .refl _ _ _⟩
  | cons i xs ih =>
      intro hxs
      have htask := refreshTask_task k i
      obtain ⟨hstep, honly⟩ := refreshTaskMem_step h ha hr (hxs i List.mem_cons_self)
      obtain ⟨h', hr', htask', honly'⟩ := ih hstep (by rw [htask]; exact ha) (refreshTask_inBounds hr i)
        (fun j hj => hxs j (List.mem_cons_of_mem _ hj))
      rw [htask] at htask' honly'
      exact ⟨h', hr', htask', honly.trans honly'⟩

/-- **The outer loop** picks the same slot. -/
theorem pickNextMem_eq (h : Represents im r k) (ha : TasksApart im k.task) (hr : InBounds k) :
    ∀ (fuel : Nat) {next : Nat} {k' : Kernel}, pickNext fuel k = .ok (next, k') →
      ∃ r', pickNextMem im fuel r = .ok (next, r') ∧ Represents im r' k' ∧ k'.task = k.task ∧ k'.current = k.current ∧
        OnlyTasks im k.task r.mem r'.mem := by
  intro fuel
  induction fuel generalizing r k with
  | zero => exact fun hrun => absurd hrun (by simp [pickNext])
  | succ fuel ih =>
      intro next k' hrun
      rw [pickNext] at hrun
      rw [pickNextMem, selectTaskMem_eq h hr]
      by_cases hz : (selectTask k).1 ≠ 0
      · rw [if_pos hz] at hrun ⊢
        obtain ⟨rfl, rfl⟩ := Prod.mk.inj (Except.ok.inj hrun)
        exact ⟨r, rfl, h, rfl, rfl, .refl _ _ _⟩
      · rw [if_neg hz] at hrun ⊢
        obtain ⟨h', hr', htask, honly⟩ := refreshMem_turns h ha hr (List.range taskSlots) (fun i hi => List.mem_range.mp hi)
        obtain ⟨r', hrun', hrep, htask', hcur, honly'⟩ := ih h' (by rw [htask]; exact ha) hr' hrun
        rw [htask] at htask' honly'
        have hsame : (refreshCounters k).current = k.current := (refreshCounters_turns k taskSlots).1.current
        exact ⟨r', hrun', hrep, htask', hcur.trans hsame, honly.trans honly'⟩

theorem preemptDisable_enable (k : Kernel) : preemptDisable (preemptEnable k) = k := by
  simp [preemptDisable, preemptEnable, Kernel.updateTask]

theorem preemptEnable_disable (k : Kernel) : preemptEnable (preemptDisable k) = k := by
  simp [preemptDisable, preemptEnable, Kernel.updateTask]

/-- **`_schedule`** comes to `cpu_switch_to` with the task that is picked there, in the one section it will leave. -/
theorem scheduleInnerMem_refines (h : Represents im r k) (ha : TasksApart im k.task) (hcur : InTable k k.current)
    (hr : InBounds (preemptDisable k)) (hs : scheduleInner k = .ok k') :
    ∃ r', scheduleInnerMem im r = .ok r' ∧ Represents im r' (preemptDisable k') ∧ OnlyTasks im k.task r.mem r'.mem := by
  simp only [scheduleInner] at hs
  obtain ⟨⟨next, k₁⟩, hpick, hs⟩ := bind_eq_ok hs
  obtain ⟨r₁, hpick', hrep, htask, hcur', honly⟩ := pickNextMem_eq (h.disable ha hcur) ha hr _ hpick
  obtain ⟨i, hi, hti⟩ := hcur
  have hdisable : OnlyTasks im k.task r.mem (disableMem r.mem (im.addr r.current)) := by
    rw [h.current]
    exact onlyTasks_setWord hi hti (by decide) (by decide)
  have hrest := hdisable.trans honly
  simp only [scheduleInnerMem, hpick', ok_bind]
  rw [show r₁.task next = k₁.task next from congrFun hrep.task next]
  cases hslot : k₁.task next with
  | none =>
      rw [hslot] at hs
      exact absurd hs (by simp)
  | some p =>
      rw [hslot] at hs
      obtain rfl := Except.ok.inj hs
      refine ⟨_, rfl, ?_, hrest⟩
      rw [preemptDisable_enable]
      have hswitch : switchTo k₁ p = { k₁ with current := p } := by
        unfold switchTo
        by_cases hc : k₁.current = p
        · rw [if_pos hc, ← hc]
        · rw [if_neg hc]
      rw [hswitch]
      exact ⟨hrep.mm, hrep.task, rfl, hrep.nrTasks, hrep.tasks⟩

/-- **`schedule`** -/
theorem scheduleMem_refines (h : Represents im r k) (ha : TasksApart im k.task) (hcur : InTable k k.current)
    (hr : RestInRange k) (hs : schedule k = .ok k') :
    ∃ r', scheduleMem im r = .ok r' ∧ Represents im r' (preemptDisable k') ∧ OnlyTasks im k.task r.mem r'.mem := by
  have hzero : Represents im { r with mem := setWord r.mem (im.addr r.current) counterWord 0 }
      (k.updateTask k.current (fun t => { t with counter := 0 })) := by
    rw [show setWord r.mem (im.addr r.current) counterWord 0 = setWord r.mem (im.addr k.current) counterWord 0 by rw [h.current]]
    exact h.setCounter ha hcur (f := fun _ => 0) rfl
  obtain ⟨r', hrun, hrep, honly⟩ := scheduleInnerMem_refines hzero ha hcur (scheduleStart_range hr).inBounds hs
  obtain ⟨i, hi, hti⟩ := hcur
  refine ⟨r', hrun, hrep, OnlyTasks.trans ?_ honly⟩
  rw [h.current]
  exact onlyTasks_setWord hi hti (by decide) (by decide)

/-- What the core does with memory in between does not matter, if it leaves these words alone. -/
theorem Represents.keeps (h : Represents im r k) (hsame : KeepsWords im k.task r.mem mem) : Represents im { r with mem } k := by
  refine ⟨h.mm, h.task, h.current, h.nrTasks, fun q hq j hlo hhi => ?_⟩
  obtain ⟨i, hi, hti⟩ := id hq
  rw [hsame i q j hi hti hlo hhi]
  exact h.tasks q hq j hlo hhi

/-- And then the task that goes on leaves the section. -/
theorem Represents.tail (h : Represents im r (preemptDisable k)) (ha : TasksApart im k.task) (hcur : InTable k k.current) :
    Represents im (scheduleTailMem im r) k := by
  have hout := h.enable ha hcur
  rwa [preemptEnable_disable] at hout

/-! ## The timer -/

theorem timerTickMem_refines (h : Represents im r k) (ha : TasksApart im k.task) (hcur : InTable k k.current) :
    Represents im (timerTickMem im r) (timerTick k) ∧ OnlyTasks im k.task r.mem (timerTickMem im r).mem := by
  have hcounter := (h.tasks _ hcur).counter
  have hset := h.setCounter ha hcur (f := fun t => t.counter - 1)
    (w := word r.mem (im.addr k.current) counterWord + (2 ^ 64 - 1)) (by rw [hcounter, toUnsignedLong_pred])
  have htick : timerTickMem im r =
      { r with mem := setWord r.mem (im.addr k.current) counterWord (word r.mem (im.addr k.current) counterWord + (2 ^ 64 - 1)) } := by
    rw [timerTickMem, h.current]
  obtain ⟨i, hi, hti⟩ := id hcur
  rw [htick]
  exact ⟨hset, onlyTasks_setWord hi hti (by decide) (by decide)⟩

/-- **`task_preemption`**, with the current task's counter and count where a `long` has them. -/
theorem taskPreemptionMem_refines (h : Represents im r k) (ha : TasksApart im k.task) (hcur : InTable k k.current)
    (hlo : -2 ^ 63 ≤ k.cur.counter) (hhi : k.cur.counter < 2 ^ 63) (hcount : k.cur.preemptCount = 0) (hr : RestInRange k)
    (hs : taskPreemption k = .ok k') :
    (taskPreemptionMem im r = .ok (false, r) ∧ k' = k) ∨
      ∃ r', taskPreemptionMem im r = .ok (true, r') ∧ Represents im r' (preemptDisable k') ∧ OnlyTasks im k.task r.mem r'.mem := by
  have hword := h.tasks _ hcur
  have hcounter : toLong (word r.mem (im.addr r.current) counterWord) = k.cur.counter := by
    rw [h.current, hword.counter]
    exact toLong_of_range hlo hhi
  have hzero : toLong (word r.mem (im.addr r.current) preemptCountWord) = k.cur.preemptCount := by
    rw [h.current, hword.preemptCount]
    refine toLong_of_range ?_ ?_ <;> rw [show (k.tasks k.current).preemptCount = 0 from hcount] <;> decide
  simp only [taskPreemptionMem, hcounter, hzero]
  rw [taskPreemption] at hs
  by_cases hgo : k.cur.counter > 0 ∨ k.cur.preemptCount > 0
  · rw [if_pos hgo] at hs ⊢
    exact .inl ⟨rfl, (Except.ok.inj hs).symm⟩
  · rw [if_neg hgo] at hs ⊢
    obtain ⟨r', hrun, hrep, honly⟩ := scheduleMem_refines h ha hcur hr hs
    rw [show scheduleInnerMem im { r with mem := setWord r.mem (im.addr r.current) counterWord 0 } = .ok r' from hrun]
    exact .inr ⟨r', rfl, hrep, honly⟩

/-! ## Tasks that come -/

theorem Represents.setMm (h : Represents im r k) (mm : Mm) : Represents im { r with mm } { k with mm } :=
  ⟨rfl, h.task, h.current, h.nrTasks, h.tasks⟩

/-- A new task, laid out on page `a`. -/
theorem Represents.addTask (h : Represents im r k) (hi : i < taskSlots) (hfree : k.task i = none) (hnew : ∀ q, InTable k q → q ≠ .page a)
    (hkeeps : KeepsWords im k.task r.mem mem) (ht : TaskAt mem a t) (mm : Mm) :
    Represents im { mm, mem, task := Function.update r.task i (some (.page a)), current := r.current, nrTasks := r.nrTasks + 1 }
      (addTask k mm i a t) := by
  refine ⟨rfl, by rw [h.task]; rfl, h.current, by rw [h.nrTasks]; rfl, fun q hq => ?_⟩
  rcases (addTask_inTable hi hfree).mp hq with rfl | hq
  · rw [addTask_self]
    exact ht
  · rw [addTask_ne (hnew q hq)]
    exact (h.keeps hkeeps).tasks q hq

/-- `current->stack = stack`, among other things. -/
theorem Represents.setCurrent (h : Represents im r k) (ha : TasksApart im k.task) (hcur : InTable k k.current) {s : Nat}
    (hs : s < 2 ^ 64) (hkeeps : KeepsWords im k.task r.mem mem) (pc : Nat) (mm : Mm) :
    Represents im { r with mm, mem := OsdiKernel.setWord mem (im.addr k.current) stackWord s }
      (setCurrent k mm (userTask k.cur pc s)) := by
  have hset := (h.keeps hkeeps).setWord (f := fun t => userTask t pc s) ha hcur (j := stackWord) (w := s) (by decide)
    (Nat.mod_eq_of_lt hs) (fun n hn => by simp only [taskWord, userTask, if_neg hn])
  exact ⟨rfl, hset.task, hset.current, hset.nrTasks, hset.tasks⟩

/-! ## The end of a task -/

/-- `current->state = TASK_ZOMBIE` -/
theorem Represents.setZombie (h : Represents im r k) (ha : TasksApart im k.task) (hcur : InTable k k.current) :
    Represents im { r with mem := OsdiKernel.setWord r.mem (im.addr r.current) stateWord TaskState.zombie.code }
      (k.updateTask k.current (fun t => { t with state := .zombie })) := by
  rw [show OsdiKernel.setWord r.mem (im.addr r.current) stateWord TaskState.zombie.code
      = OsdiKernel.setWord r.mem (im.addr k.current) stateWord TaskState.zombie.code by rw [h.current]]
  refine h.setWord ha hcur (by decide) rfl (fun n hn => ?_)
  simp only [taskWord, if_neg hn]

/-- **`exit_process`** comes to `cpu_switch_to` with its stack given back, if it had one. -/
theorem exitProcessMem_refines {lk lk' : Link → List Nat} {live live' : List Live} {mm' : Mm} (h : Represents im r k)
    (ha : TasksApart im k.task) (hcur : Runnable k k.current) (hex : Exited k lk live mm' lk' live') (hr : RestInRange k)
    (hs : exitProcess k = .ok k') :
    ∃ r', exitProcessMem im r = .ok r' ∧ Represents im r' (preemptDisable k') ∧ OnlyTasks im k.task r.mem r'.mem := by
  obtain ⟨⟨i, hi, hti⟩, hrunning⟩ := id hcur
  have hin := hcur.1
  have honly : ∀ mem j w, stateWord ≤ j → j ≤ pidWord → OnlyTasks im k.task mem (setWord mem (im.addr r.current) j w) := by
    intro mem j w hlo hhi
    rw [h.current]
    exact onlyTasks_setWord hi hti hlo hhi
  let mem₂ := setWord (disableMem r.mem (im.addr r.current)) (im.addr r.current) stateWord TaskState.zombie.code
  have h₂ : Represents im { r with mem := mem₂ } ((preemptDisable k).updateTask k.current (fun t => { t with state := .zombie })) :=
    (h.disable ha hin).setZombie ha hin
  have h₃ : Represents im { r with mm := mm', mem := enableMem mem₂ (im.addr r.current) } (exited k mm') := by
    have hout := (h₂.setMm mm').enable ha hin
    have hexited : preemptEnable { (preemptDisable k).updateTask k.current (fun t => { t with state := .zombie }) with mm := mm' }
        = exited k mm' := by
      simp [preemptEnable, preemptDisable, exited, Kernel.updateTask, Kernel.cur]
    rwa [hexited] at hout
  have honly₃ : OnlyTasks im k.task r.mem (enableMem mem₂ (im.addr r.current)) :=
    ((honly _ _ _ (by decide) (by decide)).trans (honly _ _ _ (by decide) (by decide))).trans
      (honly _ _ _ (by decide) (by decide))
  have hstack : word mem₂ (im.addr r.current) stackWord = k.cur.stack := by
    rw [h.current]
    refine (h₂.tasks k.current hin).stack.trans ?_
    simp [preemptDisable, Kernel.cur]
  have hrange : RestInRange (exited k mm') := by
    refine hr.congr rfl rfl (fun p => ?_)
    by_cases hp : p = k.current
    · subst hp
      simp [exited, Kernel.cur]
    · simp [exited, hp]
  rw [hex.run] at hs
  obtain ⟨r', hrun, hrep, honly'⟩ := scheduleMem_refines h₃ ha hin hrange hs
  refine ⟨r', ?_, hrep, honly₃.trans honly'⟩
  have hzombie : k.cur.state ≠ .zombie := fun hz => TaskState.noConfusion (hrunning.symm.trans hz)
  have hstack' : word (setWord (disableMem r.mem (im.addr r.current)) (im.addr r.current) stateWord TaskState.zombie.code)
      (im.addr r.current) stackWord = k.cur.stack := hstack
  rw [exitProcessMem]
  simp only [hstack']
  rcases hex.stack with ⟨hnone, rfl⟩ | ⟨s, hsome, hgave⟩
  · have hz : ¬ k.cur.stack ≠ 0 := by
      rw [not_not]
      by_contra hne
      rw [Task.userStack, if_neg (not_or.mpr ⟨hzombie, hne⟩)] at hnone
      exact absurd hnone (by simp)
    rw [if_neg hz, ok_bind, ← hrun, ← h.mm]
  · have hne : k.cur.stack ≠ 0 := by
      intro hz
      rw [Task.userStack, if_pos (Or.inr hz)] at hsome
      exact absurd hsome (by simp)
    rw [Task.userStack, if_neg (not_or.mpr ⟨hzombie, hne⟩)] at hsome
    obtain rfl := Option.some.inj hsome
    rw [if_pos hne, h.mm, hgave.run, ok_bind, ok_bind, ← hrun]

/-- What `sys_kill` compares with. -/
theorem Represents.ownPid {lk : Link → List Nat} {live : List Live} (h : Represents im r k) (hinv : SlotInv k lk live)
    (hcur : InTable k k.current) : toLong (word r.mem (im.addr r.current) pidWord) = k.cur.pid := by
  obtain ⟨n, hn, htn⟩ := hcur
  have hpid : k.cur.pid = n := hinv.pid n _ htn
  rw [h.current, (h.tasks _ ⟨n, hn, htn⟩).pid, show (k.tasks k.current).pid = n from hpid, hpid]
  unfold taskSlots at hn
  exact toLong_of_range (by omega) (by omega)

/-- **`sys_kill`** of the task on page `a` in slot `i`. -/
theorem sysKillMem_refines {lk lk' : Link → List Nat} {live : List Live} {mm' : Mm} (h : Represents im r k)
    (ha : TasksApart im k.task) (hinv : SlotInv k lk live) (hcur : InTable k k.current) (hi : i < taskSlots) (hi0 : i ≠ 0)
    (hpid : k.cur.pid ≠ i) (hk : Killed k live i a mm' lk') :
    ∃ r', sysKillMem im r i = .ok r' ∧ Represents im r' (killed k mm' i a) ∧ OnlyTasks im k.task r.mem r'.mem ∧
      r'.current = r.current := by
  have hin : InTable k (.page a) := ⟨i, hi, hk.slot⟩
  have hset : Represents im { r with mem := setWord r.mem (im.addr (.page a)) flagsWord 0 }
      (k.updateTask (.page a) (fun t => { t with flags := 0 })) :=
    h.setWord ha hin (by decide) rfl (fun n hn => by simp only [taskWord, if_neg hn])
  have hown := h.ownPid hinv hcur
  have hrange : (0 : Int) ≤ (i : Int) ∧ (i : Int) < taskSlots := by omega
  refine ⟨{ r with
    mm := mm'
    mem := setWord r.mem a flagsWord 0
    task := Function.update r.task i none
    nrTasks := r.nrTasks - 1 }, ?_, ?_, ?_, rfl⟩
  · rw [sysKillMem, if_neg (by rw [hown]; exact hpid), if_neg (by omega), if_pos hrange, Int.toNat_natCast, h.task, hk.slot]
    simp only
    rw [h.mm, hk.page.run, ok_bind]
    rfl
  · have htask : Function.update r.task i none = (killed k mm' i a).task := by rw [h.task]; rfl
    have hcount : r.nrTasks - 1 = (killed k mm' i a).nrTasks := by rw [h.nrTasks]; rfl
    refine ⟨rfl, htask, h.current, hcount, fun q hq => hset.tasks q ?_⟩
    obtain ⟨j, hj, hq⟩ := hq
    refine ⟨j, hj, ?_⟩
    by_cases hji : j = i
    · subst hji
      exact absurd hq (by simp [killed])
    · simpa [killed, hji] using hq
  · exact onlyTasks_setWord hi hk.slot (by decide) (by decide)

end OsdiKernel
