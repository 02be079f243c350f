import OsdiKernel.Sched.Task

/-!
# The scheduler

`sched.c`. Each function is taken as one step here. `_schedule` comes back in
another task than the one that called it, so its last line, like `schedule_tail`
for a task that runs for the first time, lowers the `preempt_count` of the task
switched to.
-/

namespace OsdiKernel

/-- `preempt_disable` -/
def preemptDisable (k : Kernel) : Kernel :=
  k.updateTask k.current (fun t => { t with preemptCount := t.preemptCount + 1 })

/-- `preempt_enable` -/
def preemptEnable (k : Kernel) : Kernel :=
  k.updateTask k.current (fun t => { t with preemptCount := t.preemptCount - 1 })

/-- One turn of the selection loop, with `(c, next)` so far. -/
def considerTask (k : Kernel) (best : Int × Nat) (i : Nat) : Int × Nat :=
  match k.task i with
  | none => best
  | some p =>
      if (k.tasks p).state = .running ∧ (k.tasks p).counter > best.1 then
        (toInt (k.tasks p).counter, i)
      else best

/-- The selection loop: `(c, next)`. -/
def selectTask (k : Kernel) : Int × Nat := (List.range taskSlots).foldl (considerTask k) (-1, 0)

/-- One turn of the refresh loop. -/
def refreshTask (k : Kernel) (i : Nat) : Kernel :=
  match k.task i with
  | none => k
  | some p => k.updateTask p (fun t => { t with counter := (t.counter >>> (1 : Nat)) + t.priority })

/-- The refresh loop. -/
def refreshCounters (k : Kernel) : Kernel := (List.range taskSlots).foldl refreshTask k

/-- The `while (1)` of `_schedule`, for so many rounds. -/
def pickNext : Nat → Kernel → Except Fault (Nat × Kernel)
  | 0, _ => .error .spin
  | fuel + 1, k =>
      if (selectTask k).1 ≠ 0 then .ok ((selectTask k).2, k) else pickNext fuel (refreshCounters k)

/-- Rounds enough: once refreshed, counters of tasks with a priority are positive (`pickNext_spec`). -/
def scheduleRounds : Nat := 2

/-- `switch_to` -/
def switchTo (k : Kernel) (next : TaskPtr) : Kernel :=
  if k.current = next then k else { k with current := next }

/-- `_schedule` -/
def scheduleInner (k : Kernel) : Except Fault Kernel := do
  let k := preemptDisable k
  let (next, k) ← pickNext scheduleRounds k
  match k.task next with
  | none => .error .nullDeref
  | some p => .ok (preemptEnable (switchTo k p))

/-- `schedule` -/
def schedule (k : Kernel) : Except Fault Kernel :=
  scheduleInner (k.updateTask k.current (fun t => { t with counter := 0 }))

/-- `schedule_tail` -/
def scheduleTail (k : Kernel) : Kernel := preemptEnable k

/-- `timer_tick` -/
def timerTick (k : Kernel) : Kernel :=
  k.updateTask k.current (fun t => { t with counter := t.counter - 1 })

/-- `task_preemption` -/
def taskPreemption (k : Kernel) : Except Fault Kernel :=
  if k.cur.counter > 0 ∨ k.cur.preemptCount > 0 then .ok k
  else scheduleInner (k.updateTask k.current (fun t => { t with counter := 0 }))

/-- `exit_process` -/
def exitProcess (k : Kernel) : Except Fault Kernel := do
  let k := preemptDisable k
  let k := k.updateTask k.current (fun t => { t with state := .zombie })
  let k ←
    if k.cur.stack ≠ 0 then do
      let mm ← kfree k.mm k.cur.stack
      .ok { k with mm }
    else .ok k
  schedule (preemptEnable k)

/-- `kill_zombies`: it reads every slot's state, NULL or not, and does nothing about it. -/
def killZombies (k : Kernel) : Kernel := k

end OsdiKernel
