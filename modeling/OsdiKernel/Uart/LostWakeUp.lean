import OsdiKernel.Uart.BlockRead
import OsdiKernel.Wait.QueueInv

/-!
# When no wake-up is lost

`wait` sets the caller WAITING before it queues it, so a timer interrupt between
the two can take the CPU from a task that nothing will wake. And the UART's
interrupt disables itself: one that comes after a reader has enabled it, but
before the reader is on the queue, wakes nobody and leaves the reader to sleep
with the interrupt off. Without these two, and as long as `_schedule` is not
left with nobody but a sleeping `init_task`, whoever sleeps is on the queue, and
the interrupt that will wake it is on.
-/

namespace OsdiKernel

/-- Where the readers start: a kernel as the tasks' calls may leave it, and nobody in `block_uart_read`. -/
structure ReadersStart (s : ReadState) : Prop where
  kernel : TaskReachable s.w.k
  awake : ∀ i p, i < taskSlots → s.w.k.task i = some p → (s.w.k.tasks p).state ≠ .waiting
  links : s.w.links = waitQueueHeads
  outside : ∀ p, s.pc p = .outside

/-- Reachable from there, by the rules of `S`. -/
def ReadReach (S : System ReadState ReadOp Fault) (s : ReadState) : Prop := ∃ s₀, ReadersStart s₀ ∧ S.Reach s₀ s

/-- The task has an entry on `uart_read_waitQueue`. -/
def OnReadQueue (s : ReadState) (p : TaskPtr) : Prop :=
  ∃ es : List Nat, IsRing s.w.links (.head uartReadWaitQueue) (es.map .entry) ∧ ∃ e ∈ es, s.w.privateTask e = p

/-- A task in the table that is not executing is WAITING. -/
def Sleeps (k : Kernel) (p : TaskPtr) : Prop := InTable k p ∧ p ≠ k.current ∧ (k.tasks p).state = .waiting

/-- No task sleeps for ever. -/
structure NoLostWakeUp (s : ReadState) : Prop where
  queued : ∀ p, Sleeps s.w.k p → OnReadQueue s p
  enabled : ∀ p, Sleeps s.w.k p → OnReadQueue s p → readEnabled s.ier = true

/-- Some task in the table is RUNNING. -/
def SomeRunnable (k : Kernel) : Prop := ∃ i, i < taskSlots ∧ ∃ p ∈ k.task i, (k.tasks p).state = .running

instance (k : Kernel) : Decidable (SomeRunnable k) :=
  inferInstanceAs (Decidable (∃ i, i < taskSlots ∧ ∃ p ∈ k.task i, (k.tasks p).state = .running))

/-- `_schedule` finds a task that does not wait. -/
def HasNext (k : Kernel) : Prop := SomeRunnable k ∨ (k.tasks .initTask).state ≠ .waiting

instance (k : Kernel) : Decidable (HasNext k) :=
  inferInstanceAs (Decidable (SomeRunnable k ∨ (k.tasks .initTask).state ≠ .waiting))

/-- `task_preemption` returns to the same task, if only for want of another. -/
def Stays (k : Kernel) : Prop :=
  (k.cur.counter > 0 ∨ k.cur.preemptCount > 0) ∨ (k.current = .initTask ∧ ¬ SomeRunnable k)

instance (k : Kernel) : Decidable (Stays k) :=
  inferInstanceAs (Decidable ((k.cur.counter > 0 ∨ k.cur.preemptCount > 0) ∨
    (k.current = .initTask ∧ ¬ SomeRunnable k)))

/-- Nothing comes at a wrong time. -/
def Timely (s : ReadState) : ReadOp → Prop
  | .step _ => (s.pc s.w.k.current = .enqueue → readEnabled s.ier = true) ∧
      (s.pc s.w.k.current = .schedule → HasNext s.w.k)
  | .uartInterrupt => s.pc s.w.k.current = .enqueue → s.w.k.cur.counter > 0 ∨ s.w.k.cur.preemptCount > 0
  | .timerInterrupt => (s.pc s.w.k.current = .enqueue → Stays (timerTick s.w.k)) ∧
      (s.pc s.w.k.current = .schedule → Stays (timerTick s.w.k) ∨ HasNext s.w.k)
  | _ => True

/-- The steps, each timely. -/
def timelySystem : System ReadState ReadOp Fault := readSystem.restrict Timely

variable {s : ReadState} {k k' : Kernel} {readers : List TaskPtr} {p : TaskPtr} {pc : ReadPc}

theorem someRunnable_iff : SomeRunnable k ↔ ∃ p, Runnable k p := by
  constructor
  · intro h
    obtain ⟨i, hi, p, hp, hs⟩ := h
    exact ⟨p, ⟨i, hi, hp⟩, hs⟩
  · intro h
    obtain ⟨p, ⟨i, hi, hp⟩, hs⟩ := h
    exact ⟨i, hi, p, hp, hs⟩

/-! ## The invariant -/

/-- What is on the queues, when these tasks are. -/
def readQueue (waitingTask : TaskPtr → Nat) (readers : List TaskPtr) : Nat → List Nat :=
  Function.update (fun _ => []) uartReadWaitQueue (readers.map waitingTask)

/-- The queue, whoever runs: `readers` are on it, in this order. -/
structure ReadersInv (s : ReadState) (readers : List TaskPtr) : Prop where
  framed : Framed s.w.k
  range : RestInRange s.w.k
  init : s.w.k.task 0 = some .initTask
  initAlive : (s.w.k.tasks .initTask).state ≠ .zombie
  current : InTable s.w.k s.w.k.current
  onStack : ∀ p, InTable s.w.k p → s.pc p ≠ .outside → OnKernelStack p (s.waitingTask p) waitQueueEntrySize
  rings : Rings s.w.links IsWaitHead (onQueues (readQueue s.waitingTask readers))
  asleep : ∀ p ∈ readers, InTable s.w.k p ∧ (s.w.k.tasks p).state = .waiting ∧ s.pc p ≠ .outside ∧
    s.w.privateTask (s.waitingTask p) = p
  /-- Whoever waits is on the queue, or about to be. -/
  queued : ∀ p, InTable s.w.k p → (s.w.k.tasks p).state = .waiting →
    p ∈ readers ∨ (p = s.w.k.current ∧ s.pc p = .enqueue)
  atEnqueue : ∀ p, s.pc p = .enqueue → p = s.w.k.current ∧ p ∉ readers ∧ (s.w.k.tasks p).state = .waiting
  enabled : readers ≠ [] → readEnabled s.ier = true

/-- And whoever runs does not wait, unless it is in `wait`. -/
structure ReadInv (s : ReadState) (readers : List TaskPtr) : Prop extends ReadersInv s readers where
  alive : s.w.k.cur.state ≠ .zombie
  awake : s.w.k.cur.state = .waiting → s.pc s.w.k.current = .enqueue ∨ s.pc s.w.k.current = .schedule

theorem readQueue_self (waitingTask : TaskPtr → Nat) :
    readQueue waitingTask readers uartReadWaitQueue = readers.map waitingTask := Function.update_self ..

namespace ReadersInv

/-- A task's own local is on no queue unless the task is. -/
theorem fresh (h : ReadersInv s readers) (hp : InTable s.w.k p) (hpc : s.pc p ≠ .outside) (hm : p ∉ readers) (q : Nat) :
    s.waitingTask p ∉ readQueue s.waitingTask readers q := by
  by_cases hq : q = uartReadWaitQueue
  · subst hq
    rw [readQueue_self]
    intro he
    obtain ⟨r, hr, hrp⟩ := List.mem_map.mp he
    obtain ⟨hin, _, hrpc, _⟩ := h.asleep r hr
    have hs := h.onStack r hin hrpc
    rw [hrp] at hs
    have hpr := h.framed.stack_unique hin hp hs (h.onStack p hp hpc)
    exact hm (hpr ▸ hr)
  · rw [readQueue, Function.update_of_ne hq]
    simp

/-- There are no more readers than slots. -/
theorem length_le (h : ReadersInv s readers) : readers.length ≤ taskSlots := by
  have hring := h.rings.ring (.head uartReadWaitQueue) ⟨_, rfl⟩
  have hnodup : readers.Nodup := by
    have hnd := (List.nodup_cons.mp hring.nodup).2
    rw [onQueues, readQueue_self] at hnd
    exact List.Nodup.of_map s.waitingTask (List.Nodup.of_map WaitNode.entry hnd)
  have hsub : readers.toFinset ⊆ (Finset.range taskSlots).image (fun i => (s.w.k.task i).getD .initTask) := by
    intro p hp
    obtain ⟨i, hi, ht⟩ := (h.asleep p (List.mem_toFinset.mp hp)).1
    exact Finset.mem_image.mpr ⟨i, Finset.mem_range.mpr hi, by rw [ht]; rfl⟩
  have hcard := (Finset.card_le_card hsub).trans Finset.card_image_le
  rwa [List.toFinset_card_of_nodup hnodup, Finset.card_range] at hcard

/-- The current task goes elsewhere in `block_uart_read`, the two lines of `wait` apart. -/
theorem goto (h : ReadersInv s readers) (hold : s.pc s.w.k.current ≠ .enqueue) (hnew : pc ≠ .enqueue)
    (hin : s.pc s.w.k.current ≠ .outside) (hout : pc = .outside → s.w.k.current ∉ readers) :
    ReadersInv (s.goto pc) readers := by
  have hne : ∀ p, p ≠ s.w.k.current → (s.goto pc).pc p = s.pc p := fun p hp => Function.update_of_ne hp _ _
  have hself : (s.goto pc).pc s.w.k.current = pc := Function.update_self ..
  refine ⟨h.framed, h.range, h.init, h.initAlive, h.current, ?_, h.rings, ?_, ?_, ?_, h.enabled⟩
  · intro p hp hpc
    by_cases hc : p = s.w.k.current
    · subst hc
      exact h.onStack _ hp hin
    · rw [hne p hc] at hpc
      exact h.onStack p hp hpc
  · intro p hp
    obtain ⟨h1, h2, h3, h4⟩ := h.asleep p hp
    refine ⟨h1, h2, ?_, h4⟩
    by_cases hc : p = s.w.k.current
    · subst hc
      rw [hself]
      exact fun he => hout he hp
    · rwa [hne p hc]
  · intro p hp hs
    rcases h.queued p hp hs with hm | ⟨hc, hpc⟩
    · exact Or.inl hm
    · exact absurd (hc ▸ hpc) hold
  · intro p hpc
    by_cases hc : p = s.w.k.current
    · subst hc
      exact absurd (hself ▸ hpc) hnew
    · rw [hne p hc] at hpc
      exact absurd (h.atEnqueue p hpc).1 hc

/-- The scheduler moves nobody on or off the queue. -/
theorem onlySched (h : ReadersInv s readers) (ho : OnlySched s.w.k k') (hrange : RestInRange k')
    (hin : InTable k' k'.current) (hstay : k'.current = s.w.k.current ∨ s.pc s.w.k.current ≠ .enqueue) :
    ReadersInv (s.withKernel k') readers := by
  refine ⟨fun a ha => h.framed a (ho.inTable.mp ha), hrange, ?_, ?_, hin, fun p hp => h.onStack p (ho.inTable.mp hp),
    h.rings, ?_, ?_, ?_, h.enabled⟩
  · show k'.task 0 = _
    rw [ho.task]
    exact h.init
  · show (k'.tasks .initTask).state ≠ _
    rw [ho.state]
    exact h.initAlive
  · intro p hp
    obtain ⟨h1, h2, h3⟩ := h.asleep p hp
    exact ⟨ho.inTable.mpr h1, (ho.state p).trans h2, h3⟩
  · intro p hp hs
    rcases h.queued p (ho.inTable.mp hp) ((ho.state p).symm.trans hs) with hm | ⟨hc, hpc⟩
    · exact Or.inl hm
    · rcases hstay with he | hne
      · exact Or.inr ⟨hc.trans he.symm, hpc⟩
      · exact absurd (hc ▸ hpc) hne
  · intro p hpc
    obtain ⟨hc, hm, hw⟩ := h.atEnqueue p hpc
    rcases hstay with he | hne
    · exact ⟨hc.trans he.symm, hm, (ho.state p).trans hw⟩
    · exact absurd (hc ▸ hpc) hne

/-- **`schedule`**, where there is somebody to go to. -/
theorem schedule (h : ReadersInv s readers) (hpc : s.pc s.w.k.current ≠ .enqueue) (hgo : HasNext s.w.k) :
    ∃ k', OsdiKernel.schedule s.w.k = .ok k' ∧ ReadInv (s.withKernel k') readers := by
  obtain ⟨k', p, hrun, hres⟩ := schedule_total h.range h.init
  have hp : InTable s.w.k p ∧ (s.w.k.tasks p).state ≠ .zombie ∧ (s.w.k.tasks p).state ≠ .waiting := by
    rcases hres.choice with ⟨hin, hr⟩ | ⟨hno, hp⟩
    · rw [hr]
      exact ⟨hin, nofun, nofun⟩
    · obtain rfl : TaskPtr.initTask = p := Option.some.inj (h.init.symm.trans hp)
      refine ⟨⟨0, by decide, h.init⟩, h.initAlive, ?_⟩
      rcases hgo with hr | hw
      · obtain ⟨r, hr⟩ := someRunnable_iff.mp hr
        exact absurd hr (hno r)
      · exact hw
  have hstate : (k'.tasks k'.current).state = (s.w.k.tasks p).state := by rw [hres.current, hres.only.state]
  refine ⟨k', hrun, h.onlySched hres.only hres.range.rest ?_ (Or.inr hpc), ?_, ?_⟩
  · rw [hres.current, hres.only.inTable]
    exact hp.1
  · show (k'.tasks k'.current).state ≠ _
    rw [hstate]
    exact hp.2.1
  · intro hw
    have hw' : (k'.tasks k'.current).state = .waiting := hw
    rw [hstate] at hw'
    exact absurd hw' hp.2.2

end ReadersInv

/-! ## Interrupts -/

namespace ReadInv

/-- The same task goes on. -/
theorem stay (h : ReadInv s readers) (ho : OnlySched s.w.k k') (hrange : RestInRange k')
    (hcur : k'.current = s.w.k.current) : ReadInv (s.withKernel k') readers := by
  have hstate : (s.withKernel k').w.k.cur.state = s.w.k.cur.state := by
    show (k'.tasks k'.current).state = _
    rw [hcur, ho.state]
    rfl
  refine ⟨h.toReadersInv.onlySched ho hrange ?_ (Or.inl hcur), ?_, fun hw => ?_⟩
  · rw [hcur, ho.inTable]
    exact h.current
  · rw [hstate]
    exact h.alive
  · show s.pc k'.current = _ ∨ s.pc k'.current = _
    rw [hcur]
    exact h.awake (hstate ▸ hw)

/-- Outside `wait`, the current task is runnable itself. -/
theorem hasNext (h : ReadInv s readers) (hw : s.w.k.cur.state ≠ .waiting) : HasNext s.w.k := by
  refine Or.inl (someRunnable_iff.mpr ⟨s.w.k.current, h.current, ?_⟩)
  have halive := h.alive
  unfold Kernel.cur at hw halive
  cases hs : (s.w.k.tasks s.w.k.current).state with
  | running => rfl
  | waiting => exact absurd hs hw
  | zombie => exact absurd hs halive

/-- **`task_preemption`**, where it does not take the CPU from a task about to queue itself. -/
theorem taskPreemption (h : ReadInv s readers)
    (hgo : Stays s.w.k ∨ (s.pc s.w.k.current ≠ .enqueue ∧ HasNext s.w.k)) :
    ∃ k', OsdiKernel.taskPreemption s.w.k = .ok k' ∧ ReadInv (s.withKernel k') readers := by
  by_cases hret : s.w.k.cur.counter > 0 ∨ s.w.k.cur.preemptCount > 0
  · exact ⟨s.w.k, by rw [OsdiKernel.taskPreemption, if_pos hret], h⟩
  have hsched : OsdiKernel.taskPreemption s.w.k = OsdiKernel.schedule s.w.k := by
    rw [OsdiKernel.taskPreemption, if_neg hret]
    rfl
  rw [hsched]
  rcases hgo with (hcount | ⟨hinit, hno⟩) | ⟨hpc, hgo⟩
  · exact absurd hcount hret
  · -- nobody is runnable, and slot 0 is where it is already
    obtain ⟨k', hrun, hres⟩ := schedule_idle h.range h.init (fun q hq => hno (someRunnable_iff.mpr ⟨q, hq⟩))
    exact ⟨k', hrun, h.stay hres.only hres.range.rest (hres.current.trans hinit.symm)⟩
  · exact h.toReadersInv.schedule hpc hgo

/-- **The timer.** -/
theorem timerInterrupt (h : ReadInv s readers) (ht : Timely s .timerInterrupt) :
    ∃ s', OsdiKernel.timerInterrupt s = .ok s' ∧ ReadInv s' readers := by
  have honly : OnlySched s.w.k (timerTick s.w.k) := .updateTask _ _ fun _ => rfl
  have hrange : RestInRange (timerTick s.w.k) := by
    intro p hp
    by_cases hc : p = s.w.k.current
    · subst hc
      refine ⟨?_, fun hne => absurd rfl hne⟩
      rw [timerTick, s.w.k.updateTask_self]
      exact (h.range _ (honly.inTable.mp hp)).1
    · rw [timerTick, s.w.k.updateTask_ne _ p _ hc]
      exact h.range p (honly.inTable.mp hp)
  have h₁ : ReadInv (s.withKernel (timerTick s.w.k)) readers := h.stay honly hrange rfl
  have hsame : HasNext s.w.k → HasNext (timerTick s.w.k) := by
    intro hn
    rcases hn with hr | hi
    · obtain ⟨q, hq⟩ := someRunnable_iff.mp hr
      exact Or.inl (someRunnable_iff.mpr ⟨q, honly.inTable.mpr hq.1, (honly.state q).trans hq.2⟩)
    · refine Or.inr ?_
      rw [honly.state]
      exact hi
  have hgo : Stays (timerTick s.w.k) ∨ (s.pc s.w.k.current ≠ .enqueue ∧ HasNext (timerTick s.w.k)) := by
    by_cases hw : s.w.k.cur.state = .waiting
    · rcases h.awake hw with hpc | hpc
      · exact Or.inl (ht.1 hpc)
      · refine (ht.2 hpc).imp id (fun hn => ⟨?_, hsame hn⟩)
        rw [hpc]
        exact nofun
    · by_cases hpc : s.pc s.w.k.current = .enqueue
      · exact Or.inl (ht.1 hpc)
      · exact Or.inr ⟨hpc, hsame (h.hasNext hw)⟩
  obtain ⟨k', hrun, h'⟩ := h₁.taskPreemption hgo
  have hrun' : OsdiKernel.taskPreemption (timerTick s.w.k) = .ok k' := hrun
  exact ⟨s.withKernel k', by rw [OsdiKernel.timerInterrupt, hrun', ok_bind], h'⟩

/-- **The UART's handler** wakes everybody on the queue, and then disables the interrupt. -/
theorem handler (h : ReadInv s readers) :
    ∃ s', uartReadIrqWakeUpHandler s = .ok s' ∧ ReadInv s' [] ∧ s'.pc = s.pc ∧ s'.w.k = wake s.w.k readers := by
  have hq : (readQueue s.waitingTask readers uartReadWaitQueue).map s.w.privateTask = readers := by
    rw [readQueue_self, List.map_map]
    calc readers.map (s.w.privateTask ∘ s.waitingTask) = readers.map id :=
          List.map_congr_left fun p hp => (h.asleep p hp).2.2.2
      _ = readers := List.map_id _
  have hlen : (readQueue s.waitingTask readers uartReadWaitQueue).length < 2 ^ 64 := by
    rw [readQueue_self, List.length_map]
    exact lt_of_le_of_lt h.length_le (by decide)
  obtain ⟨links, hrun, hrings⟩ := wakeUp_spec h.rings hlen
  rw [hq] at hrun
  have hempty : Function.update (readQueue s.waitingTask readers) uartReadWaitQueue [] =
      readQueue s.waitingTask [] := Function.update_idem ..
  rw [hempty] at hrings
  have hstate := wake_state s.w.k readers
  have hsame : ∀ p, ((wake s.w.k readers).tasks p).priority = (s.w.k.tasks p).priority ∧
      ((wake s.w.k readers).tasks p).counter = (s.w.k.tasks p).counter :=
    fun p => ⟨wake_priority _ _ p, wake_counter _ _ p⟩
  have hin : ∀ p, InTable (wake s.w.k readers) p ↔ InTable s.w.k p := fun p => wake_inTable ..
  have hcur : (wake s.w.k readers).current = s.w.k.current := wake_current ..
  let s' : ReadState :=
    { s with
      w := { s.w with k := wake s.w.k readers, links }
      ier := disableUartReadInterrupt s.ier }
  have hcurState : s'.w.k.cur.state = if s.w.k.current ∈ readers then .running else s.w.k.cur.state := by
    show ((wake s.w.k readers).tasks (wake s.w.k readers).current).state = _
    rw [hcur, hstate]
    rfl
  refine ⟨s', ?_, ⟨⟨?_, ?_, ?_, ?_, ?_, ?_, hrings, ?_, ?_, ?_, ?_⟩, ?_, ?_⟩, rfl, rfl⟩
  · rw [uartReadIrqWakeUpHandler, hrun, ok_bind]
  · exact fun a ha => h.framed a ((hin _).mp ha)
  · exact h.range.congr (wake_task ..) hcur hsame
  · show (wake s.w.k readers).task 0 = _
    rw [wake_task]
    exact h.init
  · show ((wake s.w.k readers).tasks .initTask).state ≠ _
    rw [hstate]
    split
    · exact nofun
    · exact h.initAlive
  · show InTable (wake s.w.k readers) (wake s.w.k readers).current
    rw [hcur, hin]
    exact h.current
  · exact fun p hp => h.onStack p ((hin p).mp hp)
  · exact fun p hp => absurd hp (by simp)
  · -- whoever is not woken was not on the queue
    intro p hp hs
    have hs' : ((wake s.w.k readers).tasks p).state = .waiting := hs
    rw [hstate] at hs'
    by_cases hm : p ∈ readers
    · rw [if_pos hm] at hs'
      exact TaskState.noConfusion hs'
    · rw [if_neg hm] at hs'
      obtain ⟨hc, hpc⟩ := (h.queued p ((hin p).mp hp) hs').resolve_left hm
      exact Or.inr ⟨hc.trans hcur.symm, hpc⟩
  · intro p hpc
    obtain ⟨hc, hm, hw⟩ := h.atEnqueue p hpc
    refine ⟨hc.trans hcur.symm, by simp, ?_⟩
    show ((wake s.w.k readers).tasks p).state = .waiting
    rw [hstate, if_neg hm]
    exact hw
  · exact fun hne => absurd rfl hne
  · rw [hcurState]
    split
    · exact nofun
    · exact h.alive
  · intro hw
    rw [hcurState] at hw
    show s.pc (wake s.w.k readers).current = _ ∨ s.pc (wake s.w.k readers).current = _
    rw [hcur]
    by_cases hm : s.w.k.current ∈ readers
    · rw [if_pos hm] at hw
      exact TaskState.noConfusion hw
    · rw [if_neg hm] at hw
      exact h.awake hw

/-- **The UART**, where it does not take the CPU from a task about to queue itself. -/
theorem uartInterrupt (h : ReadInv s readers) (ht : Timely s .uartInterrupt) :
    ∃ s', OsdiKernel.uartInterrupt s = .ok s' ∧ ReadInv s' [] := by
  obtain ⟨s₁, hrun₁, h₁, hpc₁, hk₁⟩ := h.handler
  have hcur : s₁.w.k.current = s.w.k.current := by rw [hk₁, wake_current]
  have hcounts : s₁.w.k.cur.counter = s.w.k.cur.counter ∧ s₁.w.k.cur.preemptCount = s.w.k.cur.preemptCount := by
    unfold Kernel.cur
    rw [hcur, hk₁, wake_tasks]
    split <;> exact ⟨rfl, rfl⟩
  have hgo : Stays s₁.w.k ∨ (s₁.pc s₁.w.k.current ≠ .enqueue ∧ HasNext s₁.w.k) := by
    by_cases hpc : s.pc s.w.k.current = .enqueue
    · refine Or.inl (Or.inl ?_)
      rw [hcounts.1, hcounts.2]
      exact ht hpc
    · have hpc' : s₁.pc s₁.w.k.current ≠ .enqueue := by
        rw [hcur, hpc₁]
        exact hpc
      -- if it waited, it would still be on the queue, which is empty
      refine Or.inr ⟨hpc', h₁.hasNext (fun hw => ?_)⟩
      rcases h₁.queued _ h₁.current hw with hm | ⟨_, he⟩
      · exact absurd hm (by simp)
      · exact hpc' he
  obtain ⟨k', hrun, h'⟩ := h₁.taskPreemption hgo
  exact ⟨s₁.withKernel k', by rw [OsdiKernel.uartInterrupt, hrun₁, ok_bind, hrun, ok_bind], h'⟩

/-! ## The steps of `block_uart_read` -/

/-- Whoever does not wait is not on the queue. -/
theorem not_queued (h : ReadInv s readers) (hw : s.w.k.cur.state ≠ .waiting) : s.w.k.current ∉ readers :=
  fun hm => hw (h.asleep _ hm).2.1

/-- Outside `wait`, the current task does not wait. -/
theorem not_waiting (h : ReadInv s readers) (hpc : s.pc s.w.k.current = pc) (h₁ : pc ≠ .enqueue) (h₂ : pc ≠ .schedule) :
    s.w.k.cur.state ≠ .waiting := by
  intro hw
  rcases h.awake hw with he | he
  · exact h₁ (hpc.symm.trans he)
  · exact h₂ (hpc.symm.trans he)

/-- From one step outside `wait` to another. -/
theorem goto (h : ReadInv s readers) (hw : s.w.k.cur.state ≠ .waiting) (hold : s.pc s.w.k.current ≠ .enqueue)
    (hnew : pc ≠ .enqueue) (hin : s.pc s.w.k.current ≠ .outside) : ReadInv (s.goto pc) readers where
  toReadersInv := h.toReadersInv.goto hold hnew hin (fun _ => h.not_queued hw)
  alive := h.alive
  awake := fun hw' => absurd hw' hw

/-- `enable_uart_read_interrupt` -/
theorem enable (h : ReadInv s readers) (hpc : s.pc s.w.k.current = .enable) :
    ReadInv { s.goto .setWaiting with ier := enableUartReadInterrupt s.ier } readers := by
  have hw : s.w.k.cur.state ≠ .waiting := h.not_waiting hpc nofun nofun
  have h' : ReadInv (s.goto .setWaiting) readers :=
    h.goto hw (by simp [hpc]) nofun
      (by simp [hpc])
  exact ⟨⟨h'.framed, h'.range, h'.init, h'.initAlive, h'.current, h'.onStack, h'.rings, h'.asleep, h'.queued, h'.atEnqueue,
    fun _ => readEnabled_enableRead _⟩, h'.alive, h'.awake⟩

/-- `current->state = TASK_WAITING` -/
theorem setWaiting (h : ReadInv s readers) (hpc : s.pc s.w.k.current = .setWaiting) :
    ReadInv ((s.goto .enqueue).withKernel (OsdiKernel.setWaiting s.w.k)) readers := by
  have hw : s.w.k.cur.state ≠ .waiting := h.not_waiting hpc nofun nofun
  have hfresh := h.not_queued hw
  have htask : ∀ p, p ≠ s.w.k.current → (OsdiKernel.setWaiting s.w.k).tasks p = s.w.k.tasks p :=
    fun p hp => s.w.k.updateTask_ne _ p _ hp
  have hself : (OsdiKernel.setWaiting s.w.k).tasks s.w.k.current = { s.w.k.cur with state := .waiting } :=
    s.w.k.updateTask_self ..
  have hpcs : ∀ p, p ≠ s.w.k.current → (s.goto .enqueue).pc p = s.pc p := fun p hp => Function.update_of_ne hp _ _
  have hpcself : (s.goto .enqueue).pc s.w.k.current = .enqueue := Function.update_self ..
  refine ⟨⟨h.framed, ?_, h.init, ?_, h.current, ?_, h.rings, ?_, ?_, ?_, h.enabled⟩, ?_, ?_⟩
  · refine h.range.congr rfl rfl (fun p => ?_)
    by_cases hc : p = s.w.k.current
    · subst hc
      show ((OsdiKernel.setWaiting s.w.k).tasks _).priority = _ ∧ ((OsdiKernel.setWaiting s.w.k).tasks _).counter = _
      rw [hself]
      exact ⟨rfl, rfl⟩
    · show ((OsdiKernel.setWaiting s.w.k).tasks p).priority = _ ∧ ((OsdiKernel.setWaiting s.w.k).tasks p).counter = _
      rw [htask p hc]
      exact ⟨rfl, rfl⟩
  · show ((OsdiKernel.setWaiting s.w.k).tasks .initTask).state ≠ _
    by_cases hc : TaskPtr.initTask = s.w.k.current
    · rw [hc, hself]
      exact nofun
    · rw [htask _ hc]
      exact h.initAlive
  · intro p hp hp'
    by_cases hc : p = s.w.k.current
    · subst hc
      exact h.onStack _ hp (by simp [hpc])
    · exact h.onStack p hp ((hpcs p hc) ▸ hp')
  · intro p hp
    have hc : p ≠ s.w.k.current := fun he => hfresh (he ▸ hp)
    obtain ⟨h1, h2, h3, h4⟩ := h.asleep p hp
    refine ⟨h1, ?_, ?_, h4⟩
    · show ((OsdiKernel.setWaiting s.w.k).tasks p).state = _
      rw [htask p hc]
      exact h2
    · show (s.goto .enqueue).pc p ≠ _
      rw [hpcs p hc]
      exact h3
  · intro p hp hs
    by_cases hc : p = s.w.k.current
    · subst hc
      exact Or.inr ⟨rfl, hpcself⟩
    · have hs' : ((OsdiKernel.setWaiting s.w.k).tasks p).state = .waiting := hs
      rw [htask p hc] at hs'
      rcases h.queued p hp hs' with hm | ⟨he, _⟩
      · exact Or.inl hm
      · exact absurd he hc
  · intro p hp
    by_cases hc : p = s.w.k.current
    · subst hc
      refine ⟨rfl, hfresh, ?_⟩
      show ((OsdiKernel.setWaiting s.w.k).tasks s.w.k.current).state = _
      rw [hself]
    · have hp' : (s.goto .enqueue).pc p = .enqueue := hp
      rw [hpcs p hc] at hp'
      exact absurd (h.atEnqueue p hp').1 hc
  · show ((OsdiKernel.setWaiting s.w.k).tasks s.w.k.current).state ≠ _
    rw [hself]
    exact nofun
  · exact fun _ => Or.inl hpcself

/-- The task queues itself, while the interrupt that will wake it is enabled. -/
theorem enqueue (h : ReadInv s readers) (hpc : s.pc s.w.k.current = .enqueue) (he : readEnabled s.ier = true) :
    ∃ w, enqueueCurrent s.w uartReadWaitQueue (s.waitingTask s.w.k.current) = .ok w ∧
      ∃ readers', ReadInv { s.goto .schedule with w } readers' := by
  obtain ⟨_, hfresh, hw⟩ := h.atEnqueue _ hpc
  have hout : s.pc s.w.k.current ≠ .outside := by
    rw [hpc]
    exact nofun
  obtain ⟨l, hrun, hrings⟩ := queueUp_spec h.rings (h.fresh h.current hout hfresh) uartReadWaitQueue s.w.k.current
  let w' : WaitState := { declareWaitqueue s.w (s.waitingTask s.w.k.current) s.w.k.current with links := l }
  have hpriv : ∀ p ∈ readers, w'.privateTask (s.waitingTask p) = s.w.privateTask (s.waitingTask p) := by
    intro p hp
    refine Function.update_of_ne (fun hee => ?_) _ _
    have hno := h.fresh h.current hout hfresh uartReadWaitQueue
    rw [readQueue_self, ← hee] at hno
    exact hno (List.mem_map_of_mem hp)
  have hpcs : ∀ p, p ≠ s.w.k.current → (s.goto .schedule).pc p = s.pc p := fun p hp => Function.update_of_ne hp _ _
  have hpcself : (s.goto .schedule).pc s.w.k.current = .schedule := Function.update_self ..
  refine ⟨w', ?_, readers ++ [s.w.k.current],
    ⟨⟨h.framed, h.range, h.init, h.initAlive, h.current, ?_, ?_, ?_, ?_, ?_, fun _ => he⟩, h.alive, ?_⟩⟩
  · unfold enqueueCurrent
    exact congrArg (· >>= fun links => Except.ok
      { declareWaitqueue s.w (s.waitingTask s.w.k.current) s.w.k.current with links }) hrun
  · intro p hp hp'
    by_cases hc : p = s.w.k.current
    · subst hc
      exact h.onStack _ hp hout
    · exact h.onStack p hp ((hpcs p hc) ▸ hp')
  · have hq : readQueue s.waitingTask (readers ++ [s.w.k.current]) =
        Function.update (readQueue s.waitingTask readers) uartReadWaitQueue
          (readQueue s.waitingTask readers uartReadWaitQueue ++ [s.waitingTask s.w.k.current]) := by
      unfold readQueue
      rw [Function.update_idem, Function.update_self, List.map_append, List.map_singleton]
    show Rings l IsWaitHead (onQueues (readQueue s.waitingTask (readers ++ [s.w.k.current])))
    rw [hq]
    exact hrings
  · intro p hp
    rcases List.mem_append.mp hp with hp | hp
    · have hc : p ≠ s.w.k.current := fun he => hfresh (he ▸ hp)
      obtain ⟨h1, h2, h3, h4⟩ := h.asleep p hp
      refine ⟨h1, h2, ?_, (hpriv p hp).trans h4⟩
      show (s.goto .schedule).pc p ≠ _
      rw [hpcs p hc]
      exact h3
    · obtain rfl := List.mem_singleton.mp hp
      refine ⟨h.current, hw, ?_, Function.update_self ..⟩
      show (s.goto .schedule).pc s.w.k.current ≠ _
      rw [hpcself]
      exact nofun
  · intro p hp hs
    rcases h.queued p hp hs with hm | ⟨hc, _⟩
    · exact Or.inl (List.mem_append_left _ hm)
    · exact Or.inl (List.mem_append_right _ (hc ▸ List.mem_singleton_self _))
  · intro p hp
    have hp' : (s.goto .schedule).pc p = .enqueue := hp
    by_cases hc : p = s.w.k.current
    · subst hc
      rw [hpcself] at hp'
      exact ReadPc.noConfusion hp'
    · rw [hpcs p hc] at hp'
      exact absurd (h.atEnqueue p hp').1 hc
  · exact fun _ => Or.inr hpcself

/-- **A step of `block_uart_read`.** -/
theorem step (h : ReadInv s readers) {auxMuLsr : Nat} (hout : s.pc s.w.k.current ≠ .outside)
    (ht : Timely s (.step auxMuLsr)) :
    ∃ s', blockUartRead s auxMuLsr = .ok s' ∧ ∃ readers', ReadInv s' readers' := by
  unfold blockUartRead
  cases hpc : s.pc s.w.k.current with
  | outside => exact absurd hpc hout
  | status =>
      have hw : s.w.k.cur.state ≠ .waiting := h.not_waiting hpc nofun nofun
      have hgoto : ∀ pc, pc ≠ .enqueue → ReadInv (s.goto pc) readers := fun pc hne =>
        h.goto hw (by simp [hpc]) hne hout
      by_cases hr : uartReadStatus auxMuLsr ≠ uartReadReady
      · exact ⟨_, if_pos hr, readers, hgoto .enable nofun⟩
      · exact ⟨_, if_neg hr, readers, hgoto .outside nofun⟩
  | enable => exact ⟨_, rfl, readers, h.enable hpc⟩
  | setWaiting => exact ⟨_, rfl, readers, h.setWaiting hpc⟩
  | enqueue =>
      obtain ⟨w, hrun, readers', h'⟩ := h.enqueue hpc (ht.1 hpc)
      exact ⟨_, by simp only [hrun, ok_bind], readers', h'⟩
  | schedule =>
      -- it is on the queue, or has been woken; either way it is at the top of the loop when it comes back
      have h₁ : ReadersInv (s.goto .status) readers :=
        h.toReadersInv.goto (by simp [hpc]) nofun hout
          nofun
      have hpc₁ : (s.goto .status).pc s.w.k.current ≠ .enqueue := by
        rw [show (s.goto .status).pc s.w.k.current = .status from Function.update_self ..]
        exact nofun
      obtain ⟨k', hrun, h'⟩ := h₁.schedule hpc₁ (ht.2 hpc)
      have hrun' : OsdiKernel.schedule s.w.k = .ok k' := hrun
      exact ⟨_, by simp only [hrun', ok_bind], readers, h'⟩

/-- A task calls `block_uart_read`, with `wait`'s local at that address. -/
theorem call (h : ReadInv s readers) {waitingTask : Nat} (hpc : s.pc s.w.k.current = .outside)
    (hs : OnKernelStack s.w.k.current waitingTask waitQueueEntrySize) :
    ReadInv { s.goto .status with waitingTask := Function.update s.waitingTask s.w.k.current waitingTask } readers := by
  have hw : s.w.k.cur.state ≠ .waiting := h.not_waiting hpc nofun nofun
  have hfresh := h.not_queued hw
  have hlocal : ∀ p, p ≠ s.w.k.current →
      Function.update s.waitingTask s.w.k.current waitingTask p = s.waitingTask p := fun p hp => Function.update_of_ne hp _ _
  have hpcs : ∀ p, p ≠ s.w.k.current → (s.goto .status).pc p = s.pc p := fun p hp => Function.update_of_ne hp _ _
  have hpcself : (s.goto .status).pc s.w.k.current = .status := Function.update_self ..
  have hqueue : readQueue (Function.update s.waitingTask s.w.k.current waitingTask) readers =
      readQueue s.waitingTask readers := by
    unfold readQueue
    rw [List.map_congr_left fun p hp => hlocal p (fun he => hfresh (he ▸ hp))]
  refine ⟨⟨h.framed, h.range, h.init, h.initAlive, h.current, ?_, ?_, ?_, ?_, ?_, h.enabled⟩, h.alive, fun he => absurd he hw⟩
  · intro p hp hp'
    by_cases hc : p = s.w.k.current
    · subst hc
      show OnKernelStack _ (Function.update s.waitingTask s.w.k.current waitingTask s.w.k.current) _
      rw [Function.update_self]
      exact hs
    · show OnKernelStack p (Function.update s.waitingTask s.w.k.current waitingTask p) _
      rw [hlocal p hc]
      exact h.onStack p hp ((hpcs p hc) ▸ hp')
  · show Rings s.w.links IsWaitHead (onQueues (readQueue (Function.update s.waitingTask s.w.k.current waitingTask) readers))
    rw [hqueue]
    exact h.rings
  · intro p hp
    have hc : p ≠ s.w.k.current := fun he => hfresh (he ▸ hp)
    obtain ⟨h1, h2, h3, h4⟩ := h.asleep p hp
    refine ⟨h1, h2, ?_, ?_⟩
    · show (s.goto .status).pc p ≠ _
      rw [hpcs p hc]
      exact h3
    · show s.w.privateTask (Function.update s.waitingTask s.w.k.current waitingTask p) = p
      rw [hlocal p hc]
      exact h4
  · intro p hp hs'
    rcases h.queued p hp hs' with hm | ⟨hc, _⟩
    · exact Or.inl hm
    · have hs'' : (s.w.k.tasks p).state = .waiting := hs'
      rw [hc] at hs''
      exact absurd hs'' hw
  · intro p hp
    have hp' : (s.goto .status).pc p = .enqueue := hp
    by_cases hc : p = s.w.k.current
    · subst hc
      rw [hpcself] at hp'
      exact ReadPc.noConfusion hp'
    · rw [hpcs p hc] at hp'
      exact absurd (h.atEnqueue p hp').1 hc

/-- The invariant says that nobody sleeps for ever. -/
theorem noLostWakeUp (h : ReadInv s readers) : NoLostWakeUp s := by
  have hreader : ∀ p, Sleeps s.w.k p → p ∈ readers := by
    intro p hp
    obtain ⟨hin, hne, hs⟩ := hp
    exact (h.queued p hin hs).resolve_right (fun hc => hne hc.1)
  refine ⟨fun p hp => ?_, fun p hp _ => ?_⟩
  · refine ⟨readers.map s.waitingTask, ?_, s.waitingTask p, List.mem_map_of_mem (hreader p hp),
      (h.asleep p (hreader p hp)).2.2.2⟩
    have hring := h.rings.ring (.head uartReadWaitQueue) ⟨_, rfl⟩
    rw [onQueues, readQueue_self] at hring
    exact hring
  · exact h.enabled (fun he => by have hm := hreader p hp; rw [he] at hm; exact absurd hm (by simp))

end ReadInv

/-! ## Runs -/

theorem readInv_start {s₀ : ReadState} (h : ReadersStart s₀) : ReadInv s₀ [] := by
  obtain ⟨c, live, hinv⟩ := taskOk_reachable h.kernel
  have hnone : ∀ p, ¬ (InTable s₀.w.k p ∧ (s₀.w.k.tasks p).state = .waiting) := by
    intro p hp
    obtain ⟨⟨i, hi, ht⟩, hs⟩ := hp
    exact h.awake i p hi ht hs
  have hrun : s₀.w.k.cur.state = .running := hinv.current.2
  refine ⟨⟨hinv.framed, hinv.range.rest, hinv.init, ?_, hinv.current.1, ?_, ?_, ?_, ?_, ?_, ?_⟩, ?_, ?_⟩
  · rw [hinv.initRunning]
    exact nofun
  · exact fun p _ hpc => absurd (h.outside p) hpc
  · have hempty : readQueue s₀.waitingTask [] = fun _ => [] := Function.update_eq_self ..
    rw [h.links, hempty]
    exact rings_waitQueueHeads
  · exact fun p hp => absurd hp (by simp)
  · exact fun p hp hs => absurd ⟨hp, hs⟩ (hnone p)
  · intro p hpc
    rw [h.outside p] at hpc
    exact ReadPc.noConfusion hpc
  · exact fun hne => absurd rfl hne
  · rw [hrun]
    exact nofun
  · intro hw
    rw [hrun] at hw
    exact TaskState.noConfusion hw

/-- **A timely step returns, and keeps the invariant.** -/
theorem readInv_step : timelySystem.Keeps (fun s => ∃ readers, ReadInv s readers) := by
  intro s op hs hl
  obtain ⟨readers, h⟩ := hs
  obtain ⟨hlegal, htime⟩ := hl
  cases op with
  | call waitingTask => exact ⟨_, rfl, readers, h.call hlegal.1 hlegal.2⟩
  | yield =>
      have hpc : s.pc s.w.k.current = .outside := hlegal
      have hw : s.w.k.cur.state ≠ .waiting := h.not_waiting hpc nofun nofun
      obtain ⟨k', hrun, h'⟩ := h.toReadersInv.schedule (by simp [hpc]) (h.hasNext hw)
      exact ⟨s.withKernel k', by simp only [timelySystem, System.restrict, readSystem, hrun, ok_bind], readers, h'⟩
  | step auxMuLsr => exact h.step hlegal htime
  | uartInterrupt =>
      obtain ⟨s', hrun, h'⟩ := h.uartInterrupt htime
      exact ⟨s', hrun, [], h'⟩
  | timerInterrupt =>
      obtain ⟨s', hrun, h'⟩ := h.timerInterrupt htime
      exact ⟨s', hrun, readers, h'⟩

/--
**No wake-up is lost**, in any run in which nothing comes at a wrong time: a
task that sleeps is on the queue, and the interrupt that will wake it is enabled.
-/
theorem noLostWakeUp_of_timely (h : ReadReach timelySystem s) : NoLostWakeUp s := by
  obtain ⟨s₀, h₀, hr⟩ := h
  obtain ⟨readers, hinv⟩ := hr.inv ⟨[], readInv_start h₀⟩ readInv_step
  exact hinv.noLostWakeUp

/-! ## Runs that can be computed -/

instance : ∀ s op, Decidable (readSystem.legal s op)
  | s, .call waitingTask => inferInstanceAs (Decidable (s.pc s.w.k.current = .outside ∧
      OnKernelStack s.w.k.current waitingTask waitQueueEntrySize))
  | s, .yield => inferInstanceAs (Decidable (s.pc s.w.k.current = .outside))
  | s, .step _ => inferInstanceAs (Decidable (s.pc s.w.k.current ≠ .outside))
  | s, .uartInterrupt => inferInstanceAs (Decidable (readEnabled s.ier = true))
  | _, .timerInterrupt => inferInstanceAs (Decidable True)

instance : ∀ s op, Decidable (Timely s op)
  | s, .step _ => inferInstanceAs (Decidable ((s.pc s.w.k.current = .enqueue → readEnabled s.ier = true) ∧
      (s.pc s.w.k.current = .schedule → HasNext s.w.k)))
  | s, .uartInterrupt => inferInstanceAs (Decidable
      (s.pc s.w.k.current = .enqueue → s.w.k.cur.counter > 0 ∨ s.w.k.cur.preemptCount > 0))
  | s, .timerInterrupt => inferInstanceAs (Decidable ((s.pc s.w.k.current = .enqueue → Stays (timerTick s.w.k)) ∧
      (s.pc s.w.k.current = .schedule → Stays (timerTick s.w.k) ∨ HasNext s.w.k)))
  | _, .call _ => inferInstanceAs (Decidable True)
  | _, .yield => inferInstanceAs (Decidable True)

instance (s : ReadState) (op : ReadOp) : Decidable (timelySystem.legal s op) :=
  inferInstanceAs (Decidable (readSystem.legal s op ∧ Timely s op))

/-- Carry out calls of the tasks, and then steps of the readers. -/
def readRun (S : System ReadState ReadOp Fault) [∀ s op, Decidable (S.legal s op)] (calls : List TaskOp)
    (ops : List ReadOp) : Option ReadState :=
  match taskRun calls with
  | some k =>
      if ∀ i, i < taskSlots → ∀ p ∈ k.task i, (k.tasks p).state ≠ .waiting then
        S.run ⟨⟨k, waitQueueHeads, fun _ => .initTask⟩, 0, fun _ => .outside, fun _ => 0⟩ ops
      else none
  | none => none

theorem readReach_of_run {S : System ReadState ReadOp Fault} [∀ s op, Decidable (S.legal s op)] {calls : List TaskOp}
    {ops : List ReadOp} (h : readRun S calls ops = some s) : ReadReach S s := by
  unfold readRun at h
  cases hk : taskRun calls with
  | none => simp [hk] at h
  | some k =>
      simp only [hk] at h
      by_cases hw : ∀ i, i < taskSlots → ∀ p ∈ k.task i, (k.tasks p).state ≠ .waiting
      · rw [if_pos hw] at h
        exact ⟨_, ⟨taskReachable_of_run hk, fun i p hi hp => hw i hi p hp, rfl, fun _ => rfl⟩, System.Reach.of_run .init h⟩
      · rw [if_neg hw] at h
        exact absurd h (by simp)

/-- A thread sleeps, with nothing at a wrong time. -/
theorem noLostWakeUp_of_timely_sleeps :
    ∃ s, ReadReach timelySystem s ∧ Sleeps s.w.k (.page 0x200000) ∧ NoLostWakeUp s := by
  have hrun : (readRun timelySystem [.copyProcess pfKthread 0 0]
      [.yield, .call 0x200800, .step 0, .step 0, .timerInterrupt, .yield, .step 0, .step 0, .step 0]).map
      (fun s => (decide (s.w.k.task 1 = some (.page 0x200000)), decide (TaskPtr.page 0x200000 ≠ s.w.k.current),
        (s.w.k.tasks (.page 0x200000)).state)) = some (true, true, .waiting) := by decide +kernel
  obtain ⟨s, hs, hres⟩ := Option.map_eq_some_iff.mp hrun
  simp only [Prod.mk.injEq, decide_eq_true_eq] at hres
  have hr := readReach_of_run hs
  exact ⟨s, hr, ⟨⟨1, by decide, hres.1⟩, hres.2.1, hres.2.2⟩, noLostWakeUp_of_timely hr⟩

/-- The timer comes before the thread has queued itself. -/
theorem sleeps_unqueued : ∃ s, ReadReach readSystem s ∧ ∃ p, Sleeps s.w.k p ∧ ¬ OnReadQueue s p := by
  have hrun : (readRun readSystem [.copyProcess pfKthread 0 0]
      [.yield, .call 0x200800, .step 0, .step 0, .step 0, .timerInterrupt]).map
      (fun s => (decide (s.w.k.task 1 = some (.page 0x200000)), decide (TaskPtr.page 0x200000 ≠ s.w.k.current),
        (s.w.k.tasks (.page 0x200000)).state, s.w.links.next (.head uartReadWaitQueue))) =
      some (true, true, .waiting, some (.head uartReadWaitQueue)) := by decide +kernel
  obtain ⟨s, hs, hres⟩ := Option.map_eq_some_iff.mp hrun
  simp only [Prod.mk.injEq, decide_eq_true_eq] at hres
  obtain ⟨htask, hne, hw, hnext⟩ := hres
  refine ⟨s, readReach_of_run hs, .page 0x200000, ⟨⟨1, by decide, htask⟩, hne, hw⟩, fun hq => ?_⟩
  obtain ⟨es, hring, e, he, _⟩ := hq
  rw [List.map_eq_nil_iff.mp (hring.next_self_iff.mp hnext)] at he
  exact absurd he (by simp)

/-- The UART comes after the thread has enabled its interrupt, and before it has queued itself. -/
theorem sleeps_disabled :
    ∃ s, ReadReach readSystem s ∧ ∃ p, Sleeps s.w.k p ∧ OnReadQueue s p ∧ readEnabled s.ier = false := by
  have hrun : (readRun readSystem [.copyProcess pfKthread 0 0]
      [.yield, .call 0x200800, .step 0, .step 0, .uartInterrupt, .step 0, .step 0, .step 0]).map
      (fun s => decide (s.w.k.task 1 = some (.page 0x200000) ∧ TaskPtr.page 0x200000 ≠ s.w.k.current ∧
        (s.w.k.tasks (.page 0x200000)).state = .waiting ∧
        s.w.links.next (.head uartReadWaitQueue) = some (.entry 0x200800) ∧
        s.w.links.prev (.head uartReadWaitQueue) = some (.entry 0x200800) ∧
        s.w.links.next (.entry 0x200800) = some (.head uartReadWaitQueue) ∧
        s.w.links.prev (.entry 0x200800) = some (.head uartReadWaitQueue) ∧
        s.w.privateTask 0x200800 = .page 0x200000 ∧ readEnabled s.ier = false)) = some true := by decide +kernel
  obtain ⟨s, hs, hres⟩ := Option.map_eq_some_iff.mp hrun
  obtain ⟨htask, hne, hw, hn, hp, hn', hp', hpriv, hoff⟩ := of_decide_eq_true hres
  have hring : IsRing s.w.links (.head uartReadWaitQueue) ([0x200800].map WaitNode.entry) :=
    ⟨by simp, by simp [Links.Linked, hn, hp, hn', hp']⟩
  exact ⟨s, readReach_of_run hs, .page 0x200000, ⟨⟨1, by decide, htask⟩, hne, hw⟩,
    ⟨[0x200800], hring, _, List.mem_singleton_self _, hpriv⟩, hoff⟩

/-- So either half of the promise can fail. -/
theorem not_noLostWakeUp :
    (¬ ∀ s, ReadReach readSystem s → ∀ p, Sleeps s.w.k p → OnReadQueue s p) ∧
      ¬ ∀ s, ReadReach readSystem s → ∀ p, Sleeps s.w.k p → OnReadQueue s p → readEnabled s.ier = true := by
  refine ⟨fun hall => ?_, fun hall => ?_⟩
  · obtain ⟨s, hr, p, hp, hno⟩ := sleeps_unqueued
    exact hno (hall s hr p hp)
  · obtain ⟨s, hr, p, hp, hq, hoff⟩ := sleeps_disabled
    have hon := hall s hr p hp hq
    rw [hoff] at hon
    exact absurd hon (by simp)

end OsdiKernel
