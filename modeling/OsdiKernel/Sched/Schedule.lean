import OsdiKernel.Sched.Pick

/-!
# What `schedule` does

It zeroes the caller's counter, so that nobody's turn is longer than the turn of
whoever gave it up, picks a runnable task and goes there. Of the kernel it
changes the counters, two `preempt_count`s and who is current, and nothing else.
-/

namespace OsdiKernel

variable {k k' : Kernel} {p q : TaskPtr}

/-- What the scheduler looks at did not change. -/
structure SameSched (k k' : Kernel) : Prop where
  task : k'.task = k.task
  current : k'.current = k.current
  fields : ∀ p, (k'.tasks p).state = (k.tasks p).state ∧ (k'.tasks p).counter = (k.tasks p).counter ∧
    (k'.tasks p).priority = (k.tasks p).priority

/-- What `schedule` has when its selection loop starts. -/
def scheduleStart (k : Kernel) : Kernel :=
  preemptDisable (k.updateTask k.current (fun t => { t with counter := 0 }))

/-- This call of `schedule` finds every runnable counter zero. -/
def refreshes (k : Kernel) : Bool := (selectTask (scheduleStart k)).1 = 0

namespace SameSched

theorem refl (k : Kernel) : SameSched k k := ⟨rfl, rfl, fun _ => ⟨rfl, rfl, rfl⟩⟩

theorem runnable (h : SameSched k k') : Runnable k' p ↔ Runnable k p := by
  unfold Runnable InTable
  rw [h.task, (h.fields p).1]

theorem inRange (h : SameSched k k') (hr : InRange k) : InRange k' := by
  intro p hp
  unfold InTable at hp
  rw [h.task] at hp
  obtain ⟨_, h2, h3⟩ := h.fields p
  rw [h2, h3]
  exact hr p hp

end SameSched

theorem sameSched_preempt (k : Kernel) (f : Int → Int) :
    SameSched k (k.updateTask k.current (fun t => { t with preemptCount := f t.preemptCount })) := by
  refine ⟨rfl, rfl, fun p => ?_⟩
  by_cases hp : p = k.current
  · subst hp; simp
  · rw [k.updateTask_ne _ p _ hp]; exact ⟨rfl, rfl, rfl⟩

/-- Before it looks for the next task, `schedule` ends the caller's turn. -/
theorem scheduleStart_fields (k : Kernel) (p : TaskPtr) :
    ((scheduleStart k).tasks p).state = (k.tasks p).state ∧
    ((scheduleStart k).tasks p).priority = (k.tasks p).priority ∧
    ((scheduleStart k).tasks p).counter = if p = k.current then 0 else (k.tasks p).counter := by
  obtain ⟨h1, h2, h3⟩ := (sameSched_preempt
    (k.updateTask k.current (fun t => { t with counter := 0 })) (· + 1)).fields p
  rw [scheduleStart, preemptDisable, h1, h2, h3]
  by_cases hp : p = k.current
  · subst hp; simp
  · rw [k.updateTask_ne _ p _ hp, if_neg hp]; exact ⟨rfl, rfl, rfl⟩

theorem scheduleStart_runnable : Runnable (scheduleStart k) p ↔ Runnable k p := by
  unfold Runnable
  rw [(scheduleStart_fields k p).1]
  rfl

/-- In range, but for the current task's counter, which a tick can take below zero. -/
def RestInRange (k : Kernel) : Prop :=
  ∀ p, InTable k p → (1 ≤ (k.tasks p).priority ∧ (k.tasks p).priority ≤ 2 ^ 29) ∧
    (p ≠ k.current → 0 ≤ (k.tasks p).counter ∧ (k.tasks p).counter ≤ 2 ^ 30)

theorem InRange.rest (h : InRange k) : RestInRange k := fun p hp => ⟨(h p hp).1, fun _ => (h p hp).2⟩

theorem RestInRange.congr (h : RestInRange k) (htask : k'.task = k.task) (hcur : k'.current = k.current)
    (hf : ∀ p, (k'.tasks p).priority = (k.tasks p).priority ∧ (k'.tasks p).counter = (k.tasks p).counter) :
    RestInRange k' := by
  intro p hp
  unfold InTable at hp
  rw [htask] at hp
  rw [(hf p).1, (hf p).2, hcur]
  exact h p hp

/-- The counter it ends is the current task's. -/
theorem scheduleStart_range (h : RestInRange k) : InRange (scheduleStart k) := by
  intro p hp
  obtain ⟨hpr, hc⟩ := h p hp
  obtain ⟨_, h2, h3⟩ := scheduleStart_fields k p
  rw [h2, h3]
  refine ⟨hpr, ?_⟩
  by_cases hpc : p = k.current
  · rw [if_pos hpc]
    omega
  · rw [if_neg hpc]
    exact hc hpc

/-- Who is current, and the tasks' counters and `preempt_count`s, may have changed; nothing else. -/
structure OnlySched (k k' : Kernel) : Prop where
  mm : k'.mm = k.mm
  mem : k'.mem = k.mem
  task : k'.task = k.task
  nrTasks : k'.nrTasks = k.nrTasks
  tasks : ∀ q, k'.tasks q = { k.tasks q with
    counter := (k'.tasks q).counter, preemptCount := (k'.tasks q).preemptCount }

namespace OnlySched

theorem refl (k : Kernel) : OnlySched k k := ⟨rfl, rfl, rfl, rfl, fun _ => rfl⟩

theorem trans {k'' : Kernel} (h : OnlySched k k') (h' : OnlySched k' k'') : OnlySched k k'' where
  mm := h'.mm.trans h.mm
  mem := h'.mem.trans h.mem
  task := h'.task.trans h.task
  nrTasks := h'.nrTasks.trans h.nrTasks
  tasks := by
    intro q
    rw [h'.tasks q, h.tasks q]

theorem updateTask (k : Kernel) (f : Task → Task)
    (hf : ∀ t, f t = { t with counter := (f t).counter, preemptCount := (f t).preemptCount }) :
    OnlySched k (k.updateTask p f) := by
  refine ⟨rfl, rfl, rfl, rfl, fun q => ?_⟩
  by_cases hq : q = p
  · subst hq
    rw [k.updateTask_self]
    exact hf _
  · rw [k.updateTask_ne p q f hq]

theorem of_sameButCounters (h : SameButCounters k k') : OnlySched k k' where
  mm := h.mm
  mem := h.mem
  task := h.task
  nrTasks := h.nrTasks
  tasks := by
    intro q
    rw [h.tasks q]

theorem switchTo (k : Kernel) (p : TaskPtr) : OnlySched k (switchTo k p) := by
  unfold OsdiKernel.switchTo
  by_cases hc : k.current = p
  · rw [if_pos hc]; exact refl k
  · rw [if_neg hc]; exact ⟨rfl, rfl, rfl, rfl, fun _ => rfl⟩

theorem state (h : OnlySched k k') (q : TaskPtr) : (k'.tasks q).state = (k.tasks q).state := by
  rw [h.tasks q]

theorem inTable (h : OnlySched k k') : InTable k' q ↔ InTable k q := by
  unfold InTable
  rw [h.task]

end OnlySched

/-- What a call of `schedule` does: it goes to `p`, refreshing the counters first if it has to. -/
structure Scheduled (k k' : Kernel) (p : TaskPtr) : Prop where
  current : k'.current = p
  only : OnlySched k k'
  range : InRange k'
  runnable : Runnable k p
  positive : 1 ≤ (k'.tasks p).counter
  /-- Without a refresh nothing but the caller's counter changes. -/
  kept : refreshes k = false → ∀ q, (k'.tasks q).counter = if q = k.current then 0 else (k.tasks q).counter
  /-- A refresh needs every other runnable counter to be zero, and leaves none so. -/
  fresh : refreshes k = true → (∀ q, Runnable k q → q ≠ k.current → (k.tasks q).counter = 0) ∧
    ∀ q, InTable k q → 1 ≤ (k'.tasks q).counter

theorem onlySched_preempt (k : Kernel) (f : Int → Int) :
    OnlySched k (k.updateTask k.current (fun t => { t with preemptCount := f t.preemptCount })) :=
  .updateTask k _ fun _ => rfl

theorem scheduleStart_only (k : Kernel) : OnlySched k (scheduleStart k) :=
  OnlySched.trans (.updateTask k (fun t => { t with counter := 0 }) fun _ => rfl)
    (onlySched_preempt _ (· + 1))

/-- **Once the loop has picked a slot**, `schedule` goes there, and leaves the counters as they are. -/
theorem schedule_of_pick {k₁ : Kernel} {next : Nat} (hrun : pickNext scheduleRounds (scheduleStart k) = .ok (next, k₁))
    (hslot : k₁.task next = some p) (hs : SameButCounters (scheduleStart k) k₁) (hr : InRange k₁) :
    ∃ k', schedule k = .ok k' ∧ k'.current = p ∧ OnlySched k k' ∧ InRange k' ∧
      ∀ q, (k'.tasks q).counter = (k₁.tasks q).counter := by
  let k' := preemptEnable (switchTo k₁ p)
  have hsw : (switchTo k₁ p).current = p ∧ (switchTo k₁ p).tasks = k₁.tasks := by
    unfold switchTo
    by_cases hc : k₁.current = p
    · rw [if_pos hc]; exact ⟨hc, rfl⟩
    · rw [if_neg hc]; exact ⟨rfl, rfl⟩
  have hsame := sameSched_preempt (switchTo k₁ p) (· - 1)
  have honly : OnlySched k k' :=
    ((scheduleStart_only k).trans (.of_sameButCounters hs)).trans
      ((OnlySched.switchTo k₁ p).trans (onlySched_preempt _ (· - 1)))
  have hcount : ∀ q, (k'.tasks q).counter = (k₁.tasks q).counter := by
    intro q
    rw [show (k'.tasks q).counter = _ from (hsame.fields q).2.1, hsw.2]
  refine ⟨k', ?_, hsame.current.trans hsw.1, honly, fun q hq => ?_, hcount⟩
  · show scheduleInner _ = _
    simp only [scheduleInner]
    rw [show preemptDisable (k.updateTask k.current fun t => { t with counter := 0 }) = scheduleStart k
      from rfl, hrun, ok_bind]
    simp only [hslot]
    rfl
  · have hq' : InTable k₁ q := hs.inTable.mpr ((scheduleStart_only k).inTable.mpr (honly.inTable.mp hq))
    rw [hcount, show (k'.tasks q).priority = _ from (hsame.fields q).2.2, hsw.2]
    exact hr q hq'

/-- **A call returns**, in a runnable task. -/
theorem schedule_spec (hr : RestInRange k) (hq : Runnable k q) :
    ∃ k' p, schedule k = .ok k' ∧ Scheduled k k' p := by
  obtain ⟨next, k₁, p, hrun, hpk⟩ :=
    pickNext_spec (scheduleStart_range hr) (scheduleStart_runnable.mpr hq)
  have hs := hpk.same
  obtain ⟨k', hsched, hcur, honly, hrange, hcount⟩ := schedule_of_pick hrun hpk.slot hs hpk.range
  have hrunning : ∀ q, Runnable k₁ q → Runnable k q :=
    fun q hq => scheduleStart_runnable.mp (hs.runnable.mp hq)
  refine ⟨k', p, hsched, hcur, honly, hrange, hrunning p hpk.runnable, ?_, ?_, ?_⟩
  · rw [hcount]; exact hpk.positive
  · intro hno q
    rcases hpk.source with ⟨_, he⟩ | ⟨hz, _⟩
    · rw [hcount, he]
      exact (scheduleStart_fields k q).2.2
    · simp [refreshes, hz] at hno
  · intro hyes
    rcases hpk.source with ⟨hz, _⟩ | ⟨_, he, hzero⟩
    · simp [refreshes, hz] at hyes
    · refine ⟨fun q hq hne => ?_, fun q hq => ?_⟩
      · have := hzero q (scheduleStart_runnable.mpr hq)
        rw [(scheduleStart_fields k q).2.2, if_neg hne] at this
        exact this
      · rw [hcount, he]
        exact (refreshCounters_spec (scheduleStart_range hr)).2.2 q
          ((scheduleStart_only k).inTable.mpr hq)

/-- With nobody to run, the selection loop leaves `next` at 0. -/
theorem selectTask_idle (h : InRange k) (hno : ∀ q, ¬ Runnable k q) : selectTask k = (-1, 0) := by
  rcases selectTask_turns h (Nat.le_refl taskSlots) with ⟨hbest, _⟩ | ⟨p, hm, hp, hrun, _⟩
  · exact hbest
  · exact absurd ⟨⟨_, List.mem_range.mp hm, hp⟩, hrun⟩ (hno p)

/-- What any call of `schedule` does: it goes to a runnable task, or to slot 0 if there is none. -/
structure Resumed (k k' : Kernel) (p : TaskPtr) : Prop where
  current : k'.current = p
  only : OnlySched k k'
  range : InRange k'
  choice : Runnable k p ∨ ((∀ q, ¬ Runnable k q) ∧ k.task 0 = some p)

theorem schedule_idle (hr : RestInRange k) (h0 : k.task 0 = some p) (hno : ∀ q, ¬ Runnable k q) :
    ∃ k', schedule k = .ok k' ∧ Resumed k k' p := by
  have hstart := scheduleStart_range hr
  have hsel := selectTask_idle hstart (fun q hq => hno q (scheduleStart_runnable.mp hq))
  have hpick : pickNext scheduleRounds (scheduleStart k) = .ok (0, scheduleStart k) := by
    simp only [scheduleRounds, pickNext, hsel]
    rfl
  obtain ⟨k', hsched, hcur, honly, hrange, _⟩ := schedule_of_pick hpick h0 (SameButCounters.refl _) hstart
  exact ⟨k', hsched, hcur, honly, hrange, Or.inr ⟨hno, h0⟩⟩

/-- **Every call returns**, if only in slot 0. -/
theorem schedule_total (hr : RestInRange k) (h0 : k.task 0 = some q) :
    ∃ k' p, schedule k = .ok k' ∧ Resumed k k' p := by
  by_cases hex : ∃ q, Runnable k q
  · obtain ⟨r, hrun⟩ := hex
    obtain ⟨k', p, hs, hsched⟩ := schedule_spec hr hrun
    exact ⟨k', p, hs, hsched.current, hsched.only, hsched.range, Or.inl hsched.runnable⟩
  · obtain ⟨k', hs, hres⟩ := schedule_idle hr h0 (fun r hrun => hex ⟨r, hrun⟩)
    exact ⟨k', q, hs, hres⟩

theorem Scheduled.runnable_iff (h : Scheduled k k' p) : Runnable k' q ↔ Runnable k q := by
  unfold Runnable
  rw [h.only.inTable, h.only.state]

end OsdiKernel
