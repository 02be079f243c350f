import OsdiKernel.Sched.Pick

/-!
# Which task `_schedule` selects

Over any table: slots may be NULL, tasks in any state, and counters as far below
zero as ticks have taken them. `next` starts as slot 0 and `c` as -1, which is
also what they are when nothing was found; with `task[0]` runnable that does no
harm.
-/

namespace OsdiKernel

variable {k k' : Kernel} {p q : TaskPtr} {next : Nat}

/-- The slot has the first of the runnable tasks with the largest counter. -/
def FirstLargest (k : Kernel) (next : Nat) : Prop :=
  ∃ p, k.task next = some p ∧ (k.tasks p).state = .running ∧
    ∀ i < taskSlots, ∀ q, k.task i = some q → (k.tasks q).state = .running →
      (k.tasks q).counter ≤ (k.tasks p).counter ∧ (i < next → (k.tasks q).counter < (k.tasks p).counter)

/-- `init_task`'s slot, slot 0, has a runnable task. -/
def FirstRunning (k : Kernel) : Prop := ∃ p, k.task 0 = some p ∧ (k.tasks p).state = .running

/-- Every counter is below twice the priority, where `_schedule` puts it. -/
def Bounded (k : Kernel) : Prop :=
  ∀ p, InTable k p → 0 ≤ (k.tasks p).counter ∧ (k.tasks p).counter ≤ 2 * (k.tasks p).priority - 1

/-- What the loop of `_schedule` leaves when it ends with `next`. -/
structure Selected (k k' : Kernel) (next : Nat) : Prop where
  slot : next < taskSlots ∧ ∃ p, k'.task next = some p ∧ (k'.tasks p).state = .running
  /-- One refresh, or none. -/
  rounds : k' = k ∨ k' = refreshCounters k
  same : SameButCounters k k'
  positive : (∃ p, Runnable k p ∧ 0 < (k.tasks p).counter) → k' = k ∧ FirstLargest k next
  zero : (∃ p, Runnable k p ∧ (k.tasks p).counter = 0) → (∀ p, Runnable k p → (k.tasks p).counter ≤ 0) →
    (∀ i < taskSlots, ∀ p, k.task i = some p → (∀ j, k.task j = some p → j = i) →
      (k'.tasks p).counter = ((k.tasks p).counter >>> (1 : Nat)) + (k.tasks p).priority) ∧ FirstLargest k' next
  negative : (∀ p, Runnable k p → (k.tasks p).counter < 0) → k' = k ∧ next = 0
  bounded : Bounded k → Bounded k'

/-- A task that has one slot is refreshed once. -/
theorem slotCount_one {i : Nat} (hi : i < taskSlots) (hp : k.task i = some p)
    (honly : ∀ j, k.task j = some p → j = i) : slotCount k p taskSlots = 1 := by
  have hcount : slotCount k p taskSlots = (List.range taskSlots).count i := by
    refine List.countP_congr (fun j _ => ?_)
    rw [decide_eq_true_iff, beq_iff_eq]
    exact ⟨honly j, fun he => he ▸ hp⟩
  rw [hcount]
  exact List.count_eq_one_of_mem List.nodup_range (List.mem_range.mpr hi)

theorem refreshCounters_bounds (h : InBounds k) : InBounds (refreshCounters k) := by
  have hs : SameButCounters k (refreshCounters k) := (refreshCounters_turns k taskSlots).1
  intro p hp
  obtain ⟨hpr, hc⟩ := h p (hs.inTable.mp hp)
  rw [hs.priority]
  refine ⟨hpr, refreshCounters_keeps (P := fun c => -2 ^ 30 ≤ c ∧ c ≤ 2 ^ 30) p (fun c hc => ?_) hc⟩
  rw [refreshed, Int.shiftRight_eq_div_pow]
  omega

theorem refreshCounters_bounded (hb : Bounded k) : Bounded (refreshCounters k) := by
  have hs : SameButCounters k (refreshCounters k) := (refreshCounters_turns k taskSlots).1
  intro p hp
  rw [hs.priority]
  refine refreshCounters_keeps (P := fun c => 0 ≤ c ∧ c ≤ 2 * (k.tasks p).priority - 1) p (fun c hc => ?_)
    (hb p (hs.inTable.mp hp))
  rw [refreshed, Int.shiftRight_eq_div_pow]
  omega

/-- The first task of the largest counter, as the loop has it. -/
theorem Leads.firstLargest {best : Int × Nat} (h : Leads k taskSlots best)
    (hex : ∃ p, Runnable k p ∧ 0 ≤ (k.tasks p).counter) :
    best.2 < taskSlots ∧ FirstLargest k best.2 ∧ ∀ p, Runnable k p → (k.tasks p).counter ≤ best.1 := by
  rcases h with ⟨_, hneg⟩ | ⟨p, hlt, hp, hrun, hc, _, hmax⟩
  · obtain ⟨p, ⟨⟨i, hi, hp⟩, hrun⟩, h0⟩ := hex
    have := hneg i hi p hp hrun
    omega
  · refine ⟨hlt, ⟨p, hp, hrun, ?_⟩, fun q hq => ?_⟩
    · rw [hc]
      exact hmax
    · obtain ⟨⟨i, hi, hqi⟩, hqr⟩ := hq
      exact (hmax i hi q hqi hqr).1

/-- The two ends of the outer loop. -/
theorem pickNext_now (hc : (selectTask k).1 ≠ 0) : pickNext scheduleRounds k = .ok ((selectTask k).2, k) := by
  simp only [scheduleRounds, pickNext]
  rw [if_pos hc]

theorem pickNext_refreshed (hc : (selectTask k).1 = 0) (hc' : (selectTask (refreshCounters k)).1 ≠ 0) :
    pickNext scheduleRounds k = .ok ((selectTask (refreshCounters k)).2, refreshCounters k) := by
  simp only [scheduleRounds, pickNext]
  rw [if_neg (not_not.mpr hc), if_pos hc']

/-- With every runnable counter at zero at most, and one at zero, it takes a refresh. -/
theorem selected_zero (h : InBounds k) (hz : ∃ p, Runnable k p ∧ (k.tasks p).counter = 0)
    (hle : ∀ p, Runnable k p → (k.tasks p).counter ≤ 0) :
    ∃ next k', pickNext scheduleRounds k = .ok (next, k') ∧ Selected k k' next := by
  obtain ⟨p, hp, hp0⟩ := hz
  have hs : SameButCounters k (refreshCounters k) := (refreshCounters_turns k taskSlots).1
  have hsel : (selectTask k).1 = 0 := by
    rcases selectTask_leads h taskSlots (Nat.le_refl _) with ⟨_, hneg⟩ | ⟨q, hlt, hq, hrun, hc, h0, _⟩
    · obtain ⟨⟨i, hi, hpi⟩, hrun⟩ := hp
      have := hneg i hi p hpi hrun
      omega
    · have := hle q ⟨⟨_, hlt, hq⟩, hrun⟩
      have hc' : (k.tasks q).counter = (selectTask k).1 := hc
      have h0' : 0 ≤ (selectTask k).1 := h0
      omega
  -- the task that was at zero is above it now
  have hp1 : 1 ≤ ((refreshCounters k).tasks p).counter := by
    have hpr := (h p hp.1).1
    refine refreshCounters_last (P := fun c => 0 ≤ c) (Q := fun c => 1 ≤ c) hp.1 ?_ (by rw [hp0]) ?_
    · intro c hc
      rw [refreshed, Int.shiftRight_eq_div_pow]
      omega
    · intro c hc
      rw [refreshed, Int.shiftRight_eq_div_pow]
      omega
  have hleads := selectTask_leads (refreshCounters_bounds h) taskSlots (Nat.le_refl _)
  obtain ⟨hlt, hfirst, hmax⟩ := hleads.firstLargest ⟨p, hs.runnable.mpr hp, by omega⟩
  have hsel' : (selectTask (refreshCounters k)).1 ≠ 0 := by
    have : ((refreshCounters k).tasks p).counter ≤ (selectTask (refreshCounters k)).1 :=
      hmax p (hs.runnable.mpr hp)
    omega
  obtain ⟨q, hq, hqr, _⟩ := id hfirst
  refine ⟨_, _, pickNext_refreshed hsel hsel', ⟨hlt, q, hq, hqr⟩, Or.inr rfl, hs, ?_, fun _ _ => ⟨?_, hfirst⟩, ?_,
    refreshCounters_bounded⟩
  · rintro ⟨r, hr, hpos⟩
    have := hle r hr
    omega
  · intro i hi r hr honly
    rw [show ((refreshCounters k).tasks r).counter = _ from (refreshCounters_turns k taskSlots).2 r,
      slotCount_one hi hr honly]
    rfl
  · intro hneg
    have := hneg p hp
    omega

/--
**Selection.** With `task[0]` runnable, the loop of `_schedule` ends after one
refresh at most, with a slot that has a runnable task: the first of the largest
counter if one is positive; if the largest is zero, the first of the largest
once every counter is refreshed.
-/
theorem schedule_selects (h : InBounds k) (h0 : FirstRunning k) :
    ∃ next k', pickNext scheduleRounds k = .ok (next, k') ∧ Selected k k' next := by
  obtain ⟨p₀, hp₀, hrun₀⟩ := h0
  have hslot : (0 : Nat) < taskSlots ∧ ∃ p, k.task 0 = some p ∧ (k.tasks p).state = .running :=
    ⟨by decide, p₀, hp₀, hrun₀⟩
  by_cases hpos : ∃ p, Runnable k p ∧ 0 < (k.tasks p).counter
  · obtain ⟨p, hp, hp1⟩ := hpos
    obtain ⟨hlt, hfirst, hmax⟩ := (selectTask_leads h taskSlots (Nat.le_refl _)).firstLargest ⟨p, hp, by omega⟩
    have hc : (selectTask k).1 ≠ 0 := by
      have : (k.tasks p).counter ≤ (selectTask k).1 := hmax p hp
      omega
    obtain ⟨q, hq, hqr, _⟩ := id hfirst
    refine ⟨_, _, pickNext_now hc, ⟨hlt, q, hq, hqr⟩, Or.inl rfl, .refl k, fun _ => ⟨rfl, hfirst⟩, fun _ hle => ?_,
      fun hneg => ?_, id⟩
    · have := hle p hp
      omega
    · have := hneg p hp
      omega
  · have hle : ∀ p, Runnable k p → (k.tasks p).counter ≤ 0 :=
      fun p hp => Int.not_lt.mp (fun hgt => hpos ⟨p, hp, hgt⟩)
    by_cases hz : ∃ p, Runnable k p ∧ (k.tasks p).counter = 0
    · exact selected_zero h hz hle
    · -- every counter is below zero, and `c` is still -1
      have hneg : ∀ p, Runnable k p → (k.tasks p).counter < 0 := by
        intro p hp
        have := hle p hp
        exact lt_of_le_of_ne this (fun he => hz ⟨p, hp, he⟩)
      have hbest : selectTask k = (-1, 0) := by
        rcases selectTask_leads h taskSlots (Nat.le_refl _) with ⟨he, _⟩ | ⟨q, hlt, hq, hrun, hc, h0, _⟩
        · exact he
        · have := hneg q ⟨⟨_, hlt, hq⟩, hrun⟩
          omega
      have hc : (selectTask k).1 ≠ 0 := by
        rw [hbest]
        decide
      refine ⟨_, _, pickNext_now hc, ?_, Or.inl rfl, .refl k, fun hex => absurd hex hpos, fun hex => absurd hex hz,
        fun _ => ⟨rfl, congrArg Prod.snd hbest⟩, id⟩
      rw [hbest]
      exact hslot

/-- `init_task` out of ticks, a task asleep, and past a hole one that ticks took below zero. -/
def spentTable : Kernel where
  mm := Mm.bss
  mem := fun _ => 0
  tasks := fun p =>
    { cpuContext := CpuContext.zero
      state := if p = .page 0x200000 then .waiting else .running
      counter := if p = .page 0x201000 then -5 else 0
      priority := if p = .page 0x201000 then 20 else 1
      preemptCount := 0, stack := 0, flags := pfKthread, pid := 0, ptRegs := PtRegs.zero }
  task := fun i =>
    if i = 0 then some .initTask else if i = 1 then some (.page 0x200000)
    else if i = 3 then some (.page 0x201000) else none
  current := .initTask
  nrTasks := 4

/-- A refresh puts it first. -/
theorem schedule_selects_spent :
    (∃ next k', pickNext scheduleRounds spentTable = .ok (next, k') ∧ Selected spentTable k' next) ∧
      (selectTask (refreshCounters spentTable)).2 = 3 := by
  have hin : InBounds spentTable := by
    intro p _
    by_cases hp : p = .page 0x201000 <;> simp [spentTable, hp]
  exact ⟨schedule_selects hin ⟨.initTask, rfl, rfl⟩, by decide +kernel⟩

end OsdiKernel
