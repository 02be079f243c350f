import Mathlib.Data.Finset.Card
import Mathlib.Data.Finset.Image
import OsdiKernel.Sched.Sched

/-!
# What `_schedule` picks

The selection loop ends with a maximum of the runnable counters, the refresh
loop makes every counter positive, and so the outer loop ends after one refresh
at most. Nothing here needs the slots to hold different tasks.
-/

namespace OsdiKernel

variable {k k' : Kernel} {p q : TaskPtr}

/-- The task is in the table. -/
def InTable (k : Kernel) (p : TaskPtr) : Prop := ∃ i, i < taskSlots ∧ k.task i = some p

/-- The task is in the table, and runnable. -/
def Runnable (k : Kernel) (p : TaskPtr) : Prop := InTable k p ∧ (k.tasks p).state = .running

/-- Priorities and counters are where the arithmetic of `_schedule` is exact. -/
def InRange (k : Kernel) : Prop :=
  ∀ p, InTable k p → (1 ≤ (k.tasks p).priority ∧ (k.tasks p).priority ≤ 2 ^ 29) ∧
    0 ≤ (k.tasks p).counter ∧ (k.tasks p).counter ≤ 2 ^ 30

/-- The same, with counters below zero, where ticks can take them. -/
def InBounds (k : Kernel) : Prop :=
  ∀ p, InTable k p → (1 ≤ (k.tasks p).priority ∧ (k.tasks p).priority ≤ 2 ^ 29) ∧
    -2 ^ 30 ≤ (k.tasks p).counter ∧ (k.tasks p).counter ≤ 2 ^ 30

theorem InRange.inBounds (h : InRange k) : InBounds k := by
  intro p hp
  obtain ⟨hpr, h0, h1⟩ := h p hp
  exact ⟨hpr, by omega, h1⟩

/-! ## Selection -/

/--
What the loop has after the first `n` slots: nothing runnable with a counter of
zero or more, or the first runnable task of the largest counter.
-/
def Leads (k : Kernel) (n : Nat) (best : Int × Nat) : Prop :=
  (best = (-1, 0) ∧ ∀ i < n, ∀ p, k.task i = some p → (k.tasks p).state = .running → (k.tasks p).counter < 0) ∨
  (∃ p, best.2 < n ∧ k.task best.2 = some p ∧ (k.tasks p).state = .running ∧
    (k.tasks p).counter = best.1 ∧ 0 ≤ best.1 ∧
    ∀ i < n, ∀ q, k.task i = some q → (k.tasks q).state = .running →
      (k.tasks q).counter ≤ best.1 ∧ (i < best.2 → (k.tasks q).counter < best.1))

/-- One turn looks at one more slot. -/
theorem considerTask_leads (h : InBounds k) {n : Nat} (hn : n < taskSlots) {best : Int × Nat}
    (hb : Leads k n best) : Leads k (n + 1) (considerTask k best n) := by
  -- a slot that is passed over
  have hpass : (∀ q, k.task n = some q → (k.tasks q).state = .running → (k.tasks q).counter ≤ best.1) →
      Leads k (n + 1) best := by
    intro hle
    rcases hb with ⟨he, hneg⟩ | ⟨p, hlt, hp, hrun, hc, h0, hmax⟩
    · refine Or.inl ⟨he, fun i hi q hq hqr => ?_⟩
      rcases Nat.lt_succ_iff_lt_or_eq.mp hi with hi | rfl
      · exact hneg i hi q hq hqr
      · have := hle q hq hqr
        rw [he] at this
        omega
    · refine Or.inr ⟨p, Nat.lt_succ_of_lt hlt, hp, hrun, hc, h0, fun i hi q hq hqr => ?_⟩
      rcases Nat.lt_succ_iff_lt_or_eq.mp hi with hi | rfl
      · exact hmax i hi q hq hqr
      · exact ⟨hle q hq hqr, fun hlt' => absurd hlt' (by omega)⟩
  cases ht : k.task n with
  | none =>
      rw [show considerTask k best n = best by simp only [considerTask, ht]]
      exact hpass (fun q hq => absurd (ht.symm.trans hq) (by simp))
  | some p =>
      obtain ⟨_, h0, h1⟩ := h p ⟨n, hn, ht⟩
      by_cases hcond : (k.tasks p).state = .running ∧ (k.tasks p).counter > best.1
      · -- a larger counter
        have hstep : considerTask k best n = ((k.tasks p).counter, n) := by
          simp only [considerTask, ht, if_pos hcond, toInt_of_range (x := (k.tasks p).counter) (by omega) (by omega)]
        have hle : 0 ≤ (k.tasks p).counter ∧ ∀ i < n, ∀ q, k.task i = some q → (k.tasks q).state = .running →
            (k.tasks q).counter < (k.tasks p).counter := by
          rcases hb with ⟨he, hneg⟩ | ⟨_, _, _, _, _, hb0, hmax⟩
          · have hgt := hcond.2
            rw [he] at hgt
            exact ⟨by omega, fun i hi q hq hqr => by have := hneg i hi q hq hqr; omega⟩
          · refine ⟨by omega, fun i hi q hq hqr => ?_⟩
            exact Int.lt_of_le_of_lt (hmax i hi q hq hqr).1 hcond.2
        rw [hstep]
        refine Or.inr ⟨p, Nat.lt_succ_self n, ht, hcond.1, rfl, hle.1, fun i hi q hq hqr => ?_⟩
        rcases Nat.lt_succ_iff_lt_or_eq.mp hi with hi | rfl
        · have hlt := hle.2 i hi q hq hqr
          exact ⟨Int.le_of_lt hlt, fun _ => hlt⟩
        · rw [ht] at hq
          rw [← Option.some.inj hq]
          exact ⟨Int.le_refl _, fun hlt => absurd hlt (Nat.lt_irrefl _)⟩
      · rw [show considerTask k best n = best by simp only [considerTask, ht, if_neg hcond]]
        refine hpass (fun q hq hqr => ?_)
        rw [ht] at hq
        rw [← Option.some.inj hq] at hqr ⊢
        exact Int.not_lt.mp (fun hgt => hcond ⟨hqr, hgt⟩)

theorem selectTask_leads (h : InBounds k) :
    ∀ n, n ≤ taskSlots → Leads k n ((List.range n).foldl (considerTask k) (-1, 0))
  | 0, _ => Or.inl ⟨rfl, fun i hi => absurd hi (Nat.not_lt_zero i)⟩
  | n + 1, hn => by
      rw [List.range_succ, List.foldl_append, List.foldl_cons, List.foldl_nil]
      exact considerTask_leads h (by omega) (selectTask_leads h n (by omega))

/-- What the loop has after the slots `xs`: nothing runnable, or the largest counter so far. -/
def Best (k : Kernel) (xs : List Nat) (best : Int × Nat) : Prop :=
  (best = (-1, 0) ∧ ∀ i ∈ xs, ∀ p, k.task i = some p → (k.tasks p).state ≠ .running) ∨
  (∃ p, best.2 ∈ xs ∧ k.task best.2 = some p ∧ (k.tasks p).state = .running ∧
    (k.tasks p).counter = best.1 ∧
    ∀ i ∈ xs, ∀ q, k.task i = some q → (k.tasks q).state = .running → (k.tasks q).counter ≤ best.1)

theorem selectTask_turns (h : InRange k) {n : Nat} (hn : n ≤ taskSlots) :
    Best k (List.range n) ((List.range n).foldl (considerTask k) (-1, 0)) := by
  rcases selectTask_leads h.inBounds n hn with ⟨he, hneg⟩ | ⟨p, hlt, hp, hrun, hc, _, hmax⟩
  · refine Or.inl ⟨he, fun i hi p hp hrun => ?_⟩
    have hin := List.mem_range.mp hi
    have h1 := hneg i hin p hp hrun
    have h2 := (h p ⟨i, by omega, hp⟩).2.1
    omega
  · refine Or.inr ⟨p, List.mem_range.mpr hlt, hp, hrun, hc, fun i hi q hq hqr => ?_⟩
    exact (hmax i (List.mem_range.mp hi) q hq hqr).1

/-- **Selection** ends with a runnable task of the largest counter, if any task is runnable. -/
theorem selectTask_spec (h : InRange k) (hr : Runnable k q) :
    ∃ p, k.task (selectTask k).2 = some p ∧ Runnable k p ∧ (k.tasks p).counter = (selectTask k).1 ∧
      ∀ r, Runnable k r → (k.tasks r).counter ≤ (selectTask k).1 := by
  rcases selectTask_turns h (Nat.le_refl taskSlots) with ⟨_, hno⟩ | ⟨p, hm, hp, hrun, hc, hmax⟩
  · obtain ⟨⟨i, hi, ht⟩, hrun⟩ := hr
    exact absurd hrun (hno i (List.mem_range.mpr hi) q ht)
  · refine ⟨p, hp, ⟨⟨_, List.mem_range.mp hm, hp⟩, hrun⟩, hc, fun r hr' => ?_⟩
    obtain ⟨⟨i, hi, ht⟩, hrr⟩ := hr'
    exact hmax i (List.mem_range.mpr hi) r ht hrr

/-! ## Refreshing -/

/-- Only counters changed. -/
structure SameButCounters (k k' : Kernel) : Prop where
  mm : k'.mm = k.mm
  mem : k'.mem = k.mem
  task : k'.task = k.task
  current : k'.current = k.current
  nrTasks : k'.nrTasks = k.nrTasks
  tasks : ∀ p, k'.tasks p = { k.tasks p with counter := (k'.tasks p).counter }

namespace SameButCounters

theorem refl (k : Kernel) : SameButCounters k k := ⟨rfl, rfl, rfl, rfl, rfl, fun _ => rfl⟩

theorem trans {k'' : Kernel} (h : SameButCounters k k') (h' : SameButCounters k' k'') :
    SameButCounters k k'' :=
  ⟨h'.mm.trans h.mm, h'.mem.trans h.mem, h'.task.trans h.task, h'.current.trans h.current,
    h'.nrTasks.trans h.nrTasks, fun p => by rw [h'.tasks p, h.tasks p]⟩

theorem setCounter (k : Kernel) (p : TaskPtr) (f : Task → Int) :
    SameButCounters k (k.updateTask p (fun t => { t with counter := f t })) := by
  refine ⟨rfl, rfl, rfl, rfl, rfl, fun q => ?_⟩
  by_cases hq : q = p
  · subst hq; simp
  · rw [k.updateTask_ne p q _ hq]

theorem inTable (h : SameButCounters k k') : InTable k' p ↔ InTable k p := by
  unfold InTable
  rw [h.task]

theorem runnable (h : SameButCounters k k') : Runnable k' p ↔ Runnable k p := by
  unfold Runnable
  rw [h.inTable, h.tasks p]

theorem priority (h : SameButCounters k k') (p : TaskPtr) :
    (k'.tasks p).priority = (k.tasks p).priority := by rw [h.tasks p]

end SameButCounters

/-- A counter after one turn of the refresh loop. -/
def refreshed (priority c : Int) : Int := (c >>> (1 : Nat)) + priority

/-- In how many of the first `n` slots the task is. -/
def slotCount (k : Kernel) (p : TaskPtr) (n : Nat) : Nat := (List.range n).countP (fun i => k.task i = some p)

theorem slotCount_succ (k : Kernel) (p : TaskPtr) (n : Nat) :
    slotCount k p (n + 1) = slotCount k p n + if k.task n = some p then 1 else 0 := by
  unfold slotCount
  rw [List.range_succ, List.countP_append, List.countP_singleton]
  simp

/-- **Refreshing** changes counters only, and a task's once for each slot it is in. -/
theorem refreshCounters_turns (k : Kernel) : ∀ n, SameButCounters k ((List.range n).foldl refreshTask k) ∧
    ∀ p, (((List.range n).foldl refreshTask k).tasks p).counter
      = (refreshed (k.tasks p).priority)^[slotCount k p n] (k.tasks p).counter
  | 0 => ⟨SameButCounters.refl k, fun _ => rfl⟩
  | n + 1 => by
      obtain ⟨hs, hc⟩ := refreshCounters_turns k n
      rw [List.range_succ, List.foldl_append, List.foldl_cons, List.foldl_nil]
      generalize (List.range n).foldl refreshTask k = k₁ at hs hc
      cases ht : k.task n with
      | none =>
          rw [show refreshTask k₁ n = k₁ by simp only [refreshTask, hs.task, ht]]
          refine ⟨hs, fun p => ?_⟩
          rw [hc p, slotCount_succ, ht, if_neg (by simp), Nat.add_zero]
      | some q =>
          have hstep : refreshTask k₁ n
              = k₁.updateTask q (fun t => { t with counter := (t.counter >>> (1 : Nat)) + t.priority }) := by
            simp only [refreshTask, hs.task, ht]
          rw [hstep]
          refine ⟨hs.trans (.setCounter k₁ q (fun t => (t.counter >>> (1 : Nat)) + t.priority)), fun p => ?_⟩
          rw [slotCount_succ, ht]
          by_cases hpq : p = q
          · subst hpq
            rw [if_pos rfl, Function.iterate_succ_apply', ← hc p, k₁.updateTask_self, refreshed, hs.priority]
          · rw [if_neg (fun he => hpq (Option.some.inj he).symm), k₁.updateTask_ne q p _ hpq, hc p, Nat.add_zero]

theorem slotCount_pos {p : TaskPtr} (hp : InTable k p) : 0 < slotCount k p taskSlots := by
  obtain ⟨i, hi, ht⟩ := hp
  exact List.countP_pos_iff.mpr ⟨i, List.mem_range.mpr hi, by simpa using ht⟩

/-- What refreshing once keeps, refreshing keeps. -/
theorem refreshCounters_keeps {P : Int → Prop} (p : TaskPtr)
    (hstep : ∀ c, P c → P (refreshed (k.tasks p).priority c)) (h : P (k.tasks p).counter) :
    P ((refreshCounters k).tasks p).counter := by
  rw [show ((refreshCounters k).tasks p).counter = _ from (refreshCounters_turns k taskSlots).2 p]
  exact Function.Iterate.rec P h (fun c hc => hstep c hc) _

/-- And a task in the table is refreshed at least once. -/
theorem refreshCounters_last {P Q : Int → Prop} {p : TaskPtr} (hp : InTable k p)
    (hstep : ∀ c, P c → P (refreshed (k.tasks p).priority c)) (h : P (k.tasks p).counter)
    (hlast : ∀ c, P c → Q (refreshed (k.tasks p).priority c)) : Q ((refreshCounters k).tasks p).counter := by
  obtain ⟨n, hn⟩ : ∃ n, slotCount k p taskSlots = n + 1 := ⟨_, (Nat.succ_pred_eq_of_pos (slotCount_pos hp)).symm⟩
  rw [show ((refreshCounters k).tasks p).counter = _ from (refreshCounters_turns k taskSlots).2 p, hn,
    Function.iterate_succ_apply']
  exact hlast _ (Function.Iterate.rec P h (fun c hc => hstep c hc) n)

/-- A counter that is halved, and at most `2 ^ 29` added to it, stays in its range. -/
theorem refreshed_range {c pr : Int} (hp0 : 1 ≤ pr) (hp1 : pr ≤ 2 ^ 29) (h0 : 0 ≤ c) (h1 : c ≤ 2 ^ 30) :
    1 ≤ refreshed pr c ∧ refreshed pr c ≤ 2 ^ 30 := by
  rw [refreshed, Int.shiftRight_eq_div_pow]
  omega

/-- **Refreshing** keeps counters in range and makes every one of them positive. -/
theorem refreshCounters_spec (h : InRange k) :
    SameButCounters k (refreshCounters k) ∧ InRange (refreshCounters k) ∧
      ∀ p, InTable k p → 1 ≤ ((refreshCounters k).tasks p).counter := by
  have hs : SameButCounters k (refreshCounters k) := (refreshCounters_turns k taskSlots).1
  have hpos : ∀ p, InTable k p → 1 ≤ ((refreshCounters k).tasks p).counter ∧
      ((refreshCounters k).tasks p).counter ≤ 2 ^ 30 := by
    intro p hp
    obtain ⟨⟨hp0, hp1⟩, hc⟩ := h p hp
    refine refreshCounters_last (P := fun c => 0 ≤ c ∧ c ≤ 2 ^ 30) (Q := fun c => 1 ≤ c ∧ c ≤ 2 ^ 30) hp ?_ hc ?_
    · intro c hc
      have := refreshed_range hp0 hp1 hc.1 hc.2
      omega
    · exact fun c hc => refreshed_range hp0 hp1 hc.1 hc.2
  refine ⟨hs, fun p hp => ?_, fun p hp => (hpos p hp).1⟩
  have hp' := hs.inTable.mp hp
  have := hpos p hp'
  rw [hs.priority]
  exact ⟨(h p hp').1, by omega, this.2⟩

/-! ## The outer loop -/

/-- What `_schedule` picks: `p`, of the largest counter, after a refresh if there was nothing to pick. -/
structure Picked (k k' : Kernel) (next : Nat) (p : TaskPtr) : Prop where
  slot : k'.task next = some p
  runnable : Runnable k' p
  positive : 1 ≤ (k'.tasks p).counter
  range : InRange k'
  same : SameButCounters k k'
  source : ((selectTask k).1 ≠ 0 ∧ k' = k) ∨
    ((selectTask k).1 = 0 ∧ k' = refreshCounters k ∧ ∀ q, Runnable k q → (k.tasks q).counter = 0)

/-- **The outer loop ends**, after one refresh at most, with a runnable task. -/
theorem pickNext_spec (h : InRange k) (hr : Runnable k q) :
    ∃ next k' p, pickNext scheduleRounds k = .ok (next, k') ∧ Picked k k' next p := by
  obtain ⟨p, hp, hrun, hc, hmax⟩ := selectTask_spec h hr
  have hnn := (h p hrun.1).2.1
  by_cases hz : (selectTask k).1 = 0
  · obtain ⟨hs, hrange, hpos⟩ := refreshCounters_spec h
    have hr' : Runnable (refreshCounters k) q := hs.runnable.mpr hr
    obtain ⟨p', hp', hrun', hc', hmax'⟩ := selectTask_spec hrange hr'
    have hone : 1 ≤ ((refreshCounters k).tasks p').counter := hpos p' (hs.inTable.mp hrun'.1)
    have hz' : (selectTask (refreshCounters k)).1 ≠ 0 := by omega
    refine ⟨_, refreshCounters k, p', ?_, hp', hrun', hone, hrange, hs, Or.inr ⟨hz, rfl, fun r hr => ?_⟩⟩
    · simp only [scheduleRounds, pickNext]
      rw [if_neg (not_not.mpr hz), if_pos hz']
    · have h1 := hmax r hr
      have h2 := (h r hr.1).2.1
      omega
  · refine ⟨_, k, p, ?_, hp, hrun, by omega, h, SameButCounters.refl k, Or.inl ⟨hz, rfl⟩⟩
    simp only [scheduleRounds, pickNext]
    rw [if_pos hz]

end OsdiKernel
