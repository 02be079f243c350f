import Mathlib.Algebra.BigOperators.Intervals
import OsdiKernel.Lib.Credits
import OsdiKernel.Sched.Fairness
import OsdiKernel.Sched.Selection

/-!
# Shares of the processor

Tasks that do nothing but compute, and a timer that ticks. A tick takes one from
the counter of the current task, `task_preemption` leaves the task alone until
nothing is left, and a refresh sets every counter that is zero to the task's
priority. That is turns by credit, with the priority for a weight: in any stretch
of as many ticks as all priorities make together, a task runs for exactly its own.
-/

namespace OsdiKernel

open Credits

variable {k k' k₀ κ : Kernel} {p q : TaskPtr}

/-- A tick of the timer, as far as the scheduler is concerned. -/
def tickOnce (k : Kernel) : Except Fault Kernel := taskPreemption (timerTick k)

/-- Between two ticks: the current task is in no section, and those that wait left in one. -/
structure Ticking (k : Kernel) : Prop where
  range : InRange k
  current : Runnable k k.current
  paid : 1 ≤ (k.tasks k.current).counter
  once : ∀ i j p, k.task i = some p → k.task j = some p → i = j
  here : (k.tasks k.current).preemptCount = 0
  elsewhere : ∀ p, Runnable k p → p ≠ k.current → (k.tasks p).preemptCount = 1

/-- The tasks that were runnable at the start. -/
abbrev Sharer (k₀ : Kernel) : Type := ↥(runnableSet k₀)

/-- A task's weight is its priority. -/
def weight (k₀ : Kernel) (p : Sharer k₀) : Nat := (k₀.tasks p).priority.toNat

/-- The table with other counters. -/
def withCredits (k₀ : Kernel) (c : Sharer k₀ → Nat) : Kernel :=
  { k₀ with
    tasks := fun p => if h : p ∈ runnableSet k₀ then { k₀.tasks p with counter := (min (c ⟨p, h⟩) (2 ^ 30) : Nat) }
      else k₀.tasks p }

/-- The one `_schedule` picks when the counters are these. -/
def pickTask (k₀ : Kernel) (h₀ : Runnable k₀ k₀.current) (c : Sharer k₀ → Nat) : Sharer k₀ :=
  match k₀.task (selectTask (withCredits k₀ c)).2 with
  | none => ⟨k₀.current, mem_runnableSet.mpr h₀⟩
  | some p => if h : p ∈ runnableSet k₀ then ⟨p, h⟩ else ⟨k₀.current, mem_runnableSet.mpr h₀⟩

/-! ## Selection by the counters alone -/

/-- Same table, same states. -/
structure SameTable (k₀ k : Kernel) : Prop where
  task : k.task = k₀.task
  state : ∀ p, (k.tasks p).state = (k₀.tasks p).state
  priority : ∀ p, (k.tasks p).priority = (k₀.tasks p).priority

namespace SameTable

theorem refl (k : Kernel) : SameTable k k := ⟨rfl, fun _ => rfl, fun _ => rfl⟩

theorem inTable (h : SameTable k₀ k) : InTable k p ↔ InTable k₀ p := by
  unfold InTable
  rw [h.task]

theorem runnable (h : SameTable k₀ k) : Runnable k p ↔ Runnable k₀ p := by
  unfold Runnable
  rw [h.inTable, h.state]

theorem trans_only (h : SameTable k₀ k) (ho : OnlySched k k') : SameTable k₀ k' where
  task := ho.task.trans h.task
  state := fun p => (ho.state p).trans (h.state p)
  priority := fun p => by rw [ho.tasks p, ← h.priority p]

end SameTable

theorem selectTask_congr (h : SameTable k₀ k) (hc : ∀ p, Runnable k₀ p → (k.tasks p).counter = (k₀.tasks p).counter) :
    selectTask k = selectTask k₀ := by
  unfold selectTask
  refine List.foldl_ext _ _ _ (fun best i hi => ?_)
  have hi64 := List.mem_range.mp hi
  unfold considerTask
  rw [h.task]
  cases ht : k₀.task i with
  | none => rfl
  | some p =>
      simp only [h.state p]
      by_cases hrun : (k₀.tasks p).state = .running
      · rw [hc p ⟨⟨i, hi64, ht⟩, hrun⟩]
      · simp [hrun]

theorem withCredits_same (k₀ : Kernel) (c : Sharer k₀ → Nat) : SameTable k₀ (withCredits k₀ c) := by
  have hfields : ∀ p, ((withCredits k₀ c).tasks p).state = (k₀.tasks p).state ∧
      ((withCredits k₀ c).tasks p).priority = (k₀.tasks p).priority := by
    intro p
    simp only [withCredits]
    by_cases h : p ∈ runnableSet k₀
    · rw [dif_pos h]
      exact ⟨rfl, rfl⟩
    · rw [dif_neg h]
      exact ⟨rfl, rfl⟩
  exact ⟨rfl, fun p => (hfields p).1, fun p => (hfields p).2⟩

theorem withCredits_counter (c : Sharer k₀ → Nat) (p : Sharer k₀) :
    ((withCredits k₀ c).tasks p).counter = (min (c p) (2 ^ 30) : Nat) := by
  simp only [withCredits]
  rw [dif_pos p.2]

theorem withCredits_range (h : InRange k₀) (c : Sharer k₀ → Nat) : InRange (withCredits k₀ c) := by
  intro p hp
  have hp₀ := (withCredits_same k₀ c).inTable.mp hp
  obtain ⟨hpr, hcount⟩ := h p hp₀
  rw [(withCredits_same k₀ c).priority]
  refine ⟨hpr, ?_⟩
  by_cases hr : p ∈ runnableSet k₀
  · rw [withCredits_counter c ⟨p, hr⟩]
    omega
  · simp only [withCredits]
    rw [dif_neg hr]
    exact hcount

/-- **The pick** is one the selection loop makes, in every table with these counters. -/
theorem pickTask_eq (h₀ : Runnable k₀ k₀.current) {c : Sharer k₀ → Nat} (h : SameTable k₀ κ)
    (hc : ∀ p : Sharer k₀, (κ.tasks p).counter = c p) (hle : ∀ p, c p ≤ 2 ^ 30) (hsel : κ.task (selectTask κ).2 = some p)
    (hp : Runnable k₀ p) : (pickTask k₀ h₀ c : TaskPtr) = p := by
  have hsame : selectTask κ = selectTask (withCredits k₀ c) := by
    have hback := withCredits_same k₀ c
    refine selectTask_congr ⟨h.task.trans hback.task.symm, fun q => (h.state q).trans (hback.state q).symm,
      fun q => (h.priority q).trans (hback.priority q).symm⟩ (fun q hq => ?_)
    have hq₀ : q ∈ runnableSet k₀ := mem_runnableSet.mpr (hback.runnable.mp hq)
    rw [hc ⟨q, hq₀⟩, withCredits_counter c ⟨q, hq₀⟩, Nat.min_eq_left (hle _)]
  rw [h.task, hsame] at hsel
  unfold pickTask
  rw [hsel]
  simp only [dif_pos (mem_runnableSet.mpr hp)]

theorem pickTask_sound (h₀ : Runnable k₀ k₀.current) (hr : InRange k₀) : Credits.Sound (pickTask k₀ h₀) := by
  intro c hpos
  obtain ⟨q, hq⟩ := hpos
  have hback := withCredits_same k₀ c
  have hrunq : Runnable (withCredits k₀ c) q := hback.runnable.mpr (mem_runnableSet.mp q.2)
  obtain ⟨p, hp, hrun, hmax, hle⟩ := selectTask_spec (withCredits_range hr c) hrunq
  have hp₀ := hback.runnable.mp hrun
  have hpick : pickTask k₀ h₀ c = ⟨p, mem_runnableSet.mpr hp₀⟩ := by
    rw [hback.task] at hp
    unfold pickTask
    rw [hp]
    simp only [dif_pos (mem_runnableSet.mpr hp₀)]
  have hcq := hle q hrunq
  rw [withCredits_counter, ← hmax, withCredits_counter c ⟨p, mem_runnableSet.mpr hp₀⟩] at hcq
  rw [hpick]
  omega

/-! ## One tick -/

/-- A switch as such: it leaves the caller's section open and closes the one of the task it goes to. -/
theorem schedule_counts {k₁ : Kernel} {next : Nat} (hrun : pickNext scheduleRounds (scheduleStart k) = .ok (next, k₁))
    (hslot : k₁.task next = some p) (hs : SameButCounters (scheduleStart k) k₁) (hr : InRange k₁) :
    ∃ k', schedule k = .ok k' ∧ k'.current = p ∧ OnlySched k k' ∧ InRange k' ∧
      (∀ q, (k'.tasks q).counter = (k₁.tasks q).counter) ∧
      ∀ q, (k'.tasks q).preemptCount
        = (k.tasks q).preemptCount + (if q = k.current then 1 else 0) - (if q = p then 1 else 0) := by
  obtain ⟨k', hsched, hcur, honly, hrange, hcount⟩ := schedule_of_pick hrun hslot hs hr
  refine ⟨k', hsched, hcur, honly, hrange, hcount, fun q => ?_⟩
  have hk' : k' = preemptEnable (switchTo k₁ p) := by
    have heq : schedule k = .ok (preemptEnable (switchTo k₁ p)) := by
      show scheduleInner _ = _
      simp only [scheduleInner]
      rw [show preemptDisable (k.updateTask k.current fun t => { t with counter := 0 }) = scheduleStart k from rfl, hrun, ok_bind]
      simp only [hslot]
    exact Except.ok.inj (hsched.symm.trans heq)
  have hsw : (switchTo k₁ p).current = p ∧ (switchTo k₁ p).tasks = k₁.tasks := by
    unfold switchTo
    by_cases hc : k₁.current = p
    · rw [if_pos hc]; exact ⟨hc, rfl⟩
    · rw [if_neg hc]; exact ⟨rfl, rfl⟩
  -- what the caller's section adds
  have hstart : (k₁.tasks q).preemptCount = (k.tasks q).preemptCount + if q = k.current then 1 else 0 := by
    rw [hs.tasks q]
    show ((scheduleStart k).tasks q).preemptCount = _
    rw [scheduleStart, preemptDisable]
    by_cases hq : q = k.current
    · subst hq
      simp
    · rw [if_neg hq, Kernel.updateTask_ne _ _ _ _ (show q ≠ (k.updateTask k.current _).current from hq),
        k.updateTask_ne _ q _ hq, add_zero]
  rw [hk', preemptEnable, hsw.1]
  by_cases hq : q = p
  · subst hq
    rw [Kernel.updateTask_self, if_pos rfl, ← hstart, hsw.2]
  · rw [Kernel.updateTask_ne _ _ _ _ hq, if_neg hq, hsw.2, hstart, sub_zero]

/-- The kernel has the credits. -/
structure Views (k₀ k : Kernel) (s : Credits (Sharer k₀)) : Prop where
  same : SameTable k₀ k
  counter : ∀ p : Sharer k₀, (k.tasks p).counter = s.credit p
  current : k.current = s.current

variable {s : Credits (Sharer k₀)}

/-- What the tick leaves the current task, and what there is then. -/
theorem timerTick_counter (hk : Ticking k) (hv : Views k₀ k s) :
    (∀ p : Sharer k₀, ((timerTick k).tasks p).counter = s.spend p) ∧ SameTable k₀ (timerTick k) ∧
      ∀ p, ((timerTick k).tasks p).preemptCount = (k.tasks p).preemptCount := by
  have hsame : SameButCounters k (timerTick k) := .setCounter k _ (fun t => t.counter - 1)
  refine ⟨fun p => ?_, ⟨hsame.task.trans hv.same.task, fun p => ?_, fun p => ?_⟩, fun p => ?_⟩
  · have hpaid := hk.paid
    have hcur := hv.counter s.current
    rw [hv.current] at hpaid
    by_cases hp : p = s.current
    · subst hp
      rw [timerTick, hv.current, Kernel.updateTask_self, spend, Function.update_self]
      show (k.tasks s.current).counter - 1 = _
      omega
    · have hne : (p : TaskPtr) ≠ k.current := by
        rw [hv.current]
        exact fun he => hp (Subtype.ext he)
      rw [timerTick, Kernel.updateTask_ne _ _ _ _ hne, spend, Function.update_of_ne hp, hv.counter]
  · rw [hsame.tasks p, ← hv.same.state p]
  · rw [hsame.tasks p, ← hv.same.priority p]
  · rw [hsame.tasks p]

/-- After a refresh of a table where every runnable counter was zero, they are the weights. -/
theorem refreshed_weight (honce : ∀ i j p, κ.task i = some p → κ.task j = some p → i = j) (h : SameTable k₀ κ)
    (hr : InRange κ) (p : Sharer k₀) (hzero : (κ.tasks p).counter = 0) :
    ((refreshCounters κ).tasks p).counter = weight k₀ p := by
  obtain ⟨i, hi, hp⟩ := (h.runnable.mpr (mem_runnableSet.mp p.2)).1
  have hone := slotCount_one hi hp (fun j hj => honce j i p hj hp)
  rw [show ((refreshCounters κ).tasks p).counter = _ from (refreshCounters_turns κ taskSlots).2 p, hone, Function.iterate_one,
    hzero, refreshed, h.priority]
  have hpos := (hr p ⟨i, hi, hp⟩).1.1
  rw [h.priority] at hpos
  rw [weight, Int.toNat_of_nonneg (by omega), Int.zero_shiftRight, zero_add]

/-- What the loop of `_schedule` does when the current task has nothing left. -/
theorem pick_simulates (h₀ : Runnable k₀ k₀.current) (h : SameTable k₀ κ) (hr : InRange κ)
    (honce : ∀ i j p, κ.task i = some p → κ.task j = some p → i = j) {c : Sharer k₀ → Nat}
    (hc : ∀ p : Sharer k₀, (κ.tasks p).counter = c p) :
    ∃ next κ' p c', pickNext scheduleRounds κ = .ok (next, κ') ∧ κ'.task next = some p ∧ SameButCounters κ κ' ∧
      InRange κ' ∧ Runnable k₀ p ∧ 1 ≤ (κ'.tasks p).counter ∧ (∀ q : Sharer k₀, (κ'.tasks q).counter = c' q) ∧
      (pickTask k₀ h₀ c' : TaskPtr) = p ∧ c' = if ∃ q, 0 < c q then c else weight k₀ := by
  have hrun₀ : Runnable κ k₀.current := h.runnable.mpr h₀
  have hle : ∀ (κ' : Kernel) (c' : Sharer k₀ → Nat), SameTable k₀ κ' → InRange κ' →
      (∀ q : Sharer k₀, (κ'.tasks q).counter = c' q) → ∀ q, c' q ≤ 2 ^ 30 := by
    intro κ' c' hs hrange hc' q
    have hq := (hrange q (hs.runnable.mpr (mem_runnableSet.mp q.2)).1).2.2
    rw [hc' q] at hq
    omega
  obtain ⟨p, hp, hrun, hmax, hall⟩ := selectTask_spec hr hrun₀
  by_cases hpos : ∃ q, 0 < c q
  · -- somebody has credit
    obtain ⟨q, hq⟩ := hpos
    have hqc := hall q (h.runnable.mpr (mem_runnableSet.mp q.2))
    rw [hc q] at hqc
    have hp₀ := h.runnable.mp hrun
    exact ⟨_, κ, p, c, pickNext_now (by omega), hp, SameButCounters.refl κ, hr, hp₀, by omega, hc,
      pickTask_eq h₀ h hc (hle κ c h hr hc) hp hp₀, (if_pos ⟨q, hq⟩).symm⟩
  · -- nobody has: the counters are refreshed
    have hzero : ∀ q : Sharer k₀, (κ.tasks q).counter = 0 := by
      intro q
      rw [hc q]
      have hq : ¬ 0 < c q := fun hq => hpos ⟨q, hq⟩
      omega
    obtain ⟨hs, hrange, hone⟩ := refreshCounters_spec hr
    have hrun' : Runnable (refreshCounters κ) k₀.current := hs.runnable.mpr hrun₀
    obtain ⟨p', hp', hrunp, hmax', hall'⟩ := selectTask_spec hrange hrun'
    have hweight : ∀ q : Sharer k₀, ((refreshCounters κ).tasks q).counter = weight k₀ q :=
      fun q => refreshed_weight honce h hr q (hzero q)
    have hpz : (κ.tasks p).counter = 0 := hzero ⟨p, mem_runnableSet.mpr (h.runnable.mp hrun)⟩
    have hp1 : 1 ≤ ((refreshCounters κ).tasks p').counter := hone p' (hs.inTable.mp hrunp.1)
    have h' : SameTable k₀ (refreshCounters κ) := h.trans_only (.of_sameButCounters hs)
    have hp₀ := h'.runnable.mp hrunp
    exact ⟨_, refreshCounters κ, p', weight k₀, pickNext_refreshed (by omega) (by omega), hp', hs, hrange, hp₀, hp1,
      hweight, pickTask_eq h₀ h' hweight (hle _ _ h' hrange hweight) hp' hp₀, (if_neg hpos).symm⟩

/-- Credits are counters, so they are in range too. -/
theorem spend_le (hk : Ticking k) (hv : Views k₀ k s) (p : Sharer k₀) : s.spend p ≤ 2 ^ 30 := by
  have hp := (hv.same.runnable.mpr (mem_runnableSet.mp p.2)).1
  have hc := (hk.range p hp).2.2
  rw [hv.counter p] at hc
  have hless : s.spend p ≤ s.credit p := by
    by_cases hps : p = s.current
    · subst hps
      rw [spend, Function.update_self]
      omega
    · rw [spend, Function.update_of_ne hps]
  omega

/-- What `task_preemption` looks at. -/
theorem timerTick_current (hk : Ticking k) (hv : Views k₀ k s) :
    (timerTick k).cur.counter = s.spend s.current ∧ (timerTick k).cur.preemptCount = 0 := by
  obtain ⟨hcounter, _, hcount⟩ := timerTick_counter hk hv
  have hbut : SameButCounters k (timerTick k) := .setCounter k _ (fun t => t.counter - 1)
  rw [Kernel.cur, hcount, hbut.current]
  refine ⟨?_, hk.here⟩
  rw [hv.current]
  exact hcounter s.current

/-- A tick that leaves the current task something. -/
theorem tick_goesOn (h₀ : Runnable k₀ k₀.current) (hk : Ticking k) (hv : Views k₀ k s) (hmore : 0 < s.spend s.current) :
    ∃ k', tickOnce k = .ok k' ∧ Ticking k' ∧ Views k₀ k' (tick (weight k₀) (pickTask k₀ h₀) s) := by
  obtain ⟨hcounter, hsame, hcount⟩ := timerTick_counter hk hv
  obtain ⟨hcur, hpre⟩ := timerTick_current hk hv
  have hbut : SameButCounters k (timerTick k) := .setCounter k _ (fun t => t.counter - 1)
  refine ⟨timerTick k, ?_, ⟨?_, ?_, ?_, ?_, hpre, ?_⟩, ?_⟩
  · rw [tickOnce, taskPreemption, if_pos (Or.inl (by omega))]
  · intro p hp
    obtain ⟨hpr, h1, h2⟩ := hk.range p (hbut.inTable.mp hp)
    rw [hbut.priority]
    refine ⟨hpr, ?_⟩
    by_cases hps : p = k.current
    · subst hps
      have hself : ((timerTick k).tasks k.current).counter = s.spend s.current := by
        rw [← hcur, Kernel.cur, hbut.current]
      have hbound := spend_le hk hv s.current
      omega
    · rw [timerTick, Kernel.updateTask_ne _ _ _ _ hps]
      exact ⟨h1, h2⟩
  · rw [hbut.current, hbut.runnable]
    exact hk.current
  · rw [← Kernel.cur, hcur]
    omega
  · rw [hbut.task]
    exact hk.once
  · intro p hp hne
    rw [hbut.current] at hne
    rw [hcount]
    exact hk.elsewhere p (hbut.runnable.mp hp) hne
  · rw [tick, if_pos hmore]
    exact ⟨hsame, hcounter, hbut.current.trans hv.current⟩

/-- The table `_schedule` begins with, when the turn of the current task is over. -/
theorem scheduleStart_spent (hk : Ticking k) (hv : Views k₀ k s) (hspent : s.spend s.current = 0) :
    InRange (scheduleStart (timerTick k)) ∧
      ∀ p : Sharer k₀, ((scheduleStart (timerTick k)).tasks p).counter = s.spend p := by
  obtain ⟨hcounter, _, _⟩ := timerTick_counter hk hv
  have hbut : SameButCounters k (timerTick k) := .setCounter k _ (fun t => t.counter - 1)
  refine ⟨scheduleStart_range (fun p hp => ?_), fun p => ?_⟩
  · obtain ⟨hpr, hc⟩ := hk.range p (hbut.inTable.mp hp)
    rw [hbut.priority]
    refine ⟨hpr, fun hne => ?_⟩
    rw [hbut.current] at hne
    rw [timerTick, Kernel.updateTask_ne _ _ _ _ hne]
    exact hc
  · rw [(scheduleStart_fields (timerTick k) p).2.2]
    by_cases hp : (p : TaskPtr) = (timerTick k).current
    · rw [if_pos hp]
      have hps : p = s.current := Subtype.ext (hp.trans (hbut.current.trans hv.current))
      rw [hps, hspent]
      rfl
    · rw [if_neg hp]
      exact hcounter p

/-- A tick that leaves it nothing. -/
theorem tick_turnOver (h₀ : Runnable k₀ k₀.current) (hk : Ticking k) (hv : Views k₀ k s) (hspent : s.spend s.current = 0) :
    ∃ k', tickOnce k = .ok k' ∧ Ticking k' ∧ Views k₀ k' (tick (weight k₀) (pickTask k₀ h₀) s) := by
  obtain ⟨_, hsame, hcount⟩ := timerTick_counter hk hv
  obtain ⟨hcur, hpre⟩ := timerTick_current hk hv
  have hbut : SameButCounters k (timerTick k) := .setCounter k _ (fun t => t.counter - 1)
  have hrun : tickOnce k = schedule (timerTick k) := by
    rw [tickOnce, taskPreemption, if_neg (by omega)]
    rfl
  have hstart := hsame.trans_only (scheduleStart_only (timerTick k))
  obtain ⟨hstartR, hstartC⟩ := scheduleStart_spent hk hv hspent
  obtain ⟨next, κ', p, c', hpick, hslot, hbutP, hrangeP, hp₀, hpos, hc', hpeq, hif⟩ :=
    pick_simulates h₀ hstart hstartR (fun i j q hi hj => hk.once i j q (hbut.task ▸ hi) (hbut.task ▸ hj)) hstartC
  obtain ⟨k', hsched, hcurrent', honly', hrange', hcount', hpre'⟩ := schedule_counts hpick hslot hbutP hrangeP
  have htick : tick (weight k₀) (pickTask k₀ h₀) s = ⟨c', pickTask k₀ h₀ c'⟩ := by
    rw [tick, if_neg (by omega), hif]
    by_cases hany : ∃ q, 0 < s.spend q
    · rw [if_pos hany, if_pos hany]
    · rw [if_neg hany, if_neg hany, fresh]
  have hsame' := hsame.trans_only honly'
  -- between a tick and the next one, whoever waits left in one section
  have hsections : ∀ q, Runnable k₀ q →
      (k.tasks q).preemptCount + (if q = (timerTick k).current then 1 else 0) = 1 := by
    intro q hq
    by_cases hqc : q = (timerTick k).current
    · rw [if_pos hqc, hqc, hbut.current, hk.here]
      rfl
    · rw [if_neg hqc, hk.elsewhere q (hv.same.runnable.mpr hq) (by rw [← hbut.current]; exact hqc)]
      rfl
  refine ⟨k', hrun.trans hsched, ⟨hrange', ?_, ?_, ?_, ?_, ?_⟩, ?_⟩
  · rw [hcurrent']
    exact hsame'.runnable.mpr hp₀
  · rw [hcurrent', hcount']
    exact hpos
  · rw [hsame'.task, ← hv.same.task]
    exact hk.once
  · rw [hcurrent', hpre', hcount, if_pos rfl, hsections p hp₀]
    rfl
  · intro q hq hne
    rw [hcurrent'] at hne
    rw [hpre', hcount, if_neg hne, sub_zero, hsections q (hsame'.runnable.mp hq)]
  · rw [htick]
    exact ⟨hsame', fun q => (hcount' q).trans (hc' q), hcurrent'.trans hpeq.symm⟩

/-- **One tick** is one tick of the credits. -/
theorem tick_simulates (h₀ : Runnable k₀ k₀.current) (hk : Ticking k) (hv : Views k₀ k s) :
    ∃ k', tickOnce k = .ok k' ∧ Ticking k' ∧ Views k₀ k' (tick (weight k₀) (pickTask k₀ h₀) s) := by
  rcases Nat.eq_zero_or_pos (s.spend s.current) with hspent | hmore
  · exact tick_turnOver h₀ hk hv hspent
  · exact tick_goesOn h₀ hk hv hmore

/-! ## Many ticks -/

/-- Nothing the scheduler looks at has changed, sections included. -/
structure SameTurn (k k' : Kernel) : Prop where
  sched : SameSched k k'
  preemptCount : ∀ p, (k'.tasks p).preemptCount = (k.tasks p).preemptCount

/-- `N` ticks, from `k i` to `k' i`, with tasks that do nothing but compute in between. -/
structure Ticks (N : Nat) (k k' : Nat → Kernel) : Prop where
  tick : ∀ i, i < N → tickOnce (k i) = .ok (k' i)
  between : ∀ i, i + 1 < N → SameTurn (k' i) (k (i + 1))

theorem SameTurn.ticking (h : SameTurn k k') (hk : Ticking k) : Ticking k' where
  range := h.sched.inRange hk.range
  current := by
    rw [h.sched.current, h.sched.runnable]
    exact hk.current
  paid := by
    rw [h.sched.current, (h.sched.fields _).2.1]
    exact hk.paid
  once := by
    rw [h.sched.task]
    exact hk.once
  here := by
    rw [h.sched.current, h.preemptCount]
    exact hk.here
  elsewhere := by
    intro p hp hne
    rw [h.sched.current] at hne
    rw [h.preemptCount]
    exact hk.elsewhere p (h.sched.runnable.mp hp) hne

theorem SameTurn.views (h : SameTurn k k') (hv : Views k₀ k s) : Views k₀ k' s where
  same := ⟨h.sched.task.trans hv.same.task, fun p => (h.sched.fields p).1.trans (hv.same.state p),
    fun p => (h.sched.fields p).2.2.trans (hv.same.priority p)⟩
  counter := fun p => (h.sched.fields p).2.1.trans (hv.counter p)
  current := h.sched.current.trans hv.current

section Ticks

variable {N : Nat} {k k' : Nat → Kernel}

/-- The credits at the start. -/
def credits (k₀ : Kernel) (h₀ : Runnable k₀ k₀.current) : Credits (Sharer k₀) :=
  ⟨fun p => (k₀.tasks p).counter.toNat, ⟨k₀.current, mem_runnableSet.mpr h₀⟩⟩

theorem views_credits (hk : Ticking k₀) : Views k₀ k₀ (credits k₀ hk.current) where
  same := SameTable.refl k₀
  counter := fun p => (Int.toNat_of_nonneg (hk.range p (mem_runnableSet.mp p.2).1).2.1).symm
  current := rfl

/-- **Run lemma**: tick after tick. -/
theorem Ticks.views (ht : Ticks N k k') (hk : Ticking (k 0)) : ∀ i, i < N →
    Ticking (k i) ∧ Views (k 0) (k i) ((Credits.tick (weight (k 0)) (pickTask (k 0) hk.current))^[i] (credits (k 0) hk.current))
  | 0, _ => ⟨hk, views_credits hk⟩
  | i + 1, hi => by
      obtain ⟨hki, hvi⟩ := ht.views hk i (by omega)
      obtain ⟨κ, hrun, hκ, hvκ⟩ := tick_simulates hk.current hki hvi
      obtain rfl := Except.ok.inj (hrun.symm.trans (ht.tick i (by omega)))
      have hbetween := ht.between i hi
      rw [Function.iterate_succ_apply']
      exact ⟨hbetween.ticking hκ, hbetween.views hvκ⟩

/-- The ticks from the `a`th and before the `b`th that find `p` running. -/
def ticksOf (k : Nat → Kernel) (p : TaskPtr) (a b : Nat) : Nat :=
  ((Finset.Ico a b).filter fun i => (k i).current = p).card

theorem ticksOf_add (p : TaskPtr) {a b c : Nat} (hab : a ≤ b) (hbc : b ≤ c) :
    ticksOf k p a c = ticksOf k p a b + ticksOf k p b c := by
  simp only [ticksOf, Finset.card_filter]
  exact (Finset.sum_Ico_consecutive _ hab hbc).symm

theorem ticksOf_le (p : TaskPtr) (a b : Nat) : ticksOf k p a b ≤ b - a :=
  (Finset.card_filter_le _ _).trans_eq (Nat.card_Ico a b)

/-- The counters of all runnable tasks. -/
def allCounters (k : Kernel) : Nat := ∑ q ∈ runnableSet k, (k.tasks q).counter.toNat

/-- Their priorities. -/
def allPriorities (k : Kernel) : Nat := ∑ q ∈ runnableSet k, (k.tasks q).priority.toNat

theorem Ticking.allPriorities_pos (hk : Ticking k₀) : 0 < allPriorities k₀ :=
  Finset.sum_pos' (fun _ _ => Nat.zero_le _)
    ⟨_, mem_runnableSet.mpr hk.current, by have := (hk.range _ hk.current.1).1; omega⟩

/-- **A round**, once the counters of the beginning are used up. -/
theorem Ticks.round (ht : Ticks N k k') (hk : Ticking (k 0)) (hp : Runnable (k 0) p) {t : Nat}
    (hstart : allCounters (k 0) ≤ t) (hN : t + allPriorities (k 0) ≤ N) :
    ticksOf k p t (t + allPriorities (k 0)) = ((k 0).tasks p).priority.toNat := by
  have hpm := mem_runnableSet.mpr hp
  have htotal : total (weight (k 0)) = allPriorities (k 0) :=
    Finset.sum_coe_sort (runnableSet (k 0)) fun q => ((k 0).tasks q).priority.toNat
  have hcredits : total (credits (k 0) hk.current).credit = allCounters (k 0) :=
    Finset.sum_coe_sort (runnableSet (k 0)) fun q => ((k 0).tasks q).counter.toNat
  have hpr := (hk.range p hp.1).1
  have hweight : 0 < total (weight (k 0)) := total_pos.mpr ⟨⟨p, hpm⟩, show 0 < ((k 0).tasks p).priority.toNat by omega⟩
  have hlive : 0 < (credits (k 0) hk.current).credit (credits (k 0) hk.current).current := by
    have hpaid := hk.paid
    show 0 < ((k 0).tasks (k 0).current).counter.toNat
    omega
  rw [← htotal] at hN ⊢
  have hwin := window (pickTask_sound hk.current hk.range) hweight hlive (t := t) (by rw [hcredits]; exact hstart) ⟨p, hpm⟩
  have hfilter : (Finset.Ico t (t + total (weight (k 0)))).filter (fun i => (k i).current = p)
      = (Finset.Ico t (t + total (weight (k 0)))).filter (fun i => ((Credits.tick (weight (k 0)) (pickTask (k 0) hk.current))^[i]
        (credits (k 0) hk.current)).current = ⟨p, hpm⟩) := by
    refine Finset.filter_congr (fun i hi => ?_)
    have hiN := (Finset.mem_Ico.mp hi).2
    rw [((ht.views hk i (by omega)).2).current]
    exact ⟨fun he => Subtype.ext he, fun he => congrArg Subtype.val he⟩
  rw [ticksOf, hfilter, hwin]
  rfl

/-- Round after round. -/
theorem Ticks.rounds (ht : Ticks N k k') (hk : Ticking (k 0)) (hp : Runnable (k 0) p) (m : Nat)
    (hN : allCounters (k 0) + m * allPriorities (k 0) ≤ N) :
    ticksOf k p (allCounters (k 0)) (allCounters (k 0) + m * allPriorities (k 0)) = m * ((k 0).tasks p).priority.toNat := by
  induction m with
  | zero =>
      rw [zero_mul, zero_mul, add_zero, ticksOf, Finset.Ico_self]
      rfl
  | succ m ih =>
      rw [Nat.succ_mul, ← Nat.add_assoc] at hN ⊢
      rw [ticksOf_add p (Nat.le_add_right _ (m * allPriorities (k 0))) (Nat.le_add_right _ _), ih (by omega),
        ht.round hk hp (Nat.le_add_right _ _) hN, Nat.succ_mul]

/-- In the whole run, rounds apart, there are the ticks before the first, and those of one that is not over yet. -/
theorem Ticks.bounds (ht : Ticks N k k') (hk : Ticking (k 0)) : ∃ m, ∀ p, Runnable (k 0) p →
    m * ((k 0).tasks p).priority.toNat ≤ ticksOf k p 0 N ∧
    ticksOf k p 0 N ≤ m * ((k 0).tasks p).priority.toNat + (allCounters (k 0) + allPriorities (k 0)) := by
  rcases Nat.lt_or_ge N (allCounters (k 0)) with hlt | hge
  · refine ⟨0, fun p _ => ⟨by omega, ?_⟩⟩
    have hle := ticksOf_le (k := k) p 0 N
    omega
  · obtain ⟨m, hdown, hup⟩ : ∃ m, allCounters (k 0) + m * allPriorities (k 0) ≤ N ∧
        N ≤ allCounters (k 0) + m * allPriorities (k 0) + allPriorities (k 0) := by
      refine ⟨(N - allCounters (k 0)) / allPriorities (k 0), ?_, ?_⟩
      · have hle := Nat.div_mul_le_self (N - allCounters (k 0)) (allPriorities (k 0))
        omega
      · have hlt := Nat.lt_div_mul_add hk.allPriorities_pos (a := N - allCounters (k 0))
        omega
    refine ⟨m, fun p hp => ?_⟩
    have hsplit := (ticksOf_add p (k := k) (Nat.zero_le _) hge).trans
      (congrArg _ (ticksOf_add p (Nat.le_add_right _ (m * allPriorities (k 0))) hdown))
    rw [ht.rounds hk hp m hdown] at hsplit
    have hfirst := ticksOf_le (k := k) p 0 (allCounters (k 0))
    have hlast := ticksOf_le (k := k) p (allCounters (k 0) + m * allPriorities (k 0)) N
    omega

/--
**Shares.** Once the counters of the beginning are used up, any stretch of as
many ticks as all priorities make together gives each runnable task exactly its
own priority of them. So in a run of any length, what a task has been given and
what another has, each times the other's priority, are no further apart than a
round and the beginning make.
-/
theorem ticks_share (hk : Ticking (k 0)) (ht : Ticks N k k') (hp : Runnable (k 0) p) (hq : Runnable (k 0) q) :
    (∀ t, allCounters (k 0) ≤ t → t + allPriorities (k 0) ≤ N →
      ticksOf k p t (t + allPriorities (k 0)) = ((k 0).tasks p).priority) ∧
    ((k 0).tasks q).priority * ticksOf k p 0 N - ((k 0).tasks p).priority * ticksOf k q 0 N
      ≤ ((k 0).tasks q).priority * (allCounters (k 0) + allPriorities (k 0) : Nat) := by
  have hprio : ∀ r, Runnable (k 0) r → (((k 0).tasks r).priority.toNat : Int) = ((k 0).tasks r).priority :=
    fun r hr => Int.toNat_of_nonneg (by have := (hk.range r hr.1).1; omega)
  refine ⟨fun t hstart hN => ?_, ?_⟩
  · rw [ht.round hk hp hstart hN, hprio p hp]
  · obtain ⟨m, hm⟩ := ht.bounds hk
    have hup := Nat.mul_le_mul_left ((k 0).tasks q).priority.toNat (hm p hp).2
    have hlow := Nat.mul_le_mul_left ((k 0).tasks p).priority.toNat (hm q hq).1
    have hsame : ((k 0).tasks q).priority.toNat * (m * ((k 0).tasks p).priority.toNat)
        = ((k 0).tasks p).priority.toNat * (m * ((k 0).tasks q).priority.toNat) := by ring
    rw [Nat.mul_add, hsame] at hup
    rw [← hprio p hp, ← hprio q hq]
    omega

end Ticks

/-- Tick after tick, with nothing in between. -/
def tickRun (k : Kernel) : Nat → Kernel
  | 0 => k
  | i + 1 =>
      match tickOnce (tickRun k i) with
      | .ok s => s
      | .error _ => tickRun k i

theorem tickRun_ticks (hk : Ticking k₀) (N : Nat) : Ticks N (tickRun k₀) (fun i => tickRun k₀ (i + 1)) := by
  have hall : ∀ i, ∃ s, Ticking (tickRun k₀ i) ∧ Views k₀ (tickRun k₀ i) s ∧
      tickOnce (tickRun k₀ i) = .ok (tickRun k₀ (i + 1)) := by
    intro i
    induction i with
    | zero =>
        obtain ⟨κ, hrun, -⟩ := tick_simulates hk.current hk (views_credits hk)
        exact ⟨_, hk, views_credits hk, by simp only [tickRun, hrun]⟩
    | succ i ih =>
        obtain ⟨s, hki, hvi, hrun⟩ := ih
        obtain ⟨κ, hrunκ, hκ, hvκ⟩ := tick_simulates hk.current hki hvi
        obtain rfl := Except.ok.inj (hrunκ.symm.trans hrun)
        obtain ⟨κ', hrun', -⟩ := tick_simulates hk.current hκ hvκ
        exact ⟨_, hκ, hvκ, by rw [hrun', tickRun, hrun']⟩
  refine ⟨fun i _ => ?_, fun i _ => ⟨SameSched.refl _, fun _ => rfl⟩⟩
  obtain ⟨s, -, -, hrun⟩ := hall i
  exact hrun

/-- Two tasks, the second twice as important as the first, which runs. -/
def unequalTasks : Kernel :=
  { twoTasks with
    tasks := fun p =>
      if p = .initTask then twoTasks.tasks p else { twoTasks.tasks p with priority := 2, preemptCount := 1 } }

/-- In the round that follows the first, the second task has two of three ticks. -/
theorem ticks_share_unequal :
    ((tickRun unequalTasks 0).tasks (.page 0x200000)).priority = 2 ∧
      ticksOf (tickRun unequalTasks) (.page 0x200000) 2 5 = 2 ∧
      (ticksOf (tickRun unequalTasks) (.page 0x200000) 0 5 : Int) - 2 * ticksOf (tickRun unequalTasks) .initTask 0 5 ≤ 5 := by
  have hk : Ticking unequalTasks := by
    refine ⟨?_, ⟨⟨0, by decide, rfl⟩, rfl⟩, by decide, ?_, rfl, ?_⟩
    · intro p _
      by_cases hp : p = .initTask <;> simp [unequalTasks, twoTasks, hp]
    · intro i j p hi hj
      simp only [unequalTasks, twoTasks] at hi hj
      grind
    · intro p _ hne
      simp only [unequalTasks, if_neg (show p ≠ .initTask from hne)]
  have hset : runnableSet unequalTasks = {.initTask, .page 0x200000} := by decide
  have hcounters : allCounters (tickRun unequalTasks 0) = 2 := by
    rw [show tickRun unequalTasks 0 = unequalTasks from rfl, allCounters, hset]
    decide
  have hpriorities : allPriorities (tickRun unequalTasks 0) = 3 := by
    rw [show tickRun unequalTasks 0 = unequalTasks from rfl, allPriorities, hset]
    decide
  have h := ticks_share hk (tickRun_ticks hk 5) (p := .page 0x200000) (q := .initTask) ⟨⟨1, by decide, rfl⟩, rfl⟩ hk.current
  rw [hcounters, hpriorities] at h
  have hone : ((tickRun unequalTasks 0).tasks .initTask).priority = 1 := rfl
  have htwo : ((tickRun unequalTasks 0).tasks (.page 0x200000)).priority = 2 := rfl
  rw [hone, htwo, one_mul, one_mul] at h
  exact ⟨htwo, Int.ofNat.inj (h.1 2 (Nat.le_refl _) (Nat.le_refl _)), h.2⟩

end OsdiKernel
