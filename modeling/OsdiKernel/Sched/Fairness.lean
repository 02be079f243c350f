import OsdiKernel.Sched.Schedule

/-!
# Fairness

`schedule` gives up the caller's turn by zeroing its counter, and then goes to a
runnable task whose counter is not zero. So between two refreshes the set of
runnable tasks still to come, `waiting`, loses one task with every call, the one
that is picked. A refresh happens when nobody is waiting, and after it everybody
else is. A task that is waiting is picked before the next refresh; one that is
not, before the one after.
-/

namespace OsdiKernel

variable {k k' : Kernel} {p q : TaskPtr} {n : Nat}

/-- The runnable tasks. -/
def runnableSet (k : Kernel) : Finset TaskPtr :=
  ((List.range taskSlots).filterMap k.task).toFinset.filter (fun p => (k.tasks p).state = .running)

/-- Those that have a turn to come before the counters are refreshed. -/
def waiting (k : Kernel) : Finset TaskPtr :=
  (runnableSet k).filter (fun p => p ≠ k.current ∧ 1 ≤ (k.tasks p).counter)

theorem mem_runnableSet : p ∈ runnableSet k ↔ Runnable k p := by
  simp [runnableSet, Runnable, InTable, List.mem_filterMap]

theorem mem_waiting : p ∈ waiting k ↔ Runnable k p ∧ p ≠ k.current ∧ 1 ≤ (k.tasks p).counter := by
  rw [waiting, Finset.mem_filter, mem_runnableSet]

/-- A task table with `n` runnable tasks, the current one among them. -/
structure FairTable (k : Kernel) (n : Nat) : Prop where
  range : InRange k
  current : Runnable k k.current
  count : (runnableSet k).card = n

/-! ## One call -/

namespace SameSched

theorem runnableSet (h : SameSched k k') : runnableSet k' = runnableSet k := by
  ext p
  rw [mem_runnableSet, mem_runnableSet, h.runnable]

theorem waiting (h : SameSched k k') : waiting k' = waiting k := by
  ext p
  rw [mem_waiting, mem_waiting, h.runnable, h.current, (h.fields p).2.1]

theorem fairTable (h : SameSched k k') (hf : FairTable k n) : FairTable k' n where
  range := h.inRange hf.range
  current := by
    rw [h.current, h.runnable]
    exact hf.current
  count := by rw [h.runnableSet]; exact hf.count

end SameSched

namespace Scheduled

theorem runnableSet (h : Scheduled k k' p) : runnableSet k' = runnableSet k := by
  ext q
  rw [mem_runnableSet, mem_runnableSet, h.runnable_iff]

theorem fairTable (h : Scheduled k k' p) (hf : FairTable k n) : FairTable k' n where
  range := h.range
  current := by
    rw [h.current, h.runnable_iff]
    exact h.runnable
  count := by rw [h.runnableSet]; exact hf.count

/-- Without a refresh, the task picked was waiting, and the others still are. -/
theorem waiting_kept (h : Scheduled k k' p) (hno : refreshes k = false) :
    p ∈ waiting k ∧ waiting k' = (waiting k).erase p := by
  have hp : p ≠ k.current := by
    intro he
    have := h.positive
    rw [h.kept hno, if_pos he] at this
    omega
  refine ⟨?_, ?_⟩
  · have := h.positive
    rw [h.kept hno, if_neg hp] at this
    exact mem_waiting.mpr ⟨h.runnable, hp, this⟩
  · ext q
    rw [Finset.mem_erase, mem_waiting, mem_waiting, h.runnable_iff, h.current, h.kept hno]
    by_cases hq : q = k.current
    · subst hq; simp
    · simp [hq]
      tauto

/-- A refresh comes when nobody is waiting, and then everybody else is. -/
theorem waiting_fresh (h : Scheduled k k' p) (hyes : refreshes k = true) :
    waiting k = ∅ ∧ waiting k' = (OsdiKernel.runnableSet k).erase p := by
  obtain ⟨hzero, hpos⟩ := h.fresh hyes
  refine ⟨Finset.eq_empty_iff_forall_notMem.mpr (fun q hq => ?_), ?_⟩
  · obtain ⟨hr, hne, hc⟩ := mem_waiting.mp hq
    have := hzero q hr hne
    omega
  · ext q
    rw [Finset.mem_erase, mem_waiting, h.runnable_iff, h.current, mem_runnableSet]
    exact ⟨fun hq => ⟨hq.2.1, hq.1⟩, fun hq => ⟨hq.2, hq.1, hpos q hq.2.1⟩⟩

end Scheduled

/-! ## Many calls -/

/-- `N` consecutive calls, from `k i` to `k' i`; whatever runs in between changes
nothing the scheduler looks at. -/
structure Calls (N : Nat) (k k' : Nat → Kernel) : Prop where
  call : ∀ i, i < N → schedule (k i) = .ok (k' i)
  between : ∀ i, i + 1 < N → SameSched (k' i) (k (i + 1))

section Calls

variable {N : Nat} {k k' : Nat → Kernel}

theorem Calls.scheduled (hc : Calls N k k') {i : Nat} (hi : i < N) (hf : FairTable (k i) n) :
    Scheduled (k i) (k' i) (k' i).current := by
  obtain ⟨k₁, p, hrun, hs⟩ := schedule_spec hf.range.rest hf.current
  rw [hc.call i hi] at hrun
  rw [Except.ok.inj hrun, hs.current]
  exact hs

/-- The number of runnable tasks stays the same. -/
theorem Calls.fairTable (hc : Calls N k k') (hf : FairTable (k 0) n) : ∀ i, i < N → FairTable (k i) n
  | 0, _ => hf
  | i + 1, hi =>
      (hc.between i hi).fairTable ((hc.scheduled (by omega) (hc.fairTable hf i (by omega))).fairTable
        (hc.fairTable hf i (by omega)))

theorem Calls.runnable (hc : Calls N k k') (hf : FairTable (k 0) n) (hq : Runnable (k 0) q) :
    ∀ i, i < N → Runnable (k i) q
  | 0, _ => hq
  | i + 1, hi =>
      (hc.between i hi).runnable.mpr ((hc.scheduled (by omega) (hc.fairTable hf i (by omega))).runnable_iff.mpr
        (hc.runnable hf hq i (by omega)))

/-- A task that waits with `m` others gets its turn within `m` calls. -/
theorem Calls.picks_waiting (hc : Calls N k k') (hf : FairTable (k 0) n) :
    ∀ m i, (waiting (k i)).card = m → q ∈ waiting (k i) → i + m ≤ N →
      ∃ j, i ≤ j ∧ j < i + m ∧ (k' j).current = q := by
  intro m
  induction m with
  | zero =>
      intro i hcard hq _
      rw [Finset.card_eq_zero] at hcard
      rw [hcard] at hq
      exact absurd hq (by simp)
  | succ m ih =>
      intro i hcard hq hN
      have hs := hc.scheduled (i := i) (by omega) (hc.fairTable hf i (by omega))
      -- somebody is waiting, so there is no refresh
      have hno : refreshes (k i) = false := by
        by_contra hyes
        rw [(hs.waiting_fresh (by simpa using hyes)).1] at hq
        exact absurd hq (by simp)
      obtain ⟨hp, hw⟩ := hs.waiting_kept hno
      by_cases hpq : (k' i).current = q
      · exact ⟨i, Nat.le_refl i, by omega, hpq⟩
      · have hq' : q ∈ (waiting (k i)).erase (k' i).current :=
          Finset.mem_erase.mpr ⟨fun he => hpq he.symm, hq⟩
        have hm : 1 ≤ m := by
          have hpos := Finset.card_pos.mpr ⟨q, hq'⟩
          rw [Finset.card_erase_of_mem hp, hcard] at hpos
          omega
        have hw' : waiting (k (i + 1)) = (waiting (k i)).erase (k' i).current := by
          rw [(hc.between i (by omega)).waiting, hw]
        obtain ⟨j, h1, h2, h3⟩ := ih (i + 1)
          (by rw [hw', Finset.card_erase_of_mem hp, hcard]; rfl) (hw' ▸ hq') (by omega)
        exact ⟨j, by omega, by omega, h3⟩

/-- Any runnable task gets its turn before the second refresh. -/
theorem Calls.picks_runnable (hc : Calls N k k') (hf : FairTable (k 0) n) (hq : Runnable (k 0) q) :
    ∀ m i, (waiting (k i)).card = m → i + m + n ≤ N →
      ∃ j, i ≤ j ∧ j < i + m + n ∧ (k' j).current = q := by
  have hn : 1 ≤ n := by
    rw [← hf.count]
    exact Finset.card_pos.mpr ⟨q, mem_runnableSet.mpr hq⟩
  intro m
  induction m with
  | zero =>
      -- nobody is waiting: this call refreshes
      intro i hcard hN
      have hs := hc.scheduled (i := i) (by omega) (hc.fairTable hf i (by omega))
      have hyes : refreshes (k i) = true := by
        by_contra hno
        have hp := (hs.waiting_kept (by simpa using hno)).1
        rw [Finset.card_eq_zero.mp hcard] at hp
        exact absurd hp (by simp)
      by_cases hpq : (k' i).current = q
      · exact ⟨i, Nat.le_refl i, by omega, hpq⟩
      · have hqi := hc.runnable hf hq i (by omega)
        have hmem : q ∈ (runnableSet (k i)).erase (k' i).current :=
          Finset.mem_erase.mpr ⟨fun he => hpq he.symm, mem_runnableSet.mpr hqi⟩
        have hcardR : ((runnableSet (k i)).erase (k' i).current).card = n - 1 := by
          rw [Finset.card_erase_of_mem (mem_runnableSet.mpr hs.runnable),
            (hc.fairTable hf i (by omega)).count]
        have hn2 : 1 ≤ n - 1 := hcardR ▸ Finset.card_pos.mpr ⟨q, hmem⟩
        have hw : waiting (k (i + 1)) = (runnableSet (k i)).erase (k' i).current := by
          rw [(hc.between i (by omega)).waiting, (hs.waiting_fresh hyes).2]
        obtain ⟨j, h1, h2, h3⟩ := hc.picks_waiting hf (n - 1) (i + 1) (by rw [hw]; exact hcardR)
          (hw ▸ hmem) (by omega)
        exact ⟨j, by omega, by omega, h3⟩
  | succ m ih =>
      intro i hcard hN
      have hs := hc.scheduled (i := i) (by omega) (hc.fairTable hf i (by omega))
      have hno : refreshes (k i) = false := by
        by_contra hyes
        rw [(hs.waiting_fresh (by simpa using hyes)).1] at hcard
        exact absurd hcard (by simp)
      obtain ⟨hp, hw⟩ := hs.waiting_kept hno
      have hw' : (waiting (k (i + 1))).card = m := by
        rw [(hc.between i (by omega)).waiting, hw, Finset.card_erase_of_mem hp, hcard]
        rfl
      obtain ⟨j, h1, h2, h3⟩ := ih (i + 1) hw' (by omega)
      exact ⟨j, by omega, by omega, h3⟩

/-- Until the next refresh, a task that has had its turn does not wait for another. -/
theorem Calls.not_waiting (hc : Calls N k k') (hf : FairTable (k 0) n) {i : Nat} :
    ∀ d, i + 1 + d < N → (∀ m, i < m → m ≤ i + d → refreshes (k m) = false) →
      (k' i).current ∉ waiting (k (i + 1 + d))
  | 0, hN, _ => by
      rw [(hc.between i hN).waiting]
      exact fun hm => (mem_waiting.mp hm).2.1 rfl
  | d + 1, hN, hno => by
      have hs := hc.scheduled (i := i + 1 + d) (by omega) (hc.fairTable hf _ (by omega))
      have ih := hc.not_waiting hf d (by omega) (fun m h1 h2 => hno m h1 (by omega))
      have hw := (hs.waiting_kept (hno (i + 1 + d) (by omega) (by omega))).2
      rw [show i + 1 + (d + 1) = i + 1 + d + 1 by omega, (hc.between _ (by omega)).waiting, hw]
      exact fun hm => ih (Finset.mem_of_mem_erase hm)

/--
**Fairness.** With `n` runnable tasks, every one of them is picked within any
`2 * n` consecutive calls, and none twice without a refresh in between; and the
calls never fail to return.
-/
theorem schedule_fair (hf : FairTable (k 0) n) (hc : Calls N k k') :
    (∀ i q, i + 2 * n ≤ N → Runnable (k 0) q → ∃ j, i ≤ j ∧ j < i + 2 * n ∧ (k' j).current = q) ∧
    (∀ i j, i < j → j < N → (∀ m, i < m → m ≤ j → refreshes (k m) = false) →
      (k' j).current ≠ (k' i).current) ∧
    (∀ i, i < N → ∃ s, schedule (k' i) = .ok s) := by
  refine ⟨fun i q hN hq => ?_, fun i j hij hj hno => ?_, fun i hi => ?_⟩
  · have hn : 1 ≤ n := by
      rw [← hf.count]
      exact Finset.card_pos.mpr ⟨q, mem_runnableSet.mpr hq⟩
    have hfi := hc.fairTable hf i (by omega)
    -- the current task is runnable and does not wait, so fewer than `n` do
    have hlt : (waiting (k i)).card < n := by
      rw [← hfi.count]
      refine Finset.card_lt_card ⟨Finset.filter_subset _ _, fun hsub => ?_⟩
      exact (mem_waiting.mp (hsub (mem_runnableSet.mpr hfi.current))).2.1 rfl
    obtain ⟨j, h1, h2, h3⟩ := hc.picks_runnable hf hq _ i rfl (by omega)
    exact ⟨j, h1, by omega, h3⟩
  · obtain ⟨d, rfl⟩ : ∃ d, j = i + 1 + d := ⟨j - (i + 1), by omega⟩
    have hs := hc.scheduled hj (hc.fairTable hf _ hj)
    have hp := (hs.waiting_kept (hno _ (by omega) (Nat.le_refl _))).1
    have hnw := hc.not_waiting hf d hj (fun m h1 h2 => hno m h1 (by omega))
    exact fun he => hnw (he ▸ hp)
  · have hf' := (hc.scheduled hi (hc.fairTable hf i hi)).fairTable (hc.fairTable hf i hi)
    obtain ⟨s, _, hrun, _⟩ := schedule_spec hf'.range.rest hf'.current
    exact ⟨s, hrun⟩

end Calls

/-- Call after call, with nothing in between. -/
def scheduleRun (k : Kernel) : Nat → Kernel
  | 0 => k
  | i + 1 =>
      match schedule (scheduleRun k i) with
      | .ok s => s
      | .error _ => scheduleRun k i

theorem scheduleRun_calls {k : Kernel} (hf : FairTable k n) (N : Nat) :
    Calls N (scheduleRun k) (fun i => scheduleRun k (i + 1)) := by
  have hall : ∀ i, FairTable (scheduleRun k i) n ∧
      schedule (scheduleRun k i) = .ok (scheduleRun k (i + 1)) := by
    intro i
    induction i with
    | zero =>
        obtain ⟨s, _, hrun, _⟩ := schedule_spec hf.range.rest hf.current
        exact ⟨hf, by simp only [scheduleRun, hrun]⟩
    | succ i ih =>
        obtain ⟨s, _, hrun, hs⟩ := schedule_spec ih.1.range.rest ih.1.current
        have hnext : scheduleRun k (i + 1) = s := Except.ok.inj (ih.2.symm.trans hrun)
        have hf' : FairTable (scheduleRun k (i + 1)) n := hnext ▸ hs.fairTable ih.1
        obtain ⟨s', _, hrun', _⟩ := schedule_spec hf'.range.rest hf'.current
        exact ⟨hf', by rw [hrun', scheduleRun, hrun']⟩
  exact ⟨fun i _ => (hall i).2, fun i _ => SameSched.refl _⟩

/-- `init_task` and one more, both runnable, `init_task` running. -/
def twoTasks : Kernel where
  mm := Mm.bss
  mem := fun _ => 0
  tasks := fun _ =>
    { cpuContext := CpuContext.zero
      state := .running, counter := 1, priority := 1, preemptCount := 0, stack := 0
      flags := pfKthread, pid := 0, ptRegs := PtRegs.zero }
  task := fun i => if i = 0 then some .initTask else if i = 1 then some (.page 0x200000) else none
  current := .initTask
  nrTasks := 2

/-- The other of the two is picked within the first four calls. -/
theorem schedule_fair_two :
    ∃ j, 0 ≤ j ∧ j < 0 + 2 * 2 ∧ (scheduleRun twoTasks (j + 1)).current = .page 0x200000 := by
  have hf : FairTable twoTasks 2 :=
    ⟨fun p _ => by simp [twoTasks], ⟨⟨0, by decide, rfl⟩, rfl⟩, by decide⟩
  exact (schedule_fair hf (scheduleRun_calls hf 4)).1 0 (.page 0x200000) (by decide)
    ⟨⟨1, by decide, rfl⟩, rfl⟩

end OsdiKernel
