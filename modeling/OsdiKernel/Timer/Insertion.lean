import OsdiKernel.Timer.DeadlineOrder

/-!
# Insertion keeps the list sorted

`AddNewTimerEvents` on any list, not only on those `add_timer` and the handler
lead to. The new event's own NULL pointer is all the function has to tell that
its search found no place; it also means that the event is on no list yet.
-/

namespace OsdiKernel

variable {s s' : Timers} {xs done rest : List Nat} {e a : Nat}

/-- `timer_list` by the time that remains. -/
def SortedByRemaining (s : Timers) (xs : List Nat) : Prop :=
  xs.Pairwise (fun a b => (s.events a).remainingTime ≤ (s.events b).remainingTime)

/-- The events are objects in memory, so there are fewer than addresses. -/
def Addressed (xs : List Nat) : Prop := ∀ a ∈ xs, a < 2 ^ 64

/-- Every event on a list points back. -/
theorem OnList.not_mem (h : OnList s xs) (hnull : s.links.prev (.event e) = none) : e ∉ xs := by
  intro he
  obtain ⟨p, _, hp, _⟩ := IsRing.bypass h (List.mem_map_of_mem he)
  rw [hnull] at hp
  exact absurd hp (by simp)

/-- The new event has an address too, so the list does not take up all of them. -/
theorem Addressed.length_lt (h : Addressed (e :: xs)) (hnd : xs.Nodup) (he : e ∉ xs) : xs.length < 2 ^ 64 := by
  have hsub : (e :: xs).toFinset ⊆ Finset.range (2 ^ 64) := by
    intro a ha
    exact Finset.mem_range.mpr (h a (List.mem_toFinset.mp ha))
  have hcard := Finset.card_le_card hsub
  rw [List.toFinset_card_of_nodup (List.nodup_cons.mpr ⟨he, hnd⟩), Finset.card_range, List.length_cons] at hcard
  omega

/-- The place of the new event: after all that have no more time left, before the first that has. -/
theorem insertEvent_place (s : Timers) (e : Nat) (xs : List Nat) :
    ∃ done rest, xs = done ++ rest ∧ insertEvent s e xs = done ++ e :: rest ∧ NoneGreater s e done ∧
      ∀ y ∈ rest.head?, (s.events e).remainingTime < (s.events y).remainingTime := by
  induction xs with
  | nil => exact ⟨[], [], rfl, rfl, fun y hy => absurd hy List.not_mem_nil, fun y hy => absurd hy (by simp)⟩
  | cons x xs ih =>
      by_cases hlt : (s.events e).remainingTime < (s.events x).remainingTime
      · refine ⟨[], x :: xs, rfl, insertEvent_cons hlt, fun y hy => absurd hy List.not_mem_nil, fun y hy => ?_⟩
        obtain rfl : x = y := by simpa using hy
        exact hlt
      · obtain ⟨done, rest, hxs, hins, hnone, hfirst⟩ := ih
        refine ⟨x :: done, rest, by rw [hxs, List.cons_append], ?_, fun y hy => ?_, hfirst⟩
        · rw [show insertEvent s e (x :: xs) = x :: insertEvent s e xs from if_neg hlt, hins, List.cons_append]
        · rcases List.mem_cons.mp hy with rfl | hy
          · exact hlt
          · exact hnone y hy

theorem SortedByRemaining.insertEvent (h : SortedByRemaining s xs) : SortedByRemaining s (insertEvent s e xs) := by
  refine pairwise_insertEvent h (fun y _ hnot => UInt64.not_lt.mp hnot) (fun y _ hlt => ?_)
  have hle := UInt64.le_of_lt hlt
  exact ⟨hle, fun z _ hyz => UInt64.le_trans hle hyz⟩

/-- The list `xs` with `e` inserted; nothing else has changed but the record of it. -/
structure Inserted (s : Timers) (e : Nat) (xs : List Nat) (s' : Timers) : Prop where
  /-- Once, before the first event that has more time left. -/
  place : ∃ done rest, xs = done ++ rest ∧ OnList s' (done ++ e :: rest) ∧
    SortedByRemaining s' (done ++ e :: rest) ∧
    (∀ y ∈ done, (s.events y).remainingTime ≤ (s.events e).remainingTime) ∧
    ∀ y ∈ rest.head?, (s.events e).remainingTime < (s.events y).remainingTime
  events : s'.events = s.events
  others : s' = { s with links := s'.links, log := s.log ++ [.added e] }

/--
**Sorted insertion.** On a well-formed list sorted by the remaining time, of any
length, `AddNewTimerEvents` of an event whose `prev` is NULL returns, with a
well-formed sorted list that has the event in its place.
-/
theorem addNewTimerEvents_sorted (h : OnList s xs) (hsorted : SortedByRemaining s xs)
    (haddr : Addressed (e :: xs)) (hnull : s.links.prev (.event e) = none) :
    ∃ s', addNewTimerEvents s e = .ok s' ∧ Inserted s e xs s' := by
  have he := h.not_mem hnull
  obtain ⟨links, hrun, hring⟩ := addNewTimerEvents_spec h (haddr.length_lt h.nodup he) he hnull
  obtain ⟨done, rest, hxs, hins, hnone, hfirst⟩ := insertEvent_place s e xs
  refine ⟨_, hrun, ⟨done, rest, hxs, ?_, ?_, fun y hy => UInt64.not_lt.mp (hnone y hy), hfirst⟩, rfl, rfl⟩
  · rw [hins] at hring
    exact hring
  · have hs : SortedByRemaining s (done ++ e :: rest) := hins ▸ hsorted.insertEvent
    exact hs

/-- A list of two events, with seven and nine seconds left, and a third one of seven. -/
def threeEvents : Timers where
  mm := Mm.bss
  links :=
    { next := fun n => match n with
        | .timerList => some (.event 0x200000)
        | .event a => if a = 0x200000 then some (.event 0x200080)
            else if a = 0x200080 then some .timerList else none
      prev := fun n => match n with
        | .timerList => some (.event 0x200080)
        | .event a => if a = 0x200000 then some .timerList
            else if a = 0x200080 then some (.event 0x200000) else none }
  events := fun a => ⟨0, 0, if a = 0x200080 then 9 else 7, if a = 0x200080 then 9 else 7, 0, [0]⟩
  isTimerMultiplexingEventIRQ := 1
  timer := ⟨62500000, 0, 0, true⟩
  beyond := 0
  log := []

theorem addNewTimerEvents_sorted_tie :
    ∃ s', addNewTimerEvents threeEvents 0x200100 = .ok s' ∧ Inserted threeEvents 0x200100 [0x200000, 0x200080] s' := by
  refine addNewTimerEvents_sorted ⟨by decide, ?_⟩ (by unfold SortedByRemaining; decide) ?_ rfl
  · simp [Links.Linked, threeEvents]
  · intro a ha
    simp only [List.mem_cons, List.not_mem_nil, or_false] at ha
    omega

end OsdiKernel
