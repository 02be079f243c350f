import Mathlib.Data.List.Sort
import OsdiKernel.Timer.Timers

/-!
# What the operations on the timer list do

An update gives every event on the list the time it has left, and touches no
other. An insertion searches the list for the first event with more time left and
puts the new one just before it, or at the end. The handler takes the first event
off.
-/

namespace OsdiKernel

variable {s s' : Timers} {xs done rest : List Nat} {e : Nat} {t : UInt64}

theorem event_injective : Function.Injective TimerNode.event := fun _ _ h => TimerNode.event.inj h

namespace OnList

theorem nodup (h : OnList s xs) : xs.Nodup :=
  List.Nodup.of_map _ (List.nodup_cons.mp (IsRing.nodup h)).2

/-- The pointer after a member, as `list_for_each` reads it. -/
theorem next_mid (h : OnList s (done ++ e :: rest)) :
    s.links.next (.event e) = some ((rest.map TimerNode.event).headD .timerList) := by
  unfold OnList at h
  rw [List.map_append, List.map_cons] at h
  exact IsRing.next_mid h

end OnList

theorem node_not_mem (he : e ∉ xs) : TimerNode.event e ∉ TimerNode.timerList :: xs.map .event := by
  rw [List.mem_cons, not_or]
  exact ⟨TimerNode.noConfusion, fun hm => he ((List.mem_map_of_injective event_injective).mp hm)⟩

/-- The pointers of an event that is not on the list are nobody's business. -/
theorem OnList.detach (h : OnList s xs) (he : e ∉ xs) :
    IsRing ⟨Function.update s.links.next (.event e) none, Function.update s.links.prev (.event e) none⟩ .timerList
      (xs.map .event) := by
  refine IsRing.congr h (fun x hx => ?_)
  have hxe : x ≠ TimerNode.event e := by
    rintro rfl
    exact node_not_mem he hx
  exact ⟨Function.update_of_ne hxe _ _, Function.update_of_ne hxe _ _⟩

/-! ## The update -/

/-- The events on the list brought up to date. -/
def updatedEvents (events : Nat → TimerEvent) (xs : List Nat) (t : UInt64) (a : Nat) : TimerEvent :=
  if a ∈ xs then (events a).update t else events a

theorem updatedEvents_nil {events : Nat → TimerEvent} : updatedEvents events [] t = events := by
  funext a
  exact if_neg List.not_mem_nil

theorem updatedEvents_snoc {events : Nat → TimerEvent} (he : e ∉ done) :
    Function.update (updatedEvents events done t) e ((updatedEvents events done t e).update t)
      = updatedEvents events (done ++ [e]) t := by
  funext a
  by_cases ha : a = e
  · subst ha
    rw [Function.update_self]
    simp [updatedEvents, he]
  · rw [Function.update_of_ne ha]
    simp [updatedEvents, ha]

/-- What an update of one event leaves alone is left alone. -/
theorem updatedEvents_same {α : Type} {f : TimerEvent → α} (hf : ∀ ev : TimerEvent, f (ev.update t) = f ev)
    {events : Nat → TimerEvent} (a : Nat) : f (updatedEvents events xs t a) = f (events a) := by
  unfold updatedEvents
  by_cases ha : a ∈ xs
  · rw [if_pos ha, hf]
  · rw [if_neg ha]

theorem updatedEvents_deadline {events : Nat → TimerEvent} (a : Nat) :
    (updatedEvents events xs t a).deadline = (events a).deadline := updatedEvents_same (fun _ => rfl) a

theorem updatedEvents_duration {events : Nat → TimerEvent} (a : Nat) :
    (updatedEvents events xs t a).duration = (events a).duration := updatedEvents_same (fun _ => rfl) a

theorem updatedEvents_args {events : Nat → TimerEvent} (a : Nat) :
    (updatedEvents events xs t a).args = (events a).args := updatedEvents_same (fun _ => rfl) a

/-- **`UpdateTimerEvents`** brings every event on the list up to date, and no other. -/
theorem updateTimerEvents_spec (h : OnList s xs) (hlen : xs.length < 2 ^ 64) (t : UInt64) :
    updateTimerEvents s t = .ok { s with events := updatedEvents s.events xs t } := by
  suffices h' : ∃ s', updateTimerEvents s t = .ok s' ∧ s' = { s with events := updatedEvents s.events xs t } by
    obtain ⟨s', hrun, rfl⟩ := h'
    exact hrun
  refine listForEach_spec
    (P := fun L (s₁ : Timers) => ∃ done rest, xs = done ++ rest ∧ L = rest.map TimerNode.event ∧
      s₁ = { s with events := updatedEvents s.events done t })
    ?_ ?_ (IsRing.next_head h) (by rwa [List.length_map]) ⟨[], xs, rfl, rfl, by rw [updatedEvents_nil]⟩
  · rintro s₁ ⟨done, rest, hxs, hL, rfl⟩
    rw [List.map_eq_nil_iff.mp hL.symm, List.append_nil] at hxs
    rw [hxs]
  · rintro x L s₁ ⟨done, rest, hxs, hL, rfl⟩
    obtain ⟨a, rest', rfl, rfl, rfl⟩ := List.map_eq_cons_iff.mp hL.symm
    have hnd := h.nodup
    rw [hxs, List.nodup_append] at hnd
    have hna : a ∉ done := fun hm => hnd.2.2 a hm a (List.mem_cons_self ..) rfl
    refine ⟨TimerNode.noConfusion, Or.inl ⟨_, rfl, ?_, done ++ [a], rest', by simp [hxs], rfl, ?_⟩⟩
    · exact OnList.next_mid (hxs ▸ h)
    · simp only [updatedEvents_snoc hna]

/-! ## The insertion -/

/-- The list with `e` put in before the first event that has more time left. -/
def insertEvent (s : Timers) (e : Nat) (xs : List Nat) : List Nat :=
  xs.orderedInsert (fun a b => (s.events a).remainingTime < (s.events b).remainingTime) e

/-- No event of `xs` has more time left than `e`. -/
def NoneGreater (s : Timers) (e : Nat) (xs : List Nat) : Prop :=
  ∀ y ∈ xs, ¬ (s.events e).remainingTime < (s.events y).remainingTime

theorem insertEvent_append (h : NoneGreater s e done) :
    insertEvent s e (done ++ rest) = done ++ insertEvent s e rest := by
  induction done with
  | nil => rfl
  | cons y ys ih =>
      have hy := h y (List.mem_cons_self ..)
      rw [List.cons_append, List.cons_append, ← ih (fun z hz => h z (List.mem_cons_of_mem _ hz))]
      exact if_neg hy

theorem insertEvent_cons {x : Nat} (h : (s.events e).remainingTime < (s.events x).remainingTime) :
    insertEvent s e (x :: rest) = e :: x :: rest := if_pos h

/-- There is a first event then. -/
theorem insertEvent_eq_cons (s : Timers) (e : Nat) (xs : List Nat) : ∃ a rest, insertEvent s e xs = a :: rest :=
  List.exists_cons_of_ne_nil (List.ne_nil_of_mem ((List.mem_orderedInsert _).mpr (Or.inl rfl)))

/-- What the search finds: a greater event, before which the new one now stands, or none. -/
def Searched (s : Timers) (e : Nat) (xs : List Nat) (s' : Timers) : Prop :=
  (∃ links, s' = { s with links } ∧ OnList s' (insertEvent s e xs)) ∨ (NoneGreater s e xs ∧ s' = s)

theorem insertBeforeGreater_spec (h : OnList s xs) (hlen : xs.length < 2 ^ 64) (he : e ∉ xs) :
    ∃ s', insertBeforeGreater s e = .ok s' ∧ Searched s e xs s' := by
  refine listForEach_spec
    (P := fun L (s₁ : Timers) => ∃ done rest, xs = done ++ rest ∧ L = rest.map TimerNode.event ∧ s₁ = s ∧
      NoneGreater s e done)
    (Q := Searched s e xs)
    ?_ ?_ (IsRing.next_head h) (by rwa [List.length_map])
    ⟨[], xs, rfl, rfl, rfl, fun y hy => absurd hy (by simp)⟩
  · rintro s₁ ⟨done, rest, hxs, hL, rfl, hnone⟩
    rw [List.map_eq_nil_iff.mp hL.symm, List.append_nil] at hxs
    exact Or.inr ⟨hxs ▸ hnone, rfl⟩
  · rintro x L s₁ ⟨done, rest, hxs, hL, rfl, hnone⟩
    obtain ⟨a, rest', rfl, rfl, rfl⟩ := List.map_eq_cons_iff.mp hL.symm
    refine ⟨TimerNode.noConfusion, ?_⟩
    by_cases hlt : (s₁.events e).remainingTime < (s₁.events a).remainingTime
    · -- before the first greater one
      have hring : IsRing s₁.links .timerList (done.map .event ++ TimerNode.event a :: rest'.map .event) := by
        rw [← List.map_cons, ← List.map_append, ← hxs]
        exact h
      have hfresh : TimerNode.event e ∉
          TimerNode.timerList :: (done.map .event ++ TimerNode.event a :: rest'.map .event) := by
        rw [← List.map_cons, ← List.map_append, ← hxs]
        exact node_not_mem he
      obtain ⟨p, hprev, hpn, _, hring'⟩ := hring.splice_at hfresh
      rw [List.headD_cons] at hprev hpn hring'
      refine Or.inr ⟨{ s₁ with links := s₁.links.splice (.event e) p (.event a) }, ?_, Or.inl ⟨_, rfl, ?_⟩⟩
      · simp only [if_pos hlt, hprev, listAdd, hpn, ok_bind]
      · unfold OnList
        rw [hxs, insertEvent_append hnone, insertEvent_cons hlt, List.map_append, List.map_cons, List.map_cons]
        exact hring'
    · refine Or.inl ⟨s₁, by simp only [if_neg hlt], ?_, done ++ [a], rest', by simp [hxs], rfl, rfl, ?_⟩
      · exact OnList.next_mid (hxs ▸ h)
      · intro y hy
        rcases List.mem_append.mp hy with hm | hm
        · exact hnone y hm
        · exact List.mem_singleton.mp hm ▸ hlt

/-- **`AddNewTimerEvents`** of an event that is on no list. -/
theorem addNewTimerEvents_spec (h : OnList s xs) (hlen : xs.length < 2 ^ 64) (he : e ∉ xs)
    (hnull : s.links.prev (.event e) = none) :
    ∃ links, addNewTimerEvents s e = .ok { s with links, log := s.log ++ [.added e] } ∧
      OnList { s with links } (insertEvent s e xs) := by
  unfold addNewTimerEvents
  by_cases hempty : xs = []
  · subst hempty
    have hself : s.links.next .timerList = some .timerList := (IsRing.next_self_iff h).mpr rfl
    have hring₀ : IsRing s.links .timerList ([] ++ []) := h
    obtain ⟨p, _, _, hpm, hring⟩ := hring₀.splice_at (node_not_mem he)
    obtain rfl : p = .timerList := by simpa using hpm
    refine ⟨s.links.splice (.event e) .timerList .timerList, ?_, hring⟩
    simp only [listEmpty, hself, listAdd, decide_true, if_true, ok_bind, pure_ok]
  · have hne : listEmpty s.links .timerList = false := by
      unfold listEmpty
      rw [decide_eq_false_iff_not, IsRing.next_self_iff h, List.map_eq_nil_iff]
      exact hempty
    obtain ⟨s', hrun, hs'⟩ := insertBeforeGreater_spec h hlen he
    rw [hne, hrun]
    rcases hs' with ⟨links, rfl, hring⟩ | ⟨hnone, rfl⟩
    · have hmem : TimerNode.event e ∈ (insertEvent s e xs).map TimerNode.event :=
        List.mem_map_of_mem ((List.mem_orderedInsert _).mpr (Or.inl rfl))
      obtain ⟨p, _, hp, _⟩ := IsRing.bypass hring hmem
      refine ⟨links, ?_, hring⟩
      have hp' : links.prev (.event e) = some p := hp
      simp only [ok_bind, hp', reduceCtorEq, if_false, Bool.false_eq_true, pure_ok]
    · -- the new event has most time left
      obtain ⟨p, hp, _, hring⟩ := IsRing.splice_tail h (node_not_mem he)
      refine ⟨s'.links.splice (.event e) p .timerList, ?_, ?_⟩
      · simp only [ok_bind, hnull, listAddTail, hp, if_true, if_false, Bool.false_eq_true, pure_ok]
      · have hins : insertEvent s' e xs = xs ++ [e] := by
          rw [← List.append_nil xs, insertEvent_append hnone, List.append_nil]
          rfl
        unfold OnList
        rw [hins, List.map_append]
        exact hring

/-! ## The timer, and the handler -/

/-- **`setNextTimerEventInterrupt`** sets the timer for the first event. -/
theorem setNextTimerEventInterrupt_spec (h : OnList s (e :: rest)) :
    setNextTimerEventInterrupt s = .ok { s with timer := armTimer s.timer (s.events e).remainingTime } := by
  have hnext : s.links.next .timerList = some (.event e) := IsRing.next_cons h
  unfold setNextTimerEventInterrupt
  rw [hnext]
  rfl

/-- After the handler's callback: the first event is off the list, and the others are up to date. -/
def firedFirst (s : Timers) (e : Nat) (rest : List Nat) (links : Links TimerNode) : Timers :=
  { s with
    links
    events := updatedEvents s.events (e :: rest) (getSystemTime s.timer)
    log := s.log ++ [.fired e (getSystemTime s.timer)] }

/-- What a deletion leaves of the list pointers. -/
structure Removed (s : Timers) (e : Nat) (rest : List Nat) (links : Links TimerNode) : Prop where
  holds : OnList { s with links } rest
  /-- The pointers of an event that is not on the list stay. -/
  prev : ∀ a, a ∉ e :: rest → links.prev (.event a) = s.links.prev (.event a)

theorem listDel_first (h : OnList s (e :: rest)) :
    ∃ links, listDel s.links (.event e) = .ok links ∧ Removed s e rest links := by
  obtain ⟨p, q, hp, hq, _, hqm, hring⟩ := IsRing.bypass h (List.mem_cons_self ..)
  refine ⟨s.links.bypass p q, by rw [listDel, hp, hq], ?_, ?_⟩
  · rw [List.map_cons, List.erase_cons_head] at hring
    exact hring
  · intro a ha
    exact Function.update_of_ne (ne_of_mem_of_not_mem hqm (node_not_mem ha)).symm _ _

/-- **`timerEvents_irq_handler`** calls the first event back, and sets the timer for the next or stops it. -/
theorem timerEventsIrqHandler_spec (h : OnList s (e :: rest)) (hlen : (e :: rest).length < 2 ^ 64) :
    ∃ links, Removed s e rest links ∧
      timerEventsIrqHandler s = .ok
        (match rest with
        | [] => { firedFirst s e rest links with
            timer := coreTimerDisable s.timer, isTimerMultiplexingEventIRQ := 0 }
        | a :: _ => { firedFirst s e rest links with
            timer := armTimer s.timer ((firedFirst s e rest links).events a).remainingTime }) := by
  obtain ⟨links, hdel, hrem⟩ := listDel_first h
  have hnext : s.links.next .timerList = some (.event e) := IsRing.next_cons h
  refine ⟨links, hrem, ?_⟩
  unfold timerEventsIrqHandler
  simp only [updateTimerEvents_spec h hlen, ok_bind, hnext, hdel]
  cases rest with
  | nil =>
      have hempty : listEmpty links .timerList = true := by
        unfold listEmpty
        rw [decide_eq_true_iff]
        exact (IsRing.next_self_iff hrem.holds).mpr rfl
      rw [hempty]
      rfl
  | cons a rest =>
      have hempty : listEmpty links .timerList = false := by
        unfold listEmpty
        rw [decide_eq_false_iff_not]
        exact fun hs => List.cons_ne_nil _ _ ((IsRing.next_self_iff hrem.holds).mp hs)
      rw [hempty]
      exact setNextTimerEventInterrupt_spec (s := firedFirst s e (a :: rest) links) hrem.holds

end OsdiKernel
