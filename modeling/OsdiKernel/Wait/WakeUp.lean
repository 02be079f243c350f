import OsdiKernel.Wait.QueueInv

/-!
# One queue, woken

`wake_up` walks round the queue and unlinks the node it stands on. That node's
own pointers are not written when it is unlinked, so the walk goes on from it as
if it were still there; and the head, with which the loop compares, is the one
before it at every turn.

Nothing is said here about the other queues or about which tasks wait: the queue
is any ring, of any length, and its entries may be those of any tasks.
-/

namespace OsdiKernel

variable {w : WaitState} {q e : Nat} {es : List Nat}

/-- A queue with these entries, every one of them an object in memory. -/
structure Queue (w : WaitState) (q : Nat) (es : List Nat) : Prop where
  ring : IsRing w.links (.head q) (es.map .entry)
  inMemory : ∀ e ∈ es, e + waitQueueEntrySize ≤ 2 ^ 64

/-- `wake_up`, and the nodes its loop visits. -/
def wakeUpVisits (w : WaitState) (wqHead : Nat) : Except Fault (WaitState × List WaitNode) :=
  listForEach (fun s pos => s.1.links.next pos) (.head wqHead) (recordVisits wakeEntry) (w, [])

theorem wakeUp_of_visits {w' : WaitState} {seen : List WaitNode} (h : wakeUpVisits w q = .ok (w', seen)) :
    wakeUp w q = .ok w' := by
  have hrun : (listTurns (fun s : WaitState × List WaitNode => s.1.links.next) (.head q) (recordVisits wakeEntry)
      (2 ^ 64) (w.links.next (.head q)) (w, [])).map Prod.fst =
      listTurns (fun w : WaitState => w.links.next) (.head q) wakeEntry (2 ^ 64) (w.links.next (.head q)) w :=
    listTurns_recordVisits (fun w : WaitState => w.links.next) wakeEntry (2 ^ 64) (w.links.next (.head q)) w []
  have hvisits : listTurns (fun s : WaitState × List WaitNode => s.1.links.next) (.head q) (recordVisits wakeEntry)
      (2 ^ 64) (w.links.next (.head q)) (w, []) = .ok (w', seen) := h
  rw [hvisits] at hrun
  exact hrun.symm

/-- Entries are at different places, and each takes up room. -/
theorem Queue.length_lt (h : Queue w q es) : es.length < 2 ^ 64 := by
  have hnodup : es.Nodup := List.Nodup.of_map WaitNode.entry (List.nodup_cons.mp h.ring.nodup).2
  have hsub : es.toFinset ⊆ Finset.range (2 ^ 64 - 1) := by
    intro e he
    have := h.inMemory e (List.mem_toFinset.mp he)
    unfold waitQueueEntrySize at this
    exact Finset.mem_range.mpr (by omega)
  have hcard := Finset.card_le_card hsub
  rw [List.toFinset_card_of_nodup hnodup, Finset.card_range] at hcard
  omega

/-- What `wake_up` has done when the entries `es` are still to come. -/
structure HalfWoken (w : WaitState) (q : Nat) (woken es : List Nat) (w' : WaitState) : Prop where
  state : w' = { w with k := wake w.k (woken.map w.privateTask), links := w'.links }
  ring : IsRing w'.links (.head q) (es.map .entry)
  others : ∀ x, x ≠ .head q → x ∉ (woken ++ es).map WaitNode.entry →
    w'.links.next x = w.links.next x ∧ w'.links.prev x = w.links.prev x

/-- **One turn** takes the entry off that the loop stands on, and leaves its `next` as it was. -/
theorem HalfWoken.turn {woken : List Nat} {w' : WaitState} (h : HalfWoken w q woken (e :: es) w') :
    ∃ w'', wakeEntry (.entry e) w' = .ok (true, w'') ∧
      w''.links.next (.entry e) = some ((es.map WaitNode.entry).headD (.head q)) ∧
      HalfWoken w q (woken ++ [e]) es w'' := by
  have hfirst : IsRing w'.links (.head q) (WaitNode.entry e :: es.map .entry) := h.ring
  obtain ⟨hprev, hnext, hkept, hring⟩ := hfirst.bypass_first
  have hdel : removeWaitQueue w'.links e =
      .ok (w'.links.bypass (.head q) ((es.map WaitNode.entry).headD (.head q))) := by
    rw [removeWaitQueue, listDel, hprev, hnext]
  refine ⟨{ w' with
      k := wake w'.k [w'.privateTask e]
      links := w'.links.bypass (.head q) ((es.map WaitNode.entry).headD (.head q)) }, ?_, hkept, ⟨?_, hring, ?_⟩⟩
  · rw [wakeEntry, hdel, ok_bind]
    rfl
  · rw [List.map_append, wake_append, h.state]
    rfl
  · intro x hx hout
    rw [List.append_assoc, List.singleton_append] at hout
    have hsame := h.others x hx hout
    have hne : x ≠ (es.map WaitNode.entry).headD (.head q) := by
      cases es with
      | nil => exact hx
      | cons f fs => exact fun he => hout (List.mem_map.mpr ⟨f, by simp, he.symm⟩)
    exact ⟨(Function.update_of_ne hx _ _).trans hsame.1, (Function.update_of_ne hne _ _).trans hsame.2⟩

/-- **The whole walk.** -/
theorem Queue.visits (h : Queue w q es) :
    ∃ w', wakeUpVisits w q = .ok (w', es.map .entry) ∧ HalfWoken w q es [] w' := by
  -- with the entries `rest` still to come, those before them are off the queue and their tasks woken
  let P : List WaitNode → WaitState × List WaitNode → Prop := fun ns s => ∃ woken rest, es = woken ++ rest ∧
    ns = rest.map .entry ∧ s.2 = woken.map .entry ∧ HalfWoken w q woken rest s.1
  let Q : WaitState × List WaitNode → Prop := fun s => s.2 = es.map .entry ∧ HalfWoken w q es [] s.1
  have hend : ∀ s, P [] s → Q s := by
    intro s hP
    obtain ⟨woken, rest, hsplit, hrest, hseen, hw⟩ := hP
    obtain rfl := List.map_eq_nil_iff.mp hrest.symm
    rw [List.append_nil] at hsplit
    subst hsplit
    exact ⟨hseen, hw⟩
  have hbody : ∀ x xs s, P (x :: xs) s → x ≠ .head q ∧
      ((∃ s', recordVisits wakeEntry x s = .ok (true, s') ∧
          s'.1.links.next x = some (xs.headD (.head q)) ∧ P xs s') ∨
        ∃ s', recordVisits wakeEntry x s = .ok (false, s') ∧ Q s') := by
    intro x xs s hP
    obtain ⟨woken, rest, hsplit, hrest, hseen, hw⟩ := hP
    cases rest with
    | nil => exact absurd hrest (by simp)
    | cons e rest =>
        rw [List.map_cons] at hrest
        obtain ⟨rfl, rfl⟩ := List.cons.inj hrest
        obtain ⟨w'', hrun, hnext, hw''⟩ := hw.turn
        refine ⟨nofun, Or.inl ⟨(w'', s.2 ++ [.entry e]), ?_, hnext, woken ++ [e], rest, ?_, rfl, ?_, hw''⟩⟩
        · rw [recordVisits, hrun]
          rfl
        · rw [hsplit, List.append_assoc, List.singleton_append]
        · rw [hseen, List.map_append]
          rfl
  have hP₀ : P (es.map .entry) (w, []) := ⟨[], es, rfl, rfl, rfl, rfl, h.ring, fun x _ _ => ⟨rfl, rfl⟩⟩
  have hfirst : (fun s : WaitState × List WaitNode => s.1.links.next) (w, []) (.head q) =
      some ((es.map WaitNode.entry).headD (.head q)) := h.ring.next_head
  obtain ⟨⟨w', seen⟩, hrun, hseen, hw'⟩ := listForEach_spec hend hbody hfirst
    (by rw [List.length_map]; exact h.length_lt) hP₀
  obtain rfl : seen = es.map .entry := hseen
  exact ⟨w', hrun, hw'⟩

/--
**`wake_up` empties the queue.** On a queue of any length it returns; its loop
visits the entries, each once and in order; the queue is empty afterwards, the
tasks that were on it are `TASK_RUNNING` and otherwise as they were, and so is
every other task, every other queue, and all the rest.
-/
theorem wakeUp_empties (h : Queue w q es) :
    ∃ w', wakeUp w q = .ok w' ∧
      wakeUpVisits w q = .ok (w', es.map .entry) ∧ (es.map WaitNode.entry).Nodup ∧
      Queue w' q [] ∧
      (∀ p, w'.k.tasks p =
        if p ∈ es.map w.privateTask then { w.k.tasks p with state := .running } else w.k.tasks p) ∧
      w' = { w with k := { w.k with tasks := w'.k.tasks }, links := w'.links } ∧
      ∀ x, x ≠ .head q → x ∉ es.map WaitNode.entry →
        w'.links.next x = w.links.next x ∧ w'.links.prev x = w.links.prev x := by
  obtain ⟨w', hvisits, hw'⟩ := h.visits
  have hk : w'.k = wake w.k (es.map w.privateTask) := by rw [hw'.state]
  refine ⟨w', wakeUp_of_visits hvisits, hvisits, (List.nodup_cons.mp h.ring.nodup).2, ⟨hw'.ring, by simp⟩,
    fun p => ?_, ?_, ?_⟩
  · rw [hk]
    exact wake_tasks w.k _ p
  · rw [hw'.state]
    exact congrArg (fun k => { w with k := k, links := w'.links }) (wake_eq w.k _)
  · have hothers := hw'.others
    rwa [List.append_nil] at hothers

/-- Two entries on one queue: of a thread that waits, and of one that has exited since. -/
def twoQueued : WaitState where
  k :=
    { mm := Mm.bss
      mem := fun _ => 0
      tasks := fun p =>
        { cpuContext := CpuContext.zero
          state := if p = .initTask then .running else if p = .page 0x200000 then .waiting else .zombie
          counter := 1, priority := 1, preemptCount := 0, stack := 0
          flags := pfKthread, pid := 0, ptRegs := PtRegs.zero }
      task := fun i => if i = 0 then some .initTask else if i = 1 then some (.page 0x200000) else none
      current := .initTask
      nrTasks := 2 }
  links :=
    { next := fun x =>
        if x = .head 0 then some (.entry 0x200800)
        else if x = .entry 0x200800 then some (.entry 0x201800)
        else if x = .entry 0x201800 then some (.head 0) else none
      prev := fun x =>
        if x = .head 0 then some (.entry 0x201800)
        else if x = .entry 0x200800 then some (.head 0)
        else if x = .entry 0x201800 then some (.entry 0x200800) else none }
  privateTask := fun e => .page (e - 0x800)

theorem queue_twoQueued : Queue twoQueued 0 [0x200800, 0x201800] where
  ring := ⟨by decide, by simp [twoQueued, Links.Linked]⟩
  inMemory := by decide

/-- Both are set running, the dead one too. -/
theorem wakeUp_empties_two :
    Queue twoQueued 0 [0x200800, 0x201800] ∧
      ∃ w', wakeUp twoQueued 0 = .ok w' ∧ Queue w' 0 [] ∧ (w'.k.tasks (.page 0x201000)).state = .running ∧
        (w'.k.tasks (.page 0x202000)).state = .zombie := by
  obtain ⟨w', hrun, _, _, hempty, htasks, _⟩ := wakeUp_empties queue_twoQueued
  exact ⟨queue_twoQueued, w', hrun, hempty, by rw [htasks]; decide, by rw [htasks]; decide⟩

end OsdiKernel
