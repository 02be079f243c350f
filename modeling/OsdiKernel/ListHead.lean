import Mathlib.Algebra.Group.Nat.Defs
import OsdiKernel.Lib.Ring
import OsdiKernel.Lib.System

/-!
# `list.h`

The kernel's intrusive lists. A `struct list_head` that was never initialised
holds two NULL pointers, and every function here that follows such a pointer
faults rather than returning.
-/

namespace OsdiKernel

/-- Why a function did not return. -/
inductive Fault where
  /-- A NULL pointer was followed. -/
  | nullDeref
  /-- An array was indexed outside its bounds. -/
  | outOfBounds
  /-- A list head was taken for the object it would be embedded in. -/
  | badCast
  /-- A loop did not end. -/
  | spin
  /-- A local variable was read that had never been set. -/
  | uninitialised
  deriving DecidableEq, Repr

variable {ν : Type} [DecidableEq ν]

/-- `INIT_LIST_HEAD`. -/
def initListHead (l : Links ν) (list : ν) : Links ν := l.selfLoop list

/-- `list_add`: `__list_add(new, head, head->next)`. -/
def listAdd (l : Links ν) (new head : ν) : Except Fault (Links ν) :=
  match l.next head with
  | none => .error .nullDeref
  | some next => .ok (l.splice new head next)

/-- `list_add_tail`: `__list_add(new, head->prev, head)`. -/
def listAddTail (l : Links ν) (new head : ν) : Except Fault (Links ν) :=
  match l.prev head with
  | none => .error .nullDeref
  | some prev => .ok (l.splice new prev head)

/-- `list_del`: `__list_del(entry->prev, entry->next)`. -/
def listDel (l : Links ν) (entry : ν) : Except Fault (Links ν) :=
  match l.prev entry, l.next entry with
  | some prev, some next => .ok (l.bypass prev next)
  | _, _ => .error .nullDeref

/-- `list_empty`: `head->next == head`. An uninitialised head is not empty. -/
def listEmpty (l : Links ν) (head : ν) : Bool := l.next head = some head

/-- `list_for_each` from `pos` on, for at most so many turns. The body says whether it goes on or breaks. -/
def listTurns {σ : Type} (next : σ → ν → Option ν) (head : ν) (body : ν → σ → Except Fault (Bool × σ)) :
    Nat → Option ν → σ → Except Fault σ
  | 0, _, _ => .error .spin
  | _ + 1, none, _ => .error .nullDeref
  | turns + 1, some pos, s =>
      if pos = head then .ok s
      else do
        let (more, s) ← body pos s
        if more then listTurns next head body turns (next s pos) s else .ok s

/-- `list_for_each`. There are `2^64` addresses: a loop of so many turns does not end. -/
def listForEach {σ : Type} (next : σ → ν → Option ν) (head : ν) (body : ν → σ → Except Fault (Bool × σ))
    (s : σ) : Except Fault σ :=
  listTurns next head body (2 ^ 64) (next s head) s

variable {l : Links ν} {hd : ν → Prop} {c : ν → List ν} {h n : ν}

/--
**The rule for `list_for_each`.** `P xs` is what holds when the nodes `xs` are
still to come, `Q` what holds after the loop. The pointer to go on by is read
after the body has run.
-/
theorem listTurns_spec {σ : Type} {next : σ → ν → Option ν} {body : ν → σ → Except Fault (Bool × σ)}
    {P : List ν → σ → Prop} {Q : σ → Prop} (hend : ∀ s, P [] s → Q s)
    (hbody : ∀ x xs s, P (x :: xs) s → x ≠ h ∧
      ((∃ s', body x s = .ok (true, s') ∧ next s' x = some (xs.headD h) ∧ P xs s') ∨
        ∃ s', body x s = .ok (false, s') ∧ Q s')) :
    ∀ (xs : List ν) (turns : Nat) (s : σ), xs.length < turns → P xs s →
      ∃ s', listTurns next h body turns (some (xs.headD h)) s = .ok s' ∧ Q s' := by
  intro xs
  induction xs with
  | nil =>
      intro turns s ht hP
      obtain ⟨turns, rfl⟩ : ∃ k, turns = k + 1 := ⟨turns - 1, by simp at ht; omega⟩
      exact ⟨s, by rw [List.headD_nil, listTurns, if_pos rfl], hend s hP⟩
  | cons x xs ih =>
      intro turns s ht hP
      obtain ⟨turns, rfl⟩ : ∃ k, turns = k + 1 := ⟨turns - 1, by simp at ht; omega⟩
      obtain ⟨hx, hb⟩ := hbody x xs s hP
      rw [List.headD_cons, listTurns, if_neg hx]
      rcases hb with ⟨s₁, hrun, hnext, hP₁⟩ | ⟨s', hrun, hQ⟩
      · obtain ⟨s', hrun', hQ⟩ := ih turns s₁ (by simpa using ht) hP₁
        exact ⟨s', by rw [hrun, ok_bind]; simp only [if_true, hnext, hrun'], hQ⟩
      · exact ⟨s', by rw [hrun, ok_bind]; rfl, hQ⟩

theorem listForEach_spec {σ : Type} {next : σ → ν → Option ν} {body : ν → σ → Except Fault (Bool × σ)}
    {P : List ν → σ → Prop} {Q : σ → Prop} (hend : ∀ s, P [] s → Q s)
    (hbody : ∀ x xs s, P (x :: xs) s → x ≠ h ∧
      ((∃ s', body x s = .ok (true, s') ∧ next s' x = some (xs.headD h) ∧ P xs s') ∨
        ∃ s', body x s = .ok (false, s') ∧ Q s'))
    {xs : List ν} {s : σ} (hnext : next s h = some (xs.headD h)) (hlen : xs.length < 2 ^ 64) (hP : P xs s) :
    ∃ s', listForEach next h body s = .ok s' ∧ Q s' := by
  unfold listForEach
  rw [hnext]
  exact listTurns_spec hend hbody xs (2 ^ 64) s hlen hP

/-- The body of a `list_for_each`, keeping account of the nodes it is called with. -/
def recordVisits {σ : Type} (body : ν → σ → Except Fault (Bool × σ)) (pos : ν) (s : σ × List ν) :
    Except Fault (Bool × σ × List ν) := do
  let (more, s') ← body pos s.1
  .ok (more, s', s.2 ++ [pos])

/-- The account does not change what the loop does. -/
theorem listTurns_recordVisits {σ : Type} (next : σ → ν → Option ν) (body : ν → σ → Except Fault (Bool × σ))
    (turns : Nat) : ∀ (pos : Option ν) (s : σ) (seen : List ν),
      (listTurns (fun s => next s.1) h (recordVisits body) turns pos (s, seen)).map Prod.fst =
        listTurns next h body turns pos s := by
  induction turns with
  | zero => exact fun _ _ _ => rfl
  | succ turns ih =>
      intro pos s seen
      cases pos with
      | none => rfl
      | some pos =>
          rw [listTurns, listTurns]
          by_cases hpos : pos = h
          · rw [if_pos hpos, if_pos hpos]
            rfl
          · rw [if_neg hpos, if_neg hpos, recordVisits]
            rcases body pos s with fault | ⟨more, s'⟩
            · rfl
            · cases more with
              | false => rfl
              | true => exact ih (next s' pos) s' (seen ++ [pos])

theorem listEmpty_iff (hr : Rings l hd c) (hh : hd h) : listEmpty l h = true ↔ c h = [] := by
  rw [listEmpty, decide_eq_true_iff]
  exact (hr.ring h hh).next_self_iff

omit [DecidableEq ν] in
theorem next_head (hr : Rings l hd c) (hh : hd h) {x : ν} {xs : List ν} (hc : c h = x :: xs) :
    l.next h = some x := (hc ▸ hr.ring h hh).next_cons

theorem listAddTail_spec (hr : Rings l hd c) (hh : hd h) (hl : Loose hd c n) :
    ∃ l', listAddTail l n h = .ok l' ∧ Rings l' hd (Function.update c h (c h ++ [n])) ∧
      ∀ x, Loose hd c x → x ≠ n → l'.next x = l.next x := by
  obtain ⟨p, hp, hr', hx⟩ := hr.splice_tail hh hl
  exact ⟨_, by rw [listAddTail, hp], hr', hx⟩

theorem listDel_spec (hr : Rings l hd c) (hh : hd h) (hn : n ∈ c h) :
    ∃ l', listDel l n = .ok l' ∧ Rings l' hd (Function.update c h ((c h).erase n)) ∧
      ∀ x, Loose hd c x → l'.next x = l.next x := by
  obtain ⟨p, q, hp, hq, hr', hx⟩ := hr.bypass hh hn
  exact ⟨_, by rw [listDel, hp, hq], hr', hx⟩

end OsdiKernel
