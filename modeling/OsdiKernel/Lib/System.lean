import Mathlib.Init

/-!
# Operations that may fault

A sequential system is a state, a set of requests, which requests a client is
entitled to make in a state, and what each one does — where doing it may *fault*
rather than return. `Reach` is every state a law-abiding client can bring about.

`Reach.inv` is the one induction everything else uses. It asks for more than
preservation: each lawful request must also return. What it gives back is that
the invariant holds in every reachable state and that no lawful request faults
in one.
-/

namespace OsdiKernel

@[simp] theorem ok_bind {ε α β : Type} (a : α) (f : α → Except ε β) :
    (Except.ok a >>= f) = f a := rfl

@[simp] theorem error_bind {ε α β : Type} (e : ε) (f : α → Except ε β) :
    (Except.error e >>= f : Except ε β) = Except.error e := rfl

@[simp] theorem pure_ok {ε α : Type} (a : α) : (pure a : Except ε α) = Except.ok a := rfl

/-- What returns did so step by step. -/
theorem bind_eq_ok {ε α β : Type} {x : Except ε α} {f : α → Except ε β} {b : β} (h : x >>= f = .ok b) :
    ∃ a, x = .ok a ∧ f a = .ok b := by
  cases x with
  | error e => exact absurd h (by simp)
  | ok a => exact ⟨a, rfl, h⟩

/-- A monadic loop keeps an invariant its body keeps, and does not fault if its body does not. -/
theorem foldlM_inv {ε α β : Type} {f : β → α → Except ε β} {P : List α → β → Prop}
    (hstep : ∀ x xs b, P (x :: xs) b → ∃ b', f b x = .ok b' ∧ P xs b') :
    ∀ (xs : List α) (b : β), P xs b → ∃ b', xs.foldlM f b = .ok b' ∧ P [] b'
  | [], b, h => ⟨b, rfl, h⟩
  | x :: xs, b, h => by
      obtain ⟨b₁, h₁, hP⟩ := hstep x xs b h
      obtain ⟨b₂, h₂, hP₂⟩ := foldlM_inv hstep xs b₁ hP
      exact ⟨b₂, by rw [List.foldlM_cons, h₁, ok_bind, h₂], hP₂⟩

/-- States, requests, which requests are lawful, and what they do. -/
structure System (σ ι ε : Type) where
  /-- What a client may ask for in a state. -/
  legal : σ → ι → Prop
  /-- What happens when it does. -/
  exec : σ → ι → Except ε σ

namespace System

variable {σ ι ε : Type} {S : System σ ι ε} {s₀ : σ}

/-- The states lawful requests lead to. -/
inductive Reach (S : System σ ι ε) (s₀ : σ) : σ → Prop where
  | init : Reach S s₀ s₀
  | step {s s' : σ} {i : ι} : Reach S s₀ s → S.legal s i → S.exec s i = .ok s' → Reach S s₀ s'

/-- Every lawful request returns, and in a state satisfying `P`. -/
def Keeps (S : System σ ι ε) (P : σ → Prop) : Prop :=
  ∀ s i, P s → S.legal s i → ∃ s', S.exec s i = .ok s' ∧ P s'

/-- **The invariant rule.** -/
theorem Reach.inv {P : σ → Prop} (h₀ : P s₀) (hk : S.Keeps P) {s : σ} (h : S.Reach s₀ s) : P s := by
  induction h with
  | init => exact h₀
  | step _ hl he ih =>
      obtain ⟨s', he', hP⟩ := hk _ _ ih hl
      rw [he] at he'
      exact Except.ok.inj he' ▸ hP

/-- Where lawful requests may fault, an invariant is what those that return preserve. -/
theorem Reach.inv_ok {P : σ → Prop} (h₀ : P s₀)
    (hk : ∀ s i s', P s → S.legal s i → S.exec s i = .ok s' → P s') {s : σ} (h : S.Reach s₀ s) :
    P s := by
  induction h with
  | init => exact h₀
  | step _ hl he ih => exact hk _ _ _ ih hl he

/-- No lawful request faults in a reachable state. -/
theorem Reach.returns {P : σ → Prop} (h₀ : P s₀) (hk : S.Keeps P) {s : σ} (h : S.Reach s₀ s)
    {i : ι} (hl : S.legal s i) : ∃ s', S.exec s i = .ok s' ∧ S.Reach s₀ s' := by
  obtain ⟨s', he, _⟩ := hk s i (h.inv h₀ hk) hl
  exact ⟨s', he, h.step hl he⟩

theorem Reach.trans {s s' : σ} (h : S.Reach s₀ s) (h' : S.Reach s s') : S.Reach s₀ s' := by
  induction h' with
  | init => exact h
  | step _ hl he ih => exact ih.step hl he

/-- Reachable states of a system with fewer lawful requests are reachable. -/
theorem Reach.mono {T : System σ ι ε} (hl : ∀ s i, S.legal s i → T.legal s i)
    (he : ∀ s i, S.exec s i = T.exec s i) {s : σ} (h : S.Reach s₀ s) : T.Reach s₀ s := by
  induction h with
  | init => exact .init
  | step _ hl' he' ih => exact ih.step (hl _ _ hl') (he _ _ ▸ he')

/-- The same where fewer requests are lawful only in the states that can be reached. -/
theorem Reach.mono_inv {T : System σ ι ε} {P : σ → Prop} (h₀ : P s₀) (hk : T.Keeps P)
    (hl : ∀ s i, P s → S.legal s i → T.legal s i) (he : S.exec = T.exec) {s : σ}
    (h : S.Reach s₀ s) : T.Reach s₀ s := by
  induction h with
  | init => exact .init
  | step _ hl' he' ih => exact ih.step (hl _ _ (ih.inv h₀ hk) hl') (he ▸ he')

/-- The same operations, with fewer requests lawful. -/
def restrict (S : System σ ι ε) (allowed : σ → ι → Prop) : System σ ι ε where
  legal := fun s i => S.legal s i ∧ allowed s i
  exec := S.exec

instance [∀ s i, Decidable (S.legal s i)] {allowed : σ → ι → Prop} [∀ s i, Decidable (allowed s i)] (s : σ)
    (i : ι) : Decidable ((S.restrict allowed).legal s i) :=
  inferInstanceAs (Decidable (_ ∧ _))

/-- Carry out a list of requests, if each is lawful and returns. -/
def run (S : System σ ι ε) [∀ s i, Decidable (S.legal s i)] : σ → List ι → Option σ
  | s, [] => some s
  | s, i :: is =>
      if S.legal s i then
        match S.exec s i with
        | .ok s' => S.run s' is
        | .error _ => none
      else none

/-- A list of requests that is carried out leads to a reachable state. -/
theorem Reach.of_run [∀ s i, Decidable (S.legal s i)] :
    ∀ {is : List ι} {s s' : σ}, S.Reach s₀ s → S.run s is = some s' → S.Reach s₀ s'
  | [], s, s', h, hr => Option.some.inj hr ▸ h
  | i :: is, s, s', h, hr => by
      rw [run] at hr
      by_cases hl : S.legal s i
      · rw [if_pos hl] at hr
        cases he : S.exec s i with
        | error e => rw [he] at hr; exact absurd hr (by simp)
        | ok t =>
            rw [he] at hr
            exact Reach.of_run (h.step hl he) hr
      · rw [if_neg hl] at hr
        exact absurd hr (by simp)

end System

end OsdiKernel
