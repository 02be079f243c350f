import Mathlib.Logic.Function.Basic
import Mathlib.Data.List.Basic
import Mathlib.Tactic.Common

/-!
# Memory that knows where it was written

A memory of bytes together with the addresses that have been stored to.
`Wrote r r' P` says what happened between two such: the bytes at the addresses
in `P` were stored to, and nothing else was or has changed. It composes, so that
what a program wrote is the union of what its parts wrote.
-/

namespace OsdiKernel

/-- Bytes by address, and the addresses of the stores made to them. -/
structure Ram where
  mem : Nat → UInt8
  written : List Nat

/-- The address is one of `size` from `base` on. -/
def Within (base size a : Nat) : Prop := base ≤ a ∧ a < base + size

instance (base size a : Nat) : Decidable (Within base size a) := inferInstanceAs (Decidable (base ≤ a ∧ a < base + size))

namespace Ram

/-- A store of one byte. -/
def store (r : Ram) (a : Nat) (b : UInt8) : Ram where
  mem := Function.update r.mem a b
  written := a :: r.written

/-- Stores of consecutive bytes. -/
def storeBytes (r : Ram) (a : Nat) : List UInt8 → Ram
  | [] => r
  | b :: bs => storeBytes (r.store a b) (a + 1) bs

end Ram

variable {r r' r'' : Ram} {P Q : Nat → Prop} {a : Nat}

/-- Between `r` and `r'`, the bytes in `P` were stored to, and no others. -/
structure Wrote (r r' : Ram) (P : Nat → Prop) : Prop where
  written : ∀ a, a ∈ r'.written ↔ P a ∨ a ∈ r.written
  same : ∀ a, ¬ P a → r'.mem a = r.mem a

theorem Ram.storeBytes_append (bs cs : List UInt8) : ∀ (r : Ram) (a : Nat),
    r.storeBytes a (bs ++ cs) = (r.storeBytes a bs).storeBytes (a + bs.length) cs := by
  induction bs with
  | nil => exact fun _ _ => rfl
  | cons b bs ih =>
      intro r a
      rw [List.cons_append, Ram.storeBytes, ih, Ram.storeBytes, List.length_cons, Nat.add_right_comm, Nat.add_assoc]

namespace Wrote

theorem refl (r : Ram) : Wrote r r (fun _ => False) where
  written := fun _ => by simp
  same := fun _ _ => rfl

theorem trans (h : Wrote r r' P) (h' : Wrote r' r'' Q) : Wrote r r'' (fun a => P a ∨ Q a) where
  written := by
    intro a
    rw [h'.written, h.written]
    constructor
    · rintro (hq | hp | hr)
      · exact Or.inl (Or.inr hq)
      · exact Or.inl (Or.inl hp)
      · exact Or.inr hr
    · rintro ((hp | hq) | hr)
      · exact Or.inr (Or.inl hp)
      · exact Or.inl hq
      · exact Or.inr (Or.inr hr)
  same := by
    intro a ha
    rw [h'.same a (fun hq => ha (Or.inr hq)), h.same a (fun hp => ha (Or.inl hp))]

theorem congr (h : Wrote r r' P) (hPQ : ∀ a, P a ↔ Q a) : Wrote r r' Q where
  written := fun a => by rw [h.written, hPQ]
  same := fun a ha => h.same a (fun hp => ha ((hPQ a).mp hp))

theorem store (r : Ram) (a : Nat) (b : UInt8) : Wrote r (r.store a b) (fun x => x = a) where
  written := fun _ => List.mem_cons
  same := fun _ hx => Function.update_of_ne hx _ _

theorem storeBytes (bs : List UInt8) : ∀ (r : Ram) (a : Nat), Wrote r (r.storeBytes a bs) (Within a bs.length) := by
  induction bs with
  | nil =>
      refine fun r a => (refl r).congr (fun x => ?_)
      refine ⟨fun h => h.elim, fun h => ?_⟩
      obtain ⟨h1, h2⟩ : a ≤ x ∧ x < a + 0 := h
      omega
  | cons b bs ih =>
      intro r a
      refine ((store r a b).trans (ih (r.store a b) (a + 1))).congr (fun x => ?_)
      show (x = a ∨ (a + 1 ≤ x ∧ x < a + 1 + bs.length)) ↔ (a ≤ x ∧ x < a + (bs.length + 1))
      omega

end Wrote

/-- What is in memory after consecutive stores. -/
theorem storeBytes_mem (bs : List UInt8) : ∀ (r : Ram) (a x : Nat),
    (r.storeBytes a bs).mem x = if a ≤ x ∧ x < a + bs.length then bs.getD (x - a) 0 else r.mem x := by
  induction bs with
  | nil =>
      intro r a x
      have hno : ¬ (a ≤ x ∧ x < a + 0) := by omega
      exact (if_neg hno).symm
  | cons b bs ih =>
      intro r a x
      rw [Ram.storeBytes, ih, List.length_cons]
      by_cases hx : x = a
      · subst hx
        rw [if_neg (by omega), if_pos (by omega), Nat.sub_self, List.getD_cons_zero]
        exact Function.update_self ..
      · by_cases hin : a + 1 ≤ x ∧ x < a + 1 + bs.length
        · rw [if_pos hin, if_pos (by omega), show x - a = (x - (a + 1)) + 1 by omega, List.getD_cons_succ]
        · rw [if_neg hin, if_neg (by omega)]
          exact Function.update_of_ne hx _ _

end OsdiKernel
