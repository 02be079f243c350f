import Mathlib.Data.Nat.Digits.Lemmas

/-!
# Numerals, from the top

The digits of a number, the highest one first: each is what is left of the number
divided by a power of the base. A number that has a digit at that power and none
above it is written without a zero in front.
-/

namespace OsdiKernel

variable {b k n : Nat}

/-- The digits of `n` from the one at `b ^ k` down. -/
def topDigits (b : Nat) : Nat → Nat → List Nat
  | 0, n => [n]
  | k + 1, n => n / b ^ (k + 1) :: topDigits b k (n % b ^ (k + 1))

theorem topDigits_length : (topDigits b k n).length = k + 1 := by
  induction k generalizing n with
  | zero => rfl
  | succ k ih => rw [topDigits, List.length_cons, ih]

/-- The lowest digit. -/
theorem topDigits_concat (b k n : Nat) : topDigits b (k + 1) n = topDigits b k (n / b) ++ [n % b] := by
  induction k generalizing n with
  | zero => simp only [topDigits, Nat.zero_add, Nat.pow_one, List.singleton_append]
  | succ k ih =>
      have hlow : n % b ^ (k + 2) % b = n % b :=
        Nat.mod_mod_of_dvd n (by rw [Nat.pow_succ']; exact Nat.dvd_mul_right ..)
      have hhigh : n % b ^ (k + 2) / b = n / b % b ^ (k + 1) := by
        rw [Nat.pow_succ', Nat.mod_mul_right_div_self]
      rw [topDigits, ih, hlow, hhigh, topDigits, List.cons_append, Nat.div_div_eq_div_mul, ← Nat.pow_succ']

/-- **From the top** and from the bottom, they are the same digits. -/
theorem topDigits_eq (hb : 1 < b) (hpos : n ≠ 0) (hlo : b ^ k ≤ n ∨ k = 0) (hhi : n < b ^ (k + 1)) :
    topDigits b k n = (b.digits n).reverse := by
  induction k generalizing n with
  | zero =>
      rw [Nat.zero_add, Nat.pow_one] at hhi
      rw [Nat.digits_of_lt b n hpos hhi]
      rfl
  | succ k ih =>
      have hlo : b ^ k * b ≤ n := by
        rw [← Nat.pow_succ]
        exact hlo.resolve_right (Nat.succ_ne_zero k)
      have hdiv : b ^ k ≤ n / b := (Nat.le_div_iff_mul_le (by omega)).mpr hlo
      have hpow := Nat.pow_pos (n := k) (show 0 < b by omega)
      rw [topDigits_concat, Nat.digits_def' hb (Nat.pos_of_ne_zero hpos), List.reverse_cons,
        ih (by omega) (.inl hdiv) (Nat.div_lt_of_lt_mul (by rwa [Nat.pow_succ'] at hhi))]

end OsdiKernel
