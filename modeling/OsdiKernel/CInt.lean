import Mathlib.Data.Int.ModEq

/-!
# C's integers

What an assignment to a narrower type makes of a value.
-/

namespace OsdiKernel

/-- What a `long` becomes as an `int`. -/
def toInt (x : Int) : Int := x.bmod (2 ^ 32)

/-- What an integer becomes as an `unsigned long`. -/
def toUnsignedLong (x : Int) : Nat := (x % 2 ^ 64).toNat

theorem toInt_of_range {x : Int} (h₀ : -2 ^ 31 ≤ x) (h₁ : x < 2 ^ 31) : toInt x = x := by
  unfold toInt
  rw [Int.bmod_def]
  omega

theorem toUnsignedLong_of_range {x : Nat} (h : x < 2 ^ 64) : toUnsignedLong x = x := by
  unfold toUnsignedLong
  omega

end OsdiKernel
