import Mathlib.Algebra.BigOperators.Group.Finset.Basic
import Mathlib.Algebra.Order.BigOperators.Group.Finset
import Mathlib.Algebra.Order.BigOperators.Group.List
import Mathlib.Algebra.BigOperators.Group.Finset.Piecewise
import Mathlib.Algebra.Order.Group.Int
import Mathlib.Algebra.Ring.Int.Defs

/-!
# Ledgers

Things are taken and returned on somebody's account. There are seats, each with
an account, and accounts that were closed when their owner left a seat. The
total over all accounts says of each thing how often it is out.

If no account ever returns more than it took, then a thing that is not out is on
none of them (`settled`).
-/

namespace OsdiKernel

/-- What has been taken and returned, thing by thing, by an owner described by `tag`. -/
structure Account (τ ι : Type) where
  tag : τ
  taken : ι → Nat
  returned : ι → Nat

namespace Account

variable {τ ι : Type}

/-- An account on which nothing has happened. -/
def new (t : τ) : Account τ ι := ⟨t, fun _ => 0, fun _ => 0⟩

/-- How often `x` is out on this account. -/
def out (A : Account τ ι) (x : ι) : Int := A.taken x - A.returned x

@[simp] theorem new_out (t : τ) (x : ι) : (new t : Account τ ι).out x = 0 := rfl

/-- Everything that was taken was returned, as often as it was taken. -/
def Settled (A : Account τ ι) : Prop := ∀ x, A.returned x = A.taken x

theorem settled_iff {A : Account τ ι} : A.Settled ↔ ∀ x, A.out x = 0 := by
  unfold Settled out
  constructor
  · intro h x
    rw [h x]
    exact Int.sub_self _
  · intro h x
    have := h x
    omega

/-- Take and return at once, as `took` and `gave` count. -/
def post (A : Account τ ι) (took gave : ι → Nat) : Account τ ι :=
  { A with taken := fun x => A.taken x + took x, returned := fun x => A.returned x + gave x }

@[simp] theorem post_tag (A : Account τ ι) (took gave : ι → Nat) : (A.post took gave).tag = A.tag := rfl

theorem post_out (A : Account τ ι) (took gave : ι → Nat) (x : ι) :
    (A.post took gave).out x = A.out x + took x - gave x := by
  show ((A.taken x + took x : Nat) : Int) - ((A.returned x + gave x : Nat) : Int)
    = (A.taken x - A.returned x) + took x - gave x
  omega

/-- Describe the owner differently. -/
def retag (A : Account τ ι) (f : τ → τ) : Account τ ι := { A with tag := f A.tag }

@[simp] theorem retag_tag (A : Account τ ι) (f : τ → τ) : (A.retag f).tag = f A.tag := rfl

@[simp] theorem retag_out (A : Account τ ι) (f : τ → τ) (x : ι) : (A.retag f).out x = A.out x := rfl

end Account

/-- Seats with an account each, and the accounts that were closed. -/
structure Ledger (τ ι : Type) where
  seats : Nat → Account τ ι
  closed : List (Account τ ι)

namespace Ledger

variable {τ ι : Type} {L : Ledger τ ι} {n i : Nat} {x : ι}

/-- How often `x` is out, on `n` seats and the closed accounts. -/
def total (L : Ledger τ ι) (n : Nat) (x : ι) : Int :=
  ∑ i ∈ Finset.range n, (L.seats i).out x + (L.closed.map (fun A => A.out x)).sum

/-- Put an account on a seat, closing some. -/
def change (L : Ledger τ ι) (i : Nat) (A : Account τ ι) (As : List (Account τ ι)) : Ledger τ ι :=
  ⟨Function.update L.seats i A, As ++ L.closed⟩

theorem change_seat (L : Ledger τ ι) (i : Nat) (A : Account τ ι) (As : List (Account τ ι)) :
    (L.change i A As).seats i = A := Function.update_self ..

theorem change_seat_ne {j : Nat} (L : Ledger τ ι) (A : Account τ ι) (As : List (Account τ ι))
    (h : j ≠ i) : (L.change i A As).seats j = L.seats j := Function.update_of_ne h ..

/-- **Only the account that changes moves the total.** -/
theorem total_change (hi : i < n) (A : Account τ ι) (As : List (Account τ ι)) (x : ι) :
    (L.change i A As).total n x
      = L.total n x - (L.seats i).out x + A.out x + (As.map (fun A => A.out x)).sum := by
  have hmem : i ∈ Finset.range n := Finset.mem_range.mpr hi
  have hnew : ∑ j ∈ Finset.range n, ((L.change i A As).seats j).out x
      = A.out x + ∑ j ∈ (Finset.range n).erase i, (L.seats j).out x := by
    rw [← Finset.add_sum_erase _ _ hmem, change_seat]
    refine congrArg (A.out x + ·) (Finset.sum_congr rfl fun j hj => ?_)
    rw [change_seat_ne L A As (Finset.ne_of_mem_erase hj)]
  have hold : ∑ j ∈ Finset.range n, (L.seats j).out x
      = (L.seats i).out x + ∑ j ∈ (Finset.range n).erase i, (L.seats j).out x :=
    (Finset.add_sum_erase _ _ hmem).symm
  have hclosed : ((L.change i A As).closed.map (fun A => A.out x)).sum
      = (As.map (fun A => A.out x)).sum + (L.closed.map (fun A => A.out x)).sum := by
    rw [change, List.map_append, List.sum_append]
  unfold total
  rw [hnew, hold, hclosed]
  omega

/-- No account returned what it had not taken. -/
structure Sound (L : Ledger τ ι) (n : Nat) : Prop where
  seats : ∀ i, i < n → ∀ x, 0 ≤ (L.seats i).out x
  closed : ∀ A ∈ L.closed, ∀ x, 0 ≤ A.out x

theorem Sound.change (h : L.Sound n) {A : Account τ ι} {As : List (Account τ ι)}
    (hA : ∀ x, 0 ≤ A.out x) (hAs : ∀ B ∈ As, ∀ x, 0 ≤ B.out x) : (L.change i A As).Sound n where
  seats := by
    intro j hj x
    by_cases hji : j = i
    · rw [hji, change_seat]; exact hA x
    · rw [change_seat_ne L A As hji]; exact h.seats j hj x
  closed := by
    intro B hB x
    rcases List.mem_append.mp hB with hB | hB
    · exact hAs B hB x
    · exact h.closed B hB x

theorem Sound.closed_nonneg (h : L.Sound n) (x : ι) : 0 ≤ (L.closed.map (fun A => A.out x)).sum := by
  refine List.sum_nonneg fun y hy => ?_
  obtain ⟨A, hA, rfl⟩ := List.mem_map.mp hy
  exact h.closed A hA x

/-- What is not out is on no account. -/
theorem Sound.settled (h : L.Sound n) (h0 : L.total n x = 0) :
    (∀ i, i < n → (L.seats i).out x = 0) ∧ ∀ A ∈ L.closed, A.out x = 0 := by
  have hs : 0 ≤ ∑ i ∈ Finset.range n, (L.seats i).out x :=
    Finset.sum_nonneg fun i hi => h.seats i (Finset.mem_range.mp hi) x
  have hc := h.closed_nonneg x
  unfold total at h0
  refine ⟨fun i hi => ?_, fun A hA => ?_⟩
  · have hle := Finset.single_le_sum (f := fun i => (L.seats i).out x)
      (fun i hi => h.seats i (Finset.mem_range.mp hi) x) (Finset.mem_range.mpr hi)
    have := h.seats i hi x
    omega
  · have hle : A.out x ≤ (L.closed.map (fun A => A.out x)).sum := by
      refine List.single_le_sum (fun y hy => ?_) _ (List.mem_map.mpr ⟨A, hA, rfl⟩)
      obtain ⟨B, hB, rfl⟩ := List.mem_map.mp hy
      exact h.closed B hB x
    have := h.closed A hA x
    omega

/-- What is on no account is not out. -/
theorem total_eq_zero (hs : ∀ i, i < n → (L.seats i).out x = 0) (hc : ∀ A ∈ L.closed, A.out x = 0) :
    L.total n x = 0 := by
  have h1 : ∑ i ∈ Finset.range n, (L.seats i).out x = 0 :=
    Finset.sum_eq_zero fun i hi => hs i (Finset.mem_range.mp hi)
  have h2 : (L.closed.map (fun A => A.out x)).sum = 0 := by
    refine List.sum_eq_zero fun y hy => ?_
    obtain ⟨A, hA, rfl⟩ := List.mem_map.mp hy
    exact hc A hA
  unfold total
  rw [h1, h2]
  rfl

/-- Describe all owners differently. -/
def retag (L : Ledger τ ι) (f : τ → τ) : Ledger τ ι :=
  ⟨fun i => (L.seats i).retag f, L.closed.map (fun A => A.retag f)⟩

theorem retag_total (f : τ → τ) : (L.retag f).total n x = L.total n x := by
  unfold total retag
  rw [List.map_map]
  rfl

theorem Sound.retag (h : L.Sound n) (f : τ → τ) : (L.retag f).Sound n where
  seats := fun i hi x => h.seats i hi x
  closed := by
    intro B hB x
    obtain ⟨A, hA, rfl⟩ := List.mem_map.mp hB
    exact h.closed A hA x

end Ledger

end OsdiKernel
