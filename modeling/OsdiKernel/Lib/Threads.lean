import Mathlib.Algebra.BigOperators.Group.Finset.Basic
import Mathlib.Data.Fintype.Basic

/-!
# Threads, one step at a time

Threads that take turns, each of them somewhere in its program, and a record of
where those ended that are done. What is said about all of them is of two kinds:
of each by itself (`Everywhere`), and of any two (`Mutually`). A step moves one
thread, so it has to be looked at from three sides: where that thread goes, what
it does to what is said of the others, and what it is to each of them now.

A thread that ends goes to the record as it is, and starts anew.
-/

namespace OsdiKernel

variable {ι α : Type}

/-- Each thread and each that is done is at a place where `P` holds. -/
structure Everywhere (P : α → Prop) (pc : ι → α) (past : List α) : Prop where
  now : ∀ i, P (pc i)
  past : ∀ x ∈ past, P x

/-- Any two of them are at places related by `R`. -/
structure Mutually (R : α → α → Prop) (pc : ι → α) (past : List α) : Prop where
  now : ∀ i j, i ≠ j → R (pc i) (pc j)
  mixed : ∀ i, ∀ x ∈ past, R (pc i) x
  past : past.Pairwise R

/-- A place of somebody else than thread `i`. -/
def Elsewhere (pc : ι → α) (past : List α) (i : ι) (z : α) : Prop := (∃ j, j ≠ i ∧ pc j = z) ∨ z ∈ past

variable {P P' : α → Prop} {R : α → α → Prop} {pc : ι → α} {past : List α} {i : ι} {y z : α}

theorem Everywhere.elsewhere (h : Everywhere P pc past) (hz : Elsewhere pc past i z) : P z := by
  rcases hz with ⟨j, _, rfl⟩ | hz
  · exact h.now j
  · exact h.past z hz

theorem Mutually.elsewhere (h : Mutually R pc past) (hz : Elsewhere pc past i z) : R (pc i) z := by
  rcases hz with ⟨j, hj, rfl⟩ | hz
  · exact h.now i j hj.symm
  · exact h.mixed i z hz

variable [DecidableEq ι]

/-- **A step**, and what it leaves of what was said of the others. -/
theorem Everywhere.step (h : Everywhere P pc past) (hy : P' y) (hz : ∀ z, Elsewhere pc past i z → P z → P' z) :
    Everywhere P' (Function.update pc i y) past where
  now := by
    intro j
    by_cases hj : j = i
    · rw [hj, Function.update_self]
      exact hy
    · rw [Function.update_of_ne hj]
      exact hz _ (Or.inl ⟨j, hj, rfl⟩) (h.now j)
  past := fun x hx => hz x (Or.inr hx) (h.past x hx)

/-- **A step**, and what it makes of the thread for the others. -/
theorem Mutually.step (h : Mutually R pc past) (hsymm : ∀ x y, R x y → R y x)
    (hy : ∀ z, Elsewhere pc past i z → R y z) : Mutually R (Function.update pc i y) past where
  now := by
    intro j k hjk
    by_cases hj : j = i
    · subst hj
      rw [Function.update_self, Function.update_of_ne hjk.symm]
      exact hy _ (Or.inl ⟨k, hjk.symm, rfl⟩)
    · rw [Function.update_of_ne hj]
      by_cases hk : k = i
      · subst hk
        rw [Function.update_self]
        exact hsymm _ _ (hy _ (Or.inl ⟨j, hj, rfl⟩))
      · rw [Function.update_of_ne hk]
        exact h.now j k hjk
  mixed := by
    intro j x hx
    by_cases hj : j = i
    · rw [hj, Function.update_self]
      exact hy x (Or.inr hx)
    · rw [Function.update_of_ne hj]
      exact h.mixed j x hx
  past := h.past

/-- **A thread ends.** -/
theorem Everywhere.finish (h : Everywhere P pc past) (hy : P y) (i : ι) :
    Everywhere P (Function.update pc i y) (pc i :: past) where
  now := (h.step (i := i) hy (fun _ _ hz => hz)).now
  past := by
    intro x hx
    rcases List.mem_cons.mp hx with rfl | hx
    · exact h.now i
    · exact h.past x hx

theorem Mutually.finish (h : Mutually R pc past) (hsymm : ∀ x y, R x y → R y x) (hy : ∀ z, R y z) (i : ι) :
    Mutually R (Function.update pc i y) (pc i :: past) where
  now := (h.step (i := i) hsymm (fun z _ => hy z)).now
  mixed := by
    intro j x hx
    by_cases hj : j = i
    · rw [hj, Function.update_self]
      exact hy x
    · rw [Function.update_of_ne hj]
      rcases List.mem_cons.mp hx with rfl | hx
      · exact h.now j i hj
      · exact h.mixed j x hx
  past := List.pairwise_cons.mpr ⟨fun x hx => h.mixed i x hx, h.past⟩

/-! ## Counting -/

/-- How many threads are at a place where `p` holds. -/
def threadCount [Fintype ι] (p : α → Bool) (pc : ι → α) : Nat := ∑ i, if p (pc i) then 1 else 0

theorem threadCount_update [Fintype ι] (p : α → Bool) (pc : ι → α) (i : ι) (y : α) :
    threadCount p (Function.update pc i y) + (if p (pc i) then 1 else 0) = threadCount p pc + (if p y then 1 else 0) := by
  have hrest : ∑ j ∈ Finset.univ.erase i, (if p (Function.update pc i y j) then 1 else 0)
      = ∑ j ∈ Finset.univ.erase i, (if p (pc j) then 1 else 0) :=
    Finset.sum_congr rfl (fun j hj => by rw [Function.update_of_ne (Finset.ne_of_mem_erase hj)])
  have hold := Finset.add_sum_erase Finset.univ (fun j => if p (pc j) then 1 else 0) (Finset.mem_univ i)
  have hnew := Finset.add_sum_erase Finset.univ (fun j => if p (Function.update pc i y j) then 1 else 0) (Finset.mem_univ i)
  simp only [Function.update_self] at hnew
  unfold threadCount
  omega

omit [DecidableEq ι] in
theorem threadCount_eq_zero [Fintype ι] {p : α → Bool} (h : ∀ i, p (pc i) = false) : threadCount p pc = 0 := by
  refine Finset.sum_eq_zero (fun i _ => ?_)
  simp [h i]

end OsdiKernel
