import Mathlib.Data.List.Basic

/-!
# Bytes in memory

A memory maps addresses to bytes, as far as it can be read. `BytesAt mem a bs`
says that the bytes `bs` lie at `a` and up.
-/

namespace OsdiKernel

/-- What can be read, and what is read there. -/
abbrev Memory := Nat → Option UInt8

variable {mem : Memory} {a : Nat} {b : UInt8} {bs cs : List UInt8}

/-- The bytes `bs` lie in memory from `a` on. -/
def BytesAt (mem : Memory) (a : Nat) (bs : List UInt8) : Prop :=
  ∀ i b, bs[i]? = some b → mem (a + i) = some b

theorem bytesAt_nil : BytesAt mem a [] := fun i b h => absurd h (by simp)

theorem bytesAt_cons : BytesAt mem a (b :: bs) ↔ mem a = some b ∧ BytesAt mem (a + 1) bs := by
  refine ⟨fun h => ⟨h 0 b rfl, fun i c hc => ?_⟩, fun ⟨h0, hs⟩ i c hc => ?_⟩
  · rw [Nat.add_right_comm]
    exact h (i + 1) c hc
  · cases i with
    | zero => exact h0.trans hc
    | succ i =>
        rw [← Nat.add_assoc, Nat.add_right_comm]
        exact hs i c hc

theorem bytesAt_append : BytesAt mem a (bs ++ cs) ↔ BytesAt mem a bs ∧ BytesAt mem (a + bs.length) cs := by
  induction bs generalizing a with
  | nil => exact ⟨fun h => ⟨bytesAt_nil, h⟩, fun h => h.2⟩
  | cons b bs ih =>
      have hnext : a + 1 + bs.length = a + (b :: bs).length := by
        rw [List.length_cons, Nat.add_right_comm, Nat.add_assoc]
      rw [List.cons_append, bytesAt_cons, bytesAt_cons, ih, and_assoc, hnext]

end OsdiKernel
