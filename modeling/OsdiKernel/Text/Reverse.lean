import Mathlib.Data.List.GetD
import OsdiKernel.Shell.CommandLine

/-!
# `reverse`

`string.c` is in the tree three times: for the kernel, for the boot loader and
for the user programs. The copies of `reverse` swap the character counted from
the end with the one counted from the front, in the kernel, and with the first
one, in the other two.

What a copy leaves is read off index by index. Up to three characters are
reversed by all of them; a longer string only if it looks alike from the second
character on, but for the one in the middle.
-/

namespace OsdiKernel

/-- A string in a buffer, ended by a NUL. -/
structure HoldsString (s : Nat → UInt8) (text : List UInt8) : Prop where
  nonzero : ∀ c ∈ text, c ≠ 0
  chars : ∀ j c, (text ++ [0])[j]? = some c → s j = c

/-- `s[i]`, where the buffer is large enough. -/
def chars (s : Nat → UInt8) (i : Nat) : Except Fault UInt8 := .ok (s i)

/-- The loop of `reverse` from `i` on, for so many turns: character `i` from the end for character `front i`. -/
def reverseTurns (front : Nat → Nat) (s : Nat → UInt8) (i : Nat) : Nat → Except Fault (Nat → UInt8)
  | 0 => .error .spin
  | turns + 1 => do
      let len ← strlen (chars s)
      if i < len / 2 then
        let temp := s (len - i - 1)
        let s := Function.update s (len - i - 1) (s (front i))
        reverseTurns front (Function.update s (front i) temp) (i + 1) turns
      else .ok s

/-- `reverse`, in the kernel: with `s[i]`. -/
def reverse (s : Nat → UInt8) : Except Fault (Nat → UInt8) := reverseTurns (fun i => i) s 0 (2 ^ 31)

/-- `reverse`, in the boot loader: with `s[0]`, at every turn. -/
def bootloaderReverse (s : Nat → UInt8) : Except Fault (Nat → UInt8) := reverseTurns (fun _ => 0) s 0 (2 ^ 31)

/-- `reverse`, in the user programs: with `s[0]` too. -/
def rootfsReverse (s : Nat → UInt8) : Except Fault (Nat → UInt8) := reverseTurns (fun _ => 0) s 0 (2 ^ 31)

variable {s s' : Nat → UInt8} {text : List UInt8} {front : Nat → Nat} {len i : Nat}

/-! ## Strings in a buffer -/

namespace HoldsString

theorem getElem (h : HoldsString s text) (hi : i < text.length) : s i = text[i] := by
  refine h.chars i _ ?_
  rw [List.getElem?_append_left hi, List.getElem?_eq_getElem hi]

theorem ended (h : HoldsString s text) : s text.length = 0 := h.chars _ _ List.getElem?_concat_length

theorem ne_zero (h : HoldsString s text) (hi : i < text.length) : s i ≠ 0 := by
  rw [h.getElem hi]
  exact h.nonzero _ (List.getElem_mem hi)

/-- A buffer holds a string when it holds its characters. -/
theorem of_getElem (hnz : ∀ c ∈ text, c ≠ 0) (hc : ∀ i (hi : i < text.length), s i = text[i])
    (hend : s text.length = 0) : HoldsString s text := by
  refine ⟨hnz, fun j c hj => ?_⟩
  rcases Nat.lt_trichotomy j text.length with hlt | rfl | hgt
  · rw [List.getElem?_append_left hlt, List.getElem?_eq_getElem hlt] at hj
    exact (hc j hlt).trans (Option.some.inj hj)
  · rw [List.getElem?_concat_length] at hj
    exact hend.trans (Option.some.inj hj)
  · rw [List.getElem?_eq_none (by rw [List.length_append, List.length_singleton]; omega)] at hj
    exact absurd hj (by simp)

/-- A buffer holds one string. -/
theorem unique {text' : List UInt8} (h : HoldsString s text) (h' : HoldsString s text') : text = text' := by
  have hle : ∀ {xs ys : List UInt8}, HoldsString s xs → HoldsString s ys → xs.length ≤ ys.length := by
    intro xs ys hx hy
    by_contra hlt
    exact hx.ne_zero (Nat.lt_of_not_le hlt) hy.ended
  have hlen : text.length = text'.length := Nat.le_antisymm (hle h h') (hle h' h)
  exact List.ext_getElem hlen (fun i hi hi' => (h.getElem hi).symm.trans (h'.getElem hi'))

theorem reads (h : HoldsString s text) : Reads (OsdiKernel.chars s) 0 (text ++ [0]) := by
  intro j c hj
  rw [Nat.zero_add, OsdiKernel.chars, h.chars j c hj]

theorem strlen_eq (h : HoldsString s text) (hlen : text.length < 2 ^ 31) :
    strlen (OsdiKernel.chars s) = .ok text.length := by
  rw [strlen, strlenTurns_spec h.reads h.nonzero hlen, Nat.zero_add]

/-- A length that is no `int` is not returned. -/
theorem strlen_spins (h : HoldsString s text) (hlen : 2 ^ 31 ≤ text.length) :
    strlen (OsdiKernel.chars s) = .error .spin := by
  have hturns : ∀ n i, i + n ≤ text.length → strlenTurns (OsdiKernel.chars s) i n = .error .spin := by
    intro n
    induction n with
    | zero => exact fun _ _ => rfl
    | succ n ih =>
        intro i hi
        have hne : s i ≠ 0 := h.ne_zero (by omega)
        rw [strlenTurns, OsdiKernel.chars, ok_bind, if_neg hne]
        exact ih (i + 1) (by omega)
  exact hturns (2 ^ 31) 0 (by omega)

end HoldsString

/-- A buffer with these characters, and NULs behind. -/
def bufferOf (text : List UInt8) : Nat → UInt8 := fun i => text.getD i 0

theorem holdsString_bufferOf (h : ∀ c ∈ text, c ≠ 0) : HoldsString (bufferOf text) text :=
  .of_getElem h (fun _ hi => List.getD_eq_getElem _ _ hi) (List.getD_eq_default _ _ le_rfl)

/-- One character more. -/
theorem update_bufferOf (text : List UInt8) (c : UInt8) :
    Function.update (bufferOf text) text.length c = bufferOf (text ++ [c]) := by
  funext j
  unfold bufferOf
  rcases Nat.lt_trichotomy j text.length with hlt | rfl | hgt
  · rw [Function.update_of_ne (by omega), List.getD_append _ _ _ _ hlt]
  · rw [Function.update_self, List.getD_append_right _ _ _ _ le_rfl, Nat.sub_self]
    rfl
  · rw [Function.update_of_ne (by omega), List.getD_eq_default _ _ (by omega),
      List.getD_eq_default _ _ (by rw [List.length_append, List.length_singleton]; omega)]

/-! ## The loop -/

/-- The buffer after so many turns. -/
def swapped (front : Nat → Nat) (len : Nat) (s : Nat → UInt8) : Nat → Nat → UInt8
  | 0 => s
  | i + 1 =>
      let t := swapped front len s i
      Function.update (Function.update t (len - i - 1) (t (front i))) (front i) (t (len - i - 1))

/-- Swapping characters leaves the string as long as it was. -/
theorem swapped_string (hlen : s len = 0) (hnz : ∀ j < len, s j ≠ 0) (hfront : ∀ i < len / 2, front i < len) (i : Nat) :
    i ≤ len / 2 → swapped front len s i len = 0 ∧ ∀ j < len, swapped front len s i j ≠ 0 := by
  induction i with
  | zero => exact fun _ => ⟨hlen, hnz⟩
  | succ i ih =>
      intro hi
      obtain ⟨hend, hother⟩ := ih (by omega)
      have hf := hfront i hi
      refine ⟨?_, fun j hj => ?_⟩
      · rw [swapped, Function.update_of_ne (by omega), Function.update_of_ne (by omega), hend]
      · rw [swapped]
        by_cases hjf : j = front i
        · rw [hjf, Function.update_self]
          exact hother _ (by omega)
        · rw [Function.update_of_ne hjf]
          by_cases hjl : j = len - i - 1
          · rw [hjl, Function.update_self]
            exact hother _ hf
          · rw [Function.update_of_ne hjl]
            exact hother j hj

/-- What holds the characters of a string is a string. -/
theorem holdsString_ofFn (hend : s len = 0) (hnz : ∀ j < len, s j ≠ 0) :
    HoldsString s ((List.range len).map s) := by
  refine HoldsString.of_getElem (fun c hc => ?_) (fun i hi => ?_) ?_
  · obtain ⟨j, hj, rfl⟩ := List.mem_map.mp hc
    exact hnz j (List.mem_range.mp hj)
  · rw [List.getElem_map, List.getElem_range]
  · rw [List.length_map, List.length_range, hend]

theorem reverseTurns_eq (hlen : s len = 0) (hnz : ∀ j < len, s j ≠ 0) (hfront : ∀ i < len / 2, front i < len)
    (hint : len < 2 ^ 31) (turns : Nat) : ∀ i, i ≤ len / 2 → len / 2 - i < turns →
      reverseTurns front (swapped front len s i) i turns = .ok (swapped front len s (len / 2)) := by
  induction turns with
  | zero => exact fun i _ h => absurd h (Nat.not_lt_zero _)
  | succ turns ih =>
      intro i hi hturns
      obtain ⟨hend, hother⟩ := swapped_string hlen hnz hfront i hi
      have hstrlen : strlen (chars (swapped front len s i)) = .ok len := by
        have h := (holdsString_ofFn hend hother).strlen_eq (by rwa [List.length_map, List.length_range])
        rwa [List.length_map, List.length_range] at h
      rw [reverseTurns, hstrlen, ok_bind]
      by_cases hmore : i < len / 2
      · rw [if_pos hmore]
        exact ih (i + 1) hmore (by omega)
      · obtain rfl : i = len / 2 := by omega
        rw [if_neg hmore]

/-- **`reverse`** swaps as often as the string is long, halved. -/
theorem reverseTurns_string (h : HoldsString s text) (hint : text.length < 2 ^ 31)
    (hfront : ∀ i < text.length / 2, front i < text.length) :
    reverseTurns front s 0 (2 ^ 31) = .ok (swapped front text.length s (text.length / 2)) :=
  reverseTurns_eq h.ended (fun _ hj => h.ne_zero hj) hfront hint (2 ^ 31) 0 (Nat.zero_le _) (by omega)

/-- In the kernel, the two ends are reversed and the middle is as it was. -/
theorem swapped_kernel (s : Nat → UInt8) (len i : Nat) : i ≤ len / 2 → ∀ j, swapped (fun i => i) len s i j =
    if j < i ∨ (len - i ≤ j ∧ j < len) then s (len - 1 - j) else s j := by
  induction i with
  | zero =>
      intro _ j
      exact (if_neg (by omega)).symm
  | succ i ih =>
      intro hi j
      have hat := ih (by omega)
      rw [swapped]
      by_cases hji : j = i
      · subst hji
        rw [Function.update_self, hat, if_neg (by omega), if_pos (by omega)]
        congr 1
        omega
      · rw [Function.update_of_ne hji]
        by_cases hjl : j = len - i - 1
        · rw [hjl, Function.update_self, hat, if_neg (by omega), if_pos (by omega)]
          congr 1
          omega
        · rw [Function.update_of_ne hjl, hat]
          exact if_congr (by omega) rfl rfl

/-- In the other two, the first character goes to the end, and those from the end on towards the middle. -/
theorem swapped_first (s : Nat → UInt8) (len i : Nat) : i + 1 ≤ len / 2 → ∀ j, swapped (fun _ => 0) len s (i + 1) j =
    if j = 0 then s (len - (i + 1)) else if j = len - 1 then s 0
    else if len - (i + 1) ≤ j ∧ j < len - 1 then s (j + 1) else s j := by
  induction i with
  | zero =>
      intro hi j
      rw [swapped, swapped]
      by_cases hj : j = 0
      · rw [hj, Function.update_self, if_pos rfl]
        rfl
      · rw [Function.update_of_ne hj, if_neg hj, Nat.sub_zero]
        by_cases hjl : j = len - 1
        · rw [hjl, Function.update_self, if_pos rfl]
        · rw [Function.update_of_ne hjl, if_neg hjl, if_neg (by omega)]
  | succ i ih =>
      intro hi j
      have hat := ih (by omega)
      rw [swapped]
      by_cases hj : j = 0
      · rw [hj, Function.update_self, if_pos rfl, hat, if_neg (by omega), if_neg (by omega), if_neg (by omega)]
        rfl
      · rw [Function.update_of_ne hj, if_neg hj]
        by_cases hjl : j = len - (i + 1) - 1
        · rw [hjl, Function.update_self, hat, if_pos rfl, if_neg (by omega), if_pos (by omega)]
          congr 1
          omega
        · rw [Function.update_of_ne hjl, hat, if_neg hj]
          by_cases hlast : j = len - 1
          · rw [if_pos hlast, if_pos hlast]
          · rw [if_neg hlast, if_neg hlast]
            exact if_congr (by omega) rfl rfl

/-! ## What the copies leave -/

/-- Neither the first of so many, nor the one in the middle. -/
def Inner (len j : Nat) : Prop := j ≠ 0 ∧ 2 * j + 1 ≠ len

instance (len j : Nat) : Decidable (Inner len j) := inferInstanceAs (Decidable (_ ∧ _))

/-- Every character but the first, and the one in the middle if there is one, is the same. -/
def Alike (text : List UInt8) : Prop :=
  ∀ j < text.length, ∀ k < text.length, Inner text.length j → Inner text.length k → text[j]? = text[k]?

instance (text : List UInt8) : Decidable (Alike text) :=
  inferInstanceAs (Decidable (∀ j < text.length, ∀ k < text.length, _ → _ → text[j]? = text[k]?))

/-- To hold the reverse of a string is to hold each of its characters. -/
theorem holdsString_reverse_iff (h : HoldsString s text) (hend : s' text.length = 0) :
    HoldsString s' text.reverse ↔ ∀ j < text.length, s' j = s (text.length - 1 - j) := by
  constructor
  · intro h' j hj
    rw [h'.getElem (by rwa [List.length_reverse]), List.getElem_reverse, h.getElem (by omega)]
  · intro hall
    refine HoldsString.of_getElem (fun c hc => h.nonzero c (List.mem_reverse.mp hc)) (fun j hj => ?_) ?_
    · rw [List.length_reverse] at hj
      rw [hall j hj, List.getElem_reverse, h.getElem (by omega)]
    · rwa [List.length_reverse]

/-- **The kernel's `reverse`** reverses. -/
theorem reverse_spec (h : HoldsString s text) (hint : text.length < 2 ^ 31) :
    ∃ s', reverse s = .ok s' ∧ HoldsString s' text.reverse := by
  have hfront : ∀ i < text.length / 2, i < text.length := fun i hi => by omega
  refine ⟨_, reverseTurns_string h hint hfront, ?_⟩
  have hend := (swapped_string h.ended (fun _ hj => h.ne_zero hj) hfront _ le_rfl).1
  refine (holdsString_reverse_iff h hend).mpr (fun j hj => ?_)
  rw [swapped_kernel _ _ _ le_rfl]
  by_cases hout : j < text.length / 2 ∨ (text.length - text.length / 2 ≤ j ∧ j < text.length)
  · rw [if_pos hout]
  · -- the one in the middle
    rw [if_neg hout]
    congr 1
    omega

theorem HoldsString.alike_iff (h : HoldsString s text) : Alike text ↔
    ∀ j < text.length, ∀ k < text.length, Inner text.length j → Inner text.length k → s j = s k := by
  refine forall₂_congr (fun j hj => forall₂_congr (fun k hk => ?_))
  rw [h.getElem hj, h.getElem hk, List.getElem?_eq_getElem hj, List.getElem?_eq_getElem hk, Option.some.injEq]

/-- **Swapping with the first character** reverses what looks alike, and nothing else. -/
theorem swapped_first_iff (h : HoldsString s text) :
    (∀ j < text.length, swapped (fun _ => 0) text.length s (text.length / 2) j = s (text.length - 1 - j)) ↔
      Alike text := by
  rw [h.alike_iff]
  generalize text.length = len
  rcases Nat.lt_or_ge len 2 with hshort | hlong
  · -- nothing is swapped, and there is nothing to be alike
    have hnone : len / 2 = 0 := by omega
    refine ⟨fun _ j hj _ _ h0 => absurd h0.1 (by omega), fun _ j hj => ?_⟩
    rw [hnone, swapped]
    congr 1
    omega
  · obtain ⟨i, hi⟩ : ∃ i, len / 2 = i + 1 := ⟨len / 2 - 1, by omega⟩
    have hat := swapped_first s len i (by omega)
    rw [hi]
    constructor
    · intro hall
      -- in front of the middle, a character is where it was
      have hfront : ∀ j, 1 ≤ j → j < len - (i + 1) → s j = s (len - 1 - j) := by
        intro j h1 h2
        rw [← hall j (by omega), hat, if_neg (by omega), if_neg (by omega), if_neg (by omega)]
      -- behind it, it has come one place nearer
      have hback : ∀ j, 1 ≤ j → j < i + 1 → s j = s (len - j) := by
        intro j h1 h2
        have hj := hall (len - 1 - j) (by omega)
        rw [hat, if_neg (by omega), if_neg (by omega), if_pos (by omega)] at hj
        rw [show len - 1 - (len - 1 - j) = j by omega, show len - 1 - j + 1 = len - j by omega] at hj
        exact hj.symm
      have hlast : ∀ d, d < i + 1 → s (len - 1 - d) = s (len - 1) := by
        intro d
        induction d with
        | zero => exact fun _ => rfl
        | succ d ih =>
            intro hd
            rw [← hfront (d + 1) (by omega) (by omega), hback (d + 1) (by omega) hd, ← ih (by omega)]
            congr 1
            omega
      have hany : ∀ j < len, j ≠ 0 → 2 * j + 1 ≠ len → s j = s (len - 1) := by
        intro j hj h0 hmid
        rcases Nat.lt_or_ge j (len - (i + 1)) with hlt | hge
        · rw [hfront j (by omega) hlt]
          exact hlast j (by omega)
        · rw [← hlast (len - 1 - j) (by omega)]
          congr 1
          omega
      exact fun j hj k hk hj' hk' => (hany j hj hj'.1 hj'.2).trans (hany k hk hk'.1 hk'.2).symm
    · intro halike j hj
      rw [hat]
      by_cases h0 : j = 0
      · rw [if_pos h0]
        exact halike _ (by omega) _ (by omega) ⟨by omega, by omega⟩ ⟨by omega, by omega⟩
      · rw [if_neg h0]
        by_cases hl : j = len - 1
        · rw [if_pos hl]
          congr 1
          omega
        · rw [if_neg hl]
          by_cases hb : len - (i + 1) ≤ j ∧ j < len - 1
          · rw [if_pos hb]
            exact halike _ (by omega) _ (by omega) ⟨by omega, by omega⟩ ⟨by omega, by omega⟩
          · rw [if_neg hb]
            by_cases hmid : 2 * j + 1 = len
            · congr 1
              omega
            · exact halike _ (by omega) _ (by omega) ⟨h0, hmid⟩ ⟨by omega, by omega⟩

/-- **The other two**, on a string whose length is an `int`. -/
theorem bootloaderReverse_iff (h : HoldsString s text) (hint : text.length < 2 ^ 31) :
    ∃ s', bootloaderReverse s = .ok s' ∧ (HoldsString s' text.reverse ↔ Alike text) := by
  have hfront : ∀ i < text.length / 2, 0 < text.length := fun i hi => by omega
  refine ⟨_, reverseTurns_string h hint hfront, ?_⟩
  have hend := (swapped_string h.ended (fun _ hj => h.ne_zero hj) hfront _ le_rfl).1
  rw [holdsString_reverse_iff h hend, swapped_first_iff h]

/-- Where `strlen` does not return, `reverse` does not. -/
theorem reverseTurns_spins (h : HoldsString s text) (hint : 2 ^ 31 ≤ text.length) (front : Nat → Nat) (turns : Nat) :
    reverseTurns front s 0 turns = .error .spin := by
  cases turns with
  | zero => rfl
  | succ turns =>
      rw [reverseTurns, h.strlen_spins hint]
      rfl

end OsdiKernel
