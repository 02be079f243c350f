import OsdiKernel.Boot.LoadKernel
import OsdiKernel.Text.Reverse

/-!
# `itoa` and `atoi`

The digits are written the last one first, zeros behind them up to the width that
was asked for, and the whole is reversed. But for `reverse` the three copies are
the same, so they agree on the numbers whose padded digits their `reverse`s agree
on; and a number that comes out right is read back by `atoi`.
-/

namespace OsdiKernel

/-- `(x % 10) + '0'`, as a `char`. -/
def digitOf (x : Int) : UInt8 := UInt8.ofNat ((x.tmod 10 + 48) % 256).toNat

/-- The first loop of `itoa`, while there is something left of `x`: `i`, and the buffer. -/
def itoaDigits (x : Int) (str : Nat → UInt8) (i : Nat) : Nat → Except Fault (Nat × (Nat → UInt8))
  | 0 => .error .spin
  | turns + 1 =>
      if x = 0 then .ok (i, str)
      else itoaDigits (x.tdiv 10) (Function.update str i (digitOf x)) (i + 1) turns

/-- Its second loop, while there are fewer than `d`. -/
def itoaZeros (d : Int) (str : Nat → UInt8) (i : Nat) : Nat → Except Fault (Nat × (Nat → UInt8))
  | 0 => .error .spin
  | turns + 1 =>
      if (i : Int) < d then itoaZeros d (Function.update str i 48) (i + 1) turns
      else .ok (i, str)

/-- `itoa`, with the `reverse` of the same file. -/
def itoaWith (reverse : (Nat → UInt8) → Except Fault (Nat → UInt8)) (x : Int) (str : Nat → UInt8) (d : Int) :
    Except Fault (Nat → UInt8) := do
  let (i, str) ← itoaDigits x str 0 (2 ^ 31)
  let (i, str) ← itoaZeros d str i (2 ^ 31)
  reverse (Function.update str i 0)

/-- `itoa`, in the kernel. -/
def itoa (x : Int) (str : Nat → UInt8) (d : Int) : Except Fault (Nat → UInt8) := itoaWith reverse x str d

/-- `itoa`, in the boot loader. -/
def bootloaderItoa (x : Int) (str : Nat → UInt8) (d : Int) : Except Fault (Nat → UInt8) :=
  itoaWith bootloaderReverse x str d

/-- `itoa`, in the user programs. -/
def rootfsItoa (x : Int) (str : Nat → UInt8) (d : Int) : Except Fault (Nat → UInt8) := itoaWith rootfsReverse x str d

/-- The loop of `atoi`, from `i` on, for so many turns. -/
def atoiTurns (str : Nat → UInt8) (res : Int) (i : Nat) : Nat → Except Fault Int
  | 0 => .error .spin
  | turns + 1 =>
      if str i = 0 then .ok res
      else atoiTurns str (toInt (res * 10 + (str i).toNat - 48)) (i + 1) turns

/-- `atoi`, of what is in a buffer. The three copies are the same, to the letter. -/
def bufferAtoi (str : Nat → UInt8) : Except Fault Int := atoiTurns str 0 0 (2 ^ 31)

/-- The copies of `string.c`. -/
inductive StringCopy where
  | kernel
  | bootloader
  | rootfs
  deriving DecidableEq, Repr

namespace StringCopy

def reverse : StringCopy → (Nat → UInt8) → Except Fault (Nat → UInt8)
  | kernel => OsdiKernel.reverse
  | bootloader => bootloaderReverse
  | rootfs => rootfsReverse

def itoa : StringCopy → Int → (Nat → UInt8) → Int → Except Fault (Nat → UInt8)
  | kernel => OsdiKernel.itoa
  | bootloader => bootloaderItoa
  | rootfs => rootfsItoa

end StringCopy

variable {s s' str : Nat → UInt8} {text ds : List UInt8} {x d i n : Nat}

/-! ## The digits -/

/-- A digit's character, as a byte. -/
def charByte (c : Char) : UInt8 := UInt8.ofNat c.toNat

/-- The decimal digits of `x`, padded with zeros on the left to at least `d` of them. -/
def decimal (x d : Nat) : List UInt8 := ((Nat.toDigits 10 x).leftpad d '0').map charByte

/-- The digits of `x` from the last one on, and none of zero. -/
def digitsUp (x : Nat) : List UInt8 := if x = 0 then [] else ((Nat.toDigits 10 x).map charByte).reverse

theorem charByte_digitChar : ∀ n < 10, charByte n.digitChar = UInt8.ofNat (n + 48) := by decide

theorem digitOf_natCast (x : Nat) : digitOf x = UInt8.ofNat (x % 10 + 48) := by
  have hmod : ((x : Int).tmod 10 + 48) % 256 = ((x % 10 + 48 : Nat) : Int) := by
    rw [Int.tmod_eq_emod_of_nonneg (by omega)]
    omega
  rw [digitOf, hmod, Int.toNat_natCast]

/-- One more digit. -/
theorem digitsUp_pos (h : x ≠ 0) : digitsUp x = digitOf x :: digitsUp (x / 10) := by
  rw [digitsUp, if_neg h, digitOf_natCast]
  rcases Nat.lt_or_ge x 10 with hlt | hge
  · have hz : x / 10 = 0 := by omega
    rw [Nat.toDigits_of_lt_base hlt, hz, digitsUp, if_pos rfl, Nat.mod_eq_of_lt hlt, ← charByte_digitChar x hlt]
    rfl
  · have hnz : x / 10 ≠ 0 := by omega
    rw [Nat.toDigits_of_base_le (by decide) hge, digitsUp, if_neg hnz, List.map_append, List.reverse_append,
      ← charByte_digitChar _ (Nat.mod_lt x (by decide))]
    rfl

theorem digitsUp_length (h : x < 2 ^ 31) : (digitsUp x).length ≤ 10 := by
  unfold digitsUp
  by_cases hx : x = 0
  · rw [if_pos hx]
    exact Nat.zero_le _
  · rw [if_neg hx, List.length_reverse, List.length_map, Nat.length_toDigits_le_iff (by decide) (by decide)]
    omega

/-- The characters that `itoa` reverses. -/
def itoaText (x d : Nat) : List UInt8 := digitsUp x ++ List.replicate (d - (digitsUp x).length) 48

/-- **Reversed**, they are the number. -/
theorem itoaText_reverse (hd : 1 ≤ d) : (itoaText x d).reverse = decimal x d := by
  rw [itoaText, List.reverse_append, List.reverse_replicate, decimal, List.leftpad, List.map_append, List.map_replicate]
  by_cases hx : x = 0
  · subst hx
    obtain ⟨d, rfl⟩ : ∃ k, d = k + 1 := ⟨d - 1, by omega⟩
    rw [Nat.toDigits_zero, digitsUp, if_pos rfl, List.reverse_nil, List.append_nil, List.length_nil, Nat.sub_zero,
      List.replicate_succ']
    rfl
  · rw [digitsUp, if_neg hx, List.reverse_reverse, List.length_reverse, List.length_map]
    rfl

theorem itoaText_nonzero : ∀ c ∈ itoaText x d, c ≠ 0 := by
  intro c hc
  rcases List.mem_append.mp hc with hc | hc
  · unfold digitsUp at hc
    by_cases hx : x = 0
    · rw [if_pos hx] at hc
      exact absurd hc (by simp)
    · rw [if_neg hx] at hc
      obtain ⟨ch, hch, rfl⟩ := List.mem_map.mp (List.mem_reverse.mp hc)
      have hdigit := Nat.isDigit_of_mem_toDigits (by decide) (by decide) hch
      intro h0
      have hto : (charByte ch).toNat = ch.toNat := toNat_ofNat_digit hdigit
      have h48 := digit_toNat hdigit
      rw [h0] at hto
      have : (0 : UInt8).toNat = 0 := rfl
      omega
  · rw [(List.mem_replicate.mp hc).2]
    decide

theorem itoaText_length (hx : x < 2 ^ 31) (hd : d < 2 ^ 31) : (itoaText x d).length < 2 ^ 31 := by
  have := digitsUp_length hx
  rw [itoaText, List.length_append, List.length_replicate]
  omega

/-! ## The loops -/

/-- The first characters of the buffer. -/
def Filled (str : Nat → UInt8) (ds : List UInt8) : Prop := ∀ j c, ds[j]? = some c → str j = c

theorem Filled.push (h : Filled str ds) (c : UInt8) : Filled (Function.update str ds.length c) (ds ++ [c]) := by
  intro j b hj
  rcases Nat.lt_trichotomy j ds.length with hlt | rfl | hgt
  · rw [List.getElem?_append_left hlt] at hj
    exact (Function.update_of_ne (by omega) _ _).trans (h j b hj)
  · rw [List.getElem?_concat_length] at hj
    exact (Function.update_self ..).trans (Option.some.inj hj)
  · rw [List.getElem?_eq_none (by rw [List.length_append, List.length_singleton]; omega)] at hj
    exact absurd hj (by simp)

theorem itoaDigits_spec (turns : Nat) : ∀ (x : Nat) (str : Nat → UInt8) (ds : List UInt8), x < turns → Filled str ds →
    ∃ str', itoaDigits x str ds.length turns = .ok ((ds ++ digitsUp x).length, str') ∧
      Filled str' (ds ++ digitsUp x) := by
  induction turns with
  | zero => exact fun x _ _ h => absurd h (Nat.not_lt_zero x)
  | succ turns ih =>
      intro x str ds hx hf
      rw [itoaDigits]
      by_cases h0 : x = 0
      · subst h0
        have hnil : ds ++ digitsUp 0 = ds := List.append_nil ds
        rw [hnil]
        exact ⟨str, rfl, hf⟩
      · have hdiv : (x : Int).tdiv 10 = ((x / 10 : Nat) : Int) := rfl
        have hsplit : ds ++ digitsUp x = ds ++ [digitOf x] ++ digitsUp (x / 10) := by
          rw [digitsUp_pos h0, List.append_assoc, List.singleton_append]
        have hlen : ds.length + 1 = (ds ++ [digitOf x]).length := by rw [List.length_append, List.length_singleton]
        rw [if_neg (by omega), hdiv, hlen, hsplit]
        exact ih (x / 10) _ _ (by omega) (hf.push _)

theorem itoaZeros_spec (d turns : Nat) : ∀ (str : Nat → UInt8) (ds : List UInt8), d < turns + ds.length → 0 < turns →
    Filled str ds → ∃ str', itoaZeros d str ds.length turns =
        .ok ((ds ++ List.replicate (d - ds.length) 48).length, str') ∧
      Filled str' (ds ++ List.replicate (d - ds.length) 48) := by
  induction turns with
  | zero => exact fun _ _ _ h => absurd h (Nat.not_lt_zero 0)
  | succ turns ih =>
      intro str ds hd _ hf
      rw [itoaZeros]
      by_cases hmore : ds.length < d
      · have hsplit : ds ++ List.replicate (d - ds.length) 48 =
            ds ++ [48] ++ List.replicate (d - (ds ++ [(48 : UInt8)]).length) 48 := by
          rw [List.append_assoc, List.singleton_append, List.length_append, List.length_singleton,
            ← List.replicate_succ, show d - (ds.length + 1) + 1 = d - ds.length by omega]
        have hlen : ds.length + 1 = (ds ++ [(48 : UInt8)]).length := by
          rw [List.length_append, List.length_singleton]
        rw [if_pos (by omega), hsplit, hlen]
        exact ih _ _ (by rw [← hlen]; omega) (by omega) (hf.push _)
      · have hnone : ds ++ List.replicate (d - ds.length) 48 = ds := by
          rw [show d - ds.length = 0 by omega, List.replicate_zero, List.append_nil]
        rw [if_neg (by omega), hnone]
        exact ⟨str, rfl, hf⟩

/-- **`itoa`**, up to its call of `reverse`. -/
theorem itoaWith_eq (hx : x < 2 ^ 31) (hd : d < 2 ^ 31) (str : Nat → UInt8)
    (reverse : (Nat → UInt8) → Except Fault (Nat → UInt8)) :
    ∃ s, HoldsString s (itoaText x d) ∧ itoaWith reverse x str d = reverse s := by
  obtain ⟨str₁, hrun₁, hf₁⟩ := itoaDigits_spec (2 ^ 31) x str [] hx (fun j c h => absurd h (by simp))
  rw [List.nil_append] at hrun₁ hf₁
  obtain ⟨str₂, hrun₂, hf₂⟩ := itoaZeros_spec d (2 ^ 31) str₁ (digitsUp x) (by omega) (by decide) hf₁
  refine ⟨Function.update str₂ (itoaText x d).length 0, ⟨itoaText_nonzero, hf₂.push 0⟩, ?_⟩
  rw [itoaWith]
  have hstart : itoaDigits (x : Int) str 0 (2 ^ 31) = .ok ((digitsUp x).length, str₁) := hrun₁
  rw [hstart, ok_bind]
  show (itoaZeros d str₁ (digitsUp x).length (2 ^ 31) >>= _) = _
  rw [hrun₂]
  rfl

/-- **`atoi`** reads what the buffer holds. -/
theorem bufferAtoi_eq (h : HoldsString s text) (hlen : text.length < 2 ^ 31) : bufferAtoi s = .ok (atoi text) := by
  have hturns : ∀ n i res, i ≤ text.length → text.length - i < n → atoiTurns s res i n =
      .ok (atoiFrom res (text.drop i)) := by
    intro n
    induction n with
    | zero => exact fun _ _ _ h => absurd h (Nat.not_lt_zero _)
    | succ n ih =>
        intro i res hi hn
        rw [atoiTurns]
        rcases Nat.eq_or_lt_of_le hi with rfl | hlt
        · rw [if_pos h.ended, List.drop_length]
          rfl
        · have hne := h.ne_zero hlt
          rw [if_neg hne, ih (i + 1) _ hlt (by omega), List.drop_eq_getElem_cons hlt, ← h.getElem hlt, atoiFrom_cons hne]
  exact hturns (2 ^ 31) 0 0 (Nat.zero_le _) (by omega)

/-- Zeros in front do not count. -/
theorem ofDigitChars_zeros (cs : List Char) (n : Nat) :
    Nat.ofDigitChars 10 (List.replicate n '0' ++ cs) 0 = Nat.ofDigitChars 10 cs 0 := by
  induction n with
  | zero => rfl
  | succ n ih =>
      rw [List.replicate_succ, List.cons_append, Nat.ofDigitChars_cons]
      exact ih

/-- **A number that is written is read back.** -/
theorem atoi_decimal (hx : x < 2 ^ 31) : atoi (decimal x d) = x := by
  have hdigits : ∀ c ∈ (Nat.toDigits 10 x).leftpad d '0', c.isDigit = true := by
    intro c hc
    rcases List.mem_append.mp hc with hc | hc
    · rw [(List.mem_replicate.mp hc).2]
      rfl
    · exact Nat.isDigit_of_mem_toDigits (by decide) (by decide) hc
  have hval : Nat.ofDigitChars 10 ((Nat.toDigits 10 x).leftpad d '0') 0 = x := by
    rw [List.leftpad, ofDigitChars_zeros, Nat.ofDigitChars_ten_toDigits]
  have h := atoi_digits hdigits 0 (by rw [hval]; exact hx)
  rw [hval] at h
  exact h

/-! ## The three copies -/

/-- Every copy writes the padded digits of the number, whatever was in the buffer, and they are read back. -/
def CopiesAgree (x d : Nat) : Prop :=
  ∀ (copy : StringCopy) (str : Nat → UInt8), ∃ s, copy.itoa x str d = .ok s ∧ HoldsString s (decimal x d) ∧
    bufferAtoi s = .ok (x : Int)

/-- Every copy reverses what the buffer holds. -/
def CopiesReverse (s : Nat → UInt8) (text : List UInt8) : Prop :=
  ∀ copy : StringCopy, ∃ s', copy.reverse s = .ok s' ∧ HoldsString s' text.reverse

/-- **The kernel's copy** is right about every number. -/
theorem itoa_spec (hx : x < 2 ^ 31) (h1 : 1 ≤ d) (hd : d < 2 ^ 31) (str : Nat → UInt8) :
    ∃ s, itoa x str d = .ok s ∧ HoldsString s (decimal x d) := by
  obtain ⟨s₀, hs₀, hrun⟩ := itoaWith_eq hx hd str reverse
  obtain ⟨s, hrev, hs⟩ := reverse_spec hs₀ (itoaText_length hx hd)
  rw [itoaText_reverse h1] at hs
  exact ⟨s, hrun.trans hrev, hs⟩

/-- The other two are, about a number whose padded digits look alike but for the last and the middle one. -/
theorem bootloaderItoa_iff (hx : x < 2 ^ 31) (h1 : 1 ≤ d) (hd : d < 2 ^ 31) (str : Nat → UInt8) :
    ∃ s, bootloaderItoa x str d = .ok s ∧ (HoldsString s (decimal x d) ↔ Alike (decimal x d).reverse) := by
  obtain ⟨s₀, hs₀, hrun⟩ := itoaWith_eq hx hd str bootloaderReverse
  obtain ⟨s, hrev, hs⟩ := bootloaderReverse_iff hs₀ (itoaText_length hx hd)
  rw [← itoaText_reverse h1, List.reverse_reverse]
  exact ⟨s, hrun.trans hrev, hs⟩

theorem decimal_length (hx : x < 2 ^ 31) (h1 : 1 ≤ d) (hd : d < 2 ^ 31) : (decimal x d).length < 2 ^ 31 := by
  rw [← itoaText_reverse h1, List.length_reverse]
  exact itoaText_length hx hd

theorem copiesAgree_iff (hx : x < 2 ^ 31) (h1 : 1 ≤ d) (hd : d < 2 ^ 31) :
    CopiesAgree x d ↔ Alike (decimal x d).reverse := by
  have hback : ∀ {s}, HoldsString s (decimal x d) → bufferAtoi s = .ok (x : Int) := fun hs => by
    rw [bufferAtoi_eq hs (decimal_length hx h1 hd), atoi_decimal hx]
  constructor
  · intro h
    obtain ⟨s, hrun, hiff⟩ := bootloaderItoa_iff hx h1 hd (fun _ => 0)
    obtain ⟨s', hrun', hs', _⟩ := h .bootloader (fun _ => 0)
    obtain rfl := Except.ok.inj (hrun.symm.trans hrun')
    exact hiff.mp hs'
  · intro h copy str
    have hother : ∃ s, bootloaderItoa x str d = .ok s ∧ HoldsString s (decimal x d) ∧
        bufferAtoi s = .ok (x : Int) := by
      obtain ⟨s, hrun, hiff⟩ := bootloaderItoa_iff hx h1 hd str
      exact ⟨s, hrun, hiff.mpr h, hback (hiff.mpr h)⟩
    cases copy with
    | kernel =>
        obtain ⟨s, hrun, hs⟩ := itoa_spec hx h1 hd str
        exact ⟨s, hrun, hs, hback hs⟩
    | bootloader => exact hother
    | rootfs => exact hother

theorem copiesReverse_iff (h : HoldsString s text) : CopiesReverse s text ↔ text.length < 2 ^ 31 ∧ Alike text := by
  constructor
  · intro hall
    obtain ⟨s', hrun', hs'⟩ := hall .bootloader
    have hrun' : bootloaderReverse s = .ok s' := hrun'
    have hint : text.length < 2 ^ 31 := by
      by_contra hlong
      rw [bootloaderReverse, reverseTurns_spins h (Nat.le_of_not_lt hlong)] at hrun'
      exact absurd hrun' nofun
    obtain ⟨s'', hrun, hiff⟩ := bootloaderReverse_iff h hint
    obtain rfl := Except.ok.inj (hrun.symm.trans hrun')
    exact ⟨hint, hiff.mp hs'⟩
  · rintro ⟨hint, halike⟩ copy
    have hother : ∃ s', bootloaderReverse s = .ok s' ∧ HoldsString s' text.reverse := by
      obtain ⟨s', hrun, hiff⟩ := bootloaderReverse_iff h hint
      exact ⟨s', hrun, hiff.mpr halike⟩
    cases copy with
    | kernel => exact reverse_spec h hint
    | bootloader => exact hother
    | rootfs => exact hother

/--
**Where the copies agree.** They write a number and read it back when its padded
digits are alike but for the last and, of an odd number of them, the middle one;
and they reverse a string when its characters are, but for the first and the
middle one.
-/
theorem string_copies_iff (hx : x < 2 ^ 31) (h1 : 1 ≤ d) (hd : d < 2 ^ 31) (hs : HoldsString s text) :
    (CopiesAgree x d ↔ Alike (decimal x d).reverse) ∧
      (CopiesReverse s text ↔ text.length < 2 ^ 31 ∧ Alike text) :=
  ⟨copiesAgree_iff hx h1 hd, copiesReverse_iff hs⟩

/-- `007`, and `xabaa`. -/
theorem string_copies_alike : CopiesAgree 7 3 ∧ CopiesReverse (bufferOf [120, 97, 98, 97, 97]) [120, 97, 98, 97, 97] := by
  have hs : HoldsString (bufferOf [120, 97, 98, 97, 97]) [120, 97, 98, 97, 97] := holdsString_bufferOf (by simp)
  have hboth := string_copies_iff (x := 7) (d := 3) (by decide) (by decide) (by decide) hs
  exact ⟨hboth.1.mpr (by decide), hboth.2.mpr ⟨by decide, by decide⟩⟩

/-- `1234` is not written by all of them. -/
theorem not_string_copies : ¬ ∀ x d, x < 2 ^ 31 → 1 ≤ d → d < 2 ^ 31 → CopiesAgree x d := by
  intro h
  have h4 := (copiesAgree_iff (by decide) (by decide) (by decide)).mp (h 1234 1 (by decide) (by decide) (by decide))
  exact absurd h4 (by decide)

end OsdiKernel
