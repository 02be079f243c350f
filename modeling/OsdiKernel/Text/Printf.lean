import OsdiKernel.Lib.Numerals
import OsdiKernel.Text.Itoa

/-!
# `printf`

`printf.c`: a number's digits are taken off it from the top, by a power of the base
that is found first, and put into a buffer of twelve bytes on the stack; a narrow
field is padded in front, and it goes out character by character. The copies of
the file are the same. `PRINTF_LONG_SUPPORT` is not defined.

The arguments are slots of eight bytes, of which a directive takes what its type
needs. Where there is no slot left, what it would read was never passed.
-/

namespace OsdiKernel

/-! ## Numbers -/

/-- What an `int` becomes as an `unsigned int`. -/
def toUnsignedInt (x : Int) : Nat := (x % 2 ^ 32).toNat

/-- `dgt+(dgt<10 ? '0' : (uc ? 'A' : 'a')-10)` -/
def digitByte (uc : Bool) (dgt : Nat) : UInt8 :=
  UInt8.ofNat (dgt + if dgt < 10 then 48 else (if uc then 65 else 97) - 10)

/-- `bf[i] = c` -/
def bfWrite (bf : Nat → UInt8) (i : Nat) (c : UInt8) : Except Fault (Nat → UInt8) :=
  if i < 12 then .ok (Function.update bf i c) else .error .outOfBounds

/-- `bf[i]` -/
def bfRead (bf : Nat → UInt8) (i : Nat) : Except Fault UInt8 := if i < 12 then .ok (bf i) else .error .outOfBounds

/-- The first loop of `ui2a`, for so many turns. -/
def ui2aScale (num base d : Nat) : Nat → Except Fault Nat
  | 0 => .error .spin
  | turns + 1 => if base ≤ num / d then ui2aScale num base (d * base % 2 ^ 32) turns else .ok d

/-- The second one. The pointer is at `bf[i]`. -/
def ui2aDigits (base : Nat) (uc : Bool) (num d n : Nat) (bf : Nat → UInt8) (i : Nat) :
    Nat → Except Fault ((Nat → UInt8) × Nat)
  | 0 => .error .spin
  | turns + 1 =>
      if d = 0 then .ok (bf, i)
      else if n ≠ 0 ∨ 0 < num / d ∨ d / base = 0 then do
        let bf ← bfWrite bf i (digitByte uc (num / d))
        ui2aDigits base uc (num % d) (d / base) (n + 1) bf (i + 1) turns
      else ui2aDigits base uc (num % d) (d / base) n bf i turns

/-- `ui2a`, from `bf[i]` on. -/
def ui2a (num base : Nat) (uc : Bool) (bf : Nat → UInt8) (i : Nat) : Except Fault (Nat → UInt8) := do
  let d ← ui2aScale num base 1 (2 ^ 32)
  let (bf, i) ← ui2aDigits base uc num d 0 bf i (2 ^ 32)
  bfWrite bf i 0

/-- `i2a` -/
def i2a (num : Int) (bf : Nat → UInt8) : Except Fault (Nat → UInt8) :=
  if num < 0 then do
    let bf ← bfWrite bf 0 (charByte '-')
    ui2a (toUnsignedInt (toInt (-num))) 10 false bf 1
  else ui2a (toUnsignedInt num) 10 false bf 0

/-- `a2d` -/
def a2d (ch : UInt8) : Int :=
  if charByte '0' ≤ ch ∧ ch ≤ charByte '9' then ch.toNat - 48
  else if charByte 'a' ≤ ch ∧ ch ≤ charByte 'f' then ch.toNat - 97 + 10
  else if charByte 'A' ≤ ch ∧ ch ≤ charByte 'F' then ch.toNat - 65 + 10
  else -1

/-- The loop of `a2i`: the character it stops at, where `p` is then, and the number. -/
def a2iTurns (mem : Memory) (ch : UInt8) (p : Nat) (base num : Int) : Nat → Except Fault (UInt8 × Nat × Int)
  | 0 => .error .spin
  | turns + 1 =>
      if 0 ≤ a2d ch ∧ ¬ base < a2d ch then do
        let next ← loadByte mem p
        a2iTurns mem next (p + 1) base (toInt (num * base + a2d ch)) turns
      else .ok (ch, p, num)

/-- `a2i` -/
def a2i (mem : Memory) (ch : UInt8) (src : Nat) (base : Int) : Except Fault (UInt8 × Nat × Int) :=
  a2iTurns mem ch src base 0 (2 ^ 64)

/-! ## Fields -/

/-- The first loop of `putchw`: what is left of the width behind the text, or zero. -/
def putchwWidth (bf : Nat → Except Fault UInt8) (n : Int) (p : Nat) : Nat → Except Fault Int
  | 0 => .error .spin
  | turns + 1 => do
      let c ← bf p
      if c ≠ 0 ∧ 0 < n then putchwWidth bf (n - 1) (p + 1) turns else .ok n

/-- The last one. `out` is what went out so far. -/
def putchwText (bf : Nat → Except Fault UInt8) (p : Nat) (out : List UInt8) : Nat → Except Fault (List UInt8)
  | 0 => .error .spin
  | turns + 1 => do
      let ch ← bf p
      if ch = 0 then .ok out else putchwText bf (p + 1) (out ++ [ch]) turns

/-- `putchw` -/
def putchw (n : Int) (z : Bool) (bf : Nat → Except Fault UInt8) (out : List UInt8) : Except Fault (List UInt8) := do
  let n ← putchwWidth bf n 0 (2 ^ 64)
  putchwText bf 0 (out ++ List.replicate n.toNat (if z then charByte '0' else charByte ' ')) (2 ^ 64)

/-! ## The format -/

/-- Where `tfp_format` is: its buffer, the pointer into the format, the arguments left, and what went out. -/
structure Format where
  bf : Nat → UInt8
  fmt : Nat
  va : List Nat
  out : List UInt8

/-- `va_arg` -/
def vaArg : List Nat → Except Fault (Nat × List Nat)
  | [] => .error .uninitialised
  | x :: va => .ok (x, va)

namespace Format

/-- A number that is in the buffer goes out. -/
def field (s : Format) (w : Int) (lz : Bool) (bf : Nat → UInt8) (va : List Nat) : Except Fault Format := do
  let out ← putchw w lz (bfRead bf) s.out
  .ok { s with bf := bf, va := va, out := out }

/-- The `switch`, but for its first case. -/
def convert (mem : Memory) (s : Format) (ch : UInt8) (w : Int) (lz : Bool) : Except Fault Format :=
  if ch = charByte 'u' then do
    let (x, va) ← vaArg s.va
    let bf ← ui2a (x % 2 ^ 32) 10 false s.bf 0
    s.field w lz bf va
  else if ch = charByte 'd' then do
    let (x, va) ← vaArg s.va
    let bf ← i2a (toInt x) s.bf
    s.field w lz bf va
  else if ch = charByte 'x' ∨ ch = charByte 'X' then do
    let (x, va) ← vaArg s.va
    let bf ← ui2a (x % 2 ^ 32) 16 (ch = charByte 'X') s.bf 0
    s.field w lz bf va
  else if ch = charByte 'c' then do
    let (x, va) ← vaArg s.va
    .ok { s with va := va, out := s.out ++ [UInt8.ofNat x] }
  else if ch = charByte 's' then do
    let (x, va) ← vaArg s.va
    let out ← putchw w false (charsAt mem x) s.out
    .ok { s with va := va, out := out }
  else if ch = charByte '%' then .ok { s with out := s.out ++ [ch] }
  else .ok s

/-- `if (ch=='0')`, with the character that was read: the next one, where `fmt` is then, and `lz`. -/
def readFlag (mem : Memory) (ch : UInt8) (fmt : Nat) : Except Fault (UInt8 × Nat × Bool) :=
  if ch = charByte '0' then do
    let ch ← loadByte mem fmt
    .ok (ch, fmt + 1, true)
  else .ok (ch, fmt, false)

/-- `if (ch>='0' && ch<='9')` -/
def readWidth (mem : Memory) (ch : UInt8) (fmt : Nat) : Except Fault (UInt8 × Nat × Int) :=
  if charByte '0' ≤ ch ∧ ch ≤ charByte '9' then a2i mem ch fmt 10 else .ok (ch, fmt, 0)

/-- What follows a `%`. At the end of the format there is nothing more to do. -/
def directive (mem : Memory) (s : Format) : Except Fault (Option Format) := do
  let ch ← loadByte mem s.fmt
  let (ch, fmt, lz) ← readFlag mem ch (s.fmt + 1)
  let (ch, fmt, w) ← readWidth mem ch fmt
  if ch = 0 then .ok none
  else do
    let s ← convert mem { s with fmt := fmt } ch w lz
    .ok (some s)

/-- The loop of `tfp_format`, for so many turns. -/
def turns (mem : Memory) (s : Format) : Nat → Except Fault (List UInt8)
  | 0 => .error .spin
  | n + 1 => do
      let ch ← loadByte mem s.fmt
      if ch = 0 then .ok s.out
      else if ch ≠ charByte '%' then turns mem { s with fmt := s.fmt + 1, out := s.out ++ [ch] } n
      else do
        match ← directive mem { s with fmt := s.fmt + 1 } with
        | none => .ok s.out
        | some s => turns mem s n

end Format

/-- `tfp_format`: the characters it puts. `bf` is not set to anything. -/
def tfpFormat (mem : Memory) (bf : Nat → UInt8) (fmt : Nat) (va : List Nat) : Except Fault (List UInt8) :=
  Format.turns mem ⟨bf, fmt, va, []⟩ (2 ^ 64)

variable {mem : Memory} {bf bf' : Nat → UInt8} {uc : Bool} {num base d i k n turns : Nat} {ds text : List UInt8}

/-! ## The digits of a number -/

/-- A number in figures. -/
def numeral (base : Nat) (uc : Bool) (n : Nat) : List UInt8 :=
  if n = 0 then [charByte '0'] else (base.digits n).reverse.map (digitByte uc)

theorem bfWrite_of_lt (h : i < 12) (c : UInt8) : bfWrite bf i c = .ok (Function.update bf i c) := if_pos h

/-- The power of the base the first digit is at. -/
theorem ui2aScale_spec (hb : 1 < base) (hnum : num < 2 ^ 32) : ∀ turns k, num < base ^ k + turns → 0 < turns →
    (base ^ k ≤ num ∨ k = 0) →
    ∃ K, ui2aScale num base (base ^ k) turns = .ok (base ^ K) ∧ num < base ^ (K + 1) ∧ (base ^ K ≤ num ∨ K = 0) := by
  intro turns
  induction turns with
  | zero => exact fun _ _ h => absurd h (Nat.lt_irrefl 0)
  | succ turns ih =>
      intro k hturns _ hlo
      have hpow := Nat.pow_pos (n := k) (show 0 < base by omega)
      rw [ui2aScale]
      by_cases hmore : base ≤ num / base ^ k
      · have hle : base ^ (k + 1) ≤ num := by
          rw [Nat.pow_succ, Nat.mul_comm]
          exact (Nat.le_div_iff_mul_le hpow).mp hmore
        have hgrow : base ^ k < base ^ (k + 1) := Nat.pow_lt_pow_right hb (Nat.lt_succ_self k)
        have hmul : base ^ k * base = base ^ (k + 1) := rfl
        rw [if_pos hmore, hmul, Nat.mod_eq_of_lt (by omega)]
        exact ih (k + 1) (by omega) (by omega) (.inl hle)
      · have hlt : num < base ^ (k + 1) := by
          rw [Nat.pow_succ, Nat.mul_comm]
          exact (Nat.div_lt_iff_lt_mul hpow).mp (Nat.lt_of_not_le hmore)
        exact ⟨k, if_neg hmore, hlt, hlo⟩

/-- **The digits** are put one behind the other, once the first is not zero. -/
theorem ui2aDigits_spec (uc : Bool) (hb : 1 < base) : ∀ k num n ds bf turns, n ≠ 0 ∨ base ^ k ≤ num ∨ k = 0 → Filled bf ds →
    ds.length + k < 11 → k + 1 < turns →
    ∃ bf', ui2aDigits base uc num (base ^ k) n bf ds.length turns
        = .ok (bf', (ds ++ (topDigits base k num).map (digitByte uc)).length) ∧
      Filled bf' (ds ++ (topDigits base k num).map (digitByte uc)) := by
  intro k
  induction k with
  | zero =>
      intro num n ds bf turns _ hf hfit hturns
      obtain ⟨turns, rfl⟩ : ∃ m, turns = m + 2 := ⟨turns - 2, by omega⟩
      have hlast : 1 / base = 0 := Nat.div_eq_of_lt hb
      refine ⟨_, ?_, hf.push (digitByte uc num)⟩
      rw [ui2aDigits, Nat.pow_zero, if_neg Nat.one_ne_zero, if_pos (.inr (.inr hlast)), Nat.div_one, Nat.mod_one,
        bfWrite_of_lt (by omega), ok_bind, hlast, ui2aDigits, if_pos rfl]
      rw [topDigits, List.map_singleton, List.length_append, List.length_singleton]
  | succ k ih =>
      intro num n ds bf turns hfirst hf hfit hturns
      obtain ⟨turns, rfl⟩ : ∃ m, turns = m + 1 := ⟨turns - 1, by omega⟩
      have hpow := Nat.pow_pos (n := k + 1) (show 0 < base by omega)
      have hput : n ≠ 0 ∨ 0 < num / base ^ (k + 1) ∨ base ^ (k + 1) / base = 0 := by
        rcases hfirst with h | h | h
        · exact .inl h
        · exact .inr (.inl (Nat.div_pos h hpow))
        · exact absurd h (Nat.succ_ne_zero k)
      have hsplit : ds ++ (topDigits base (k + 1) num).map (digitByte uc) = ds ++ [digitByte uc (num / base ^ (k + 1))]
          ++ (topDigits base k (num % base ^ (k + 1))).map (digitByte uc) := by
        rw [topDigits, List.map_cons, List.append_assoc, List.singleton_append]
      have hlen : ds.length + 1 = (ds ++ [digitByte uc (num / base ^ (k + 1))]).length := by
        rw [List.length_append, List.length_singleton]
      rw [ui2aDigits, if_neg (by omega), if_pos hput, bfWrite_of_lt (by omega), ok_bind,
        show base ^ (k + 1) / base = base ^ k by rw [Nat.pow_succ, Nat.mul_div_cancel _ (by omega)], hsplit, hlen]
      exact ih _ _ _ _ turns (.inl (Nat.succ_ne_zero n)) (hf.push _) (by rw [← hlen]; omega) (by omega)

/-- A number without zeros in front. -/
theorem topDigits_numeral (hb : 1 < base) (hlo : base ^ k ≤ num ∨ k = 0) (hhi : num < base ^ (k + 1)) :
    (topDigits base k num).map (digitByte uc) = numeral base uc num := by
  unfold numeral
  by_cases h0 : num = 0
  · subst h0
    have hk : k = 0 := hlo.resolve_left (fun h => by
      have := Nat.pow_pos (n := k) (show 0 < base by omega)
      omega)
    subst hk
    rfl
  · rw [if_neg h0, topDigits_eq hb h0 hlo hhi]

theorem digitByte_nonzero : ∀ uc, ∀ d < 16, digitByte uc d ≠ 0 := by decide

theorem numeral_nonzero (hb : 1 < base) (hb16 : base ≤ 16) : ∀ c ∈ numeral base uc n, c ≠ 0 := by
  intro c hc
  unfold numeral at hc
  by_cases h0 : n = 0
  · rw [if_pos h0] at hc
    obtain rfl := List.mem_singleton.mp hc
    decide
  · rw [if_neg h0] at hc
    obtain ⟨d, hd, rfl⟩ := List.mem_map.mp hc
    have hlt := Nat.digits_lt_base hb (List.mem_reverse.mp hd)
    exact digitByte_nonzero uc d (by omega)

/-- The buffer holds a string. -/
structure InBuffer (bf : Nat → UInt8) (text : List UInt8) : Prop where
  holds : HoldsString bf text
  fits : text.length < 12

theorem InBuffer.reads (h : InBuffer bf text) : Reads (bfRead bf) 0 (text ++ [0]) := by
  intro j c hc
  have hj := (List.getElem?_eq_some_iff.mp hc).1
  have hfits := h.fits
  rw [List.length_append, List.length_singleton] at hj
  rw [Nat.zero_add, bfRead, if_pos (by omega), h.holds.chars j c hc]

/-- **`ui2a`**, behind what is in the buffer already. The digits it needs have room there. -/
theorem ui2a_spec (ds : List UInt8) (hb : 1 < base) (hb16 : base ≤ 16) (hnum : num < 2 ^ 32) (hfit : num < base ^ (n + 1))
    (hroom : ds.length + n < 11) (hds : ∀ c ∈ ds, c ≠ 0) (hf : Filled bf ds) :
    ∃ bf', ui2a num base uc bf ds.length = .ok bf' ∧ InBuffer bf' (ds ++ numeral base uc num) := by
  obtain ⟨K, hscale, hhi, hlo⟩ := ui2aScale_spec hb hnum (2 ^ 32) 0 (by omega) (by omega) (.inr rfl)
  have hK : K ≤ n := by
    rcases hlo with hlo | hlo
    · exact Nat.le_of_lt_succ ((Nat.pow_lt_pow_iff_right hb).mp (Nat.lt_of_le_of_lt hlo hfit))
    · omega
  obtain ⟨bf', hdigits, hf'⟩ := ui2aDigits_spec uc hb K num 0 ds bf (2 ^ 32) (hlo.elim (.inr ∘ .inl) (.inr ∘ .inr)) hf
    (by omega) (by omega)
  have hlen : (ds ++ numeral base uc num).length < 12 := by
    rw [← topDigits_numeral hb hlo hhi, List.length_append, List.length_map, topDigits_length]
    omega
  rw [topDigits_numeral hb hlo hhi] at hdigits hf'
  refine ⟨Function.update bf' (ds ++ numeral base uc num).length 0, ?_, ⟨⟨?_, hf'.push 0⟩, hlen⟩⟩
  · rw [ui2a, show (1 : Nat) = base ^ 0 from rfl, hscale, ok_bind, hdigits]
    exact bfWrite_of_lt hlen 0
  · intro c hc
    rcases List.mem_append.mp hc with hc | hc
    · exact hds c hc
    · exact numeral_nonzero hb hb16 c hc

/-- **`ui2a`**, in the base a number is printed in. Ten digits are enough. -/
theorem ui2a_number (hb : 10 ≤ base) (hb16 : base ≤ 16) (hnum : num < 2 ^ 32) (uc : Bool) (bf : Nat → UInt8) :
    ∃ bf', ui2a num base uc bf 0 = .ok bf' ∧ InBuffer bf' (numeral base uc num) := by
  have hten : 10 ^ 10 ≤ base ^ (9 + 1) := Nat.pow_le_pow_left hb 10
  exact ui2a_spec (n := 9) [] (by omega) hb16 hnum (by omega) (by decide) (fun c hc => absurd hc (by simp))
    (fun j c h => absurd h (by simp))

/-- An `int` in figures. -/
def signedNumeral (n : Int) : List UInt8 :=
  if n < 0 then charByte '-' :: numeral 10 false n.natAbs else numeral 10 false n.natAbs

/-- **`i2a`**: the sign and ten digits are what the buffer has room for. -/
theorem i2a_spec {n : Int} (hlo : -2 ^ 31 ≤ n) (hhi : n < 2 ^ 31) (bf : Nat → UInt8) :
    ∃ bf', i2a n bf = .ok bf' ∧ InBuffer bf' (signedNumeral n) := by
  unfold i2a signedNumeral
  by_cases hneg : n < 0
  · have hval : toUnsignedInt (toInt (-n)) = n.natAbs := by
      unfold toUnsignedInt toInt
      rw [Int.bmod_def]
      omega
    have hnone : Filled bf [] := fun j c h => absurd h (by simp)
    have hf : Filled (Function.update bf 0 (charByte '-')) [charByte '-'] := hnone.push _
    rw [if_pos hneg, if_pos hneg, hval, bfWrite_of_lt (by omega), ok_bind]
    exact ui2a_spec (n := 9) [charByte '-'] (by decide) (by decide) (by omega) (by omega) (by decide)
      (fun c hc => by rw [List.mem_singleton.mp hc]; decide) hf
  · have hval : toUnsignedInt n = n.natAbs := by
      unfold toUnsignedInt
      omega
    rw [if_neg hneg, if_neg hneg, hval]
    exact ui2a_number (by decide) (by decide) (by omega) false bf

/-! ## Fields -/

/-- Text at the right of a field. -/
def inField (z : Bool) (w : Nat) (text : List UInt8) : List UInt8 :=
  List.replicate (w - text.length) (if z then charByte '0' else charByte ' ') ++ text

variable {s : Nat → Except Fault UInt8}

theorem putchwWidth_spec (hnz : ∀ c ∈ text, c ≠ 0) : ∀ turns (n p : Nat), Reads s p (text ++ [0]) → text.length < turns →
    putchwWidth s n p turns = .ok ((n - text.length : Nat) : Int) := by
  induction text with
  | nil =>
      intro turns n p hs hturns
      obtain ⟨turns, rfl⟩ : ∃ m, turns = m + 1 := ⟨turns - 1, by simp only [List.length_nil] at hturns; omega⟩
      rw [putchwWidth, (reads_cons.mp hs).1, ok_bind, if_neg (fun h => h.1 rfl)]
      rfl
  | cons c text ih =>
      intro turns n p hs hturns
      obtain ⟨turns, rfl⟩ : ∃ m, turns = m + 1 := ⟨turns - 1, by rw [List.length_cons] at hturns; omega⟩
      obtain ⟨hc, hs⟩ := reads_cons.mp hs
      rw [putchwWidth, hc, ok_bind, List.length_cons]
      rcases Nat.eq_zero_or_pos n with rfl | hpos
      · rw [if_neg (fun h => absurd h.2 (by omega)), Nat.zero_sub]
      · obtain ⟨n, rfl⟩ : ∃ m, n = m + 1 := ⟨n - 1, by omega⟩
        have hn : ((n + 1 : Nat) : Int) - 1 = (n : Nat) := by omega
        rw [if_pos ⟨hnz c List.mem_cons_self, by omega⟩, hn, Nat.add_sub_add_right]
        exact ih (fun d hd => hnz d (List.mem_cons_of_mem c hd)) turns n _ hs (by rw [List.length_cons] at hturns; omega)

theorem putchwText_spec (hnz : ∀ c ∈ text, c ≠ 0) : ∀ turns p out, Reads s p (text ++ [0]) → text.length < turns →
    putchwText s p out turns = .ok (out ++ text) := by
  induction text with
  | nil =>
      intro turns p out hs hturns
      obtain ⟨turns, rfl⟩ : ∃ m, turns = m + 1 := ⟨turns - 1, by simp only [List.length_nil] at hturns; omega⟩
      rw [putchwText, (reads_cons.mp hs).1, ok_bind, if_pos rfl, List.append_nil]
  | cons c text ih =>
      intro turns p out hs hturns
      obtain ⟨turns, rfl⟩ : ∃ m, turns = m + 1 := ⟨turns - 1, by rw [List.length_cons] at hturns; omega⟩
      obtain ⟨hc, hs⟩ := reads_cons.mp hs
      rw [putchwText, hc, ok_bind, if_neg (hnz c List.mem_cons_self), List.append_cons out c text]
      exact ih (fun d hd => hnz d (List.mem_cons_of_mem c hd)) turns _ _ hs (by rw [List.length_cons] at hturns; omega)

/-- **`putchw`** -/
theorem putchw_spec (hs : Reads s 0 (text ++ [0])) (hnz : ∀ c ∈ text, c ≠ 0) (hlen : text.length < 2 ^ 64) (w : Nat)
    (z : Bool) (out : List UInt8) : putchw w z s out = .ok (out ++ inField z w text) := by
  rw [putchw, putchwWidth_spec hnz _ w 0 hs hlen, ok_bind, Int.toNat_natCast, putchwText_spec hnz _ 0 _ hs hlen, inField,
    List.append_assoc]

end OsdiKernel
