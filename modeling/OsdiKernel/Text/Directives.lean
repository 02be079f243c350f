import OsdiKernel.Shell.Stale
import OsdiKernel.Text.Printf

/-!
# What `printf` prints

A format as its directives, each with the value its argument has. Spelled out, the
directives are the text that `tfp_format` reads; its output is theirs, one after
the other.

The flag and the width are read the way they are spelled because a width does not
begin with a zero, and because none of the letters is taken for a digit of it.
-/

namespace OsdiKernel

/-- What a directive prints, and the argument it takes for it. -/
inductive Value where
  | unsigned (num : Nat)
  | signed (num : Int)
  | hex (upper : Bool) (num : Nat)
  | char (c : UInt8)
  | string (s : List UInt8)
  | percent
  deriving DecidableEq, Repr

namespace Value

def letter : Value → UInt8
  | unsigned _ => charByte 'u'
  | signed _ => charByte 'd'
  | hex false _ => charByte 'x'
  | hex true _ => charByte 'X'
  | char _ => charByte 'c'
  | string _ => charByte 's'
  | percent => charByte '%'

/-- In a field that is so wide. Zeros are put before numbers alone. -/
def out (zero : Bool) (width : Nat) : Value → List UInt8
  | unsigned num => inField zero width (numeral 10 false num)
  | signed num => inField zero width (signedNumeral num)
  | hex upper num => inField zero width (numeral 16 upper num)
  | char c => [c]
  | string s => inField false width s
  | percent => [charByte '%']

/-- The type has the value. -/
def Ok : Value → Prop
  | unsigned num => num < 2 ^ 32
  | signed num => -2 ^ 31 ≤ num ∧ num < 2 ^ 31
  | hex _ num => num < 2 ^ 32
  | _ => True

instance : (v : Value) → Decidable v.Ok
  | unsigned num => inferInstanceAs (Decidable (num < 2 ^ 32))
  | signed num => inferInstanceAs (Decidable (-2 ^ 31 ≤ num ∧ num < 2 ^ 31))
  | hex _ num => inferInstanceAs (Decidable (num < 2 ^ 32))
  | char _ | string _ | percent => inferInstanceAs (Decidable True)

/-- The arguments begin with the value's, and the others are left. -/
def Takes (mem : Memory) : Value → List Nat → List Nat → Prop
  | unsigned num, va, va' => ∃ x, va = x :: va' ∧ x % 2 ^ 32 = num
  | signed num, va, va' => ∃ x : Nat, va = x :: va' ∧ toInt x = num
  | hex _ num, va, va' => ∃ x, va = x :: va' ∧ x % 2 ^ 32 = num
  | char c, va, va' => ∃ x, va = x :: va' ∧ UInt8.ofNat x = c
  | string s, va, va' => ∃ x, va = x :: va' ∧ CString mem x s
  | percent, va, va' => va = va'

end Value

/-- A character, or a directive. -/
inductive Directive where
  | lit (c : UInt8)
  | conv (zero : Bool) (width : Nat) (v : Value)
  deriving DecidableEq, Repr

/-- A width, where there is one. -/
def widthText (width : Nat) : List UInt8 := if width = 0 then [] else numeral 10 false width

/-- What stands between the `%` and the letter. -/
def modifiers (zero : Bool) (width : Nat) : List UInt8 := (if zero then [charByte '0'] else []) ++ widthText width

namespace Directive

def text : Directive → List UInt8
  | lit c => [c]
  | conv zero width v => charByte '%' :: (modifiers zero width ++ [v.letter])

def out : Directive → List UInt8
  | lit c => [c]
  | conv zero width v => v.out zero width

def Ok : Directive → Prop
  | lit c => c ≠ 0 ∧ c ≠ charByte '%'
  | conv _ width v => width < 2 ^ 31 ∧ v.Ok

instance : (d : Directive) → Decidable d.Ok
  | lit c => inferInstanceAs (Decidable (c ≠ 0 ∧ c ≠ charByte '%'))
  | conv _ width v => inferInstanceAs (Decidable (width < 2 ^ 31 ∧ v.Ok))

end Directive

/-- The arguments of the directives, one after the other. There may be more. -/
inductive Supplied (mem : Memory) : List Directive → List Nat → Prop where
  | nil {va : List Nat} : Supplied mem [] va
  | lit {c : UInt8} {ds : List Directive} {va : List Nat} : Supplied mem ds va → Supplied mem (.lit c :: ds) va
  | conv {zero : Bool} {width : Nat} {v : Value} {ds : List Directive} {va va' : List Nat} :
      v.Takes mem va va' → Supplied mem ds va' → Supplied mem (.conv zero width v :: ds) va

variable {mem : Memory} {p w n : Nat} {zero : Bool} {c : UInt8} {cs xs ys : List UInt8} {v : Value} {va va' : List Nat}
  {s : Format}

/-! ## The format, character by character -/

theorem CString.behind (h : CString mem p (xs ++ ys)) : CString mem (p + xs.length) ys := by
  have hdrop := h.drop (n := xs.length) (by rw [List.length_append]; omega)
  rwa [List.drop_left] at hdrop

theorem CString.tail (h : CString mem p (c :: cs)) : CString mem (p + 1) cs :=
  (show CString mem p ([c] ++ cs) from h).behind

theorem CString.load (h : CString mem p cs) : loadByte mem p = .ok (cs.headD 0) := by
  have hfit := h.fits
  refine loadByte_of_lt (by omega) ?_
  have hb := h.bytes
  cases cs with
  | nil => exact (bytesAt_cons.mp hb).1
  | cons c cs => exact (bytesAt_cons.mp hb).1

/-- A letter that no width goes on with. -/
def EndsWidth (c : UInt8) : Prop := c ≠ 0 ∧ ¬ (charByte '0' ≤ c ∧ c ≤ charByte '9') ∧ ¬ (0 ≤ a2d c ∧ ¬ 10 < a2d c)

instance (c : UInt8) : Decidable (EndsWidth c) := inferInstanceAs (Decidable (_ ∧ _ ∧ _))

theorem Value.endsWidth (v : Value) : EndsWidth v.letter := by
  have hall : (['u', 'd', 'x', 'X', 'c', 's', '%'].map charByte).all (EndsWidth ·) = true := by decide
  refine of_decide_eq_true (List.all_eq_true.mp hall _ ?_)
  cases v with
  | hex upper num => cases upper <;> simp [letter]
  | _ => simp [letter]

theorem digitByte_digit : ∀ d < 10, (charByte '0' ≤ digitByte false d ∧ digitByte false d ≤ charByte '9') ∧
    a2d (digitByte false d) = d := by decide

theorem le_foldl_digits (ds : List Nat) (n : Nat) : n ≤ ds.foldl (fun n d => n * 10 + d) n := by
  induction ds generalizing n with
  | nil => exact Nat.le_refl n
  | cons d ds ih => exact Nat.le_trans (by omega) (ih (n * 10 + d))

/-- **`a2i`** reads digits to the letter behind them. -/
theorem a2iTurns_spec (hend : EndsWidth c) : ∀ (ds : List Nat) (p n turns : Nat) (ch : UInt8) (cs : List UInt8),
    (∀ d ∈ ds, d < 10) → ds.map (digitByte false) ++ [c] = ch :: cs → CString mem p (cs ++ ys) →
    ds.foldl (fun n d => n * 10 + d) n < 2 ^ 31 → ds.length < turns →
    a2iTurns mem ch p 10 n turns = .ok (c, p + cs.length, ((ds.foldl (fun n d => n * 10 + d) n : Nat) : Int)) := by
  intro ds
  induction ds with
  | nil =>
      intro p n turns ch cs _ hspell _ _ hturns
      obtain ⟨turns, rfl⟩ : ∃ m, turns = m + 1 := ⟨turns - 1, by simp only [List.length_nil] at hturns; omega⟩
      obtain ⟨rfl, rfl⟩ := List.cons.inj hspell
      rw [a2iTurns, if_neg hend.2.2]
      rfl
  | cons d ds ih =>
      intro p n turns ch cs hds hspell hmem hfit hturns
      obtain ⟨turns, rfl⟩ : ∃ m, turns = m + 1 := ⟨turns - 1, by rw [List.length_cons] at hturns; omega⟩
      obtain ⟨rfl, hcs⟩ := List.cons.inj hspell
      have hd := hds d List.mem_cons_self
      have hval := (digitByte_digit d hd).2
      obtain ⟨ch', cs', hcs'⟩ : ∃ ch' cs', cs = ch' :: cs' := by
        cases cs with
        | nil => exact absurd hcs (by simp)
        | cons ch' cs' => exact ⟨ch', cs', rfl⟩
      subst hcs'
      have hle := le_foldl_digits ds (n * 10 + d)
      rw [List.foldl_cons] at hfit ⊢
      have hnum : toInt ((n : Int) * 10 + a2d (digitByte false d)) = ((n * 10 + d : Nat) : Int) := by
        rw [hval, toInt_of_range (by omega) (by omega)]
        omega
      rw [a2iTurns, if_pos (by omega), hmem.load, List.cons_append, List.headD_cons, ok_bind, hnum,
        ih (p + 1) (n * 10 + d) turns ch' cs' (fun e he => hds e (List.mem_cons_of_mem d he)) hcs hmem.tail hfit
          (by rw [List.length_cons] at hturns; omega), List.length_cons, Nat.add_assoc, Nat.add_comm 1]

/-- A width's figures, the first of which is no zero. -/
theorem widthText_digits (hw : w ≠ 0) : ∃ d ds, widthText w = digitByte false d :: ds.map (digitByte false) ∧
    d ≠ 0 ∧ (∀ e ∈ d :: ds, e < 10) ∧ (d :: ds).foldl (fun n d => n * 10 + d) 0 = w := by
  have hne : Nat.digits 10 w ≠ [] := Nat.digits_ne_nil_iff_ne_zero.mpr hw
  obtain ⟨d, ds, hds⟩ : ∃ d ds, (Nat.digits 10 w).reverse = d :: ds := by
    cases hr : (Nat.digits 10 w).reverse with
    | nil => exact absurd (List.reverse_eq_nil_iff.mp hr) hne
    | cons d ds => exact ⟨d, ds, rfl⟩
  have hdigits : Nat.digits 10 w = (d :: ds).reverse := by rw [← hds, List.reverse_reverse]
  refine ⟨d, ds, ?_, ?_, fun e he => ?_, ?_⟩
  · rw [widthText, if_neg hw, numeral, if_neg hw, hds, List.map_cons]
  · have hlast := Nat.getLast_digit_ne_zero 10 hw
    simp only [hdigits, List.reverse_cons, List.getLast_append, List.getLast_singleton] at hlast
    simpa using hlast
  · refine Nat.digits_lt_base (m := w) (by decide) ?_
    rw [hdigits]
    exact List.mem_reverse.mpr he
  · have hval := Nat.ofDigits_digits 10 w
    rw [hdigits, Nat.ofDigits_eq_foldr, List.foldr_reverse] at hval
    rw [← hval]
    congr 1
    funext n d
    simp only [Nat.cast_id]
    omega

/-- **The width**, where there is one, and the letter behind it. -/
theorem readWidth_spec {ch : UInt8} (hend : EndsWidth c) (hw : w < 2 ^ 31) (hspell : widthText w ++ [c] = ch :: cs)
    (h : CString mem p (cs ++ ys)) :
    ch ≠ charByte '0' ∧ Format.readWidth mem ch p = .ok (c, p + cs.length, (w : Int)) := by
  unfold Format.readWidth
  by_cases hw0 : w = 0
  · subst hw0
    obtain ⟨rfl, rfl⟩ := List.cons.inj hspell
    refine ⟨fun heq => hend.2.1 (by rw [heq]; decide), ?_⟩
    rw [if_neg hend.2.1]
    rfl
  · obtain ⟨d, ds, htext, hd0, hlt, hval⟩ := widthText_digits hw0
    have hspell' : (d :: ds).map (digitByte false) ++ [c] = ch :: cs := by
      rw [← hspell, htext]
      rfl
    have hd := hlt d List.mem_cons_self
    have hch : ch = digitByte false d := (List.cons.inj hspell').1.symm
    have hlen : (d :: ds).length < 2 ^ 64 := by
      have hfit := h.fits
      have hcs := congrArg List.length hspell'
      rw [List.length_append] at hfit
      rw [List.length_append, List.length_map, List.length_singleton, List.length_cons (a := ch)] at hcs
      omega
    have hread := a2iTurns_spec hend (d :: ds) p 0 (2 ^ 64) ch cs hlt hspell' h (by rw [hval]; exact hw) hlen
    rw [hval] at hread
    refine ⟨?_, ?_⟩
    · have hne : ∀ d < 10, d ≠ 0 → digitByte false d ≠ charByte '0' := by decide
      rw [hch]
      exact hne d hd hd0
    · rw [hch, if_pos (digitByte_digit d hd).1, ← hch]
      exact hread

theorem directive_of {ch₀ ch : UInt8} {q r : Nat} {w : Int} (hload : loadByte mem s.fmt = .ok ch₀)
    (hflag : Format.readFlag mem ch₀ (s.fmt + 1) = .ok (ch, q, zero))
    (hwidth : Format.readWidth mem ch q = .ok (c, r, w)) (hc : c ≠ 0) :
    Format.directive mem s = (do
      let s ← Format.convert mem { s with fmt := r } c w zero
      .ok (some s)) := by
  rw [Format.directive, hload, ok_bind, hflag, ok_bind]
  simp only [hwidth, ok_bind, if_neg hc]

/-- **A directive is read** the way it is spelled, up to its letter. -/
theorem directive_eq (h : CString mem s.fmt (modifiers zero w ++ c :: ys)) (hw : w < 2 ^ 31) (hend : EndsWidth c) :
    Format.directive mem s = (do
      let s ← Format.convert mem { s with fmt := s.fmt + (modifiers zero w).length + 1 } c w zero
      .ok (some s)) := by
  obtain ⟨ch, cs, hspell⟩ : ∃ ch cs, widthText w ++ [c] = ch :: cs := by
    cases hwt : widthText w with
    | nil => exact ⟨c, [], rfl⟩
    | cons d ds => exact ⟨d, ds ++ [c], rfl⟩
  have hsplit : modifiers zero w ++ c :: ys = (if zero then [charByte '0'] else []) ++ ch :: (cs ++ ys) := by
    have hys : c :: ys = [c] ++ ys := rfl
    rw [modifiers, hys, List.append_assoc, ← List.append_assoc (widthText w), hspell, List.cons_append]
  have hlen : (widthText w).length = cs.length := by
    have := congrArg List.length hspell
    rw [List.length_append, List.length_singleton, List.length_cons] at this
    omega
  rw [hsplit] at h
  rw [modifiers, List.length_append, hlen]
  cases zero with
  | false =>
      have h : CString mem s.fmt (ch :: (cs ++ ys)) := h
      obtain ⟨hne, hread⟩ := readWidth_spec hend hw hspell h.tail
      have hfmt : s.fmt + 1 + cs.length = s.fmt + (([] : List UInt8).length + cs.length) + 1 := by
        rw [List.length_nil]
        omega
      rw [hfmt] at hread
      exact directive_of h.load (if_neg hne) hread hend.1
  | true =>
      have h : CString mem s.fmt (charByte '0' :: ch :: (cs ++ ys)) := h
      obtain ⟨-, hread⟩ := readWidth_spec hend hw hspell h.tail.tail
      have hflag : Format.readFlag mem (charByte '0') (s.fmt + 1) = .ok (ch, s.fmt + 1 + 1, true) := by
        rw [Format.readFlag, if_pos rfl, h.tail.load]
        rfl
      have hfmt : s.fmt + 1 + 1 + cs.length = s.fmt + ([charByte '0'].length + cs.length) + 1 := by
        rw [List.length_singleton]
        omega
      rw [hfmt] at hread
      exact directive_of h.load hflag hread hend.1

/-! ## What goes out -/

theorem Format.field_spec {bf : Nat → UInt8} {text : List UInt8} (h : InBuffer bf text) (s : Format) (w : Nat) (zero : Bool)
    (va : List Nat) : s.field w zero bf va = .ok ⟨bf, s.fmt, va, s.out ++ inField zero w text⟩ := by
  have hfits := h.fits
  rw [Format.field, putchw_spec h.reads h.holds.nonzero (by omega), ok_bind]

/-- **A value** is printed. -/
theorem Format.convert_spec (hok : v.Ok) (htakes : v.Takes mem s.va va') (w : Nat) (zero : Bool) :
    ∃ bf, Format.convert mem s v.letter w zero = .ok ⟨bf, s.fmt, va', s.out ++ v.out zero w⟩ := by
  unfold Format.convert
  cases v with
  | unsigned num =>
      obtain ⟨x, hva, rfl⟩ := htakes
      obtain ⟨bf, hrun, hbf⟩ := ui2a_number (show 10 ≤ 10 by decide) (by decide) hok false s.bf
      refine ⟨bf, ?_⟩
      rw [show (Value.unsigned (x % 2 ^ 32)).letter = charByte 'u' from rfl, if_pos rfl, hva, vaArg, ok_bind]
      simp only
      rw [hrun, ok_bind, Format.field_spec hbf]
      rfl
  | signed num =>
      obtain ⟨x, hva, rfl⟩ := htakes
      obtain ⟨bf, hrun, hbf⟩ := i2a_spec hok.1 hok.2 s.bf
      refine ⟨bf, ?_⟩
      rw [show (Value.signed (toInt x)).letter = charByte 'd' from rfl, if_neg (by decide), if_pos rfl, hva, vaArg, ok_bind]
      simp only
      rw [hrun, ok_bind, Format.field_spec hbf]
      rfl
  | hex upper num =>
      obtain ⟨x, hva, rfl⟩ := htakes
      obtain ⟨bf, hrun, hbf⟩ := ui2a_number (show 10 ≤ 16 by decide) (by decide) hok upper s.bf
      refine ⟨bf, ?_⟩
      have hletter : ∀ upper, (Value.hex upper (x % 2 ^ 32)).letter = if upper then charByte 'X' else charByte 'x' := by
        intro upper
        cases upper <;> rfl
      have hcase : ∀ upper : Bool, (if upper then charByte 'X' else charByte 'x') ≠ charByte 'u' ∧
          (if upper then charByte 'X' else charByte 'x') ≠ charByte 'd' ∧
          ((if upper then charByte 'X' else charByte 'x') = charByte 'x' ∨
            (if upper then charByte 'X' else charByte 'x') = charByte 'X') ∧
          decide ((if upper then charByte 'X' else charByte 'x') = charByte 'X') = upper := by decide
      obtain ⟨hu, hd, hx, hupper⟩ := hcase upper
      rw [hletter, if_neg hu, if_neg hd, if_pos hx, hva, vaArg, ok_bind]
      simp only
      rw [hupper, hrun, ok_bind, Format.field_spec hbf]
      rfl
  | char c =>
      obtain ⟨x, hva, rfl⟩ := htakes
      refine ⟨s.bf, ?_⟩
      rw [show (Value.char (UInt8.ofNat x)).letter = charByte 'c' from rfl, if_neg (by decide), if_neg (by decide),
        if_neg (by decide), if_pos rfl, hva]
      rfl
  | string t =>
      obtain ⟨x, hva, ht⟩ := htakes
      refine ⟨s.bf, ?_⟩
      have hfits := ht.fits
      rw [show (Value.string t).letter = charByte 's' from rfl, if_neg (by decide), if_neg (by decide), if_neg (by decide),
        if_neg (by decide), if_pos rfl, hva, vaArg, ok_bind]
      simp only
      rw [putchw_spec ht.reads ht.nonzero (by omega), ok_bind]
      rfl
  | percent =>
      obtain rfl := htakes
      exact ⟨s.bf, rfl⟩

/-- **Run lemma**: directive after directive. -/
theorem Format.turns_spec (ds : List Directive) : ∀ (s : Format) (n : Nat), CString mem s.fmt (ds.flatMap Directive.text) →
    (∀ d ∈ ds, d.Ok) → Supplied mem ds s.va → ds.length < n →
    Format.turns mem s n = .ok (s.out ++ ds.flatMap Directive.out) := by
  induction ds with
  | nil =>
      intro s n h _ _ hn
      obtain ⟨n, rfl⟩ : ∃ m, n = m + 1 := ⟨n - 1, by simp only [List.length_nil] at hn; omega⟩
      rw [List.flatMap_nil] at h ⊢
      rw [Format.turns, h.load, ok_bind, List.append_nil]
      exact if_pos rfl
  | cons d ds ih =>
      intro s n h hok hva hn
      obtain ⟨n, rfl⟩ : ∃ m, n = m + 1 := ⟨n - 1, by rw [List.length_cons] at hn; omega⟩
      have hd := hok d List.mem_cons_self
      have hds := fun e he => hok e (List.mem_cons_of_mem d he)
      rw [List.length_cons] at hn
      rw [List.flatMap_cons] at h ⊢
      cases hva with
      | @lit c _ _ hva =>
          have h : CString mem s.fmt (c :: ds.flatMap Directive.text) := h
          rw [Format.turns, h.load, List.headD_cons, ok_bind, if_neg hd.1, if_pos hd.2,
            ih ⟨s.bf, s.fmt + 1, s.va, s.out ++ [c]⟩ n h.tail hds hva (by omega), List.append_assoc]
          rfl
      | @conv zero width v _ _ va' htakes hva =>
          have h : CString mem s.fmt (charByte '%' :: (modifiers zero width ++ v.letter :: ds.flatMap Directive.text)) := by
            simpa only [Directive.text, List.cons_append, List.append_assoc, List.nil_append] using h
          obtain ⟨bf, hrun⟩ := Format.convert_spec (s := ⟨s.bf, s.fmt + 1 + (modifiers zero width).length + 1, s.va, s.out⟩)
            hd.2 htakes width zero
          have hdirective := directive_eq (s := ⟨s.bf, s.fmt + 1, s.va, s.out⟩) h.tail hd.1 v.endsWidth
          simp only [hrun, ok_bind] at hdirective
          have hpercent : charByte '%' ≠ 0 := by decide
          rw [Format.turns, h.load, List.headD_cons, ok_bind, if_neg hpercent, if_neg (not_not.mpr rfl), hdirective, ok_bind]
          simp only
          rw [ih ⟨bf, _, va', _⟩ n h.tail.behind.tail hds hva (by omega), List.append_assoc]
          rfl

theorem Directive.text_pos (d : Directive) : 1 ≤ d.text.length := by
  cases d with
  | lit c => exact Nat.le_refl 1
  | conv zero width v => exact Nat.le_add_left ..

theorem length_le_text (ds : List Directive) : ds.length ≤ (ds.flatMap Directive.text).length := by
  induction ds with
  | nil => exact Nat.le_refl 0
  | cons d ds ih =>
      have := d.text_pos
      rw [List.length_cons, List.flatMap_cons, List.length_append]
      omega

/--
**What `printf` prints** is what its directives print, one after the other. No
number is too large for the buffer, and nothing is read behind the end of the
format or of a string.
-/
theorem printf_prints {ds : List Directive} (hfmt : CString mem p (ds.flatMap Directive.text)) (hok : ∀ d ∈ ds, d.Ok)
    (hva : Supplied mem ds va) (bf : Nat → UInt8) : tfpFormat mem bf p va = .ok (ds.flatMap Directive.out) := by
  have hlen := length_le_text ds
  have hfits := hfmt.fits
  exact Format.turns_spec ds ⟨bf, p, va, []⟩ (2 ^ 64) hfmt hok hva (by omega)

/-- A string at an address, and nothing else. -/
def stringMemory (p : Nat) (text : List UInt8) : Memory := fun a => if p ≤ a then (text ++ [0])[a - p]? else none

theorem cstring_stringMemory {text : List UInt8} (h : 0 ∉ text) (hfits : p + text.length < 2 ^ 64) :
    CString (stringMemory p text) p text := by
  refine ⟨fun c hc h0 => h (h0 ▸ hc), fun i c hc => ?_, hfits⟩
  rw [stringMemory, if_pos (Nat.le_add_right p i), Nat.add_sub_cancel_left]
  exact hc

/-- `"%12d%08X %s"` -/
def sampleFormat : List Directive :=
  [.conv false 12 (.signed (-2 ^ 31)), .conv true 8 (.hex true 0xbeef), .lit (charByte ' '),
    .conv false 0 (.string ("%12d%08X %s".toList.map charByte))]

/-- The smallest `int`, a number in hexadecimal and the format itself. -/
theorem printf_prints_sample :
    tfpFormat (stringMemory 0x80000 ("%12d%08X %s".toList.map charByte)) (fun _ => 0) 0x80000 [0x80000000, 0xbeef, 0x80000]
      = .ok (" -21474836480000BEEF %12d%08X %s".toList.map charByte) := by
  have htext : "%12d%08X %s".toList.map charByte = sampleFormat.flatMap Directive.text := by decide
  have hstring : CString (stringMemory 0x80000 ("%12d%08X %s".toList.map charByte)) 0x80000
      ("%12d%08X %s".toList.map charByte) := cstring_stringMemory (by decide) (by decide)
  have hva : Supplied (stringMemory 0x80000 ("%12d%08X %s".toList.map charByte)) sampleFormat [0x80000000, 0xbeef, 0x80000] :=
    .conv ⟨_, rfl, by decide⟩ (.conv ⟨_, rfl, rfl⟩ (.lit (.conv ⟨_, rfl, hstring⟩ .nil)))
  have hprint := printf_prints (htext ▸ hstring) (by decide) hva (fun _ => 0)
  exact hprint.trans (congrArg _ (by decide))

end OsdiKernel
