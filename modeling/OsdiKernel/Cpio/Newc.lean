import OsdiKernel.Cpio.Cpio

/-!
# The newc format

An entry is a header, the name with its NUL, padding, the data, and padding again.
The header is the magic number and thirteen fields of eight hexadecimal digits;
the scan reads two of them, the length of the data and that of the name. An
archive is its entries one after the other and one more, called `TRAILER!!!`.
-/

namespace OsdiKernel

variable {mem : Memory} {a b : Nat → Except Fault UInt8} {i n p : Nat} {c : UInt8} {cs xs ys : List UInt8}

/-! ## What the code reads -/

/-- From `i` on, the characters are `cs`. -/
def Reads (s : Nat → Except Fault UInt8) (i : Nat) (cs : List UInt8) : Prop :=
  ∀ j c, cs[j]? = some c → s (i + j) = .ok c

theorem reads_nil : Reads a i [] := fun j c h => absurd h (by simp)

theorem reads_cons : Reads a i (c :: cs) ↔ a i = .ok c ∧ Reads a (i + 1) cs := by
  refine ⟨fun h => ⟨h 0 c rfl, fun j d hd => ?_⟩, fun ⟨h0, hs⟩ j d hd => ?_⟩
  · rw [Nat.add_right_comm]
    exact h (j + 1) d hd
  · cases j with
    | zero =>
        obtain rfl := Option.some.inj hd
        exact h0
    | succ j =>
        rw [← Nat.add_assoc, Nat.add_right_comm]
        exact hs j d hd

theorem loadByte_of_lt {addr : Nat} (h : addr < 2 ^ 64) (hb : mem addr = some c) : loadByte mem addr = .ok c := by
  unfold loadByte
  rw [Nat.mod_eq_of_lt h, hb]

theorem reads_charsAt (h : BytesAt mem p cs) (hfit : p + cs.length ≤ 2 ^ 64) : Reads (charsAt mem p) 0 cs := by
  intro j c hc
  have hj : j < cs.length := (List.getElem?_eq_some_iff.mp hc).1
  rw [Nat.zero_add]
  exact loadByte_of_lt (by omega) (h j c hc)

theorem reads_literal : Reads (literal cs) 0 (cs ++ [0]) := by
  intro j c hc
  unfold literal
  rw [Nat.zero_add]
  congr 1
  rcases Nat.lt_or_ge j cs.length with hj | hj
  · rw [List.getElem?_append_left hj] at hc
    rw [List.getD_eq_getElem?_getD, hc]
    rfl
  · rw [List.getElem?_append_right hj, List.getElem?_singleton] at hc
    rw [List.getD_eq_getElem?_getD, List.getElem?_eq_none hj]
    by_cases h0 : j - cs.length = 0
    · rw [if_pos h0] at hc
      exact Option.some.inj hc
    · rw [if_neg h0] at hc
      exact absurd hc (by simp)

/-- A NUL-terminated string. -/
structure CString (mem : Memory) (p : Nat) (s : List UInt8) : Prop where
  nonzero : ∀ c ∈ s, c ≠ 0
  bytes : BytesAt mem p (s ++ [0])
  fits : p + s.length < 2 ^ 64

theorem CString.reads (h : CString mem p cs) : Reads (charsAt mem p) 0 (cs ++ [0]) := by
  refine reads_charsAt h.bytes ?_
  have := h.fits
  rw [List.length_append, List.length_singleton]
  omega

/-! ## The loops -/

/-- The same characters, none of them NUL, are skipped. -/
theorem cpioStrncmpTurns_common (ha : Reads a i cs) (hb : Reads b i cs) (hcs : ∀ c ∈ cs, c ≠ 0) :
    cpioStrncmpTurns a b i (cs.length + n) = cpioStrncmpTurns a b (i + cs.length) n := by
  induction cs generalizing i with
  | nil => rw [List.length_nil, Nat.zero_add, Nat.add_zero]
  | cons c cs ih =>
      obtain ⟨ha0, ha1⟩ := reads_cons.mp ha
      obtain ⟨hb0, hb1⟩ := reads_cons.mp hb
      have hc : c ≠ 0 := hcs c (List.mem_cons_self ..)
      have hlen : (c :: cs).length + n = (cs.length + n) + 1 := by
        rw [List.length_cons, Nat.add_right_comm]
      have hnext : i + (c :: cs).length = i + 1 + cs.length := by
        rw [List.length_cons, Nat.add_right_comm, Nat.add_assoc]
      rw [hlen, hnext, cpioStrncmpTurns, ha0, hb0]
      simp only [ok_bind, ne_eq, not_true_eq_false, if_false, hc]
      exact ih ha1 hb1 (fun d hd => hcs d (List.mem_cons_of_mem _ hd))

theorem byte_sub_ne_zero {x y : UInt8} (h : x ≠ y) : ((x.toNat : Int) - y.toNat) ≠ 0 := by
  intro h0
  exact h (UInt8.toNat_inj.mp (by omega))

/-- **Two strings** compare equal when they are. -/
theorem cpioStrncmpTurns_spec (ha : Reads a i (xs ++ [0])) (hb : Reads b i (ys ++ [0])) (hx : ∀ c ∈ xs, c ≠ 0)
    (hy : ∀ c ∈ ys, c ≠ 0) (hn : xs.length < n ∨ ys.length < n) :
    ∃ r, cpioStrncmpTurns a b i n = .ok r ∧ (r = 0 ↔ xs = ys) := by
  induction ys generalizing xs i n with
  | nil =>
      obtain ⟨n, rfl⟩ : ∃ k, n = k + 1 := ⟨n - 1, by omega⟩
      have hb0 := (reads_cons.mp hb).1
      rw [cpioStrncmpTurns]
      cases xs with
      | nil =>
          have ha0 := (reads_cons.mp ha).1
          exact ⟨0, by simp [ha0, hb0], by simp⟩
      | cons x xs =>
          have ha0 := (reads_cons.mp ha).1
          have hx0 : x ≠ 0 := hx x (List.mem_cons_self ..)
          exact ⟨_, by simp only [ha0, hb0, ok_bind, ne_eq, hx0, not_false_eq_true, if_true],
            ⟨fun h => absurd h (byte_sub_ne_zero hx0), fun h => absurd h (by simp)⟩⟩
  | cons y ys ih =>
      obtain ⟨n, rfl⟩ : ∃ k, n = k + 1 := ⟨n - 1, by omega⟩
      obtain ⟨hb0, hb1⟩ := reads_cons.mp hb
      have hy0 : y ≠ 0 := hy y (List.mem_cons_self ..)
      rw [cpioStrncmpTurns]
      cases xs with
      | nil =>
          have ha0 := (reads_cons.mp ha).1
          exact ⟨_, by simp only [ha0, hb0, ok_bind, ne_eq, hy0.symm, not_false_eq_true, if_true],
            ⟨fun h => absurd h (byte_sub_ne_zero hy0.symm), fun h => absurd h (by simp)⟩⟩
      | cons x xs =>
          obtain ⟨ha0, ha1⟩ := reads_cons.mp ha
          by_cases hxy : x = y
          · subst hxy
            obtain ⟨r, hr, hiff⟩ := ih ha1 hb1 (fun c hc => hx c (List.mem_cons_of_mem _ hc))
              (fun c hc => hy c (List.mem_cons_of_mem _ hc)) (hn.imp Nat.lt_of_succ_lt_succ Nat.lt_of_succ_lt_succ)
            refine ⟨r, ?_, by rw [hiff, List.cons_inj_right]⟩
            simp only [ha0, hb0, ok_bind, ne_eq, not_true_eq_false, if_false, hy0]
            exact hr
          · exact ⟨_, by simp only [ha0, hb0, ok_bind, ne_eq, hxy, not_false_eq_true, if_true],
              ⟨fun h => absurd h (byte_sub_ne_zero hxy), fun h => absurd (List.cons.inj h).1 hxy⟩⟩

/-- A string is printed up to its NUL. -/
theorem readStringTurns_spec (h : CString mem p cs) (hn : cs.length < n) : readStringTurns mem p n = .ok cs := by
  induction cs generalizing p n with
  | nil =>
      obtain ⟨n, rfl⟩ : ∃ k, n = k + 1 := ⟨n - 1, by simp at hn; omega⟩
      have h0 := loadByte_of_lt (by have := h.fits; simpa using this) (bytesAt_cons.mp h.bytes).1
      rw [readStringTurns, h0]
      rfl
  | cons c cs ih =>
      obtain ⟨n, rfl⟩ : ∃ k, n = k + 1 := ⟨n - 1, by simp at hn; omega⟩
      obtain ⟨hb0, hb1⟩ := bytesAt_cons.mp h.bytes
      have hfit : p + (cs.length + 1) < 2 ^ 64 := h.fits
      have hrest : CString mem (p + 1) cs :=
        ⟨fun d hd => h.nonzero d (List.mem_cons_of_mem _ hd), hb1, by omega⟩
      have hc : c ≠ 0 := h.nonzero c (List.mem_cons_self ..)
      rw [readStringTurns, loadByte_of_lt (by omega) hb0]
      simp only [ok_bind, hc, if_false, ih hrest (Nat.lt_of_succ_lt_succ hn)]

/-! ## Hexadecimal fields -/

/-- The number a string of hexadecimal digits continues `r` to. -/
def hexFrom (r : Nat) : List UInt8 → Option Nat
  | [] => some r
  | c :: cs =>
      match hexDigit c with
      | some d => hexFrom (r * 16 + d) cs
      | none => none

/-- Eight hexadecimal digits, of either case, for `n`. -/
structure HexField (field : List UInt8) (n : Nat) : Prop where
  length : field.length = 8
  value : hexFrom 0 field = some n

theorem hexDigit_lt {d : Nat} (h : hexDigit c = some d) : d < 16 := by
  unfold hexDigit at h
  have h1 : c ≤ 57 → c.toNat ≤ 57 := fun h => UInt8.le_iff_toNat_le.mp h
  have h2 : c ≤ 102 → c.toNat ≤ 102 := fun h => UInt8.le_iff_toNat_le.mp h
  have h3 : c ≤ 70 → c.toNat ≤ 70 := fun h => UInt8.le_iff_toNat_le.mp h
  by_cases hdigit : 48 ≤ c ∧ c ≤ 57
  · rw [if_pos hdigit] at h
    have := h1 hdigit.2
    have := Option.some.inj h
    omega
  · rw [if_neg hdigit] at h
    by_cases hlower : 97 ≤ c ∧ c ≤ 102
    · rw [if_pos hlower] at h
      have := h2 hlower.2
      have := Option.some.inj h
      omega
    · rw [if_neg hlower] at h
      by_cases hupper : 65 ≤ c ∧ c ≤ 70
      · rw [if_pos hupper] at h
        have := h3 hupper.2
        have := Option.some.inj h
        omega
      · rw [if_neg hupper] at h
        exact absurd h (by simp)

theorem hexFrom_lt {r : Nat} (h : hexFrom r cs = some n) : n < (r + 1) * 16 ^ cs.length := by
  induction cs generalizing r with
  | nil =>
      obtain rfl := Option.some.inj h
      simp
  | cons c cs ih =>
      unfold hexFrom at h
      cases hd : hexDigit c with
      | none =>
          rw [hd] at h
          exact absurd h (by simp)
      | some d =>
          rw [hd] at h
          have hlt := hexDigit_lt hd
          calc n < (r * 16 + d + 1) * 16 ^ cs.length := ih h
            _ ≤ (r + 1) * 16 * 16 ^ cs.length := Nat.mul_le_mul_right _ (by omega)
            _ = (r + 1) * 16 ^ (c :: cs).length := by
              rw [List.length_cons, Nat.pow_succ', Nat.mul_assoc]

/-- **`parse_hex_str`** reads a field, as long as its number fits. -/
theorem parseHexTurns_spec {r : Nat} (ha : Reads a i cs) (h : hexFrom r cs = some n)
    (hfit : (r + 1) * 16 ^ cs.length ≤ 2 ^ 64) : parseHexTurns a r i cs.length = .ok n := by
  induction cs generalizing r i with
  | nil =>
      obtain rfl := Option.some.inj h
      rfl
  | cons c cs ih =>
      obtain ⟨ha0, ha1⟩ := reads_cons.mp ha
      unfold hexFrom at h
      cases hd : hexDigit c with
      | none =>
          rw [hd] at h
          exact absurd h (by simp)
      | some d =>
          rw [hd] at h
          have hlt := hexDigit_lt hd
          have hpow : (r + 1) * 16 * 16 ^ cs.length ≤ 2 ^ 64 := by
            rw [List.length_cons, Nat.pow_succ', ← Nat.mul_assoc] at hfit
            exact hfit
          have hone : 1 ≤ 16 ^ cs.length := Nat.one_le_pow _ _ (by decide)
          have hsmall : (r + 1) * 16 ≤ 2 ^ 64 := (Nat.le_mul_of_pos_right _ hone).trans hpow
          rw [List.length_cons, parseHexTurns, ha0]
          simp only [ok_bind, hd]
          rw [Nat.mod_eq_of_lt (by omega : r * 16 < 2 ^ 64), Nat.mod_eq_of_lt (by omega : r * 16 + d < 2 ^ 64)]
          exact ih ha1 h ((Nat.mul_le_mul_right _ (by omega)).trans hpow)

theorem HexField.parse {field : List UInt8} (h : HexField field n) (ha : Reads a 0 field) :
    parseHexStr a 8 = .ok n := by
  unfold parseHexStr
  rw [← h.length]
  exact parseHexTurns_spec ha h.value (by rw [h.length]; decide)

theorem HexField.lt {field : List UInt8} (h : HexField field n) : n < 2 ^ 32 := by
  have := hexFrom_lt h.value
  rw [h.length] at this
  omega

/-! ## Padding -/

/-- How many bytes there are to the next multiple of four. -/
def pad4 (n : Nat) : Nat := (4 - n % 4) % 4

/-- Padded with NULs. -/
def padded (bs : List UInt8) : List UInt8 := bs ++ List.replicate (pad4 bs.length) 0

theorem padded_length (bs : List UInt8) : (padded bs).length = bs.length + pad4 bs.length := by
  simp [padded]

theorem padded_length_mod (bs : List UInt8) : (padded bs).length % 4 = 0 := by
  rw [padded_length, pad4]
  omega

/-- Clearing the two low bits. -/
theorem and_neg_four {x : Nat} (hx : x < 2 ^ 64) : x &&& (2 ^ 64 - 4) = x / 4 * 4 := by
  have hmask : (2 ^ 64 - 4 : Nat) = (2 ^ 62 - 1) <<< 2 := by decide
  have hdiv : x / 4 * 4 = (x >>> 2) <<< 2 := by rw [Nat.shiftRight_eq_div_pow, Nat.shiftLeft_eq]
  apply Nat.eq_of_testBit_eq
  intro i
  rw [hmask, hdiv, Nat.testBit_and, Nat.testBit_shiftLeft, Nat.testBit_shiftLeft, Nat.testBit_shiftRight,
    Nat.testBit_two_pow_sub_one]
  rcases Nat.lt_or_ge i 2 with hlow | hlow
  · have hnot : ¬ i ≥ 2 := by omega
    simp [hnot]
  · rw [Nat.add_sub_cancel' hlow]
    rcases Nat.lt_or_ge i 64 with hi | hi
    · have h62 : i - 2 < 62 := by omega
      simp [hlow, h62]
    · have hbit : x.testBit i = false := Nat.testBit_lt_two_pow (hx.trans_le (Nat.pow_le_pow_right (by decide) hi))
      simp [hbit]

/-- **`align_up`** to a multiple of four adds the padding. -/
theorem alignUp_four {n : Nat} (h : n + 3 < 2 ^ 64) : alignUp n cpioAlignment = n + pad4 n := by
  unfold alignUp cpioAlignment pad4
  have hsub : n + 4 - 1 = n + 3 := by omega
  rw [hsub, Nat.mod_eq_of_lt h, and_neg_four h]
  omega

/-! ## The format -/

/-- A header, cut at the two fields that are read. -/
structure CpioHeader where
  /-- `c_ino` to `c_mtime` -/
  attributes : List UInt8
  filesize : List UInt8
  /-- `c_devmajor` to `c_rdevminor` -/
  device : List UInt8
  namesize : List UInt8
  check : List UInt8
  deriving DecidableEq, Repr

def CpioHeader.bytes (h : CpioHeader) : List UInt8 :=
  cpioHeaderMagic ++ (h.attributes ++ (h.filesize ++ (h.device ++ (h.namesize ++ h.check))))

/-- The header of an entry with so much data and so long a name. -/
structure CpioHeader.Describes (h : CpioHeader) (filesize namesize : Nat) : Prop where
  attributes : h.attributes.length = 48
  filesize : HexField h.filesize filesize
  device : h.device.length = 32
  namesize : HexField h.namesize namesize
  check : h.check.length = 8

/-- An entry of an archive. -/
structure CpioEntry where
  header : CpioHeader
  name : List UInt8
  data : List UInt8
  deriving DecidableEq, Repr

namespace CpioEntry

/-- The header and the name. -/
def head (e : CpioEntry) : List UInt8 := e.header.bytes ++ (e.name ++ [0])

def bytes (e : CpioEntry) : List UInt8 := padded e.head ++ padded e.data

/-- Where the data begins. -/
def dataOffset (e : CpioEntry) : Nat := (padded e.head).length

structure WellFormed (e : CpioEntry) : Prop where
  header : e.header.Describes e.data.length (e.name.length + 1)
  nonempty : e.name ≠ []
  nonzero : ∀ c ∈ e.name, c ≠ 0
  notTrailer : e.name ≠ cpioFooterMagic

end CpioEntry

/-- The last entry, which has no data. -/
def trailerBytes (trailer : CpioHeader) : List UInt8 := padded (trailer.bytes ++ (cpioFooterMagic ++ [0]))

def archiveBytes (entries : List CpioEntry) (trailer : CpioHeader) : List UInt8 :=
  entries.flatMap CpioEntry.bytes ++ trailerBytes trailer

/-! ## One entry -/

variable {h : CpioHeader} {e : CpioEntry} {filesize namesize : Nat}

theorem CpioHeader.Describes.length (hd : h.Describes filesize namesize) : h.bytes.length = cpioHeaderSize := by
  simp only [CpioHeader.bytes, List.length_append, hd.attributes, hd.filesize.length, hd.device,
    hd.namesize.length, hd.check, cpioHeaderMagic, List.length_cons, List.length_nil, cpioHeaderSize]

/-- Where the fields of a header lie. -/
structure HeaderAt (mem : Memory) (p : Nat) (h : CpioHeader) : Prop where
  magic : BytesAt mem p cpioHeaderMagic
  filesize : BytesAt mem (p + filesizeOffset) h.filesize
  namesize : BytesAt mem (p + namesizeOffset) h.namesize

theorem CpioHeader.Describes.at (hd : h.Describes filesize namesize) (hb : BytesAt mem p h.bytes) : HeaderAt mem p h := by
  obtain ⟨hmagic, hb⟩ := bytesAt_append.mp hb
  obtain ⟨_, hb⟩ := bytesAt_append.mp hb
  obtain ⟨hfile, hb⟩ := bytesAt_append.mp hb
  obtain ⟨_, hb⟩ := bytesAt_append.mp hb
  obtain ⟨hname, _⟩ := bytesAt_append.mp hb
  rw [hd.attributes] at hfile hname
  rw [hd.filesize.length, hd.device] at hname
  exact ⟨hmagic, hfile, hname⟩

theorem cpioHeaderMagic_ne_zero : ∀ c ∈ cpioHeaderMagic, c ≠ 0 := by simp [cpioHeaderMagic]

theorem cpioFooterMagic_ne_zero : ∀ c ∈ cpioFooterMagic, c ≠ 0 := by simp [cpioFooterMagic]

theorem reads_magic : Reads (literal cpioHeaderMagic) 0 cpioHeaderMagic := fun j c hc =>
  reads_literal j c (List.getElem?_append_left (List.getElem?_eq_some_iff.mp hc).1 ▸ hc)

/-- The magic number is found. -/
theorem magic_compares (h : BytesAt mem p cpioHeaderMagic) (hfit : p + 6 ≤ 2 ^ 64) :
    cpioStrncmp (charsAt mem p) (literal cpioHeaderMagic) 6 = .ok 0 := by
  have hreads : Reads (charsAt mem p) 0 cpioHeaderMagic := reads_charsAt h hfit
  have hcommon := cpioStrncmpTurns_common (n := 0) hreads reads_magic cpioHeaderMagic_ne_zero
  exact hcommon

theorem HeaderAt.magic_eq (ha : HeaderAt mem p h) (hfit : p + cpioHeaderSize ≤ 2 ^ 64) :
    cpioStrncmp (charsAt mem p) (literal cpioHeaderMagic) 6 = .ok 0 :=
  magic_compares ha.magic (by unfold cpioHeaderSize at hfit; omega)

end OsdiKernel
