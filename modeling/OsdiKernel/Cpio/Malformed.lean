import OsdiKernel.Cpio.Progress

/-!
# Malformed archives

Nobody tells the scans how long the archive is. So whether they keep to it is up to
what is in it: they do where valid entries, each inside the image, lead to the last
one, and nowhere is it checked that an entry is valid but for its magic number.

`Image` is a block of bytes with nothing readable around it, so that a read outside
it faults; so does the use of a pointer that was not set.
-/

namespace OsdiKernel

variable {a b : Nat → Except Fault UInt8} {i n p f turns size : Nat} {m : Int} {c : UInt8}
  {cs xs ys name : List UInt8}

theorem loadByte_some {mem : Memory} {addr : Nat} (hlt : addr < 2 ^ 64) (h : loadByte mem addr = .ok c) : mem addr = some c := by
  rw [loadByte, Nat.mod_eq_of_lt hlt] at h
  rcases hm : mem addr with _ | x
  · rw [hm] at h
    exact absurd h (by simp)
  · rw [hm] at h
    exact congrArg some (Except.ok.inj h)

/-! ## What a comparison says -/

/-- Equal so far. -/
theorem cpioStrncmpTurns_agree (hb : Reads b i ys) (hy : ∀ c ∈ ys, c ≠ 0)
    (h : cpioStrncmpTurns a b i (ys.length + n) = .ok 0) :
    Reads a i ys ∧ cpioStrncmpTurns a b (i + ys.length) n = .ok 0 := by
  induction ys generalizing i with
  | nil =>
      rw [List.length_nil, Nat.zero_add] at h
      exact ⟨reads_nil, h⟩
  | cons y ys ih =>
      obtain ⟨hb0, hb1⟩ := reads_cons.mp hb
      have hlen : (y :: ys).length + n = (ys.length + n) + 1 := by rw [List.length_cons, Nat.add_right_comm]
      rw [hlen, cpioStrncmpTurns, hb0] at h
      obtain ⟨x, hx, h⟩ := bind_eq_ok h
      rw [ok_bind] at h
      by_cases hxy : x ≠ y
      · rw [if_pos hxy] at h
        exact absurd (Except.ok.inj h) (byte_sub_ne_zero hxy)
      · obtain rfl := not_not.mp hxy
        rw [if_neg hxy, if_neg (hy x (List.mem_cons_self ..))] at h
        obtain ⟨hrest, hend⟩ := ih hb1 (fun c hc => hy c (List.mem_cons_of_mem _ hc)) h
        refine ⟨reads_cons.mpr ⟨hx, hrest⟩, ?_⟩
        rw [List.length_cons, ← Nat.add_assoc, Nat.add_right_comm]
        exact hend

/-- Equal to the NUL. -/
theorem cpioStrncmpTurns_string (hb : Reads b i (ys ++ [0])) (hy : ∀ c ∈ ys, c ≠ 0)
    (h : cpioStrncmpTurns a b i (ys.length + 1) = .ok 0) : Reads a i (ys ++ [0]) := by
  have hprefix : Reads b i ys := fun j c hc =>
    hb j c (List.getElem?_append_left (List.getElem?_eq_some_iff.mp hc).1 ▸ hc)
  have hnul : b (i + ys.length) = .ok 0 := hb ys.length 0 (by simp)
  obtain ⟨hsame, hend⟩ := cpioStrncmpTurns_agree hprefix hy h
  rw [cpioStrncmpTurns, hnul] at hend
  obtain ⟨x, hx, hend⟩ := bind_eq_ok hend
  have hx0 : x = 0 := by
    by_contra hne
    rw [ok_bind, if_pos hne] at hend
    exact byte_sub_ne_zero hne (Except.ok.inj hend)
  intro j c hc
  rcases Nat.lt_or_ge j ys.length with hj | hj
  · rw [List.getElem?_append_left hj] at hc
    exact hsame j c hc
  · have hlast := (List.getElem?_eq_some_iff.mp hc).1
    obtain rfl : j = ys.length := by
      rw [List.length_append, List.length_singleton] at hlast
      omega
    rw [List.getElem?_append_right hj, Nat.sub_self] at hc
    obtain rfl := Option.some.inj hc
    rw [hx, hx0]

/-- **Unequal:** some character differs, and those before it do not. -/
theorem cpioStrncmpTurns_differs (hb : Reads b i ys) (hy : ∀ c ∈ ys, c ≠ 0) :
    (∃ m, cpioStrncmpTurns a b i ys.length = .ok m ∧ m ≠ 0) ↔
      ∃ j x y, ys[j]? = some y ∧ Reads a i (ys.take j) ∧ a (i + j) = .ok x ∧ x ≠ y := by
  constructor
  · rintro ⟨m, h, hm⟩
    induction ys generalizing i with
    | nil =>
        rw [List.length_nil, cpioStrncmpTurns] at h
        exact absurd (Except.ok.inj h).symm hm
    | cons y ys ih =>
        obtain ⟨hb0, hb1⟩ := reads_cons.mp hb
        rw [List.length_cons, cpioStrncmpTurns, hb0] at h
        obtain ⟨x, hx, h⟩ := bind_eq_ok h
        rw [ok_bind] at h
        by_cases hxy : x ≠ y
        · exact ⟨0, x, y, rfl, reads_nil, hx, hxy⟩
        · obtain rfl := not_not.mp hxy
          rw [if_neg hxy, if_neg (hy x (List.mem_cons_self ..))] at h
          obtain ⟨j, x', y', hj, hsame, hx', hne⟩ := ih hb1 (fun c hc => hy c (List.mem_cons_of_mem _ hc)) h
          refine ⟨j + 1, x', y', hj, reads_cons.mpr ⟨hx, hsame⟩, ?_, hne⟩
          rw [← Nat.add_assoc, Nat.add_right_comm]
          exact hx'
  · rintro ⟨j, x, y, hj, hsame, hx, hne⟩
    have hlt := (List.getElem?_eq_some_iff.mp hj).1
    have hlen : (ys.take j).length = j := by
      rw [List.length_take]
      omega
    have htake : Reads b i (ys.take j) := fun k c hk => by
      have hkj := (List.getElem?_eq_some_iff.mp hk).1
      rw [List.getElem?_take_of_lt (by omega)] at hk
      exact hb k c hk
    have hsplit : ys.length = (ys.take j).length + ((ys.length - j - 1) + 1) := by omega
    refine ⟨_, ?_, byte_sub_ne_zero hne⟩
    rw [hsplit, cpioStrncmpTurns_common hsame htake (fun c hc => hy c (List.mem_of_mem_take hc)), hlen,
      cpioStrncmpTurns, hx, hb j y hj]
    simp only [ok_bind, ne_eq, hne, not_false_eq_true, if_true]

/-! ## An image -/

/-- A block of bytes at a multiple of four. No block goes up to the last address. -/
structure Image where
  start : Nat
  bytes : List UInt8
  aligned : start % 4 = 0
  fits : start + bytes.length < 2 ^ 64

/-- The first address behind it. -/
def Image.stop (img : Image) : Nat := img.start + img.bytes.length

/-- Nothing else can be read. -/
def Image.mem (img : Image) : Memory := fun a => if a < img.start then none else img.bytes[a - img.start]?

namespace Image

variable {img : Image}

theorem within {a : Nat} (h : img.mem a = some c) : img.start ≤ a ∧ a < img.stop := by
  unfold Image.mem at h
  by_cases hlt : a < img.start
  · rw [if_pos hlt] at h
    exact absurd h (by simp)
  · rw [if_neg hlt] at h
    have hin := (List.getElem?_eq_some_iff.mp h).1
    unfold stop
    omega

theorem stop_lt (img : Image) : img.stop < 2 ^ 64 := img.fits

/-- What is read from `p` on, one character after the other, does not go round the address space. -/
theorem reads_fit (hp : p < 2 ^ 64) (h : Reads (charsAt img.mem p) 0 cs) : p + cs.length < 2 ^ 64 := by
  have hlt : ∀ j ≤ cs.length, p + j < 2 ^ 64 := by
    intro j
    induction j with
    | zero => exact fun _ => hp
    | succ j ih =>
        intro hj
        have hat := ih (by omega)
        have hread := h j (cs.get ⟨j, hj⟩) (List.getElem?_eq_getElem hj)
        rw [Nat.zero_add] at hread
        have := (within (loadByte_some hat hread)).2
        have := img.stop_lt
        omega
  exact hlt cs.length (Nat.le_refl _)

theorem reads_iff (hp : p < 2 ^ 64) : Reads (charsAt img.mem p) 0 cs ↔ BytesAt img.mem p cs := by
  constructor
  · intro h j c hc
    have hfit := reads_fit hp h
    have hj := (List.getElem?_eq_some_iff.mp hc).1
    have hread := h j c hc
    rw [Nat.zero_add] at hread
    exact loadByte_some (by omega) hread
  · intro h
    refine reads_charsAt h ?_
    rcases Nat.eq_zero_or_pos cs.length with h0 | hpos
    · omega
    · have hlast := h (cs.length - 1) (cs.get ⟨cs.length - 1, by omega⟩) (List.getElem?_eq_getElem (by omega))
      have := (within hlast).2
      have := img.stop_lt
      omega

end Image

/-! ## What may be found in it -/

/-- What an entry says of itself. -/
structure ImageEntry where
  name : List UInt8
  namesize : Nat
  filesize : Nat
  deriving DecidableEq, Repr

/-- Where its data begins, when its header is at `p`. -/
def ImageEntry.dataAt (e : ImageEntry) (p : Nat) : Nat :=
  p + cpioHeaderSize + e.namesize + pad4 (p + cpioHeaderSize + e.namesize)

/-- Where the next header is. -/
def ImageEntry.nextAt (e : ImageEntry) (p : Nat) : Nat := alignUp (e.dataAt p + e.filesize) cpioAlignment

/--
A valid entry at `p` that fits the image: two sizes of eight digits, a name that
ends within its size, and all of its data before the end of the image.
-/
structure EntryIn (img : Image) (p : Nat) (e : ImageEntry) : Prop where
  magic : BytesAt img.mem p cpioHeaderMagic
  filesize : ∃ field, BytesAt img.mem (p + filesizeOffset) field ∧ HexField field e.filesize
  namesize : ∃ field, BytesAt img.mem (p + namesizeOffset) field ∧ HexField field e.namesize
  name : CString img.mem (p + cpioHeaderSize) e.name
  nameFits : e.name.length < e.namesize
  notTrailer : e.name ≠ cpioFooterMagic
  dataFits : e.dataAt p + e.filesize ≤ img.stop

/-- The last entry at `p`. Its size is read, whatever it is. -/
structure TrailerIn (img : Image) (p : Nat) : Prop where
  magic : BytesAt img.mem p cpioHeaderMagic
  filesize : ∃ n, parseHexStr (charsAt img.mem (p + filesizeOffset)) 8 = .ok n
  name : CString img.mem ((p + cpioHeaderSize) % 2 ^ 64) cpioFooterMagic

/-- A character at `p` or a little further that is not the magic number's, and nothing amiss before it. -/
def BadMagicIn (img : Image) (p : Nat) : Prop :=
  ∃ j x y, cpioHeaderMagic[j]? = some y ∧ BytesAt img.mem p (cpioHeaderMagic.take j) ∧ img.mem (p + j) = some x ∧ x ≠ y

variable {img : Image} {e : ImageEntry} {r : ParsedHeader}

theorem EntryIn.parse (h : EntryIn img p e) : cpioParseHeader img.mem p =
    .ok ⟨0, some (p + cpioHeaderSize), some e.filesize, some (e.dataAt p), some (e.nextAt p)⟩ := by
  obtain ⟨ffield, hfat, hf⟩ := h.filesize
  obtain ⟨nfield, hnat, hn⟩ := h.namesize
  have hd : (plainHeader ffield nfield).Describes e.filesize e.namesize := ⟨rfl, hf, rfl, hn, rfl⟩
  have hfit := h.dataFits
  have hstop := img.stop_lt
  have hdata : alignUp ((p + cpioHeaderSize + e.namesize) % 2 ^ 64) cpioAlignment = e.dataAt p := by
    unfold ImageEntry.dataAt at hfit ⊢
    unfold pad4 at hfit
    rw [Nat.mod_eq_of_lt (by omega), alignUp_four (by omega)]
  rw [cpioParseHeader_named hd ⟨h.magic, hfat, hnat⟩ h.name, if_neg h.notTrailer, hdata,
    Nat.mod_eq_of_lt (by omega : e.dataAt p + e.filesize < 2 ^ 64)]
  rfl

theorem EntryIn.print (h : EntryIn img p e) : printString img.mem (some (p + cpioHeaderSize)) = .ok e.name :=
  readStringTurns_spec h.name (by have := h.name.fits; omega)

theorem TrailerIn.parse (hp : p < 2 ^ 64) (h : TrailerIn img p) :
    cpioParseHeader img.mem p = .ok ⟨1, some ((p + cpioHeaderSize) % 2 ^ 64), none, none, none⟩ := by
  obtain ⟨n, hn⟩ := h.filesize
  have hfit := Image.reads_fit hp ((Image.reads_iff hp).mpr h.magic)
  have hmagic := magic_compares h.magic (Nat.le_of_lt hfit)
  obtain ⟨r, hr, hiff⟩ := cpioStrncmpTurns_spec (n := 11) h.name.reads reads_literal h.name.nonzero
    cpioFooterMagic_ne_zero (Or.inr (by decide))
  obtain rfl := hiff.mpr rfl
  have hfooter : cpioStrncmp (charsAt img.mem ((p + cpioHeaderSize) % 2 ^ 64)) (literal cpioFooterMagic) 11 = .ok 0 := hr
  unfold cpioParseHeader
  simp only [hmagic, ok_bind, ne_eq, not_true_eq_false, if_false, hn, hfooter, if_true]

theorem TrailerIn.print (h : TrailerIn img p) :
    printString img.mem (some ((p + cpioHeaderSize) % 2 ^ 64)) = .ok cpioFooterMagic :=
  readStringTurns_spec h.name (by decide)

theorem badMagicIn_iff (hp : p < 2 ^ 64) :
    BadMagicIn img p ↔ ∃ m, cpioStrncmp (charsAt img.mem p) (literal cpioHeaderMagic) 6 = .ok m ∧ m ≠ 0 := by
  refine Iff.trans ?_ (cpioStrncmpTurns_differs reads_magic cpioHeaderMagic_ne_zero).symm
  have hlen : ∀ {j y}, cpioHeaderMagic[j]? = some y → (cpioHeaderMagic.take j).length = j := fun hj => by
    have := (List.getElem?_eq_some_iff.mp hj).1
    rw [List.length_take]
    omega
  constructor
  · rintro ⟨j, x, y, hj, hsame, hx, hne⟩
    have hlast := (Image.within hx).2
    have := img.stop_lt
    exact ⟨j, x, y, hj, (Image.reads_iff hp).mpr hsame, loadByte_of_lt (by omega) (by rw [Nat.zero_add]; exact hx), hne⟩
  · rintro ⟨j, x, y, hj, hsame, hx, hne⟩
    have hfit := Image.reads_fit hp hsame
    rw [hlen hj] at hfit
    rw [Nat.zero_add] at hx
    exact ⟨j, x, y, hj, (Image.reads_iff hp).mp hsame, loadByte_some hfit hx, hne⟩

theorem BadMagicIn.parse (hp : p < 2 ^ 64) (h : BadMagicIn img p) :
    cpioParseHeader img.mem p = .ok ⟨-1, none, none, none, none⟩ := by
  obtain ⟨m, hm, hne⟩ := (badMagicIn_iff hp).mp h
  unfold cpioParseHeader
  rw [hm, ok_bind, if_pos hne]

/-- **An error** means a wrong magic number or the last entry. -/
theorem parse_error (hp : p < 2 ^ 64) (h : cpioParseHeader img.mem p = .ok r) (herr : r.error ≠ 0) :
    BadMagicIn img p ∨ TrailerIn img p := by
  unfold cpioParseHeader at h
  obtain ⟨magic, hmagic, h⟩ := bind_eq_ok h
  by_cases hm : magic ≠ 0
  · exact Or.inl ((badMagicIn_iff hp).mpr ⟨magic, hmagic, hm⟩)
  · obtain rfl := not_not.mp hm
    rw [if_neg hm] at h
    obtain ⟨filesize, hfile, h⟩ := bind_eq_ok h
    obtain ⟨footer, hfooter, h⟩ := bind_eq_ok h
    by_cases hf : footer = 0
    · rw [hf] at hfooter
      have hsame := (cpioStrncmpTurns_agree (n := 0) reads_magic cpioHeaderMagic_ne_zero hmagic).1
      have hname := cpioStrncmpTurns_string reads_literal cpioFooterMagic_ne_zero hfooter
      have hlt : (p + cpioHeaderSize) % 2 ^ 64 < 2 ^ 64 := Nat.mod_lt _ (by decide)
      have hfit := Image.reads_fit hlt hname
      rw [List.length_append] at hfit
      exact Or.inr ⟨(Image.reads_iff hp).mp hsame, ⟨filesize, hfile⟩, cpioFooterMagic_ne_zero,
        (Image.reads_iff hlt).mp hname, by omega⟩
    · rw [if_neg hf] at h
      obtain ⟨namesize, _, h⟩ := bind_eq_ok h
      rw [← Except.ok.inj h] at herr
      exact absurd rfl herr

/-! ## What the scans are to do -/

def ValidAt (img : Image) (p : Nat) : Prop := ∃ e, EntryIn img p e

/--
From `p` on, `cpio_get_file` reads nothing outside the image, uses no pointer that
was not set, goes on from valid entries only, and what it returns is the data of a
valid one, inside the image.
-/
def GetsSafely (img : Image) (name : List UInt8) (size p : Nat) : Prop :=
  ∃ turns before last result size',
    getFileVisits img.mem (literal name) p size turns = .ok (before ++ [last], result, size') ∧
    (∀ q ∈ before, ValidAt img q) ∧
    ∀ d, result = some d → ValidAt img last ∧ img.start ≤ d ∧ d + size' ≤ img.stop

/-- So does `cpio_ls`, which returns nothing. -/
def ListsSafely (img : Image) (p : Nat) : Prop :=
  ∃ turns before last names, lsVisits img.mem p turns = .ok (before ++ [last], names) ∧ ∀ q ∈ before, ValidAt img q

/-- One valid entry after the other leads from `p` to one of that name, or to the last. -/
inductive Finds (img : Image) (name : List UInt8) : Nat → Prop
  | trailer {p : Nat} : TrailerIn img p → Finds img name p
  | hit {p : Nat} {e : ImageEntry} : EntryIn img p e → e.name = name → Finds img name p
  | next {p : Nat} {e : ImageEntry} : EntryIn img p e → e.name ≠ name → Finds img name (e.nextAt p) → Finds img name p

/-- One valid entry after the other, none of that name, leads from `p` to a wrong magic number. -/
inductive Rejects (img : Image) (name : List UInt8) : Nat → Prop
  | badMagic {p : Nat} : BadMagicIn img p → Rejects img name p
  | next {p : Nat} {e : ImageEntry} :
      EntryIn img p e → e.name ≠ name → Rejects img name (e.nextAt p) → Rejects img name p

/-- One valid entry after the other leads from `p` to the last, or to a wrong magic number. -/
inductive Lists (img : Image) : Nat → Prop
  | trailer {p : Nat} : TrailerIn img p → Lists img p
  | badMagic {p : Nat} : BadMagicIn img p → Lists img p
  | next {p : Nat} {e : ImageEntry} : EntryIn img p e → Lists img (e.nextAt p) → Lists img p

theorem alignUp_lt (n : Nat) : alignUp n cpioAlignment < 2 ^ 64 :=
  Nat.and_le_left.trans_lt (Nat.mod_lt _ (by decide))

/-! ## `cpio_get_file` -/

/-- One turn at a valid entry. -/
theorem getFileVisits_entry (h : EntryIn img p e) (hname : ∀ c ∈ name, c ≠ 0) :
    getFileVisits img.mem (literal name) p size (turns + 1) =
      if e.name = name then .ok ([p], some (e.dataAt p), e.filesize)
      else getFileVisits img.mem (literal name) (e.nextAt p) e.filesize turns >>= fun v => .ok (p :: v.1, v.2) := by
  have hfit := h.name.fits
  unfold cpioHeaderSize at hfit
  obtain ⟨c, hc, hiff⟩ := cpioStrncmpTurns_spec (n := 2 ^ 64 - 1) h.name.reads reads_literal h.name.nonzero hname
    (Or.inl (by omega))
  have hcmp : cpioStrncmp (charsAt img.mem (p + cpioHeaderSize)) (literal name) (2 ^ 64 - 1) = .ok c := hc
  rw [getFileVisits, h.parse]
  simp only [ok_bind, h.print, hcmp, Option.getD_some, ne_eq, not_true_eq_false, if_false]
  by_cases heq : e.name = name
  · rw [if_pos heq, if_pos (hiff.mpr heq)]
  · rw [if_neg heq, if_neg (fun h0 => heq (hiff.mp h0))]

/-- Where there is no error the scan has found the file or goes on. -/
theorem getFileVisits_zero {visited : List Nat} {result : Option Nat} {size' : Nat}
    (hp : cpioParseHeader img.mem p = .ok r) (h0 : r.error = 0)
    (h : getFileVisits img.mem (literal name) p size (turns + 1) = .ok (visited, result, size')) :
    (∃ d, visited = [p] ∧ result = some d) ∨ ∃ next size rest,
      getFileVisits img.mem (literal name) next size turns = .ok (rest, result, size') ∧ visited = p :: rest := by
  obtain ⟨_, _, _, _, _, _, hf, _, hd, hn⟩ := cpioParseHeader_zero hp h0
  rw [getFileVisits, hp, ok_bind] at h
  obtain ⟨_, _, h⟩ := bind_eq_ok h
  rw [if_neg (not_not.mpr h0), hf, hd, hn] at h
  obtain ⟨c, _, h⟩ := bind_eq_ok h
  by_cases hc : c = 0
  · rw [if_pos hc] at h
    obtain ⟨rfl, hres⟩ := Prod.mk.inj (Except.ok.inj h)
    exact Or.inl ⟨_, rfl, (Prod.mk.inj hres).1.symm⟩
  · rw [if_neg hc] at h
    obtain ⟨⟨rest, res⟩, hrest, h⟩ := bind_eq_ok h
    obtain ⟨rfl, rfl⟩ := Prod.mk.inj (Except.ok.inj h)
    exact Or.inr ⟨_, _, rest, hrest, rfl⟩

/-- A scan visits the header it is given. -/
theorem getFileVisits_ne_nil {result : Option Nat × Nat} :
    getFileVisits img.mem (literal name) p size turns ≠ .ok ([], result) := by
  intro h
  cases turns with
  | zero => exact absurd h (by simp [getFileVisits])
  | succ turns =>
      have hrun := h
      rw [getFileVisits] at h
      obtain ⟨r, hp, h⟩ := bind_eq_ok h
      obtain ⟨_, _, h⟩ := bind_eq_ok h
      by_cases herr : r.error ≠ 0
      · rw [if_pos herr] at h
        exact absurd (Prod.mk.inj (Except.ok.inj h)).1 (by simp)
      · rcases getFileVisits_zero hp (not_not.mp herr) hrun with ⟨_, hnil, _⟩ | ⟨_, _, _, _, hnil⟩ <;>
          exact absurd hnil (by simp)

theorem gets_of_finds (hname : ∀ c ∈ name, c ≠ 0) (h : Finds img name p) :
    p < 2 ^ 64 → ∀ size, GetsSafely img name size p := by
  induction h with
  | @trailer p h =>
      intro hp size
      refine ⟨1, [], p, none, size, ?_, by simp, by simp⟩
      rw [getFileVisits, h.parse hp]
      simp only [ok_bind, h.print]
      rfl
  | @hit p e h heq =>
      intro hp size
      refine ⟨1, [], p, some (e.dataAt p), e.filesize, ?_, by simp, fun d hd => ⟨⟨e, h⟩, ?_⟩⟩
      · rw [getFileVisits_entry h hname, if_pos heq]
        rfl
      · obtain rfl := Option.some.inj hd
        have hin := (Image.within (h.magic 0 48 rfl)).1
        exact ⟨by unfold ImageEntry.dataAt; omega, h.dataFits⟩
  | @next p e h hne _ ih =>
      intro hp size
      obtain ⟨turns, before, last, result, size', hrun, hbefore, hres⟩ := ih (alignUp_lt _) e.filesize
      refine ⟨turns + 1, p :: before, last, result, size', ?_, fun q hq => ?_, hres⟩
      · rw [getFileVisits_entry h hname, if_neg hne, hrun]
        rfl
      · rcases List.mem_cons.mp hq with rfl | hq
        · exact ⟨e, h⟩
        · exact hbefore q hq

theorem finds_of_gets (hname : ∀ c ∈ name, c ≠ 0) (turns : Nat) : ∀ p size before last result size', p < 2 ^ 64 →
    getFileVisits img.mem (literal name) p size turns = .ok (before ++ [last], result, size') →
    (∀ q ∈ before, ValidAt img q) → (∀ d, result = some d → ValidAt img last) → Finds img name p := by
  induction turns with
  | zero => exact fun _ _ _ _ _ _ _ h => absurd h (by simp [getFileVisits])
  | succ turns ih =>
      intro p size before last result size' hlt hrun hbefore hlast
      have h := hrun
      rw [getFileVisits] at h
      obtain ⟨r, hp, h⟩ := bind_eq_ok h
      obtain ⟨printed, hprint, _⟩ := bind_eq_ok h
      by_cases herr : r.error ≠ 0
      · rcases parse_error hlt hp herr with hbad | htrailer
        · -- nothing has been stored, and the name is printed
          rw [hbad.parse hlt] at hp
          rw [← Except.ok.inj hp] at hprint
          exact absurd hprint (by simp [printString])
        · exact .trailer htrailer
      · have hvalid : ValidAt img p := by
          rcases getFileVisits_zero hp (not_not.mp herr) hrun with ⟨d, hvis, hd⟩ | ⟨next, sz, rest, hrest, hvis⟩
          · have := hlast d hd
            have hsplit : before ++ [last] = [] ++ [p] := hvis
            obtain rfl := (List.append_inj' hsplit rfl).2 |> List.singleton_inj.mp
            exact this
          · cases before with
            | nil =>
                obtain ⟨rfl, rfl⟩ := List.cons.inj hvis
                exact absurd hrest getFileVisits_ne_nil
            | cons q before =>
                obtain ⟨rfl, _⟩ := List.cons.inj hvis
                exact hbefore q (List.mem_cons_self ..)
        obtain ⟨e, he⟩ := hvalid
        rw [getFileVisits_entry he hname] at hrun
        by_cases heq : e.name = name
        · exact .hit he heq
        · rw [if_neg heq] at hrun
          obtain ⟨⟨rest, res⟩, hrest, hvis⟩ := bind_eq_ok hrun
          have hvis := Except.ok.inj hvis
          cases before with
          | nil =>
              obtain ⟨hvis, rfl⟩ := Prod.mk.inj hvis
              obtain ⟨rfl, rfl⟩ := List.cons.inj hvis
              exact absurd hrest getFileVisits_ne_nil
          | cons q before =>
              obtain ⟨hvis, rfl⟩ := Prod.mk.inj hvis
              obtain ⟨rfl, rfl⟩ := List.cons.inj hvis
              exact .next he heq (ih _ _ before last result size' (alignUp_lt _) hrest
                (fun q hq => hbefore q (List.mem_cons_of_mem _ hq)) hlast)

/-! ## `cpio_ls` -/

theorem lsVisits_entry (h : EntryIn img p e) : lsVisits img.mem p (turns + 1) =
    lsVisits img.mem (e.nextAt p) turns >>= fun v => .ok (p :: v.1, e.name :: v.2) := by
  rw [lsVisits, h.parse]
  simp only [ok_bind, h.print, ne_eq, not_true_eq_false, if_false]

theorem lsVisits_zero {visited : List Nat} {names : List (List UInt8)} (hp : cpioParseHeader img.mem p = .ok r)
    (h0 : r.error = 0) (h : lsVisits img.mem p (turns + 1) = .ok (visited, names)) :
    ∃ next rest names', lsVisits img.mem next turns = .ok (rest, names') ∧ visited = p :: rest := by
  obtain ⟨_, _, _, _, _, _, _, _, _, hn⟩ := cpioParseHeader_zero hp h0
  rw [lsVisits, hp, ok_bind, if_neg (not_not.mpr h0), hn] at h
  obtain ⟨_, _, h⟩ := bind_eq_ok h
  obtain ⟨⟨rest, names'⟩, hrest, h⟩ := bind_eq_ok h
  obtain ⟨rfl, _⟩ := Prod.mk.inj (Except.ok.inj h)
  exact ⟨_, rest, names', hrest, rfl⟩

theorem lsVisits_ne_nil {names : List (List UInt8)} : lsVisits img.mem p turns ≠ .ok ([], names) := by
  intro h
  cases turns with
  | zero => exact absurd h (by simp [lsVisits])
  | succ turns =>
      have hrun := h
      rw [lsVisits] at h
      obtain ⟨r, hp, h⟩ := bind_eq_ok h
      by_cases herr : r.error ≠ 0
      · rw [if_pos herr] at h
        exact absurd (Prod.mk.inj (Except.ok.inj h)).1 (by simp)
      · obtain ⟨_, _, _, _, hnil⟩ := lsVisits_zero hp (not_not.mp herr) hrun
        exact absurd hnil (by simp)

theorem listsSafely_of_lists (h : Lists img p) : p < 2 ^ 64 → ListsSafely img p := by
  induction h with
  | @trailer p h =>
      intro hp
      refine ⟨1, [], p, [], ?_, by simp⟩
      rw [lsVisits, h.parse hp]
      rfl
  | @badMagic p h =>
      intro hp
      refine ⟨1, [], p, [], ?_, by simp⟩
      rw [lsVisits, h.parse hp]
      rfl
  | @next p e h _ ih =>
      intro hp
      obtain ⟨turns, before, last, names, hrun, hbefore⟩ := ih (alignUp_lt _)
      refine ⟨turns + 1, p :: before, last, e.name :: names, ?_, fun q hq => ?_⟩
      · rw [lsVisits_entry h, hrun]
        rfl
      · rcases List.mem_cons.mp hq with rfl | hq
        · exact ⟨e, h⟩
        · exact hbefore q hq

theorem lists_of_listsSafely (turns : Nat) : ∀ p before last names, p < 2 ^ 64 →
    lsVisits img.mem p turns = .ok (before ++ [last], names) → (∀ q ∈ before, ValidAt img q) → Lists img p := by
  induction turns with
  | zero => exact fun _ _ _ _ _ h => absurd h (by simp [lsVisits])
  | succ turns ih =>
      intro p before last names hlt hrun hbefore
      have h := hrun
      rw [lsVisits] at h
      obtain ⟨r, hp, h⟩ := bind_eq_ok h
      by_cases herr : r.error ≠ 0
      · rcases parse_error hlt hp herr with hbad | htrailer
        · exact .badMagic hbad
        · exact .trailer htrailer
      · obtain ⟨next, rest, names', hrest, hvis⟩ := lsVisits_zero hp (not_not.mp herr) hrun
        cases before with
        | nil =>
            obtain ⟨_, rfl⟩ := List.cons.inj hvis
            exact absurd hrest lsVisits_ne_nil
        | cons q before =>
            obtain ⟨rfl, rfl⟩ := List.cons.inj hvis
            obtain ⟨e, he⟩ := hbefore q (List.mem_cons_self ..)
            rw [lsVisits_entry he] at hrun
            obtain ⟨⟨visited, names'⟩, hrest, hvis⟩ := bind_eq_ok hrun
            obtain ⟨hvis, _⟩ := Prod.mk.inj (Except.ok.inj hvis)
            obtain ⟨_, rfl⟩ := List.cons.inj hvis
            exact .next he (ih _ before last names' (alignUp_lt _) hrest
              (fun q hq => hbefore q (List.mem_cons_of_mem _ hq)))

theorem listsSafely_iff (img : Image) : ListsSafely img img.start ↔ Lists img img.start := by
  have hlt : img.start < 2 ^ 64 := by have := img.fits; omega
  refine ⟨?_, fun h => listsSafely_of_lists h hlt⟩
  rintro ⟨turns, before, last, names, hrun, hbefore⟩
  exact lists_of_listsSafely turns img.start before last names hlt hrun hbefore

theorem getsSafely_iff (img : Image) (size : Nat) (hname : ∀ c ∈ name, c ≠ 0) :
    GetsSafely img name size img.start ↔ Finds img name img.start := by
  have hlt : img.start < 2 ^ 64 := by have := img.fits; omega
  refine ⟨?_, fun h => gets_of_finds hname h hlt size⟩
  rintro ⟨turns, before, last, result, size', hrun, hbefore, hlast⟩
  exact finds_of_gets hname turns img.start size before last result size' hlt hrun hbefore (fun d hd => (hlast d hd).1)

/-! ## Any image -/

/--
**Malformed archives** are gone through safely exactly as far as their entries are
valid. `cpio_ls` keeps to the image and stops at the first entry that is not valid
if and only if every entry before a wrong magic number, or before the last one, is
valid and fits. `cpio_get_file` does, and what it returns lies in the image, if and
only if valid entries lead to one of that name or to the last; this is where it
does not come to a wrong magic number.
-/
theorem archive_scans_safe_iff :
    (∀ img : Image, ListsSafely img img.start ↔ Lists img img.start) ∧
    ∀ (img : Image) (name : List UInt8) (size : Nat), (∀ c ∈ name, c ≠ 0) → ¬ Rejects img name img.start →
      (GetsSafely img name size img.start ↔ Finds img name img.start) :=
  ⟨listsSafely_iff, fun img _ size hname _ => getsSafely_iff img size hname⟩

theorem Image.bytesAt (img : Image) : BytesAt img.mem img.start img.bytes := by
  intro i b hb
  rw [Image.mem, if_neg (Nat.not_lt.mpr (Nat.le_add_right ..)), Nat.add_sub_cancel_left]
  exact hb

/-- The small archive, with nothing around it. -/
def archiveImage : Image where
  start := 0
  bytes := archiveBytes [smallFile] smallTrailer
  aligned := rfl
  fits := by decide +kernel

theorem archiveImage_entry : EntryIn archiveImage 0 ⟨[97], 2, 1⟩ := by
  have hd : smallFile.header.Describes 1 2 := ⟨rfl, ⟨rfl, by decide⟩, rfl, ⟨rfl, by decide⟩, rfl⟩
  have hsplit : archiveImage.bytes = smallFile.header.bytes ++ ([97] ++ [0]) ++ archiveImage.bytes.drop 112 := by
    decide +kernel
  have hb := archiveImage.bytesAt
  rw [hsplit] at hb
  obtain ⟨ha, hc⟩ := named_at hd (by simp) (bytesAt_append.mp hb).1 (by decide)
  exact ⟨ha.magic, ⟨_, ha.filesize, hd.filesize⟩, ⟨_, ha.namesize, hd.namesize⟩, hc, by decide, by decide,
    by decide +kernel⟩

/-- The file `a` is found in it. -/
theorem archive_scans_safe_small : GetsSafely archiveImage [97] 0 0 := by
  refine (archive_scans_safe_iff.2 archiveImage [97] 0 (by simp) ?_).mpr (.hit archiveImage_entry rfl)
  intro h
  cases h with
  | badMagic hbad => exact absurd (archiveImage_entry.parse.symm.trans (hbad.parse (by decide))) (by simp)
  | next he hne _ =>
      exact hne (Except.ok.inj (he.print.symm.trans archiveImage_entry.print))

/-- An archive of which the first character is left. -/
def truncated : Image where
  start := 0
  bytes := [48]
  aligned := rfl
  fits := by decide

theorem not_archive_scans_safe :
    ¬ ∀ (img : Image) (name : List UInt8) (size : Nat), (∀ c ∈ name, c ≠ 0) →
      GetsSafely img name size img.start ∧ ListsSafely img img.start := by
  intro h
  obtain ⟨turns, before, last, names, hrun, _⟩ := (h truncated [97] 0 (by simp)).2
  have hparse : cpioParseHeader truncated.mem 0 = .error .outOfBounds := rfl
  cases turns with
  | zero => exact absurd hrun (by simp [lsVisits])
  | succ turns =>
      rw [show truncated.start = 0 from rfl, lsVisits, hparse] at hrun
      exact absurd hrun (by simp)

end OsdiKernel
