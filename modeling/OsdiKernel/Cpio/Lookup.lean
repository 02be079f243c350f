import OsdiKernel.Cpio.Newc

/-!
# Looking up a file

One call of `cpio_parse_header` on a well-formed entry yields its name, the length
and the place of its data and the place of the next header; on the last entry it
says that there are no more. The two scans follow by induction on the entries.
-/

namespace OsdiKernel

variable {mem : Memory} {p n : Nat} {name : List UInt8} {h trailer : CpioHeader} {e : CpioEntry}
  {entries : List CpioEntry} {filesize namesize : Nat}

/-! ## One header -/

/-- A header and the name behind it. -/
theorem named_at (hd : h.Describes filesize namesize) (hname : ∀ c ∈ name, c ≠ 0)
    (hb : BytesAt mem p (h.bytes ++ (name ++ [0]))) (hfit : p + cpioHeaderSize + name.length < 2 ^ 64) :
    HeaderAt mem p h ∧ CString mem (p + cpioHeaderSize) name := by
  obtain ⟨hhead, hstr⟩ := bytesAt_append.mp hb
  rw [hd.length] at hstr
  exact ⟨hd.at hhead, hname, hstr, hfit⟩

/-- Up to the comparison with the trailer. -/
theorem cpioParseHeader_named (hd : h.Describes filesize namesize) (ha : HeaderAt mem p h)
    (hc : CString mem (p + cpioHeaderSize) name) :
    cpioParseHeader mem p =
      if name = cpioFooterMagic then .ok ⟨1, some (p + cpioHeaderSize), none, none, none⟩
      else .ok ⟨0, some (p + cpioHeaderSize), some filesize,
        some (alignUp ((p + cpioHeaderSize + namesize) % 2 ^ 64) cpioAlignment),
        some (alignUp ((alignUp ((p + cpioHeaderSize + namesize) % 2 ^ 64) cpioAlignment + filesize) % 2 ^ 64)
          cpioAlignment)⟩ := by
  have hfit := hc.fits
  have hmod : (p + cpioHeaderSize) % 2 ^ 64 = p + cpioHeaderSize := Nat.mod_eq_of_lt (by omega)
  have hmagic := ha.magic_eq (by omega)
  have hfile : parseHexStr (charsAt mem (p + filesizeOffset)) 8 = .ok filesize := by
    refine hd.filesize.parse (reads_charsAt ha.filesize ?_)
    rw [hd.filesize.length]
    unfold filesizeOffset
    unfold cpioHeaderSize at hfit
    omega
  have hlen : parseHexStr (charsAt mem (p + namesizeOffset)) 8 = .ok namesize := by
    refine hd.namesize.parse (reads_charsAt ha.namesize ?_)
    rw [hd.namesize.length]
    unfold namesizeOffset
    unfold cpioHeaderSize at hfit
    omega
  obtain ⟨r, hr, hiff⟩ := cpioStrncmpTurns_spec (n := 11) hc.reads reads_literal hc.nonzero
    cpioFooterMagic_ne_zero (Or.inr (by decide))
  have hfooter : cpioStrncmp (charsAt mem (p + cpioHeaderSize)) (literal cpioFooterMagic) 11 = .ok r := hr
  unfold cpioParseHeader
  simp only [hmagic, ok_bind, ne_eq, not_true_eq_false, if_false, hfile, hmod, hfooter, hlen]
  by_cases heq : name = cpioFooterMagic
  · rw [if_pos heq, if_pos (hiff.mpr heq)]
  · rw [if_neg heq, if_neg (fun h0 => heq (hiff.mp h0))]

/-- An entry that lies at `p`. -/
structure EntryAt (mem : Memory) (p : Nat) (e : CpioEntry) : Prop where
  name : CString mem (p + cpioHeaderSize) e.name
  parse : cpioParseHeader mem p = .ok ⟨0, some (p + cpioHeaderSize), some e.data.length, some (p + e.dataOffset),
    some (p + e.bytes.length)⟩

/-- **`cpio_parse_header`** of a well-formed entry. -/
theorem CpioEntry.WellFormed.at (hw : e.WellFormed) (hb : BytesAt mem p e.bytes) (hp : p % 4 = 0)
    (hfit : p + e.bytes.length + 4 ≤ 2 ^ 64) : EntryAt mem p e := by
  have hhead : e.head.length = cpioHeaderSize + (e.name.length + 1) := by
    rw [CpioEntry.head, List.length_append, hw.header.length, List.length_append, List.length_singleton]
  have hoff : e.dataOffset = e.head.length + pad4 e.head.length := padded_length _
  have hlen : e.bytes.length = e.dataOffset + (e.data.length + pad4 e.data.length) := by
    rw [CpioEntry.bytes, List.length_append, padded_length e.data]
    rfl
  have hmod : e.dataOffset % 4 = 0 := padded_length_mod _
  obtain ⟨ha, hc⟩ := named_at hw.header hw.nonzero (bytesAt_append.mp (bytesAt_append.mp hb).1).1 (by omega)
  refine ⟨hc, ?_⟩
  -- the padding depends on the offset only, because the entry begins at a multiple of four
  have hdata : alignUp ((p + cpioHeaderSize + (e.name.length + 1)) % 2 ^ 64) cpioAlignment = p + e.dataOffset := by
    rw [Nat.mod_eq_of_lt (by omega), alignUp_four (by omega), hoff, hhead, pad4, pad4]
    omega
  have hnext : alignUp ((p + e.dataOffset + e.data.length) % 2 ^ 64) cpioAlignment = p + e.bytes.length := by
    rw [Nat.mod_eq_of_lt (by omega), alignUp_four (by omega), hlen, pad4, pad4]
    omega
  rw [cpioParseHeader_named hw.header ha hc, if_neg hw.notTrailer, hdata, hnext]

/-- The last entry, at `p`. -/
structure TrailerAt (mem : Memory) (p : Nat) : Prop where
  name : CString mem (p + cpioHeaderSize) cpioFooterMagic
  parse : cpioParseHeader mem p = .ok ⟨1, some (p + cpioHeaderSize), none, none, none⟩

theorem trailer_at (ht : trailer.Describes 0 11) (hb : BytesAt mem p (trailerBytes trailer))
    (hfit : p + (trailerBytes trailer).length ≤ 2 ^ 64) : TrailerAt mem p := by
  rw [trailerBytes, padded_length, List.length_append, ht.length] at hfit
  simp only [List.length_append, List.length_singleton] at hfit
  obtain ⟨ha, hc⟩ := named_at ht cpioFooterMagic_ne_zero (bytesAt_append.mp hb).1 (by omega)
  exact ⟨hc, by rw [cpioParseHeader_named ht ha hc, if_pos rfl]⟩

/-! ## The whole archive -/

/-- A well-formed archive lies at `p`, and does not wrap around the end of memory. -/
structure Archived (mem : Memory) (p : Nat) (entries : List CpioEntry) (trailer : CpioHeader) : Prop where
  wellFormed : ∀ e ∈ entries, e.WellFormed
  last : trailer.Describes 0 11
  aligned : p % 4 = 0
  bytes : BytesAt mem p (archiveBytes entries trailer)
  fits : p + (archiveBytes entries trailer).length ≤ 2 ^ 64

/-- The first entry with that name, and where its data lies. -/
def findEntry (p : Nat) (name : List UInt8) : List CpioEntry → Option (Nat × CpioEntry)
  | [] => none
  | e :: es => if e.name = name then some (p + e.dataOffset, e) else findEntry (p + e.bytes.length) name es

theorem CpioEntry.bytes_length_mod (e : CpioEntry) : e.bytes.length % 4 = 0 := by
  have h1 := padded_length_mod e.head
  have h2 := padded_length_mod e.data
  rw [CpioEntry.bytes, List.length_append]
  omega

theorem trailerBytes_length (ht : trailer.Describes 0 11) : (trailerBytes trailer).length = 124 := by
  rw [trailerBytes, padded_length, List.length_append, ht.length]
  decide

namespace Archived

/-- The trailer of an empty archive. -/
theorem trailerAt (h : Archived mem p [] trailer) : TrailerAt mem p := trailer_at h.last h.bytes h.fits

/-- The first entry, and the archive of the others. -/
theorem first (h : Archived mem p (e :: entries) trailer) :
    EntryAt mem p e ∧ Archived mem (p + e.bytes.length) entries trailer := by
  have hsplit : archiveBytes (e :: entries) trailer = e.bytes ++ archiveBytes entries trailer := by
    rw [archiveBytes, List.flatMap_cons, List.append_assoc]
    rfl
  have hbytes := h.bytes
  have hfits := h.fits
  rw [hsplit] at hbytes hfits
  rw [List.length_append] at hfits
  obtain ⟨hfirst, hrest⟩ := bytesAt_append.mp hbytes
  have hlast : 124 ≤ (archiveBytes entries trailer).length := by
    rw [archiveBytes, List.length_append, trailerBytes_length h.last]
    exact Nat.le_add_left ..
  refine ⟨(h.wellFormed e (List.mem_cons_self ..)).at hfirst h.aligned (by omega), ?_⟩
  refine ⟨fun d hd => h.wellFormed d (List.mem_cons_of_mem _ hd), h.last, ?_, hrest, by omega⟩
  have hmod := e.bytes_length_mod
  have haligned := h.aligned
  omega

/-- There are fewer entries than addresses. -/
theorem length_lt (h : Archived mem p entries trailer) : p + entries.length < 2 ^ 64 := by
  induction entries generalizing p with
  | nil =>
      have hfits := h.fits
      rw [archiveBytes, List.flatMap_nil, List.nil_append, trailerBytes_length h.last] at hfits
      rw [List.length_nil]
      omega
  | cons e es ih =>
      have hrest := ih h.first.2
      have hpos : 1 ≤ e.bytes.length := by
        have hname := h.first.1.name
        rw [CpioEntry.bytes, List.length_append, padded_length, CpioEntry.head, List.length_append,
          List.length_append, List.length_singleton]
        omega
      rw [List.length_cons]
      omega

end Archived

/-- **`cpio_get_file`** on a well-formed archive. -/
theorem cpioGetFileTurns_spec (h : Archived mem p entries trailer) {q size : Nat} (hname : CString mem q name)
    (hn : entries.length < n) :
    (∀ a e, findEntry p name entries = some (a, e) →
      cpioGetFileTurns mem q p size n = .ok (some a, e.data.length)) ∧
    (findEntry p name entries = none → ∃ size', cpioGetFileTurns mem q p size n = .ok (none, size')) := by
  induction entries generalizing p n size with
  | nil =>
      obtain ⟨n, rfl⟩ : ∃ k, n = k + 1 := ⟨n - 1, by simp at hn; omega⟩
      have ht := h.trailerAt
      have hprint : printString mem (some (p + cpioHeaderSize)) = .ok cpioFooterMagic :=
        readStringTurns_spec ht.name (by decide)
      refine ⟨fun a e he => absurd he (by simp [findEntry]), fun _ => ⟨size, ?_⟩⟩
      rw [cpioGetFileTurns, ht.parse]
      simp only [ok_bind, hprint]
      rfl
  | cons e es ih =>
      obtain ⟨n, rfl⟩ : ∃ k, n = k + 1 := ⟨n - 1, by simp at hn; omega⟩
      obtain ⟨he, hrest⟩ := h.first
      have hnamefit := he.name.fits
      have hprint : printString mem (some (p + cpioHeaderSize)) = .ok e.name :=
        readStringTurns_spec he.name (by omega)
      have hqfit := hname.fits
      obtain ⟨r, hr, hiff⟩ := cpioStrncmpTurns_spec (n := 2 ^ 64 - 1) he.name.reads hname.reads he.name.nonzero
        hname.nonzero (Or.inl (by unfold cpioHeaderSize at hnamefit; omega))
      have hcmp : cpioStrncmp (charsAt mem (p + cpioHeaderSize)) (charsAt mem q) (2 ^ 64 - 1) = .ok r := hr
      have hstep : cpioGetFileTurns mem q p size (n + 1) =
          if e.name = name then .ok (some (p + e.dataOffset), e.data.length)
          else cpioGetFileTurns mem q (p + e.bytes.length) e.data.length n := by
        rw [cpioGetFileTurns, he.parse]
        simp only [ok_bind, hprint, hcmp, Option.getD_some, ne_eq, not_true_eq_false, if_false]
        by_cases heq : e.name = name
        · rw [if_pos heq, if_pos (hiff.mpr heq)]
        · rw [if_neg heq, if_neg (fun h0 => heq (hiff.mp h0))]
      rw [hstep]
      unfold findEntry
      by_cases heq : e.name = name
      · rw [if_pos heq, if_pos heq]
        refine ⟨fun a d hd => ?_, fun hnone => absurd hnone (by simp)⟩
        obtain ⟨rfl, rfl⟩ := Prod.mk.inj (Option.some.inj hd)
        rfl
      · rw [if_neg heq, if_neg heq]
        exact ih hrest (Nat.lt_of_succ_lt_succ hn)

/-- **`cpio_ls`** on a well-formed archive. -/
theorem cpioLsTurns_spec (h : Archived mem p entries trailer) (hn : entries.length < n) :
    cpioLsTurns mem p n = .ok (entries.map CpioEntry.name) := by
  induction entries generalizing p n with
  | nil =>
      obtain ⟨n, rfl⟩ : ∃ k, n = k + 1 := ⟨n - 1, by simp at hn; omega⟩
      rw [cpioLsTurns, h.trailerAt.parse]
      rfl
  | cons e es ih =>
      obtain ⟨n, rfl⟩ : ∃ k, n = k + 1 := ⟨n - 1, by simp at hn; omega⟩
      obtain ⟨he, hrest⟩ := h.first
      have hnamefit := he.name.fits
      have hprint : printString mem (some (p + cpioHeaderSize)) = .ok e.name :=
        readStringTurns_spec he.name (by omega)
      rw [cpioLsTurns, he.parse]
      simp only [ok_bind, hprint, ih hrest (Nat.lt_of_succ_lt_succ hn), ne_eq, not_true_eq_false, if_false]
      rfl

/--
**Lookup is correct.** In a well-formed archive `cpio_get_file` finds the data of
the first entry of a name and its length, and finds nothing if there is none;
`cpio_ls` prints the names in order.
-/
theorem lookup_correct (h : Archived mem p entries trailer) :
    (∀ q name size, CString mem q name →
      (∀ a e, findEntry p name entries = some (a, e) → cpioGetFile mem p q size = .ok (some a, e.data.length)) ∧
      (findEntry p name entries = none → ∃ size', cpioGetFile mem p q size = .ok (none, size'))) ∧
    cpioLs mem p = .ok (entries.map CpioEntry.name) := by
  have hlen := h.length_lt
  exact ⟨fun q name size hname => cpioGetFileTurns_spec h hname (by omega), cpioLsTurns_spec h (by omega)⟩

/-- The header of the archives below: all digits zero but those of the two lengths. -/
def plainHeader (filesize namesize : List UInt8) : CpioHeader where
  attributes := List.replicate 48 48
  filesize := filesize
  device := List.replicate 32 48
  namesize := namesize
  check := List.replicate 8 48

/-- A file `a` of one byte. -/
def smallFile : CpioEntry where
  header := plainHeader [48, 48, 48, 48, 48, 48, 48, 49] [48, 48, 48, 48, 48, 48, 48, 50]
  name := [97]
  data := [7]

def smallTrailer : CpioHeader := plainHeader (List.replicate 8 48) [48, 48, 48, 48, 48, 48, 48, 66]

/-- An archive of that file, and the string `a` behind it. -/
def smallMemory : Memory := fun a => (archiveBytes [smallFile] smallTrailer ++ [97, 0])[a]?

theorem smallArchive : Archived smallMemory 0 [smallFile] smallTrailer where
  wellFormed e he := by
    obtain rfl := List.mem_singleton.mp he
    exact ⟨⟨rfl, ⟨rfl, by decide⟩, rfl, ⟨rfl, by decide⟩, rfl⟩, by decide, by simp [smallFile], by decide⟩
  last := ⟨rfl, ⟨rfl, by decide⟩, rfl, ⟨rfl, by decide⟩, rfl⟩
  aligned := rfl
  bytes i b hb := by
    rw [Nat.zero_add, smallMemory, List.getElem?_append_left (List.getElem?_eq_some_iff.mp hb).1]
    exact hb
  fits := by decide +kernel

theorem smallName : CString smallMemory 240 [97] where
  nonzero := by simp
  bytes i b hb := by
    have hlen : (archiveBytes [smallFile] smallTrailer).length = 240 := by decide +kernel
    rw [smallMemory, List.getElem?_append_right (by omega), hlen, Nat.add_sub_cancel_left]
    exact hb
  fits := by decide

theorem lookup_correct_small :
    Archived smallMemory 0 [smallFile] smallTrailer ∧ CString smallMemory 240 [97] ∧
      cpioGetFile smallMemory 0 240 0 = .ok (some 112, 1) ∧ cpioLs smallMemory 0 = .ok [[97]] :=
  ⟨smallArchive, smallName, ((lookup_correct smallArchive).1 240 [97] 0 smallName).1 112 smallFile (by decide +kernel),
    (lookup_correct smallArchive).2⟩

end OsdiKernel
