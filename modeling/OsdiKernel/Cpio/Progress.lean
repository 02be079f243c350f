import OsdiKernel.Cpio.Lookup

/-!
# The scan makes progress

Both scans go from header to header by `next`, which is computed from two fields
of eight characters that anybody may have written. Whatever the characters are,
eight of them are less than `2^32`; so `next` is behind the header, and not by so
much that it would wrap round, as long as the header is not within `2^33` bytes of
the end of the address space.

The scans are written here once more, with account of the headers they visit, and
with the name that is looked for in a memory of its own.
-/

namespace OsdiKernel

/-- The loop of `cpio_get_file`: the headers it visits, what it returns, and what is then in `*size`. -/
def getFileVisits (mem : Memory) (name : Nat → Except Fault UInt8) (header size : Nat) :
    Nat → Except Fault (List Nat × Option Nat × Nat)
  | 0 => .error .spin
  | turns + 1 => do
      let p ← cpioParseHeader mem header
      let size := p.filesize.getD size
      let _ ← printString mem p.filename
      if p.error ≠ 0 then .ok ([header], none, size)
      else
        match p.filename, p.data, p.next with
        | some currentFilename, some result, some next => do
            let c ← cpioStrncmp (charsAt mem currentFilename) name (2 ^ 64 - 1)
            if c = 0 then .ok ([header], some result, size)
            else do
              let (visited, r) ← getFileVisits mem name next size turns
              .ok (header :: visited, r)
        | _, _, _ => .error .uninitialised

/-- The loop of `cpio_ls`: the headers it visits, and the names it prints. -/
def lsVisits (mem : Memory) (header : Nat) : Nat → Except Fault (List Nat × List (List UInt8))
  | 0 => .error .spin
  | turns + 1 => do
      let p ← cpioParseHeader mem header
      if p.error ≠ 0 then .ok ([header], [])
      else do
        let name ← printString mem p.filename
        match p.next with
        | some next => do
            let (visited, names) ← lsVisits mem next turns
            .ok (header :: visited, name :: names)
        | none => .error .uninitialised

variable {mem : Memory} {a : Nat → Except Fault UInt8} {i n r turns header size start : Nat} {p : ParsedHeader}
  {name : Nat → Except Fault UInt8}

/-- They are the scans. -/
theorem getFileVisits_snd (mem : Memory) (q : Nat) (turns : Nat) : ∀ header size,
    (getFileVisits mem (charsAt mem q) header size turns).map Prod.snd = cpioGetFileTurns mem q header size turns := by
  induction turns with
  | zero => exact fun _ _ => rfl
  | succ turns ih =>
      intro header size
      rw [getFileVisits, cpioGetFileTurns]
      rcases cpioParseHeader mem header with fault | p
      · rfl
      · simp only [ok_bind]
        rcases printString mem p.filename with fault | name
        · rfl
        · simp only [ok_bind]
          by_cases herr : p.error ≠ 0
          · rw [if_pos herr, if_pos herr]
            rfl
          · rw [if_neg herr, if_neg herr]
            rcases p.filename with _ | f
            · rfl
            · rcases p.data with _ | d
              · rfl
              · rcases p.next with _ | next
                · rfl
                · rcases hc : cpioStrncmp (charsAt mem f) (charsAt mem q) (2 ^ 64 - 1) with fault | c
                  · simp only [hc]
                    rfl
                  · simp only [hc, ok_bind]
                    by_cases h0 : c = 0
                    · rw [if_pos h0, if_pos h0]
                      rfl
                    · rw [if_neg h0, if_neg h0, ← ih]
                      rcases getFileVisits mem (charsAt mem q) next (p.filesize.getD size) turns with fault | r <;> rfl

theorem lsVisits_snd (mem : Memory) (turns : Nat) : ∀ header,
    (lsVisits mem header turns).map Prod.snd = cpioLsTurns mem header turns := by
  induction turns with
  | zero => exact fun _ => rfl
  | succ turns ih =>
      intro header
      rw [lsVisits, cpioLsTurns]
      rcases cpioParseHeader mem header with fault | p
      · rfl
      · simp only [ok_bind]
        by_cases herr : p.error ≠ 0
        · rw [if_pos herr, if_pos herr]
          rfl
        · rw [if_neg herr, if_neg herr]
          rcases printString mem p.filename with fault | name
          · rfl
          · rcases p.next with _ | next
            · simp only [ok_bind]
              rfl
            · simp only [ok_bind]
              rw [← ih]
              rcases lsVisits mem next turns with fault | r <;> rfl

/-! ## One header -/

/-- **Eight characters** are a number below `2^32`, whatever they are. -/
theorem parseHexTurns_lt (turns : Nat) : ∀ r i, (r + 1) * 16 ^ turns ≤ 2 ^ 64 →
    parseHexTurns a r i turns = .ok n → n < (r + 1) * 16 ^ turns := by
  induction turns with
  | zero =>
      intro r i _ h
      obtain rfl := Except.ok.inj h
      simp
  | succ turns ih =>
      intro r i hfit h
      have hone : 1 ≤ 16 ^ turns := Nat.one_le_pow _ _ (by decide)
      have hpow : (r + 1) * 16 * 16 ^ turns = (r + 1) * 16 ^ (turns + 1) := by rw [Nat.pow_succ', Nat.mul_assoc]
      have hsmall : (r + 1) * 16 ≤ (r + 1) * 16 ^ (turns + 1) := hpow ▸ Nat.le_mul_of_pos_right _ hone
      rw [parseHexTurns, Nat.mod_eq_of_lt (by omega : r * 16 < 2 ^ 64)] at h
      obtain ⟨c, _, h⟩ := bind_eq_ok h
      cases hd : hexDigit c with
      | none =>
          rw [hd] at h
          have hr := Except.ok.inj h
          omega
      | some d =>
          rw [hd] at h
          have hlt := hexDigit_lt hd
          simp only [Nat.mod_eq_of_lt (by omega : r * 16 + d < 2 ^ 64)] at h
          have hle : (r * 16 + d + 1) * 16 ^ turns ≤ (r + 1) * 16 * 16 ^ turns := Nat.mul_le_mul_right _ (by omega)
          have hn := ih (r * 16 + d) (i + 1) (by omega) h
          omega

theorem parseHexStr_lt (h : parseHexStr a 8 = .ok n) : n < 2 ^ 32 := by
  have hn := parseHexTurns_lt 8 0 0 (by decide) h
  omega

/-- What `cpio_parse_header` has done when it returns 0: it has read the first characters of the header and of the name, and two fields. -/
theorem cpioParseHeader_zero (h : cpioParseHeader mem header = .ok p) (h0 : p.error = 0) :
    ∃ filesize namesize : Nat, filesize < 2 ^ 32 ∧ namesize < 2 ^ 32 ∧ (∃ c, charsAt mem header 0 = .ok c) ∧
      (∃ c, charsAt mem ((header + cpioHeaderSize) % 2 ^ 64) 0 = .ok c) ∧
      p.filename = some ((header + cpioHeaderSize) % 2 ^ 64) ∧ p.filesize = some filesize ∧
      p.data = some (alignUp ((header + cpioHeaderSize + namesize) % 2 ^ 64) cpioAlignment) ∧
      p.next = some (alignUp
        ((alignUp ((header + cpioHeaderSize + namesize) % 2 ^ 64) cpioAlignment + filesize) % 2 ^ 64) cpioAlignment) := by
  unfold cpioParseHeader at h
  obtain ⟨magic, hmagic, h⟩ := bind_eq_ok h
  by_cases hm : magic ≠ 0
  · rw [if_pos hm] at h
    rw [← Except.ok.inj h] at h0
    exact absurd h0 (show (-1 : Int) ≠ 0 by decide)
  · rw [if_neg hm] at h
    obtain ⟨filesize, hfile, h⟩ := bind_eq_ok h
    obtain ⟨footer, hfooter, h⟩ := bind_eq_ok h
    by_cases hf : footer = 0
    · rw [if_pos hf] at h
      rw [← Except.ok.inj h] at h0
      exact absurd h0 (show (1 : Int) ≠ 0 by decide)
    · rw [if_neg hf] at h
      obtain ⟨namesize, hname, h⟩ := bind_eq_ok h
      obtain ⟨b, hb, _⟩ := bind_eq_ok hmagic
      obtain ⟨c, hc, _⟩ := bind_eq_ok hfooter
      rw [← Except.ok.inj h]
      exact ⟨filesize, namesize, parseHexStr_lt hfile, parseHexStr_lt hname, ⟨b, hb⟩, ⟨c, hc⟩, rfl, rfl, rfl, rfl⟩

/-- **The next header** is behind this one, and its data between them, where nothing wraps. -/
theorem cpioParseHeader_advances (h : cpioParseHeader mem header = .ok p) (h0 : p.error = 0)
    (hfar : header + cpioHeaderSize + 2 ^ 33 + 4 < 2 ^ 64) :
    ∃ data next, p.data = some data ∧ p.next = some next ∧ header + cpioHeaderSize ≤ data ∧ data ≤ next ∧
      next ≤ header + cpioHeaderSize + 2 ^ 33 + 4 := by
  obtain ⟨filesize, namesize, hfile, hname, _, _, _, _, hdata, hnext⟩ := cpioParseHeader_zero h h0
  have hd : alignUp ((header + cpioHeaderSize + namesize) % 2 ^ 64) cpioAlignment =
      header + cpioHeaderSize + namesize + pad4 (header + cpioHeaderSize + namesize) := by
    rw [Nat.mod_eq_of_lt (by omega), alignUp_four (by omega)]
  have hpad : ∀ m, pad4 m < 4 := fun m => by
    unfold pad4
    omega
  have hd4 := hpad (header + cpioHeaderSize + namesize)
  rw [hd] at hdata hnext
  generalize hdeq : header + cpioHeaderSize + namesize + pad4 (header + cpioHeaderSize + namesize) = data at *
  have hn4 := hpad (data + filesize)
  rw [Nat.mod_eq_of_lt (by omega), alignUp_four (by omega)] at hnext
  exact ⟨data, _, hdata, hnext, by omega, by omega, by omega⟩

/-! ## No loop but the scan's is endless -/

/-- Whatever comes of it, not that a loop did not end. -/
def NoSpin {α : Type} (x : Except Fault α) : Prop := x ≠ .error .spin

theorem NoSpin.ok {α : Type} (x : α) : NoSpin (.ok x) := nofun

theorem NoSpin.bind {α β : Type} {x : Except Fault α} {f : α → Except Fault β} (hx : NoSpin x)
    (hf : ∀ v, x = .ok v → NoSpin (f v)) : NoSpin (x >>= f) := by
  cases x with
  | error fault => exact fun h => hx (congrArg Except.error (Except.error.inj h))
  | ok v => exact hf v rfl

theorem loadByte_noSpin (mem : Memory) (addr : Nat) : NoSpin (loadByte mem addr) := by
  unfold loadByte
  cases mem (addr % 2 ^ 64) with
  | none => exact nofun
  | some b => exact NoSpin.ok b

theorem charsAt_noSpin (mem : Memory) (s i : Nat) : NoSpin (charsAt mem s i) := loadByte_noSpin mem (s + i)

theorem literal_noSpin (s : List UInt8) (i : Nat) : NoSpin (literal s i) := NoSpin.ok _

theorem cpioStrncmp_noSpin {a b : Nat → Except Fault UInt8} (ha : ∀ i, NoSpin (a i)) (hb : ∀ i, NoSpin (b i)) (n : Nat) :
    NoSpin (cpioStrncmp a b n) := by
  have hturns : ∀ n i, NoSpin (cpioStrncmpTurns a b i n) := by
    intro n
    induction n with
    | zero => exact fun _ => NoSpin.ok 0
    | succ n ih =>
        intro i
        refine (ha i).bind (fun x _ => (hb i).bind (fun y _ => ?_))
        split
        · exact NoSpin.ok _
        · split
          · exact NoSpin.ok 0
          · exact ih (i + 1)
  exact hturns n 0

theorem parseHexStr_noSpin (ha : ∀ i, NoSpin (a i)) (n : Nat) : NoSpin (parseHexStr a n) := by
  have hturns : ∀ n r i, NoSpin (parseHexTurns a r i n) := by
    intro n
    induction n with
    | zero => exact fun r _ => NoSpin.ok r
    | succ n ih =>
        intro r i
        refine (ha i).bind (fun c _ => ?_)
        cases hexDigit c with
        | none => exact NoSpin.ok _
        | some d => exact ih _ (i + 1)
  exact hturns n 0 0

theorem cpioParseHeader_noSpin (mem : Memory) (header : Nat) : NoSpin (cpioParseHeader mem header) := by
  have hcmp := fun s word n => cpioStrncmp_noSpin (charsAt_noSpin mem s) (literal_noSpin word) n
  have hhex := fun s n => parseHexStr_noSpin (charsAt_noSpin mem s) n
  refine (hcmp header cpioHeaderMagic 6).bind (fun magic _ => ?_)
  split
  · exact NoSpin.ok _
  · refine (hhex _ 8).bind (fun filesize _ => (hcmp _ cpioFooterMagic 11).bind (fun footer _ => ?_))
    split
    · exact NoSpin.ok _
    · exact (hhex _ 8).bind (fun namesize _ => NoSpin.ok _)

/-- A string is printed to its NUL, or to an address that cannot be read, if there is one. -/
theorem printString_noSpin {hole : Nat} (hlt : hole < 2 ^ 64) (hnone : mem hole = none) (s : Option Nat) :
    NoSpin (printString mem s) := by
  cases s with
  | none => exact fun h => absurd (Except.error.inj h) (by simp)
  | some s =>
      have hread : ∀ n s, readStringTurns mem s n = .error .spin → ∀ i < n, mem ((s + i) % 2 ^ 64) ≠ none := by
        intro n
        induction n with
        | zero => exact fun _ _ i hi => absurd hi (Nat.not_lt_zero i)
        | succ n ih =>
            intro s h i hi
            have hload : ∃ c, mem (s % 2 ^ 64) = some c := by
              rcases hm : mem (s % 2 ^ 64) with _ | c
              · rw [readStringTurns, loadByte, hm] at h
                exact absurd (Except.error.inj h) (by decide)
              · exact ⟨c, rfl⟩
            obtain ⟨c, hc⟩ := hload
            cases i with
            | zero => rw [Nat.add_zero, hc]; exact Option.some_ne_none c
            | succ i =>
                rw [readStringTurns, loadByte, hc, ok_bind] at h
                by_cases h0 : c = 0
                · rw [if_pos h0] at h
                  exact absurd h (by simp)
                · rw [if_neg h0] at h
                  have hrest : readStringTurns mem (s + 1) n = .error .spin := by
                    rcases hr : readStringTurns mem (s + 1) n with fault | cs
                    · rw [hr] at h
                      exact congrArg Except.error (Except.error.inj h)
                    · rw [hr] at h
                      exact absurd h (by simp)
                  have := ih (s + 1) hrest i (by omega)
                  rwa [show s + 1 + i = s + (i + 1) by omega] at this
      intro h
      have hhole := hread (2 ^ 64) s h ((hole + 2 ^ 64 - s % 2 ^ 64) % 2 ^ 64) (Nat.mod_lt _ (by decide))
      rw [show (s + (hole + 2 ^ 64 - s % 2 ^ 64) % 2 ^ 64) % 2 ^ 64 = hole by omega] at hhole
      exact hhole hnone

/-! ## The scans -/

/-- Nothing can be read but the `size` bytes from `start` on. -/
def OnlyIn (mem : Memory) (start size : Nat) : Prop := ∀ a, mem a ≠ none → start ≤ a ∧ a < start + size

/-- The bytes end at least so far from the end of the address space that no header among them can lead round it. -/
def ClearOfTop (start size : Nat) : Prop := start + size + 2 ^ 33 + 4 ≤ 2 ^ 64

/-- **One turn** goes at least a header's length on, and has read that far. -/
theorem OnlyIn.advance (hm : OnlyIn mem start size) (htop : ClearOfTop start size) (hlt : header < 2 ^ 64)
    (h : cpioParseHeader mem header = .ok p) (h0 : p.error = 0) :
    ∃ f data next, p.filename = some f ∧ p.data = some data ∧ p.next = some next ∧ next < 2 ^ 64 ∧
      header + cpioHeaderSize < start + size ∧ header + cpioHeaderSize ≤ next := by
  obtain ⟨_, _, _, _, ⟨b, hb⟩, ⟨c, hc⟩, hf, _, _, _⟩ := cpioParseHeader_zero h h0
  have hreadable : ∀ {s b}, s < 2 ^ 64 → charsAt mem s 0 = .ok b → s < start + size := by
    intro s b hs hb
    refine (hm s fun hnone => ?_).2
    rw [charsAt, Nat.add_zero, loadByte, Nat.mod_eq_of_lt hs, hnone] at hb
    exact absurd hb (by simp)
  unfold ClearOfTop at htop
  have hhead := hreadable hlt hb
  have hmod : (header + cpioHeaderSize) % 2 ^ 64 = header + cpioHeaderSize :=
    Nat.mod_eq_of_lt (by unfold cpioHeaderSize; omega)
  rw [hmod] at hc hf
  have hfilename := hreadable (by unfold cpioHeaderSize; omega) hc
  obtain ⟨data, next, hdata, hnext, h1, h2, h3⟩ := cpioParseHeader_advances h h0 (by omega)
  exact ⟨_, data, next, hf, hdata, hnext, by omega, hfilename, h1.trans h2⟩

theorem ClearOfTop.hole (htop : ClearOfTop start size) (hm : OnlyIn mem start size) :
    ∃ hole < 2 ^ 64, mem hole = none := by
  unfold ClearOfTop at htop
  refine ⟨start + size, by omega, ?_⟩
  by_contra hsome
  exact Nat.lt_irrefl _ (hm _ hsome).2

/-- **`cpio_get_file`** ends before it has taken one turn more than headers fit into what is left. -/
theorem getFileVisits_noSpin (hm : OnlyIn mem start size) (htop : ClearOfTop start size) (hname : ∀ i, NoSpin (name i))
    (turns : Nat) : ∀ header sz, header < 2 ^ 64 → (start + size - header) / cpioHeaderSize + 1 ≤ turns →
      NoSpin (getFileVisits mem name header sz turns) := by
  obtain ⟨hole, hhole, hnone⟩ := htop.hole hm
  unfold cpioHeaderSize
  induction turns with
  | zero => exact fun _ _ _ h => absurd h (Nat.not_succ_le_zero _)
  | succ turns ih =>
      intro header sz hlt hturns
      refine (cpioParseHeader_noSpin mem header).bind (fun p hp => ?_)
      refine (printString_noSpin hhole hnone p.filename).bind (fun _ _ => ?_)
      by_cases herr : p.error ≠ 0
      · rw [if_pos herr]
        exact NoSpin.ok _
      · obtain ⟨f, data, next, hf, hdata, hnext, hnextlt, hin, hge⟩ := hm.advance htop hlt hp (not_not.mp herr)
        rw [if_neg herr, hf, hdata, hnext]
        refine (cpioStrncmp_noSpin (charsAt_noSpin mem f) hname _).bind (fun c _ => ?_)
        split
        · exact NoSpin.ok _
        · unfold cpioHeaderSize at hin hge
          exact (ih next _ hnextlt (by omega)).bind (fun _ _ => NoSpin.ok _)

/-- **`cpio_ls`** does. -/
theorem lsVisits_noSpin (hm : OnlyIn mem start size) (htop : ClearOfTop start size) (turns : Nat) :
    ∀ header, header < 2 ^ 64 → (start + size - header) / cpioHeaderSize + 1 ≤ turns →
      NoSpin (lsVisits mem header turns) := by
  obtain ⟨hole, hhole, hnone⟩ := htop.hole hm
  unfold cpioHeaderSize
  induction turns with
  | zero => exact fun _ _ h => absurd h (Nat.not_succ_le_zero _)
  | succ turns ih =>
      intro header hlt hturns
      refine (cpioParseHeader_noSpin mem header).bind (fun p hp => ?_)
      by_cases herr : p.error ≠ 0
      · rw [if_pos herr]
        exact NoSpin.ok _
      · obtain ⟨_, _, next, _, _, hnext, hnextlt, hin, hge⟩ := hm.advance htop hlt hp (not_not.mp herr)
        rw [if_neg herr, hnext]
        refine (printString_noSpin hhole hnone p.filename).bind (fun _ _ => ?_)
        unfold cpioHeaderSize at hin hge
        exact (ih next hnextlt (by omega)).bind (fun _ _ => NoSpin.ok _)

/-- A loop is over by turn `n`: it has ended, and any more turns make no difference. -/
def OverBy {α : Type} (loop : Nat → Except Fault α) (n : Nat) : Prop :=
  NoSpin (loop n) ∧ ∀ m, n ≤ m → loop m = loop n

/-- Turns that were not needed. -/
theorem getFileVisits_more (mem : Memory) (name : Nat → Except Fault UInt8) (n : Nat) : ∀ header sz,
    NoSpin (getFileVisits mem name header sz n) → ∀ m, n ≤ m →
      getFileVisits mem name header sz m = getFileVisits mem name header sz n := by
  induction n with
  | zero => exact fun _ _ h => absurd rfl h
  | succ n ih =>
      intro header sz h m hm
      obtain ⟨m, rfl⟩ : ∃ k, m = k + 1 := ⟨m - 1, by omega⟩
      rw [getFileVisits] at h ⊢
      rw [getFileVisits]
      rcases hp : cpioParseHeader mem header with fault | p
      · rfl
      · rw [hp] at h
        simp only [ok_bind] at h ⊢
        rcases hs : printString mem p.filename with fault | s
        · rfl
        · rw [hs] at h
          simp only [ok_bind] at h ⊢
          by_cases herr : p.error ≠ 0
          · rw [if_pos herr, if_pos herr]
          · rw [if_neg herr] at h ⊢
            rw [if_neg herr]
            rcases hf : p.filename with _ | f
            · rfl
            · rcases hd : p.data with _ | d
              · rfl
              · rcases hn : p.next with _ | next
                · rfl
                · rw [hf, hd, hn] at h
                  rcases hc : cpioStrncmp (charsAt mem f) name (2 ^ 64 - 1) with fault | c
                  · simp only [hc]
                    rfl
                  · simp only [hc, ok_bind] at h ⊢
                    by_cases h0 : c = 0
                    · rw [if_pos h0, if_pos h0]
                    · rw [if_neg h0] at h
                      rw [if_neg h0, if_neg h0, ih next _ (fun hspin => h (by rw [hspin]; rfl)) m (by omega)]

theorem lsVisits_more (mem : Memory) (n : Nat) : ∀ header, NoSpin (lsVisits mem header n) → ∀ m, n ≤ m →
    lsVisits mem header m = lsVisits mem header n := by
  induction n with
  | zero => exact fun _ h => absurd rfl h
  | succ n ih =>
      intro header h m hm
      obtain ⟨m, rfl⟩ : ∃ k, m = k + 1 := ⟨m - 1, by omega⟩
      rw [lsVisits] at h ⊢
      rw [lsVisits]
      rcases hp : cpioParseHeader mem header with fault | p
      · rfl
      · rw [hp] at h
        simp only [ok_bind] at h ⊢
        by_cases herr : p.error ≠ 0
        · rw [if_pos herr, if_pos herr]
        · rw [if_neg herr] at h ⊢
          rw [if_neg herr]
          rcases hs : printString mem p.filename with fault | s
          · rfl
          · rw [hs] at h
            simp only [ok_bind] at h ⊢
            rcases hn : p.next with _ | next
            · rfl
            · rw [hn] at h
              simp only at h ⊢
              rw [ih next (fun hspin => h (by rw [hspin]; rfl)) m (by omega)]

/--
**The archive scan makes progress.** From a header below `2^48`, whatever is in
memory, the data begins behind the header and the next header behind the data.
And where only `size` bytes from `start` on can be read, well below the end of the
address space, both scans are over by turn `size / 110 + 1`.
-/
theorem scan_progress :
    (∀ (mem : Memory) (header : Nat) (p : ParsedHeader), header < 2 ^ 48 → cpioParseHeader mem header = .ok p →
      p.error = 0 → ∃ data next, p.data = some data ∧ p.next = some next ∧
        header + cpioHeaderSize ≤ data ∧ data ≤ next) ∧
    ∀ (mem : Memory) (start size : Nat), start < 2 ^ 48 → OnlyIn mem start size → ClearOfTop start size →
      (∀ (names : Memory) (q sz : Nat),
        OverBy (getFileVisits mem (charsAt names q) start sz) (size / cpioHeaderSize + 1)) ∧
      OverBy (lsVisits mem start) (size / cpioHeaderSize + 1) := by
  refine ⟨fun mem header p hlt h h0 => ?_, fun mem start size hlt hm htop => ?_⟩
  · obtain ⟨data, next, hdata, hnext, h1, h2, _⟩ := cpioParseHeader_advances h h0 (by unfold cpioHeaderSize; omega)
    exact ⟨data, next, hdata, hnext, h1, h2⟩
  · have hturns : (start + size - start) / cpioHeaderSize + 1 ≤ size / cpioHeaderSize + 1 := by
      rw [Nat.add_sub_cancel_left]
    refine ⟨fun names q sz => ?_, ?_⟩
    · have hend := getFileVisits_noSpin hm htop (charsAt_noSpin names q) _ start sz (by omega) hturns
      exact ⟨hend, getFileVisits_more mem _ _ start sz hend⟩
    · have hend := lsVisits_noSpin hm htop _ start (by omega) hturns
      exact ⟨hend, lsVisits_more mem _ start hend⟩

/-- The small archive: its first header leads on, it is scanned in three turns, and no more are taken. -/
theorem scan_progress_small :
    (∃ p data next, cpioParseHeader smallMemory 0 = .ok p ∧ p.error = 0 ∧ p.data = some data ∧ p.next = some next ∧
      cpioHeaderSize ≤ data ∧ data ≤ next) ∧
    OverBy (lsVisits smallMemory 0) 3 := by
  constructor
  · have hparse := smallArchive.first.1.parse
    obtain ⟨data, next, hdata, hnext, hpast, hle⟩ := scan_progress.1 smallMemory 0 _ (by decide) hparse rfl
    exact ⟨_, data, next, hparse, rfl, hdata, hnext, by omega, hle⟩
  · have hlen : (archiveBytes [smallFile] smallTrailer ++ [97, 0]).length = 242 := by decide +kernel
    have hm : OnlyIn smallMemory 0 242 := by
      intro a ha
      refine ⟨Nat.zero_le a, ?_⟩
      by_contra hge
      exact ha (List.getElem?_eq_none (by omega))
    exact (scan_progress.2 smallMemory 0 242 (by decide) hm (by unfold ClearOfTop; decide)).2

/-! ## Round the address space -/

/-- A header of a file `a` that fills what is left of `2^32` bytes. -/
def endlessHeader : CpioHeader :=
  plainHeader [70, 70, 70, 70, 70, 70, 57, 48] [48, 48, 48, 48, 48, 48, 48, 50]

/-- The same file over and over, wherever there are addresses. -/
def endlessMemory : Memory := fun a =>
  if a < 2 ^ 64 then some ((endlessHeader.bytes ++ [97, 0]).getD (a % 2 ^ 32) 0) else none

theorem endless_describes : endlessHeader.Describes (4294967184) 2 :=
  ⟨rfl, ⟨rfl, by decide⟩, rfl, ⟨rfl, by decide⟩, rfl⟩

theorem endless_bytes {q : Nat} (hlt : q < 2 ^ 64) (hq : q % 2 ^ 32 = 0) :
    BytesAt endlessMemory q (endlessHeader.bytes ++ ([97] ++ [0])) := by
  have hlen : (endlessHeader.bytes ++ ([97] ++ [0])).length = 112 := by decide
  intro i b hb
  have hi := (List.getElem?_eq_some_iff.mp hb).1
  have hmod : (q + i) % 2 ^ 32 = i := by omega
  rw [endlessMemory, if_pos (by omega), hmod, List.getD_eq_getElem?_getD]
  exact congrArg (fun o : Option UInt8 => some (o.getD 0)) hb

theorem endless_data {q : Nat} (hlt : q < 2 ^ 64) (hq : q % 2 ^ 32 = 0) :
    alignUp ((q + cpioHeaderSize + 2) % 2 ^ 64) cpioAlignment = q + 112 := by
  unfold cpioHeaderSize
  rw [Nat.mod_eq_of_lt (by omega), alignUp_four (by omega), pad4]
  omega

theorem alignUp_aligned {n : Nat} (hlt : n < 2 ^ 64) (hn : n % 2 ^ 32 = 0) : alignUp n cpioAlignment = n := by
  rw [alignUp_four (by omega), pad4]
  omega

theorem endless_next {q f : Nat} (hq : q % 2 ^ 32 = 0) (hf : 112 + f = 2 ^ 32) :
    alignUp ((q + 112 + f) % 2 ^ 64) cpioAlignment = (q + 2 ^ 32) % 2 ^ 64 := by
  rw [Nat.add_assoc, hf]
  exact alignUp_aligned (Nat.mod_lt _ (by decide)) (by omega)

/-- Each of them leads to the next, and the last to the first. -/
theorem endless_parse {q : Nat} (hlt : q < 2 ^ 64) (hq : q % 2 ^ 32 = 0) :
    CString endlessMemory (q + cpioHeaderSize) [97] ∧ cpioParseHeader endlessMemory q =
      .ok ⟨0, some (q + cpioHeaderSize), some (4294967184), some (q + 112), some ((q + 2 ^ 32) % 2 ^ 64)⟩ := by
  obtain ⟨ha, hc⟩ := named_at endless_describes (by simp) (endless_bytes hlt hq)
    (by unfold cpioHeaderSize; rw [List.length_singleton]; omega)
  refine ⟨hc, ?_⟩
  rw [cpioParseHeader_named endless_describes ha hc, if_neg (by decide), endless_data hlt hq, endless_next hq (by decide)]

theorem endless_spins (n : Nat) : ∀ q, q < 2 ^ 64 → q % 2 ^ 32 = 0 → lsVisits endlessMemory q n = .error .spin := by
  induction n with
  | zero => exact fun _ _ _ => rfl
  | succ n ih =>
      intro q hlt hq
      obtain ⟨hc, hparse⟩ := endless_parse hlt hq
      have hprint : printString endlessMemory (some (q + cpioHeaderSize)) = .ok [97] :=
        readStringTurns_spec hc (by decide)
      rw [lsVisits, hparse]
      simp only [ok_bind, hprint, ne_eq, not_true_eq_false, if_false, ih ((q + 2 ^ 32) % 2 ^ 64) (by omega) (by omega)]
      rfl

/-- An image that fills the address space leads round it. -/
theorem not_scan_progress :
    ¬ ∀ (mem : Memory) (start size : Nat), start < 2 ^ 48 → OnlyIn mem start size →
      (∀ (names : Memory) (q sz : Nat),
        OverBy (getFileVisits mem (charsAt names q) start sz) (size / cpioHeaderSize + 1)) ∧
      OverBy (lsVisits mem start) (size / cpioHeaderSize + 1) := by
  intro h
  have hm : OnlyIn endlessMemory 0 (2 ^ 64) := by
    intro a ha
    refine ⟨Nat.zero_le a, ?_⟩
    by_contra hge
    exact ha (if_neg (by omega))
  exact (h endlessMemory 0 (2 ^ 64) (by decide) hm).2.1 (endless_spins _ 0 (by decide) (by decide))

end OsdiKernel
