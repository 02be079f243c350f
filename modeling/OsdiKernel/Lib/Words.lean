import OsdiKernel.Lib.Ram
import OsdiKernel.Sched.Task

/-!
# Words in memory

A word is eight bytes, the least significant first, so what is loaded and stored
again is those eight bytes. A loop that copies words upwards leaves the bytes it
started from as long as it does not write ahead of what it reads: it may copy
down over its source, or past the end of it, but not up into it.
-/

namespace OsdiKernel

variable {mem mem' : Nat → UInt8} {a d s n w x : Nat}

/-! ## One word -/

/-- The digits of a little-endian number are its bytes. -/
theorem foldr_byte (bytes : List UInt8) : ∀ i < bytes.length,
    UInt8.ofNat (bytes.foldr (fun b w => b.toNat + 256 * w) 0 / 256 ^ i) = bytes.getD i 0 := by
  induction bytes with
  | nil => exact fun i hi => absurd hi (Nat.not_lt_zero i)
  | cons b bytes ih =>
      intro i hi
      have hb : b.toNat < 256 := b.toNat_lt
      rw [List.foldr_cons]
      cases i with
      | zero =>
          refine UInt8.toNat_inj.mp ?_
          rw [Nat.pow_zero, Nat.div_one, UInt8.toNat_ofNat', List.getD_cons_zero]
          omega
      | succ i =>
          have hrest : (b.toNat + 256 * bytes.foldr (fun b w => b.toNat + 256 * w) 0) / 256
              = bytes.foldr (fun b w => b.toNat + 256 * w) 0 := by omega
          rw [Nat.pow_succ', ← Nat.div_div_eq_div_mul, hrest, List.getD_cons_succ, ih i (Nat.lt_of_succ_lt_succ hi)]

theorem load64_eq_foldr (mem : Nat → UInt8) (a : Nat) :
    load64 mem a = ((List.range 8).map fun i => mem (a + i)).foldr (fun b w => b.toNat + 256 * w) 0 := by
  rw [List.foldr_map]
  rfl

/-- The bytes of a word that was loaded. -/
theorem load64_byte (mem : Nat → UInt8) (a : Nat) {i : Nat} (hi : i < 8) :
    UInt8.ofNat (load64 mem a / 256 ^ i) = mem (a + i) := by
  rw [load64_eq_foldr, foldr_byte _ i (by simpa using hi), List.getD_eq_getElem _ _ (by simpa using hi),
    List.getElem_map, List.getElem_range]

/-- A word that is loaded and stored again is eight bytes moved. -/
theorem store64_load64 (mem mem' : Nat → UInt8) (d s x : Nat) :
    store64 mem d (load64 mem' s) x = if Within d 8 x then mem' (s + (x - d)) else mem x := by
  unfold store64
  by_cases hx : d ≤ x ∧ x < d + 8
  · rw [if_pos hx, if_pos (show Within d 8 x from hx)]
    exact load64_byte mem' s (by omega)
  · rw [if_neg hx, if_neg (show ¬ Within d 8 x from hx)]

theorem load64_congr (h : ∀ x, Within a 8 x → mem' x = mem x) : load64 mem' a = load64 mem a := by
  rw [load64_eq_foldr, load64_eq_foldr]
  congr 1
  refine List.map_congr_left (fun i hi => h _ ⟨Nat.le_add_right .., ?_⟩)
  have := List.mem_range.mp hi
  omega

/-- The same eight bytes at two places are the same word. -/
theorem load64_moved (h : ∀ i < 8, mem' (d + i) = mem (s + i)) : load64 mem' d = load64 mem s := by
  rw [load64_eq_foldr, load64_eq_foldr]
  congr 1
  exact List.map_congr_left (fun i hi => h i (List.mem_range.mp hi))

/-- So many digits of a number. -/
theorem foldr_digits (n : Nat) : ∀ w,
    (List.range n).foldr (fun i acc => w / 256 ^ i % 256 + 256 * acc) 0 = w % 256 ^ n := by
  induction n with
  | zero =>
      intro w
      rw [Nat.pow_zero, Nat.mod_one]
      rfl
  | succ n ih =>
      intro w
      have hdiv : ∀ i, w / 256 ^ (i + 1) = w / 256 / 256 ^ i := by
        intro i
        rw [Nat.pow_succ', Nat.div_div_eq_div_mul]
      rw [List.range_succ_eq_map, List.foldr_cons, List.foldr_map]
      simp only [hdiv]
      rw [ih (w / 256), Nat.pow_zero, Nat.div_one, Nat.pow_succ', Nat.mod_mul]

theorem store64_ne (h : ¬ Within a 8 x) : store64 mem a w x = mem x := if_neg h

/-- What was stored, -/
theorem load64_store64 (mem : Nat → UInt8) (a w : Nat) : load64 (store64 mem a w) a = w % 2 ^ 64 := by
  have hbyte : ∀ i ∈ List.range 8, ∀ acc : Nat,
      (store64 mem a w (a + i)).toNat + 256 * acc = w / 256 ^ i % 256 + 256 * acc := by
    intro i hi acc
    have hlt := List.mem_range.mp hi
    rw [store64, if_pos ⟨Nat.le_add_right .., by omega⟩, Nat.add_sub_cancel_left, UInt8.toNat_ofNat']
  have hpow : (256 : Nat) ^ 8 = 2 ^ 64 := by decide
  rw [load64, List.foldr_ext _ _ _ hbyte, foldr_digits, hpow]

/-- and what was not. -/
theorem load64_store64_ne (h : a + 8 ≤ d ∨ d + 8 ≤ a) : load64 (store64 mem d w) a = load64 mem a := by
  refine load64_congr (fun x hx => store64_ne fun hd => ?_)
  obtain ⟨h1, h2⟩ := hx
  obtain ⟨h3, h4⟩ := hd
  omega

/-- The same word is the same bytes. -/
theorem byte_of_load64 (h : load64 mem' a = load64 mem a) (hx : Within a 8 x) : mem' x = mem x := by
  obtain ⟨h1, h2⟩ := hx
  have hlt : x - a < 8 := by omega
  have hsum : a + (x - a) = x := by omega
  have hb := load64_byte mem' a hlt
  rw [h, load64_byte mem a hlt, hsum] at hb
  exact hb.symm

theorem load64_lt (mem : Nat → UInt8) (a : Nat) : load64 mem a < 2 ^ 64 := by
  have h := load64_store64 mem a (load64 mem a)
  have hsame : load64 (store64 mem a (load64 mem a)) a = load64 mem a := by
    refine load64_congr (fun x hx => ?_)
    obtain ⟨h1, h2⟩ := hx
    have hsum : a + (x - a) = x := by omega
    rw [store64_load64, if_pos ⟨h1, h2⟩, hsum]
  rw [hsame] at h
  rw [h]
  exact Nat.mod_lt _ (by decide)

/-! ## The copy loop -/

/-- The loop does not write ahead of what it reads. -/
def CopiesSafely (d s n : Nat) : Prop := d ≤ s ∨ s + 8 * n ≤ d

/-- **What the loop leaves**: the bytes from `s` on, moved to `d`, and the rest as they were. -/
theorem memcpyTurns_byte (n : Nat) : ∀ (mem : Nat → UInt8) (d s : Nat), CopiesSafely d s n → ∀ x,
    memcpyTurns mem d s n x = if Within d (8 * n) x then mem (s + (x - d)) else mem x := by
  induction n with
  | zero =>
      intro mem d s _ x
      have hno : ¬ Within d (8 * 0) x := fun h => by
        obtain ⟨h1, h2⟩ := h
        omega
      rw [if_neg hno]
      rfl
  | succ n ih =>
      intro mem d s hsafe x
      have hsafe' : CopiesSafely (d + 8) (s + 8) n := by
        unfold CopiesSafely at hsafe ⊢
        omega
      rw [memcpyTurns, ih _ _ _ hsafe']
      by_cases hfirst : Within d 8 x
      · -- the first word is not written again
        obtain ⟨h1, h2⟩ := hfirst
        have hrest : ¬ Within (d + 8) (8 * n) x := fun h => by
          obtain ⟨h3, h4⟩ := h
          omega
        rw [if_neg hrest, store64_load64, if_pos ⟨h1, h2⟩, if_pos ⟨h1, by omega⟩]
      · by_cases hrest : Within (d + 8) (8 * n) x
        · -- what is read later has not been written
          obtain ⟨h1, h2⟩ := hrest
          have hread : ¬ Within d 8 (s + 8 + (x - (d + 8))) := fun h => by
            obtain ⟨h3, h4⟩ := h
            unfold CopiesSafely at hsafe
            omega
          rw [if_pos ⟨h1, h2⟩, store64_load64, if_neg hread, if_pos ⟨by omega, by omega⟩]
          congr 1
          omega
        · have hall : ¬ Within d (8 * (n + 1)) x := fun h => by
            obtain ⟨h1, h2⟩ := h
            by_cases hx : x < d + 8
            · exact hfirst ⟨h1, hx⟩
            · exact hrest ⟨by omega, by omega⟩
          rw [if_neg hrest, store64_load64, if_neg hfirst, if_neg hall]

/-- Which byte after `s` arrives `off` bytes after `d`: from below, the copy meets itself again. -/
def copyOffset (d s off : Nat) : Nat := if s < d then off % (d - s) else off

/-- **What the loop leaves**, wherever it reads and writes, if not within a word of each other. -/
theorem memcpyTurns_wraps (n : Nat) : ∀ (mem : Nat → UInt8) (d s : Nat), s + 8 ≤ d → ∀ x,
    memcpyTurns mem d s n x = if Within d (8 * n) x then mem (s + (x - d) % (d - s)) else mem x := by
  induction n with
  | zero =>
      intro mem d s _ x
      have hno : ¬ Within d (8 * 0) x := fun h => by
        obtain ⟨h1, h2⟩ := h
        omega
      rw [if_neg hno]
      rfl
  | succ n ih =>
      intro mem d s hle x
      have hgap : d + 8 - (s + 8) = d - s := by omega
      rw [memcpyTurns, ih _ _ _ (by omega), hgap]
      by_cases hfirst : Within d 8 x
      · obtain ⟨h1, h2⟩ := hfirst
        have hrest : ¬ Within (d + 8) (8 * n) x := fun h => by
          obtain ⟨h3, h4⟩ := h
          omega
        rw [if_neg hrest, store64_load64, if_pos ⟨h1, h2⟩, if_pos ⟨h1, by omega⟩, Nat.mod_eq_of_lt (by omega)]
      · by_cases hrest : Within (d + 8) (8 * n) x
        · obtain ⟨h1, h2⟩ := hrest
          have hpos : 0 < d - s := by omega
          have hlt := Nat.mod_lt (x - (d + 8)) hpos
          have hsplit : x - d = x - (d + 8) + 8 := by omega
          have hout : Within d (8 * (n + 1)) x := ⟨by omega, by omega⟩
          rw [if_pos ⟨h1, h2⟩, store64_load64, if_pos hout, hsplit]
          by_cases hwrap : (x - (d + 8)) % (d - s) + 8 < d - s
          · -- what is read is below `d`
            have hmod : (x - (d + 8) + 8) % (d - s) = (x - (d + 8)) % (d - s) + 8 := by
              rw [Nat.add_mod, Nat.mod_eq_of_lt (show 8 < d - s by omega), Nat.mod_eq_of_lt hwrap]
            have hbelow : ¬ Within d 8 (s + 8 + (x - (d + 8)) % (d - s)) := fun h => by
              obtain ⟨h3, h4⟩ := h
              omega
            rw [if_neg hbelow, hmod]
            congr 1
            omega
          · -- it is the word just copied
            have hmod : (x - (d + 8) + 8) % (d - s) = (x - (d + 8)) % (d - s) + 8 - (d - s) := by
              rw [← Nat.mod_add_mod, Nat.mod_eq_sub_mod (by omega), Nat.mod_eq_of_lt (by omega)]
            rw [if_pos ⟨by omega, by omega⟩, hmod]
            congr 1
            omega
        · have hall : ¬ Within d (8 * (n + 1)) x := fun h => by
            obtain ⟨h1, h2⟩ := h
            by_cases hx : x < d + 8
            · exact hfirst ⟨h1, hx⟩
            · exact hrest ⟨by omega, by omega⟩
          rw [if_neg hrest, store64_load64, if_neg hfirst, if_neg hall]

theorem memcpyTurns_offset (h : s < d → s + 8 ≤ d) (x : Nat) :
    memcpyTurns mem d s n x = if Within d (8 * n) x then mem (s + copyOffset d s (x - d)) else mem x := by
  unfold copyOffset
  by_cases hlt : s < d
  · rw [if_pos hlt]
    exact memcpyTurns_wraps n mem d s (h hlt) x
  · rw [if_neg hlt]
    exact memcpyTurns_byte n mem d s (Or.inl (Nat.le_of_not_lt hlt)) x

/-- The words from `s` on are at `d` now. -/
theorem memcpyTurns_word (hsafe : CopiesSafely d s n) {i : Nat} (hi : i < n) :
    load64 (memcpyTurns mem d s n) (d + 8 * i) = load64 mem (s + 8 * i) := by
  refine load64_moved (fun j hj => ?_)
  rw [memcpyTurns_byte n mem d s hsafe, if_pos ⟨by omega, by omega⟩]
  congr 1
  omega

/-- A word that the loop does not write to is as it was. -/
theorem memcpyTurns_word_ne (hsafe : CopiesSafely d s n) (h : a + 8 ≤ d ∨ d + 8 * n ≤ a) :
    load64 (memcpyTurns mem d s n) a = load64 mem a := by
  refine load64_congr (fun x hx => ?_)
  obtain ⟨h1, h2⟩ := hx
  rw [memcpyTurns_byte n mem d s hsafe, if_neg]
  intro hw
  obtain ⟨h3, h4⟩ := hw
  omega

end OsdiKernel
