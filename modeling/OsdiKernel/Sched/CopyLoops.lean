import OsdiKernel.Sched.TaskMemory

/-!
# `mm.S`

`memcpy` and `memzero`, instruction by instruction. Each turn moves or clears
eight bytes and only then counts them down, and goes round again while more than
nothing is left, taking the count for a signed number.

So a length that is a positive multiple of eight is what is copied, and no other
is. Where the registers do not wrap, the loop leaves what `memcpy` does over a
memory of natural addresses.
-/

namespace OsdiKernel

/-- Memory as a core sees it: the bytes, and the addresses it has loaded from. -/
structure Bus where
  mem : BitVec 64 → UInt8
  loaded : List (BitVec 64)

/-- The addresses of the eight bytes at `a`. -/
def wordAddrs (a : BitVec 64) : List (BitVec 64) := (List.range 8).map fun i => a + BitVec.ofNat 64 i

/-- `ldr x, [a]`: the register's bytes, the least significant first. -/
def Bus.ldr (b : Bus) (a : BitVec 64) : List UInt8 × Bus :=
  ((wordAddrs a).map b.mem, { b with loaded := wordAddrs a ++ b.loaded })

/-- `str x, [a]` -/
def Bus.str (b : Bus) (a : BitVec 64) (x : List UInt8) : Bus :=
  { b with mem := fun y => if (y - a).toNat < 8 then x.getD (y - a).toNat 0 else b.mem y }

/-- `xzr` -/
def xzr : List UInt8 := List.replicate 8 0

/-- Three of the flags. -/
structure Flags where
  n : Bool
  z : Bool
  v : Bool

/-- `subs` -/
def subs (x y : BitVec 64) : BitVec 64 × Flags :=
  (x - y, ⟨(x - y).msb, x - y = 0, (x - y).toInt ≠ x.toInt - y.toInt⟩)

/-- The condition of `b.gt`. -/
def Flags.gt (f : Flags) : Bool := !f.z && f.n == f.v

/-- A loop that ends in `subs count, count, #8` and `b.gt`, for at most so many turns. -/
def wordLoop {σ : Type} (turn : σ → σ) (s : σ) (count : BitVec 64) : Nat → Except Fault σ
  | 0 => .error .spin
  | turns + 1 =>
      let s := turn s
      let (count, flags) := subs count 8
      if flags.gt then wordLoop turn s count turns else .ok s

/-- What `memcpy` works on. -/
structure CopyRegs where
  bus : Bus
  x0 : BitVec 64
  x1 : BitVec 64

/-- `ldr x3, [x1], #8` and `str x3, [x0], #8` -/
def memcpyTurn (s : CopyRegs) : CopyRegs :=
  let (x3, bus) := s.bus.ldr s.x1
  ⟨bus.str s.x0 x3, s.x0 + 8, s.x1 + 8⟩

/-- What `memzero` works on. -/
structure ZeroRegs where
  bus : Bus
  x0 : BitVec 64

/-- `str xzr, [x0], #8` -/
def memzeroTurn (s : ZeroRegs) : ZeroRegs := ⟨s.bus.str s.x0 xzr, s.x0 + 8⟩

/-- `memcpy(dst, src, n)` -/
def asmMemcpy (b : Bus) (dst src n : BitVec 64) : Except Fault Bus :=
  (wordLoop memcpyTurn ⟨b, dst, src⟩ n (2 ^ 64)).map CopyRegs.bus

/-- `memzero(src, n)` -/
def asmMemzero (b : Bus) (src n : BitVec 64) : Except Fault Bus :=
  (wordLoop memzeroTurn ⟨b, src⟩ n (2 ^ 64)).map ZeroRegs.bus

variable {b b' : Bus} {dst src n a x y : BitVec 64} {k turns : Nat}

/-! ## How often the loops go round -/

theorem subs_gt (x : BitVec 64) : (subs x 8).2.gt = decide (8 < x.toInt) := by
  have hlow := BitVec.le_toInt x
  have hhigh := BitVec.toInt_lt (x := x)
  have hsub : (x - 8).toInt = (x.toInt - 8).bmod (2 ^ 64) := BitVec.toInt_sub ..
  have hz : x - 8 = 0 ↔ (x - 8).toInt = 0 := by
    rw [← BitVec.toInt_inj]
    rfl
  rw [Bool.eq_iff_iff]
  simp only [subs, Flags.gt, BitVec.msb_eq_toInt, hz, hsub, show (8 : BitVec 64).toInt = 8 from rfl, Bool.and_eq_true,
    Bool.not_eq_true', decide_eq_false_iff_not, beq_iff_eq, decide_eq_true_eq, decide_eq_decide]
  rw [Int.bmod_def]
  omega

/-- The turns for `n` bytes: at least one, and only one if the count is negative. -/
def rounds (n : BitVec 64) : Nat := max 1 ((n.toInt.toNat + 7) / 8)

theorem rounds_of_gt (h : 8 < n.toInt) : rounds n = rounds (n - 8) + 1 := by
  have hhigh := BitVec.toInt_lt (x := n)
  have hsub : (n - 8).toInt = (n.toInt - 8).bmod (2 ^ 64) := BitVec.toInt_sub ..
  unfold rounds
  rw [hsub, Int.bmod_def]
  omega

theorem rounds_of_not_gt (h : ¬ 8 < n.toInt) : rounds n = 1 := by
  unfold rounds
  omega

theorem rounds_lt (n : BitVec 64) : rounds n < 2 ^ 64 := by
  have hhigh := BitVec.toInt_lt (x := n)
  unfold rounds
  omega

/-- **The loop ends**, after that many turns. -/
theorem wordLoop_eq {σ : Type} (turn : σ → σ) (turns : Nat) : ∀ (s : σ) (n : BitVec 64), rounds n ≤ turns →
    wordLoop turn s n turns = .ok (turn^[rounds n] s) := by
  induction turns with
  | zero =>
      intro s n h
      unfold rounds at h
      omega
  | succ turns ih =>
      intro s n h
      rw [wordLoop]
      show (if (subs n 8).2.gt then wordLoop turn (turn s) (n - 8) turns else .ok (turn s)) = _
      rw [subs_gt]
      by_cases hgt : 8 < n.toInt
      · rw [rounds_of_gt hgt] at h ⊢
        rw [if_pos (decide_eq_true hgt), ih _ _ (Nat.le_of_succ_le_succ h), Function.iterate_succ_apply]
      · rw [if_neg (by simpa using hgt), rounds_of_not_gt hgt]
        rfl

theorem asmMemcpy_eq (b : Bus) (dst src n : BitVec 64) :
    asmMemcpy b dst src n = .ok (memcpyTurn^[rounds n] ⟨b, dst, src⟩).bus := by
  rw [asmMemcpy, wordLoop_eq _ _ _ _ (rounds_lt n).le]
  rfl

theorem asmMemzero_eq (b : Bus) (src n : BitVec 64) :
    asmMemzero b src n = .ok (memzeroTurn^[rounds n] ⟨b, src⟩).bus := by
  rw [asmMemzero, wordLoop_eq _ _ _ _ (rounds_lt n).le]
  rfl

/-! ## What they leave -/

/-- `y` is one of the `size` bytes from `a` on. -/
def InRegion (a : BitVec 64) (size : Nat) (y : BitVec 64) : Prop := (y - a).toNat < size

theorem mem_wordAddrs : y ∈ wordAddrs a ↔ InRegion a 8 y := by
  unfold wordAddrs InRegion
  rw [List.mem_map]
  constructor
  · rintro ⟨i, hi, rfl⟩
    have := List.mem_range.mp hi
    rw [BitVec.add_comm, BitVec.add_sub_cancel, BitVec.toNat_ofNat]
    omega
  · intro h
    refine ⟨(y - a).toNat, List.mem_range.mpr h, ?_⟩
    rw [BitVec.ofNat_toNat, BitVec.setWidth_eq, BitVec.add_comm, BitVec.sub_add_cancel]

/-- A word loaded and stored again. -/
theorem copyWord_mem (b : Bus) (d s y : BitVec 64) :
    ((b.ldr s).2.str d (b.ldr s).1).mem y = if (y - d).toNat < 8 then b.mem (s + (y - d)) else b.mem y := by
  show (if (y - d).toNat < 8 then ((wordAddrs s).map b.mem).getD (y - d).toNat 0 else b.mem y) = _
  by_cases h : (y - d).toNat < 8
  · rw [if_pos h, if_pos h, wordAddrs, List.map_map, List.getD_eq_getElem _ _ (by simpa using h), List.getElem_map,
      List.getElem_range, Function.comp_apply, BitVec.ofNat_toNat, BitVec.setWidth_eq]
  · rw [if_neg h, if_neg h]

/-- The regions do not meet. -/
def RegionsApart (a c : BitVec 64) (size : Nat) : Prop := ∀ y, InRegion a size y → ¬ InRegion c size y

/-- Where a byte lies past the first word. -/
theorem offset_next (a y : BitVec 64) :
    (y - (a + 8)).toNat = if (y - a).toNat < 8 then (y - a).toNat + 2 ^ 64 - 8 else (y - a).toNat - 8 := by
  split <;> bv_omega

/-- The first word of a region, and the rest. -/
theorem inRegion_succ (hk : 8 * (k + 1) ≤ 2 ^ 64) :
    InRegion a (8 * (k + 1)) y ↔ InRegion (a + 8) (8 * k) y ∨ InRegion a 8 y := by
  unfold InRegion
  rw [offset_next]
  split <;> omega

/-- The addresses that so many turns load from. -/
theorem memcpyTurn_loaded (k : Nat) : ∀ s : CopyRegs, 8 * k ≤ 2 ^ 64 → ∀ y,
    y ∈ (memcpyTurn^[k] s).bus.loaded ↔ InRegion s.x1 (8 * k) y ∨ y ∈ s.bus.loaded := by
  induction k with
  | zero =>
      intro s _ y
      exact ⟨Or.inr, fun h => h.resolve_left (Nat.not_lt_zero _)⟩
  | succ k ih =>
      intro s hk y
      have hfirst : y ∈ (memcpyTurn s).bus.loaded ↔ InRegion s.x1 8 y ∨ y ∈ s.bus.loaded := by
        rw [← mem_wordAddrs]
        exact List.mem_append
      rw [Function.iterate_succ_apply, ih _ (by omega), hfirst, ← or_assoc, inRegion_succ hk]
      rfl

/-- **What so many turns of `memcpy` leave**, when they do not write where they still have to read. -/
theorem memcpyTurn_mem (k : Nat) : ∀ s : CopyRegs, 8 * k ≤ 2 ^ 64 → RegionsApart s.x0 s.x1 (8 * k) → ∀ y,
    (memcpyTurn^[k] s).bus.mem y =
      if (y - s.x0).toNat < 8 * k then s.bus.mem (s.x1 + (y - s.x0)) else s.bus.mem y := by
  induction k with
  | zero => exact fun s _ _ y => (if_neg (Nat.not_lt_zero _)).symm
  | succ k ih =>
      intro s hk hapart y
      have hapart' : RegionsApart (memcpyTurn s).x0 (memcpyTurn s).x1 (8 * k) := fun z hd hs =>
        hapart z ((inRegion_succ hk).mpr (Or.inl hd)) ((inRegion_succ hk).mpr (Or.inl hs))
      rw [Function.iterate_succ_apply, ih _ (by omega) hapart']
      show (if (y - (s.x0 + 8)).toNat < 8 * k then
        ((s.bus.ldr s.x1).2.str s.x0 (s.bus.ldr s.x1).1).mem (s.x1 + 8 + (y - (s.x0 + 8)))
        else ((s.bus.ldr s.x1).2.str s.x0 (s.bus.ldr s.x1).1).mem y) = _
      have hsame : s.x1 + 8 + (y - (s.x0 + 8)) = s.x1 + (y - s.x0) := by bv_omega
      rw [copyWord_mem, copyWord_mem, hsame, offset_next]
      by_cases hfirst : (y - s.x0).toNat < 8
      · rw [if_pos hfirst, if_neg (by omega), if_pos hfirst, if_pos (by omega)]
      · rw [if_neg hfirst, if_neg hfirst]
        by_cases hin : (y - s.x0).toNat - 8 < 8 * k
        · -- what is read now was not written by the first turn
          have hread : ¬ (s.x1 + (y - s.x0) - s.x0).toNat < 8 := by
            intro hw
            refine hapart (s.x1 + (y - s.x0)) (show (_ : Nat) < _ by omega) ?_
            show (s.x1 + (y - s.x0) - s.x1).toNat < _
            rw [BitVec.add_comm, BitVec.add_sub_cancel]
            omega
          rw [if_pos hin, if_neg hread, if_pos (by omega)]
        · rw [if_neg hin, if_neg (by omega)]

/-- **What so many turns of `memzero` leave.** -/
theorem memzeroTurn_mem (k : Nat) : ∀ s : ZeroRegs, 8 * k ≤ 2 ^ 64 → ∀ y,
    (memzeroTurn^[k] s).bus.mem y = if (y - s.x0).toNat < 8 * k then 0 else s.bus.mem y := by
  induction k with
  | zero => exact fun s _ y => (if_neg (Nat.not_lt_zero _)).symm
  | succ k ih =>
      intro s hk y
      have hword : (s.bus.str s.x0 xzr).mem y = if (y - s.x0).toNat < 8 then 0 else s.bus.mem y := by
        show (if (y - s.x0).toNat < 8 then xzr.getD (y - s.x0).toNat 0 else s.bus.mem y) = _
        by_cases h : (y - s.x0).toNat < 8
        · rw [if_pos h, if_pos h, xzr, List.getD_replicate _ h]
        · rw [if_neg h, if_neg h]
      rw [Function.iterate_succ_apply, ih _ (by omega)]
      show (if (y - (s.x0 + 8)).toNat < 8 * k then 0 else (s.bus.str s.x0 xzr).mem y) = _
      rw [hword, offset_next]
      by_cases hfirst : (y - s.x0).toNat < 8
      · rw [if_pos hfirst, if_neg (by omega), if_pos hfirst, if_pos (by omega)]
      · rw [if_neg hfirst, if_neg hfirst]
        refine if_congr ?_ rfl rfl
        omega

/-! ## The lengths they respect -/

/-- `memcpy(dst, src, n)` makes the destination the source, changes nothing outside the one and loads nothing outside the other. -/
def MemcpyRespects (dst src n : BitVec 64) : Prop :=
  ∀ b, ∃ b', asmMemcpy b dst src n = .ok b' ∧
    (∀ i < n.toNat, b'.mem (dst + BitVec.ofNat 64 i) = b.mem (src + BitVec.ofNat 64 i)) ∧
    (∀ y, ¬ InRegion dst n.toNat y → b'.mem y = b.mem y) ∧
    ∀ y ∈ b'.loaded, y ∈ b.loaded ∨ InRegion src n.toNat y

/-- `memzero(p, n)` clears those bytes and changes no others. -/
def MemzeroRespects (p n : BitVec 64) : Prop :=
  ∀ b, ∃ b', asmMemzero b p n = .ok b' ∧
    (∀ i < n.toNat, b'.mem (p + BitVec.ofNat 64 i) = 0) ∧ ∀ y, ¬ InRegion p n.toNat y → b'.mem y = b.mem y

/-- The length is a positive multiple of eight, and positive as a signed number too. -/
def WholeWords (n : BitVec 64) : Prop := 0 < n.toInt ∧ n.toNat % 8 = 0

instance (n : BitVec 64) : Decidable (WholeWords n) := inferInstanceAs (Decidable (_ ∧ _))

theorem offset_ofNat (a : BitVec 64) {i : Nat} (hi : i < 2 ^ 64) : (a + BitVec.ofNat 64 i - a).toNat = i := by
  rw [BitVec.add_comm, BitVec.add_sub_cancel, BitVec.toNat_ofNat, Nat.mod_eq_of_lt hi]

/-- The bytes that are worked on are those asked for, if they are whole words. -/
theorem WholeWords.rounds_eq (h : WholeWords n) : 8 * rounds n = n.toNat ∧ 8 * rounds n ≤ 2 ^ 64 := by
  obtain ⟨hpos, hmod⟩ := h
  have hlt := n.isLt
  unfold rounds
  rw [BitVec.toInt_eq_toNat_bmod, Int.bmod_def] at *
  omega

/-- More bytes are worked on than asked for, or eight and more were asked for. -/
theorem rounds_of_not_wholeWords (h : ¬ WholeWords n) :
    8 * rounds n ≤ 2 ^ 64 ∧ (n.toNat < 8 * rounds n ∨ (rounds n = 1 ∧ 8 < n.toNat)) := by
  have hlt := n.isLt
  unfold WholeWords at h
  unfold rounds
  rw [BitVec.toInt_eq_toNat_bmod, Int.bmod_def] at *
  omega

theorem memcpyRespects_of (hw : WholeWords n) (h : RegionsApart dst src n.toNat) : MemcpyRespects dst src n := by
  obtain ⟨hlen, hfit⟩ := hw.rounds_eq
  rw [← hlen] at h
  intro b
  have hmem := memcpyTurn_mem _ ⟨b, dst, src⟩ hfit h
  refine ⟨_, asmMemcpy_eq b dst src n, fun i hi => ?_, fun y hy => ?_, fun y hy => ?_⟩
  · have hoff := offset_ofNat dst (i := i) (by omega)
    rw [hmem, if_pos (by show (_ : Nat) < _; rw [hoff, hlen]; exact hi)]
    show b.mem (src + (dst + BitVec.ofNat 64 i - dst)) = _
    rw [BitVec.add_comm dst, BitVec.add_sub_cancel]
  · rw [hmem, if_neg]
    rwa [hlen]
  · rcases (memcpyTurn_loaded _ ⟨b, dst, src⟩ hfit y).mp hy with hy | hy
    · rw [hlen] at hy
      exact Or.inr hy
    · exact Or.inl hy

theorem memzeroRespects_of (hw : WholeWords n) : MemzeroRespects dst n := by
  obtain ⟨hlen, hfit⟩ := hw.rounds_eq
  intro b
  have hmem := memzeroTurn_mem _ ⟨b, dst⟩ hfit
  refine ⟨_, asmMemzero_eq b dst n, fun i hi => ?_, fun y hy => ?_⟩
  · have hoff := offset_ofNat dst (i := i) (by omega)
    rw [hmem, if_pos (by show (_ : Nat) < _; rw [hoff, hlen]; exact hi)]
  · rw [hmem, if_neg]
    rwa [hlen]

theorem wholeWords_of_memcpyRespects (h : RegionsApart dst src n.toNat) (hr : MemcpyRespects dst src n) :
    WholeWords n := by
  by_contra hw
  obtain ⟨hfit, hmore | ⟨hone, hlong⟩⟩ := rounds_of_not_wholeWords hw
  · -- the byte behind the source is loaded
    obtain ⟨b', hrun, _, _, hload⟩ := hr ⟨fun _ => 0, []⟩
    rw [asmMemcpy_eq] at hrun
    obtain rfl := Except.ok.inj hrun
    have hoff := offset_ofNat src n.isLt
    have hin : src + BitVec.ofNat 64 n.toNat ∈ (memcpyTurn^[rounds n] ⟨⟨fun _ => 0, []⟩, dst, src⟩).bus.loaded := by
      refine (memcpyTurn_loaded _ _ hfit _).mpr (Or.inl ?_)
      show (_ : Nat) < _
      rw [hoff]
      exact hmore
    have hout : (_ : Nat) < _ := (hload _ hin).resolve_left (by simp)
    rw [hoff] at hout
    exact Nat.lt_irrefl _ hout
  · -- the ninth byte is not copied
    obtain ⟨b', hrun, hcopy, _⟩ := hr ⟨fun y => if y = src + 8 then 1 else 0, []⟩
    rw [asmMemcpy_eq, hone] at hrun
    obtain rfl := Except.ok.inj hrun
    have hapart : RegionsApart dst src (8 * 1) := fun y hd hs => by
      unfold InRegion at hd hs
      exact h y (show _ < _ by omega) (show _ < _ by omega)
    have hne : dst + 8 ≠ src + 8 := fun he => by
      refine h dst ?_ ?_
      · show (dst - dst).toNat < _
        rw [BitVec.sub_self]
        exact Nat.lt_of_le_of_lt (Nat.zero_le _) hlong
      · show (dst - src).toNat < _
        have : dst - src = 0 := by bv_omega
        rw [this]
        exact Nat.lt_of_le_of_lt (Nat.zero_le _) hlong
    have hninth := hcopy 8 hlong
    rw [memcpyTurn_mem 1 _ (by decide) hapart, if_neg] at hninth
    · simp only [show BitVec.ofNat 64 8 = 8 from rfl, if_neg hne, if_true] at hninth
      exact absurd hninth (by decide)
    · show ¬ (dst + BitVec.ofNat 64 8 - dst).toNat < 8 * 1
      rw [offset_ofNat dst (by decide)]
      decide

theorem wholeWords_of_memzeroRespects (hr : MemzeroRespects dst n) : WholeWords n := by
  by_contra hw
  obtain ⟨b', hrun, hzero, hsame⟩ := hr ⟨fun _ => 1, []⟩
  rw [asmMemzero_eq] at hrun
  obtain rfl := Except.ok.inj hrun
  obtain ⟨hfit, hmore | ⟨hone, hlong⟩⟩ := rounds_of_not_wholeWords hw
  · -- the byte behind is cleared
    have hoff := offset_ofNat dst n.isLt
    have hbehind := hsame (dst + BitVec.ofNat 64 n.toNat) (by
      show ¬ (_ : Nat) < _
      rw [hoff]
      exact Nat.lt_irrefl _)
    rw [memzeroTurn_mem _ _ hfit, if_pos (by show (_ : Nat) < _; rw [hoff]; exact hmore)] at hbehind
    exact absurd hbehind (show (0 : UInt8) ≠ 1 by decide)
  · -- the ninth byte is not
    have hninth := hzero 8 hlong
    have hoff : ¬ (dst + BitVec.ofNat 64 8 - dst).toNat < 8 * 1 := by
      rw [offset_ofNat dst (by decide)]
      decide
    rw [hone, memzeroTurn_mem 1 _ (by decide), if_neg hoff] at hninth
    exact absurd hninth (show (1 : UInt8) ≠ 0 by decide)

/--
**The lengths `memcpy` and `memzero` respect** are the positive multiples of
eight below `2^63`, and no others. A length that is no multiple of eight is
rounded up, zero to eight, and one with the sign bit set is taken for eight.
-/
theorem copies_respect_iff (h : RegionsApart dst src n.toNat) :
    (MemcpyRespects dst src n ↔ WholeWords n) ∧ (MemzeroRespects dst n ↔ WholeWords n) :=
  ⟨⟨wholeWords_of_memcpyRespects h, fun hw => memcpyRespects_of hw h⟩,
    wholeWords_of_memzeroRespects, memzeroRespects_of⟩

/-- Two blocks of sixteen bytes. -/
theorem copies_respect_sixteen : MemcpyRespects 0x1000 0x2000 16 ∧ MemzeroRespects 0x1000 16 := by
  have hapart : RegionsApart (0x1000 : BitVec 64) 0x2000 (16 : BitVec 64).toNat := by
    intro y hd hs
    have hd : (y - 0x1000).toNat < 16 := hd
    have hs : (y - 0x2000).toNat < 16 := hs
    bv_omega
  have hboth := copies_respect_iff hapart
  exact ⟨hboth.1.mpr (by decide), hboth.2.mpr (by decide)⟩

/-- Four bytes are not what is copied, nor what is cleared. -/
theorem not_copies_respect :
    ¬ ∀ dst src n : BitVec 64, RegionsApart dst src n.toNat → MemcpyRespects dst src n ∧ MemzeroRespects dst n := by
  intro hall
  have hapart : RegionsApart (0x1000 : BitVec 64) 0x2000 (4 : BitVec 64).toNat := by
    intro y hd hs
    have hd : (y - 0x1000).toNat < 4 := hd
    have hs : (y - 0x2000).toNat < 4 := hs
    bv_omega
  exact absurd (wholeWords_of_memzeroRespects (hall _ _ _ hapart).2) (by decide)

/-! ## Over natural addresses -/

/-- **Turn for turn**, the loop is the one over natural addresses, as long as the registers do not wrap. -/
theorem memcpyTurn_natural (k : Nat) : ∀ (b : Bus) (mem : Nat → UInt8) (d s : Nat), d + 8 * k ≤ 2 ^ 64 →
    s + 8 * k ≤ 2 ^ 64 → (∀ y, b.mem y = mem y.toNat) → ∀ y,
    (memcpyTurn^[k] ⟨b, BitVec.ofNat 64 d, BitVec.ofNat 64 s⟩).bus.mem y = memcpyTurns mem d s k y.toNat := by
  induction k with
  | zero => exact fun _ _ _ _ _ _ hmem => hmem
  | succ k ih =>
      intro b mem d s hd hs hmem y
      have hturn : memcpyTurn ⟨b, BitVec.ofNat 64 d, BitVec.ofNat 64 s⟩ =
          ⟨(b.ldr (BitVec.ofNat 64 s)).2.str (BitVec.ofNat 64 d) (b.ldr (BitVec.ofNat 64 s)).1,
            BitVec.ofNat 64 (d + 8), BitVec.ofNat 64 (s + 8)⟩ := by
        rw [BitVec.ofNat_add, BitVec.ofNat_add]
        rfl
      rw [Function.iterate_succ_apply, hturn, memcpyTurns]
      refine ih _ _ _ _ (by omega) (by omega) (fun z => ?_) y
      have hz := z.isLt
      rw [copyWord_mem, store64_load64, hmem, hmem]
      have hword : (z - BitVec.ofNat 64 d).toNat < 8 ↔ Within d 8 z.toNat := by
        unfold Within
        rw [BitVec.toNat_sub, BitVec.toNat_ofNat]
        omega
      by_cases hin : Within d 8 z.toNat
      · rw [if_pos (hword.mpr hin), if_pos hin]
        obtain ⟨h1, h2⟩ := hin
        congr 1
        rw [BitVec.toNat_add, BitVec.toNat_sub, BitVec.toNat_ofNat, BitVec.toNat_ofNat]
        omega
      · rw [if_neg (fun hi => hin (hword.mp hi)), if_neg hin]

/-- **`memcpy`**, over natural addresses, is what the instructions do. -/
theorem asmMemcpy_natural (b : Bus) {d s m : Nat} (hm : m < 2 ^ 63) (hd : d + 8 * max 1 ((m + 7) / 8) ≤ 2 ^ 64)
    (hs : s + 8 * max 1 ((m + 7) / 8) ≤ 2 ^ 64) :
    ∃ b', asmMemcpy b (BitVec.ofNat 64 d) (BitVec.ofNat 64 s) (BitVec.ofNat 64 m) = .ok b' ∧
      ∀ y : BitVec 64, b'.mem y = memcpy (fun x => b.mem (BitVec.ofNat 64 x)) d s m y.toNat := by
  have hrounds : rounds (BitVec.ofNat 64 m) = max 1 ((m + 7) / 8) := by
    unfold rounds
    rw [BitVec.toInt_eq_toNat_bmod, BitVec.toNat_ofNat, Int.bmod_def]
    omega
  refine ⟨_, asmMemcpy_eq b _ _ _, fun y => ?_⟩
  rw [hrounds]
  exact memcpyTurn_natural _ b _ d s hd hs (fun z => by rw [BitVec.ofNat_toNat, BitVec.setWidth_eq]) y

end OsdiKernel
