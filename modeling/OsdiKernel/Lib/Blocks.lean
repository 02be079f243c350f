import Mathlib.Data.Nat.Bitwise
import Mathlib.Data.Set.Insert
import Mathlib.Tactic.Ring

/-!
# Power-of-two blocks and tilings

The arithmetic a buddy system rests on, with no allocator in sight. A block of
order `k` is a run of `2 ^ k` consecutive cells; an *aligned* one starts at a
multiple of its own size. Two facts carry everything:

* aligned blocks are **nested or disjoint** (`Block.covers_of_covers`), so a
  family of them that covers every cell once — a `Tiling` — can only change by
  cutting a block in half or gluing two halves back together;
* a tiling in which no two halves of one block are both loose (`Coalesced`)
  is **determined by the blocks that are held** (`coalesced_unique`): it
  consists of the largest aligned blocks that avoid them.
-/

namespace OsdiKernel

/-- A run of `2 ^ order` cells beginning at `start`. -/
structure Block where
  start : Nat
  order : Nat
  deriving DecidableEq, Repr

namespace Block

/-- The cell `f` lies in the block. -/
def Covers (b : Block) (f : Nat) : Prop := b.start ≤ f ∧ f < b.start + 2 ^ b.order

instance (b : Block) (f : Nat) : Decidable (b.Covers f) := inferInstanceAs (Decidable (_ ∧ _))

/-- The block starts at a multiple of its own size. -/
def Aligned (b : Block) : Prop := 2 ^ b.order ∣ b.start

instance (b : Block) : Decidable b.Aligned := inferInstanceAs (Decidable (_ ∣ _))

/-- The other half of the block of the next order. -/
def buddy (b : Block) : Block := ⟨b.start ^^^ 2 ^ b.order, b.order⟩

theorem buddy_ne (b : Block) : b.buddy ≠ b := by
  intro h
  have h0 : b.start ^^^ 2 ^ b.order = b.start := congrArg Block.start h
  have h1 : 2 ^ b.order = 0 := by
    rw [← Nat.zero_xor (2 ^ b.order), ← Nat.xor_self b.start, Nat.xor_assoc, h0, Nat.xor_self]
  exact absurd h1 (Nat.two_pow_pos _).ne'

theorem buddy_buddy (b : Block) : b.buddy.buddy = b := by
  cases b
  simp only [buddy, Nat.xor_assoc, Nat.xor_self, Nat.xor_zero]

theorem covers_start (b : Block) : b.Covers b.start :=
  ⟨Nat.le_refl _, Nat.lt_add_of_pos_right (Nat.two_pow_pos _)⟩

/-- An aligned block is one fibre of division by its size. -/
theorem covers_iff {b : Block} (ha : b.Aligned) (f : Nat) :
    b.Covers f ↔ f / 2 ^ b.order = b.start / 2 ^ b.order := by
  obtain ⟨u, hu⟩ := ha
  have hpos := Nat.two_pow_pos b.order
  rw [Covers, hu, Nat.mul_div_cancel_left _ hpos, Nat.div_eq_iff hpos]
  constructor
  · rintro ⟨h1, h2⟩
    exact ⟨by rw [Nat.mul_comm]; exact h1, by rw [Nat.mul_comm u]; omega⟩
  · rintro ⟨h1, h2⟩
    exact ⟨by rw [Nat.mul_comm]; exact h1, by rw [Nat.mul_comm u] at h2; omega⟩

/-- **Nested or disjoint.** If aligned blocks meet, the smaller is inside the larger. -/
theorem covers_of_covers {a b : Block} (ha : a.Aligned) (hb : b.Aligned) (hab : a.order ≤ b.order)
    {f : Nat} (hfa : a.Covers f) (hfb : b.Covers f) {g : Nat} (hga : a.Covers g) : b.Covers g := by
  rw [covers_iff ha] at hfa hga
  rw [covers_iff hb] at hfb ⊢
  have hsplit : 2 ^ b.order = 2 ^ a.order * 2 ^ (b.order - a.order) := by
    rw [← Nat.pow_add]; congr 1; omega
  rw [← hfb, hsplit, ← Nat.div_div_eq_div_mul, ← Nat.div_div_eq_div_mul, hga, hfa]

/-- Aligned blocks of one order that meet are equal. -/
theorem eq_of_covers {a b : Block} (ha : a.Aligned) (hb : b.Aligned) (hab : a.order = b.order)
    {f : Nat} (hfa : a.Covers f) (hfb : b.Covers f) : a = b := by
  rw [covers_iff ha] at hfa
  rw [covers_iff hb] at hfb
  obtain ⟨u, hu⟩ := ha
  obtain ⟨v, hv⟩ := hb
  have hpos := Nat.two_pow_pos b.order
  have huv : u = v := by
    rw [hu, hab, Nat.mul_div_cancel_left _ hpos] at hfa
    rw [hv, Nat.mul_div_cancel_left _ hpos] at hfb
    exact hfa.symm.trans hfb
  cases a; cases b
  simp only at hu hv hab huv ⊢
  subst hab; subst huv
  rw [hu, hv]

/-- Halving an even-aligned block: the upper half begins where the lower ends. -/
theorem covers_succ {p k f : Nat} :
    (⟨p, k + 1⟩ : Block).Covers f ↔ (⟨p, k⟩ : Block).Covers f ∨ (⟨p + 2 ^ k, k⟩ : Block).Covers f := by
  simp only [Covers, Nat.pow_succ]
  omega

theorem aligned_half {p k : Nat} (h : (⟨p, k + 1⟩ : Block).Aligned) :
    (⟨p, k⟩ : Block).Aligned ∧ (⟨p + 2 ^ k, k⟩ : Block).Aligned := by
  have h0 : 2 ^ k ∣ p := Nat.dvd_trans ⟨2, Nat.pow_succ ..⟩ h
  exact ⟨h0, Nat.dvd_add h0 (Nat.dvd_refl _)⟩

end Block

/-! ## Which half a block is

`xor` with the block's own size flips one bit of its start; `and` with the
complement clears it. On an aligned start these move between the two halves. -/

section Bits

variable {p k : Nat}

theorem xor_size_of_even (h : 2 ^ (k + 1) ∣ p) : p ^^^ 2 ^ k = p + 2 ^ k := by
  obtain ⟨u, hu⟩ := h
  have hp : p = (2 * u) <<< k := by rw [Nat.shiftLeft_eq, hu]; ring
  rw [hp, ← Nat.one_shiftLeft, ← Nat.shiftLeft_xor_distrib, Nat.xor_one_of_even (even_two_mul u)]
  simp only [Nat.shiftLeft_eq]; ring

theorem xor_size_of_odd (h : 2 ^ k ∣ p) (hn : ¬ 2 ^ (k + 1) ∣ p) :
    p ^^^ 2 ^ k = p - 2 ^ k ∧ 2 ^ k ≤ p ∧ 2 ^ (k + 1) ∣ p - 2 ^ k := by
  obtain ⟨u, hu⟩ := h
  have hodd : Odd u := by
    rw [← Nat.not_even_iff_odd]
    rintro ⟨v, hv⟩
    exact hn ⟨v, by rw [hu, hv]; ring⟩
  obtain ⟨v, hv⟩ := hodd
  have hp : p = (2 * v + 1) <<< k := by rw [Nat.shiftLeft_eq, hu, hv]; ring
  have hsub : p - 2 ^ k = 2 ^ (k + 1) * v := by
    rw [hp, Nat.shiftLeft_eq]
    have : (2 * v + 1) * 2 ^ k = 2 ^ (k + 1) * v + 2 ^ k := by ring
    rw [this, Nat.add_sub_cancel]
  refine ⟨?_, ?_, ⟨v, hsub⟩⟩
  · rw [hsub, hp, ← Nat.one_shiftLeft, ← Nat.shiftLeft_xor_distrib,
      Nat.xor_one_of_odd (odd_two_mul_add_one v)]
    simp only [Nat.shiftLeft_eq, Nat.add_sub_cancel]; ring
  · rw [hp, Nat.shiftLeft_eq]; exact Nat.le_mul_of_pos_left _ (by omega)

/-- Clearing the size bit within a word of `w` bits. -/
theorem and_not_size {w : Nat} (hpw : p < 2 ^ w) (h : 2 ^ k ∣ p) :
    p &&& ((2 ^ w - 1) ^^^ 2 ^ k) = if 2 ^ (k + 1) ∣ p then p else p - 2 ^ k := by
  obtain ⟨u, hu⟩ := h
  have hp : p = u <<< k := by rw [Nat.shiftLeft_eq, hu, Nat.mul_comm]
  have hbit : p &&& 2 ^ k = (u % 2) <<< k := by
    rw [hp, ← Nat.one_shiftLeft, ← Nat.shiftLeft_and_distrib, Nat.and_one_is_mod]
  rw [Nat.and_xor_distrib_left, Nat.and_two_pow_sub_one_of_lt_two_pow hpw, hbit]
  split
  · rename_i hd
    obtain ⟨v, hv⟩ := hd
    have : u = 2 * v := by
      have hpos := Nat.two_pow_pos k
      refine Nat.eq_of_mul_eq_mul_left hpos ?_
      rw [← hu, hv]; ring
    rw [this, Nat.mul_mod_right, Nat.zero_shiftLeft, Nat.xor_zero]
  · rename_i hd
    have hodd : u % 2 = 1 := by
      rcases Nat.mod_two_eq_zero_or_one u with h0 | h1
      · exact absurd ⟨u / 2, by rw [hu, Nat.pow_succ, Nat.mul_assoc]; congr 1; omega⟩ hd
      · exact h1
    rw [hodd, Nat.one_shiftLeft]
    exact (xor_size_of_odd ⟨u, hu⟩ hd).1

end Bits

/-! ## Tilings -/

/-- Every cell below `N` lies in exactly one block of `T`, and the blocks are
aligned and stay below `N`. -/
structure Tiling (N : Nat) (T : Set Block) : Prop where
  /-- Blocks start at multiples of their size. -/
  aligned : ∀ b ∈ T, b.Aligned
  /-- Blocks do not run past the end. -/
  bound : ∀ b ∈ T, b.start + 2 ^ b.order ≤ N
  /-- Every cell is covered. -/
  cover : ∀ f, f < N → ∃ b ∈ T, b.Covers f
  /-- No cell is covered twice. -/
  unique : ∀ a ∈ T, ∀ b ∈ T, ∀ f, a.Covers f → b.Covers f → a = b

namespace Tiling

variable {N p k : Nat} {T : Set Block}

/-- A cell heads at most one block. -/
theorem eq_of_start (h : Tiling N T) {a b : Block} (ha : a ∈ T) (hb : b ∈ T)
    (he : a.start = b.start) : a = b :=
  h.unique a ha b hb a.start a.covers_start (he ▸ b.covers_start)

theorem start_lt (h : Tiling N T) {b : Block} (hb : b ∈ T) : b.start < N :=
  Nat.lt_of_lt_of_le (Nat.lt_add_of_pos_right (Nat.two_pow_pos _)) (h.bound b hb)

/-- **Cutting a block in half** keeps the tiling. -/
theorem split (h : Tiling N T) (hb : (⟨p, k + 1⟩ : Block) ∈ T) :
    Tiling N ((T \ {⟨p, k + 1⟩}) ∪ {⟨p, k⟩, ⟨p + 2 ^ k, k⟩}) := by
  obtain ⟨hlo, hhi⟩ := Block.aligned_half (h.aligned _ hb)
  have hbd := h.bound _ hb
  simp only [Nat.pow_succ] at hbd
  -- each half lies inside the block that was cut
  have hin : ∀ a ∈ ({⟨p, k⟩, ⟨p + 2 ^ k, k⟩} : Set Block), ∀ f, a.Covers f →
      (⟨p, k + 1⟩ : Block).Covers f := by
    rintro a (rfl | rfl) f hf
    · exact Block.covers_succ.mpr (Or.inl hf)
    · exact Block.covers_succ.mpr (Or.inr hf)
  have hpos := Nat.two_pow_pos k
  refine ⟨?_, ?_, ?_, ?_⟩
  · rintro b (⟨hbT, _⟩ | rfl | rfl)
    · exact h.aligned b hbT
    · exact hlo
    · exact hhi
  · rintro b (⟨hbT, _⟩ | rfl | rfl)
    · exact h.bound b hbT
    · show p + 2 ^ k ≤ N; omega
    · show p + 2 ^ k + 2 ^ k ≤ N; omega
  · intro f hf
    obtain ⟨b, hbT, hbf⟩ := h.cover f hf
    by_cases he : b = ⟨p, k + 1⟩
    · subst he
      rcases Block.covers_succ.mp hbf with hc | hc
      · exact ⟨_, Or.inr (Or.inl rfl), hc⟩
      · exact ⟨_, Or.inr (Or.inr rfl), hc⟩
    · exact ⟨b, Or.inl ⟨hbT, he⟩, hbf⟩
  · rintro a (⟨haT, hane⟩ | ha) b (⟨hbT, hbne⟩ | hb') f haf hbf
    · exact h.unique a haT b hbT f haf hbf
    · exact absurd (h.unique a haT _ hb f haf (hin b hb' f hbf)) hane
    · exact absurd (h.unique b hbT _ hb f hbf (hin a ha f haf)) hbne
    · rcases ha with rfl | rfl <;> rcases hb' with rfl | rfl
      · rfl
      · simp only [Block.Covers] at haf hbf; omega
      · simp only [Block.Covers] at haf hbf; omega
      · rfl

/-- **Gluing two halves** keeps the tiling. -/
theorem merge (h : Tiling N T) (h1 : (⟨p, k⟩ : Block) ∈ T) (h2 : (⟨p + 2 ^ k, k⟩ : Block) ∈ T)
    (ha : 2 ^ (k + 1) ∣ p) :
    Tiling N ((T \ {⟨p, k⟩, ⟨p + 2 ^ k, k⟩}) ∪ {⟨p, k + 1⟩}) := by
  have hbd := h.bound _ h2
  have hlt := h.bound _ h1
  -- a block that meets the glued one was one of the halves
  have hmeet : ∀ b ∈ T, ∀ f, b.Covers f → (⟨p, k + 1⟩ : Block).Covers f →
      b = ⟨p, k⟩ ∨ b = ⟨p + 2 ^ k, k⟩ := by
    intro b hbT f hbf hf
    rcases Block.covers_succ.mp hf with hc | hc
    · exact Or.inl (h.unique b hbT _ h1 f hbf hc)
    · exact Or.inr (h.unique b hbT _ h2 f hbf hc)
  refine ⟨?_, ?_, ?_, ?_⟩
  · rintro b (⟨hbT, _⟩ | rfl)
    · exact h.aligned b hbT
    · exact ha
  · rintro b (⟨hbT, _⟩ | rfl)
    · exact h.bound b hbT
    · show p + 2 ^ (k + 1) ≤ N
      simp only [Nat.pow_succ] at hbd ⊢
      omega
  · intro f hf
    obtain ⟨b, hbT, hbf⟩ := h.cover f hf
    by_cases he : b = ⟨p, k⟩ ∨ b = ⟨p + 2 ^ k, k⟩
    · refine ⟨_, Or.inr rfl, Block.covers_succ.mpr ?_⟩
      rcases he with rfl | rfl
      · exact Or.inl hbf
      · exact Or.inr hbf
    · exact ⟨b, Or.inl ⟨hbT, he⟩, hbf⟩
  · rintro a (⟨haT, hane⟩ | rfl) b (⟨hbT, hbne⟩ | rfl) f haf hbf
    · exact h.unique a haT b hbT f haf hbf
    · exact absurd (hmeet a haT f haf hbf) hane
    · exact absurd (hmeet b hbT f hbf haf) hbne
    · rfl

end Tiling

/-! ## Fully coalesced tilings -/

/-- No two halves of one block of order at most `m` are both in `F`. -/
def Coalesced (m : Nat) (F : Set Block) : Prop :=
  ∀ b ∈ F, b.order < m → b.buddy ∉ F

theorem Coalesced.mono {m : Nat} {F G : Set Block} (h : Coalesced m G) (hs : F ⊆ G) :
    Coalesced m F := fun b hb ho hm => h b (hs hb) ho (hs hm)

/-- A block joins a coalesced family when its buddy is not there. -/
theorem Coalesced.insert {m : Nat} {F : Set Block} {b : Block} (h : Coalesced m F)
    (hb : b.order < m → b.buddy ∉ F) : Coalesced m (insert b F) := by
  intro a haF ho hm
  rcases haF with rfl | haF
  · rcases hm with hm | hm
    · exact Block.buddy_ne _ hm
    · exact hb ho hm
  · rcases hm with hm | hm
    · have hab : b.buddy = a := by rw [← hm, Block.buddy_buddy]
      exact hb (by rw [← hm]; exact ho) (hab ▸ haF)
    · exact h a haF ho hm

section Unique

variable {N m : Nat} {F F₁ F₂ A : Set Block}

/--
**Maximality.** In a coalesced tiling every aligned block that avoids the held
blocks lies inside a single free one. The induction is on its order: its two
halves lie in free blocks, and if those were no larger than the halves they
would be two free buddies.
-/
theorem coalesced_max (ht : Tiling N (F ∪ A)) (hc : Coalesced m F) :
    ∀ (k p : Nat), k ≤ m → 2 ^ k ∣ p → p + 2 ^ k ≤ N →
      (∀ f, (⟨p, k⟩ : Block).Covers f → ∀ a ∈ A, ¬ a.Covers f) →
      ∃ c ∈ F, k ≤ c.order ∧ c.Covers p
  | 0, p, _, _, hN, hfree => by
      obtain ⟨c, hcT, hcp⟩ := ht.cover p (by omega)
      rcases hcT with hcF | hcA
      · exact ⟨c, hcF, Nat.zero_le _, hcp⟩
      · exact absurd hcp (hfree p (Block.covers_start ⟨p, 0⟩) c hcA)
  | k + 1, p, hk, hdvd, hN, hfree => by
      have hdvd' : 2 ^ k ∣ p := Nat.dvd_trans ⟨2, Nat.pow_succ ..⟩ hdvd
      simp only [Nat.pow_succ] at hN
      obtain ⟨c₁, hF₁, ho₁, hc₁⟩ := coalesced_max ht hc k p (by omega) hdvd' (by omega)
        (fun f hf => hfree f (Block.covers_succ.mpr (Or.inl hf)))
      obtain ⟨c₂, hF₂, ho₂, hc₂⟩ := coalesced_max ht hc k (p + 2 ^ k) (by omega)
        (Nat.dvd_add hdvd' (Nat.dvd_refl _)) (by omega)
        (fun f hf => hfree f (Block.covers_succ.mpr (Or.inr hf)))
      have ha₁ := ht.aligned c₁ (Or.inl hF₁)
      have ha₂ := ht.aligned c₂ (Or.inl hF₂)
      by_cases h₁ : k + 1 ≤ c₁.order
      · exact ⟨c₁, hF₁, h₁, hc₁⟩
      by_cases h₂ : k + 1 ≤ c₂.order
      · -- the upper half's free block reaches down over the lower half too
        refine ⟨c₂, hF₂, h₂, ?_⟩
        have hal : (⟨p, k + 1⟩ : Block).Aligned := hdvd
        have hup : (⟨p, k + 1⟩ : Block).Covers (p + 2 ^ k) :=
          Block.covers_succ.mpr (Or.inr (Block.covers_start ⟨p + 2 ^ k, k⟩))
        exact Block.covers_of_covers hal ha₂ h₂ hup hc₂ (Block.covers_start ⟨p, k + 1⟩)
      · -- both are exactly the halves, so they are buddies
        exfalso
        have e₁ : (⟨p, k⟩ : Block) = c₁ :=
          Block.eq_of_covers hdvd' ha₁ (by simp only; omega) (Block.covers_start ⟨p, k⟩) hc₁
        have e₂ : (⟨p + 2 ^ k, k⟩ : Block) = c₂ :=
          Block.eq_of_covers (Nat.dvd_add hdvd' (Nat.dvd_refl _)) ha₂ (by simp only; omega)
            (Block.covers_start ⟨p + 2 ^ k, k⟩) hc₂
        refine hc c₁ hF₁ (by omega) ?_
        rw [← e₁, Block.buddy, xor_size_of_even hdvd, e₂]
        exact hF₂

theorem coalesced_sub (h₁ : Tiling N (F₁ ∪ A)) (h₂ : Tiling N (F₂ ∪ A))
    (hc₁ : Coalesced m F₁) (hc₂ : Coalesced m F₂)
    (ho₁ : ∀ b ∈ F₁, b.order ≤ m) (ho₂ : ∀ b ∈ F₂, b.order ≤ m)
    (hd₁ : ∀ b ∈ F₁, b ∉ A) (hd₂ : ∀ b ∈ F₂, b ∉ A) : F₁ ⊆ F₂ := by
  -- a free block of one tiling avoids `A`, so it fits in a free block of the other
  have avoid : ∀ {G : Set Block}, Tiling N (G ∪ A) → (∀ b ∈ G, b ∉ A) → ∀ b ∈ G,
      ∀ f, b.Covers f → ∀ a ∈ A, ¬ a.Covers f := by
    intro G hG hd b hb f hf a ha haf
    exact hd b hb (hG.unique b (Or.inl hb) a (Or.inr ha) f hf haf ▸ ha)
  intro b hb
  obtain ⟨c, hcF, hoc, hcb⟩ := coalesced_max h₂ hc₂ b.order b.start (ho₁ b hb)
    (h₁.aligned b (Or.inl hb)) (h₁.bound b (Or.inl hb)) (avoid h₁ hd₁ b hb)
  obtain ⟨d, hdF, hod, hdc⟩ := coalesced_max h₁ hc₁ c.order c.start (ho₂ c hcF)
    (h₂.aligned c (Or.inl hcF)) (h₂.bound c (Or.inl hcF)) (avoid h₂ hd₂ c hcF)
  have hac := h₂.aligned c (Or.inl hcF)
  have hdb : d.Covers b.start :=
    Block.covers_of_covers hac (h₁.aligned d (Or.inl hdF)) hod c.covers_start hdc hcb
  have heq : d = b := h₁.unique d (Or.inl hdF) b (Or.inl hb) _ hdb b.covers_start
  subst heq
  have : d = c := Block.eq_of_covers (h₁.aligned d (Or.inl hb)) hac (by omega) d.covers_start hcb
  exact this ▸ hcF

/-- **The held blocks determine a coalesced tiling.** -/
theorem coalesced_unique (h₁ : Tiling N (F₁ ∪ A)) (h₂ : Tiling N (F₂ ∪ A))
    (hc₁ : Coalesced m F₁) (hc₂ : Coalesced m F₂)
    (ho₁ : ∀ b ∈ F₁, b.order ≤ m) (ho₂ : ∀ b ∈ F₂, b.order ≤ m)
    (hd₁ : ∀ b ∈ F₁, b ∉ A) (hd₂ : ∀ b ∈ F₂, b ∉ A) : F₁ = F₂ :=
  Set.Subset.antisymm (coalesced_sub h₁ h₂ hc₁ hc₂ ho₁ ho₂ hd₁ hd₂)
    (coalesced_sub h₂ h₁ hc₂ hc₁ ho₂ ho₁ hd₂ hd₁)

end Unique

end OsdiKernel
