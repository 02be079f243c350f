import OsdiKernel.Mm.BuddyInv

/-!
# Allocating and freeing keep the invariant

`buddy_block_alloc` pops a block and cuts it down; each turn of its loop halves
the block in hand and pushes the upper half (`halve`). `buddy_block_free` glues:
each turn pops the buddy and doubles the block in hand (`InHand.merge`). Neither
loop disturbs a block held by anyone else.
-/

namespace OsdiKernel

variable {mm mm' : Mm} {c c' : Link → List Nat} {H R : Set Block} {b : Block} {p k : Nat}

/-! ## Cutting and gluing the block in hand -/

/-- The same free blocks, with the held ones divided differently. -/
theorem BuddyInv.retile (h : BuddyInv mm c H) {H' : Set Block}
    (ht : Tiling pageFrameNum (frees c ∪ H')) (ha : ∀ b ∈ frees c, b ∉ H')
    (ho : ∀ b ∈ H', b.order ≤ maxOrder)
    (hs : ∀ x, mm.IsHead x → (∀ j, x ≠ .freelist j) → ∀ q ∈ c x, ∃ b ∈ H', b.start = q) :
    BuddyInv mm c H' :=
  { h with tiling := ht, apart := ha, orders := ho, others := hs }

namespace InHand

theorem mem (_ : InHand mm c b R) : b ∈ frees c ∪ insert b R := Or.inr (Or.inl rfl)

theorem not_free (h : InHand mm c b R) : b ∉ frees c := fun hm => h.inv.apart b hm (Or.inl rfl)

/-- A block that meets the one in hand is the one in hand. -/
theorem eq_of_covers (h : InHand mm c b R) {a : Block} (ha : a ∈ frees c ∪ insert b R)
    (hc : b.Covers a.start) : a = b :=
  h.inv.tiling.unique a ha b h.mem a.start a.covers_start hc

theorem start_ne (h : InHand mm c b R) {a : Block} (ha : a ∈ R) {q : Nat} (hq : b.Covers q) :
    a.start ≠ q := by
  intro he
  have : a = b := h.eq_of_covers (Or.inr (Or.inr ha)) (he ▸ hq)
  exact h.fresh (this ▸ ha)

/-- Nothing on any list is inside the block in hand. -/
theorem loose_inside (h : InHand mm c b R) {x : Link} (hx : mm.IsHead x) {q : Nat}
    (hq : b.Covers q) : q ∉ c x := by
  intro hm
  obtain ⟨a, ha, haq⟩ := h.inv.mem_list hx hm
  have hab := h.eq_of_covers ha (haq ▸ hq)
  exact h.loose x hx (by rw [← hab, haq]; exact hm)

/-- **Cutting the block in hand.** The upper half is in hand, the lower one set aside. -/
theorem split (h : InHand mm c ⟨p, k + 1⟩ R) :
    InHand mm c ⟨p + 2 ^ k, k⟩ (insert ⟨p, k⟩ R) := by
  have hlo : (⟨p, k + 1⟩ : Block).Covers p := Block.covers_start ⟨p, k + 1⟩
  have hup : (⟨p, k + 1⟩ : Block).Covers (p + 2 ^ k) :=
    Block.covers_succ.mpr (Or.inr (Block.covers_start ⟨p + 2 ^ k, k⟩))
  have hpos := Nat.two_pow_pos k
  -- neither half was a block of the tiling before
  have hnew : ∀ a ∈ frees c ∪ insert ⟨p, k + 1⟩ R, a ≠ ⟨p, k⟩ ∧ a ≠ ⟨p + 2 ^ k, k⟩ := by
    intro a ha
    refine ⟨fun he => ?_, fun he => ?_⟩
    · have := h.eq_of_covers ha (by rw [he]; exact hlo)
      exact absurd (congrArg Block.order (he.symm.trans this)) (by simp)
    · have := h.eq_of_covers ha (by rw [he]; exact hup)
      exact absurd (congrArg Block.order (he.symm.trans this)) (by simp)
  have ht := h.inv.tiling.split h.mem
  have hset : (frees c ∪ insert ⟨p, k + 1⟩ R) \ {⟨p, k + 1⟩} ∪ {⟨p, k⟩, ⟨p + 2 ^ k, k⟩}
      = frees c ∪ insert ⟨p + 2 ^ k, k⟩ (insert ⟨p, k⟩ R) := by
    ext b
    by_cases hb : b = ⟨p, k + 1⟩
    · subst hb
      have h1 := h.not_free
      have h2 := h.fresh
      simp [h1, h2]
    · simp only [Set.mem_union, Set.mem_sdiff, Set.mem_insert_iff, Set.mem_singleton_iff]
      tauto
  rw [hset] at ht
  have hord := h.inv.orders _ (Or.inl rfl)
  refine ⟨h.inv.retile ht ?_ ?_ ?_, ?_, fun x hx => h.loose_inside hx hup⟩
  · intro b hb hm
    rcases hm with hm | hm | hm
    · exact (hnew b (Or.inl hb)).2 hm
    · exact (hnew b (Or.inl hb)).1 hm
    · exact h.inv.apart b hb (Or.inr hm)
  · intro b hb
    simp only at hord
    rcases hb with hb | hb | hb
    · rw [hb]; simp only; omega
    · rw [hb]; simp only; omega
    · exact h.inv.orders b (Or.inr hb)
  · intro x hx hxf q hq
    obtain ⟨b, hb, hbq⟩ := h.inv.others x hx hxf q hq
    rcases hb with hb | hb
    · exact ⟨⟨p, k⟩, Or.inr (Or.inl rfl), by rw [← hbq, hb]⟩
    · exact ⟨b, Or.inr (Or.inr hb), hbq⟩
  · intro hm
    rcases hm with hm | hm
    · exact absurd (congrArg Block.start hm) (by simp)
    · exact (hnew _ (Or.inr (Or.inr hm))).2 rfl

/-- **Gluing.** Both halves in hand make the whole. -/
theorem merge {l : Nat} (h : BuddyInv mm c (insert ⟨l, k⟩ (insert ⟨l + 2 ^ k, k⟩ R)))
    (h1 : (⟨l, k⟩ : Block) ∉ R) (h2 : (⟨l + 2 ^ k, k⟩ : Block) ∉ R)
    (hl1 : ∀ x, mm.IsHead x → l ∉ c x) (hl2 : ∀ x, mm.IsHead x → l + 2 ^ k ∉ c x)
    (ha : 2 ^ (k + 1) ∣ l) (hk : k < maxOrder) : InHand mm c ⟨l, k + 1⟩ R := by
  have hm1 : (⟨l, k⟩ : Block) ∈ frees c ∪ insert ⟨l, k⟩ (insert ⟨l + 2 ^ k, k⟩ R) :=
    Or.inr (Or.inl rfl)
  have hm2 : (⟨l + 2 ^ k, k⟩ : Block) ∈ frees c ∪ insert ⟨l, k⟩ (insert ⟨l + 2 ^ k, k⟩ R) :=
    Or.inr (Or.inr (Or.inl rfl))
  -- the whole was not a block of the tiling before
  have hnew : ∀ a ∈ frees c ∪ insert ⟨l, k⟩ (insert ⟨l + 2 ^ k, k⟩ R), a ≠ ⟨l, k + 1⟩ := by
    intro a ha' he
    have := h.eq_of_start ha' hm1 (by rw [he])
    exact absurd (congrArg Block.order (he.symm.trans this)) (by simp)
  have ht := h.tiling.merge hm1 hm2 ha
  have hset : (frees c ∪ insert ⟨l, k⟩ (insert ⟨l + 2 ^ k, k⟩ R)) \ {⟨l, k⟩, ⟨l + 2 ^ k, k⟩}
      ∪ {⟨l, k + 1⟩} = frees c ∪ insert ⟨l, k + 1⟩ R := by
    ext b
    have hf1 : (⟨l, k⟩ : Block) ∉ frees c := fun hm => h.apart _ hm (Or.inl rfl)
    have hf2 : (⟨l + 2 ^ k, k⟩ : Block) ∉ frees c := fun hm => h.apart _ hm (Or.inr (Or.inl rfl))
    by_cases hb1 : b = ⟨l, k⟩
    · subst hb1; simp [hf1, h1]
    · by_cases hb2 : b = ⟨l + 2 ^ k, k⟩
      · subst hb2; simp [hf2, h2]
      · simp only [Set.mem_union, Set.mem_sdiff, Set.mem_insert_iff, Set.mem_singleton_iff]
        tauto
  rw [hset] at ht
  refine ⟨h.retile ht ?_ ?_ ?_, ?_, hl1⟩
  · intro b hb hm
    rcases hm with hm | hm
    · exact hnew b (Or.inl hb) hm
    · exact h.apart b hb (Or.inr (Or.inr hm))
  · intro b hb
    rcases hb with hb | hb
    · rw [hb]; exact hk
    · exact h.orders b (Or.inr (Or.inr hb))
  · intro x hx hxf q hq
    obtain ⟨b, hb, hbq⟩ := h.others x hx hxf q hq
    rcases hb with hb | hb | hb
    · exact absurd hq (by rw [← hbq, hb]; exact hl1 x hx)
    · exact absurd hq (by rw [← hbq, hb]; exact hl2 x hx)
    · exact ⟨b, Or.inr hb, hbq⟩
  · exact fun hm => hnew _ (Or.inr (Or.inr (Or.inr hm))) rfl

theorem setOrder (h : InHand mm c b R) {q : Nat} (ht : (mm.bookkeep q).used = .taken)
    (f : Int → Int) : InHand (mm.updatePage q (fun q => { q with order := f q.order })) c b R :=
  ⟨h.inv.setOrder ht f, h.fresh, h.loose⟩

end InHand

/-! ## Allocation -/

/-- One turn of the split loop: the upper half goes back, the lower stays in hand. -/
theorem halve (h : InHand mm c ⟨p, k + 1⟩ R) :
    ∃ mm', pushBlockToFreeArea mm (findBuddyPfn (mm.bookkeep p).pfn k) k k = .ok mm' ∧
      InHand mm' (Function.update c (.freelist k) (c (.freelist k) ++ [p + 2 ^ k])) ⟨p, k⟩ R ∧
      (∀ q, q ≠ p + 2 ^ k → mm'.bookkeep q = mm.bookkeep q) ∧ mm.SameObj mm' := by
  have hsp := h.split
  have hk : k ≤ maxOrder := hsp.inv.orders _ (Or.inl rfl)
  have hal : 2 ^ (k + 1) ∣ p := h.inv.tiling.aligned _ h.mem
  have hpfn : findBuddyPfn (mm.bookkeep p).pfn k = p + 2 ^ k := by
    rw [h.inv.pfn p (h.inv.start_lt h.mem), findBuddyPfn, Nat.one_shiftLeft, xor_size_of_even hal]
  have hbud : (⟨p + 2 ^ k, k⟩ : Block).buddy = ⟨p, k⟩ := by
    rw [← xor_size_of_even hal]
    exact Block.buddy_buddy ⟨p, k⟩
  have hlow : (⟨p, k⟩ : Block) ∉ frees c := fun hm => hsp.inv.apart _ hm (Or.inr (Or.inl rfl))
  obtain ⟨mm', hrun, hinv, hbk, hobj⟩ := pushBlockToFreeArea_spec hsp hk (fun _ => by rw [hbud]; exact hlow)
  refine ⟨mm', by rw [hpfn]; exact hrun, ⟨hinv, ?_, ?_⟩, ?_, hobj⟩
  · intro hm
    have := h.eq_of_covers (Or.inr (Or.inr hm)) (Block.covers_start ⟨p, k + 1⟩)
    exact absurd (congrArg Block.order this) (by simp)
  · intro x hx hm
    rw [Mm.isHead_congr hobj.pool] at hx
    by_cases hxk : x = .freelist k
    · subst hxk
      rw [Function.update_self, List.mem_append, List.mem_singleton] at hm
      have hpos := Nat.two_pow_pos k
      rcases hm with hm | hm
      · exact h.loose _ hx hm
      · simp only at hm; omega
    · rw [Function.update_of_ne hxk] at hm
      exact h.loose x hx hm
  · intro q hq
    rw [hbk, Function.update_of_ne hq]

/-- The lists after `cutOffBottomHalf`: one more block on each order it passed. -/
def giveBack (c : Link → List Nat) (p order : Nat) : Nat → Link → List Nat
  | 0 => c
  | n + 1 =>
      giveBack (Function.update c (.freelist (order + n))
        (c (.freelist (order + n)) ++ [p + 2 ^ (order + n)])) p order n

theorem giveBack_others (p order : Nat) : ∀ (n : Nat) (c : Link → List Nat),
    SameOthers c (giveBack c p order n)
  | 0, _ => fun _ _ => rfl
  | n + 1, c => (SameOthers.update c (order + n) _).trans (giveBack_others p order n _)

theorem cutOffBottomHalf_spec {order : Nat} : ∀ (n : Nat) {mm : Mm} {c : Link → List Nat},
    InHand mm c ⟨p, order + n⟩ R →
    ∃ mm', cutOffBottomHalf mm p order n = .ok mm' ∧
      InHand mm' (giveBack c p order n) ⟨p, order⟩ R ∧
      (∀ a ∈ insert (⟨p, order⟩ : Block) R, mm'.bookkeep a.start = mm.bookkeep a.start) ∧
      mm.SameObj mm'
  | 0, mm, c, h => ⟨mm, rfl, h, fun _ _ => rfl, Mm.SameObj.refl mm⟩
  | n + 1, mm, c, h => by
      obtain ⟨mm₁, hrun₁, h₁, hbk₁, hobj₁⟩ := halve (k := order + n) h
      obtain ⟨mm₂, hrun₂, h₂, hbk₂, hobj₂⟩ := cutOffBottomHalf_spec n h₁
      have hpos := Nat.two_pow_pos (order + n)
      have hin : (⟨p, order + n + 1⟩ : Block).Covers (p + 2 ^ (order + n)) :=
        Block.covers_succ.mpr (Or.inr (Block.covers_start ⟨p + 2 ^ (order + n), order + n⟩))
      refine ⟨mm₂, ?_, h₂, ?_, hobj₁.trans hobj₂⟩
      · simp only [cutOffBottomHalf, hrun₁, ok_bind, hrun₂]
      · intro a ha
        refine (hbk₂ a ha).trans (hbk₁ a.start ?_)
        rcases ha with ha | ha
        · rw [ha]; simp only; omega
        · exact h.start_ne ha hin

/-- What an allocation of `order` from the list of order `i`, headed by `p`, leaves behind. -/
structure Allocates (mm : Mm) (c : Link → List Nat) (R : Set Block) (order i p : Nat)
    (mm' : Mm) (c' : Link → List Nat) : Prop where
  /-- The list it came from was the first one, at or above `order`, with anything on it. -/
  first : ∀ j, order ≤ j → j < i → c (.freelist j) = []
  le : order ≤ i ∧ i ≤ maxOrder
  /-- Its list lost its head, and every order it was cut through gained a block. -/
  lists : ∃ tl, c (.freelist i) = p :: tl ∧
    c' = giveBack (Function.update c (.freelist i) tl) p order (i - order)
  hand : InHand mm' c' ⟨p, order⟩ R
  held : Held mm' ⟨p, order⟩
  /-- Nobody else's block was touched. -/
  rest : ∀ a ∈ R, mm'.bookkeep a.start = mm.bookkeep a.start
  obj : mm.SameObj mm'

theorem Allocates.others {order i : Nat} (h : Allocates mm c R order i p mm' c') :
    SameOthers c c' := by
  obtain ⟨tl, _, hc⟩ := h.lists
  rw [hc]
  exact (SameOthers.update c i tl).trans (giveBack_others p order _ _)

/-- Either nothing at or above `order` is free and nothing happens, or a block is allocated. -/
def AllocOutcome (mm : Mm) (c : Link → List Nat) (R : Set Block) (order : Nat)
    (r : Except Fault (Option Nat × Mm)) : Prop :=
  (r = .ok (none, mm) ∧ ∀ i, order ≤ i → i ≤ maxOrder → c (.freelist i) = []) ∨
  ∃ i p mm' c', r = .ok (some p, mm') ∧ Allocates mm c R order i p mm' c'

theorem findTargetBlock_spec (h : BuddyInv mm c R) {order : Nat} :
    ∀ (n j : Nat), j + n = maxOrder + 1 → order ≤ j →
      (∀ i, order ≤ i → i < j → c (.freelist i) = []) →
      AllocOutcome mm c R order (findTargetBlock mm order (List.range' j n))
  | 0, j, hj, _, hempty => by
      refine Or.inl ⟨rfl, fun i hi hi9 => hempty i hi (by omega)⟩
  | n + 1, j, hj, hoj, hempty => by
      have hj9 : j ≤ maxOrder := by omega
      have hhead : mm.IsHead (.freelist j) := hj9
      rw [List.range'_succ, findTargetBlock]
      cases hc : c (.freelist j) with
      | nil =>
          rw [if_pos ((h.lists.listEmpty_iff hhead).mpr hc)]
          refine findTargetBlock_spec h n (j + 1) (by omega) (by omega) (fun i hi hij => ?_)
          by_cases hij' : i = j
          · subst hij'; exact hc
          · exact hempty i hi (by omega)
      | cons p tl =>
          have hne : ¬ listEmpty mm.links (.freelist j) = true := by
            rw [h.lists.listEmpty_iff hhead, hc]; simp
          rw [if_neg hne]
          obtain ⟨d, rfl⟩ : ∃ d, j = order + d := ⟨j - order, by omega⟩
          have hnext := h.lists.next_head hhead hc
          obtain ⟨mm₁, hrun₁, h₁, hbk₁, hobj₁⟩ :=
            popBlockFromFreeArea_spec h hj9 (p := p) (by rw [hc]; simp)
          rw [hc, List.erase_cons_head] at h₁
          have htaken : (mm₁.bookkeep p).used = .taken := by rw [hbk₁]; simp
          have h₂ := h₁.setOrder htaken (fun _ => (order : Int))
          obtain ⟨mm₃, hrun₃, h₃, hbk₃, hobj₃⟩ := cutOffBottomHalf_spec d h₂
          refine Or.inr ⟨order + d, p, mm₃, _, ?_, hempty, ⟨by omega, hj9⟩, ⟨tl, hc, rfl⟩, ?_, ?_,
            ?_, ?_⟩
          · simp only [hnext, Link.toPage, hrun₁, ok_bind, Nat.add_sub_cancel_left, hrun₃]
          · rw [Nat.add_sub_cancel_left]; exact h₃
          · have hp := hbk₃ ⟨p, order⟩ (Or.inl rfl)
            simp only at hp
            simp [Held, hp, htaken]
          · intro a ha
            have hap : a.start ≠ p := h₁.start_ne ha (Block.covers_start ⟨p, order + d⟩)
            rw [hbk₃ a (Or.inr ha), Mm.updatePage_ne _ _ _ _ hap, hbk₁, Function.update_of_ne hap]
          · exact hobj₁.trans ((Mm.sameObj_setOrder mm₁ p (fun _ => order)).trans hobj₃)

/-- **Allocation.** An order out of range is refused; otherwise the outcome is `AllocOutcome`. -/
theorem buddyBlockAlloc_spec (h : BuddyInv mm c R) (order : Nat) (ho : order ≤ maxOrder) :
    AllocOutcome mm c R order (buddyBlockAlloc mm order) := by
  have hrange : ¬ ((order : Int) < 0 ∨ (order : Int) > maxOrder) := by omega
  rw [buddyBlockAlloc, if_neg hrange, Int.toNat_natCast]
  exact findTargetBlock_spec h _ order (by omega) (Nat.le_refl _) (fun i h1 h2 => by omega)

theorem buddyBlockAlloc_refused {order : Int} (ho : order < 0 ∨ order > maxOrder) :
    buddyBlockAlloc mm order = .ok (none, mm) := by
  rw [buddyBlockAlloc, if_pos ho]

/-! ## Freeing -/

theorem findLbuddyPfn_eq (hp : p < pageFrameNum) (h : 2 ^ k ∣ p) :
    findLbuddyPfn p k = if 2 ^ (k + 1) ∣ p then p else p - 2 ^ k := by
  have hp' : p < 2 ^ 32 := Nat.lt_trans hp (by decide)
  rw [findLbuddyPfn, Nat.one_shiftLeft]
  exact and_not_size hp' h

/-- One turn of the coalescing loop: block and buddy in hand become the left one, a size up. -/
theorem glue (h : InHand mm c ⟨p ^^^ 2 ^ k, k⟩ (insert ⟨p, k⟩ R)) (hR : (⟨p, k⟩ : Block) ∉ R)
    (hloose : ∀ x, mm.IsHead x → p ∉ c x) (hk : k < maxOrder) :
    InHand mm c ⟨findLbuddyPfn p k, k + 1⟩ R ∧
      (findLbuddyPfn p k = p ∨ findLbuddyPfn p k = p ^^^ 2 ^ k) := by
  have hm : (⟨p, k⟩ : Block) ∈ frees c ∪ insert ⟨p ^^^ 2 ^ k, k⟩ (insert ⟨p, k⟩ R) :=
    Or.inr (Or.inr (Or.inl rfl))
  have hal : 2 ^ k ∣ p := h.inv.tiling.aligned _ hm
  have hpN : p < pageFrameNum := h.inv.start_lt hm
  rw [findLbuddyPfn_eq hpN hal]
  by_cases heven : 2 ^ (k + 1) ∣ p
  · -- `p` is the left half
    rw [xor_size_of_even heven] at h
    rw [if_pos heven]
    refine ⟨InHand.merge ?_ hR ?_ hloose h.loose heven hk, Or.inl rfl⟩
    · rw [Set.insert_comm]; exact h.inv
    · exact fun hm' => h.fresh (Or.inr hm')
  · -- the buddy is the left half
    obtain ⟨hx, hle, hdvd⟩ := xor_size_of_odd hal heven
    rw [hx] at h ⊢
    rw [if_neg heven]
    have hback : p - 2 ^ k + 2 ^ k = p := Nat.sub_add_cancel hle
    refine ⟨InHand.merge ?_ ?_ ?_ h.loose ?_ hdvd hk, Or.inr rfl⟩
    · rw [hback]; exact h.inv
    · exact fun hm' => h.fresh (Or.inr hm')
    · rw [hback]; exact hR
    · rw [hback]; exact hloose

theorem coalesce_spec : ∀ (fuel : Nat) {mm : Mm} {c : Link → List Nat} {p k : Nat},
    InHand mm c ⟨p, k⟩ R → Held mm ⟨p, k⟩ → maxOrder - k ≤ fuel →
    ∃ q j mm' c', coalesce fuel mm p = .ok (q, mm') ∧ InHand mm' c' ⟨q, j⟩ R ∧ Held mm' ⟨q, j⟩ ∧
      (j < maxOrder → (⟨q, j⟩ : Block).buddy ∉ frees c') ∧ SameOthers c c' ∧
      (∀ a ∈ R, mm'.bookkeep a.start = mm.bookkeep a.start) ∧ mm.SameObj mm'
  | 0, mm, c, p, k, h, hheld, hfuel =>
      ⟨p, k, mm, c, rfl, h, hheld, fun hk => by omega, fun _ _ => rfl, fun _ _ => rfl,
        Mm.SameObj.refl mm⟩
  | fuel + 1, mm, c, p, k, h, hheld, hfuel => by
      have hpN : p < pageFrameNum := h.inv.start_lt h.mem
      have hk9 : k ≤ maxOrder := h.inv.orders _ (Or.inl rfl)
      have hord : (mm.bookkeep p).order = k := hheld.2
      have hbuddy : findBuddyPfn (mm.bookkeep p).pfn ((mm.bookkeep p).order).toNat = p ^^^ 2 ^ k := by
        rw [h.inv.pfn p hpN, hord, Int.toNat_natCast, findBuddyPfn, Nat.one_shiftLeft]
      have hbN : k < maxOrder → p ^^^ 2 ^ k < pageFrameNum := fun hk =>
        Nat.xor_lt_two_pow (n := 12) hpN (Nat.pow_lt_pow_right (by decide) (by unfold maxOrder at hk; omega))
      simp only [coalesce, hbuddy]
      by_cases hcond : (mm.bookkeep p).order < maxOrder ∧
          (mm.bookkeep p).order = (mm.bookkeep (p ^^^ 2 ^ k)).order ∧
          (mm.bookkeep (p ^^^ 2 ^ k)).used = .free
      · rw [if_pos hcond]
        obtain ⟨hlt, hsame, hfree⟩ := hcond
        have hk : k < maxOrder := by omega
        have hbo : (mm.bookkeep (p ^^^ 2 ^ k)).order = k := hsame.symm.trans hord
        have hmem : p ^^^ 2 ^ k ∈ c (.freelist k) :=
          (mem_frees hk9).mp ((h.inv.flag _ (hbN hk) k).mp ⟨hfree, hbo⟩)
        have hne : p ≠ p ^^^ 2 ^ k := fun he =>
          Block.buddy_ne ⟨p, k⟩ (by simp only [Block.buddy, ← he])
        obtain ⟨mm₁, hrun₁, h₁, hbk₁, hobj₁⟩ := popBlockFromFreeArea_spec h.inv hk9 hmem
        have hloose₁ : ∀ x, mm₁.IsHead x → p ∉
            Function.update c (.freelist k) ((c (.freelist k)).erase (p ^^^ 2 ^ k)) x := by
          intro x hx hm
          rw [Mm.isHead_congr hobj₁.pool] at hx
          by_cases hxk : x = .freelist k
          · subst hxk
            rw [Function.update_self] at hm
            exact h.loose _ hx (List.mem_of_mem_erase hm)
          · rw [Function.update_of_ne hxk] at hm
            exact h.loose x hx hm
        obtain ⟨h₂, hl⟩ := glue h₁ h.fresh hloose₁ hk
        have hp₁ : mm₁.bookkeep p = mm.bookkeep p := by rw [hbk₁, Function.update_of_ne hne]
        -- either half is taken and of order `k` by now
        have hleft : (mm₁.bookkeep (findLbuddyPfn p k)).used = .taken ∧
            (mm₁.bookkeep (findLbuddyPfn p k)).order = k := by
          rcases hl with hl | hl
          · rw [hl, hp₁]; exact hheld
          · rw [hl, hbk₁]; simp [hbo]
        have h₃ := h₂.setOrder hleft.1 (fun o => o + 1)
        have hheld₃ : Held (mm₁.updatePage (findLbuddyPfn p k)
            (fun q => { q with order := q.order + 1 })) ⟨findLbuddyPfn p k, k + 1⟩ := by
          refine ⟨?_, ?_⟩
          · simp [hleft.1]
          · simp [hleft.2]
        obtain ⟨q, j, mm₄, c₄, hrun₄, h₄, hheld₄, hexit, hoth, hrest, hobj₄⟩ :=
          coalesce_spec fuel h₃ hheld₃ (by omega)
        refine ⟨q, j, mm₄, c₄, ?_, h₄, hheld₄, hexit, (SameOthers.update c k _).trans hoth, ?_, ?_⟩
        · simp only [hbo, hord, Int.toNat_natCast, hrun₁, ok_bind, hp₁, h.inv.pfn p hpN, hrun₄]
        · intro a ha
          have hal : a.start ≠ findLbuddyPfn p k :=
            h₂.start_ne ha (Block.covers_start ⟨findLbuddyPfn p k, k + 1⟩)
          have hab : a.start ≠ p ^^^ 2 ^ k :=
            h₁.start_ne (Or.inr ha) (Block.covers_start ⟨p ^^^ 2 ^ k, k⟩)
          rw [hrest a ha, Mm.updatePage_ne _ _ _ _ hal, hbk₁, Function.update_of_ne hab]
        · exact hobj₁.trans ((Mm.sameObj_setOrder mm₁ _ (fun o => o + 1)).trans hobj₄)
      · rw [if_neg hcond]
        refine ⟨p, k, mm, c, rfl, h, hheld, fun hk hm => hcond ?_, fun _ _ => rfl, fun _ _ => rfl,
          Mm.SameObj.refl mm⟩
        -- a free buddy would have let the loop go on
        obtain ⟨hu, ho⟩ := (h.inv.flag _ (hbN hk) k).mpr hm
        exact ⟨by omega, hord.trans ho.symm, hu⟩

/-- **Freeing** a held block that is on no list. -/
theorem buddyBlockFree_spec (h : InHand mm c b R) (hheld : Held mm b) :
    ∃ mm' c', buddyBlockFree mm b.start = .ok mm' ∧ BuddyInv mm' c' R ∧ SameOthers c c' ∧
      (∀ a ∈ R, mm'.bookkeep a.start = mm.bookkeep a.start) ∧ mm.SameObj mm' := by
  have hfuel : maxOrder - b.order ≤ (maxOrder - (mm.bookkeep b.start).order).toNat := by
    rw [hheld.2]; omega
  obtain ⟨q, j, mm₁, c₁, hrun₁, h₁, hheld₁, hexit, hoth₁, hrest₁, hobj₁⟩ :=
    coalesce_spec _ h hheld hfuel
  obtain ⟨mm₂, hrun₂, h₂, hbk₂, hobj₂⟩ :=
    pushBlockToFreeArea_spec h₁ (h₁.inv.orders _ (Or.inl rfl)) hexit
  have hj : (mm₁.bookkeep q).order = j := hheld₁.2
  refine ⟨mm₂, _, ?_, h₂, hoth₁.trans (SameOthers.update c₁ j _), ?_, hobj₁.trans hobj₂⟩
  · simp only [buddyBlockFree, hrun₁, ok_bind, hj, Int.toNat_natCast, hrun₂]
  · intro a ha
    have haq : a.start ≠ q := h₁.start_ne ha (Block.covers_start ⟨q, j⟩)
    rw [hbk₂, Function.update_of_ne haq, hrest₁ a ha]

end OsdiKernel
