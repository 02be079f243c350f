import OsdiKernel.Mm.SlabFrame

/-!
# `obj_allocate` keeps the invariant

First a current page is found, by one of four ways; then an object is taken from
it, and if that was the last the page goes to the full list. The only way to
fail is to need a page from the buddy allocator that has none, and then
`obj_allocate` faults.
-/

namespace OsdiKernel

variable {mm mm' : Mm} {c c' : Link → List Nat} {live : List Live} {x : Link} {t p : Nat}

/-- The page at the front of a list. -/
def firstPage (mm : Mm) (x : Link) : Option Nat :=
  if listEmpty mm.links x then none else (Link.toPage (mm.links.next x)).toOption

/-- The page `obj_allocate(t)` will serve from, if it need not ask for one. -/
def servingPage (mm : Mm) (t : Nat) : Option Nat :=
  (mm.objAllocPool t).currPage.or
    ((firstPage mm (.partialList t)).or (firstPage mm (.emptyList t)))

/-- There is a free block of at least this order. -/
def hasFree (mm : Mm) (order : Nat) : Bool :=
  (List.range' order (maxOrder + 1 - order)).any (fun k => !listEmpty mm.links (.freelist k))

theorem hasFree_iff {H : Set Block} (h : BuddyInv mm c H) {order : Nat} :
    hasFree mm order = true ↔ ∃ k, order ≤ k ∧ k ≤ maxOrder ∧ c (.freelist k) ≠ [] := by
  have hk : ∀ k, k ≤ maxOrder → ((!listEmpty mm.links (.freelist k)) = true ↔ c (.freelist k) ≠ []) := by
    intro k hk
    have := h.lists.listEmpty_iff (BuddyInv.isHead_freelist hk)
    rw [Ne, ← this]
    simp
  rw [hasFree, List.any_eq_true]
  constructor
  · intro hx
    obtain ⟨k, hm, he⟩ := hx
    obtain ⟨h1, h2⟩ := List.mem_range'_1.mp hm
    exact ⟨k, h1, by omega, (hk k (by omega)).mp he⟩
  · intro hx
    obtain ⟨k, h1, h2, he⟩ := hx
    exact ⟨k, List.mem_range'_1.mpr ⟨h1, by omega⟩, (hk k h2).mpr he⟩

theorem hasFree_false {H : Set Block} (h : BuddyInv mm c H) {order : Nat}
    (hn : ∀ k, order ≤ k → k ≤ maxOrder → c (.freelist k) = []) : hasFree mm order = false := by
  rw [Bool.eq_false_iff, Ne, hasFree_iff h]
  intro hx
  obtain ⟨k, h1, h2, he⟩ := hx
  exact he (hn k h1 h2)

theorem firstPage_eq (h : PageLists mm.links mm.IsHead c) (hx : mm.IsHead x) :
    firstPage mm x = (c x).head? := by
  cases hc : c x with
  | nil => simp [firstPage, (h.listEmpty_iff hx).mpr hc]
  | cons p tl =>
      have hne : ¬ listEmpty mm.links x = true := by
        rw [h.listEmpty_iff hx, hc]; simp
      simp [firstPage, hne, h.next_head hx hc, Link.toPage, Except.toOption]

/-! ## What is held -/

theorem heldBlocks_congr (h : ∀ q, (mm'.bookkeep q).objAlloc = (mm.bookkeep q).objAlloc) :
    heldBlocks mm' live = heldBlocks mm live := by
  unfold heldBlocks
  simp only [h]

theorem heldBlocks_cons_slab {e : Live} (he : e.owner = .slab t) :
    heldBlocks mm (e :: live) = heldBlocks mm live := by
  ext b
  simp [heldBlocks, he]

/-- A page that came to be owned is a held block. -/
theorem heldBlocks_insert (hp : (mm'.bookkeep p).objAlloc = some t)
    (hq : ∀ q, q ≠ p → (mm'.bookkeep q).objAlloc = (mm.bookkeep q).objAlloc)
    (hn : (mm.bookkeep p).objAlloc = none) :
    heldBlocks mm' live = insert ⟨p, 0⟩ (heldBlocks mm live) := by
  ext b
  obtain ⟨q, k⟩ := b
  simp only [heldBlocks, Set.mem_ofPred_eq, Set.mem_insert_iff, Block.mk.injEq]
  by_cases hqp : q = p
  · subst hqp
    simp only [hp, hn]
    simp
  · rw [hq q hqp]
    simp [hqp]

namespace SlabInv

theorem isHead_of (ht : mm.Registered t) (hx : x = .fullList t ∨ x = .partialList t ∨ x = .emptyList t) :
    mm.IsHead x := by
  rcases hx with hx | hx | hx <;> (subst hx; exact ht)

theorem owned_of_curr (h : SlabInv mm c live) (ht : mm.Registered t)
    (hc : (mm.objAllocPool t).currPage = some p) : (mm.bookkeep p).objAlloc = some t :=
  ((h.token t ht).owned p).mp (by simp [tokenPages, hc])

theorem owned_of_list (h : SlabInv mm c live) (ht : mm.Registered t)
    (hx : x = .fullList t ∨ x = .partialList t ∨ x = .emptyList t) (hp : p ∈ c x) :
    (mm.bookkeep p).objAlloc = some t := by
  refine ((h.token t ht).owned p).mp ?_
  rcases hx with hx | hx | hx <;> (subst hx; simp [tokenPages, hp])

/-- An allocator's current page is on no list. -/
theorem curr_loose (h : SlabInv mm c live) (ht : mm.Registered t)
    (hc : (mm.objAllocPool t).currPage = some p) : ∀ x, mm.IsHead x → p ∉ c x := by
  have hown := h.owned_of_curr ht hc
  have hnd := (h.token t ht).nodup
  simp only [tokenPages, hc, Option.toList_some, List.singleton_append, List.nodup_cons,
    List.mem_append, not_or] at hnd
  obtain ⟨⟨hf, hpa, he⟩, _⟩ := hnd
  intro x hx hm
  cases x with
  | frame q => exact hx
  | freelist k =>
      have hfree : (⟨p, k⟩ : Block) ∈ frees c := (mem_frees hx).mpr hm
      have hheld : (⟨p, 0⟩ : Block) ∈ heldBlocks mm live := Or.inl ⟨rfl, by simp [hown]⟩
      have heq := h.buddy.eq_of_start (Or.inl hfree) (Or.inr hheld) rfl
      exact h.buddy.apart _ hfree (heq ▸ hheld)
  | fullList u =>
      have := (h.owned_of_list hx (Or.inl rfl) hm).symm.trans hown
      exact hf (Option.some.inj this ▸ hm)
  | partialList u =>
      have := (h.owned_of_list hx (Or.inr (Or.inl rfl)) hm).symm.trans hown
      exact hpa (Option.some.inj this ▸ hm)
  | emptyList u =>
      have := (h.owned_of_list hx (Or.inr (Or.inr rfl)) hm).symm.trans hown
      exact he (Option.some.inj this ▸ hm)

theorem servingPage_eq (h : SlabInv mm c live) (ht : mm.Registered t) :
    servingPage mm t = (mm.objAllocPool t).currPage.or
      ((c (.partialList t)).head?.or (c (.emptyList t)).head?) := by
  have h1 := firstPage_eq (x := .partialList t) h.buddy.lists ht
  have h2 := firstPage_eq (x := .emptyList t) h.buddy.lists ht
  rw [servingPage, h1, h2]

end SlabInv

/-! ## Finding a current page -/

/-- What finding a current page leaves: page `p`, as it was or fresh. -/
structure Refilled (mm mm' : Mm) (c c' : Link → List Nat) (live : List Live) (t p : Nat) : Prop where
  inv : SlabInv mm' c' live
  curr : (mm'.objAllocPool t).currPage = some p
  touches : Touches mm mm' c c' t p
  source : (servingPage mm t = some p ∧ mm'.bookkeep p = mm.bookkeep p) ∨
    (servingPage mm t = none ∧ hasFree mm 0 = true ∧ (mm.bookkeep p).objAlloc = none ∧
      (mm'.bookkeep p).free = none ∧ (mm'.bookkeep p).objUsed = 0)

/-- Using a page off the partial or the empty list. -/
theorem refill_takeFirst (h : SlabInv mm c live) (ht : mm.Registered t)
    (hn : (mm.objAllocPool t).currPage = none) (hx : x = .partialList t ∨ x = .emptyList t)
    {tl : List Nat} (hc : c x = p :: tl) :
    ∃ mm₁, takeFirst mm x = .ok (p, mm₁) ∧
      ∃ c', SlabInv (mm₁.updatePool t (fun a => { a with currPage := some p })) c' live ∧
        Touches mm (mm₁.updatePool t (fun a => { a with currPage := some p })) c c' t p ∧
        mm₁.bookkeep = mm.bookkeep := by
  have hx' : x = .fullList t ∨ x = .partialList t ∨ x = .emptyList t := Or.inr hx
  have hhead := SlabInv.isHead_of ht hx'
  have hxf : ∀ k, x ≠ .freelist k := by
    intro k; rcases hx with hx | hx <;> simp [hx]
  have hmem : p ∈ c x := by rw [hc]; simp
  have hown := h.owned_of_list ht hx' hmem
  have htok := h.token t ht
  obtain ⟨l, hrun, hb, hloose⟩ := h.buddy.takeOff hhead hxf hmem
  rw [hc, List.erase_cons_head] at hb
  have hT : Touches mm (({ mm with links := l } : Mm).updatePool t (fun a => { a with currPage := some p }))
      c (Function.update c x tl) t p :=
    (Touches.relist mm c p l tl hx').trans (Touches.updatePool _ _ t p (fun _ => ⟨rfl, rfl⟩))
  have hheldEq : heldBlocks (({ mm with links := l } : Mm).updatePool t
      (fun a => { a with currPage := some p })) live = heldBlocks mm live := rfl
  have hpage : (mm.bookkeep p).objUsed < (mm.objAllocPool t).objPerPage := by
    obtain ⟨n, hn8, hn, _, hper⟩ := htok.size
    have hpos : 0 < 4096 / n := Nat.div_pos (by omega) (by omega)
    rcases hx with hx | hx
    · subst hx
      exact (htok.part p hmem).2
    · subst hx
      have := htok.empty p hmem
      omega
  refine ⟨{ mm with links := l }, ?_, _, h.touched hT ht (h.lt_of_owned hown) ?_ ?_ ?_ ?_ ?_ ?_, hT, rfl⟩
  · simp only [takeFirst, h.buddy.lists.next_head hhead hc, Link.toPage, ok_bind, hrun]
  · exact hb.congr rfl rfl hT.isHead (fun _ => ⟨rfl, rfl, rfl, fun _ => rfl⟩)
  · rw [hheldEq]
    exact h.held
  · refine htok.shift hT (d := 0) ?_ hown hown (by simp) (by simp) (by simp) ?_ ?_ ?_ ?_
    · refine List.perm_iff_count.mpr (fun q => ?_)
      rcases hx with hx | hx <;>
        (subst hx
         simp [tokenPages, hn, hc, List.count_cons]
         omega)
    · intro q hq
      simp only [Mm.updatePool_self, Option.some.injEq] at hq
      exact hq ▸ hpage
    · intro q hq
      rw [Function.update_of_ne (by rcases hx with hx | hx <;> simp [hx])] at hq
      exact htok.full q hq
    · intro q hq
      refine htok.part q ?_
      by_cases hxp : Link.partialList t = x
      · rw [← hxp, Function.update_self] at hq
        rw [hxp, hc]
        exact List.mem_cons_of_mem _ hq
      · rwa [Function.update_of_ne hxp] at hq
    · intro q hq
      refine htok.empty q ?_
      by_cases hxe : Link.emptyList t = x
      · rw [← hxe, Function.update_self] at hq
        rw [hxe, hc]
        exact List.mem_cons_of_mem _ hq
      · rwa [Function.update_of_ne hxe] at hq
  · intro u hu
    have hne : (mm.bookkeep p).objAlloc ≠ some u := by
      rw [hown]
      exact fun he => hu (Option.some.inj he).symm
    exact ⟨hne, hne⟩
  · exact (h.page p (h.lt_of_owned hown)).congr ⟨rfl, rfl, rfl⟩ (fun u hu => (hT.registered u).mpr hu)
      (fun u a _ ha => hT.objAddr.mpr ha)
  · exact fun _ _ => rfl

/-- The page is the allocator's, with nothing on it. -/
theorem PageInv.new (ht : mm.Registered t) (hp : (mm.bookkeep p).objUsed = 0 ∧ (mm.bookkeep p).objAlloc = some t ∧
    (mm.bookkeep p).free = none) : PageInv mm p [] := by
  obtain ⟨hused, hown, hfree⟩ := hp
  refine ⟨?_, ?_, ?_, ?_⟩
  · intro u hu
    rw [hown] at hu
    exact Option.some.inj hu ▸ ht
  · intro u a _ hf
    rw [hfree] at hf
    exact absurd hf (by simp)
  · exact fun u _ => ⟨hused, fun e he => absurd he (by simp)⟩
  · intro hno
    rw [hown] at hno
    exact absurd hno (by simp)

/-- An allocator that had only full pages gets a new one, which becomes the current one. -/
theorem TokenInv.newPage (h : TokenInv mm c t) (hT : Touches mm mm' c c' t p) (hc : SameOthers c c')
    (hn : (mm.objAllocPool t).currPage = none) (hl : c (.partialList t) = [] ∧ c (.emptyList t) = [])
    (hoa : (mm.bookkeep p).objAlloc = none)
    (hpool : mm'.objAllocPool t = { mm.objAllocPool t with
      pageUsed := (mm.objAllocPool t).pageUsed + 1, currPage := some p })
    (hp : (mm'.bookkeep p).objUsed = 0 ∧ (mm'.bookkeep p).objAlloc = some t) : TokenInv mm' c' t := by
  have hl1 : c' (.fullList t) = c (.fullList t) := hc _ (by simp)
  have hl2 : c' (.partialList t) = [] := (hc _ (by simp)).trans hl.1
  have hl3 : c' (.emptyList t) = [] := (hc _ (by simp)).trans hl.2
  have hpages : tokenPages mm' c' t = p :: tokenPages mm c t := by
    simp [tokenPages, hpool, hl1, hl2, hl3, hn, hl]
  have hnew : p ∉ tokenPages mm c t := by
    rw [h.owned, hoa]
    simp
  have hsame : ∀ q ∈ tokenPages mm c t, (mm'.bookkeep q).objUsed = (mm.bookkeep q).objUsed :=
    fun q hqm => (hT.page q (fun he => hnew (he ▸ hqm))).1
  refine ⟨?_, ?_, ?_, ?_, ?_, ?_, ?_, ?_, ?_⟩
  · rw [hpool]; exact h.size
  · intro q
    rw [hpages, List.mem_cons, h.owned]
    by_cases hqp : q = p
    · subst hqp; simp [hp.2]
    · rw [(hT.page q hqp).2.1]
      simp [hqp]
  · rw [hpages]; exact List.nodup_cons.mpr ⟨hnew, h.nodup⟩
  · rw [hpages, hpool, List.length_cons]
    simp [h.pageUsed]
  · rw [hpages, hpool, List.map_cons, List.sum_cons, List.map_congr_left hsame, hp.1]
    simp [h.objUsed]
  · -- a page holds two objects at least, so an empty one has room
    intro q hqc
    rw [hpool] at hqc ⊢
    obtain ⟨n, hn8, hn', _, hper⟩ := h.size
    have hpos : 0 < 4096 / n := Nat.div_pos (by omega) (by omega)
    rw [← Option.some.inj hqc, hp.1]
    simp only [hper]
    exact_mod_cast hpos
  · intro q hqf
    rw [hl1] at hqf
    rw [hpool, hsame q (by simp [tokenPages, hqf])]
    exact h.full q hqf
  · intro q hqp
    rw [hl2] at hqp
    exact absurd hqp (by simp)
  · intro q hqe
    rw [hl3] at hqe
    exact absurd hqe (by simp)

/-- Asking the buddy allocator for a page, which becomes the current one. -/
theorem refill_demandPage (h : SlabInv mm c live) (ht : mm.Registered t)
    (hn : (mm.objAllocPool t).currPage = none) (hs : servingPage mm t = none) :
    (demandPage mm t = .error .nullDeref ∧ hasFree mm 0 = false) ∨
    ∃ p mm₁ c', demandPage mm t = .ok (p, mm₁) ∧
      Refilled mm (mm₁.updatePool t (fun a => { a with currPage := some p })) c c' live t p := by
  have hempty := hs
  rw [h.servingPage_eq ht, hn, Option.none_or, Option.or_eq_none_iff, List.head?_eq_none_iff,
    List.head?_eq_none_iff] at hempty
  rcases buddyBlockAlloc_spec h.buddy 0 (by decide) with ⟨hrun, hno⟩ | ⟨i, p, mm₁, c₁, hrun, hal⟩
  · refine Or.inl ⟨?_, hasFree_false h.buddy hno⟩
    rw [Int.natCast_zero] at hrun
    simp only [demandPage, hrun, ok_bind]
  · rw [Int.natCast_zero] at hrun
    obtain ⟨hoa, hlive⟩ := h.fresh_page hal.hand
    have hpN : p < pageFrameNum := hal.hand.inv.start_lt hal.hand.mem
    let mm₂ := (initObjPage mm₁ p).updatePage p (fun q => { q with objAlloc := some t })
    let mm₃ := mm₂.updatePool t (fun a => { a with pageUsed := a.pageUsed + 1 })
    let mm' := mm₃.updatePool t (fun a => { a with currPage := some p })
    have hpool : mm'.objAllocPool t = { mm.objAllocPool t with
        pageUsed := (mm.objAllocPool t).pageUsed + 1, currPage := some p } := by
      simp [mm', mm₃, mm₂, initObjPage, hal.obj.pool]
    have hp : mm'.bookkeep p = { mm₁.bookkeep p with objUsed := 0, objAlloc := some t, free := none } := by
      simp [mm', mm₃, mm₂, initObjPage]
    have hq : ∀ q, q ≠ p → mm'.bookkeep q = mm₁.bookkeep q := by
      intro q hqp
      simp [mm', mm₃, mm₂, initObjPage, Mm.updatePage_ne _ _ _ _ hqp]
    have hT : Touches mm mm' c c₁ t p :=
      ((Touches.of_sameObj hal.obj hal.others).trans (Touches.updatePage mm₁ c₁ t p _)).trans
        ((Touches.updatePage _ c₁ t p _).trans
          ((Touches.updatePool mm₂ c₁ t p (g := fun a => { a with pageUsed := a.pageUsed + 1 })
              (fun _ => ⟨rfl, rfl⟩)).trans
            (Touches.updatePool mm₃ c₁ t p (g := fun a => { a with currPage := some p })
              (fun _ => ⟨rfl, rfl⟩))))
    -- the page joins the held blocks
    have hheldEq : heldBlocks mm' live = insert ⟨p, 0⟩ (heldBlocks mm live) :=
      heldBlocks_insert (t := t) (by rw [hp]) (fun q hqp => (hT.page q hqp).2.1) hoa
    have hb : BuddyInv mm' c₁ (heldBlocks mm' live) := by
      rw [hheldEq]
      refine hal.hand.inv.congr rfl rfl (hT.isHead.trans (Mm.isHead_congr hal.obj.pool).symm) (fun q => ?_)
      by_cases hqp : q = p
      · subst hqp; rw [hp]; exact ⟨rfl, rfl, rfl, fun _ => rfl⟩
      · rw [hq q hqp]; exact ⟨rfl, rfl, rfl, fun _ => rfl⟩
    have hheld : ∀ b ∈ heldBlocks mm' live, Held mm' b := by
      intro b hbm
      rw [hheldEq] at hbm
      rcases hbm with hbm | hbm
      · subst hbm
        have := hal.held
        rw [Held, hp]
        exact this
      · have hbp : b.start ≠ p := hal.hand.start_ne hbm (Block.covers_start ⟨p, 0⟩)
        rw [Held, hq _ hbp, hal.rest b hbm]
        exact h.held b hbm
    have htok' : TokenInv mm' c₁ t := (h.token t ht).newPage hT hal.others hn hempty hoa hpool ⟨by rw [hp], by rw [hp]⟩
    refine Or.inr ⟨p, mm₃, c₁, ?_, ?_, ?_, hT, ?_⟩
    · simp only [demandPage, hrun, ok_bind]
      rfl
    · refine h.touched hT ht hpN hb hheld htok' ?_ ?_ (fun _ _ => rfl)
      · intro u hu
        rw [hoa, hp]
        exact ⟨by simp, fun he => hu (Option.some.inj he).symm⟩
      · rw [hlive]
        exact .new ((hT.registered t).mpr ht) ⟨by rw [hp], by rw [hp], by rw [hp]⟩
    · rw [hpool]
    · obtain ⟨tl, htl, _⟩ := hal.lists
      have hfree : hasFree mm 0 = true :=
        (hasFree_iff h.buddy).mpr ⟨i, hal.le.1, hal.le.2, by rw [htl]; simp⟩
      exact Or.inr ⟨hs, hfree, hoa, by rw [hp], by rw [hp]⟩

/-- **A current page is found**, unless a page is needed and there is none. -/
theorem refillCurrPage_spec (h : SlabInv mm c live) (ht : mm.Registered t) :
    (refillCurrPage mm t = .error .nullDeref ∧ servingPage mm t = none ∧ hasFree mm 0 = false) ∨
    ∃ p mm' c', refillCurrPage mm t = .ok mm' ∧ Refilled mm mm' c c' live t p := by
  have hserve := h.servingPage_eq ht
  cases hc : (mm.objAllocPool t).currPage with
  | some p =>
      rw [hc, Option.some_or] at hserve
      refine Or.inr ⟨p, mm, c, by simp only [refillCurrPage, hc], h, hc, Touches.refl mm c t p,
        Or.inl ⟨hserve, rfl⟩⟩
  | none =>
      rw [hc, Option.none_or] at hserve
      cases hp : c (.partialList t) with
      | cons p tl =>
          have hne : listEmpty mm.links (.partialList t) = false := by
            have := h.buddy.lists.listEmpty_iff (h := .partialList t) ht
            rw [hp] at this
            simpa using this
          rw [hp, List.head?_cons, Option.some_or] at hserve
          obtain ⟨mm₁, hrun, c', hinv, hT, hbk⟩ := refill_takeFirst h ht hc (Or.inl rfl) hp
          refine Or.inr ⟨p, _, c', ?_, hinv, by simp, hT, Or.inl ⟨hserve, ?_⟩⟩
          · simp only [refillCurrPage, hc, hne, Bool.not_false, if_true, hrun, ok_bind]
          · rw [Mm.updatePool_bookkeep, hbk]
      | nil =>
          have hpe : listEmpty mm.links (.partialList t) = true :=
            (h.buddy.lists.listEmpty_iff (h := .partialList t) ht).mpr hp
          rw [hp, List.head?_nil, Option.none_or] at hserve
          cases he : c (.emptyList t) with
          | cons p tl =>
              have hne : listEmpty mm.links (.emptyList t) = false := by
                have := h.buddy.lists.listEmpty_iff (h := .emptyList t) ht
                rw [he] at this
                simpa using this
              rw [he, List.head?_cons] at hserve
              obtain ⟨mm₁, hrun, c', hinv, hT, hbk⟩ := refill_takeFirst h ht hc (Or.inr rfl) he
              refine Or.inr ⟨p, _, c', ?_, hinv, by simp, hT, Or.inl ⟨hserve, ?_⟩⟩
              · simp [refillCurrPage, hc, hpe, hne, hrun]
              · rw [Mm.updatePool_bookkeep, hbk]
          | nil =>
              have hee : listEmpty mm.links (.emptyList t) = true :=
                (h.buddy.lists.listEmpty_iff (h := .emptyList t) ht).mpr he
              rw [he, List.head?_nil] at hserve
              rcases refill_demandPage h ht hc hserve with ⟨hrun, hno⟩ | ⟨p, mm₁, c', hrun, hr⟩
              · refine Or.inl ⟨?_, hserve, hno⟩
                simp [refillCurrPage, hc, hpe, hee, hrun]
              · refine Or.inr ⟨p, _, c', ?_, hr⟩
                simp [refillCurrPage, hc, hpe, hee, hrun]

/-! ## Taking an object -/

/-- The object `obj_allocate` takes of page `p`. -/
def nextObject (mm : Mm) (t p : Nat) : Nat :=
  match (mm.bookkeep p).free with
  | some objFreelist => objFreelist
  | none => ((mm.bookkeep p).phyAddr + (mm.bookkeep p).objUsed * (mm.objAllocPool t).objsize).toNat

namespace SlabInv

theorem nextObject_addr (h : SlabInv mm c live) (ht : mm.Registered t)
    (hown : (mm.bookkeep p).objAlloc = some t)
    (hroom : (mm.bookkeep p).objUsed < (mm.objAllocPool t).objPerPage) :
    ObjAddr mm t p (nextObject mm t p) := by
  have hpN := h.lt_of_owned hown
  have hpg := h.page p hpN
  cases hf : (mm.bookkeep p).free with
  | some a =>
      simp only [nextObject, hf]
      exact hpg.chain t a hown hf
  | none =>
      obtain ⟨n, _, _, hsz, _⟩ := (h.token t ht).size
      obtain ⟨hu, _⟩ := hpg.slab t hown
      refine ⟨(onPage live p).length, hu ▸ hroom, ?_⟩
      simp only [nextObject, hf, h.buddy.addr p hpN, hu, hsz, frameAddr]
      exact Int.toNat_of_nonneg (by exact_mod_cast Nat.zero_le _)

end SlabInv

/-- The counters of page `p` and of its allocator may have changed, and the head of the page's chain; the page is where
it was. -/
structure Recounted (mm mm₁ : Mm) (c : Link → List Nat) (t p : Nat) : Prop where
  touches : Touches mm mm₁ c c t p
  links : mm₁.links = mm.links
  nrFree : mm₁.nrFree = mm.nrFree
  page : ∃ objUsed free, mm₁.bookkeep p = { mm.bookkeep p with objUsed := objUsed, free := free }
  rest : ∀ q, q ≠ p → mm₁.bookkeep q = mm.bookkeep q

namespace Recounted

variable {mm₁ : Mm}

theorem alloc (h : Recounted mm mm₁ c t p) (q : Nat) : (mm₁.bookkeep q).objAlloc = (mm.bookkeep q).objAlloc := by
  by_cases hq : q = p
  · subst hq
    obtain ⟨_, _, hp⟩ := h.page
    rw [hp]
  · rw [h.rest q hq]

theorem buddy {H : Set Block} (h : Recounted mm mm₁ c t p) (hb : BuddyInv mm c H) : BuddyInv mm₁ c H := by
  refine hb.congr h.links h.nrFree h.touches.isHead (fun q => ?_)
  by_cases hq : q = p
  · subst hq
    obtain ⟨_, _, hp⟩ := h.page
    rw [hp]
    exact ⟨rfl, rfl, rfl, fun _ => rfl⟩
  · rw [h.rest q hq]
    exact ⟨rfl, rfl, rfl, fun _ => rfl⟩

theorem held (h : Recounted mm mm₁ c t p) {b : Block} (hb : Held mm b) : Held mm₁ b := by
  by_cases hq : b.start = p
  · obtain ⟨_, _, hp⟩ := h.page
    rw [Held, hq, hp]
    rw [Held, hq] at hb
    exact hb
  · rw [Held, h.rest _ hq]
    exact hb

/-- The pages of a list the page is not on. -/
theorem off (h : Recounted mm mm₁ c t p) {xs : List Nat} (hp : p ∉ xs) {q : Nat} (hq : q ∈ xs) :
    (mm₁.bookkeep q).objUsed = (mm.bookkeep q).objUsed := by
  rw [h.rest q (fun he => hp (he ▸ hq))]

end Recounted

/-- What taking an object of page `p` leaves. -/
structure Taken (mm mm' : Mm) (c c' : Link → List Nat) (live : List Live) (t p : Nat) : Prop where
  inv : ∀ size, SlabInv mm' c' (⟨nextObject mm t p, size, .slab t⟩ :: live)
  touches : Touches mm mm' c c' t p
  page : mm'.bookkeep p = { mm.bookkeep p with objUsed := (mm.bookkeep p).objUsed + 1 }
  pfn : phyAddrToPfn (nextObject mm t p) = p

/-- Both counters go up. -/
def takeCounted (mm : Mm) (t p : Nat) : Mm :=
  (mm.updatePool t (fun a => { a with objUsed := a.objUsed + 1 })).updatePage p (fun q => { q with objUsed := q.objUsed + 1 })

theorem takeCounted_page (mm : Mm) (t p : Nat) :
    (takeCounted mm t p).bookkeep p = { mm.bookkeep p with objUsed := (mm.bookkeep p).objUsed + 1 } := by
  simp [takeCounted]

theorem takeCounted_pool (mm : Mm) (t p : Nat) :
    (takeCounted mm t p).objAllocPool t = { mm.objAllocPool t with objUsed := (mm.objAllocPool t).objUsed + 1 } := by
  simp [takeCounted]

theorem takeCounted_recounted (mm : Mm) (c : Link → List Nat) (t p : Nat) : Recounted mm (takeCounted mm t p) c t p where
  touches := (Touches.updatePool mm c t p (g := fun a => { a with objUsed := a.objUsed + 1 }) (fun _ => ⟨rfl, rfl⟩)).trans
    (Touches.updatePage _ c t p _)
  links := rfl
  nrFree := rfl
  page := ⟨_, _, takeCounted_page mm t p⟩
  rest := fun q hq => by simp [takeCounted, Mm.updatePage_ne _ _ _ _ hq]

/-- What `obj_allocate` does with a current page. -/
theorem takeObject_eq (hc : (mm.objAllocPool t).currPage = some p) :
    takeObject mm t =
      if (mm.objAllocPool t).objPerPage = (mm.bookkeep p).objUsed + 1 then do
        let mm' ← (takeCounted mm t p).onLinks (listAddTail · (.frame p) (.fullList t))
        .ok (nextObject mm t p, mm'.updatePool t (fun a => { a with currPage := none }))
      else .ok (nextObject mm t p, takeCounted mm t p) := by
  have hper : ((takeCounted mm t p).objAllocPool t).objPerPage = (mm.objAllocPool t).objPerPage := by rw [takeCounted_pool]
  have hused : ((takeCounted mm t p).bookkeep p).objUsed = (mm.bookkeep p).objUsed + 1 := by rw [takeCounted_page]
  rw [← hper, ← hused]
  simp only [takeObject, hc]
  rfl

namespace SlabInv

/-- The page, once the object is on it. -/
theorem page_taken (h : SlabInv mm c live) (ht : mm.Registered t) (hc : (mm.objAllocPool t).currPage = some p)
    (hT : Touches mm mm' c c' t p)
    (hp : mm'.bookkeep p = { mm.bookkeep p with objUsed := (mm.bookkeep p).objUsed + 1 }) (size : Int) :
    PageInv mm' p (onPage (⟨nextObject mm t p, size, .slab t⟩ :: live) p) := by
  have hown := h.owned_of_curr ht hc
  have hpN := h.lt_of_owned hown
  have haddr := h.nextObject_addr ht hown ((h.token t ht).curr p hc)
  have hpg := h.page p hpN
  rw [onPage_cons_self (e := ⟨nextObject mm t p, size, .slab t⟩) (haddr.pfn (h.token t ht) hpN)]
  refine ⟨?_, ?_, ?_, ?_⟩
  · intro u hu
    rw [hp] at hu
    exact (hT.registered u).mpr (hpg.registered u hu)
  · intro u a hu hf
    rw [hp] at hu hf
    exact hT.objAddr.mpr (hpg.chain u a hu hf)
  · intro u hu
    rw [hp] at hu
    obtain ⟨hlen, hall⟩ := hpg.slab u hu
    obtain rfl : t = u := Option.some.inj (hown.symm.trans hu)
    refine ⟨?_, fun e he => ?_⟩
    · rw [hp, List.length_cons]
      simp [hlen]
    · rcases List.mem_cons.mp he with he | he
      · subst he
        exact ⟨rfl, hT.objAddr.mpr haddr⟩
      · exact ⟨(hall e he).1, hT.objAddr.mpr (hall e he).2⟩
  · intro hn
    rw [hp] at hn
    exact absurd (hown.symm.trans hn) (by simp)

/-- When an object is taken, what is left to show is where the page went. -/
theorem taken (h : SlabInv mm c live) (ht : mm.Registered t) (hc : (mm.objAllocPool t).currPage = some p)
    (hT : Touches mm mm' c c' t p)
    (hp : mm'.bookkeep p = { mm.bookkeep p with objUsed := (mm.bookkeep p).objUsed + 1 })
    (hb : BuddyInv mm' c' (heldBlocks mm live)) (hheld : ∀ b, Held mm b → Held mm' b) (htok : TokenInv mm' c' t) :
    Taken mm mm' c c' live t p := by
  have hown := h.owned_of_curr ht hc
  have hpN := h.lt_of_owned hown
  have hpfn := (h.nextObject_addr ht hown ((h.token t ht).curr p hc)).pfn (h.token t ht) hpN
  have hne : ∀ u, u ≠ t → (mm.bookkeep p).objAlloc ≠ some u := by
    intro u hu
    rw [hown]
    exact fun he => hu (Option.some.inj he).symm
  have heq : ∀ size, heldBlocks mm' (⟨nextObject mm t p, size, .slab t⟩ :: live) = heldBlocks mm live := by
    intro size
    rw [heldBlocks_cons_slab (t := t) rfl]
    refine heldBlocks_congr (fun q => ?_)
    by_cases hq : q = p
    · subst hq
      rw [hp]
    · exact (hT.page q hq).2.1
  refine ⟨fun size => h.touched hT ht hpN (heq size ▸ hb) ?_ htok ?_ (h.page_taken ht hc hT hp size) ?_, hT, hp, hpfn⟩
  · intro b hbm
    rw [heq size] at hbm
    exact hheld b (h.held b hbm)
  · exact fun u hu => ⟨hne u hu, by rw [hp]; exact hne u hu⟩
  · exact fun q hq => onPage_cons_ne (fun he => hq (he.symm.trans hpfn))

/-- The last object of its page is taken, and the page goes to the full list. -/
theorem takeObject_full (h : SlabInv mm c live) (ht : mm.Registered t) (hc : (mm.objAllocPool t).currPage = some p)
    (hfull : (mm.objAllocPool t).objPerPage = (mm.bookkeep p).objUsed + 1) :
    ∃ mm' c', takeObject mm t = .ok (nextObject mm t p, mm') ∧ Taken mm mm' c c' live t p := by
  have hown := h.owned_of_curr ht hc
  have htok := h.token t ht
  have hloose := h.curr_loose ht hc
  have hr := takeCounted_recounted mm c t p
  have hoff : ∀ x q, mm.IsHead x → q ∈ c x → ((takeCounted mm t p).bookkeep q).objUsed = (mm.bookkeep q).objUsed :=
    fun x q hx hq => hr.off (hloose x hx) hq
  obtain ⟨l, hrun, hb⟩ := (hr.buddy h.buddy).putOn (x := .fullList t) (p := p) (by rw [hr.touches.isHead]; exact ht) (by simp)
    ⟨⟨p, 0⟩, Or.inl ⟨rfl, by simp [hown]⟩, rfl⟩ (by rw [hr.touches.isHead]; exact hloose)
  let mm₂ := ({ takeCounted mm t p with links := l } : Mm).updatePool t (fun a => { a with currPage := none })
  have hT : Touches mm mm₂ c (Function.update c (.fullList t) (c (.fullList t) ++ [p])) t p :=
    hr.touches.trans ((Touches.relist _ c p l _ (Or.inl rfl)).trans
      (Touches.updatePool _ _ t p (g := fun a => { a with currPage := none }) (fun _ => ⟨rfl, rfl⟩)))
  have hpool : mm₂.objAllocPool t = { mm.objAllocPool t with
      objUsed := (mm.objAllocPool t).objUsed + 1, currPage := none } := by
    simp [mm₂, takeCounted_pool]
  have hp : mm₂.bookkeep p = { mm.bookkeep p with objUsed := (mm.bookkeep p).objUsed + 1 } := takeCounted_page mm t p
  refine ⟨mm₂, _, ?_, h.taken ht hc hT hp ?_ (fun b => hr.held) ?_⟩
  · rw [takeObject_eq hc, if_pos hfull, hrun]
    rfl
  · exact hb.congr rfl rfl (hT.isHead.trans hr.touches.isHead.symm) (fun _ => ⟨rfl, rfl, rfl, fun _ => rfl⟩)
  · refine htok.shift hT (d := 1) ?_ hown ?_ (congrArg Page.objUsed hp) (by rw [hpool]) (by rw [hpool]) ?_ ?_ ?_ ?_
    · -- the current page is on the full list now
      refine List.perm_iff_count.mpr (fun q => ?_)
      simp [tokenPages, hpool, hc, List.count_cons]
      omega
    · exact (congrArg Page.objAlloc hp).trans hown
    · intro q hq
      rw [hpool] at hq
      exact absurd hq (by simp)
    · intro q hq
      rw [Function.update_self, List.mem_append, List.mem_singleton] at hq
      rcases hq with hq | hq
      · exact (hoff (.fullList t) q ht hq).trans (htok.full q hq)
      · rw [hq]
        exact (congrArg Page.objUsed hp).trans hfull.symm
    · intro q hq
      rw [Function.update_of_ne (by simp)] at hq
      have := hoff (.partialList t) q ht hq
      exact ⟨this ▸ (htok.part q hq).1, this ▸ (htok.part q hq).2⟩
    · intro q hq
      rw [Function.update_of_ne (by simp)] at hq
      exact (hoff (.emptyList t) q ht hq).trans (htok.empty q hq)

/-- Objects are left, and the page stays. -/
theorem takeObject_room (h : SlabInv mm c live) (ht : mm.Registered t) (hc : (mm.objAllocPool t).currPage = some p)
    (hfull : ¬ (mm.objAllocPool t).objPerPage = (mm.bookkeep p).objUsed + 1) :
    ∃ mm' c', takeObject mm t = .ok (nextObject mm t p, mm') ∧ Taken mm mm' c c' live t p := by
  have hown := h.owned_of_curr ht hc
  have htok := h.token t ht
  have hroom := htok.curr p hc
  have hr := takeCounted_recounted mm c t p
  have hp := takeCounted_page mm t p
  have hpool := takeCounted_pool mm t p
  have hoff : ∀ x q, mm.IsHead x → q ∈ c x → ((takeCounted mm t p).bookkeep q).objUsed = (mm.bookkeep q).objUsed :=
    fun x q hx hq => hr.off (h.curr_loose ht hc x hx) hq
  refine ⟨takeCounted mm t p, c, ?_, h.taken ht hc hr.touches hp (hr.buddy h.buddy) (fun b => hr.held) ?_⟩
  · rw [takeObject_eq hc, if_neg hfull]
  · refine htok.shift hr.touches (d := 1) ?_ hown ((hr.alloc p).trans hown) (by rw [hp]) (by rw [hpool])
      (by rw [hpool]) ?_ ?_ ?_ ?_
    · simp [tokenPages, hpool]
    · intro q hq
      rw [hpool, hc] at hq
      rw [← Option.some.inj hq, hp]
      simp only
      omega
    · exact fun q hq => (hoff (.fullList t) q ht hq).trans (htok.full q hq)
    · intro q hq
      have := hoff (.partialList t) q ht hq
      exact ⟨this ▸ (htok.part q hq).1, this ▸ (htok.part q hq).2⟩
    · exact fun q hq => (hoff (.emptyList t) q ht hq).trans (htok.empty q hq)

end SlabInv

/-- **An object is taken** of the current page. -/
theorem takeObject_spec (h : SlabInv mm c live) (ht : mm.Registered t)
    (hc : (mm.objAllocPool t).currPage = some p) :
    ∃ mm' c', takeObject mm t = .ok (nextObject mm t p, mm') ∧ Taken mm mm' c c' live t p := by
  by_cases hfull : (mm.objAllocPool t).objPerPage = (mm.bookkeep p).objUsed + 1
  · exact h.takeObject_full ht hc hfull
  · exact h.takeObject_room ht hc hfull

/-! ## The whole of `obj_allocate` -/

/-- `obj_allocate(t)` has a page to serve from, or can get one. -/
def canServe (mm : Mm) (t : Nat) : Bool :=
  (mm.objAllocPool t).currPage.isSome || !listEmpty mm.links (.partialList t) ||
    !listEmpty mm.links (.emptyList t) || hasFree mm 0

theorem SlabInv.canServe_eq (h : SlabInv mm c live) (ht : mm.Registered t) :
    canServe mm t = ((servingPage mm t).isSome || hasFree mm 0) := by
  have hlist : ∀ x, mm.IsHead x → (!listEmpty mm.links x) = (c x).head?.isSome := by
    intro x hx
    have := h.buddy.lists.listEmpty_iff hx
    cases hc : c x with
    | nil => simp [this.mpr hc]
    | cons p tl =>
        rw [hc] at this
        simpa using this
  have h1 := hlist (.partialList t) ht
  have h2 := hlist (.emptyList t) ht
  simp only [h.servingPage_eq ht, canServe, h1, h2, Option.isSome_or, Bool.or_assoc]

/-- What serving a request of `t` leaves: the object came off page `p`. -/
structure Served (mm mm' : Mm) (c c' : Link → List Nat) (live : List Live) (t p addr : Nat) : Prop where
  inv : ∀ size, SlabInv mm' c' (⟨addr, size, .slab t⟩ :: live)
  touches : Touches mm mm' c c' t p
  owned : (mm'.bookkeep p).objAlloc = some t
  pfn : phyAddrToPfn addr = p
  /-- The page was the one in line, or it is new. -/
  source : (servingPage mm t = some p ∧ addr = nextObject mm t p ∧
      (mm.bookkeep p).objAlloc = some t ∧ (mm'.bookkeep p).free = (mm.bookkeep p).free ∧
      (mm'.bookkeep p).objUsed = (mm.bookkeep p).objUsed + 1) ∨
    (servingPage mm t = none ∧ addr = frameAddr p ∧ (mm.bookkeep p).objAlloc = none ∧
      (mm'.bookkeep p).free = none ∧ (mm'.bookkeep p).objUsed = 1)

/-- **`obj_allocate` of a registered token** serves the request, or faults for want of a page. -/
theorem objAllocate_spec (h : SlabInv mm c live) (ht : mm.Registered t) :
    (objAllocate mm t = .error .nullDeref ∧ canServe mm t = false) ∨
    (canServe mm t = true ∧ ∃ p mm' c' addr, objAllocate mm t = .ok (some addr, mm') ∧
      Served mm mm' c c' live t p addr) := by
  have hrange : ¬ ((t : Int) < 0 ∨ (t : Int) ≥ maxObjAllocatorNum) := by
    have := ht.1
    omega
  rcases refillCurrPage_spec h ht with ⟨hrun, hs, hf⟩ | ⟨p, mm₁, c₁, hrun, hr⟩
  · refine Or.inl ⟨?_, by simp [h.canServe_eq ht, hs, hf]⟩
    rw [objAllocate, if_neg hrange, Int.toNat_natCast, hrun, error_bind]
  · have ht₁ : mm₁.Registered t := (hr.touches.registered t).mpr ht
    obtain ⟨mm', c', hrun', htk⟩ := takeObject_spec hr.inv ht₁ hr.curr
    have hown := hr.inv.owned_of_curr ht₁ hr.curr
    have hcan : canServe mm t = true := by
      rcases hr.source with ⟨hs, _⟩ | ⟨_, hf, _⟩
      · simp [h.canServe_eq ht, hs]
      · simp [canServe, hf]
    refine Or.inr ⟨hcan, p, mm', c', nextObject mm₁ t p, ?_, htk.inv, hr.touches.trans htk.touches,
      ?_, htk.pfn, ?_⟩
    · rw [objAllocate, if_neg hrange, Int.toNat_natCast, hrun, ok_bind, hrun', ok_bind]
    · rw [htk.page]; exact hown
    · rcases hr.source with ⟨hs, hbk⟩ | ⟨hs, _, hoa, hf, hu⟩
      · refine Or.inl ⟨hs, ?_, hbk ▸ hown, ?_, ?_⟩
        · rw [nextObject, nextObject, hbk, hr.touches.size.1]
        · rw [htk.page, hbk]
        · rw [htk.page, hbk]
      · refine Or.inr ⟨hs, ?_, hoa, ?_, ?_⟩
        · have hphy := hr.inv.buddy.addr p (hr.inv.lt_of_owned hown)
          simp only [nextObject, hf, hu, hphy, Int.zero_mul, Int.add_zero, Int.toNat_natCast, frameAddr]
        · rw [htk.page]; exact hf
        · rw [htk.page, hu]; rfl

/-- A token in range that was never registered: the first thing followed is a NULL list link. -/
theorem objAllocate_unregistered (h : SlabInv mm c live) (ht : t < maxObjAllocatorNum)
    (hn : ¬ mm.Registered t) : objAllocate mm t = .error .nullDeref := by
  have hrange : ¬ ((t : Int) < 0 ∨ (t : Int) ≥ maxObjAllocatorNum) := by omega
  have hnext : mm.links.next (.partialList t) = none := (h.buddy.lists.idle (.partialList t) (by simp) hn).1
  have hne : listEmpty mm.links (.partialList t) = false := by simp [listEmpty, hnext]
  rw [objAllocate, if_neg hrange, Int.toNat_natCast]
  simp [refillCurrPage, h.blank t hn, hne, takeFirst, hnext, Link.toPage]

end OsdiKernel
