import OsdiKernel.Mm.SlabAlloc

/-!
# `obj_free` keeps the invariant

The freed object becomes the head of its page's free chain and both counters go
down by one. Where the page goes then depends on where it was: the current page
stays, a page of the full list becomes partial, and a page of the partial list
stays, becomes empty, or goes back to the buddy allocator. A page of the empty
list has nothing left to free.
-/

namespace OsdiKernel

variable {mm mm' mm₁ : Mm} {c c' : Link → List Nat} {rest : List Live} {H : Set Block} {e : Live}
  {t p : Nat}

/-- What a live object of `t` says about its page. -/
structure LiveObj (mm : Mm) (c : Link → List Nat) (e : Live) (rest : List Live) (t p : Nat) : Prop where
  inv : SlabInv mm c (e :: rest)
  pfn : phyAddrToPfn e.addr = p
  owned : (mm.bookkeep p).objAlloc = some t

namespace LiveObj

theorem registered (h : LiveObj mm c e rest t p) : mm.Registered t := h.inv.registered h.owned

theorem lt (h : LiveObj mm c e rest t p) : p < pageFrameNum := h.inv.lt_of_owned h.owned

theorem owner (h : LiveObj mm c e rest t p) : e.owner = .slab t := by
  rw [← h.inv.objAlloc_slab (e := e) (by simp), h.pfn]
  exact h.owned

theorem token (h : LiveObj mm c e rest t p) : TokenInv mm c t := h.inv.token t h.registered

theorem used (h : LiveObj mm c e rest t p) :
    (mm.bookkeep p).objUsed = (onPage rest p).length + 1 := by
  have := ((h.inv.page p h.lt).slab t h.owned).1
  rw [onPage_cons_self h.pfn, List.length_cons] at this
  exact_mod_cast this

theorem addr (h : LiveObj mm c e rest t p) : ObjAddr mm t p e.addr := by
  have := ((h.inv.page p h.lt).slab t h.owned).2 e
  rw [onPage_cons_self h.pfn] at this
  exact (this (by simp)).2

theorem held_rest (h : LiveObj mm c e rest t p) : heldBlocks mm (e :: rest) = heldBlocks mm rest :=
  heldBlocks_cons_slab h.owner

theorem others (h : LiveObj mm c e rest t p) : ∀ q, q ≠ p → onPage rest q = onPage (e :: rest) q := by
  intro q hq
  exact (onPage_cons_ne (fun he => hq (he.symm.trans h.pfn))).symm

/-- The page, once the object is off it. -/
theorem page_freed (h : LiveObj mm c e rest t p) (hT : Touches mm mm' c c' t p)
    (hp : mm'.bookkeep p = { mm.bookkeep p with
      free := some e.addr, objUsed := (mm.bookkeep p).objUsed - 1 }) :
    PageInv mm' p (onPage rest p) := by
  have hpg := h.inv.page p h.lt
  refine ⟨?_, ?_, ?_, ?_⟩
  · intro u hu
    rw [hp] at hu
    exact (hT.registered u).mpr (hpg.registered u hu)
  · intro u a hu hf
    rw [hp] at hu hf
    have hut : t = u := Option.some.inj (h.owned.symm.trans hu)
    rw [← Option.some.inj hf, ← hut]
    exact hT.objAddr.mpr h.addr
  · intro u hu
    rw [hp] at hu
    refine ⟨?_, fun x hx => ?_⟩
    · rw [hp]
      simp [h.used]
    · have hmem : x ∈ onPage (e :: rest) p := by
        rw [onPage_cons_self h.pfn]
        exact List.mem_cons_of_mem _ hx
      exact ⟨((hpg.slab u hu).2 x hmem).1, hT.objAddr.mpr ((hpg.slab u hu).2 x hmem).2⟩
  · intro hn
    rw [hp] at hn
    exact absurd (h.owned.symm.trans hn) (by simp)

end LiveObj

/-- The object is off its page, and the page has not moved yet. -/
structure Lowered (mm mm₁ : Mm) (c : Link → List Nat) (e : Live) (t p : Nat) : Prop where
  touches : Touches mm mm₁ c c t p
  links : mm₁.links = mm.links
  nrFree : mm₁.nrFree = mm.nrFree
  page : mm₁.bookkeep p = { mm.bookkeep p with
    free := some e.addr, objUsed := (mm.bookkeep p).objUsed - 1 }
  rest : ∀ q, q ≠ p → mm₁.bookkeep q = mm.bookkeep q
  pool : mm₁.objAllocPool t =
    { mm.objAllocPool t with objUsed := (mm.objAllocPool t).objUsed - 1 }

namespace Lowered

theorem recounted (h : Lowered mm mm₁ c e t p) : Recounted mm mm₁ c t p :=
  ⟨h.touches, h.links, h.nrFree, ⟨_, _, h.page⟩, h.rest⟩

end Lowered

/-- What freeing an object of page `p` leaves: the page with the object at the
head of its chain, or back with the buddy allocator. -/
structure Freed (mm mm' : Mm) (c c' : Link → List Nat) (e : Live) (rest : List Live) (t p : Nat) :
    Prop where
  inv : SlabInv mm' c' rest
  touches : Touches mm mm' c c' t p
  source : ((mm'.bookkeep p).objAlloc = some t ∧ (mm'.bookkeep p).free = some e.addr) ∨
    (mm'.bookkeep p).objAlloc = none

/-- When the page keeps its owner, what is left to show is where it went. -/
theorem LiveObj.kept (h : LiveObj mm c e rest t p) (hT : Touches mm mm' c c' t p)
    (hp : mm'.bookkeep p = { mm.bookkeep p with
      free := some e.addr, objUsed := (mm.bookkeep p).objUsed - 1 })
    (hb : BuddyInv mm' c' (heldBlocks mm rest)) (hheld : ∀ b, Held mm b → Held mm' b)
    (htok : TokenInv mm' c' t) : Freed mm mm' c c' e rest t p := by
  have heq : heldBlocks mm' rest = heldBlocks mm rest := by
    refine heldBlocks_congr (fun q => ?_)
    by_cases hq : q = p
    · subst hq; rw [hp]
    · exact (hT.page q hq).2.1
  have hne : ∀ u, u ≠ t → (mm.bookkeep p).objAlloc ≠ some u := by
    intro u hu
    rw [h.owned]
    exact fun he => hu (Option.some.inj he).symm
  refine ⟨h.inv.touched hT h.registered h.lt (heq ▸ hb) ?_ htok ?_ (h.page_freed hT hp) h.others, hT, ?_⟩
  · intro b hbm
    rw [heq, ← h.held_rest] at hbm
    exact hheld b (h.inv.held b hbm)
  · exact fun u hu => ⟨hne u hu, by rw [hp]; exact hne u hu⟩
  · rw [hp]
    exact Or.inl ⟨h.owned, rfl⟩

/-- A page that stays where it is, which is not the full list. -/
theorem LiveObj.stay (h : LiveObj mm c e rest t p) (hl : Lowered mm mm₁ c e t p)
    (hf : p ∉ c (.fullList t)) (hpart : p ∈ c (.partialList t) → (mm.bookkeep p).objUsed ≠ 1) :
    Freed mm mm₁ c c e rest t p := by
  have htok := h.token
  have hu := h.used
  refine h.kept hl.touches hl.page (hl.recounted.buddy (h.held_rest ▸ h.inv.buddy)) (fun b => hl.recounted.held) ?_
  refine htok.shift hl.touches (d := -1) ?_ h.owned ((hl.recounted.alloc p).trans h.owned) ?_ ?_ ?_ ?_ ?_ ?_ ?_
  · simp [tokenPages, hl.pool]
  · rw [hl.page]; rfl
  · rw [hl.pool]
  · rw [hl.pool]; rfl
  · intro q hq
    rw [hl.pool] at hq
    have hlt := htok.curr q hq
    by_cases hqp : q = p
    · subst hqp
      rw [hl.page]
      simp only
      omega
    · rw [hl.rest q hqp]; exact hlt
  · exact fun q hq => (hl.recounted.off hf hq).trans (htok.full q hq)
  · intro q hq
    obtain ⟨hpos, hlt⟩ := htok.part q hq
    by_cases hqp : q = p
    · subst hqp
      have := hpart hq
      rw [hl.page]
      simp only
      omega
    · rw [hl.rest q hqp]; exact ⟨hpos, hlt⟩
  · intro q hq
    by_cases hqp : q = p
    · subst hqp
      have := htok.empty q hq
      omega
    · rw [hl.rest q hqp]; exact htok.empty q hq

/-! ## The page moves -/

/-- Off one of the allocator's lists and onto another. -/
theorem LiveObj.moveTo (h : LiveObj mm c e rest t p) (hl : Lowered mm mm₁ c e t p) {x y : Link}
    (hx : x = .fullList t ∨ x = .partialList t ∨ x = .emptyList t)
    (hy : y = .fullList t ∨ y = .partialList t ∨ y = .emptyList t) (hxy : y ≠ x) (hm : p ∈ c x) :
    ∃ l₁ l₂, mm₁.onLinks (listDel · (.frame p)) = .ok { mm₁ with links := l₁ } ∧
      ({ mm₁ with links := l₁ } : Mm).onLinks (listAddTail · (.frame p) y)
        = .ok { mm₁ with links := l₂ } ∧
      BuddyInv { mm₁ with links := l₂ }
        (Function.update (Function.update c x ((c x).erase p)) y (c y ++ [p])) (heldBlocks mm rest) ∧
      Touches mm { mm₁ with links := l₂ } c
        (Function.update (Function.update c x ((c x).erase p)) y (c y ++ [p])) t p := by
  have hxf : ∀ k, x ≠ .freelist k := by
    intro k; rcases hx with hx | hx | hx <;> simp [hx]
  have hyf : ∀ k, y ≠ .freelist k := by
    intro k; rcases hy with hy | hy | hy <;> simp [hy]
  have ht₁ := (hl.touches.registered t).mpr h.registered
  have hb₁ : BuddyInv mm₁ c (heldBlocks mm rest) := hl.recounted.buddy (h.held_rest ▸ h.inv.buddy)
  obtain ⟨l₁, hrun₁, hb₂, hloose⟩ := hb₁.takeOff (SlabInv.isHead_of ht₁ hx) hxf hm
  obtain ⟨l₂, hrun₂, hb₃⟩ := hb₂.putOn (x := y) (p := p) (SlabInv.isHead_of ht₁ hy) hyf
    ⟨⟨p, 0⟩, Or.inl ⟨rfl, by simp [h.owned]⟩, rfl⟩ hloose
  rw [Function.update_of_ne hxy] at hb₃
  exact ⟨l₁, l₂, hrun₁, hrun₂, hb₃, hl.touches.trans ((Touches.relist mm₁ c p l₁ _ hx).trans
    (Touches.relist _ _ p l₂ _ hy))⟩

/-- The allocator has the same pages afterwards. -/
theorem tokenPages_moved {x y : Link} (hx : x = .fullList t ∨ x = .partialList t ∨ x = .emptyList t)
    (hy : y = .fullList t ∨ y = .partialList t ∨ y = .emptyList t) (hxy : y ≠ x) (hm : p ∈ c x) :
    (tokenPages mm (Function.update (Function.update c x ((c x).erase p)) y (c y ++ [p])) t).Perm
      (tokenPages mm c t) := by
  refine List.perm_iff_count.mpr (fun q => ?_)
  have hpos := List.count_pos_iff.mpr hm
  by_cases hq : p = q
  · subst hq
    rcases hx with rfl | rfl | rfl <;> rcases hy with rfl | rfl | rfl <;>
      simp [tokenPages, List.count_erase_self] at hxy ⊢ <;> omega
  · rcases hx with rfl | rfl | rfl <;> rcases hy with rfl | rfl | rfl <;>
      simp [tokenPages, List.count_erase_of_ne (Ne.symm hq), hq] at hxy ⊢

/-- One object less on a page that has moved: what is left to show is that it is where it belongs. -/
theorem LiveObj.relisted (h : LiveObj mm c e rest t p) (hl : Lowered mm mm₁ c e t p) {l : Links Link}
    (hT : Touches mm { mm₁ with links := l } c c' t p) (hperm : (tokenPages mm c' t).Perm (tokenPages mm c t))
    (hcurr : (mm.objAllocPool t).currPage ≠ some p)
    (hfull : ∀ q ∈ c' (.fullList t), (mm₁.bookkeep q).objUsed = (mm.objAllocPool t).objPerPage)
    (hpart : ∀ q ∈ c' (.partialList t), 0 < (mm₁.bookkeep q).objUsed ∧
      (mm₁.bookkeep q).objUsed < (mm.objAllocPool t).objPerPage)
    (hempty : ∀ q ∈ c' (.emptyList t), (mm₁.bookkeep q).objUsed = 0) : TokenInv { mm₁ with links := l } c' t := by
  have hpages : tokenPages { mm₁ with links := l } c' t = tokenPages mm c' t := by simp [tokenPages, hl.pool]
  refine h.token.shift hT (d := -1) (hpages ▸ hperm) h.owned ((hl.recounted.alloc p).trans h.owned)
    (congrArg Page.objUsed hl.page) ?_ (congrArg ObjAllocator.objUsed hl.pool) ?_ hfull hpart hempty
  · show (mm₁.objAllocPool t).pageUsed = _
    rw [hl.pool]
  · intro q hq
    have hq' : (mm.objAllocPool t).currPage = some q := by
      rw [← hq]
      exact (congrArg ObjAllocator.currPage hl.pool).symm
    have hqp : q ≠ p := fun he => hcurr (he ▸ hq')
    exact (congrArg Page.objUsed (hl.rest q hqp)) ▸ h.token.curr q hq'

/-- **From full to partial.** -/
theorem LiveObj.toPartial (h : LiveObj mm c e rest t p) (hl : Lowered mm mm₁ c e t p)
    (hm : p ∈ c (.fullList t)) :
    ∃ mm' c', fullToPartial mm₁ p t = .ok mm' ∧ Freed mm mm' c c' e rest t p ∧
      (mm'.bookkeep p).objUsed ≠ 0 := by
  have htok := h.token
  have hlen := htok.full p hm
  obtain ⟨n, hn8, hn, _, hper⟩ := htok.size
  have htwo : 2 ≤ 4096 / n := (Nat.le_div_iff_mul_le (by omega)).mpr (by omega)
  obtain ⟨l₁, l₂, hrun₁, hrun₂, hb, hT⟩ := h.moveTo hl (y := .partialList t) (Or.inl rfl)
    (Or.inr (Or.inl rfl)) (by simp) hm
  have hnd := h.inv.buddy.lists.nodup (h := .fullList t) h.registered
  have hpu : p ∉ c (.partialList t) := by
    intro hp
    have := htok.part p hp
    omega
  have hpe : p ∉ c (.emptyList t) := by
    intro hp
    have := htok.empty p hp
    omega
  refine ⟨_, _, ?_, h.kept hT hl.page hb (fun b => hl.recounted.held) ?_, ?_⟩
  · have hcond : (mm₁.objAllocPool t).objPerPage - 1 = (mm₁.bookkeep p).objUsed := by
      rw [hl.pool, hl.page]
      simp only
      omega
    rw [fullToPartial, if_pos hcond, hrun₁, ok_bind, hrun₂]
  · have hcurr : (mm.objAllocPool t).currPage ≠ some p := fun hcp =>
      h.inv.curr_loose h.registered hcp (.fullList t) h.registered hm
    refine h.relisted hl hT (tokenPages_moved (Or.inl rfl) (Or.inr (Or.inl rfl)) (by simp) hm) hcurr ?_ ?_ ?_
    · intro q hq
      rw [Function.update_of_ne (by simp), Function.update_self] at hq
      obtain ⟨hqp, hqm⟩ := hnd.mem_erase_iff.mp hq
      exact (congrArg Page.objUsed (hl.rest q hqp)).trans (htok.full q hqm)
    · intro q hq
      rw [Function.update_self, List.mem_append, List.mem_singleton] at hq
      rcases hq with hq | hq
      · have := hl.recounted.off hpu hq
        exact ⟨this ▸ (htok.part q hq).1, this ▸ (htok.part q hq).2⟩
      · subst hq
        simp only [hl.page]
        omega
    · intro q hq
      rw [Function.update_of_ne (by simp), Function.update_of_ne (by simp)] at hq
      exact (hl.recounted.off hpe hq).trans (htok.empty q hq)
  · simp only [hl.page]
    omega

/-- **From partial to empty.** -/
theorem LiveObj.toEmpty (h : LiveObj mm c e rest t p) (hl : Lowered mm mm₁ c e t p)
    (hm : p ∈ c (.partialList t)) (hone : (mm.bookkeep p).objUsed = 1) :
    ∃ l₁ l₂, mm₁.onLinks (listDel · (.frame p)) = .ok { mm₁ with links := l₁ } ∧
      ({ mm₁ with links := l₁ } : Mm).onLinks (listAddTail · (.frame p) (.emptyList t))
        = .ok { mm₁ with links := l₂ } ∧
      ∃ c', Freed mm { mm₁ with links := l₂ } c c' e rest t p := by
  have htok := h.token
  obtain ⟨l₁, l₂, hrun₁, hrun₂, hb, hT⟩ := h.moveTo hl (y := .emptyList t) (Or.inr (Or.inl rfl))
    (Or.inr (Or.inr rfl)) (by simp) hm
  have hnd := h.inv.buddy.lists.nodup (h := .partialList t) h.registered
  have hpf : p ∉ c (.fullList t) := by
    intro hp
    have h1 := htok.full p hp
    have h2 := (htok.part p hm).2
    omega
  have hpe : p ∉ c (.emptyList t) := by
    intro hp
    have := htok.empty p hp
    omega
  refine ⟨l₁, l₂, hrun₁, hrun₂, _, h.kept hT hl.page hb (fun b => hl.recounted.held) ?_⟩
  have hcurr : (mm.objAllocPool t).currPage ≠ some p := fun hcp =>
    h.inv.curr_loose h.registered hcp (.partialList t) h.registered hm
  refine h.relisted hl hT (tokenPages_moved (Or.inr (Or.inl rfl)) (Or.inr (Or.inr rfl)) (by simp) hm) hcurr ?_ ?_ ?_
  · intro q hq
    rw [Function.update_of_ne (by simp), Function.update_of_ne (by simp)] at hq
    exact (hl.recounted.off hpf hq).trans (htok.full q hq)
  · intro q hq
    rw [Function.update_of_ne (by simp), Function.update_self] at hq
    obtain ⟨hqp, hqm⟩ := hnd.mem_erase_iff.mp hq
    have := congrArg Page.objUsed (hl.rest q hqp)
    exact ⟨this ▸ (htok.part q hqm).1, this ▸ (htok.part q hqm).2⟩
  · intro q hq
    rw [Function.update_self, List.mem_append, List.mem_singleton] at hq
    rcases hq with hq | hq
    · exact (hl.recounted.off hpe hq).trans (htok.empty q hq)
    · subst hq
      simp only [hl.page]
      omega

/-- An allocator loses a page of its partial list, and the last object on it. -/
theorem TokenInv.lessPage (h : TokenInv mm c t) (hT : Touches mm mm' c c' t p) (hm : p ∈ c (.partialList t))
    (hone : (mm.bookkeep p).objUsed = 1)
    (hpool : mm'.objAllocPool t = { mm.objAllocPool t with
      objUsed := (mm.objAllocPool t).objUsed - 1, pageUsed := (mm.objAllocPool t).pageUsed - 1 })
    (hl : c' (.fullList t) = c (.fullList t) ∧ c' (.partialList t) = (c (.partialList t)).erase p ∧
      c' (.emptyList t) = c (.emptyList t))
    (hp : (mm'.bookkeep p).objAlloc = none) : TokenInv mm' c' t := by
  obtain ⟨hl1, hl2, hl3⟩ := hl
  have hperm : (tokenPages mm c t).Perm (p :: tokenPages mm' c' t) := by
    refine List.perm_iff_count.mpr (fun q => ?_)
    have hpos := List.count_pos_iff.mpr hm
    by_cases hq : p = q
    · subst hq
      simp [tokenPages, hpool, hl1, hl2, hl3, List.count_erase_self]
      omega
    · simp [tokenPages, hpool, hl1, hl2, hl3, List.count_erase_of_ne (Ne.symm hq), hq]
  have hndp := List.nodup_cons.mp (hperm.nodup_iff.mp h.nodup)
  have hsame : ∀ q ∈ tokenPages mm' c' t, (mm'.bookkeep q).objUsed = (mm.bookkeep q).objUsed :=
    fun q hq => (hT.page q (fun he => hndp.1 (he ▸ hq))).1
  refine ⟨?_, ?_, hndp.2, ?_, ?_, ?_, ?_, ?_, ?_⟩
  · rw [hpool]; exact h.size
  · intro q
    by_cases hq : q = p
    · subst hq
      rw [hp]
      exact ⟨fun hqm => absurd hqm hndp.1, fun hn => absurd hn (by simp)⟩
    · rw [(hT.page q hq).2.1, ← h.owned, hperm.mem_iff, List.mem_cons]
      simp [hq]
  · rw [hpool]
    have := hperm.length_eq
    rw [List.length_cons] at this
    simp only [h.pageUsed, this]
    omega
  · rw [hpool]
    have hsum := (hperm.map (fun q => (mm.bookkeep q).objUsed)).sum_eq
    rw [List.map_cons, List.sum_cons, hone] at hsum
    rw [List.map_congr_left hsame]
    simp only [h.objUsed, hsum]
    omega
  · intro q hq
    rw [hsame q (by simp [tokenPages, hq])]
    rw [hpool] at hq ⊢
    exact h.curr q hq
  · intro q hq
    rw [hsame q (by simp [tokenPages, hq]), hpool]
    rw [hl1] at hq
    exact h.full q hq
  · intro q hq
    rw [hsame q (by simp [tokenPages, hq]), hpool]
    rw [hl2] at hq
    exact h.part q (List.mem_of_mem_erase hq)
  · intro q hq
    rw [hsame q (by simp [tokenPages, hq])]
    rw [hl3] at hq
    exact h.empty q hq

/-- The page is no longer the allocator's, which has a page and an object less. -/
structure Cleared (mm mm₂ : Mm) (t p : Nat) : Prop where
  page : mm₂.bookkeep p = { mm.bookkeep p with free := none, objAlloc := none, objUsed := 0 }
  rest : ∀ q, q ≠ p → mm₂.bookkeep q = mm.bookkeep q
  pool : mm₂.objAllocPool t = { mm.objAllocPool t with
    objUsed := (mm.objAllocPool t).objUsed - 1, pageUsed := (mm.objAllocPool t).pageUsed - 1 }

/-- No other object was on a page with one. -/
theorem LiveObj.alone (h : LiveObj mm c e rest t p) (hone : (mm.bookkeep p).objUsed = 1) : onPage rest p = [] := by
  have hu := h.used
  rw [hone] at hu
  exact List.length_eq_zero_iff.mp (by omega)

/-- The page was one of the held blocks, and is none now; the marks on them have stayed. -/
theorem LiveObj.released {mm₂ : Mm} (h : LiveObj mm c e rest t p) (hone : (mm.bookkeep p).objUsed = 1)
    (hc : Cleared mm mm₂ t p) :
    heldBlocks mm rest = insert ⟨p, 0⟩ (heldBlocks mm₂ rest) ∧ (⟨p, 0⟩ : Block) ∉ heldBlocks mm₂ rest ∧
      ∀ b ∈ heldBlocks mm rest, Held mm₂ b := by
  refine ⟨heldBlocks_insert h.owned (fun q hq => by rw [hc.rest q hq]) (by rw [hc.page]), ?_, ?_⟩
  · rintro (hmem | ⟨x, hx, _, hxa⟩)
    · rw [hc.page] at hmem
      exact hmem.2 rfl
    · have hxp : x ∈ onPage rest p :=
        mem_onPage.mpr ⟨hx, by rw [hxa]; exact phyAddrToPfn_frame h.lt⟩
      rw [h.alone hone] at hxp
      exact absurd hxp (by simp)
  · intro b hb
    have hold := h.inv.held b (h.held_rest ▸ hb)
    by_cases hq : b.start = p
    · rw [Held, hq, hc.page]
      rw [Held, hq] at hold
      exact hold
    · rw [Held, hc.rest _ hq]
      exact hold

/-- **Back to the buddy allocator.** -/
theorem LiveObj.toBuddy (h : LiveObj mm c e rest t p) (hl : Lowered mm mm₁ c e t p)
    (hm : p ∈ c (.partialList t)) (hone : (mm.bookkeep p).objUsed = 1) :
    ∃ l₁ mm' c', mm₁.onLinks (listDel · (.frame p)) = .ok { mm₁ with links := l₁ } ∧
      buddyBlockFree ((({ mm₁ with links := l₁ } : Mm).updatePool t
        (fun a => { a with pageUsed := a.pageUsed - 1 })).updatePage p
        (fun q => { q with free := none, objAlloc := none, objUsed := 0 })) p = .ok mm' ∧
      Freed mm mm' c c' e rest t p := by
  have htok := h.token
  have ht₁ := (hl.touches.registered t).mpr h.registered
  have hb₁ : BuddyInv mm₁ c (heldBlocks mm rest) := hl.recounted.buddy (h.held_rest ▸ h.inv.buddy)
  obtain ⟨l₁, hrun₁, hb₂, hloose⟩ := hb₁.takeOff (x := .partialList t) ht₁ (by simp) hm
  let mm₂ := (({ mm₁ with links := l₁ } : Mm).updatePool t
    (fun a => { a with pageUsed := a.pageUsed - 1 })).updatePage p
    (fun q => { q with free := none, objAlloc := none, objUsed := 0 })
  let c₁ := Function.update c (.partialList t) ((c (.partialList t)).erase p)
  have hT₂ : Touches mm mm₂ c c₁ t p :=
    (hl.touches.trans (Touches.relist mm₁ c p l₁ _ (Or.inr (Or.inl rfl)))).trans
      ((Touches.updatePool _ c₁ t p (g := fun a => { a with pageUsed := a.pageUsed - 1 })
        (fun _ => ⟨rfl, rfl⟩)).trans (Touches.updatePage _ c₁ t p _))
  have hc : Cleared mm mm₂ t p := by
    refine ⟨by simp [mm₂, hl.page], fun q hq => ?_, by simp [mm₂, hl.pool]⟩
    simp [mm₂, Mm.updatePage_ne _ _ _ _ hq, hl.rest q hq]
  obtain ⟨hheldEq, hfresh, hheld₂⟩ := h.released hone hc
  have hhead : mm₂.IsHead = mm₁.IsHead := hT₂.isHead.trans hl.touches.isHead.symm
  have hhand : InHand mm₂ c₁ ⟨p, 0⟩ (heldBlocks mm₂ rest) := by
    refine ⟨?_, hfresh, fun x hx => hloose x (hhead ▸ hx)⟩
    rw [← hheldEq]
    refine hb₂.congr rfl rfl hhead (fun q => ?_)
    have hlinks : ({ mm₁ with links := l₁ } : Mm).bookkeep q = mm₁.bookkeep q := rfl
    by_cases hq : q = p
    · subst hq
      rw [hc.page, hlinks, hl.page]
      exact ⟨rfl, rfl, rfl, fun _ => rfl⟩
    · rw [hc.rest q hq, hlinks, hl.rest q hq]
      exact ⟨rfl, rfl, rfl, fun _ => rfl⟩
  obtain ⟨mm₃, c₃, hrun₃, hb₃, hoth, hrest, hobj⟩ :=
    buddyBlockFree_spec hhand (hheld₂ ⟨p, 0⟩ (hheldEq ▸ Or.inl rfl))
  have hT : Touches mm mm₃ c c₃ t p := hT₂.trans (Touches.of_sameObj hobj hoth)
  have hp₃ : (mm₃.bookkeep p).objAlloc = none := by rw [hobj.objAlloc, hc.page]
  have htok₃ : TokenInv mm₃ c₃ t := by
    refine h.token.lessPage hT hm hone ?_ ⟨?_, ?_, ?_⟩ hp₃
    · rw [hobj.pool, hc.pool]
    · exact (hoth _ (by simp)).trans (Function.update_of_ne (by simp) _ _)
    · exact (hoth _ (by simp)).trans (Function.update_self ..)
    · exact (hoth _ (by simp)).trans (Function.update_of_ne (by simp) _ _)
  have hheld₃ : heldBlocks mm₃ rest = heldBlocks mm₂ rest := heldBlocks_congr hobj.objAlloc
  refine ⟨l₁, mm₃, c₃, hrun₁, hrun₃, ?_, hT, Or.inr hp₃⟩
  refine h.inv.touched hT h.registered h.lt (hheld₃ ▸ hb₃) ?_ htok₃ ?_ ?_ h.others
  · intro b hb
    rw [hheld₃] at hb
    have := hheld₂ b (hheldEq ▸ Or.inr hb)
    rw [Held, hrest b hb]
    exact this
  · intro u hu
    rw [h.owned, hp₃]
    exact ⟨fun he => hu (Option.some.inj he).symm, by simp⟩
  · rw [h.alone hone]
    exact .blank hp₃

/-! ## The whole of `obj_free` -/

/-- **`obj_free` of a live object** returns, and gives back just that object. -/
theorem objFree_spec (h : LiveObj mm c e rest t p) :
    ∃ mm' c', objFree mm e.addr = .ok mm' ∧ Freed mm mm' c c' e rest t p := by
  have htok := h.token
  have hu := h.used
  let mm₀ : Mm := { mm.updatePage p (fun q => { q with free := some e.addr }) with
    objNext := Function.update mm.objNext e.addr (mm.bookkeep p).free }
  let mm₁ := (mm₀.updatePool t (fun a => { a with objUsed := a.objUsed - 1 })).updatePage p
    (fun q => { q with objUsed := q.objUsed - 1 })
  have hp₁ : mm₁.bookkeep p = { mm.bookkeep p with
      free := some e.addr, objUsed := (mm.bookkeep p).objUsed - 1 } := by
    simp [mm₁, mm₀]
  have hq₁ : ∀ q, q ≠ p → mm₁.bookkeep q = mm.bookkeep q := by
    intro q hq
    simp [mm₁, mm₀, Mm.updatePage_ne _ _ _ _ hq]
  have hpool₁ : mm₁.objAllocPool t =
      { mm.objAllocPool t with objUsed := (mm.objAllocPool t).objUsed - 1 } := by
    simp [mm₁, mm₀]
  have hl : Lowered mm mm₁ c e t p := by
    refine ⟨⟨fun u hut => ?_, ?_, fun q hq => ?_, fun _ _ => ⟨rfl, rfl, rfl⟩⟩, rfl, rfl, hp₁, hq₁, hpool₁⟩
    · simp only [mm₁, Mm.updatePage_pool, Mm.updatePool_ne _ _ _ _ hut]
      rfl
    · rw [hpool₁]; exact ⟨rfl, rfl⟩
    · rw [hq₁ q hq]; exact ⟨rfl, rfl, rfl⟩
  have hrun : objFree mm e.addr = fullToPartial mm₁ p t >>= fun mm => partialToEmpty mm p t := by
    simp only [objFree, h.pfn, h.owned]
    rfl
  have hper : (mm₁.objAllocPool t).objPerPage = (mm.objAllocPool t).objPerPage := by rw [hpool₁]
  have hobj : (mm₁.bookkeep p).objUsed = (mm.bookkeep p).objUsed - 1 := by rw [hp₁]
  have hmem : p ∈ tokenPages mm c t := (htok.owned p).mpr h.owned
  simp only [tokenPages, List.mem_append, Option.mem_toList] at hmem
  -- not full: the first test fails
  have hskip : (mm.bookkeep p).objUsed < (mm.objAllocPool t).objPerPage →
      fullToPartial mm₁ p t = .ok mm₁ := by
    intro hlt
    rw [fullToPartial, if_neg (by rw [hper, hobj]; omega)]
  rcases hmem with hcurr | hfull | hpart | hempty
  · have hlt := htok.curr p hcurr
    have hloose := h.inv.curr_loose h.registered hcurr
    refine ⟨mm₁, c, ?_, h.stay hl (hloose (.fullList t) h.registered)
      (fun hm => absurd hm (hloose (.partialList t) h.registered))⟩
    have hcp : (mm₁.objAllocPool t).currPage = some p := by rw [hpool₁]; exact hcurr
    rw [hrun, hskip hlt, ok_bind, partialToEmpty, if_neg (fun hcond => hcond.2 hcp)]
  · obtain ⟨mm', c', hrun', hfreed, hne⟩ := h.toPartial hl hfull
    refine ⟨mm', c', ?_, hfreed⟩
    rw [hrun, hrun', ok_bind, partialToEmpty, if_neg (fun hcond => hne hcond.1)]
  · have hlt := (htok.part p hpart).2
    have hncurr : (mm₁.objAllocPool t).currPage ≠ some p := by
      intro hcp
      rw [hpool₁] at hcp
      exact h.inv.curr_loose h.registered hcp (.partialList t) h.registered hpart
    have hnfull : p ∉ c (.fullList t) := by
      intro hm
      have := htok.full p hm
      omega
    by_cases hone : (mm.bookkeep p).objUsed = 1
    · have hcond : (mm₁.bookkeep p).objUsed = 0 ∧ (mm₁.objAllocPool t).currPage ≠ some p :=
        ⟨by rw [hobj]; omega, hncurr⟩
      by_cases hten : (mm₁.objAllocPool t).pageUsed ≥ 10
      · obtain ⟨l₁, mm', c', hrun₁, hrun', hfreed⟩ := h.toBuddy hl hpart hone
        refine ⟨mm', c', ?_, hfreed⟩
        rw [hrun, hskip hlt, ok_bind, partialToEmpty, if_pos hcond, hrun₁, ok_bind]
        exact (if_pos hten).trans hrun'
      · obtain ⟨l₁, l₂, hrun₁, hrun₂, c', hfreed⟩ := h.toEmpty hl hpart hone
        refine ⟨_, c', ?_, hfreed⟩
        rw [hrun, hskip hlt, ok_bind, partialToEmpty, if_pos hcond, hrun₁, ok_bind]
        exact (if_neg hten).trans hrun₂
    · refine ⟨mm₁, c, ?_, h.stay hl hnfull (fun _ => hone)⟩
      rw [hrun, hskip hlt, ok_bind, partialToEmpty, if_neg (fun hcond => hone ?_)]
      have := hcond.1
      rw [hobj] at this
      omega
  · have := htok.empty p hempty
    omega

end OsdiKernel
