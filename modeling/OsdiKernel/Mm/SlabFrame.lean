import OsdiKernel.Mm.SlabInv

/-!
# One allocator, one page

Every step of `obj_allocate` and `obj_free` writes one page and one allocator,
moves that page between that allocator's lists, and at most calls the buddy
allocator, which writes none of the fields the object allocators use. `Touches`
composes along the steps, and `SlabInv.touched` turns it into the invariant.
-/

namespace OsdiKernel

variable {mm mm' mm'' : Mm} {c c' c'' : Link → List Nat} {live live' : List Live} {H : Set Block}
  {x : Link} {t u p q a k : Nat}

/-- The lists of pages an allocator other than `t` has are the same. -/
def SameLists (c c' : Link → List Nat) (t : Nat) : Prop :=
  ∀ u, u ≠ t → c' (.fullList u) = c (.fullList u) ∧ c' (.partialList u) = c (.partialList u) ∧
    c' (.emptyList u) = c (.emptyList u)

/-- Only allocator `t`, its lists, the free lists and page `p` changed. -/
structure Touches (mm mm' : Mm) (c c' : Link → List Nat) (t p : Nat) : Prop where
  pool : ∀ u, u ≠ t → mm'.objAllocPool u = mm.objAllocPool u
  size : (mm'.objAllocPool t).objsize = (mm.objAllocPool t).objsize ∧
    (mm'.objAllocPool t).objPerPage = (mm.objAllocPool t).objPerPage
  page : ∀ q, q ≠ p → (mm'.bookkeep q).objUsed = (mm.bookkeep q).objUsed ∧
    (mm'.bookkeep q).objAlloc = (mm.bookkeep q).objAlloc ∧ (mm'.bookkeep q).free = (mm.bookkeep q).free
  lists : SameLists c c' t

namespace Touches

theorem refl (mm : Mm) (c : Link → List Nat) (t p : Nat) : Touches mm mm c c t p :=
  ⟨fun _ _ => rfl, ⟨rfl, rfl⟩, fun _ _ => ⟨rfl, rfl, rfl⟩, fun _ _ => ⟨rfl, rfl, rfl⟩⟩

theorem trans (h : Touches mm mm' c c' t p) (h' : Touches mm' mm'' c' c'' t p) :
    Touches mm mm'' c c'' t p where
  pool := fun u hu => (h'.pool u hu).trans (h.pool u hu)
  size := ⟨h'.size.1.trans h.size.1, h'.size.2.trans h.size.2⟩
  page := by
    intro q hq
    obtain ⟨a1, a2, a3⟩ := h.page q hq
    obtain ⟨b1, b2, b3⟩ := h'.page q hq
    exact ⟨b1.trans a1, b2.trans a2, b3.trans a3⟩
  lists := by
    intro u hu
    obtain ⟨a1, a2, a3⟩ := h.lists u hu
    obtain ⟨b1, b2, b3⟩ := h'.lists u hu
    exact ⟨b1.trans a1, b2.trans a2, b3.trans a3⟩

/-- The buddy allocator touches no allocator and no page's object fields. -/
theorem of_sameObj (h : mm.SameObj mm') (hc : SameOthers c c') : Touches mm mm' c c' t p where
  pool := fun u _ => by rw [h.pool]
  size := by rw [h.pool]; exact ⟨rfl, rfl⟩
  page := fun q _ => ⟨h.objUsed q, h.objAlloc q, h.free q⟩
  lists := fun u _ => ⟨hc _ (by simp), hc _ (by simp), hc _ (by simp)⟩

theorem updatePage (mm : Mm) (c : Link → List Nat) (t p : Nat) (f : Page → Page) :
    Touches mm (mm.updatePage p f) c c t p where
  pool := fun _ _ => rfl
  size := ⟨rfl, rfl⟩
  page := fun q hq => by rw [mm.updatePage_ne p q f hq]; exact ⟨rfl, rfl, rfl⟩
  lists := fun _ _ => ⟨rfl, rfl, rfl⟩

theorem updatePool (mm : Mm) (c : Link → List Nat) (t p : Nat) {g : ObjAllocator → ObjAllocator}
    (hg : ∀ a, (g a).objsize = a.objsize ∧ (g a).objPerPage = a.objPerPage) :
    Touches mm (mm.updatePool t g) c c t p where
  pool := fun u hu => mm.updatePool_ne t u g hu
  size := by rw [mm.updatePool_self]; exact hg _
  page := fun _ _ => ⟨rfl, rfl, rfl⟩
  lists := fun _ _ => ⟨rfl, rfl, rfl⟩

/-- Rewriting the list nodes, and one of `t`'s own lists. -/
theorem relist (mm : Mm) (c : Link → List Nat) (p : Nat) (l : Links Link) (xs : List Nat)
    (hx : x = .fullList t ∨ x = .partialList t ∨ x = .emptyList t) :
    Touches mm { mm with links := l } c (Function.update c x xs) t p where
  pool := fun _ _ => rfl
  size := ⟨rfl, rfl⟩
  page := fun _ _ => ⟨rfl, rfl, rfl⟩
  lists := by
    intro u hu
    refine ⟨Function.update_of_ne ?_ _ _, Function.update_of_ne ?_ _ _, Function.update_of_ne ?_ _ _⟩ <;>
      (intro he
       subst he
       simp at hx
       exact hu hx)

theorem registered (h : Touches mm mm' c c' t p) (u : Nat) : mm'.Registered u ↔ mm.Registered u := by
  by_cases hu : u = t
  · subst hu
    rw [Mm.Registered, Mm.Registered, h.size.1]
  · rw [Mm.Registered, Mm.Registered, h.pool u hu]

theorem isHead (h : Touches mm mm' c c' t p) : mm'.IsHead = mm.IsHead :=
  Mm.isHead_registered h.registered

theorem objAddr (h : Touches mm mm' c c' t p) : ObjAddr mm' u q a ↔ ObjAddr mm u q a := by
  by_cases hu : u = t
  · subst hu
    rw [ObjAddr, ObjAddr, h.size.1, h.size.2]
  · rw [ObjAddr, ObjAddr, h.pool u hu]

end Touches

/-- The pages of an allocator nobody touched. -/
theorem TokenInv.congr (h : TokenInv mm c u) (hp : mm'.objAllocPool u = mm.objAllocPool u)
    (hl : c' (.fullList u) = c (.fullList u) ∧ c' (.partialList u) = c (.partialList u) ∧
      c' (.emptyList u) = c (.emptyList u))
    (ho : ∀ q, (mm'.bookkeep q).objAlloc = some u ↔ (mm.bookkeep q).objAlloc = some u)
    (hu : ∀ q, (mm.bookkeep q).objAlloc = some u → (mm'.bookkeep q).objUsed = (mm.bookkeep q).objUsed) :
    TokenInv mm' c' u := by
  obtain ⟨hl1, hl2, hl3⟩ := hl
  have hpages : tokenPages mm' c' u = tokenPages mm c u := by
    rw [tokenPages, tokenPages, hp, hl1, hl2, hl3]
  have hmem : ∀ q ∈ tokenPages mm c u, (mm'.bookkeep q).objUsed = (mm.bookkeep q).objUsed :=
    fun q hq => hu q ((h.owned q).mp hq)
  refine ⟨?_, ?_, ?_, ?_, ?_, ?_, ?_, ?_, ?_⟩
  · rw [hp]; exact h.size
  · intro q
    rw [hpages, ho]
    exact h.owned q
  · rw [hpages]; exact h.nodup
  · rw [hpages, hp]; exact h.pageUsed
  · rw [hpages, hp, h.objUsed, List.map_congr_left hmem]
  · intro q hq
    rw [hp] at hq ⊢
    rw [hmem q (by simp [tokenPages, hq])]
    exact h.curr q hq
  · intro q hq
    rw [hl1] at hq
    rw [hp, hmem q (by simp [tokenPages, hq])]
    exact h.full q hq
  · intro q hq
    rw [hl2] at hq
    rw [hp, hmem q (by simp [tokenPages, hq])]
    exact h.part q hq
  · intro q hq
    rw [hl3] at hq
    rw [hmem q (by simp [tokenPages, hq])]
    exact h.empty q hq

/-- A page nobody touched. -/
theorem PageInv.congr {xs : List Live} (h : PageInv mm q xs)
    (hf : (mm'.bookkeep q).objUsed = (mm.bookkeep q).objUsed ∧
      (mm'.bookkeep q).objAlloc = (mm.bookkeep q).objAlloc ∧ (mm'.bookkeep q).free = (mm.bookkeep q).free)
    (hr : ∀ u, mm.Registered u → mm'.Registered u)
    (ha : ∀ u a, mm.Registered u → ObjAddr mm u q a → ObjAddr mm' u q a) : PageInv mm' q xs := by
  obtain ⟨hu, ho, hfr⟩ := hf
  refine ⟨?_, ?_, ?_, ?_⟩
  · intro u hou
    rw [ho] at hou
    exact hr u (h.registered u hou)
  · intro u a hou hfa
    rw [ho] at hou
    rw [hfr] at hfa
    exact ha u a (h.registered u hou) (h.chain u a hou hfa)
  · intro u hou
    rw [ho] at hou
    rw [hu]
    obtain ⟨h1, h2⟩ := h.slab u hou
    exact ⟨h1, fun e he => ⟨(h2 e he).1, ha u _ (h.registered u hou) (h2 e he).2⟩⟩
  · intro hn
    rw [ho] at hn
    exact h.whole hn

/-- **What an operation that touches one allocator and one page has to show.** -/
theorem SlabInv.touched (h : SlabInv mm c live) (hT : Touches mm mm' c c' t p) (ht : mm.Registered t)
    (hpN : p < pageFrameNum) (hb : BuddyInv mm' c' (heldBlocks mm' live'))
    (hheld : ∀ b ∈ heldBlocks mm' live', Held mm' b) (htok : TokenInv mm' c' t)
    (hown : ∀ u, u ≠ t → (mm.bookkeep p).objAlloc ≠ some u ∧ (mm'.bookkeep p).objAlloc ≠ some u)
    (hp : PageInv mm' p (onPage live' p))
    (hq : ∀ q, q ≠ p → onPage live' q = onPage live q) : SlabInv mm' c' live' where
  buddy := hb
  held := hheld
  token := by
    intro u hu
    rw [hT.registered] at hu
    by_cases hut : u = t
    · rw [hut]; exact htok
    · refine (h.token u hu).congr (hT.pool u hut) (hT.lists u hut) (fun q => ?_) (fun q hqo => ?_)
      · by_cases hqp : q = p
        · subst hqp
          have := hown u hut
          simp [this.1, this.2]
        · rw [(hT.page q hqp).2.1]
      · have hqp : q ≠ p := fun he => (hown u hut).1 (he ▸ hqo)
        exact (hT.page q hqp).1
  page := by
    intro q hqN
    by_cases hqp : q = p
    · subst hqp; exact hp
    · rw [hq q hqp]
      exact (h.page q hqN).congr (hT.page q hqp) (fun u hu => (hT.registered u).mpr hu)
        (fun u a _ ha => hT.objAddr.mpr ha)
  blank := by
    intro u hu
    rw [hT.registered] at hu
    have hut : u ≠ t := fun he => hu (he ▸ ht)
    rw [hT.pool u hut]
    exact h.blank u hu
  outside := by
    intro q hqN
    have hqp : q ≠ p := by omega
    rw [(hT.page q hqp).2.1, hq q hqp]
    exact h.outside q hqN

/-- **What an operation on the buddy allocator alone has to show.** -/
theorem SlabInv.untouched (h : SlabInv mm c live) (hobj : mm.SameObj mm') (hoth : SameOthers c c')
    (hb : BuddyInv mm' c' (heldBlocks mm' live')) (hheld : ∀ b ∈ heldBlocks mm' live', Held mm' b)
    (hpN : p < pageFrameNum) (hp : PageInv mm' p (onPage live' p))
    (hq : ∀ q, q ≠ p → onPage live' q = onPage live q) : SlabInv mm' c' live' := by
  have hT : ∀ t, Touches mm mm' c c' t p := fun t => Touches.of_sameObj hobj hoth
  refine ⟨hb, hheld, ?_, ?_, ?_, ?_⟩
  · intro u hu
    rw [(hT u).registered] at hu
    refine (h.token u hu).congr (by rw [hobj.pool]) ⟨hoth _ (by simp), hoth _ (by simp), hoth _ (by simp)⟩
      (fun q => by rw [hobj.objAlloc]) (fun q _ => hobj.objUsed q)
  · intro q hqN
    by_cases hqp : q = p
    · subst hqp; exact hp
    · rw [hq q hqp]
      exact (h.page q hqN).congr ((hT 0).page q hqp) (fun u hu => ((hT 0).registered u).mpr hu)
        (fun u a _ ha => (hT 0).objAddr.mpr ha)
  · intro u hu
    rw [(hT u).registered] at hu
    rw [hobj.pool]
    exact h.blank u hu
  · intro q hqN
    have hqp : q ≠ p := by omega
    rw [hobj.objAlloc, hq q hqp]
    exact h.outside q hqN

/-! ## Moving a page on or off a list of its allocator -/

/-- The lists outside the buddy allocator may hold what they like, as long as it is held. -/
theorem BuddyInv.relist (h : BuddyInv mm c H) {l : Links Link} {xs : List Nat}
    (hxf : ∀ k, x ≠ .freelist k) (hr : PageLists l mm.IsHead (Function.update c x xs))
    (ho : ∀ p ∈ xs, p ∈ c x ∨ ∃ b ∈ H, b.start = p) (hx : mm.IsHead x) :
    BuddyInv { mm with links := l } (Function.update c x xs) H := by
  have hfree : ∀ k, Function.update c x xs (.freelist k) = c (.freelist k) :=
    fun k => Function.update_of_ne (hxf k).symm _ _
  have hfr : frees (Function.update c x xs) = frees c := by
    ext b
    simp only [frees, Set.mem_ofPred_eq, hfree]
  refine ⟨hr, ?_, h.pfn, h.addr, ?_, ?_, ?_, ?_, h.orders, ?_⟩
  · intro k hk
    rw [hfree]
    exact h.count k hk
  · rw [hfr]; exact h.flag
  · rw [hfr]; exact h.tiling
  · rw [hfr]; exact h.apart
  · rw [hfr]; exact h.coalesced
  · intro y hy hyf p hp
    by_cases hyx : y = x
    · subst hyx
      rw [Function.update_self] at hp
      rcases ho p hp with hp | hp
      · exact h.others y hy hyf p hp
      · exact hp
    · rw [Function.update_of_ne hyx] at hp
      exact h.others y hy hyf p hp

theorem BuddyInv.takeOff (h : BuddyInv mm c H) (hx : mm.IsHead x) (hxf : ∀ k, x ≠ .freelist k)
    (hp : p ∈ c x) :
    ∃ l, mm.onLinks (listDel · (.frame p)) = .ok { mm with links := l } ∧
      BuddyInv { mm with links := l } (Function.update c x ((c x).erase p)) H ∧
      ∀ y, mm.IsHead y → p ∉ Function.update c x ((c x).erase p) y := by
  obtain ⟨l, hl, hr⟩ := h.lists.listDel_spec hx hp
  refine ⟨l, ?_, h.relist hxf hr (fun q hq => Or.inl (List.mem_of_mem_erase hq)) hx, ?_⟩
  · simp only [Mm.onLinks, hl, ok_bind]
  · intro y hy hm
    by_cases hyx : y = x
    · subst hyx
      rw [Function.update_self] at hm
      exact ((h.lists.nodup hy).mem_erase_iff.mp hm).1 rfl
    · rw [Function.update_of_ne hyx] at hm
      exact hyx (h.lists.apart hy hx hm hp)

theorem BuddyInv.putOn (h : BuddyInv mm c H) (hx : mm.IsHead x) (hxf : ∀ k, x ≠ .freelist k)
    (hb : ∃ b ∈ H, b.start = p) (hp : ∀ y, mm.IsHead y → p ∉ c y) :
    ∃ l, mm.onLinks (listAddTail · (.frame p) x) = .ok { mm with links := l } ∧
      BuddyInv { mm with links := l } (Function.update c x (c x ++ [p])) H := by
  obtain ⟨l, hl, hr⟩ := h.lists.listAddTail_spec hx id hp
  refine ⟨l, ?_, h.relist hxf hr (fun q hq => ?_) hx⟩
  · simp only [Mm.onLinks, hl, ok_bind]
  · rcases List.mem_append.mp hq with hq | hq
    · exact Or.inl hq
    · exact Or.inr (List.mem_singleton.mp hq ▸ hb)

/-! ## The counters of the allocator -/

/-- Changing one term of a sum. -/
theorem sum_map_shift {f g : Nat → Int} {xs : List Nat} {d : Int} (hn : xs.Nodup) (hp : p ∈ xs)
    (hd : g p = f p + d) (hq : ∀ q, q ≠ p → g q = f q) : (xs.map g).sum = (xs.map f).sum + d := by
  have hperm := List.perm_cons_erase hp
  have herase : (xs.erase p).map g = (xs.erase p).map f :=
    List.map_congr_left (fun q hm => hq q (hn.mem_erase_iff.mp hm).1)
  rw [(hperm.map g).sum_eq, (hperm.map f).sum_eq, List.map_cons, List.map_cons, List.sum_cons,
    List.sum_cons, herase, hd]
  omega

/-- A page of `t` moved between its places, and `d` objects more on it. -/
theorem TokenInv.shift (h : TokenInv mm c t) (hT : Touches mm mm' c c' t p) {d : Int}
    (hperm : (tokenPages mm' c' t).Perm (tokenPages mm c t))
    (hp : (mm.bookkeep p).objAlloc = some t) (hp' : (mm'.bookkeep p).objAlloc = some t)
    (hu : (mm'.bookkeep p).objUsed = (mm.bookkeep p).objUsed + d)
    (hpu : (mm'.objAllocPool t).pageUsed = (mm.objAllocPool t).pageUsed)
    (hou : (mm'.objAllocPool t).objUsed = (mm.objAllocPool t).objUsed + d)
    (hcurr : ∀ q, (mm'.objAllocPool t).currPage = some q →
      (mm'.bookkeep q).objUsed < (mm.objAllocPool t).objPerPage)
    (hfull : ∀ q ∈ c' (.fullList t), (mm'.bookkeep q).objUsed = (mm.objAllocPool t).objPerPage)
    (hpart : ∀ q ∈ c' (.partialList t), 0 < (mm'.bookkeep q).objUsed ∧
      (mm'.bookkeep q).objUsed < (mm.objAllocPool t).objPerPage)
    (hempty : ∀ q ∈ c' (.emptyList t), (mm'.bookkeep q).objUsed = 0) : TokenInv mm' c' t where
  size := by rw [hT.size.1, hT.size.2]; exact h.size
  owned := by
    intro q
    rw [hperm.mem_iff, h.owned q]
    by_cases hqp : q = p
    · subst hqp; rw [hp, hp']
    · rw [(hT.page q hqp).2.1]
  nodup := hperm.nodup_iff.mpr h.nodup
  pageUsed := by rw [hpu, h.pageUsed, hperm.length_eq]
  objUsed := by
    rw [hou, h.objUsed, (hperm.map _).sum_eq]
    exact (sum_map_shift h.nodup ((h.owned p).mpr hp) hu (fun q hq => (hT.page q hq).1)).symm
  curr := by rw [hT.size.2]; exact hcurr
  full := by rw [hT.size.2]; exact hfull
  part := by rw [hT.size.2]; exact hpart
  empty := hempty

end OsdiKernel
