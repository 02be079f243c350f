import OsdiKernel.Mm.PreemptedInv

/-!
# The statements of `obj_allocate`

What each statement leaves of the allocators, of what the call that executes it
knows, and of what all the others do. The first write only counters, or a block
that nobody had; then come those that write a page, those that write `curr_page`,
and the one that puts a page on the full list.
-/

namespace OsdiKernel

variable {mm mm' : Mm} {c c' : Link → List Nat} {H H' : Set Block} {t u p q a k : Nat} {x y z : MallocPc}

/-! ## Statements that write nothing of consequence -/

/-- A statement that takes a call from `x` to `y`: what it leaves of the allocators, of what that call knows, and of
what every other one does. -/
structure Moves (mm : Mm) (c : Link → List Nat) (H : Set Block) (x : MallocPc) (mm' : Mm) (c' : Link → List Nat)
    (H' : Set Block) (y : MallocPc) : Prop where
  obj : ObjInv mm' c' H'
  here : PcOk mm' c' H' y
  others : ∀ z, PcApart x z → PcOk mm c H z → PcOk mm' c' H' z
  /-- A current page that is on the full list was so before, or the call has just put it there. -/
  away : ∀ u q, (mm'.objAllocPool u).currPage = some q → q ∈ c' (.fullList u) →
    y.putAway u q = true ∨ (mm.objAllocPool u).currPage = some q ∧ q ∈ c (.fullList u) ∧ x.putAway u q = false
  /-- What the call has counted is counted. -/
  count : ∀ u, (mm'.objAllocPool u).objUsed + (if x.counted u then 1 else 0)
    = (mm.objAllocPool u).objUsed + (if y.counted u then 1 else 0)

/-- Nothing is written. -/
theorem Moves.read (h : ObjInv mm c H) (hy : PcOk mm c H y) (haway : ∀ u q, x.putAway u q = false)
    (hcount : ∀ u, y.counted u = x.counted u) : Moves mm c H x mm c H y :=
  ⟨h, hy, fun _ _ hz => hz, fun u q hc hm => Or.inr ⟨hc, hm, haway u q⟩, fun u => by rw [hcount u]⟩

/-- Nothing is written but a counter of the pool. -/
theorem Moves.counter {f : ObjAllocator → ObjAllocator} (hf : ∀ o, (f o).currPage = o.currPage ∧ (f o).objsize = o.objsize ∧
    (f o).objPerPage = o.objPerPage) (h : ObjInv mm c H) (hy : PcOk mm c H y) (haway : ∀ u q, x.putAway u q = false)
    (hcount : ∀ u, ((mm.updatePool t f).objAllocPool u).objUsed + (if x.counted u then 1 else 0)
      = (mm.objAllocPool u).objUsed + (if y.counted u then 1 else 0)) : Moves mm c H x (mm.updatePool t f) c H y := by
  have hsame := SameSlab.updatePool hf mm t
  have hb : BuddyInv (mm.updatePool t f) c H := h.buddy.congr rfl rfl hsame.isHead (fun _ => ⟨rfl, rfl, rfl, fun _ => rfl⟩)
  have hi := hsame.objInv h hb (Set.Subset.refl H) (fun _ _ => rfl)
  refine ⟨hi, (hsame.leavesAlone (Set.Subset.refl H) (fun _ => rfl)).pcOk hi hy,
    fun z _ hz => (hsame.leavesAlone (Set.Subset.refl H) (fun _ => rfl)).pcOk hi hz, fun u q hc hm => ?_, hcount⟩
  rw [hsame.currPage] at hc
  exact Or.inr ⟨hc, hm, haway u q⟩

/-- A new block, and a call that has nothing else. -/
theorem NewBlock.moves (h : ObjInv.NewBlock mm c H k p mm' c') (hy : PcOk mm' c' (insert ⟨p, k⟩ H) y)
    (haway : ∀ u q, x.putAway u q = false) (hcount : ∀ u, y.counted u = x.counted u) :
    Moves mm c H x mm' c' (insert ⟨p, k⟩ H) y := by
  refine ⟨h.obj, hy, fun _ _ hz => ?_, fun u q hc hm => ?_, fun u => by rw [hcount u, h.pool]⟩
  · exact (h.same.leavesAlone (Set.subset_insert _ _) (fun _ => h.others _ (by simp))).pcOk h.obj hz
  · rw [h.same.currPage] at hc
    rw [h.others _ (by simp)] at hm
    exact Or.inr ⟨hc, hm, haway u q⟩

/-- It is nobody else's. -/
theorem NewBlock.apart (h : ObjInv.NewBlock mm c H k p mm' c') (hi : ObjInv mm c H) (hz : PcOk mm c H z)
    (hp : y.page = some p ∧ y.addr = none ∨ y.page = none ∧ y.addr = some (frameAddr p)) (hu : ∀ t, y.uncounted t = false) :
    PcApart y z := by
  have hlt : p < pageFrameNum := h.obj.start_lt (Set.mem_insert _ _)
  have hpage : ∀ q, z.page = some q → q ≠ p := fun q hq => h.fresh _ (hz.page_mem hi hq)
  have haddr : ∀ b, z.addr = some b → phyAddrToPfn b ≠ p := by
    intro b hb
    obtain ⟨j, hj⟩ := hi.addr_mem hz hb
    exact h.fresh _ hj
  refine ⟨?_, ?_, ?_, ?_, fun t ht => absurd ht (by simp [hu t])⟩
  · intro q hq hzq
    rcases hp with ⟨hp, _⟩ | ⟨hp, _⟩
    · rw [hp] at hq
      exact hpage q hzq (Option.some.inj hq).symm
    · rw [hp] at hq
      exact absurd hq (by simp)
  · intro b hb hzb
    rcases hp with ⟨_, hp⟩ | ⟨_, hp⟩
    · rw [hp] at hb
      exact absurd hb (by simp)
    · rw [hp] at hb
      obtain rfl := Option.some.inj hb
      exact haddr _ hzb (phyAddrToPfn_frame hlt)
  · intro b q hb hzq
    rcases hp with ⟨_, hp⟩ | ⟨_, hp⟩
    · rw [hp] at hb
      exact absurd hb (by simp)
    · rw [hp] at hb
      obtain rfl := Option.some.inj hb
      rw [phyAddrToPfn_frame hlt]
      exact fun he => hpage q hzq he.symm
  · intro b q hzb hq
    rcases hp with ⟨hp, _⟩ | ⟨hp, _⟩
    · rw [hp] at hq
      rw [← Option.some.inj hq]
      exact haddr b hzb
    · rw [hp] at hq
      exact absurd hq (by simp)

/-! ## Statements that write a page -/

/-- A page may be written, if it belongs to an allocator only as a page should. -/
theorem ObjInv.updatePage {f : Page → Page} (h : ObjInv mm c H)
    (hf : ∀ q, (f q).pfn = q.pfn ∧ (f q).phyAddr = q.phyAddr ∧ (f q).used = q.used ∧ (f q).order = q.order)
    (hp : ∀ t, (f (mm.bookkeep p)).objAlloc = some t → ⟨p, 0⟩ ∈ H ∧ mm.Registered t ∧ (f (mm.bookkeep p)).free = none ∧
      0 ≤ (f (mm.bookkeep p)).objUsed ∧ (f (mm.bookkeep p)).objUsed ≤ (mm.objAllocPool t).objPerPage)
    (hkeep : ∀ t, (mm.bookkeep p).objAlloc = some t → (f (mm.bookkeep p)).objAlloc = some t) :
    ObjInv (mm.updatePage p f) c H := by
  have hself : (mm.updatePage p f).bookkeep p = f (mm.bookkeep p) := mm.updatePage_self p f
  have hne : ∀ q, q ≠ p → (mm.updatePage p f).bookkeep q = mm.bookkeep q := fun q hq => mm.updatePage_ne p q f hq
  have howned : ∀ q t, (mm.bookkeep q).objAlloc = some t → ((mm.updatePage p f).bookkeep q).objAlloc = some t := by
    intro q t hq
    by_cases hqp : q = p
    · subst hqp
      rw [hself]
      exact hkeep t hq
    · rw [hne q hqp]
      exact hq
  refine ⟨h.buddy.congr rfl rfl rfl (fun q => ?_), h.classes, h.sized, h.lists, ?_, ?_, ?_, ?_, ?_⟩
  · by_cases hqp : q = p
    · subst hqp
      rw [hself]
      obtain ⟨h1, h2, h3, h4⟩ := hf (mm.bookkeep q)
      exact ⟨h1, h2, h3, fun _ => h4⟩
    · rw [hne q hqp]
      exact ⟨rfl, rfl, rfl, fun _ => rfl⟩
  · intro q t hq
    by_cases hqp : q = p
    · subst hqp
      rw [hself] at hq
      exact ⟨(hp t hq).1, (hp t hq).2.1⟩
    · rw [hne q hqp] at hq
      exact h.page q t hq
  · intro q t hq
    by_cases hqp : q = p
    · subst hqp
      rw [hself] at hq ⊢
      exact (hp t hq).2.2.1
    · rw [hne q hqp] at hq ⊢
      exact h.chain q t hq
  · intro q t hq
    by_cases hqp : q = p
    · subst hqp
      rw [hself] at hq ⊢
      exact (hp t hq).2.2.2
    · rw [hne q hqp] at hq ⊢
      exact h.used q t hq
  · exact fun t q hq => howned q t (h.curr t q hq)
  · exact fun t q hq => howned q t (h.full t q hq)

/-- What it leaves to a call that has not got the page, if it keeps the owner and counts up where the call's object is. -/
theorem LeavesAlone.updatePage {f : Page → Page} (h : ObjInv mm c H) (hpage : z.page ≠ some p)
    (haddr : ∀ a, z.addr = some a → phyAddrToPfn a = p → (f (mm.bookkeep p)).objAlloc = (mm.bookkeep p).objAlloc ∧
      (mm.bookkeep p).objUsed ≤ (f (mm.bookkeep p)).objUsed)
    (hroom : ∀ t, z.uncounted t = true → (mm.objAllocPool t).currPage ≠ some p) :
    LeavesAlone mm c H (mm.updatePage p f) c H z where
  held := Set.Subset.refl H
  size := fun _ => ⟨rfl, rfl⟩
  page := by
    intro q hq
    rw [mm.updatePage_ne p q f (fun he => hpage (he ▸ hq))]
    exact ⟨rfl, rfl, rfl⟩
  curr := fun _ _ _ hq => hq
  full := fun _ _ _ hq => hq
  owner := by
    intro a ha
    by_cases hap : phyAddrToPfn a = p
    · rw [hap, mm.updatePage_self]
      exact (haddr a ha hap).1
    · rw [mm.updatePage_ne p _ f hap]
  mark := by
    intro t a ha hobj more hb hc
    have hlt := hb hc
    by_cases hap : phyAddrToPfn a = p
    · -- more are counted, so the mark is no lower
      obtain ⟨n, _, _, hn, _⟩ := h.sized t (h.page _ t hobj.owned).2
      have hle := (haddr a ha hap).2
      have hmul : ((mm.bookkeep p).objUsed + more) * (n : Int) ≤ ((f (mm.bookkeep p)).objUsed + more) * n :=
        Int.mul_le_mul_of_nonneg_right (by omega) (Int.natCast_nonneg n)
      rw [hap, mm.updatePage_self, mm.updatePage_pool, hn]
      rw [hap, hn] at hlt
      omega
    · rw [mm.updatePage_ne p _ f hap]
      exact hlt
  room := by
    intro t ht hr q hq
    rw [mm.updatePage_ne p q f (fun he => hroom t ht (he ▸ hq))]
    exact hr q hq

/-- Nobody's page is nobody's current page, -/
theorem ObjInv.not_curr (h : ObjInv mm c H) (hp : (mm.bookkeep p).objAlloc = none) (t : Nat) :
    (mm.objAllocPool t).currPage ≠ some p := by
  intro hc
  rw [h.curr t p hc] at hp
  exact absurd hp (by simp)

/-- and on nobody's full list. -/
theorem ObjInv.not_full (h : ObjInv mm c H) (hp : (mm.bookkeep p).objAlloc = none) (t : Nat) : p ∉ c (.fullList t) := by
  intro hm
  rw [h.full t p hm] at hp
  exact absurd hp (by simp)

/-- A page that a call has got is nobody's current page. -/
theorem PcOk.not_curr (hi : ObjInv mm c H) (hz : PcOk mm c H z) (hp : z.page = some p) (t : Nat) :
    (mm.objAllocPool t).currPage ≠ some p := by
  -- only its owner could have it
  have hown : ∀ u, (mm.bookkeep p).objAlloc = some u → (mm.objAllocPool u).currPage ≠ some p →
      (mm.objAllocPool t).currPage ≠ some p := by
    intro u hu hc ht
    have hut := hi.curr t p ht
    rw [hu] at hut
    exact hc (Option.some.inj hut ▸ ht)
  cases z <;> simp only [MallocPc.page, Option.some.injEq, reduceCtorEq] at hp
  case initPage u q =>
    subst hp
    exact hi.not_curr hz.2.2 t
  case setObjAlloc u q =>
    subst hp
    exact hi.not_curr hz.2.2.1 t
  case countPage u q =>
    subst hp
    exact hown u hz.1 hz.2.2.1
  case setCurr u q =>
    subst hp
    exact hown u hz.1 hz.2.2.1

/-- `__init_obj_page(page_p)` -/
theorem Moves.initPage (h : ObjInv mm c H) (hx : PcOk mm c H (.initPage t p)) :
    Moves mm c H (.initPage t p) (initObjPage mm p) c H (.setObjAlloc t p) := by
  obtain ⟨hreg, hp, hnone⟩ := hx
  have hi : ObjInv (initObjPage mm p) c H :=
    h.updatePage (fun _ => ⟨rfl, rfl, rfl, rfl⟩) (fun _ ht => absurd ht (by simp))
      (fun t ht => absurd (hnone.symm.trans ht) (by simp))
  refine ⟨hi, ?_, fun z hz hok => LeavesAlone.pcOk ?_ hi hok, fun u q hc hm => Or.inr ⟨hc, hm, rfl⟩, fun u => rfl⟩
  · have hself : (initObjPage mm p).bookkeep p = { mm.bookkeep p with objUsed := 0, objAlloc := none, free := none } :=
      mm.updatePage_self p _
    exact ⟨hreg, hp, by rw [hself], by rw [hself], by rw [hself]⟩
  · exact LeavesAlone.updatePage h (hz.pages p rfl) (fun a ha hap => absurd hap (hz.right a p ha rfl))
      (fun u _ => h.not_curr hnone u)

/-- `page_p->obj_alloc = obj_allocator_p` -/
theorem Moves.setObjAlloc (h : ObjInv mm c H) (hx : PcOk mm c H (.setObjAlloc t p)) :
    Moves mm c H (.setObjAlloc t p) (mm.updatePage p (fun q => { q with objAlloc := some t })) c H (.countPage t p) := by
  obtain ⟨hreg, hp, hnone, hused, hfree⟩ := hx
  have hi : ObjInv (mm.updatePage p (fun q => { q with objAlloc := some t })) c H := by
    refine h.updatePage (fun _ => ⟨rfl, rfl, rfl, rfl⟩) (fun u hu => ?_) (fun u hu => absurd (hnone.symm.trans hu) (by simp))
    obtain rfl : t = u := Option.some.inj hu
    obtain ⟨n, _, _, _, hper⟩ := h.sized t hreg
    refine ⟨hp, hreg, hfree, le_of_eq hused.symm, ?_⟩
    show (mm.bookkeep p).objUsed ≤ _
    rw [hused, hper]
    exact Int.natCast_nonneg _
  refine ⟨hi, ?_, fun z hz hok => LeavesAlone.pcOk ?_ hi hok, fun u q hc hm => Or.inr ⟨hc, hm, rfl⟩, fun u => rfl⟩
  · refine ⟨?_, ?_, h.not_curr hnone t, h.not_full hnone t⟩
    · rw [mm.updatePage_self]
    · rw [mm.updatePage_self]
      exact hused
  · exact LeavesAlone.updatePage h (hz.pages p rfl) (fun a ha hap => absurd hap (hz.right a p ha rfl))
      (fun u _ => h.not_curr hnone u)

/-- `obj_allocator_p->curr_page->obj_used += 1` -/
theorem Moves.countOnPage (h : ObjInv mm c H) (hx : PcOk mm c H (.countOnPage t a)) (hc : (mm.objAllocPool t).currPage = some p) :
    Moves mm c H (.countOnPage t a) (mm.updatePage p (fun q => { q with objUsed := q.objUsed + 1 })) c H (.testFull t a) := by
  obtain ⟨hobj, hmark, hroom⟩ := hx
  have hown := h.curr t p hc
  have hlt := hroom p hc
  have hge := (h.used p t hown).1
  have hi : ObjInv (mm.updatePage p (fun q => { q with objUsed := q.objUsed + 1 })) c H := by
    refine h.updatePage (fun _ => ⟨rfl, rfl, rfl, rfl⟩) (fun u hu => ?_) (fun u hu => hu)
    obtain rfl : t = u := Option.some.inj (hown.symm.trans hu)
    refine ⟨(h.page p t hown).1, (h.page p t hown).2, h.chain p t hown, ?_, ?_⟩
    · show 0 ≤ (mm.bookkeep p).objUsed + 1
      omega
    · show (mm.bookkeep p).objUsed + 1 ≤ _
      omega
  refine ⟨hi, ⟨⟨?_, hobj.addr⟩, ?_⟩, fun z hz hok => LeavesAlone.pcOk ?_ hi hok,
    fun u q hc hm => Or.inr ⟨hc, hm, rfl⟩, fun u => rfl⟩
  · by_cases hap : phyAddrToPfn a = p
    · rw [hap, mm.updatePage_self]
      exact hown
    · rw [mm.updatePage_ne p _ _ hap]
      exact hobj.owned
  · -- the object is counted now
    intro hca
    have hap : phyAddrToPfn a = p := Option.some.inj (hca.symm.trans hc)
    have := hmark hca
    rw [hap] at this ⊢
    rw [mm.updatePage_self, Int.add_zero]
    exact this
  · refine LeavesAlone.updatePage h (fun hp => hok.not_curr h hp t hc) (fun b _ _ => ⟨rfl, ?_⟩) (fun u hu hcu => ?_)
    · show (mm.bookkeep p).objUsed ≤ (mm.bookkeep p).objUsed + 1
      omega
    · -- no other call has an address of this allocator's that is not counted
      obtain rfl : t = u := Option.some.inj (hown.symm.trans (h.curr u p hcu))
      rw [hz.once t (by simp [MallocPc.uncounted])] at hu
      exact absurd hu (by simp)

/-! ## Statements that write `curr_page` -/

/-- The current page may be any page of the allocator's, or none. -/
theorem ObjInv.setCurrPage (h : ObjInv mm c H) (v : Option Nat) (hv : ∀ p, v = some p → (mm.bookkeep p).objAlloc = some t) :
    ObjInv (mm.updatePool t (fun o => { o with currPage := v })) c H := by
  have hsize : ∀ u, ((mm.updatePool t (fun o => { o with currPage := v })).objAllocPool u).objsize = (mm.objAllocPool u).objsize ∧
      ((mm.updatePool t (fun o => { o with currPage := v })).objAllocPool u).objPerPage = (mm.objAllocPool u).objPerPage := by
    intro u
    by_cases hu : u = t
    · subst hu
      rw [mm.updatePool_self]
      exact ⟨rfl, rfl⟩
    · rw [mm.updatePool_ne t u _ hu]
      exact ⟨rfl, rfl⟩
  have hreg : ∀ u, (mm.updatePool t (fun o => { o with currPage := v })).Registered u ↔ mm.Registered u := by
    intro u
    rw [Mm.Registered, Mm.Registered, (hsize u).1]
  refine ⟨h.buddy.congr rfl rfl (Mm.isHead_registered hreg) (fun _ => ⟨rfl, rfl, rfl, fun _ => rfl⟩), fun u hu => (hreg u).mpr (h.classes u hu), ?_,
    h.lists, fun p u hp => ⟨(h.page p u hp).1, (hreg u).mpr (h.page p u hp).2⟩, h.chain, ?_, ?_, h.full⟩
  · intro u hu
    rw [(hsize u).1, (hsize u).2]
    exact h.sized u ((hreg u).mp hu)
  · intro p u hp
    rw [(hsize u).2]
    exact h.used p u hp
  · intro u p hp
    by_cases hu : u = t
    · subst hu
      rw [mm.updatePool_self] at hp
      exact hv p hp
    · rw [mm.updatePool_ne t u _ hu] at hp
      exact h.curr u p hp

/-- What it leaves to a call that has neither got the new one nor an object on it. -/
theorem LeavesAlone.setCurrPage (v : Option Nat) (hpage : ∀ p, z.page = some p → v ≠ some p)
    (haddr : ∀ a, z.addr = some a → v ≠ some (phyAddrToPfn a))
    (hroom : ∀ p, v = some p → (mm.bookkeep p).objUsed < (mm.objAllocPool t).objPerPage) :
    LeavesAlone mm c H (mm.updatePool t (fun o => { o with currPage := v })) c H z := by
  refine ⟨Set.Subset.refl H, fun u => ?_, fun _ _ => ⟨rfl, rfl, rfl⟩, fun q u hq hne => ?_, fun _ _ _ hq => hq,
    fun _ _ => rfl, fun u a ha _ more hb => ?_, fun u _ hr => ?_⟩ <;> by_cases hu : u = t
  · subst hu
    rw [mm.updatePool_self]
    exact ⟨rfl, rfl⟩
  · rw [mm.updatePool_ne t u _ hu]
    exact ⟨rfl, rfl⟩
  · subst hu
    rw [mm.updatePool_self]
    exact hpage q hq
  · rw [mm.updatePool_ne t u _ hu]
    exact hne
  · subst hu
    intro hc
    rw [mm.updatePool_self] at hc
    exact absurd hc (haddr a ha)
  · intro hc
    rw [mm.updatePool_ne t u _ hu] at hc ⊢
    exact hb hc
  · subst hu
    intro p hp
    rw [mm.updatePool_self] at hp ⊢
    exact hroom p hp
  · intro p hp
    rw [mm.updatePool_ne t u _ hu] at hp ⊢
    exact hr p hp

/-- `obj_allocator_p->curr_page = page_p` -/
theorem Moves.setCurr (h : ObjInv mm c H) (hx : PcOk mm c H (.setCurr t p)) :
    Moves mm c H (.setCurr t p) (mm.updatePool t (fun o => { o with currPage := some p })) c H (.readFree t) := by
  obtain ⟨hown, hused, _, hfull⟩ := hx
  have hreg := (h.page p t hown).2
  obtain ⟨n, hn8, hn, _, hper⟩ := h.sized t hreg
  have hroom : (mm.bookkeep p).objUsed < (mm.objAllocPool t).objPerPage := by
    have hpos : 0 < 4096 / n := Nat.div_pos (by omega) (by omega)
    rw [hused, hper]
    exact_mod_cast hpos
  have hi := h.setCurrPage (t := t) (some p) (fun q hq => Option.some.inj hq ▸ hown)
  refine ⟨hi, ?_, fun z hz hok => LeavesAlone.pcOk ?_ hi hok, fun u q hc hm => ?_, fun u => ?_⟩
  · show (mm.updatePool t _).Registered t
    rw [Mm.Registered, mm.updatePool_self]
    exact hreg
  · refine LeavesAlone.setCurrPage (some p) (fun q hq he => hz.pages p rfl (he ▸ hq)) (fun a ha he => ?_) (fun q hq => ?_)
    · exact hz.right a p ha rfl (Option.some.inj he).symm
    · obtain rfl := Option.some.inj hq
      exact hroom
  · -- the page was on no list when it was got
    by_cases hu : u = t
    · subst hu
      rw [mm.updatePool_self] at hc
      exact absurd (Option.some.inj hc ▸ hm) hfull
    · rw [mm.updatePool_ne t u _ hu] at hc
      exact Or.inr ⟨hc, hm, rfl⟩
  · by_cases hu : u = t
    · subst hu
      rw [mm.updatePool_self]
      rfl
    · rw [mm.updatePool_ne t u _ hu]
      rfl

/-- `obj_allocator_p->curr_page = NULL` -/
theorem Moves.clearCurr (h : ObjInv mm c H) (hx : PcOk mm c H (.clearCurr t a p)) :
    Moves mm c H (.clearCurr t a p) (mm.updatePool t (fun o => { o with currPage := none })) c H (.ret (.slab t) a) := by
  have hi := h.setCurrPage (t := t) none (fun q hq => absurd hq (by simp))
  have hleave : ∀ z, LeavesAlone mm c H (mm.updatePool t (fun o => { o with currPage := none })) c H z := fun z =>
    LeavesAlone.setCurrPage none (fun q _ => by simp) (fun a _ => by simp) (fun q hq => absurd hq (by simp))
  refine ⟨hi, (hleave _).pcOk hi (z := .ret (.slab t) a) hx, fun z _ hok => (hleave z).pcOk hi hok, fun u q hc hm => ?_, fun u => ?_⟩
  · by_cases hu : u = t
    · subst hu
      rw [mm.updatePool_self] at hc
      exact absurd hc (by simp)
    · rw [mm.updatePool_ne t u _ hu] at hc
      exact Or.inr ⟨hc, hm, by simp [MallocPc.putAway, Ne.symm hu]⟩
  · by_cases hu : u = t
    · subst hu
      rw [mm.updatePool_self]
      rfl
    · rw [mm.updatePool_ne t u _ hu]
      rfl

/-! ## The address, and the full list -/

/-- `allocated_addr = curr_page->phy_addr + curr_page->obj_used * objsize` -/
theorem readAddr_spec (h : ObjInv mm c H) (hc : (mm.objAllocPool t).currPage = some p)
    (hroom : (mm.bookkeep p).objUsed < (mm.objAllocPool t).objPerPage)
    (ha : a = ((mm.bookkeep p).phyAddr + (mm.bookkeep p).objUsed * (mm.objAllocPool t).objsize).toNat) :
    phyAddrToPfn a = p ∧ (a : Int) = frameAddr p + (mm.bookkeep p).objUsed * (mm.objAllocPool t).objsize ∧
      PcOk mm c H (.countObj t a) := by
  have hown := h.curr t p hc
  have hsize := h.sized t (h.page p t hown).2
  have hlt := h.start_lt (h.page p t hown).1
  obtain ⟨m, hm⟩ := Int.eq_ofNat_of_zero_le (h.used p t hown).1
  obtain ⟨n, hn8, _, hn, hper⟩ := hsize
  have haddr : (a : Int) = frameAddr p + (m : Int) * n := by
    rw [ha, h.buddy.addr p hlt, hm, hn]
    simp only [frameAddr]
    exact_mod_cast rfl
  have hobj : ObjAddr mm t p a := ⟨m, hm ▸ hroom, by rw [hn]; exact haddr⟩
  have hpfn := hobj.pfn_size (h.sized t (h.page p t hown).2) hlt
  refine ⟨hpfn, by rw [hm, hn]; exact haddr, ⟨by rw [hpfn]; exact hown, by rw [hpfn]; exact hobj⟩, ?_, ?_⟩
  · -- one object past the mark
    intro _
    rw [hpfn, hm, hn, haddr, Int.add_mul]
    omega
  · intro q hq
    obtain rfl := Option.some.inj (hc.symm.trans hq)
    exact hroom

/-- Nobody else has it, nor is about to have it. -/
theorem PcApart.readAddr (h : ObjInv mm c H) (hz : PcOk mm c H z) (hc : (mm.objAllocPool t).currPage = some p)
    (hu : z.uncounted t = false) (hpfn : phyAddrToPfn a = p)
    (ha : (a : Int) = frameAddr p + (mm.bookkeep p).objUsed * (mm.objAllocPool t).objsize) : PcApart (.countObj t a) z where
  pages := fun q hq => absurd hq (by simp [MallocPc.page])
  addrs := by
    intro b hb hzb
    obtain rfl := Option.some.inj hb
    have hown := h.curr t p hc
    rcases hz.addr_cases hzb with ⟨u, hobj, hmark⟩ | ⟨k, q, hq, hmem, hnone⟩
    · -- an object of the same page is the same allocator's, and below the mark
      have hou := hobj.owned
      rw [hpfn] at hou
      obtain rfl : t = u := Option.some.inj (hown.symm.trans hou)
      have hlow := hmark.resolve_left (by simp [hu]) (by rw [hpfn]; exact hc)
      rw [hpfn, Int.add_zero, ← ha] at hlow
      exact Int.lt_irrefl _ hlow
    · -- a whole block has no owner
      rw [hq, phyAddrToPfn_frame (h.start_lt hmem)] at hpfn
      rw [hpfn, hown] at hnone
      exact absurd hnone (by simp)
  left := by
    intro b q hb hq hbq
    obtain rfl := Option.some.inj hb
    exact hz.not_curr h hq t (by rw [← hbq, hpfn]; exact hc)
  right := fun _ q _ hq => absurd hq (by simp [MallocPc.page])
  once := by
    intro u hut
    have : t = u := by simpa [MallocPc.uncounted] using hut
    exact this ▸ hu

/-- `list_add_tail(&obj_allocator_p->curr_page->list, &obj_allocator_p->full)` -/
theorem Moves.putOnFull (h : ObjInv mm c H) (hx : PcOk mm c H (.putOnFull t a)) (hc : (mm.objAllocPool t).currPage = some p)
    (hnot : p ∉ c (.fullList t)) :
    ∃ l c', mm.onLinks (listAddTail · (.frame p) (.fullList t)) = .ok { mm with links := l } ∧
      Moves mm c H (.putOnFull t a) { mm with links := l } c' H (.clearCurr t a p) := by
  have hown := h.curr t p hc
  have hhead : mm.IsHead (.fullList t) := (h.page p t hown).2
  have hloose : ∀ y, mm.IsHead y → p ∉ c y := by
    intro y hy hm
    cases y with
    | frame q => exact hy
    | freelist k => exact h.not_free hown hy hm
    | fullList u =>
        obtain rfl : t = u := Option.some.inj (hown.symm.trans (h.full u p hm))
        exact hnot hm
    | partialList u =>
        rw [(h.lists u).1] at hm
        exact absurd hm (by simp)
    | emptyList u =>
        rw [(h.lists u).2] at hm
        exact absurd hm (by simp)
  obtain ⟨l, hrun, hb⟩ := h.buddy.putOn hhead (by simp) ⟨⟨p, 0⟩, (h.page p t hown).1, rfl⟩ hloose
  have hfull : ∀ u q, q ∈ Function.update c (.fullList t) (c (.fullList t) ++ [p]) (.fullList u) →
      q ∈ c (.fullList u) ∨ u = t ∧ q = p := by
    intro u q hq
    by_cases hu : u = t
    · subst hu
      rw [Function.update_self] at hq
      rcases List.mem_append.mp hq with hq | hq
      · exact Or.inl hq
      · exact Or.inr ⟨rfl, List.mem_singleton.mp hq⟩
    · rw [Function.update_of_ne (fun he => hu (Link.fullList.inj he))] at hq
      exact Or.inl hq
  have hi : ObjInv { mm with links := l } (Function.update c (.fullList t) (c (.fullList t) ++ [p])) H := by
    refine ⟨hb, h.classes, h.sized, fun u => ?_, h.page, h.chain, h.used, h.curr, fun u q hq => ?_⟩
    · rw [Function.update_of_ne (by simp), Function.update_of_ne (by simp)]
      exact h.lists u
    · rcases hfull u q hq with hq | ⟨rfl, rfl⟩
      · exact h.full u q hq
      · exact hown
  refine ⟨l, _, hrun, hi, ⟨⟨hx.1.owned, hx.1.addr⟩, hx.2⟩, fun z _ hok => LeavesAlone.pcOk ?_ hi hok, fun u q hcq hq => ?_, fun u => rfl⟩
  · refine ⟨Set.Subset.refl H, fun _ => ⟨rfl, rfl⟩, fun _ _ => ⟨rfl, rfl, rfl⟩, fun _ _ _ hq => hq, fun q u hq hn hm => ?_,
      fun _ _ => rfl, fun _ _ _ _ _ hm => hm, fun _ _ hr => hr⟩
    -- the page that was put there is current, and what another call has got is not
    rcases hfull u q hm with hm | ⟨_, rfl⟩
    · exact hn hm
    · exact hok.not_curr h hq t hc
  · rcases hfull u q hq with hq | ⟨rfl, rfl⟩
    · exact Or.inr ⟨hcq, hq, rfl⟩
    · exact Or.inl (by simp [MallocPc.putAway])

end OsdiKernel
