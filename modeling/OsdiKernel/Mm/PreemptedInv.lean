import OsdiKernel.Mm.Preempted

/-!
# What holds between two statements

Nothing is freed here, so less is true than in `SlabInv` and less is needed. A
page may be lost: two calls that both found no current page each bring one, and
the second takes the first's place. What keeps the addresses apart is that on the
current page everything lies below its `obj_used`, but for what one call has
computed and not yet counted.

`PcOk` is what a call knows at each of its statements, `PcApart` what any two
calls have to do with each other. For each statement there is one lemma, about
the call that executes it and about all the others.
-/

namespace OsdiKernel

variable {mm mm' : Mm} {c c' : Link → List Nat} {H H' : Set Block} {t u p q a k : Nat} {x y z : MallocPc}

/-! ## The allocators -/

/-- The allocators and their pages; `H` is every block that was ever handed out. -/
structure ObjInv (mm : Mm) (c : Link → List Nat) (H : Set Block) : Prop where
  buddy : BuddyInv mm c H
  classes : ∀ t, t < 9 → mm.Registered t
  /-- Objects fit a page, at least two to a page. -/
  sized : ∀ t, mm.Registered t → ∃ n : Nat, 8 ≤ n ∧ n ≤ 2048 ∧ (mm.objAllocPool t).objsize = n ∧
    (mm.objAllocPool t).objPerPage = (4096 / n : Nat)
  lists : ∀ t, c (.partialList t) = [] ∧ c (.emptyList t) = []
  page : ∀ p t, (mm.bookkeep p).objAlloc = some t → ⟨p, 0⟩ ∈ H ∧ mm.Registered t
  chain : ∀ p t, (mm.bookkeep p).objAlloc = some t → (mm.bookkeep p).free = none
  used : ∀ p t, (mm.bookkeep p).objAlloc = some t →
    0 ≤ (mm.bookkeep p).objUsed ∧ (mm.bookkeep p).objUsed ≤ (mm.objAllocPool t).objPerPage
  curr : ∀ t p, (mm.objAllocPool t).currPage = some p → (mm.bookkeep p).objAlloc = some t
  full : ∀ t, ∀ p ∈ c (.fullList t), (mm.bookkeep p).objAlloc = some t

/-- What the object allocators read is the same, and what the buddy allocator reads is in order. -/
structure SameSlab (mm mm' : Mm) : Prop where
  currPage : ∀ t, (mm'.objAllocPool t).currPage = (mm.objAllocPool t).currPage
  objsize : ∀ t, (mm'.objAllocPool t).objsize = (mm.objAllocPool t).objsize
  objPerPage : ∀ t, (mm'.objAllocPool t).objPerPage = (mm.objAllocPool t).objPerPage
  objAlloc : ∀ p, (mm'.bookkeep p).objAlloc = (mm.bookkeep p).objAlloc
  objUsed : ∀ p, (mm'.bookkeep p).objUsed = (mm.bookkeep p).objUsed
  free : ∀ p, (mm'.bookkeep p).free = (mm.bookkeep p).free

/-- An object of `t`. -/
structure ObjAt (mm : Mm) (t a : Nat) : Prop where
  owned : (mm.bookkeep (phyAddrToPfn a)).objAlloc = some t
  addr : ObjAddr mm t (phyAddrToPfn a) a

/-- If the object is on the current page, `obj_used` and so many more reach past it. -/
def BelowMark (mm : Mm) (t a : Nat) (more : Int) : Prop :=
  (mm.objAllocPool t).currPage = some (phyAddrToPfn a) →
    (a : Int) < frameAddr (phyAddrToPfn a) + ((mm.bookkeep (phyAddrToPfn a)).objUsed + more) * (mm.objAllocPool t).objsize

/-- The current page, if there is one, has room. -/
def CurrRoom (mm : Mm) (t : Nat) : Prop :=
  ∀ p, (mm.objAllocPool t).currPage = some p → (mm.bookkeep p).objUsed < (mm.objAllocPool t).objPerPage

/-! ## The calls -/

/-- What is known at each statement. -/
def PcOk (mm : Mm) (c : Link → List Nat) (H : Set Block) : MallocPc → Prop
  | .idle => True
  | .testCurr t | .testPartial t | .testEmpty t | .demand t | .readFree t | .readAddr t => mm.Registered t
  -- the partial and the empty lists stay empty
  | .firstOf _ _ | .unlink _ _ => False
  | .initPage t p => mm.Registered t ∧ ⟨p, 0⟩ ∈ H ∧ (mm.bookkeep p).objAlloc = none
  | .setObjAlloc t p => mm.Registered t ∧ ⟨p, 0⟩ ∈ H ∧ (mm.bookkeep p).objAlloc = none ∧
      (mm.bookkeep p).objUsed = 0 ∧ (mm.bookkeep p).free = none
  | .countPage t p | .setCurr t p => (mm.bookkeep p).objAlloc = some t ∧ (mm.bookkeep p).objUsed = 0 ∧
      (mm.objAllocPool t).currPage ≠ some p ∧ p ∉ c (.fullList t)
  | .countObj t a | .countOnPage t a => ObjAt mm t a ∧ BelowMark mm t a 1 ∧ CurrRoom mm t
  | .testFull t a | .putOnFull t a | .clearCurr t a _ | .ret (.slab t) a => ObjAt mm t a ∧ BelowMark mm t a 0
  | .block k => k ≤ maxOrder
  | .ret (.buddy k) a => ∃ p, a = frameAddr p ∧ ⟨p, k⟩ ∈ H ∧ (mm.bookkeep p).objAlloc = none

namespace MallocPc

/-- The page a call has got and not yet made the current one. -/
def page : MallocPc → Option Nat
  | .initPage _ p | .setObjAlloc _ p | .countPage _ p | .setCurr _ p => some p
  | _ => none

/-- The object is counted in the allocator. -/
def counted (t : Nat) : MallocPc → Bool
  | .countOnPage u _ | .testFull u _ | .putOnFull u _ | .clearCurr u _ _ | .ret (.slab u) _ => u = t
  | _ => false

end MallocPc

/-- What two calls have to do with each other. -/
structure PcApart (x y : MallocPc) : Prop where
  pages : ∀ p, x.page = some p → y.page ≠ some p
  addrs : ∀ a, x.addr = some a → y.addr ≠ some a
  left : ∀ a p, x.addr = some a → y.page = some p → phyAddrToPfn a ≠ p
  right : ∀ a p, y.addr = some a → x.page = some p → phyAddrToPfn a ≠ p
  once : ∀ t, x.uncounted t = true → y.uncounted t = false

theorem PcApart.symm (h : PcApart x y) : PcApart y x where
  pages := fun p hy hx => h.pages p hx hy
  addrs := fun a hy hx => h.addrs a hx hy
  left := h.right
  right := h.left
  once := by
    intro t hy
    cases hx : x.uncounted t with
    | false => rfl
    | true =>
        rw [h.once t hx] at hy
        exact absurd hy (by simp)

theorem pcApart_idle (z : MallocPc) : PcApart .idle z where
  pages := fun _ h => absurd h (by simp [MallocPc.page])
  addrs := fun _ h => absurd h (by simp [MallocPc.addr])
  left := fun _ _ h => absurd h (by simp [MallocPc.addr])
  right := fun _ _ _ h => absurd h (by simp [MallocPc.page])
  once := fun _ h => absurd h (by simp [MallocPc.uncounted])

/-- A call that goes on with no more than it had. -/
theorem PcApart.mono (h : PcApart x z) (hp : y.page = x.page ∨ y.page = none) (ha : y.addr = x.addr ∨ y.addr = none)
    (hu : ∀ t, y.uncounted t = true → x.uncounted t = true) : PcApart y z where
  pages := by
    intro p hy
    rcases hp with hp | hp
    · exact h.pages p (hp ▸ hy)
    · rw [hp] at hy
      exact absurd hy (by simp)
  addrs := by
    intro a hy
    rcases ha with ha | ha
    · exact h.addrs a (ha ▸ hy)
    · rw [ha] at hy
      exact absurd hy (by simp)
  left := by
    intro a p hy
    rcases ha with ha | ha
    · exact h.left a p (ha ▸ hy)
    · rw [ha] at hy
      exact absurd hy (by simp)
  right := by
    intro a p hz hy
    rcases hp with hp | hp
    · exact h.right a p hz (hp ▸ hy)
    · rw [hp] at hy
      exact absurd hy (by simp)
  once := fun t hy => h.once t (hu t hy)

/-! ## Fields nobody looks at -/

namespace SameSlab

theorem registered (h : SameSlab mm mm') (t : Nat) : mm'.Registered t ↔ mm.Registered t := by
  rw [Mm.Registered, Mm.Registered, h.objsize]

theorem isHead (h : SameSlab mm mm') : mm'.IsHead = mm.IsHead :=
  Mm.isHead_registered h.registered

theorem belowMark (h : SameSlab mm mm') {more : Int} (hb : BelowMark mm t a more) : BelowMark mm' t a more := by
  intro hc
  rw [h.currPage] at hc
  rw [h.objUsed, h.objsize]
  exact hb hc

theorem currRoom (h : SameSlab mm mm') (hr : CurrRoom mm t) : CurrRoom mm' t := by
  intro p hc
  rw [h.currPage] at hc
  rw [h.objUsed, h.objPerPage]
  exact hr p hc

/-- What is true of the allocators stays true. -/
theorem objInv (h : SameSlab mm mm') (hi : ObjInv mm c H) (hb : BuddyInv mm' c' H') (hH : H ⊆ H')
    (hc : SameOthers c c') : ObjInv mm' c' H' where
  buddy := hb
  classes := fun t ht => (h.registered t).mpr (hi.classes t ht)
  sized := by
    intro t ht
    rw [h.objsize, h.objPerPage]
    exact hi.sized t ((h.registered t).mp ht)
  lists := by
    intro t
    rw [hc _ (by simp), hc _ (by simp)]
    exact hi.lists t
  page := by
    intro p t hp
    obtain ⟨h1, h2⟩ := hi.page p t ((h.objAlloc p).symm.trans hp)
    exact ⟨hH h1, (h.registered t).mpr h2⟩
  chain := fun p t hp => (h.free p).trans (hi.chain p t ((h.objAlloc p).symm.trans hp))
  used := by
    intro p t hp
    rw [h.objUsed, h.objPerPage]
    exact hi.used p t ((h.objAlloc p).symm.trans hp)
  curr := by
    intro t p hp
    rw [h.currPage] at hp
    exact (h.objAlloc p).trans (hi.curr t p hp)
  full := by
    intro t p hp
    rw [hc _ (by simp)] at hp
    exact (h.objAlloc p).trans (hi.full t p hp)

/-- A counter of the pool. -/
theorem updatePool {f : ObjAllocator → ObjAllocator} (hf : ∀ o, (f o).currPage = o.currPage ∧ (f o).objsize = o.objsize ∧
    (f o).objPerPage = o.objPerPage) (mm : Mm) (t : Nat) : SameSlab mm (mm.updatePool t f) := by
  have hpool : ∀ u, (mm.updatePool t f).objAllocPool u = f (mm.objAllocPool u) ∨
      (mm.updatePool t f).objAllocPool u = mm.objAllocPool u := by
    intro u
    by_cases hu : u = t
    · subst hu
      exact Or.inl (mm.updatePool_self u f)
    · exact Or.inr (mm.updatePool_ne t u f hu)
  refine ⟨fun u => ?_, fun u => ?_, fun u => ?_, fun _ => rfl, fun _ => rfl, fun _ => rfl⟩
  · rcases hpool u with h | h
    · rw [h, (hf _).1]
    · rw [h]
  · rcases hpool u with h | h
    · rw [h, (hf _).2.1]
    · rw [h]
  · rcases hpool u with h | h
    · rw [h, (hf _).2.2]
    · rw [h]

theorem of_sameObj (h : mm.SameObj mm') : SameSlab mm mm' :=
  ⟨fun t => by rw [h.pool], fun t => by rw [h.pool], fun t => by rw [h.pool], h.objAlloc, h.objUsed, h.free⟩

end SameSlab

/-! ## What one call leaves to another -/

/-- What a statement of another call has to leave as it is, for the call at `z` to know what it knew. -/
structure LeavesAlone (mm : Mm) (c : Link → List Nat) (H : Set Block) (mm' : Mm) (c' : Link → List Nat) (H' : Set Block)
    (z : MallocPc) : Prop where
  held : H ⊆ H'
  size : ∀ t, (mm'.objAllocPool t).objsize = (mm.objAllocPool t).objsize ∧
    (mm'.objAllocPool t).objPerPage = (mm.objAllocPool t).objPerPage
  page : ∀ p, z.page = some p → (mm'.bookkeep p).objAlloc = (mm.bookkeep p).objAlloc ∧
    (mm'.bookkeep p).objUsed = (mm.bookkeep p).objUsed ∧ (mm'.bookkeep p).free = (mm.bookkeep p).free
  curr : ∀ p t, z.page = some p → (mm.objAllocPool t).currPage ≠ some p → (mm'.objAllocPool t).currPage ≠ some p
  full : ∀ p t, z.page = some p → p ∉ c (.fullList t) → p ∉ c' (.fullList t)
  owner : ∀ a, z.addr = some a → (mm'.bookkeep (phyAddrToPfn a)).objAlloc = (mm.bookkeep (phyAddrToPfn a)).objAlloc
  mark : ∀ t a, z.addr = some a → ObjAt mm t a → ∀ more, BelowMark mm t a more → BelowMark mm' t a more
  room : ∀ t, z.uncounted t = true → CurrRoom mm t → CurrRoom mm' t

namespace LeavesAlone

theorem registered (h : LeavesAlone mm c H mm' c' H' z) (ht : mm.Registered t) : mm'.Registered t := by
  rw [Mm.Registered, (h.size t).1]
  exact ht

theorem objAt (h : LeavesAlone mm c H mm' c' H' z) (ha : z.addr = some a) (hx : ObjAt mm t a) : ObjAt mm' t a where
  owned := (h.owner a ha).trans hx.owned
  addr := by
    obtain ⟨j, hj, hja⟩ := hx.addr
    exact ⟨j, by rw [(h.size t).2]; exact hj, by rw [(h.size t).1]; exact hja⟩

/-- **What a call knows stays true.** -/
theorem pcOk (h : LeavesAlone mm c H mm' c' H' z) (hi : ObjInv mm' c' H') (hz : PcOk mm c H z) : PcOk mm' c' H' z := by
  cases z with
  | idle => trivial
  | testCurr t | testPartial t | testEmpty t | demand t | readFree t | readAddr t => exact h.registered hz
  | firstOf t l | unlink t p => exact hz
  | initPage t p => exact ⟨h.registered hz.1, h.held hz.2.1, (h.page p rfl).1.trans hz.2.2⟩
  | setObjAlloc t p =>
      obtain ⟨h1, h2, h3, h4, h5⟩ := hz
      obtain ⟨hoa, hou, hfr⟩ := h.page p rfl
      exact ⟨h.registered h1, h.held h2, hoa.trans h3, hou.trans h4, hfr.trans h5⟩
  | countPage t p | setCurr t p =>
      obtain ⟨h1, h2, h3, h4⟩ := hz
      obtain ⟨hoa, hou, _⟩ := h.page p rfl
      exact ⟨hoa.trans h1, hou.trans h2, h.curr p t rfl h3, h.full p t rfl h4⟩
  | countObj t a | countOnPage t a =>
      exact ⟨h.objAt rfl hz.1, h.mark t a rfl hz.1 1 hz.2.1, h.room t (by simp [MallocPc.uncounted]) hz.2.2⟩
  | testFull t a | putOnFull t a | clearCurr t a p => exact ⟨h.objAt rfl hz.1, h.mark t a rfl hz.1 0 hz.2⟩
  | block k => exact hz
  | ret owner a =>
      cases owner with
      | slab t => exact ⟨h.objAt rfl hz.1, h.mark t a rfl hz.1 0 hz.2⟩
      | buddy k =>
          -- a block is not an object, and stays a block
          obtain ⟨p, rfl, hp, hnone⟩ := hz
          have hlt : p < pageFrameNum := hi.buddy.start_lt (Or.inr (h.held hp))
          have hoa := h.owner _ rfl
          rw [phyAddrToPfn_frame hlt] at hoa
          exact ⟨p, rfl, h.held hp, hoa.trans hnone⟩

end LeavesAlone

/-- Where nothing changed that the object allocators read. -/
theorem SameSlab.leavesAlone (h : SameSlab mm mm') (hH : H ⊆ H') (hfull : ∀ t, c' (.fullList t) = c (.fullList t)) :
    LeavesAlone mm c H mm' c' H' z where
  held := hH
  size := fun t => ⟨h.objsize t, h.objPerPage t⟩
  page := fun p _ => ⟨h.objAlloc p, h.objUsed p, h.free p⟩
  curr := by
    intro p t _ hp
    rw [h.currPage]
    exact hp
  full := by
    intro p t _ hp
    rw [hfull]
    exact hp
  owner := fun a _ => h.objAlloc _
  mark := fun t a _ _ more hb => h.belowMark hb
  room := fun t _ hr => h.currRoom hr

/-! ## What is in use -/

theorem PcOk.page_mem (h : ObjInv mm c H) (hz : PcOk mm c H z) (hp : z.page = some p) : ⟨p, 0⟩ ∈ H := by
  cases z <;> simp only [MallocPc.page, Option.some.injEq, reduceCtorEq] at hp
  case initPage t q =>
    subst hp
    exact hz.2.1
  case setObjAlloc t q =>
    subst hp
    exact hz.2.1
  case countPage t q =>
    subst hp
    exact (h.page q t hz.1).1
  case setCurr t q =>
    subst hp
    exact (h.page q t hz.1).1

/-- Whose page a computed address is on: an allocator's, or nobody's. -/
theorem PcOk.addr_cases (hz : PcOk mm c H z) (ha : z.addr = some a) :
    (∃ t, ObjAt mm t a ∧ (z.uncounted t = true ∨ BelowMark mm t a 0)) ∨
      ∃ k q, a = frameAddr q ∧ ⟨q, k⟩ ∈ H ∧ (mm.bookkeep q).objAlloc = none := by
  cases z <;> simp only [MallocPc.addr, Option.some.injEq, reduceCtorEq] at ha
  case countObj t b =>
    subst ha
    exact Or.inl ⟨t, hz.1, Or.inl (by simp [MallocPc.uncounted])⟩
  case countOnPage t b =>
    subst ha
    exact Or.inl ⟨t, hz.1, Or.inl (by simp [MallocPc.uncounted])⟩
  case testFull t b =>
    subst ha
    exact Or.inl ⟨t, hz.1, Or.inr hz.2⟩
  case putOnFull t b =>
    subst ha
    exact Or.inl ⟨t, hz.1, Or.inr hz.2⟩
  case clearCurr t b q =>
    subst ha
    exact Or.inl ⟨t, hz.1, Or.inr hz.2⟩
  case ret owner b =>
    subst ha
    cases owner with
    | slab t => exact Or.inl ⟨t, hz.1, Or.inr hz.2⟩
    | buddy k => exact Or.inr ⟨k, hz⟩

namespace ObjInv

theorem start_lt (h : ObjInv mm c H) (hp : ⟨p, k⟩ ∈ H) : p < pageFrameNum := h.buddy.start_lt (Or.inr hp)

theorem addr_mem (h : ObjInv mm c H) (hz : PcOk mm c H z) (ha : z.addr = some a) : ∃ k, ⟨phyAddrToPfn a, k⟩ ∈ H := by
  rcases hz.addr_cases ha with ⟨t, hobj, _⟩ | ⟨k, q, rfl, hq, _⟩
  · exact ⟨0, (h.page _ t hobj.owned).1⟩
  · exact ⟨k, by rw [phyAddrToPfn_frame (h.start_lt hq)]; exact hq⟩

/-- A page that belongs to an allocator is on no free list. -/
theorem not_free (h : ObjInv mm c H) (ho : (mm.bookkeep p).objAlloc = some t) (hk : k ≤ maxOrder) : p ∉ c (.freelist k) := by
  intro hm
  have hfree : (⟨p, k⟩ : Block) ∈ frees c := (mem_frees hk).mpr hm
  have hheld := (h.page p t ho).1
  have heq := h.buddy.eq_of_start (Or.inl hfree) (Or.inr hheld) rfl
  exact h.buddy.apart _ hfree (heq ▸ hheld)

/-- What an allocation brings: a block that nobody had. -/
structure NewBlock (mm : Mm) (c : Link → List Nat) (H : Set Block) (k p : Nat) (mm' : Mm) (c' : Link → List Nat) : Prop where
  run : buddyBlockAlloc mm k = .ok (some p, mm')
  obj : ObjInv mm' c' (insert ⟨p, k⟩ H)
  same : SameSlab mm mm'
  pool : mm'.objAllocPool = mm.objAllocPool
  others : SameOthers c c'
  owner : (mm'.bookkeep p).objAlloc = none
  fresh : ∀ b ∈ H, b.start ≠ p
  addr : (mm'.bookkeep p).phyAddr = frameAddr p

theorem newBlock (h : ObjInv mm c H) (hk : k ≤ maxOrder) (hfree : hasFree mm k = true) :
    ∃ p mm' c', NewBlock mm c H k p mm' c' := by
  rcases buddyBlockAlloc_spec h.buddy k hk with ⟨_, hno⟩ | ⟨i, p, mm', c', hrun, hal⟩
  · -- memory is not exhausted
    rw [hasFree_false h.buddy hno] at hfree
    exact absurd hfree (by simp)
  · have hsame := SameSlab.of_sameObj hal.obj
    have hsub : H ⊆ insert ⟨p, k⟩ H := Set.subset_insert _ _
    have hfresh : ∀ b ∈ H, b.start ≠ p := fun b hb => hal.hand.start_ne hb (Block.covers_start ⟨p, k⟩)
    -- a page with an owner would be held already
    have hnone : (mm.bookkeep p).objAlloc = none := by
      cases ho : (mm.bookkeep p).objAlloc with
      | none => rfl
      | some t => exact absurd rfl (hfresh _ (h.page p t ho).1)
    have hp : p < pageFrameNum := hal.hand.inv.start_lt hal.hand.mem
    exact ⟨p, mm', c', hrun, hsame.objInv h hal.hand.inv hsub hal.others, hsame, hal.obj.pool, hal.others,
      (hsame.objAlloc p).trans hnone, hfresh, hal.hand.inv.addr p hp⟩

end ObjInv

end OsdiKernel
