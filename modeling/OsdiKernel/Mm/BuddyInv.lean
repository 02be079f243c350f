import Mathlib.Data.Set.Insert
import OsdiKernel.Mm.Buddy

/-!
# The buddy allocator's invariant

At any moment the frames are divided into blocks: the *free* ones, whose heads
sit on the free lists, and the *held* ones, which are everybody else's. The
allocator has no record of the held blocks, so they are carried here as a
parameter, and the invariant says that free and held blocks together tile the
frames.

Frames in the middle of a block keep whatever `order` and `used` an earlier
split or merge left behind, and `buddy_block_free` reads those fields of
whichever frame the buddy index names. What makes that safe is `flag`: no frame
claims to head a free block unless it does.

Both loops carry one block that is neither free nor anybody's: `InHand`.
-/

namespace OsdiKernel

/-- The blocks whose heads are on the free lists. -/
def frees (c : Link → List Nat) : Set Block :=
  {b | b.order ≤ maxOrder ∧ b.start ∈ c (.freelist b.order)}

theorem mem_frees {c : Link → List Nat} {p k : Nat} (hk : k ≤ maxOrder) :
    (⟨p, k⟩ : Block) ∈ frees c ↔ p ∈ c (.freelist k) := by
  simp [frees, hk]

/-- Only free lists changed. -/
def SameOthers (c c' : Link → List Nat) : Prop := ∀ h, (∀ k, h ≠ .freelist k) → c' h = c h

theorem SameOthers.trans {c c' c'' : Link → List Nat} (h : SameOthers c c') (h' : SameOthers c' c'') :
    SameOthers c c'' := fun x hx => (h' x hx).trans (h x hx)

theorem SameOthers.update (c : Link → List Nat) (k : Nat) (v : List Nat) :
    SameOthers c (Function.update c (.freelist k) v) :=
  fun _ hx => Function.update_of_ne (hx k) _ _

/-- Nothing the object allocators use changed. -/
structure Mm.SameObj (mm mm' : Mm) : Prop where
  pool : mm'.objAllocPool = mm.objAllocPool
  objNext : mm'.objNext = mm.objNext
  objUsed : ∀ q, (mm'.bookkeep q).objUsed = (mm.bookkeep q).objUsed
  objAlloc : ∀ q, (mm'.bookkeep q).objAlloc = (mm.bookkeep q).objAlloc
  free : ∀ q, (mm'.bookkeep q).free = (mm.bookkeep q).free

theorem Mm.SameObj.refl (mm : Mm) : mm.SameObj mm := ⟨rfl, rfl, fun _ => rfl, fun _ => rfl, fun _ => rfl⟩

theorem Mm.SameObj.trans {mm mm' mm'' : Mm} (h : mm.SameObj mm') (h' : mm'.SameObj mm'') :
    mm.SameObj mm'' :=
  ⟨h'.pool.trans h.pool, h'.objNext.trans h.objNext, fun q => (h'.objUsed q).trans (h.objUsed q),
    fun q => (h'.objAlloc q).trans (h.objAlloc q), fun q => (h'.free q).trans (h.free q)⟩

/-- Relabelling a frame's order is no business of the object allocators. -/
theorem Mm.sameObj_setOrder (mm : Mm) (p : Nat) (f : Int → Int) :
    mm.SameObj (mm.updatePage p (fun q => { q with order := f q.order })) := by
  refine ⟨rfl, rfl, fun q => ?_, fun q => ?_, fun q => ?_⟩ <;>
    (by_cases hq : q = p
     · subst hq; simp
     · rw [mm.updatePage_ne p q _ hq])

theorem Mm.isHead_congr {mm mm' : Mm} (h : mm'.objAllocPool = mm.objAllocPool) :
    mm'.IsHead = mm.IsHead := by
  funext x
  cases x <;> simp only [Mm.IsHead, h]

/-- The head of a block that was handed out says so, and says how large it is. -/
def Held (mm : Mm) (b : Block) : Prop :=
  (mm.bookkeep b.start).used = .taken ∧ (mm.bookkeep b.start).order = b.order

/-- The buddy allocator's invariant: `c` is what the lists hold, `H` the blocks that are not free. -/
structure BuddyInv (mm : Mm) (c : Link → List Nat) (H : Set Block) : Prop where
  /-- Every list is a well-formed circular list. -/
  lists : PageLists mm.links mm.IsHead c
  /-- `nr_free` counts its list. -/
  count : ∀ k, k ≤ maxOrder → mm.nrFree k = (c (.freelist k)).length
  /-- Pages know their own number. -/
  pfn : ∀ p, p < pageFrameNum → (mm.bookkeep p).pfn = p
  /-- Pages know their own address. -/
  addr : ∀ p, p < pageFrameNum → (mm.bookkeep p).phyAddr = lowMemory + p * pageSize
  /-- A frame claims to head a free block exactly when it does. -/
  flag : ∀ p, p < pageFrameNum → ∀ k : Nat,
    ((mm.bookkeep p).used = .free ∧ (mm.bookkeep p).order = k) ↔ (⟨p, k⟩ : Block) ∈ frees c
  /-- Free and held blocks tile the frames. -/
  tiling : Tiling pageFrameNum (frees c ∪ H)
  /-- No block is both. -/
  apart : ∀ b ∈ frees c, b ∉ H
  /-- No free block has a free buddy. -/
  coalesced : Coalesced maxOrder (frees c)
  /-- No held block is larger than the allocator makes them. -/
  orders : ∀ b ∈ H, b.order ≤ maxOrder
  /-- A page on any other list heads a held block. -/
  others : ∀ h, mm.IsHead h → (∀ k, h ≠ .freelist k) → ∀ p ∈ c h, ∃ b ∈ H, b.start = p

/-- The block `b` is held, by nobody in `R`, and is on no list. -/
structure InHand (mm : Mm) (c : Link → List Nat) (b : Block) (R : Set Block) : Prop where
  inv : BuddyInv mm c (insert b R)
  fresh : b ∉ R
  loose : ∀ h, mm.IsHead h → b.start ∉ c h

variable {mm mm' : Mm} {c c' : Link → List Nat} {H R : Set Block} {b : Block} {p k : Nat}

namespace BuddyInv

theorem isHead_freelist (hk : k ≤ maxOrder) : mm.IsHead (.freelist k) := hk

theorem mem_list (h : BuddyInv mm c H) {x : Link} (hx : mm.IsHead x) (hp : p ∈ c x) :
    ∃ b ∈ frees c ∪ H, b.start = p := by
  by_cases hf : ∃ k, x = .freelist k
  · obtain ⟨k, rfl⟩ := hf
    exact ⟨⟨p, k⟩, Or.inl ((mem_frees hx).mpr hp), rfl⟩
  · obtain ⟨b, hb, hbp⟩ := h.others x hx (fun k hk => hf ⟨k, hk⟩) p hp
    exact ⟨b, Or.inr hb, hbp⟩

/-- The head of a block is a page frame. -/
theorem start_lt (h : BuddyInv mm c H) (hb : b ∈ frees c ∪ H) : b.start < pageFrameNum :=
  h.tiling.start_lt hb

/-- Two blocks with the same head are one block. -/
theorem eq_of_start (h : BuddyInv mm c H) {a : Block} (ha : a ∈ frees c ∪ H) (hb : b ∈ frees c ∪ H)
    (he : a.start = b.start) : a = b := h.tiling.eq_of_start ha hb he

/-- Writing the fields the invariant does not look at. -/
theorem congr (h : BuddyInv mm c H) (hl : mm'.links = mm.links) (hn : mm'.nrFree = mm.nrFree)
    (hh : mm'.IsHead = mm.IsHead)
    (hb : ∀ q, (mm'.bookkeep q).pfn = (mm.bookkeep q).pfn ∧
      (mm'.bookkeep q).phyAddr = (mm.bookkeep q).phyAddr ∧
      (mm'.bookkeep q).used = (mm.bookkeep q).used ∧
      ((mm'.bookkeep q).used = .free → (mm'.bookkeep q).order = (mm.bookkeep q).order)) :
    BuddyInv mm' c H where
  lists := by rw [hl, hh]; exact h.lists
  count := by rw [hn]; exact h.count
  pfn := fun q hq => (hb q).1.trans (h.pfn q hq)
  addr := fun q hq => (hb q).2.1.trans (h.addr q hq)
  flag := by
    intro q hq j
    rw [← h.flag q hq j]
    obtain ⟨_, _, hu, ho⟩ := hb q
    constructor
    · intro hf; exact ⟨hu ▸ hf.1, (ho hf.1) ▸ hf.2⟩
    · intro hf; exact ⟨hu ▸ hf.1, (ho (hu ▸ hf.1)).trans hf.2⟩
  tiling := h.tiling
  apart := h.apart
  coalesced := h.coalesced
  orders := h.orders
  others := by rw [hh]; exact h.others

/-- A taken frame may be relabelled with any order. -/
theorem setOrder (h : BuddyInv mm c H) (ht : (mm.bookkeep p).used = .taken) (f : Int → Int) :
    BuddyInv (mm.updatePage p (fun q => { q with order := f q.order })) c H := by
  refine h.congr rfl rfl rfl (fun q => ?_)
  by_cases hq : q = p
  · subst hq
    simp [ht]
  · rw [mm.updatePage_ne p q _ hq]
    exact ⟨rfl, rfl, rfl, fun _ => rfl⟩

end BuddyInv

/-! ## Removing a block from a free list -/

theorem frees_erase (hk : k ≤ maxOrder) (hnd : (c (.freelist k)).Nodup) :
    frees (Function.update c (.freelist k) ((c (.freelist k)).erase p)) = frees c \ {⟨p, k⟩} := by
  ext b
  obtain ⟨q, j⟩ := b
  simp only [frees, Set.mem_ofPred_eq, Set.mem_sdiff, Set.mem_singleton_iff, Block.mk.injEq]
  by_cases hj : j = k
  · subst hj
    rw [Function.update_self, hnd.mem_erase_iff]
    tauto
  · have hne : Link.freelist j ≠ .freelist k := fun h => hj (Link.freelist.inj h)
    rw [Function.update_of_ne hne]
    tauto

theorem frees_append (hk : k ≤ maxOrder) :
    frees (Function.update c (.freelist k) (c (.freelist k) ++ [p])) = insert ⟨p, k⟩ (frees c) := by
  ext b
  obtain ⟨q, j⟩ := b
  simp only [frees, Set.mem_ofPred_eq, Set.mem_insert_iff, Block.mk.injEq]
  by_cases hj : j = k
  · subst hj
    rw [Function.update_self, List.mem_append, List.mem_singleton]
    tauto
  · have hne : Link.freelist j ≠ .freelist k := fun h => hj (Link.freelist.inj h)
    rw [Function.update_of_ne hne]
    tauto

/-! ## Moving one block on or off a free list -/

/-- One free list, one page and one counter rewritten. -/
def Mm.move (mm : Mm) (l : Links Link) (p : Nat) (pg : Page) (k : Nat) (nr : Int) : Mm :=
  { mm with
    links := l
    bookkeep := Function.update mm.bookkeep p pg
    nrFree := Function.update mm.nrFree k nr }

theorem Mm.sameObj_move {l : Links Link} {pg : Page} {nr : Int}
    (h : pg.objUsed = (mm.bookkeep p).objUsed ∧ pg.objAlloc = (mm.bookkeep p).objAlloc ∧
      pg.free = (mm.bookkeep p).free) : mm.SameObj (mm.move l p pg k nr) := by
  refine ⟨rfl, rfl, fun q => ?_, fun q => ?_, fun q => ?_⟩ <;>
    (by_cases hq : q = p
     · subst hq; simp [Mm.move, h]
     · simp [Mm.move, Function.update_of_ne hq])

/--
A block that goes from free to held or back, with the list, the counter and the
page flags following it, keeps the invariant. What is left to say is which way
it went.
-/
theorem BuddyInv.move (h : BuddyInv mm c H) {H' : Set Block} {l : Links Link} {pg : Page} {nr : Int}
    {xs : List Nat} (hk : k ≤ maxOrder)
    (hr : PageLists l mm.IsHead (Function.update c (.freelist k) xs)) (hnr : nr = xs.length)
    (hpg : pg.pfn = (mm.bookkeep p).pfn ∧ pg.phyAddr = (mm.bookkeep p).phyAddr)
    (hp : ∀ j : Nat, (pg.used = .free ∧ pg.order = j) ↔
      (⟨p, j⟩ : Block) ∈ frees (Function.update c (.freelist k) xs))
    (hq : ∀ q j, q ≠ p → ((⟨q, j⟩ : Block) ∈ frees (Function.update c (.freelist k) xs) ↔
      (⟨q, j⟩ : Block) ∈ frees c))
    (ht : frees (Function.update c (.freelist k) xs) ∪ H' = frees c ∪ H)
    (ha : ∀ b ∈ frees (Function.update c (.freelist k) xs), b ∉ H')
    (hc : Coalesced maxOrder (frees (Function.update c (.freelist k) xs)))
    (ho : ∀ b ∈ H', b.order ≤ maxOrder)
    (hs : ∀ x, mm.IsHead x → (∀ j, x ≠ .freelist j) → ∀ q ∈ c x, ∃ b ∈ H', b.start = q) :
    BuddyInv (mm.move l p pg k nr) (Function.update c (.freelist k) xs) H' where
  lists := hr
  count := by
    intro j hj
    by_cases hjk : j = k
    · subst hjk; simp [Mm.move, hnr]
    · have hne : Link.freelist j ≠ .freelist k := fun he => hjk (Link.freelist.inj he)
      simp only [Mm.move, Function.update_of_ne hjk, Function.update_of_ne hne]
      exact h.count j hj
  pfn := by
    intro q hqN
    by_cases hqp : q = p
    · subst hqp; simp [Mm.move, hpg.1, h.pfn q hqN]
    · simp [Mm.move, Function.update_of_ne hqp, h.pfn q hqN]
  addr := by
    intro q hqN
    by_cases hqp : q = p
    · subst hqp; simp [Mm.move, hpg.2, h.addr q hqN]
    · simp [Mm.move, Function.update_of_ne hqp, h.addr q hqN]
  flag := by
    intro q hqN j
    by_cases hqp : q = p
    · subst hqp
      simp only [Mm.move, Function.update_self]
      exact hp j
    · simp only [Mm.move, Function.update_of_ne hqp]
      exact (h.flag q hqN j).trans (hq q j hqp).symm
  tiling := ht ▸ h.tiling
  apart := ha
  coalesced := hc
  orders := ho
  others := by
    intro x hx hxf q hqx
    rw [Function.update_of_ne (hxf k)] at hqx
    exact hs x hx hxf q hqx

/-- **Pop.** The head of a free block leaves its list and is in hand. -/
theorem popBlockFromFreeArea_spec (h : BuddyInv mm c H) (hk : k ≤ maxOrder)
    (hp : p ∈ c (.freelist k)) :
    ∃ mm', popBlockFromFreeArea mm p k = .ok mm' ∧
      InHand mm' (Function.update c (.freelist k) ((c (.freelist k)).erase p)) ⟨p, k⟩ H ∧
      mm'.bookkeep = Function.update mm.bookkeep p { mm.bookkeep p with used := .taken } ∧
      mm.SameObj mm' := by
  have hfree : (⟨p, k⟩ : Block) ∈ frees c := (mem_frees hk).mpr hp
  have hnd := h.lists.nodup (BuddyInv.isHead_freelist hk)
  obtain ⟨l, hl, hr⟩ := h.lists.listDel_spec (BuddyInv.isHead_freelist hk) hp
  have hfr := frees_erase (p := p) hk hnd
  have hrun : popBlockFromFreeArea mm p k
      = .ok (mm.move l p { mm.bookkeep p with used := .taken } k (mm.nrFree k - 1)) := by
    simp only [popBlockFromFreeArea, Mm.onLinks, hl, ok_bind]; rfl
  have hlen : mm.nrFree k - 1 = ((c (.freelist k)).erase p).length := by
    have h1 := List.length_erase_of_mem hp
    have h2 := List.length_pos_of_mem hp
    have h3 := h.count k hk
    omega
  refine ⟨_, hrun, ⟨h.move hk hr hlen ⟨rfl, rfl⟩ ?_ ?_ ?_ ?_ ?_ ?_ ?_, h.apart _ hfree, ?_⟩, rfl,
    Mm.sameObj_move ⟨rfl, rfl, rfl⟩⟩
  · -- the popped frame is taken, and heads no other free block
    intro j
    refine ⟨fun hf => absurd hf.1 (by simp), fun hm => ?_⟩
    rw [hfr] at hm
    exact absurd (h.eq_of_start (Or.inl hm.1) (Or.inl hfree) rfl) hm.2
  · intro q j hqp
    have hb : (⟨q, j⟩ : Block) ≠ ⟨p, k⟩ := fun he => hqp (Block.mk.inj he).1
    rw [hfr]
    exact ⟨fun hm => hm.1, fun hm => ⟨hm, hb⟩⟩
  · rw [hfr]
    ext b
    by_cases hb : b = ⟨p, k⟩
    · subst hb; simp [hfree]
    · simp [hb]
  · intro b hb hm
    rw [hfr] at hb
    rcases hm with hm | hm
    · exact hb.2 hm
    · exact h.apart b hb.1 hm
  · rw [hfr]
    exact h.coalesced.mono Set.sdiff_subset
  · intro b hb
    rcases hb with hb | hb
    · rw [hb]; exact hk
    · exact h.orders b hb
  · intro x hx hxf q hq
    obtain ⟨b, hb, hbq⟩ := h.others x hx hxf q hq
    exact ⟨b, Or.inr hb, hbq⟩
  · intro x hx hm
    by_cases hxk : x = .freelist k
    · subst hxk
      rw [Function.update_self] at hm
      exact (hnd.mem_erase_iff.mp hm).1 rfl
    · rw [Function.update_of_ne hxk] at hm
      exact hxk (h.lists.apart hx (BuddyInv.isHead_freelist hk) hm hp)

/-- **Push.** The block in hand becomes free, provided its buddy is not. -/
theorem pushBlockToFreeArea_spec (h : InHand mm c ⟨p, k⟩ R) (hk : k ≤ maxOrder)
    (hb : k < maxOrder → (⟨p, k⟩ : Block).buddy ∉ frees c) :
    ∃ mm', pushBlockToFreeArea mm p k k = .ok mm' ∧
      BuddyInv mm' (Function.update c (.freelist k) (c (.freelist k) ++ [p])) R ∧
      mm'.bookkeep = Function.update mm.bookkeep p
        { mm.bookkeep p with order := k, used := .free } ∧
      mm.SameObj mm' := by
  have hheld : (⟨p, k⟩ : Block) ∈ frees c ∪ insert ⟨p, k⟩ R := Or.inr (Or.inl rfl)
  obtain ⟨l, hl, hr⟩ := h.inv.lists.listAddTail_spec (BuddyInv.isHead_freelist hk) id h.loose
  have hfr := frees_append (c := c) (p := p) hk
  have hrun : pushBlockToFreeArea mm p k k
      = .ok (mm.move l p { mm.bookkeep p with order := k, used := .free } k (mm.nrFree k + 1)) := by
    simp only [pushBlockToFreeArea, Mm.onLinks, hl, ok_bind]; rfl
  have hlen : mm.nrFree k + 1 = (c (.freelist k) ++ [p]).length := by
    simp [h.inv.count k hk]
  refine ⟨_, hrun, h.inv.move hk hr hlen ⟨rfl, rfl⟩ ?_ ?_ ?_ ?_ ?_ ?_ ?_, rfl,
    Mm.sameObj_move ⟨rfl, rfl, rfl⟩⟩
  · intro j
    rw [hfr]
    constructor
    · intro hf
      have hjk : (k : Int) = j := hf.2
      exact Or.inl (by rw [Int.ofNat_inj.mp hjk])
    · intro hm
      refine ⟨rfl, ?_⟩
      rcases hm with hm | hm
      · rw [(Block.mk.inj hm).2]
      · have := h.inv.eq_of_start (Or.inl hm) hheld rfl
        rw [(Block.mk.inj this).2]
  · intro q j hqp
    have hne : (⟨q, j⟩ : Block) ≠ ⟨p, k⟩ := fun he => hqp (Block.mk.inj he).1
    rw [hfr]
    exact ⟨fun hm => hm.resolve_left hne, Or.inr⟩
  · rw [hfr]
    ext b
    simp only [Set.mem_union, Set.mem_insert_iff]
    tauto
  · intro b hbf hm
    rw [hfr] at hbf
    rcases hbf with rfl | hbf
    · exact h.fresh hm
    · exact h.inv.apart b hbf (Or.inr hm)
  · rw [hfr]
    exact h.inv.coalesced.insert hb
  · exact fun b hbR => h.inv.orders b (Or.inr hbR)
  · -- the page in hand is on no list, so the pages that are belong to the rest
    intro x hx hxf q hq
    obtain ⟨b, hbm, hbq⟩ := h.inv.others x hx hxf q hq
    rcases hbm with rfl | hbm
    · exact absurd (hbq ▸ hq) (h.loose x hx)
    · exact ⟨b, hbm, hbq⟩

end OsdiKernel
