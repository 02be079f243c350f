import Mathlib.Data.Finset.Basic
import OsdiKernel.Mm.BuddyOps

/-!
# Runs of the buddy allocator

`page_init` and `free_area_init`, then any sequence of `buddy_block_alloc` with
any order and `buddy_block_free` of blocks that are allocated. The set of
allocated blocks is the client's record; the allocator keeps none.
-/

namespace OsdiKernel

variable {mm mm' : Mm} {c : Link → List Nat}

/-! ## The initial state -/

/-- `INIT_LIST_HEAD` on the first `n` free lists. -/
def initFreelists (l : Links Link) (n : Nat) : Links Link :=
  (List.range n).foldl (fun l i => initListHead l (.freelist i)) l

theorem initFreelists_succ (l : Links Link) (n : Nat) :
    initFreelists l (n + 1) = initListHead (initFreelists l n) (.freelist n) := by
  rw [initFreelists, List.range_succ, List.foldl_append, List.foldl_cons, List.foldl_nil]
  rfl

/-- Whatever was there before, the free lists are empty rings. -/
theorem initFreelists_rings (l : Links Link) :
    ∀ n, Rings (initFreelists l n) (fun x => ∃ k, k < n ∧ x = .freelist k) (fun _ => [])
  | 0 => ⟨fun _ h => by simp at h, fun _ h => by simp at h, fun _ _ h => by simp at h⟩
  | n + 1 => by
      have hr := (initFreelists_rings l n).selfLoop (h := .freelist n)
        ⟨fun ⟨k, hk, he⟩ => by rw [Link.freelist.inj he] at hk; omega, fun _ _ => by simp⟩
      have hc : Function.update (fun _ : Link => ([] : List Link)) (.freelist n) [] = fun _ => [] :=
        Function.update_eq_self (Link.freelist n) _
      have hhd : (fun x => ∃ k, k < n + 1 ∧ x = Link.freelist k)
          = fun x => x = Link.freelist n ∨ ∃ k, k < n ∧ x = .freelist k := by
        funext x
        refine propext ⟨fun ⟨k, hk, he⟩ => ?_, fun hx => ?_⟩
        · rcases Nat.lt_succ_iff_lt_or_eq.mp hk with h | h
          · exact Or.inr ⟨k, h, he⟩
          · exact Or.inl (h ▸ he)
        · rcases hx with hx | ⟨k, hk, he⟩
          · exact ⟨n, Nat.lt_succ_self n, hx⟩
          · exact ⟨k, Nat.lt_succ_of_lt hk, he⟩
      rw [initFreelists_succ, hhd]
      exact hc ▸ hr

/-- Nothing else is written. -/
theorem initFreelists_other (l : Links Link) {x : Link} (hx : ∀ k, x ≠ .freelist k) (n : Nat) :
    (initFreelists l n).next x = l.next x ∧ (initFreelists l n).prev x = l.prev x := by
  induction n with
  | zero => exact ⟨rfl, rfl⟩
  | succ n ih =>
      rw [initFreelists_succ]
      exact ⟨(Function.update_of_ne (hx n) _ _).trans ih.1, (Function.update_of_ne (hx n) _ _).trans ih.2⟩

/-- The blocks of the largest order headed by `xs`. -/
def topBlocks (xs : List Nat) : Set Block := {b | b.order = maxOrder ∧ b.start ∈ xs}

/-- The eight largest blocks tile the frames. -/
theorem tiling_topBlocks : Tiling pageFrameNum (topBlocks initialHeads) := by
  have hmem : ∀ q, q ∈ initialHeads ↔ ∃ i, i < 8 ∧ q = i * 512 := by
    intro q
    have h8 : pageFrameNum / maxOrderSize = 8 := by decide
    rw [initialHeads, h8, List.mem_range']
    constructor
    · intro h
      obtain ⟨i, hi, he⟩ := h
      exact ⟨i, hi, by rw [he]; simp only [maxOrderSize]; omega⟩
    · intro h
      obtain ⟨i, hi, he⟩ := h
      exact ⟨i, hi, by rw [he]; simp only [maxOrderSize]; omega⟩
  have hcov : ∀ b ∈ topBlocks initialHeads, ∀ f, b.Covers f → b = ⟨f / 512 * 512, maxOrder⟩ := by
    intro b hb f hf
    obtain ⟨q, k⟩ := b
    obtain ⟨hk, hq⟩ := hb
    obtain ⟨i, _, he⟩ := (hmem q).mp hq
    simp only at hk
    subst hk
    simp only [Block.Covers, maxOrder] at hf
    have hi : f / 512 = i := by omega
    rw [hi, he]
  refine ⟨?_, ?_, ?_, ?_⟩
  · intro b hb
    obtain ⟨i, _, he⟩ := (hmem b.start).mp hb.2
    rw [Block.Aligned, hb.1, he]
    exact ⟨i, by rw [Nat.mul_comm]; rfl⟩
  · intro b hb
    obtain ⟨i, hi, he⟩ := (hmem b.start).mp hb.2
    rw [hb.1, he]
    simp only [maxOrder, pageFrameNum]
    omega
  · intro f hf
    refine ⟨⟨f / 512 * 512, maxOrder⟩, ⟨rfl, (hmem _).mpr ⟨f / 512, ?_, rfl⟩⟩, ?_⟩
    · simp only [pageFrameNum] at hf; omega
    · simp only [Block.Covers, maxOrder]; omega
  · intro a ha b hb f hfa hfb
    rw [hcov a ha f hfa, hcov b hb f hfb]

theorem mem_topBlocks_initial (p : Nat) :
    (⟨p, maxOrder⟩ : Block) ∈ topBlocks initialHeads ↔ p ∈ {p | p < pageFrameNum ∧ maxOrderSize ∣ p} := by
  have ht := tiling_topBlocks
  constructor
  · intro hm
    exact ⟨ht.start_lt hm, ht.aligned _ hm⟩
  · intro hp
    obtain ⟨hlt, hd⟩ := hp
    obtain ⟨b, hb, hbp⟩ := ht.cover p hlt
    have hal : (⟨p, maxOrder⟩ : Block).Aligned := hd
    have := Block.eq_of_covers (ht.aligned b hb) hal hb.1 hbp (Block.covers_start ⟨p, maxOrder⟩)
    exact this ▸ hb

/-- No allocator is registered: the free lists are the only lists. -/
def OnlyFreelists (mm : Mm) : Prop := ∀ x, mm.IsHead x → ∃ k, x = .freelist k

/-- A block whose head can only be on a free list is on none. -/
theorem BuddyInv.inHand (h : BuddyInv mm c (insert b R))
    (ho : ∀ x, mm.IsHead x → b.start ∈ c x → ∃ k, x = .freelist k) (hf : b ∉ R) : InHand mm c b R := by
  refine ⟨h, hf, fun x hx hm => ?_⟩
  obtain ⟨k, rfl⟩ := ho x hx hm
  have hfree : (⟨b.start, k⟩ : Block) ∈ frees c := (mem_frees hx).mpr hm
  have := h.eq_of_start (Or.inl hfree) (Or.inr (Or.inl rfl)) rfl
  exact h.apart _ hfree (Or.inl this)

/-- No page is on an allocator's list, and no free block is counted. -/
structure Mm.Bare (mm : Mm) : Prop where
  lists : ∀ x, mm.IsHead x → (∀ k, x ≠ .freelist k) → IsRing mm.links x []
  idle : ∀ x, (∀ p, x ≠ .frame p) → ¬ mm.IsHead x → mm.links.next x = none
  count : ∀ k, k ≤ maxOrder → mm.nrFree k = 0

theorem Mm.bare_bss : Mm.bss.Bare where
  lists := by
    intro x hx hf
    cases x with
    | frame p => exact absurd hx id
    | freelist k => exact absurd rfl (hf k)
    | fullList t => exact absurd rfl hx.2
    | partialList t => exact absurd rfl hx.2
    | emptyList t => exact absurd rfl hx.2
  idle := fun _ _ _ => rfl
  count := fun _ _ => rfl

/-- The lists of bare memory, once the free lists are initialised. -/
theorem Mm.Bare.pageLists (h : mm.Bare) :
    PageLists (initFreelists mm.links (maxOrder + 1)) mm.IsHead (fun _ => []) where
  rings := by
    refine ⟨fun x hx => ?_, fun _ _ _ hm => absurd hm (by simp), fun _ _ _ _ _ hm => absurd hm (by simp)⟩
    by_cases hf : ∃ k, x = .freelist k
    · obtain ⟨k, rfl⟩ := hf
      exact (initFreelists_rings mm.links (maxOrder + 1)).ring _ ⟨k, Nat.lt_succ_of_le hx, rfl⟩
    · have hf' : ∀ k, x ≠ .freelist k := fun k hk => hf ⟨k, hk⟩
      refine (h.lists x hx hf').congr (fun y hy => ?_)
      rw [List.mem_singleton.mp hy]
      exact initFreelists_other mm.links hf' _
  idle := by
    intro x hx hn
    by_cases hf : ∃ k, x = .freelist k
    · obtain ⟨k, rfl⟩ := hf
      have hk : maxOrder < k := Nat.lt_of_not_le hn
      have hother : ∀ n, n ≤ k → (initFreelists mm.links n).next (.freelist k) = mm.links.next (.freelist k) := by
        intro n hle
        induction n with
        | zero => rfl
        | succ n ih =>
            have hne : Link.freelist k ≠ .freelist n := fun he => by
              have := Link.freelist.inj he
              omega
            rw [initFreelists_succ]
            exact (Function.update_of_ne hne _ _).trans (ih (Nat.le_of_succ_le hle))
      exact ⟨(hother (maxOrder + 1) hk).trans (h.idle _ hx hn), rfl⟩
    · exact ⟨(initFreelists_other mm.links (fun k hk => hf ⟨k, hk⟩) _).1.trans (h.idle x hx hn), rfl⟩

theorem pageInit_sameObj (mm : Mm) (l : Links Link) : mm.SameObj { pageInit mm with links := l } := by
  refine ⟨rfl, rfl, fun q => ?_, fun q => ?_, fun q => ?_⟩ <;> (simp only [pageInit]; split <;> rfl)

/-- **Initialisation** of bare memory returns, with the eight largest blocks free and nothing else. -/
theorem Mm.Bare.freeAreaInit (h : mm.Bare) :
    ∃ mm' c, OsdiKernel.freeAreaInit (pageInit mm) = .ok mm' ∧ BuddyInv mm' c ∅ ∧
      frees c = topBlocks initialHeads ∧ SameOthers (fun _ => []) c ∧ mm.SameObj mm' := by
  let mm₀ : Mm := { pageInit mm with links := initFreelists mm.links (maxOrder + 1) }
  have hempty : frees (fun _ => []) = ∅ := by
    ext b
    simp [frees]
  -- the eight blocks start out held by nobody, and are pushed one by one
  have h₀ : BuddyInv mm₀ (fun _ => []) (topBlocks initialHeads) := by
    refine ⟨h.pageLists, ?_, ?_, ?_, ?_, ?_, ?_, ?_, ?_, ?_⟩
    · intro k hk
      simp [mm₀, pageInit, h.count k hk]
    · intro p hpN
      simp [mm₀, pageInit, hpN]
    · intro p hpN
      simp [mm₀, pageInit, hpN]
    · intro p hpN k
      rw [hempty]
      refine ⟨fun hf => ?_, fun hf => by simp at hf⟩
      simp only [mm₀, pageInit, if_pos hpN] at hf
      omega
    · rw [hempty, Set.empty_union]
      exact tiling_topBlocks
    · intro b hb
      rw [hempty] at hb
      exact absurd hb (by simp)
    · intro b hb
      rw [hempty] at hb
      exact absurd hb (by simp)
    · intro b hb
      exact Nat.le_of_eq hb.1
    · intro x _ _ p hpx
      exact absurd hpx (by simp)
  let P : List Nat → Mm → Prop := fun xs mm' => ∃ c ys, initialHeads = ys ++ xs ∧
    BuddyInv mm' c (topBlocks xs) ∧ frees c = topBlocks ys ∧ SameOthers (fun _ => []) c ∧
    mm₀.SameObj mm'
  have hstep : ∀ x xs mm', P (x :: xs) mm' →
      ∃ mm'', pushBlockToFreeArea mm' x maxOrder maxOrder = .ok mm'' ∧ P xs mm'' := by
    intro x xs mm' hP
    obtain ⟨c, ys, hys, hinv, hfr, hoth, hobj⟩ := hP
    have hnd : (ys ++ x :: xs).Nodup := hys ▸ (by decide)
    have hx : x ∉ xs := by
      rw [List.nodup_append] at hnd
      exact (List.nodup_cons.mp hnd.2.1).1
    have hset : topBlocks (x :: xs) = insert ⟨x, maxOrder⟩ (topBlocks xs) := by
      ext b
      obtain ⟨q, j⟩ := b
      simp only [topBlocks, Set.mem_ofPred_eq, List.mem_cons, Set.mem_insert_iff, Block.mk.injEq]
      tauto
    rw [hset] at hinv
    have hhand := hinv.inHand (fun y _ hm => by
      by_contra hno
      rw [hoth y (fun k hk => hno ⟨k, hk⟩)] at hm
      exact absurd hm (by simp)) (fun hm => hx hm.2)
    obtain ⟨mm'', hrun, hinv', _, hobj'⟩ :=
      pushBlockToFreeArea_spec hhand (Nat.le_refl _) (fun hlt => absurd hlt (Nat.lt_irrefl _))
    refine ⟨mm'', hrun, _, ys ++ [x], by rw [hys]; simp, hinv', ?_,
      hoth.trans (SameOthers.update c _ _), hobj.trans hobj'⟩
    rw [frees_append (Nat.le_refl _), hfr]
    ext b
    obtain ⟨q, j⟩ := b
    simp only [topBlocks, Set.mem_ofPred_eq, List.mem_append, List.mem_singleton,
      Set.mem_insert_iff, Block.mk.injEq]
    tauto
  have hP₀ : P initialHeads mm₀ := by
    refine ⟨fun _ => [], [], rfl, h₀, ?_, fun _ _ => rfl, Mm.SameObj.refl _⟩
    rw [hempty]
    ext b
    simp [topBlocks]
  obtain ⟨mm', hrun, c, ys, hys, hinv, hfr, hoth, hobj⟩ := foldlM_inv hstep initialHeads mm₀ hP₀
  rw [List.append_nil] at hys
  refine ⟨mm', c, hrun, ?_, hys ▸ hfr, hoth, (pageInit_sameObj mm _).trans hobj⟩
  have : topBlocks [] = ∅ := by ext b; simp [topBlocks]
  exact this ▸ hinv

/-- After `clear_bss`. -/
theorem freeAreaInit_spec :
    ∃ mm c, freeAreaInit (pageInit Mm.bss) = .ok mm ∧ BuddyInv mm c ∅ ∧ OnlyFreelists mm ∧
      frees c = topBlocks initialHeads ∧ SameOthers (fun _ => []) c ∧ Mm.bss.SameObj mm := by
  obtain ⟨mm, c, hrun, hinv, hfr, hoth, hobj⟩ := Mm.bare_bss.freeAreaInit
  refine ⟨mm, c, hrun, hinv, fun x hx => ?_, hfr, hoth, hobj⟩
  rw [Mm.isHead_congr hobj.pool] at hx
  by_contra hno
  have := Mm.bare_bss.lists x hx (fun k hk => hno ⟨k, hk⟩)
  have hnext := this.next_head
  exact absurd hnext (by simp [Mm.bss])

/-! ## The system -/

/-- The allocator, and the blocks its client has been given and not given back. -/
structure BuddyState where
  mm : Mm
  allocated : Finset Block

/-- What a client may do. -/
inductive BuddyOp where
  | alloc (order : Int)
  | free (b : Block)

/-- Any order may be asked for; only allocated blocks may be freed. -/
def buddySystem : System BuddyState BuddyOp Fault where
  legal := fun s op =>
    match op with
    | .alloc _ => True
    | .free b => b ∈ s.allocated
  exec := fun s op =>
    match op with
    | .alloc order => do
        let (block, mm) ← buddyBlockAlloc s.mm order
        match block with
        | none => .ok { s with mm }
        | some pfn => .ok ⟨mm, insert ⟨pfn, order.toNat⟩ s.allocated⟩
    | .free b => do
        let mm ← buddyBlockFree s.mm b.start
        .ok ⟨mm, s.allocated.erase b⟩

/-- Reachable from `page_init` and `free_area_init` on zeroed memory. -/
def BuddyReachable (s : BuddyState) : Prop :=
  ∃ mm₀, freeAreaInit (pageInit Mm.bss) = .ok mm₀ ∧ buddySystem.Reach ⟨mm₀, ∅⟩ s

/-- The invariant of a run. -/
structure BuddyRun (s : BuddyState) (c : Link → List Nat) : Prop where
  inv : BuddyInv s.mm c s.allocated
  held : ∀ b ∈ s.allocated, Held s.mm b
  only : OnlyFreelists s.mm

theorem buddyRun_init {mm₀ : Mm} (h : freeAreaInit (pageInit Mm.bss) = .ok mm₀) :
    ∃ c, BuddyRun ⟨mm₀, ∅⟩ c := by
  obtain ⟨mm', c, hrun, hinv, honly, _⟩ := freeAreaInit_spec
  rw [h] at hrun
  injection hrun with he
  subst he
  exact ⟨c, by simpa using hinv, fun b hb => absurd hb (by simp), honly⟩

/-- **Kept by every lawful call, none of which faults.** -/
theorem buddyRun_step : buddySystem.Keeps (fun s => ∃ c, BuddyRun s c) := by
  intro s op hs hl
  obtain ⟨c, h⟩ := hs
  cases op with
  | alloc order =>
      by_cases hord : order < 0 ∨ order > maxOrder
      · refine ⟨s, ?_, c, h⟩
        simp only [buddySystem, buddyBlockAlloc_refused hord, ok_bind]
      · obtain ⟨k, rfl⟩ : ∃ k : Nat, order = k := ⟨order.toNat, by omega⟩
        rcases buddyBlockAlloc_spec h.inv k (by omega) with ⟨hrun, _⟩ |
          ⟨i, p, mm', c', hrun, hal⟩
        · refine ⟨s, ?_, c, h⟩
          simp only [buddySystem, hrun, ok_bind]
        · refine ⟨⟨mm', insert ⟨p, k⟩ s.allocated⟩, ?_, c', ?_, ?_, ?_⟩
          · simp only [buddySystem, hrun, ok_bind, Int.toNat_natCast]
          · rw [Finset.coe_insert]; exact hal.hand.inv
          · intro b hb
            rcases Finset.mem_insert.mp hb with hb | hb
            · exact hb ▸ hal.held
            · have := hal.rest b hb
              exact ⟨this ▸ (h.held b hb).1, this ▸ (h.held b hb).2⟩
          · intro x hx
            rw [Mm.isHead_congr hal.obj.pool] at hx
            exact h.only x hx
  | free b =>
      have hset : (insert b (s.allocated.erase b : Finset Block) : Set Block) = s.allocated := by
        rw [← Finset.coe_insert, Finset.insert_erase hl]
      have hhand : InHand s.mm c b (s.allocated.erase b) :=
        BuddyInv.inHand (hset ▸ h.inv) (fun x hx _ => h.only x hx) (by simp)
      obtain ⟨mm', c', hrun, hinv, _, hrest, hobj⟩ := buddyBlockFree_spec hhand (h.held b hl)
      refine ⟨⟨mm', s.allocated.erase b⟩, ?_, c', hinv, ?_, ?_⟩
      · simp only [buddySystem, hrun, ok_bind]
      · intro a ha
        have := hrest a ha
        have hold := h.held a (Finset.mem_of_mem_erase ha)
        exact ⟨this ▸ hold.1, this ▸ hold.2⟩
      · intro x hx
        rw [Mm.isHead_congr hobj.pool] at hx
        exact h.only x hx

theorem buddyRun_reachable {s : BuddyState} (h : BuddyReachable s) : ∃ c, BuddyRun s c := by
  obtain ⟨mm₀, h₀, hr⟩ := h
  exact hr.inv (P := fun s => ∃ c, BuddyRun s c) (buddyRun_init h₀) buddyRun_step

/-! ## The representation invariant -/

/-- What the free lists say: `free k` is the heads on `free_area[k].freelist`, in list order. -/
def freeBlocks (free : Nat → List Nat) : Set Block :=
  {b | b.order ≤ maxOrder ∧ b.start ∈ free b.order}

/-- The state of the allocator represents a division of the frames into free and allocated blocks. -/
structure BuddyRep (s : BuddyState) (free : Nat → List Nat) : Prop where
  /-- Every frame is in exactly one block. -/
  partition : ∀ f, f < pageFrameNum →
    ∃! b : Block, (b ∈ freeBlocks free ∨ b ∈ s.allocated) ∧ b.Covers f
  /-- Which is free or allocated, not both. -/
  disjoint : ∀ b ∈ freeBlocks free, b ∉ s.allocated
  /-- Blocks have an order between 0 and `MAX_ORDER`, and start at a multiple of their size. -/
  shape : ∀ b : Block, b ∈ freeBlocks free ∨ b ∈ s.allocated →
    b.order ≤ maxOrder ∧ 2 ^ b.order ∣ b.start ∧ b.start + 2 ^ b.order ≤ pageFrameNum
  /-- Each free list is a circular doubly linked list that visits each of its blocks once. -/
  lists : ∀ k, k ≤ maxOrder → IsRing s.mm.links (.freelist k) ((free k).map .frame)
  /-- A frame says it heads a free block exactly when it does. -/
  flag : ∀ p, p < pageFrameNum → ∀ k : Nat,
    ((s.mm.bookkeep p).used = .free ∧ (s.mm.bookkeep p).order = k) ↔
      (⟨p, k⟩ : Block) ∈ freeBlocks free
  /-- `nr_free` is the length of the list. -/
  count : ∀ k, k ≤ maxOrder → s.mm.nrFree k = (free k).length

theorem BuddyRun.rep {s : BuddyState} (h : BuddyRun s c) :
    BuddyRep s (fun k => c (.freelist k)) where
  partition := by
    intro f hf
    obtain ⟨b, hb, hbf⟩ := h.inv.tiling.cover f hf
    exact ⟨b, ⟨hb, hbf⟩, fun a ha => h.inv.tiling.unique a ha.1 b hb f ha.2 hbf⟩
  disjoint := h.inv.apart
  shape := by
    intro b hb
    refine ⟨?_, h.inv.tiling.aligned b hb, h.inv.tiling.bound b hb⟩
    rcases hb with hb | hb
    · exact hb.1
    · exact h.inv.orders b hb
  lists := fun k hk => h.inv.lists.rings.ring _ hk
  flag := h.inv.flag
  count := h.inv.count

/--
**Buddy representation.** In every reachable state the free blocks and the
allocated blocks partition the page frames, and the free lists, the page flags
and the counters all describe exactly the free ones; and no call faults.
-/
theorem buddyRep_reachable {s : BuddyState} (h : BuddyReachable s) :
    (∃ free, BuddyRep s free) ∧
      ∀ op, buddySystem.legal s op → ∃ s', buddySystem.exec s op = .ok s' := by
  obtain ⟨c, hrun⟩ := buddyRun_reachable h
  refine ⟨⟨_, hrun.rep⟩, fun op hl => ?_⟩
  obtain ⟨s', he, _⟩ := buddyRun_step s op ⟨c, hrun⟩ hl
  exact ⟨s', he⟩

/-- The first page handed out, and the state it is handed out in. -/
theorem buddyRep_first_alloc :
    ∃ s₀ s₁, BuddyReachable s₀ ∧ s₀.allocated = ∅ ∧ buddySystem.exec s₀ (.alloc 0) = .ok s₁ ∧
      ∃ free, BuddyRep s₁ free := by
  obtain ⟨mm₀, _, h₀, _⟩ := freeAreaInit_spec
  have hr₀ : BuddyReachable ⟨mm₀, ∅⟩ := ⟨mm₀, h₀, .init⟩
  obtain ⟨s₁, he⟩ := (buddyRep_reachable hr₀).2 (.alloc 0) trivial
  exact ⟨_, s₁, hr₀, rfl, he, (buddyRep_reachable ⟨mm₀, h₀, .step (i := BuddyOp.alloc 0) .init trivial he⟩).1⟩

/-! ## The free state is fully coalesced -/

/-- The heads a traversal of `free_area[k].freelist` visits. -/
def freeHeads (mm : Mm) (k : Nat) : Set Nat :=
  {p | ∃ xs : List Nat, IsRing mm.links (.freelist k) (xs.map .frame) ∧ p ∈ xs}

theorem BuddyRun.freeHeads_iff {s : BuddyState} (h : BuddyRun s c) {k : Nat} (hk : k ≤ maxOrder)
    (p : Nat) : p ∈ freeHeads s.mm k ↔ (⟨p, k⟩ : Block) ∈ frees c := by
  rw [mem_frees hk]
  constructor
  · intro hp
    obtain ⟨xs, hxs, hpx⟩ := hp
    have := hxs.unique (h.inv.lists.rings.ring _ (BuddyInv.isHead_freelist hk))
    exact PageLists.mem_frame.mp (this ▸ PageLists.mem_frame.mpr hpx)
  · intro hp
    exact ⟨_, h.inv.lists.rings.ring _ (BuddyInv.isHead_freelist hk), hp⟩

/-- Runs that end with the same blocks allocated end with the same blocks free. -/
theorem BuddyRun.frees_unique {s t : BuddyState} {d : Link → List Nat} (hs : BuddyRun s c)
    (ht : BuddyRun t d) (ha : s.allocated = t.allocated) : frees c = frees d := by
  have ht' := ht.inv
  rw [← ha] at ht'
  exact coalesced_unique hs.inv.tiling ht'.tiling hs.inv.coalesced ht'.coalesced
    (fun _ hb => hb.1) (fun _ hb => hb.1) hs.inv.apart ht'.apart

/--
**Canonical free state.** In a reachable state no two buddies below the largest
order are both free. So the free blocks are determined by the allocated ones,
whatever calls led there, and when nothing is allocated they are the eight
blocks of the largest order.
-/
theorem buddy_canonical {s : BuddyState} (h : BuddyReachable s) :
    (∀ k, k < maxOrder → ∀ p ∈ freeHeads s.mm k, findBuddyPfn p k ∉ freeHeads s.mm k) ∧
    (∀ t, BuddyReachable t → t.allocated = s.allocated →
      ∀ k, k ≤ maxOrder → freeHeads t.mm k = freeHeads s.mm k) ∧
    (s.allocated = ∅ → freeHeads s.mm maxOrder = {p | p < pageFrameNum ∧ maxOrderSize ∣ p} ∧
      ∀ k, k < maxOrder → freeHeads s.mm k = ∅) := by
  obtain ⟨c, hs⟩ := buddyRun_reachable h
  refine ⟨?_, ?_, ?_⟩
  · intro k hk p hp hb
    rw [hs.freeHeads_iff (Nat.le_of_lt hk)] at hp hb
    rw [findBuddyPfn, Nat.one_shiftLeft] at hb
    exact hs.inv.coalesced _ hp hk hb
  · intro t ht ha k hk
    obtain ⟨d, ht⟩ := buddyRun_reachable ht
    ext p
    rw [ht.freeHeads_iff hk, hs.freeHeads_iff hk, ht.frees_unique hs ha]
  · intro hemp
    -- the initial state has nothing allocated, and its free blocks are known
    obtain ⟨mm₀, c₀, h₀, hinv₀, honly₀, hfr₀, _⟩ := freeAreaInit_spec
    have hrun₀ : BuddyRun ⟨mm₀, ∅⟩ c₀ :=
      ⟨by simpa using hinv₀, fun b hb => absurd hb (by simp), honly₀⟩
    have hfr : frees c = topBlocks initialHeads := (hs.frees_unique hrun₀ hemp).trans hfr₀
    refine ⟨?_, ?_⟩
    · ext p
      rw [hs.freeHeads_iff (Nat.le_refl _), hfr]
      exact mem_topBlocks_initial p
    · intro k hk
      ext p
      rw [hs.freeHeads_iff (Nat.le_of_lt hk), hfr]
      exact ⟨fun hm => absurd hm.1 (Nat.ne_of_lt hk), fun hm => absurd hm (by simp)⟩

/-- Freeing the only allocated page puts the eight largest blocks back. -/
theorem buddy_canonical_restored :
    ∃ s₁ s₂, BuddyReachable s₁ ∧ s₁.allocated ≠ ∅ ∧ BuddyReachable s₂ ∧ s₂.allocated = ∅ ∧
      freeHeads s₂.mm maxOrder = {p | p < pageFrameNum ∧ maxOrderSize ∣ p} := by
  obtain ⟨mm₀, c₀, h₀, hinv₀, honly₀, hfr₀, _⟩ := freeAreaInit_spec
  rcases buddyBlockAlloc_spec hinv₀ maxOrder (Nat.le_refl _) with ⟨_, hno⟩ |
    ⟨i, p, mm₁, c₁, hrun₁, hal⟩
  · -- the list of the largest order is not empty
    have h0 : (⟨0, maxOrder⟩ : Block) ∈ frees c₀ := by
      rw [hfr₀]; exact ⟨rfl, by decide⟩
    have := (mem_frees (Nat.le_refl _)).mp h0
    rw [hno maxOrder (Nat.le_refl _) (Nat.le_refl _)] at this
    exact absurd this (by simp)
  · have he₁ : buddySystem.exec ⟨mm₀, ∅⟩ (.alloc maxOrder) = .ok ⟨mm₁, {⟨p, maxOrder⟩}⟩ := by
      simp only [buddySystem, hrun₁, ok_bind, Int.toNat_natCast]; rfl
    have hr₁' := System.Reach.step (i := BuddyOp.alloc maxOrder) .init trivial he₁
    have hr₁ : BuddyReachable ⟨mm₁, {⟨p, maxOrder⟩}⟩ := ⟨mm₀, h₀, hr₁'⟩
    have hl : buddySystem.legal ⟨mm₁, {⟨p, maxOrder⟩}⟩ (.free ⟨p, maxOrder⟩) :=
      Finset.mem_singleton_self _
    obtain ⟨s₂, he₂, _⟩ := buddyRun_step _ _ (buddyRun_reachable hr₁) hl
    have hr₂ : BuddyReachable s₂ := ⟨mm₀, h₀, hr₁'.step hl he₂⟩
    have hemp : s₂.allocated = ∅ := by
      simp only [buddySystem] at he₂
      cases hf : buddyBlockFree mm₁ p with
      | error e => rw [hf] at he₂; simp at he₂
      | ok mm₂ =>
          rw [hf, ok_bind] at he₂
          injection he₂ with he₂
          rw [← he₂]
          simp
    exact ⟨_, s₂, hr₁, by simp, hr₂, hemp, ((buddy_canonical hr₂).2.2 hemp).1⟩

end OsdiKernel
