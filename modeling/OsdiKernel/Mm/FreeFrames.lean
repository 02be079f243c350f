import OsdiKernel.Mm.MmSystem

/-!
# Free frames, and whole pages

The frames in blocks on the free lists, and what taking or returning a single
page does to them. A page asked for by its size comes straight from the buddy
allocator, so taking one removes exactly its frame from the free ones, and
returning it adds exactly that frame again.
-/

namespace OsdiKernel

/-- The frames inside free blocks. -/
def freeFrames (mm : Mm) : Set Nat :=
  {f | ∃ k, k ≤ maxOrder ∧ ∃ p ∈ freeHeads mm k, (⟨p, k⟩ : Block).Covers f}

/-- The address begins a frame that the buddy allocator handed out by itself, and that is not free. -/
def PageAllocated (mm : Mm) (addr : Nat) : Prop :=
  ∃ p, p < pageFrameNum ∧ addr = frameAddr p ∧ Held mm ⟨p, 0⟩ ∧ p ∉ freeFrames mm

/-- The record of a page that `kmalloc(PAGE_SIZE)` returned. -/
def pageAt (addr : Nat) : Live := ⟨addr, pageSize, .buddy 0⟩

variable {mm mm' : Mm} {c c' : Link → List Nat} {H : Set Block} {live : List Live} {f p k addr : Nat}

theorem BuddyInv.mem_freeHeads (h : BuddyInv mm c H) (hk : k ≤ maxOrder) :
    p ∈ freeHeads mm k ↔ p ∈ c (.freelist k) := by
  constructor
  · intro hp
    obtain ⟨xs, hxs, hpx⟩ := hp
    have := hxs.unique (h.lists.rings.ring _ (BuddyInv.isHead_freelist hk))
    exact PageLists.mem_frame.mp (this ▸ PageLists.mem_frame.mpr hpx)
  · intro hp
    exact ⟨_, h.lists.rings.ring _ (BuddyInv.isHead_freelist hk), hp⟩

theorem BuddyInv.mem_freeFrames (h : BuddyInv mm c H) :
    f ∈ freeFrames mm ↔ ∃ b ∈ frees c, b.Covers f := by
  constructor
  · intro hf
    obtain ⟨k, hk, p, hp, hc⟩ := hf
    exact ⟨⟨p, k⟩, (mem_frees hk).mpr ((h.mem_freeHeads hk).mp hp), hc⟩
  · intro hf
    obtain ⟨b, hb, hc⟩ := hf
    exact ⟨b.order, hb.1, b.start, (h.mem_freeHeads hb.1).mpr hb.2, hc⟩

/-- A frame is free exactly when no held block covers it. -/
theorem BuddyInv.freeFrames_iff (h : BuddyInv mm c H) :
    f ∈ freeFrames mm ↔ f < pageFrameNum ∧ ∀ b ∈ H, ¬ b.Covers f := by
  rw [h.mem_freeFrames]
  constructor
  · intro hf
    obtain ⟨b, hb, hc⟩ := hf
    have hbound := h.tiling.bound b (Or.inl hb)
    refine ⟨lt_of_lt_of_le hc.2 hbound, fun a ha hac => ?_⟩
    have heq := h.tiling.unique a (Or.inr ha) b (Or.inl hb) f hac hc
    exact h.apart b hb (heq ▸ ha)
  · intro hf
    obtain ⟨b, hb, hc⟩ := h.tiling.cover f hf.1
    rcases hb with hb | hb
    · exact ⟨b, hb, hc⟩
    · exact absurd hc (hf.2 b hb)

theorem BuddyInv.hasFree_iff_nonempty (h : BuddyInv mm c H) :
    hasFree mm 0 = true ↔ (freeFrames mm).Nonempty := by
  rw [hasFree_iff h]
  constructor
  · intro hk
    obtain ⟨k, _, hk, hne⟩ := hk
    obtain ⟨p, hp⟩ := List.exists_mem_of_ne_nil _ hne
    exact ⟨p, h.mem_freeFrames.mpr ⟨⟨p, k⟩, (mem_frees hk).mpr hp, Block.covers_start _⟩⟩
  · intro hf
    obtain ⟨f, hf⟩ := hf
    obtain ⟨b, hb, _⟩ := h.mem_freeFrames.mp hf
    exact ⟨b.order, Nat.zero_le _, hb.1, List.ne_nil_of_mem hb.2⟩

/-- A free block of two pages has two free frames. -/
theorem BuddyInv.nontrivial_of_hasFree (h : BuddyInv mm c H) (hf : hasFree mm 1 = true) :
    (freeFrames mm).Nontrivial := by
  obtain ⟨k, hk1, hk, hne⟩ := (hasFree_iff h).mp hf
  obtain ⟨p, hp⟩ := List.exists_mem_of_ne_nil _ hne
  have hb : (⟨p, k⟩ : Block) ∈ frees c := (mem_frees hk).mpr hp
  have h2 : 2 ≤ 2 ^ k := Nat.pow_le_pow_right Nat.two_pos (show 1 ≤ k from hk1)
  refine ⟨p, h.mem_freeFrames.mpr ⟨_, hb, Block.covers_start _⟩,
    p + 1, h.mem_freeFrames.mpr ⟨_, hb, Nat.le_succ p, ?_⟩, Nat.ne_of_lt (Nat.lt_succ_self p)⟩
  show p + 1 < p + 2 ^ k
  omega

theorem Block.covers_zero {p f : Nat} : (⟨p, 0⟩ : Block).Covers f ↔ f = p := by
  simp only [Block.Covers]
  omega

/-- What the free frames are when one more page is held. -/
theorem freeFrames_insert (h : BuddyInv mm c H) (h' : BuddyInv mm' c' (insert ⟨p, 0⟩ H)) :
    f ∈ freeFrames mm' ↔ f ∈ freeFrames mm ∧ f ≠ p := by
  rw [h'.freeFrames_iff, h.freeFrames_iff]
  constructor
  · intro hf
    exact ⟨⟨hf.1, fun b hb => hf.2 b (Or.inr hb)⟩,
      fun he => hf.2 _ (Or.inl rfl) (Block.covers_zero.mpr he)⟩
  · intro hf
    refine ⟨hf.1.1, fun b hb => ?_⟩
    rcases hb with rfl | hb
    · exact fun hc => hf.2 (Block.covers_zero.mp hc)
    · exact hf.1.2 b hb

/-- After `mm_init` every frame is free. -/
theorem freeFrames_mmInit (h : mmInit Mm.bss = .ok mm) : f ∈ freeFrames mm ↔ f < pageFrameNum := by
  obtain ⟨mm₀, c, hrun, hinv, _, _, hoa⟩ := mmInit_spec
  rw [h] at hrun
  obtain rfl : mm = mm₀ := Except.ok.inj hrun
  rw [hinv.buddy.freeFrames_iff]
  refine ⟨fun hf => hf.1, fun hf => ⟨hf, fun b hb => ?_⟩⟩
  rcases hb with hb | ⟨e, he, _⟩
  · exact absurd (hoa b.start) hb.2
  · exact absurd he (by simp)

/-! ## Live pages -/

theorem pageAt_injective {a b : Nat} (h : pageAt a = pageAt b) : a = b := congrArg Live.addr h

/-- A live page is allocated. -/
theorem SlabInv.pageAllocated (h : SlabInv mm c live) (ha : pageAt addr ∈ live) :
    PageAllocated mm addr := by
  obtain ⟨hoa, haddr⟩ := h.objAlloc_buddy ha rfl
  have hin : (⟨phyAddrToPfn addr, 0⟩ : Block) ∈ heldBlocks mm live := Or.inr ⟨_, ha, rfl, haddr⟩
  refine ⟨phyAddrToPfn addr, (h.live_page ha).1, haddr, h.held _ hin, fun hf => ?_⟩
  exact (h.buddy.freeFrames_iff.mp hf).2 _ hin (Block.covers_start _)

/-- A page is live once. -/
theorem SlabInv.page_once {rest : List Live} (h : SlabInv mm c (pageAt addr :: rest)) :
    ∀ e ∈ rest, e.addr ≠ addr := by
  intro e he heq
  have hmem : pageAt addr ∈ pageAt addr :: rest := List.mem_cons_self
  obtain ⟨hoa, _⟩ := h.objAlloc_buddy hmem rfl
  have hone := ((h.page _ (h.live_page hmem).1).whole hoa).1
  rw [onPage_cons_self rfl, List.length_cons] at hone
  have hon : e ∈ onPage rest (phyAddrToPfn (pageAt addr).addr) :=
    mem_onPage.mpr ⟨he, by rw [heq]; rfl⟩
  have := List.length_pos_of_mem hon
  omega

theorem PageAllocated.ne_zero (h : PageAllocated mm addr) : addr ≠ 0 := by
  obtain ⟨p, _, rfl, _⟩ := h
  simp only [frameAddr, lowMemory]
  omega

/-- `kmalloc(PAGE_SIZE)` returned the page at `addr`. -/
structure TookPage (mm : Mm) (live : List Live) (addr : Nat) (mm' : Mm) (c' : Link → List Nat) : Prop where
  run : kmalloc mm pageSize = .ok (some addr, mm')
  inv : MmInv ⟨mm', pageAt addr :: live⟩ c'
  wasFree : phyAddrToPfn addr ∈ freeFrames mm
  /-- Only its frame is no longer free. -/
  frames : ∀ f, f ∈ freeFrames mm' ↔ f ∈ freeFrames mm ∧ f ≠ phyAddrToPfn addr

namespace TookPage

theorem fresh (h : TookPage mm live addr mm' c') : pageAt addr ∉ live :=
  fun hm => h.inv.slab.page_once _ hm rfl

/-- There is another page if there were two. -/
theorem nonempty_iff (h : TookPage mm live addr mm' c') :
    (freeFrames mm').Nonempty ↔ (freeFrames mm).Nontrivial := by
  constructor
  · intro hne
    obtain ⟨f, hf⟩ := hne
    exact ⟨f, ((h.frames f).mp hf).1, _, h.wasFree, ((h.frames f).mp hf).2⟩
  · intro hnt
    obtain ⟨f, hf, hne⟩ := hnt.exists_ne (phyAddrToPfn addr)
    exact ⟨f, (h.frames f).mpr ⟨hf, hne⟩⟩

end TookPage

/-- **Taking a page**: it faults when no frame is free; otherwise one free frame becomes live. -/
theorem kmalloc_page (h : MmInv ⟨mm, live⟩ c) :
    (freeFrames mm = ∅ ∧ kmalloc mm pageSize = .error .nullDeref) ∨
    ∃ addr mm' c', TookPage mm live addr mm' c' := by
  have hcls : kmallocClass pageSize = none := by decide
  have hord : kmallocOrder pageSize = some 0 := by decide
  rcases buddyBlockAlloc_live h.slab (Nat.zero_le maxOrder) with ⟨hrun, hno⟩ |
    ⟨_, p, mm', c', hrun, haddr, hobj, hoa, hinv⟩
  · left
    have hrun' : buddyBlockAlloc mm 0 = .ok (none, mm) := hrun
    refine ⟨Set.not_nonempty_iff_eq_empty.mp fun hne => ?_, ?_⟩
    · rw [h.slab.buddy.hasFree_iff_nonempty.mpr hne] at hno
      exact absurd hno (by simp)
    · simp only [kmalloc, hcls, hord, Int.natCast_zero, hrun', ok_bind]
  · right
    have hrun' : buddyBlockAlloc mm 0 = .ok (some p, mm') := hrun
    have hinv' : SlabInv mm' c' (pageAt (frameAddr p) :: live) := hinv pageSize
    have hpN : p < pageFrameNum := by
      have hin : (⟨p, 0⟩ : Block) ∈ heldBlocks mm' (pageAt (frameAddr p) :: live) :=
        Or.inr ⟨_, List.mem_cons_self, rfl, rfl⟩
      exact hinv'.buddy.start_lt (Or.inr hin)
    have hpfn := phyAddrToPfn_frame hpN
    have hheld : heldBlocks mm' (pageAt (frameAddr p) :: live) = insert ⟨p, 0⟩ (heldBlocks mm live) := by
      rw [pageAt, heldBlocks_cons_buddy, heldBlocks_congr hobj.objAlloc]
    have hb := hinv'.buddy
    rw [hheld] at hb
    refine ⟨frameAddr p, mm', c', ?_, ⟨hinv', h.classes.sameObj hobj⟩, ?_, ?_⟩
    · simp only [kmalloc, hcls, hord, Int.natCast_zero, hrun', ok_bind, haddr]
    · -- the frame that became held had been covered by a free block
      rw [hpfn, h.slab.buddy.freeFrames_iff]
      refine ⟨hpN, fun b hbm hbc => ?_⟩
      have heq := hb.tiling.unique b (Or.inr (Or.inr hbm)) ⟨p, 0⟩ (Or.inr (Or.inl rfl)) p hbc
        (Block.covers_start ⟨p, 0⟩)
      rw [heq] at hbm
      rcases hbm with hbm | ⟨e, he, _, hea⟩
      · exact hbm.2 hoa
      · exact hinv'.page_once e he hea
    · rw [hpfn]
      exact fun f => freeFrames_insert h.slab.buddy hb

theorem takePage (h : MmInv ⟨mm, live⟩ c) (hfree : (freeFrames mm).Nonempty) :
    ∃ addr mm' c', TookPage mm live addr mm' c' := by
  rcases kmalloc_page h with ⟨hempty, _⟩ | htook
  · exact absurd hempty (Set.nonempty_iff_ne_empty.mp hfree)
  · exact htook

/-- `kfree` took the page at `addr` back. -/
structure GavePage (mm : Mm) (live : List Live) (addr : Nat) (mm' : Mm) (c' : Link → List Nat) : Prop where
  run : kfree mm addr = .ok mm'
  inv : MmInv ⟨mm', live.erase (pageAt addr)⟩ c'
  wasTaken : phyAddrToPfn addr ∉ freeFrames mm
  /-- Only its frame is free now that was not. -/
  frames : ∀ f, f ∈ freeFrames mm' ↔ f ∈ freeFrames mm ∨ f = phyAddrToPfn addr

/-- **Returning a live page**: its frame, and no other, becomes free. -/
theorem kfree_page (h : MmInv ⟨mm, live⟩ c) (ha : pageAt addr ∈ live) :
    ∃ mm' c', GavePage mm live addr mm' c' := by
  have hinv := h.slab.perm (List.perm_cons_erase ha)
  generalize hrest : live.erase (pageAt addr) = rest at hinv
  obtain ⟨mm', c', hrun, hinv', hobj⟩ := kfree_block hinv rfl
  obtain ⟨hoa, haddr⟩ := hinv.objAlloc_buddy List.mem_cons_self rfl
  obtain ⟨p, hp⟩ : ∃ p, phyAddrToPfn addr = p := ⟨_, rfl⟩
  have haddr' : addr = frameAddr p := hp ▸ haddr
  have hheld : heldBlocks mm (pageAt addr :: rest) = insert ⟨p, 0⟩ (heldBlocks mm' rest) := by
    rw [pageAt, haddr', heldBlocks_cons_buddy, heldBlocks_congr hobj.objAlloc]
  have hb := hinv.buddy
  rw [hheld] at hb
  have hfr : ∀ f, f ∈ freeFrames mm ↔ f ∈ freeFrames mm' ∧ f ≠ p :=
    fun f => freeFrames_insert hinv'.buddy hb
  have hpfree : p ∈ freeFrames mm' := by
    refine hinv'.buddy.freeFrames_iff.mpr ⟨hb.start_lt (Or.inr (Or.inl rfl)), fun b hbm hbc => ?_⟩
    -- the block that covers `p` would be the page itself, which is live once
    have heq := hb.tiling.unique b (Or.inr (Or.inr hbm)) ⟨p, 0⟩ (Or.inr (Or.inl rfl)) p hbc
      (Block.covers_start ⟨p, 0⟩)
    rw [heq] at hbm
    rcases hbm with hbm | ⟨e, he, _, hea⟩
    · refine hbm.2 ?_
      rw [hobj.objAlloc]
      exact hp ▸ hoa
    · exact hinv.page_once e he (hea.trans haddr'.symm)
  refine ⟨mm', c', hrun, ⟨hrest ▸ hinv', h.classes.sameObj hobj⟩, ?_, fun f => ?_⟩
  · rw [hp, hfr p]
    exact fun hf => hf.2 rfl
  rw [hp, hfr f]
  constructor
  · intro hf
    by_cases hfp : f = p
    · exact Or.inr hfp
    · exact Or.inl ⟨hf, hfp⟩
  · intro hf
    rcases hf with hf | rfl
    · exact hf.1
    · exact hpfree

end OsdiKernel
