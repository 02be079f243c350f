import OsdiKernel.Mm.Disjoint

/-!
# As long as nothing is freed

No page has a free chain before the first `kfree`, so every object is the next
one up on its page, and every `kmalloc` that returns an object returns one that
nobody holds.
-/

namespace OsdiKernel

variable {s : MmState} {mm₀ : Mm} {size : Int}

/-- The allocator, where nothing was ever given back. -/
structure NothingFreed (s : MmState) : Prop where
  sound : Sound s
  inv : ∃ c, MmInv s c
  chain : ∀ p t, (s.mm.bookkeep p).objAlloc = some t → (s.mm.bookkeep p).free = none

/-- At boot. -/
theorem nothingFreed_init (h : mmInit Mm.bss = .ok mm₀) : NothingFreed ⟨mm₀, []⟩ where
  sound := ⟨List.nodup_nil, fun p t _ _ e he => absurd he (by simp [onPage]), by simp, by simp, by simp⟩
  inv := mmInv_init h
  chain := by
    intro p t hown
    obtain ⟨mm, _, hrun, _, _, _, hnone⟩ := mmInit_spec
    rw [h] at hrun
    obtain rfl := Except.ok.inj hrun
    rw [hnone p] at hown
    exact absurd hown (by simp)

namespace NothingFreed

/-- The chain of a serving page is empty. -/
theorem chainSound (h : NothingFreed s) : ChainSound s size := by
  obtain ⟨c, hi⟩ := h.inv
  intro e _ hhead
  unfold chainHead at hhead
  cases hcls : kmallocClass size with
  | none =>
      rw [hcls] at hhead
      exact absurd hhead (by simp)
  | some i =>
      rw [hcls] at hhead
      cases hs : servingPage s.mm (i - minKmallocOrder) with
      | none =>
          simp only [hs] at hhead
          exact absurd hhead (by simp)
      | some p =>
          simp only [hs] at hhead
          -- the serving page belongs to the allocator of the class
          rcases objAllocate_spec hi.slab (hi.class_token hcls).1 with ⟨_, hcan⟩ | ⟨_, q, mm', c', addr, _, hsv⟩
          · rw [hi.slab.canServe_eq (hi.class_token hcls).1, hs] at hcan
            exact absurd hcan (by simp)
          · rcases hsv.source with ⟨hq, _, hown, _⟩ | ⟨hq, _⟩
            · rw [hs] at hq
              obtain rfl := Option.some.inj hq
              rw [h.chain p _ hown] at hhead
              exact absurd hhead (by simp)
            · rw [hs] at hq
              exact absurd hq (by simp)

/-- **`kmalloc` of an object** returns one that nobody holds, if it returns. -/
theorem kmalloc (h : NothingFreed s) {i : Nat} (hcls : kmallocClass size = some i) (hpos : 1 ≤ size) :
    kmalloc s.mm size = .error .nullDeref ∨
    ∃ addr mm', kmalloc s.mm size = .ok (some addr, mm') ∧
      NothingFreed ⟨mm', ⟨addr, size, .slab (i - minKmallocOrder)⟩ :: s.live⟩ ∧
      ∀ e ∈ s.live, e.addr ≠ addr := by
  obtain ⟨c, hi⟩ := h.inv
  have hcall : OsdiKernel.kmalloc s.mm size = objAllocate s.mm (i - minKmallocOrder : Nat) := by
    simp only [OsdiKernel.kmalloc, hcls]
  rcases objAllocate_spec hi.slab (hi.class_token hcls).1 with ⟨hrun, _⟩ | ⟨_, p, mm', c', addr, hrun, hsv⟩
  · exact Or.inl (hcall.trans hrun)
  · have hexec : mmSystem.exec s (.kmalloc size)
        = .ok ⟨mm', ⟨addr, size, .slab (i - minKmallocOrder)⟩ :: s.live⟩ := by
      simp only [mmSystem, hcall, hrun, ok_bind, kmallocOwner, hcls, handOut]
    have hsound := h.sound.kmalloc hi hpos h.chainSound hexec
    refine Or.inr ⟨addr, mm', hcall.trans hrun, ⟨hsound, mmInv_exec hi (.kmalloc size) trivial hexec, ?_⟩, ?_⟩
    · intro q t hown
      by_cases hq : q = p
      · subst hq
        rcases hsv.source with ⟨_, _, hown', hfree, _⟩ | ⟨_, _, _, hfree, _⟩
        · rw [hfree]
          exact h.chain q _ hown'
        · exact hfree
      · obtain ⟨_, hoa, hfree⟩ := hsv.touches.page q hq
        rw [hfree]
        exact h.chain q t (hoa ▸ hown)
    · intro e he ha
      have honce := hsound.once
      rw [List.map_cons, List.nodup_cons] at honce
      exact honce.1 (List.mem_map.mpr ⟨e, he, ha⟩)

/-- What is handed out lies in the managed frames. -/
theorem addr_lt (h : NothingFreed s) {e : Live} (he : e ∈ s.live) : e.addr < 2 ^ 32 := by
  obtain ⟨c, hi⟩ := h.inv
  obtain ⟨hp, hm⟩ := hi.slab.live_page he
  unfold pageFrameNum at hp
  cases ho : e.owner with
  | slab t =>
      have hown := (hi.slab.objAlloc_slab he).mpr ho
      have htok := hi.slab.token t (hi.slab.registered hown)
      obtain ⟨n, off, _, hoff, haddr⟩ := (((hi.slab.page _ (by exact hp)).slab t hown).2 e hm).2.within htok
      rw [haddr]
      simp only [frameAddr, lowMemory, pageSize] at hoff ⊢
      omega
  | buddy k =>
      have haddr := (hi.slab.objAlloc_buddy he ho).2
      rw [haddr]
      simp only [frameAddr, lowMemory, pageSize]
      omega

end NothingFreed

end OsdiKernel
