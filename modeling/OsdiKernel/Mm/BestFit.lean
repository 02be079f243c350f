import OsdiKernel.Mm.FreeFrames

/-!
# `buddy_block_alloc` is complete, and takes the best fit

The search looks at the heads of the lists only, smallest order first. That this
finds a place whenever there is one is because buddies are never free together:
an aligned range of free frames, however it is covered, is covered by one block.
-/

namespace OsdiKernel

variable {mm mm' : Mm} {c c' : Link → List Nat} {H R : Set Block} {live : List Live} {p k i j order : Nat}

/-- A range of `2 ^ order` frames, aligned to its size, that are all free. -/
def FreeRange (mm : Mm) (order p : Nat) : Prop :=
  2 ^ order ∣ p ∧ ∀ f, (⟨p, order⟩ : Block).Covers f → f ∈ freeFrames mm

/-- A free block has a free range of any smaller order. -/
theorem BuddyInv.freeRange (h : BuddyInv mm c H) (hb : (⟨p, k⟩ : Block) ∈ frees c) (hok : order ≤ k) :
    FreeRange mm order p := by
  have hpow : 2 ^ order ≤ 2 ^ k := Nat.pow_le_pow_right Nat.two_pos hok
  refine ⟨Nat.dvd_trans (Nat.pow_dvd_pow 2 hok) (h.tiling.aligned _ (Or.inl hb)), fun f hf => ?_⟩
  refine h.mem_freeFrames.mpr ⟨_, hb, hf.1, Nat.lt_of_lt_of_le hf.2 ?_⟩
  show p + 2 ^ order ≤ p + 2 ^ k
  omega

/-- **A free range lies in a free block.** -/
theorem BuddyInv.freeRange_iff (h : BuddyInv mm c H) (ho : order ≤ maxOrder) :
    (∃ p, FreeRange mm order p) ↔ ∃ k, order ≤ k ∧ k ≤ maxOrder ∧ c (.freelist k) ≠ [] := by
  constructor
  · rintro ⟨p, hal, hfree⟩
    have havoid : ∀ f, (⟨p, order⟩ : Block).Covers f → ∀ a ∈ H, ¬ a.Covers f :=
      fun f hf => (h.freeFrames_iff.mp (hfree f hf)).2
    have hlast : (⟨p, order⟩ : Block).Covers (p + 2 ^ order - 1) := by
      have hpos := Nat.two_pow_pos order
      unfold Block.Covers
      simp only
      omega
    have hbound : p + 2 ^ order ≤ pageFrameNum := by
      have := (h.freeFrames_iff.mp (hfree _ hlast)).1
      omega
    obtain ⟨b, hb, hob, _⟩ := coalesced_max h.tiling h.coalesced order p ho hal hbound havoid
    exact ⟨b.order, hob, hb.1, List.ne_nil_of_mem hb.2⟩
  · rintro ⟨k, hok, hk, hne⟩
    obtain ⟨p, hp⟩ := List.exists_mem_of_ne_nil _ hne
    exact ⟨p, h.freeRange ((mem_frees hk).mpr hp) hok⟩

/-- What cutting a block down puts on each list. -/
theorem giveBack_freelist (p order : Nat) : ∀ (n : Nat) (c : Link → List Nat) (j : Nat),
    giveBack c p order n (.freelist j) =
      if order ≤ j ∧ j < order + n then c (.freelist j) ++ [p + 2 ^ j] else c (.freelist j)
  | 0, c, j => by rw [if_neg (by omega)]; rfl
  | n + 1, c, j => by
      rw [giveBack, giveBack_freelist p order n]
      by_cases hj : j = order + n
      · subst hj
        rw [Function.update_self, if_neg (by omega), if_pos (by omega)]
      · have hne : Link.freelist j ≠ .freelist (order + n) := fun he => hj (Link.freelist.inj he)
        rw [Function.update_of_ne hne]
        by_cases hin : order ≤ j ∧ j < order + n
        · rw [if_pos hin, if_pos (by omega)]
        · rw [if_neg hin, if_neg (by omega)]

/-- The free lists after a block of `order` was cut from `p`, the head of a block of order `i`. -/
structure CutFrom (mm : Mm) (order i p : Nat) (mm' : Mm) : Prop where
  le : order ≤ i ∧ i ≤ maxOrder
  /-- It was the smallest order with a free block. -/
  smallest : ∀ j, order ≤ j → j < i → freeHeads mm j = ∅
  /-- Its list lost the block, -/
  source : p ∈ freeHeads mm i ∧ freeHeads mm' i = freeHeads mm i \ {p}
  /-- every order below it, down to the one asked for, has one block, -/
  halves : ∀ j, order ≤ j → j < i → freeHeads mm' j = {p + 2 ^ j}
  /-- and the other lists are as they were. -/
  others : ∀ j, j < order ∨ i < j → j ≤ maxOrder → freeHeads mm' j = freeHeads mm j

theorem Allocates.cutFrom (h : BuddyInv mm c R) (ha : Allocates mm c R order i p mm' c') :
    CutFrom mm order i p mm' := by
  have hinv := ha.hand.inv
  obtain ⟨hoi, hi⟩ := ha.le
  obtain ⟨tl, hci, hc'⟩ := ha.lists
  have hnd : (p :: tl).Nodup := hci ▸ h.lists.nodup (BuddyInv.isHead_freelist hi)
  -- below `i` a list was empty, and has the half that was given back there
  have hlist : ∀ j, c' (.freelist j) =
      if order ≤ j ∧ j < i then [p + 2 ^ j] else if j = i then tl else c (.freelist j) := by
    intro j
    rw [hc', giveBack_freelist, show order + (i - order) = i by omega]
    by_cases hj : order ≤ j ∧ j < i
    · have hne : Link.freelist j ≠ .freelist i := fun he => absurd (Link.freelist.inj he) (by omega)
      rw [if_pos hj, if_pos hj, Function.update_of_ne hne, ha.first j hj.1 hj.2, List.nil_append]
    · rw [if_neg hj, if_neg hj]
      by_cases hji : j = i
      · rw [if_pos hji, hji, Function.update_self]
      · rw [if_neg hji, Function.update_of_ne (fun he => hji (Link.freelist.inj he))]
  refine ⟨⟨hoi, hi⟩, fun j hj hji => ?_, ⟨?_, ?_⟩, fun j hj hji => ?_, fun j hj hj9 => ?_⟩
  · ext q
    rw [h.mem_freeHeads (by omega), ha.first j hj hji]
    simp
  · rw [h.mem_freeHeads hi, hci]
    exact List.mem_cons_self
  · ext q
    rw [hinv.mem_freeHeads hi, hlist i, if_neg (by omega), if_pos rfl, Set.mem_sdiff, h.mem_freeHeads hi, hci,
      Set.mem_singleton_iff, List.mem_cons]
    constructor
    · exact fun hq => ⟨Or.inr hq, fun he => (List.nodup_cons.mp hnd).1 (he ▸ hq)⟩
    · exact fun hq => hq.1.resolve_left hq.2
  · ext q
    rw [hinv.mem_freeHeads (by omega), hlist j, if_pos ⟨hj, hji⟩, List.mem_singleton]
    rfl
  · ext q
    rw [hinv.mem_freeHeads hj9, h.mem_freeHeads hj9, hlist j, if_neg (by omega), if_neg (by omega)]

/-- What `buddy_block_alloc(order)` does. -/
structure CompleteAndBestFit (mm : Mm) (order : Nat) : Prop where
  /-- NULL means that there is no place, -/
  null : (∃ mm', buddyBlockAlloc mm order = .ok (none, mm')) ↔ ¬ ∃ p, FreeRange mm order p
  /-- and changes nothing. -/
  unchanged : ∀ mm', buddyBlockAlloc mm order = .ok (none, mm') → mm' = mm
  /-- Otherwise a block of that order comes from the smallest one that is free and large enough. -/
  block : (∃ p, FreeRange mm order p) → ∃ i p mm', buddyBlockAlloc mm order = .ok (some p, mm') ∧
    Held mm' ⟨p, order⟩ ∧ FreeRange mm order p ∧ CutFrom mm order i p mm'

theorem BuddyInv.completeAndBestFit (h : BuddyInv mm c R) (ho : order ≤ maxOrder) :
    CompleteAndBestFit mm order := by
  have hplace := h.freeRange_iff ho
  rcases buddyBlockAlloc_spec h order ho with ⟨hrun, hempty⟩ | ⟨i, p, mm', c', hrun, ha⟩
  · have hno : ¬ ∃ p, FreeRange mm order p := by
      rw [hplace]
      rintro ⟨k, hok, hk, hne⟩
      exact hne (hempty k hok hk)
    refine ⟨⟨fun _ => hno, fun _ => ⟨mm, hrun⟩⟩, fun mm'' hr => ?_, fun hex => absurd hex hno⟩
    rw [hrun] at hr
    exact (Prod.mk.inj (Except.ok.inj hr)).2.symm
  · have hcut := ha.cutFrom h
    obtain ⟨hoi, hi⟩ := ha.le
    have hb : (⟨p, i⟩ : Block) ∈ frees c := (mem_frees hi).mpr ((h.mem_freeHeads hi).mp hcut.source.1)
    have hrange : FreeRange mm order p := h.freeRange hb hoi
    have hsome : ∀ mm'', buddyBlockAlloc mm order ≠ .ok (none, mm'') := by
      intro mm'' hr
      rw [hrun] at hr
      exact absurd (Prod.mk.inj (Except.ok.inj hr)).1 (by simp)
    exact ⟨⟨fun ⟨mm'', hr⟩ => absurd hr (hsome mm''), fun hno => absurd ⟨p, hrange⟩ hno⟩,
      fun mm'' hr => absurd hr (hsome mm''), fun _ => ⟨i, p, mm', hrun, ha.held, hrange, hcut⟩⟩

/-- The buddy system's states: under calls of its own functions, or of `kmalloc`'s. -/
def BuddyStates (mm : Mm) : Prop :=
  (∃ allocated, BuddyReachable ⟨mm, allocated⟩) ∨ ∃ live, MmReachable ⟨mm, live⟩

theorem BuddyStates.inv (h : BuddyStates mm) : ∃ c R, BuddyInv mm c R := by
  rcases h with ⟨_, h⟩ | ⟨_, h⟩
  · obtain ⟨c, hrun⟩ := buddyRun_reachable h
    exact ⟨c, _, hrun.inv⟩
  · obtain ⟨c, hinv⟩ := mmInv_reachable h
    exact ⟨c, _, hinv.slab.buddy⟩

/--
**Completeness and best fit.** In every reachable state and for every order,
`buddy_block_alloc` finds a place if there is one, takes it from the smallest
free block that is large enough, and gives every half it cuts off back once.
-/
theorem buddyBlockAlloc_complete (h : BuddyStates mm) (ho : order ≤ maxOrder) : CompleteAndBestFit mm order := by
  obtain ⟨c, R, hinv⟩ := h.inv
  exact hinv.completeAndBestFit ho

/-- A block of four pages from the memory as `free_area_init` leaves it. -/
theorem buddyBlockAlloc_complete_start :
    ∃ mm, BuddyStates mm ∧ CompleteAndBestFit mm 2 := by
  obtain ⟨mm, _, h₀, _⟩ := freeAreaInit_spec
  have hreach : BuddyStates mm := Or.inl ⟨∅, mm, h₀, .init⟩
  exact ⟨mm, hreach, buddyBlockAlloc_complete hreach (by decide)⟩

end OsdiKernel
