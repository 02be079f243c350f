import Mathlib.Data.Nat.Log
import OsdiKernel.Mm.Disjoint
import OsdiKernel.Mm.FreeFrames

/-!
# Where allocations are placed

`kmalloc` rounds a request up twice: the loop over the classes finds the first
that is large enough, and past the classes the loop over the orders does. Which
allocator has objects of that size was settled before, when `__init_kmalloc`
took the tokens one after the other. The three agree: what is returned starts at
a multiple of the rounded size, and all of it is on one page or in one block.

An object taken off a page's chain is where an object was before, so it does not
matter here that the chain may hand it out again.
-/

namespace OsdiKernel

variable {s s' : MmState} {mm mm' mm₁ : Mm} {c c' : Link → List Nat} {live : List Live} {size objsize token : Int}
  {e : Live} {t p i k n addr : Nat}

/-! ## Rounding up -/

/-- The smallest power of two that has room for `size` bytes, and for the link of a freed object. -/
def roundUp (size : Int) : Nat := 2 ^ Nat.clog 2 (max size minAllocatedObjSize).toNat

/-- It has room, and no smaller power of two does. -/
theorem roundUp_least (size : Int) :
    max size minAllocatedObjSize ≤ roundUp size ∧
      ∀ m : Nat, max size minAllocatedObjSize ≤ 2 ^ m → roundUp size ≤ 2 ^ m := by
  have h8 : (0 : Int) ≤ max size minAllocatedObjSize :=
    le_trans (by decide) (le_max_right size minAllocatedObjSize)
  have hcast := Int.toNat_of_nonneg h8
  constructor
  · have := Nat.le_pow_clog (b := 2) (by decide) (max size minAllocatedObjSize).toNat
    rw [roundUp, ← hcast]
    exact_mod_cast this
  · intro m hm
    refine Nat.pow_le_pow_right Nat.two_pos (Nat.clog_le_of_le_pow ?_)
    rw [← hcast] at hm
    exact_mod_cast hm

theorem roundUp_eq (hle : max size minAllocatedObjSize ≤ 2 ^ n)
    (hlt : ∀ m < n, ¬ max size minAllocatedObjSize ≤ 2 ^ m) : roundUp size = 2 ^ n := by
  obtain ⟨hroom, hleast⟩ := roundUp_least size
  refine Nat.le_antisymm (hleast n hle) ?_
  refine Nat.pow_le_pow_right Nat.two_pos (Nat.le_of_not_lt (fun hm => hlt _ hm ?_))
  rw [roundUp] at hroom
  exact_mod_cast hroom

/-- The class loop rounds up. -/
theorem kmallocClass_roundUp (h : kmallocClass size = some i) : roundUp size = 2 ^ i := by
  obtain ⟨h3, _, hle⟩ := kmallocClass_some h
  obtain ⟨_, _, hfirst⟩ := List.find?_range'_eq_some.mp h
  refine roundUp_eq (max_le hle ?_) (fun m hm hmax => ?_)
  · have : (8 : Nat) ≤ 2 ^ i := Nat.pow_le_pow_right Nat.two_pos h3
    show (8 : Int) ≤ 2 ^ i
    exact_mod_cast this
  · -- a smaller power with room would have been found first
    have h3m : minKmallocOrder ≤ m := by
      by_contra hn
      have hpow : (2 : Nat) ^ m ≤ 2 ^ 2 := Nat.pow_le_pow_right Nat.two_pos (by unfold minKmallocOrder at hn; omega)
      have h8 : (8 : Int) ≤ 2 ^ m := le_trans (le_max_right size 8) hmax
      have : (8 : Nat) ≤ 2 ^ m := by exact_mod_cast h8
      omega
    have := hfirst m h3m hm
    simp only [Bool.not_eq_true', decide_eq_false_iff_not] at this
    exact this (le_trans (le_max_left size minAllocatedObjSize) hmax)

/-- Past the classes a request is for more than their largest object. -/
theorem kmallocClass_none (h : kmallocClass size = none) : 2048 < size := by
  have := List.find?_range'_eq_none.mp h 11 (by decide) (by decide)
  simpa using this

/-- The order loop rounds up, once the class loop has failed. -/
theorem kmallocOrder_roundUp (hc : kmallocClass size = none) (h : kmallocOrder size = some k) :
    roundUp size = 2 ^ (k + pageShift) := by
  have hbig := kmallocClass_none hc
  obtain ⟨_, hle⟩ := kmallocOrder_some h
  obtain ⟨_, _, hfirst⟩ := List.find?_range_eq_some.mp h
  refine roundUp_eq (max_le hle (le_trans ?_ hle)) (fun m hm hmax => ?_)
  · exact le_of_lt (lt_trans (by decide) hbig)
  · have hroom : size ≤ 2 ^ m := le_trans (le_max_left size minAllocatedObjSize) hmax
    have h12 : pageShift ≤ m := by
      by_contra hn
      have hpow : (2 : Nat) ^ m ≤ 2 ^ 11 := Nat.pow_le_pow_right Nat.two_pos (by unfold pageShift at hn; omega)
      have : (2 : Int) ^ m ≤ 2 ^ 11 := by exact_mod_cast hpow
      omega
    have := hfirst (m - pageShift) (by omega)
    rw [Nat.sub_add_cancel h12] at this
    simp only [Bool.not_eq_true', decide_eq_false_iff_not] at this
    exact this hroom

/-! ## Objects -/

/-- `addr` is the `j`th object of `n` bytes on page `p`, a page of allocator `t`. -/
structure ObjectAt (mm : Mm) (t n p j addr : Nat) : Prop where
  frame : p < pageFrameNum
  owned : (mm.bookkeep p).objAlloc = some t
  index : (j : Int) < (mm.objAllocPool t).objPerPage
  addr_eq : addr = (mm.bookkeep p).phyAddr + j * n
  within : addr + n ≤ (mm.bookkeep p).phyAddr + pageSize

/-- **The live objects of an allocator** are where its objects can be. -/
theorem SlabInv.objectAt (h : SlabInv mm c live) (he : e ∈ live) (ho : e.owner = .slab t)
    (hn : (mm.objAllocPool t).objsize = n) : ∃ p j, ObjectAt mm t n p j e.addr := by
  obtain ⟨hpN, hm⟩ := h.live_page he
  have hown := (h.objAlloc_slab he).mpr ho
  have htok := h.token t (h.registered hown)
  obtain ⟨_, hobj⟩ := ((h.page _ hpN).slab t hown).2 e hm
  obtain ⟨m, off, hsz, hoff, haddr⟩ := hobj.within htok
  obtain ⟨j, hj, hja⟩ := hobj
  have hphy : (mm.bookkeep (phyAddrToPfn e.addr)).phyAddr = frameAddr (phyAddrToPfn e.addr) :=
    h.buddy.addr _ hpN
  have hmn : m = n := Int.ofNat_inj.mp (hsz.symm.trans hn)
  refine ⟨phyAddrToPfn e.addr, j, hpN, hown, hj, ?_, ?_⟩
  · rw [hn] at hja
    rw [hphy]
    exact_mod_cast hja
  · rw [hphy]
    omega

/-- An object starts at a multiple of its size, if that divides a page. -/
theorem ObjectAt.aligned (h : ObjectAt mm t n p i addr) (hphy : (mm.bookkeep p).phyAddr = frameAddr p)
    (hn : n ∣ pageSize) : n ∣ addr := by
  have hlow : n ∣ lowMemory := hn.trans (by decide)
  rw [h.addr_eq, hphy]
  exact Nat.dvd_add (Nat.dvd_add hlow (hn.mul_left p)) (Dvd.intro_left i rfl)

/-- A size on its way through `register_obj_allocator`. -/
def clampSize (objsize : Int) : Int := min maxAllocatedObjSize (max minAllocatedObjSize objsize)

/-- What a registration that found a token leaves in the pool. -/
theorem registerObjAllocator_size (h : registerObjAllocator mm objsize = (token, mm₁)) (ht : 0 ≤ token) :
    mm₁.Registered token.toNat ∧ (mm₁.objAllocPool token.toNat).objsize = clampSize objsize := by
  have hclamp : (if (if objsize < minAllocatedObjSize then minAllocatedObjSize else objsize) > maxAllocatedObjSize
      then maxAllocatedObjSize
      else if objsize < minAllocatedObjSize then minAllocatedObjSize else objsize) = clampSize objsize := by
    unfold clampSize minAllocatedObjSize maxAllocatedObjSize
    omega
  have hpos : clampSize objsize ≠ 0 := by
    unfold clampSize minAllocatedObjSize maxAllocatedObjSize
    omega
  cases hfind : (List.range maxObjAllocatorNum).find? (fun token => (mm.objAllocPool token).objsize = 0) with
  | none =>
      simp only [registerObjAllocator, hfind, Prod.mk.injEq] at h
      omega
  | some u =>
      simp only [registerObjAllocator, hfind, hclamp, Prod.mk.injEq] at h
      obtain ⟨rfl, rfl⟩ := h
      have hu : u < maxObjAllocatorNum := List.mem_range.mp (List.mem_of_find?_eq_some hfind)
      have hsize : ((initObjAlloc mm u (clampSize objsize)).objAllocPool u).objsize = clampSize objsize := by
        simp [initObjAlloc]
      rw [Int.toNat_natCast]
      exact ⟨⟨hu, by rw [hsize]; exact hpos⟩, hsize⟩

theorem objsize_kfree (h : MmInv s c) (hl : ∃ e ∈ s.live, e.addr = addr)
    (he : mmSystem.exec s (.kfree addr) = .ok s') :
    (s'.mm.objAllocPool t).objsize = (s.mm.objAllocPool t).objsize := by
  obtain ⟨e, hm, rfl, hperm⟩ := giveUp_perm hl
  have hinv := h.slab.perm hperm
  cases ho : e.owner with
  | slab u =>
      have hown := (h.slab.objAlloc_slab hm).mpr ho
      obtain ⟨mm', c', hrun, hfr⟩ := objFree_spec ⟨hinv, rfl, hown⟩
      simp only [mmSystem, OsdiKernel.kfree, hown, hrun, ok_bind, Except.ok.injEq] at he
      subst he
      exact hfr.touches.objsize t
  | buddy k =>
      obtain ⟨mm', c', hrun, _, hobj⟩ := kfree_block hinv ho
      simp only [mmSystem, hrun, ok_bind, Except.ok.injEq] at he
      subst he
      rw [hobj.pool]

/-- **No request changes an allocator's size.** -/
theorem objsize_step (h : MmInv s c) {op : MmOp} (hl : mmSystem.legal s op) (he : mmSystem.exec s op = .ok s')
    (ht : s.mm.Registered t) : (s'.mm.objAllocPool t).objsize = (s.mm.objAllocPool t).objsize := by
  cases op with
  | kmalloc size =>
      rcases kmalloc_cases h he with ⟨_, _, mm', c', _, _, rfl, hsv⟩ | ⟨_, _, mm', c', _, _, rfl, hobj, _⟩ |
        ⟨_, rfl⟩
      · exact hsv.touches.objsize t
      · rw [hobj.pool]
      · rfl
  | kfree addr => exact objsize_kfree h hl he
  | registerObjAllocator objsize =>
      simp only [mmSystem, Except.ok.injEq] at he
      subst he
      rw [(registerObjAllocator_spec h.slab objsize).old t ht]
  | objAllocate token =>
      by_cases hrange : token < 0 ∨ token ≥ maxObjAllocatorNum
      · simp only [mmSystem, objAllocate, if_pos hrange, ok_bind, handOut, Except.ok.injEq] at he
        subst he
        rfl
      · obtain ⟨u, rfl⟩ : ∃ u : Nat, token = u := ⟨token.toNat, by omega⟩
        by_cases hreg : s.mm.Registered u
        · rcases objAllocate_spec h.slab hreg with ⟨hrun, _⟩ | ⟨_, p, mm', c', addr, hrun, hsv⟩
          · simp [mmSystem, hrun] at he
          · simp only [mmSystem, hrun, ok_bind, handOut, Except.ok.injEq] at he
            subst he
            exact hsv.touches.objsize t
        · simp [mmSystem, objAllocate_unregistered h.slab (by omega) hreg] at he
  | objFree addr =>
      -- an object is freed the way `kfree` frees it
      obtain ⟨e, hm, rfl, hslab⟩ := hl
      obtain ⟨u, ho⟩ : ∃ u, e.owner = .slab u := by
        cases ho : e.owner with
        | slab u => exact ⟨u, rfl⟩
        | buddy k => simp [Live.isSlab, ho] at hslab
      have hown := (h.slab.objAlloc_slab hm).mpr ho
      have hrun : mmSystem.exec s (.objFree e.addr) = mmSystem.exec s (.kfree e.addr) := by
        simp only [mmSystem, OsdiKernel.kfree, hown]
      exact objsize_kfree h ⟨e, hm, rfl⟩ (hrun ▸ he)

/-- Nor does a run of them. -/
theorem objsize_run (h : MmInv s c) (hr : mmSystem.Reach s s') (ht : s.mm.Registered t) :
    (∃ c', MmInv s' c') ∧ s'.mm.Registered t ∧ (s'.mm.objAllocPool t).objsize = (s.mm.objAllocPool t).objsize := by
  refine hr.inv_ok (P := fun s' => (∃ c', MmInv s' c') ∧ s'.mm.Registered t ∧
    (s'.mm.objAllocPool t).objsize = (s.mm.objAllocPool t).objsize) ⟨⟨c, h⟩, ht, rfl⟩ ?_
  intro s₁ op s₂ ⟨⟨c₁, h₁⟩, hreg, hsz⟩ hl he
  have hsame := objsize_step h₁ hl he hreg
  exact ⟨mmInv_exec h₁ op hl he, ⟨hreg.1, by rw [hsame]; exact hreg.2⟩, hsame.trans hsz⟩

/-! ## Containment -/

/-- Where `n` bytes from `addr` are: in the managed range, and within one page of an allocator of
that size, or within one block that is not free. -/
structure Placed (mm : Mm) (addr n : Nat) : Prop where
  managed : lowMemory ≤ addr ∧ addr + n ≤ lowMemory + pageFrameNum * pageSize
  aligned : n ∣ addr
  page : n ≤ 2048 → ∃ t p j, (mm.objAllocPool t).objsize = n ∧ ObjectAt mm t n p j addr
  block : 2048 < n → ∃ p k, Held mm ⟨p, k⟩ ∧ (⟨p, k⟩ : Block).Aligned ∧
    (∀ f, (⟨p, k⟩ : Block).Covers f → f < pageFrameNum ∧ f ∉ freeFrames mm) ∧
    addr = frameAddr p ∧ n = 2 ^ k * pageSize

/-- An object of a power of two, at most half a page. -/
theorem ObjectAt.placed (h : ObjectAt mm t (2 ^ i) p k addr) (hphy : (mm.bookkeep p).phyAddr = frameAddr p)
    (hi : i ≤ 11) (hsize : (mm.objAllocPool t).objsize = (2 ^ i : Nat)) : Placed mm addr (2 ^ i) where
  managed := by
    have hp := h.frame
    have h1 := h.addr_eq
    have h2 := h.within
    rw [hphy] at h1 h2
    simp only [frameAddr, pageSize, pageFrameNum] at hp h1 h2 ⊢
    omega
  aligned := by
    have h12 : 2 ^ i ∣ 2 ^ 12 := Nat.pow_dvd_pow 2 (by omega)
    exact h.aligned hphy (h12.trans (by decide))
  page := fun _ => ⟨t, p, k, hsize, h⟩
  block := by
    intro hbig
    have : 2 ^ i ≤ 2 ^ 11 := Nat.pow_le_pow_right Nat.two_pos hi
    omega

/-- A block handed out whole. -/
theorem SlabInv.placed_block (h : SlabInv mm c live) (he : e ∈ live) (ho : e.owner = .buddy k) :
    Placed mm e.addr (2 ^ (k + pageShift)) := by
  obtain ⟨_, haddr⟩ := h.objAlloc_buddy he ho
  generalize phyAddrToPfn e.addr = p at haddr
  have hb : (⟨p, k⟩ : Block) ∈ heldBlocks mm live := Or.inr ⟨e, he, ho, haddr⟩
  have hk := h.buddy.orders _ hb
  have hal := h.buddy.tiling.aligned _ (Or.inr hb)
  have hbound := h.buddy.tiling.bound _ (Or.inr hb)
  have hpow : 2 ^ (k + pageShift) = 2 ^ k * pageSize := Nat.pow_add 2 k 12
  refine ⟨?_, ?_, fun hsmall => ?_, fun _ => ⟨p, k, h.held _ hb, hal, fun f hf => ⟨?_, fun hfree => ?_⟩, haddr, hpow⟩⟩
  · rw [haddr, hpow]
    simp only [frameAddr, pageSize, pageFrameNum] at hbound ⊢
    omega
  · -- the frames begin at a multiple of the largest block
    have hlow : 2 ^ (k + pageShift) ∣ lowMemory :=
      (Nat.pow_dvd_pow 2 (Nat.add_le_add_right hk pageShift)).trans (by decide)
    have hstart : 2 ^ (k + pageShift) ∣ p * pageSize := by
      rw [hpow]
      exact Nat.mul_dvd_mul_right hal pageSize
    rw [haddr, frameAddr]
    exact Nat.dvd_add hlow hstart
  · have hpos := Nat.two_pow_pos k
    rw [hpow, pageSize] at hsmall
    omega
  · exact Nat.lt_of_lt_of_le hf.2 hbound
  · exact (h.buddy.freeFrames_iff.mp hfree).2 _ hb hf

/-- What `kmalloc` returned is placed. -/
theorem MmInv.placed (h : MmInv s c) (hrun : kmalloc s.mm size = .ok (some addr, mm')) :
    Placed mm' addr (roundUp size) := by
  have he : mmSystem.exec s (.kmalloc size) = .ok ⟨mm', ⟨addr, size, kmallocOwner size⟩ :: s.live⟩ := by
    simp only [mmSystem, hrun, ok_bind, handOut]
  rcases kmalloc_cases h he with ⟨i, p, mm₂, c₂, a, hcls, heq, hsv⟩ | ⟨k, p, mm₂, c₂, hcls, hord, heq, _, _, hinv⟩ |
    ⟨_, heq⟩
  · simp only [MmState.mk.injEq, List.cons.injEq, Live.mk.injEq] at heq
    obtain ⟨rfl, ⟨rfl, _⟩, _⟩ := heq
    obtain ⟨h3, h11, _⟩ := kmallocClass_some hcls
    have hsize : (mm'.objAllocPool (i - minKmallocOrder)).objsize = (2 ^ i : Nat) := by
      obtain ⟨_, hs⟩ := h.classes (i - minKmallocOrder) (by unfold minKmallocOrder; omega)
      rw [hsv.touches.objsize, hs, Nat.sub_add_cancel (show minKmallocOrder ≤ i from h3)]
      exact (Int.natCast_pow 2 i).symm
    obtain ⟨q, j, hat⟩ := (hsv.inv size).objectAt (List.mem_cons_self ..) rfl hsize
    rw [kmallocClass_roundUp hcls]
    exact hat.placed ((hsv.inv size).buddy.addr q hat.frame) h11 hsize
  · simp only [MmState.mk.injEq, List.cons.injEq, Live.mk.injEq] at heq
    obtain ⟨rfl, ⟨rfl, _⟩, _⟩ := heq
    rw [kmallocOrder_roundUp hcls hord]
    exact hinv.placed_block (e := ⟨frameAddr p, size, .buddy k⟩) (List.mem_cons_self ..) rfl
  · have hlen := congrArg (fun s : MmState => s.live.length) heq
    simp at hlen

/-- What `obj_allocate` returned is an object of its allocator. -/
theorem MmInv.objAllocate_at (h : MmInv s c) (hrun : objAllocate s.mm token = .ok (some addr, mm')) :
    s.mm.Registered token.toNat ∧ ∃ n p j : Nat, (s.mm.objAllocPool token.toNat).objsize = n ∧ 8 ≤ n ∧ n ≤ 2048 ∧
      ObjectAt mm' token.toNat n p j addr := by
  by_cases hrange : token < 0 ∨ token ≥ maxObjAllocatorNum
  · simp [objAllocate, if_pos hrange] at hrun
  · obtain ⟨t, rfl⟩ : ∃ t : Nat, token = t := ⟨token.toNat, by omega⟩
    rw [Int.toNat_natCast]
    by_cases hreg : s.mm.Registered t
    · rcases objAllocate_spec h.slab hreg with ⟨herr, _⟩ | ⟨_, p, mm₂, c₂, a, hrun', hsv⟩
      · rw [herr] at hrun
        exact absurd hrun (by simp)
      · rw [hrun'] at hrun
        simp only [Except.ok.injEq, Prod.mk.injEq, Option.some.injEq] at hrun
        obtain ⟨rfl, rfl⟩ := hrun
        obtain ⟨n, h8, hmax, hn, _⟩ := (h.slab.token t hreg).size
        obtain ⟨q, j, hat⟩ := (hsv.inv 0).objectAt (List.mem_cons_self ..) rfl ((hsv.touches.objsize t).trans hn)
        exact ⟨hreg, n, q, j, hn, h8, hmax, hat⟩
    · rw [objAllocate_unregistered h.slab (by omega) hreg] at hrun
      exact absurd hrun (by simp)

/--
**Placement.** After any lawful run, what `kmalloc` returns for up to the
largest block is placed, as large as the size rounded up. And what
`obj_allocate` returns for a token is an object of the size the token was
registered with, clamped, on a page of that allocator.
-/
theorem kmalloc_placed (h : MmReachable s) :
    (∀ size addr mm', 1 ≤ size → size ≤ 2 ^ 21 → kmalloc s.mm size = .ok (some addr, mm') →
      Placed mm' addr (roundUp size)) ∧
    (∀ token addr mm', objAllocate s.mm token = .ok (some addr, mm') →
      ∃ n p j : Nat, (s.mm.objAllocPool token.toNat).objsize = n ∧ 8 ≤ n ∧ n ≤ 2048 ∧
        ObjectAt mm' token.toNat n p j addr) ∧
    ∀ objsize token mm₁, registerObjAllocator s.mm objsize = (token, mm₁) → 0 ≤ token →
      ∀ s', mmSystem.Reach ⟨mm₁, s.live⟩ s' → (s'.mm.objAllocPool token.toNat).objsize = clampSize objsize := by
  obtain ⟨c, hinv⟩ := mmInv_reachable h
  refine ⟨fun size addr mm' _ _ hrun => hinv.placed hrun, fun token addr mm' hrun => (hinv.objAllocate_at hrun).2,
    fun objsize token mm₁ hreg ht s' hr => ?_⟩
  obtain ⟨htok, hsize⟩ := registerObjAllocator_size hreg ht
  have hinv₁ : MmInv ⟨mm₁, s.live⟩ c := by
    have := registerObjAllocator_outcome hinv objsize
    rw [hreg] at this
    exact this
  exact (objsize_run hinv₁ hr htok).2.2.trans hsize

/-- A hundred bytes after other requests: 128 of them, on a new page. -/
theorem kmalloc_placed_third :
    ∃ s, MmReachable s ∧ ∃ mm', kmalloc s.mm 100 = .ok (some 0x201000, mm') ∧ Placed mm' 0x201000 128 := by
  have hrun : (mmRun mmSystem [.kmalloc 16, .kmalloc 5000, .kfree 0x200000]).map
      (fun s => (kmalloc s.mm 100).toOption.map Prod.fst) = some (some (some 0x201000)) := by decide +kernel
  obtain ⟨s, hs, hres⟩ := Option.map_eq_some_iff.mp hrun
  have hr := mmReach_of_run hs
  cases hk : kmalloc s.mm 100 with
  | error f => rw [hk] at hres; exact absurd hres (by simp [Except.toOption])
  | ok r =>
      obtain ⟨a, mm'⟩ := r
      rw [hk] at hres
      have ha : a = some 0x201000 := by simpa [Except.toOption] using hres
      subst ha
      have hround : roundUp 100 = 128 := kmallocClass_roundUp (i := 7) (by decide)
      refine ⟨s, hr, mm', hk, ?_⟩
      rw [← hround]
      exact (kmalloc_placed hr).1 100 _ mm' (by decide) (by decide) hk

end OsdiKernel
