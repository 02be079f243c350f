import OsdiKernel.Mm.MmSystem

/-!
# When live allocations are disjoint

`obj_allocate` hands out the object at the head of the page's free chain and
leaves the chain as it was, so the next request of that page gets the same
object. What keeps allocations apart is that the object at the head of the chain
is not live when it is handed out.

On a page whose chain is empty objects have been taken in order and none given
back, so every live one is below the cursor `obj_used`; that is `Sound.below`.
-/

namespace OsdiKernel

variable {s s' : MmState} {c : Link → List Nat} {e f : Live} {live : List Live} {t p : Nat}

/-- The byte `x` was handed out with `e`. -/
def Live.Holds (e : Live) (x : Nat) : Prop := e.addr ≤ x ∧ (x : Int) < e.addr + e.size

/-- What is handed out is disjoint, and disjoint from every frame of a free block. -/
structure Apart (s : MmState) : Prop where
  live : s.live.Pairwise (fun e f => ∀ x, e.Holds x → ¬ f.Holds x)
  free : ∀ e ∈ s.live, ∀ k, k ≤ maxOrder → ∀ p ∈ freeHeads s.mm k, ∀ q, p ≤ q → q < p + 2 ^ k →
    ∀ x, e.Holds x → ¬ (frameAddr q ≤ x ∧ x < frameAddr q + pageSize)

/-- The object `kmalloc(size)` would take off a free chain, if it would take one. -/
def chainHead (mm : Mm) (size : Int) : Option Nat :=
  match kmallocClass size with
  | none => none
  | some i =>
      match servingPage mm (i - minKmallocOrder) with
      | none => none
      | some p => (mm.bookkeep p).free

/-- That object is not live. -/
def ChainSound (s : MmState) (size : Int) : Prop := ∀ e ∈ s.live, chainHead s.mm size ≠ some e.addr

instance (s : MmState) (size : Int) : Decidable (ChainSound s size) :=
  inferInstanceAs (Decidable (∀ e ∈ s.live, chainHead s.mm size ≠ some e.addr))

/-- What a run of sound requests keeps. -/
structure Sound (s : MmState) : Prop where
  /-- No address is live twice. -/
  once : (s.live.map Live.addr).Nodup
  /-- Where no object was ever given back, the live ones are below the cursor. -/
  below : ∀ p t, (s.mm.bookkeep p).objAlloc = some t → (s.mm.bookkeep p).free = none →
    ∀ e ∈ onPage s.live p, ∃ j : Nat, (j : Int) < (s.mm.bookkeep p).objUsed ∧
      (e.addr : Int) = frameAddr p + j * (s.mm.objAllocPool t).objsize
  /-- Requests are for at least a byte. -/
  pos : ∀ e ∈ s.live, 1 ≤ e.size
  /-- An object is as large as was asked for. -/
  slabFits : ∀ e ∈ s.live, ∀ t, e.owner = .slab t → e.size ≤ (s.mm.objAllocPool t).objsize
  /-- So is a block. -/
  blockFits : ∀ e ∈ s.live, ∀ k, e.owner = .buddy k → e.size ≤ 2 ^ (k + pageShift)

/-! ## Soundness gives disjointness -/

/-- The held block an allocation lies in. -/
structure LiesIn (mm : Mm) (live : List Live) (e : Live) (b : Block) : Prop where
  held : b ∈ heldBlocks mm live
  start : b.start = phyAddrToPfn e.addr
  within : ∀ x, e.Holds x → ∃ q, b.Covers q ∧ frameAddr q ≤ x ∧ x < frameAddr q + pageSize

theorem frame_unique {q r x : Nat} (hq : frameAddr q ≤ x ∧ x < frameAddr q + pageSize)
    (hr : frameAddr r ≤ x ∧ x < frameAddr r + pageSize) : q = r := by
  simp only [frameAddr, pageSize] at hq hr
  omega

theorem exists_frame {x : Nat} (h : lowMemory ≤ x) :
    ∃ q, frameAddr q ≤ x ∧ x < frameAddr q + pageSize := by
  obtain ⟨d, rfl⟩ : ∃ d, x = lowMemory + d := ⟨x - lowMemory, (Nat.add_sub_cancel' h).symm⟩
  have h1 := Nat.div_mul_le_self d pageSize
  have h2 := Nat.lt_div_mul_add (a := d) (b := pageSize) (by decide)
  refine ⟨d / pageSize, ?_, ?_⟩ <;> (simp only [frameAddr]; omega)

/-- Every allocation lies in a held block, headed by the page its address is on. -/
theorem Sound.liesIn (h : Sound s) (hi : MmInv s c) (he : e ∈ s.live) :
    ∃ b, LiesIn s.mm s.live e b := by
  obtain ⟨hpN, hm⟩ := hi.slab.live_page he
  have hpg := hi.slab.page _ hpN
  cases ho : e.owner with
  | slab t =>
      have hown := (hi.slab.objAlloc_slab he).mpr ho
      have htok := hi.slab.token t (hi.slab.registered hown)
      obtain ⟨n, off, hsz, hoff, haddr⟩ := ((hpg.slab t hown).2 e hm).2.within htok
      have hfit := h.slabFits e he t ho
      refine ⟨⟨phyAddrToPfn e.addr, 0⟩, Or.inl ⟨rfl, by simp [hown]⟩, rfl, fun x hx => ?_⟩
      obtain ⟨h1, h2⟩ := hx
      refine ⟨phyAddrToPfn e.addr, Block.covers_start ⟨_, 0⟩, ?_, ?_⟩ <;> omega
  | buddy k =>
      obtain ⟨_, haddr⟩ := hi.slab.objAlloc_buddy he ho
      have hfit := h.blockFits e he k ho
      refine ⟨⟨phyAddrToPfn e.addr, k⟩, Or.inr ⟨e, he, ho, haddr⟩, rfl, fun x hx => ?_⟩
      obtain ⟨h1, h2⟩ := hx
      generalize hp : phyAddrToPfn e.addr = p at haddr
      have hlt : x < frameAddr p + 2 ^ (k + pageShift) := by
        have : (x : Int) < frameAddr p + (2 ^ (k + pageShift) : Nat) := by
          push_cast
          rw [haddr] at h2
          exact lt_of_lt_of_le h2 (by omega)
        exact_mod_cast this
      rw [haddr] at h1
      have hpow : 2 ^ (k + pageShift) = 2 ^ k * 4096 := Nat.pow_add 2 k 12
      obtain ⟨q, hq1, hq2⟩ := exists_frame (x := x) (by simp only [frameAddr] at h1; omega)
      refine ⟨q, ?_, hq1, hq2⟩
      simp only [frameAddr, pageSize] at h1 hlt hq1 hq2
      refine ⟨?_, ?_⟩ <;> (simp only; omega)

/-- Two objects of one page at different addresses do not overlap. -/
theorem Sound.apart_page (h : Sound s) (hi : MmInv s c) (he : e ∈ s.live) (hf : f ∈ s.live)
    (hne : e.addr ≠ f.addr) (hp : phyAddrToPfn e.addr = phyAddrToPfn f.addr) (x : Nat)
    (hx : e.Holds x) : ¬ f.Holds x := by
  obtain ⟨hpN, hme⟩ := hi.slab.live_page he
  have hmf : f ∈ onPage s.live (phyAddrToPfn e.addr) := mem_onPage.mpr ⟨hf, hp.symm⟩
  have hpg := hi.slab.page _ hpN
  cases ho : (s.mm.bookkeep (phyAddrToPfn e.addr)).objAlloc with
  | none =>
      -- two blocks cannot have the same head
      have hae := ((hpg.whole ho).2 e hme).2
      have haf := ((hpg.whole ho).2 f hmf).2
      exact absurd (hae.trans haf.symm) hne
  | some t =>
      obtain ⟨hoe, i, _, hai⟩ := (hpg.slab t ho).2 e hme
      obtain ⟨hof, j, _, haj⟩ := (hpg.slab t ho).2 f hmf
      have hfe := h.slabFits e he t hoe
      have hff := h.slabFits f hf t hof
      obtain ⟨n, hn8, _, hsz, _⟩ := (hi.slab.token t (hi.slab.registered ho)).size
      rw [hsz] at hfe hff hai haj
      intro hy
      obtain ⟨h1, h2⟩ := hx
      obtain ⟨h3, h4⟩ := hy
      rcases Nat.lt_trichotomy i j with hij | hij | hij
      · have hmul : (i + 1) * n ≤ j * n := Nat.mul_le_mul_right n hij
        have hmul' : (i : Int) * n + n ≤ j * n := by
          rw [Nat.succ_mul] at hmul
          exact_mod_cast hmul
        omega
      · rw [hij] at hai
        omega
      · have hmul : (j + 1) * n ≤ i * n := Nat.mul_le_mul_right n hij
        have hmul' : (j : Int) * n + n ≤ i * n := by
          rw [Nat.succ_mul] at hmul
          exact_mod_cast hmul
        omega

theorem Sound.apart (h : Sound s) (hi : MmInv s c) : Apart s where
  live := by
    refine (List.pairwise_map.mp h.once).imp_of_mem ?_
    intro e f he hf hne x hx hy
    by_cases hp : phyAddrToPfn e.addr = phyAddrToPfn f.addr
    · exact h.apart_page hi he hf hne hp x hx hy
    · obtain ⟨b, hb⟩ := h.liesIn hi he
      obtain ⟨d, hd⟩ := h.liesIn hi hf
      obtain ⟨q, hq, hqx⟩ := hb.within x hx
      obtain ⟨r, hr, hrx⟩ := hd.within x hy
      have hqr := frame_unique hqx hrx
      have hbd := hi.slab.buddy.tiling.unique b (Or.inr hb.held) d (Or.inr hd.held) q hq (hqr ▸ hr)
      exact hp (hb.start.symm.trans ((congrArg Block.start hbd).trans hd.start))
  free := by
    intro e he k hk p hp q hq1 hq2 x hx hqx
    obtain ⟨xs, hxs, hpx⟩ := hp
    have hun := hxs.unique (hi.slab.buddy.lists.rings.ring _ (BuddyInv.isHead_freelist hk))
    have hpc : p ∈ c (.freelist k) := PageLists.mem_frame.mp (hun ▸ PageLists.mem_frame.mpr hpx)
    have hfree : (⟨p, k⟩ : Block) ∈ frees c := (mem_frees hk).mpr hpc
    obtain ⟨b, hb⟩ := h.liesIn hi he
    obtain ⟨r, hr, hrx⟩ := hb.within x hx
    have hqr := frame_unique hqx hrx
    have hbd := hi.slab.buddy.tiling.unique ⟨p, k⟩ (Or.inl hfree) b (Or.inr hb.held) q ⟨hq1, hq2⟩
      (hqr ▸ hr)
    exact hi.slab.buddy.apart _ hfree (hbd ▸ hb.held)

/-! ## What `kmalloc` and `kfree` do to a run -/

/-- A `kmalloc` that returned: an object, a block, or a refusal. -/
theorem kmalloc_cases (hi : MmInv s c) {size : Int} (he : mmSystem.exec s (.kmalloc size) = .ok s') :
    (∃ i p mm' c' addr, kmallocClass size = some i ∧
      s' = ⟨mm', ⟨addr, size, .slab (i - minKmallocOrder)⟩ :: s.live⟩ ∧
      Served s.mm mm' c c' s.live (i - minKmallocOrder) p addr) ∨
    (∃ k p mm' c', kmallocClass size = none ∧ kmallocOrder size = some k ∧
      s' = ⟨mm', ⟨frameAddr p, size, .buddy k⟩ :: s.live⟩ ∧ s.mm.SameObj mm' ∧
      (s.mm.bookkeep p).objAlloc = none ∧ SlabInv mm' c' (⟨frameAddr p, size, .buddy k⟩ :: s.live)) ∨
    (kmallocClass size = none ∧ s' = s) := by
  cases hcls : kmallocClass size with
  | some i =>
      rcases objAllocate_spec hi.slab (hi.class_token hcls).1 with ⟨hrun, _⟩ |
        ⟨_, p, mm', c', addr, hrun, hsv⟩
      · simp [mmSystem, kmalloc, hcls, hrun] at he
      · simp only [mmSystem, kmalloc, hcls, hrun, ok_bind, kmallocOwner, handOut, Except.ok.injEq] at he
        exact Or.inl ⟨i, p, mm', c', addr, rfl, he.symm, hsv⟩
  | none =>
      cases hord : kmallocOrder size with
      | none =>
          simp only [mmSystem, kmalloc, hcls, hord, ok_bind, handOut, Except.ok.injEq] at he
          exact Or.inr (Or.inr ⟨rfl, he.symm⟩)
      | some k =>
          rcases buddyBlockAlloc_live hi.slab (kmallocOrder_some hord).1 with ⟨hrun, _⟩ |
            ⟨_, p, mm', c', hrun, hphy, hobj, hoa, hinv⟩
          · simp [mmSystem, kmalloc, hcls, hord, hrun] at he
          · simp only [mmSystem, kmalloc, hcls, hord, hrun, ok_bind, hphy, kmallocOwner, handOut,
              Option.getD_some, Except.ok.injEq] at he
            exact Or.inr (Or.inl ⟨k, p, mm', c', rfl, rfl, he.symm, hobj, hoa, hinv size⟩)

/-- One more allocation, at an address that is not live. -/
theorem Sound.grow (h : Sound s) {mm' : Mm} (hnew : ∀ f ∈ s.live, f.addr ≠ e.addr) (hpos : 1 ≤ e.size)
    (hsize : ∀ u, (mm'.objAllocPool u).objsize = (s.mm.objAllocPool u).objsize)
    (hslab : ∀ t, e.owner = .slab t → e.size ≤ (s.mm.objAllocPool t).objsize)
    (hblock : ∀ k, e.owner = .buddy k → e.size ≤ 2 ^ (k + pageShift))
    (hbelow : ∀ p t, (mm'.bookkeep p).objAlloc = some t → (mm'.bookkeep p).free = none →
      ∀ f ∈ onPage (e :: s.live) p, ∃ j : Nat, (j : Int) < (mm'.bookkeep p).objUsed ∧
        (f.addr : Int) = frameAddr p + j * (s.mm.objAllocPool t).objsize) :
    Sound ⟨mm', e :: s.live⟩ where
  once := by
    refine List.nodup_cons.mpr ⟨fun hm => ?_, h.once⟩
    obtain ⟨f, hf, ha⟩ := List.mem_map.mp hm
    exact hnew f hf ha
  below := by
    intro p t ho hf f hm
    simp only [hsize]
    exact hbelow p t ho hf f hm
  pos := by
    intro f hf
    rcases List.mem_cons.mp hf with hf | hf
    · rw [hf]; exact hpos
    · exact h.pos f hf
  slabFits := by
    intro f hf t ho
    rw [hsize]
    rcases List.mem_cons.mp hf with hf | hf
    · subst hf; exact hslab t ho
    · exact h.slabFits f hf t ho
  blockFits := by
    intro f hf k ho
    rcases List.mem_cons.mp hf with hf | hf
    · subst hf; exact hblock k ho
    · exact h.blockFits f hf k ho

/-- One allocation less, where the pages without a free chain are as they were. -/
theorem Sound.shrink (h : Sound s) {mm' : Mm} (hp : s.live.Perm (e :: live))
    (hsize : ∀ u, (mm'.objAllocPool u).objsize = (s.mm.objAllocPool u).objsize)
    (hpage : ∀ p t, (mm'.bookkeep p).objAlloc = some t → (mm'.bookkeep p).free = none →
      (s.mm.bookkeep p).objAlloc = some t ∧ (s.mm.bookkeep p).free = none ∧
        (mm'.bookkeep p).objUsed = (s.mm.bookkeep p).objUsed) : Sound ⟨mm', live⟩ := by
  have hmem : ∀ f ∈ live, f ∈ s.live := fun f hf => hp.mem_iff.mpr (List.mem_cons_of_mem _ hf)
  refine ⟨?_, ?_, fun f hf => h.pos f (hmem f hf), ?_, fun f hf => h.blockFits f (hmem f hf)⟩
  · have := (hp.map Live.addr).nodup_iff.mp h.once
    rw [List.map_cons] at this
    exact (List.nodup_cons.mp this).2
  · intro p t ho hf f hm
    obtain ⟨h1, h2, h3⟩ := hpage p t ho hf
    obtain ⟨hl, hpfn⟩ := mem_onPage.mp hm
    obtain ⟨j, hj, ha⟩ := h.below p t h1 h2 f (mem_onPage.mpr ⟨hmem f hl, hpfn⟩)
    exact ⟨j, by simp only [h3]; exact hj, by simp only [hsize]; exact ha⟩
  · intro f hf t ho
    simp only [hsize]
    exact h.slabFits f (hmem f hf) t ho

theorem Touches.objsize {mm mm' : Mm} {c c' : Link → List Nat} (h : Touches mm mm' c c' t p) (u : Nat) :
    (mm'.objAllocPool u).objsize = (mm.objAllocPool u).objsize := by
  by_cases hu : u = t
  · subst hu; exact h.size.1
  · rw [h.pool u hu]

/-- The page it is on has one object more in use. -/
theorem Served.objUsed {mm mm' : Mm} {live : List Live} {addr : Nat} (h : Served mm mm' c c' live t p addr) :
    (mm'.bookkeep p).objUsed = (onPage live p).length + 1 := by
  have hinv' := h.inv 1
  have hcount := ((hinv'.page p (hinv'.lt_of_owned h.owned)).slab t h.owned).1
  rw [onPage_cons_self (e := ⟨addr, 1, .slab t⟩) h.pfn, List.length_cons] at hcount
  rw [hcount]
  push_cast
  rfl

/-- Where the chain is empty, the object is the next one up: above those that are live on its page. -/
theorem Sound.served_next (h : Sound s) (hi : MmInv s c) {mm' : Mm} {c' : Link → List Nat} {addr : Nat}
    (hsv : Served s.mm mm' c c' s.live t p addr) (hempty : (mm'.bookkeep p).free = none) :
    (addr : Int) = frameAddr p + ((mm'.bookkeep p).objUsed - 1) * (s.mm.objAllocPool t).objsize ∧
      ∀ f ∈ onPage s.live p, ∃ j : Nat, (j : Int) < (mm'.bookkeep p).objUsed - 1 ∧
        (f.addr : Int) = frameAddr p + j * (s.mm.objAllocPool t).objsize := by
  have hcount := hsv.objUsed
  rcases hsv.source with ⟨_, ha, hown, hfree, hu⟩ | ⟨_, ha, _, _, hu⟩
  · rw [hfree] at hempty
    have hphy := hi.slab.buddy.addr p (hi.slab.lt_of_owned hown)
    obtain ⟨n, _, _, hn, _⟩ := (hi.slab.token t (hi.slab.registered hown)).size
    have hlen := ((hi.slab.page p (hi.slab.lt_of_owned hown)).slab t hown).1
    refine ⟨?_, fun f hm => ?_⟩
    · rw [ha, hu]
      simp only [nextObject, hempty, hphy, hlen, hn, frameAddr]
      rw [Int.toNat_of_nonneg (by exact_mod_cast Nat.zero_le _)]
      simp
    · obtain ⟨j, hj, haj⟩ := h.below p t hown hempty f hm
      exact ⟨j, by omega, haj⟩
  · -- on a page that was just taken nothing is live
    rw [hu] at hcount
    have hnil : onPage s.live p = [] := List.length_eq_zero_iff.mp (by omega)
    refine ⟨by rw [ha, hu]; simp, fun f hm => ?_⟩
    rw [hnil] at hm
    exact absurd hm (by simp)

/-- The object taken is at no live address. -/
theorem Sound.served_fresh (h : Sound s) (hi : MmInv s c) {mm' : Mm} {c' : Link → List Nat} {addr : Nat}
    (hsv : Served s.mm mm' c c' s.live t p addr)
    (hch : servingPage s.mm t = some p → ∀ a, (s.mm.bookkeep p).free = some a → ∀ e ∈ s.live, e.addr ≠ a) :
    ∀ f ∈ s.live, f.addr ≠ addr := by
  intro f hf
  by_cases hm : f ∈ onPage s.live p
  · cases hfree : (mm'.bookkeep p).free with
    | none =>
        obtain ⟨ha, hall⟩ := h.served_next hi hsv hfree
        obtain ⟨j, hj, haj⟩ := hall f hm
        have hinv' := hsv.inv 1
        obtain ⟨n, hn8, _, hn, _⟩ := (hinv'.token t (hinv'.registered hsv.owned)).size
        rw [hsv.touches.objsize t] at hn
        rw [hn] at ha haj
        intro he
        rw [← he, haj] at ha
        have hmul : (j : Int) * n = ((mm'.bookkeep p).objUsed - 1) * n := by omega
        have := Int.eq_of_mul_eq_mul_right (by omega) hmul
        omega
    | some a =>
        rcases hsv.source with ⟨hs, ha, _, hfr, _⟩ | ⟨_, _, _, hfr, _⟩
        · rw [hfr] at hfree
          have : addr = a := by rw [ha]; simp only [nextObject, hfree]
          rw [this]
          exact hch hs a hfree f hf
        · rw [hfr] at hfree
          exact absurd hfree (by simp)
  · -- allocations on other pages have other addresses
    exact fun ha => hm (mem_onPage.mpr ⟨hf, by rw [ha]; exact hsv.pfn⟩)

/-- **A served request is sound** if the object it takes is not live. -/
theorem Sound.served (h : Sound s) (hi : MmInv s c) {mm' : Mm} {c' : Link → List Nat} {addr : Nat}
    {size : Int} (hsv : Served s.mm mm' c c' s.live t p addr) (hpos : 1 ≤ size)
    (hfit : size ≤ (s.mm.objAllocPool t).objsize)
    (hch : servingPage s.mm t = some p → ∀ a, (s.mm.bookkeep p).free = some a →
      ∀ e ∈ s.live, e.addr ≠ a) :
    Sound ⟨mm', ⟨addr, size, .slab t⟩ :: s.live⟩ := by
  have hcount := hsv.objUsed
  refine h.grow (h.served_fresh hi hsv hch) hpos hsv.touches.objsize ?_ (fun k hk => absurd hk (by simp)) ?_
  · intro u hu
    rw [← Owner.slab.inj hu]
    exact hfit
  · intro q u ho hf f hm
    by_cases hq : q = p
    · subst hq
      have hut : t = u := Option.some.inj (hsv.owned.symm.trans ho)
      subst hut
      obtain ⟨ha, hall⟩ := h.served_next hi hsv hf
      rw [onPage_cons_self (e := ⟨addr, size, .slab t⟩) hsv.pfn] at hm
      rcases List.mem_cons.mp hm with hm | hm
      · subst hm
        refine ⟨(onPage s.live q).length, ?_, ?_⟩
        · rw [hcount]; omega
        · rw [hcount] at ha
          rw [ha]
          simp
      · obtain ⟨j, hj, haj⟩ := hall f hm
        exact ⟨j, by omega, haj⟩
    · obtain ⟨h1, h2, h3⟩ := hsv.touches.page q hq
      rw [onPage_cons_ne (e := ⟨addr, size, .slab t⟩) (by rw [hsv.pfn]; exact fun he => hq he.symm)] at hm
      rw [h1]
      exact h.below q u (h2 ▸ ho) (h3 ▸ hf) f hm

/-- Any `kmalloc` whose chain is sound. -/
theorem Sound.kmalloc (h : Sound s) (hi : MmInv s c) {size : Int} (hpos : 1 ≤ size)
    (hch : ChainSound s size) (he : mmSystem.exec s (.kmalloc size) = .ok s') : Sound s' := by
  rcases kmalloc_cases hi he with ⟨i, p, mm', c', addr, hcls, rfl, hsv⟩ |
    ⟨k, p, mm', c', _, hord, rfl, hobj, hoa, hinv'⟩ | ⟨_, rfl⟩
  · refine h.served hi hsv hpos (hi.class_token hcls).2 (fun hs a hf e he hea => hch e he ?_)
    simp only [chainHead, hcls, hs, hf, hea]
  · have hpN : p < pageFrameNum := by
      by_contra hn
      have hm := (hinv'.live_page (e := ⟨frameAddr p, size, .buddy k⟩) (by simp)).1
      have ha := (hinv'.objAlloc_buddy (e := ⟨frameAddr p, size, .buddy k⟩) (by simp) rfl).2
      exact hn (frameAddr_injective ha ▸ hm)
    have hpfn := phyAddrToPfn_frame hpN
    have hoa' : (mm'.bookkeep p).objAlloc = none := by rw [hobj.objAlloc]; exact hoa
    have hone := ((hinv'.page p hpN).whole hoa').1
    rw [onPage_cons_self (e := ⟨frameAddr p, size, .buddy k⟩) hpfn, List.length_cons] at hone
    have hnil : onPage s.live p = [] := List.length_eq_zero_iff.mp (by omega)
    refine h.grow ?_ hpos (fun u => by rw [hobj.pool]) (fun t ht => absurd ht (by simp)) ?_ ?_
    · intro f hf ha
      have hm : f ∈ onPage s.live p := mem_onPage.mpr ⟨hf, by rw [ha]; exact hpfn⟩
      rw [hnil] at hm
      exact absurd hm (by simp)
    · intro j hj
      rw [← Owner.buddy.inj hj]
      exact (kmallocOrder_some hord).2
    · intro q u ho hf f hm
      have hqp : q ≠ p := by
        intro hq
        rw [hq, hoa'] at ho
        exact absurd ho (by simp)
      rw [onPage_cons_ne (e := ⟨frameAddr p, size, .buddy k⟩)
        (by simp only [hpfn]; exact fun he => hqp he.symm)] at hm
      rw [hobj.objUsed]
      exact h.below q u (hobj.objAlloc q ▸ ho) (hobj.free q ▸ hf) f hm
  · exact h

/-- Any `kfree` of a live address. -/
theorem Sound.kfree (h : Sound s) (hi : MmInv s c) {addr : Nat} (hl : ∃ e ∈ s.live, e.addr = addr)
    (he : mmSystem.exec s (.kfree addr) = .ok s') : Sound s' := by
  obtain ⟨e, hm, rfl, hperm⟩ := giveUp_perm hl
  have hinv := hi.slab.perm hperm
  cases ho : e.owner with
  | slab t =>
      have hown := (hi.slab.objAlloc_slab hm).mpr ho
      obtain ⟨mm', c', hrun, hfr⟩ := objFree_spec ⟨hinv, rfl, hown⟩
      simp only [mmSystem, OsdiKernel.kfree, hown, hrun, ok_bind, Except.ok.injEq] at he
      subst he
      refine h.shrink hperm hfr.touches.objsize (fun q u hoq hfq => ?_)
      by_cases hq : q = phyAddrToPfn e.addr
      · -- the page with the new chain has a chain, if it is owned at all
        rcases hfr.source with ⟨_, hf⟩ | hn
        · rw [hq, hf] at hfq
          exact absurd hfq (by simp)
        · rw [hq, hn] at hoq
          exact absurd hoq (by simp)
      · obtain ⟨h1, h2, h3⟩ := hfr.touches.page q hq
        exact ⟨h2 ▸ hoq, h3 ▸ hfq, h1⟩
  | buddy k =>
      obtain ⟨mm', c', hrun, _, hobj⟩ := kfree_block hinv ho
      simp only [mmSystem, hrun, ok_bind, Except.ok.injEq] at he
      subst he
      exact h.shrink hperm (fun u => by rw [hobj.pool])
        (fun q u hoq hfq => ⟨hobj.objAlloc q ▸ hoq, hobj.free q ▸ hfq, hobj.objUsed q⟩)

/-! ## Runs of `kmalloc` and `kfree` -/

/-- At least a byte is asked for, and only live addresses are freed. -/
def kmallocSystem : System MmState MmOp Fault where
  legal := fun s op =>
    match op with
    | .kmalloc size => 1 ≤ size
    | .kfree addr => ∃ e ∈ s.live, e.addr = addr
    | _ => False
  exec := mmSystem.exec

/-- And the chain is sound whenever an object is asked for. -/
def soundSystem : System MmState MmOp Fault where
  legal := fun s op =>
    match op with
    | .kmalloc size => 1 ≤ size ∧ ChainSound s size
    | .kfree addr => ∃ e ∈ s.live, e.addr = addr
    | _ => False
  exec := mmSystem.exec

instance : ∀ s op, Decidable (kmallocSystem.legal s op)
  | _, .kmalloc size => inferInstanceAs (Decidable (1 ≤ size))
  | s, .kfree addr => inferInstanceAs (Decidable (∃ e ∈ s.live, e.addr = addr))
  | _, .registerObjAllocator _ => inferInstanceAs (Decidable False)
  | _, .objAllocate _ => inferInstanceAs (Decidable False)
  | _, .objFree _ => inferInstanceAs (Decidable False)

instance : ∀ s op, Decidable (soundSystem.legal s op)
  | s, .kmalloc size => inferInstanceAs (Decidable (1 ≤ size ∧ ChainSound s size))
  | s, .kfree addr => inferInstanceAs (Decidable (∃ e ∈ s.live, e.addr = addr))
  | _, .registerObjAllocator _ => inferInstanceAs (Decidable False)
  | _, .objAllocate _ => inferInstanceAs (Decidable False)
  | _, .objFree _ => inferInstanceAs (Decidable False)

/-- **Kept by every sound request.** -/
theorem sound_step {op : MmOp} (h : Sound s) (hi : MmInv s c) (hl : soundSystem.legal s op)
    (he : soundSystem.exec s op = .ok s') : Sound s' ∧ ∃ c', MmInv s' c' := by
  cases op with
  | kmalloc size => exact ⟨h.kmalloc hi hl.1 hl.2 he, mmInv_exec hi (.kmalloc size) trivial he⟩
  | kfree addr => exact ⟨h.kfree hi hl he, mmInv_exec hi (.kfree addr) hl he⟩
  | registerObjAllocator objsize => exact hl.elim
  | objAllocate token => exact hl.elim
  | objFree addr => exact hl.elim

theorem sound_reachable (h : MmReach soundSystem s) : Sound s ∧ ∃ c, MmInv s c := by
  obtain ⟨mm₀, h₀, hr⟩ := h
  refine hr.inv_ok (P := fun s => Sound s ∧ ∃ c, MmInv s c) ⟨?_, mmInv_init h₀⟩ ?_
  · exact ⟨List.nodup_nil, fun p t _ _ e he => absurd he (by simp [onPage]), by simp, by simp, by simp⟩
  · intro s op s' hs hl he
    obtain ⟨hs, c, hi⟩ := hs
    exact sound_step hs hi hl he

/-- An object handed out a second time overlaps itself. -/
theorem not_apart_of_unsound (h : Sound s) (hi : MmInv s c) {size : Int} (hpos : 1 ≤ size)
    (he : mmSystem.exec s (.kmalloc size) = .ok s') (hch : ¬ ChainSound s size) : ¬ Apart s' := by
  intro ha
  simp only [ChainSound, not_forall, not_not] at hch
  obtain ⟨e, hm, hhead⟩ := hch
  rcases kmalloc_cases hi he with ⟨i, p, mm', c', addr, hcls, rfl, hsv⟩ |
    ⟨k, p, mm', c', hcls, _⟩ | ⟨hcls, _⟩
  · rcases hsv.source with ⟨hs, haddr, _⟩ | ⟨hs, _⟩
    · simp only [chainHead, hcls, hs] at hhead
      have hea : addr = e.addr := by rw [haddr]; simp only [nextObject, hhead]
      have hsz := h.pos e hm
      refine (List.pairwise_cons.mp ha.live).1 e hm addr ⟨Nat.le_refl _, ?_⟩ ⟨?_, ?_⟩
      · simp only
        omega
      · rw [hea]
      · rw [hea]
        omega
    · simp only [chainHead, hcls, hs] at hhead
      exact absurd hhead (by simp)
  · simp only [chainHead, hcls] at hhead
    exact absurd hhead (by simp)
  · simp only [chainHead, hcls] at hhead
    exact absurd hhead (by simp)

/--
**When allocations are disjoint.** In every run in which no request takes a live
object off a free chain, what is live is disjoint, and disjoint from the free
blocks. A request that does take one ends that.
-/
theorem kmalloc_apart_iff (h : MmReach soundSystem s) :
    Apart s ∧ ∀ size s', 1 ≤ size → kmallocSystem.exec s (.kmalloc size) = .ok s' →
      (Apart s' ↔ ChainSound s size) := by
  obtain ⟨hs, c, hi⟩ := sound_reachable h
  refine ⟨hs.apart hi, fun size s' hpos he => ⟨fun ha => ?_, fun hch => ?_⟩⟩
  · by_contra hch
    exact not_apart_of_unsound hs hi hpos he hch ha
  · obtain ⟨c', hi'⟩ := mmInv_exec hi (.kmalloc size) trivial he
    exact (hs.kmalloc hi hpos hch he).apart hi'

/-- Allocate, free, allocate: fine so far, and the next allocation is not. -/
theorem kmalloc_apart_twice :
    ∃ s, MmReach soundSystem s ∧ s.live.map Live.addr = [0x200000] ∧ Apart s ∧
      ∃ s', kmallocSystem.exec s (.kmalloc 16) = .ok s' ∧ ¬ Apart s' := by
  have hrun : (mmRun soundSystem [.kmalloc 16, .kfree 0x200000, .kmalloc 16]).map
      (fun s => (s.live.map Live.addr, decide (ChainSound s 16),
        (mmSystem.exec s (.kmalloc 16)).toOption.isSome)) = some ([0x200000], false, true) := by
    decide +kernel
  obtain ⟨s, hs, hlive⟩ := Option.map_eq_some_iff.mp hrun
  simp only [Prod.mk.injEq] at hlive
  obtain ⟨hlive, hch, hret⟩ := hlive
  have hr := mmReach_of_run hs
  cases he : mmSystem.exec s (.kmalloc 16) with
  | error f => rw [he] at hret; exact absurd hret (by simp [Except.toOption])
  | ok s' =>
      refine ⟨s, hr, hlive, (kmalloc_apart_iff hr).1, s', he, fun ha => ?_⟩
      have := ((kmalloc_apart_iff hr).2 16 s' (by decide) he).mp ha
      simp [this] at hch

/-- Two live objects at one address, after four lawful requests. -/
theorem kmalloc_not_apart : ¬ ∀ s, MmReach kmallocSystem s → Apart s := by
  intro hall
  have hrun : (mmRun kmallocSystem [.kmalloc 16, .kfree 0x200000, .kmalloc 16, .kmalloc 16]).map
      MmState.live = some [⟨0x200000, 16, .slab 1⟩, ⟨0x200000, 16, .slab 1⟩] := by decide +kernel
  obtain ⟨s, hs, hlive⟩ := Option.map_eq_some_iff.mp hrun
  have ha := (hall s (mmReach_of_run hs)).live
  rw [hlive, List.pairwise_pair] at ha
  exact ha 0x200000 ⟨Nat.le_refl _, by decide⟩ ⟨Nat.le_refl _, by decide⟩

end OsdiKernel
