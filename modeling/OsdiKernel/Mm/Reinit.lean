import Mathlib.Logic.Relation
import OsdiKernel.Mm.FreeFrames

/-!
# `mm_init` a second time

The shell's `ma` runs `mm_init` on memory that is in use. All frames become free
again; `nr_free` is counted on from where it was, and the allocators keep their
pages and the pages their allocators.

So the result is sound where there was nothing of this to keep: no block on a
free list and no page with an allocator. Memory is then in the state
`clear_bss` leaves it in, as far as `mm_init` can tell, but for the allocators
that are registered already.
-/

namespace OsdiKernel

/-- A traversal of the list meets the page. -/
def OnChain (mm : Mm) (x : Link) (p : Nat) : Prop :=
  Relation.TransGen (fun a b => mm.links.next a = some b) x (.frame p)

/-- The page is the current page of an allocator, or on one of its lists. -/
def OwnedBy (mm : Mm) (t p : Nat) : Prop :=
  (mm.objAllocPool t).currPage = some p ∨ OnChain mm (.fullList t) p ∨ OnChain mm (.partialList t) p ∨
    OnChain mm (.emptyList t) p

/-- `kmalloc` or `kfree` -/
def MmOp.isHeap : MmOp → Bool
  | .kmalloc _ | .kfree _ => true
  | _ => false

/-- Any size may be asked for, and what is outstanding may be freed. -/
def heapSystem : System MmState MmOp Fault := mmSystem.restrict (fun _ op => op.isHeap = true)

instance (s : MmState) (op : MmOp) : Decidable (heapSystem.legal s op) :=
  inferInstanceAs (Decidable (mmSystem.legal s op ∧ op.isHeap = true))

theorem heapSystem_legal {s : MmState} {op : MmOp} (hl : heapSystem.legal s op) : mmSystem.legal s op := hl.1

/-- What `mm_init` is to leave. -/
structure SoundlyReset (mm : Mm) : Prop where
  /-- `nr_free` is the length of the list. -/
  count : ∀ k, k ≤ maxOrder → ∃ xs : List Nat, IsRing mm.links (.freelist k) (xs.map .frame) ∧
    mm.nrFree k = xs.length
  /-- No frame of a free block is an allocator's. -/
  unowned : ∀ f ∈ freeFrames mm, ∀ t, t < maxObjAllocatorNum → ¬ OwnedBy mm t f
  /-- None names an allocator. -/
  unnamed : ∀ f ∈ freeFrames mm, (mm.bookkeep f).objAlloc = none
  /-- None is handed out later on. -/
  later : ∀ s, heapSystem.Reach ⟨mm, []⟩ s → ∀ size addr mm', kmalloc s.mm size = .ok (some addr, mm') →
    phyAddrToPfn addr ∉ freeFrames mm'

/-- No block is free, and no page is an allocator's. -/
def Mm.Spent (mm : Mm) : Prop :=
  (∀ k, k < maxOrder + 1 → mm.nrFree k = 0) ∧ ∀ p, p < pageFrameNum → (mm.bookkeep p).objAlloc = none

variable {mm mm' mm'' : Mm} {c : Link → List Nat} {s : MmState} {live : List Live} {x : Link} {t p k : Nat}

/-! ## What is always left -/

/-- Registration leaves the free lists and the pages alone. -/
structure SameFree (mm mm' : Mm) : Prop where
  nrFree : mm'.nrFree = mm.nrFree
  bookkeep : mm'.bookkeep = mm.bookkeep
  frame : ∀ p, mm'.links.next (.frame p) = mm.links.next (.frame p) ∧
    mm'.links.prev (.frame p) = mm.links.prev (.frame p)
  freelist : ∀ k, mm'.links.next (.freelist k) = mm.links.next (.freelist k) ∧
    mm'.links.prev (.freelist k) = mm.links.prev (.freelist k)

theorem SameFree.ring (h : SameFree mm mm') {xs : List Nat} (hr : IsRing mm.links (.freelist k) (xs.map .frame)) :
    IsRing mm'.links (.freelist k) (xs.map .frame) := by
  refine hr.congr (fun y hy => ?_)
  rcases List.mem_cons.mp hy with rfl | hy
  · exact h.freelist k
  · obtain ⟨p, _, rfl⟩ := List.mem_map.mp hy
    exact h.frame p

theorem registerObjAllocator_sameFree (mm : Mm) (objsize : Int) :
    SameFree mm (registerObjAllocator mm objsize).2 := by
  cases hfind : (List.range maxObjAllocatorNum).find? (fun token => (mm.objAllocPool token).objsize = 0) with
  | none =>
      simp only [registerObjAllocator, hfind]
      exact ⟨rfl, rfl, fun _ => ⟨rfl, rfl⟩, fun _ => ⟨rfl, rfl⟩⟩
  | some token =>
      simp only [registerObjAllocator, hfind]
      exact ⟨rfl, rfl, fun _ => ⟨rfl, rfl⟩, fun _ => ⟨rfl, rfl⟩⟩

/-- What holds of the memory manager and is kept by registering anything holds after `__init_kmalloc`. -/
theorem initKmalloc_inv {P : Mm → Prop} (hstep : ∀ mm objsize, P mm → P (registerObjAllocator mm objsize).2)
    (h : P mm) : P (initKmalloc mm) := by
  unfold initKmalloc
  generalize List.range' minKmallocOrder (maxKmallocOrder + 1 - minKmallocOrder) = orders
  induction orders generalizing mm with
  | nil => exact h
  | cons i is ih =>
      rw [List.foldl_cons]
      exact ih (hstep mm _ h)

/-- The free lists after `mm_init`, whatever was there before. -/
structure Emptied (mm mm' : Mm) : Prop where
  top : IsRing mm'.links (.freelist maxOrder) (initialHeads.map .frame)
  low : ∀ k, k < maxOrder → IsRing mm'.links (.freelist k) []
  topCount : mm'.nrFree maxOrder = mm.nrFree maxOrder + 8
  lowCount : ∀ k, k < maxOrder → mm'.nrFree k = mm.nrFree k
  objAlloc : ∀ q, (mm'.bookkeep q).objAlloc = (mm.bookkeep q).objAlloc

theorem Emptied.sameFree (h : Emptied mm mm') (hs : SameFree mm' mm'') : Emptied mm mm'' where
  top := hs.ring h.top
  low := by
    intro k hk
    have hr : IsRing mm'.links (.freelist k) (([] : List Nat).map .frame) := h.low k hk
    exact hs.ring hr
  topCount := by rw [hs.nrFree]; exact h.topCount
  lowCount := by rw [hs.nrFree]; exact h.lowCount
  objAlloc := by rw [hs.bookkeep]; exact h.objAlloc

theorem pushBlockToFreeArea_run {l : Links Link} (n : Int) (hl : listAddTail mm.links (.frame p) (.freelist k) = .ok l) :
    ∃ mm', pushBlockToFreeArea mm p k n = .ok mm' ∧ mm'.links = l ∧
      mm'.nrFree = Function.update mm.nrFree k (mm.nrFree k + 1) ∧
      ∀ q, (mm'.bookkeep q).objAlloc = (mm.bookkeep q).objAlloc := by
  refine ⟨_, by rw [pushBlockToFreeArea, Mm.onLinks, hl, ok_bind, ok_bind], rfl, rfl, fun q => ?_⟩
  by_cases hq : q = p
  · subst hq
    simp
  · simp only [Mm.updatePage_ne _ _ _ _ hq]

/-- **`free_area_init`** never faults: it writes the heads before it follows them. -/
theorem freeAreaInit_emptied (mm : Mm) : ∃ mm', freeAreaInit (pageInit mm) = .ok mm' ∧ Emptied mm mm' := by
  let hd : Link → Prop := fun x => ∃ k, k < maxOrder + 1 ∧ x = .freelist k
  let P : List Nat → Mm → Prop := fun xs mm' => ∃ ys, initialHeads = ys ++ xs ∧
    Rings mm'.links hd (Function.update (fun _ => []) (.freelist maxOrder) (ys.map .frame)) ∧
    mm'.nrFree = Function.update mm.nrFree maxOrder (mm.nrFree maxOrder + ys.length) ∧
    ∀ q, (mm'.bookkeep q).objAlloc = (mm.bookkeep q).objAlloc
  have hstep : ∀ x xs mm', P (x :: xs) mm' →
      ∃ mm'', pushBlockToFreeArea mm' x maxOrder maxOrder = .ok mm'' ∧ P xs mm'' := by
    intro x xs mm' hP
    obtain ⟨ys, hys, hrings, hnr, hoa⟩ := hP
    have hnd : (ys ++ x :: xs).Nodup := hys ▸ (by decide)
    have hx : x ∉ ys := fun hm => (List.nodup_append.mp hnd).2.2 x hm x (List.mem_cons_self ..) rfl
    have hloose : Loose hd (Function.update (fun _ => []) (.freelist maxOrder) (ys.map .frame)) (.frame x) := by
      refine ⟨fun hh => ?_, fun h hh hm => ?_⟩
      · obtain ⟨k, _, he⟩ := hh
        exact Link.noConfusion he
      · by_cases hh' : h = .freelist maxOrder
        · subst hh'
          rw [Function.update_self] at hm
          exact hx (PageLists.mem_frame.mp hm)
        · rw [Function.update_of_ne hh'] at hm
          exact absurd hm (by simp)
    obtain ⟨l, hl, hrings', _⟩ := listAddTail_spec hrings ⟨maxOrder, Nat.lt_succ_self _, rfl⟩ hloose
    obtain ⟨mm'', hrun, hlinks, hnr', hoa'⟩ := pushBlockToFreeArea_run (maxOrder : Int) hl
    refine ⟨mm'', hrun, ys ++ [x], ?_, ?_, ?_, fun q => (hoa' q).trans (hoa q)⟩
    · rw [hys, List.append_assoc]
      rfl
    · rw [Function.update_self, Function.update_idem] at hrings'
      rw [hlinks, List.map_append]
      exact hrings'
    · rw [hnr', hnr, Function.update_self, Function.update_idem, List.length_append, List.length_singleton,
        Nat.cast_add, Nat.cast_one, add_assoc]
  have hP₀ : P initialHeads { pageInit mm with links := initFreelists mm.links (maxOrder + 1) } := by
    refine ⟨[], rfl, ?_, ?_, (pageInit_sameObj mm _).objAlloc⟩
    · rw [List.map_nil, Function.update_eq_self_iff.mpr rfl]
      exact initFreelists_rings mm.links (maxOrder + 1)
    · rw [List.length_nil, Nat.cast_zero, add_zero, Function.update_eq_self]
      rfl
  obtain ⟨mm', hrun, ys, hys, hrings, hnr, hoa⟩ := foldlM_inv hstep initialHeads _ hP₀
  rw [List.append_nil] at hys
  subst hys
  refine ⟨mm', hrun, ?_, fun k hk => ?_, ?_, fun k hk => ?_, hoa⟩
  · have := hrings.ring (.freelist maxOrder) ⟨maxOrder, Nat.lt_succ_self _, rfl⟩
    rwa [Function.update_self] at this
  · have hne : Link.freelist k ≠ .freelist maxOrder := fun he => Nat.ne_of_lt hk (Link.freelist.inj he)
    have := hrings.ring (.freelist k) ⟨k, Nat.lt_succ_of_lt hk, rfl⟩
    rwa [Function.update_of_ne hne] at this
  · rw [hnr, Function.update_self]
    rfl
  · rw [hnr, Function.update_of_ne (Nat.ne_of_lt hk)]

theorem mmInit_emptied (mm : Mm) : ∃ mm', mmInit mm = .ok mm' ∧ Emptied mm mm' := by
  obtain ⟨mm₁, hrun, h₁⟩ := freeAreaInit_emptied mm
  refine ⟨initKmalloc mm₁, by rw [mmInit, hrun, ok_bind], ?_⟩
  exact initKmalloc_inv (fun m n hm => hm.sameFree (registerObjAllocator_sameFree m n)) h₁

/-- All frames are then free. -/
theorem Emptied.free (h : Emptied mm mm') (hp : p < pageFrameNum) : p ∈ freeFrames mm' := by
  obtain ⟨b, hb, hbp⟩ := tiling_topBlocks.cover p hp
  refine ⟨maxOrder, Nat.le_refl _, b.start, ⟨initialHeads, h.top, hb.2⟩, ?_⟩
  rw [← hb.1]
  exact hbp

/-! ## The condition is needed -/

/-- What was on a free list before is counted again, and a page keeps the allocator it had. -/
theorem spent_of_sound (hrun : mmInit mm = .ok mm') (h : SoundlyReset mm') : mm.Spent := by
  obtain ⟨mm₁, hrun₁, he⟩ := mmInit_emptied mm
  obtain rfl : mm' = mm₁ := Except.ok.inj (hrun.symm.trans hrun₁)
  refine ⟨fun k hk => ?_, fun p hp => ?_⟩
  · obtain ⟨xs, hxs, hnr⟩ := h.count k (Nat.le_of_lt_succ hk)
    rcases Nat.lt_or_eq_of_le (Nat.le_of_lt_succ hk) with hlt | rfl
    · have hnil : xs.map Link.frame = [] := hxs.unique (he.low k hlt)
      rw [List.map_eq_nil_iff.mp hnil, he.lowCount k hlt] at hnr
      exact hnr
    · have htop : xs.length = 8 := by
        have hlen := congrArg List.length (hxs.unique he.top)
        rw [List.length_map, List.length_map] at hlen
        exact hlen.trans (by decide)
      rw [htop, he.topCount] at hnr
      omega
  · rw [← he.objAlloc]
    exact h.unnamed p (he.free hp)

/-! ## The condition is enough -/

/-- Without pages, an allocator's lists are empty. -/
theorem MmInv.no_pages (h : MmInv s c) (hn : ∀ p, (s.mm.bookkeep p).objAlloc = none) (hx : s.mm.IsHead x)
    (hf : ∀ k, x ≠ .freelist k) : c x = [] := by
  have htok : ∀ t, s.mm.Registered t → tokenPages s.mm c t = [] := by
    intro t ht
    refine List.eq_nil_iff_forall_not_mem.mpr (fun p hp => ?_)
    have := ((h.slab.token t ht).owned p).mp hp
    rw [hn p] at this
    exact absurd this (by simp)
  have hlists : ∀ t, s.mm.Registered t → c (.fullList t) = [] ∧ c (.partialList t) = [] ∧ c (.emptyList t) = [] := by
    intro t ht
    have hall := List.append_eq_nil_iff.mp (htok t ht)
    obtain ⟨h1, h2⟩ := List.append_eq_nil_iff.mp hall.2
    exact ⟨h1, List.append_eq_nil_iff.mp h2⟩
  cases x with
  | frame q => exact absurd hx id
  | freelist k => exact absurd rfl (hf k)
  | fullList t => exact (hlists t hx).1
  | partialList t => exact (hlists t hx).2.1
  | emptyList t => exact (hlists t hx).2.2

theorem MmInv.no_currPage (h : MmInv s c) (hn : ∀ p, (s.mm.bookkeep p).objAlloc = none) (t : Nat) :
    (s.mm.objAllocPool t).currPage = none := by
  by_cases ht : s.mm.Registered t
  · cases hc : (s.mm.objAllocPool t).currPage with
    | none => rfl
    | some p =>
        have hown := ((h.slab.token t ht).owned p).mp (by simp [tokenPages, hc])
        rw [hn p] at hown
        exact absurd hown (by simp)
  · exact h.slab.blank t ht

theorem MmInv.no_objAlloc (h : MmInv s c) (hs : s.mm.Spent) (p : Nat) : (s.mm.bookkeep p).objAlloc = none := by
  by_cases hp : p < pageFrameNum
  · exact hs.2 p hp
  · exact (h.slab.outside p (Nat.le_of_not_lt hp)).1

theorem MmInv.bare (h : MmInv s c) (hs : s.mm.Spent) : s.mm.Bare where
  lists := by
    intro x hx hf
    have := h.slab.buddy.lists.rings.ring x hx
    simp only [h.no_pages (h.no_objAlloc hs) hx hf] at this
    exact this
  idle := fun x hx hn => (h.slab.buddy.lists.idle x hx hn).1
  count := fun k hk => hs.1 k (Nat.lt_succ_of_le hk)

/-- **After `mm_init`** the invariant holds, with nothing handed out. -/
theorem MmInv.mmInit (h : MmInv s c) (hs : s.mm.Spent) :
    ∃ mm' c', OsdiKernel.mmInit s.mm = .ok mm' ∧ MmInv ⟨mm', []⟩ c' := by
  have hn := h.no_objAlloc hs
  obtain ⟨mm₁, c₁, hrun, hb, _, hoth, hobj⟩ := (h.bare hs).freeAreaInit
  have hn₁ : ∀ q, (mm₁.bookkeep q).objAlloc = none := fun q => (hobj.objAlloc q).trans (hn q)
  have hreg : ∀ u, mm₁.Registered u ↔ s.mm.Registered u := fun u => by rw [Mm.Registered, hobj.pool]; rfl
  have hheld : heldBlocks mm₁ [] = ∅ := heldBlocks_nil hn₁
  have hslab : SlabInv mm₁ c₁ [] := by
    refine ⟨hheld ▸ hb, fun b hbm => ?_, fun t ht => ?_, fun q _ => ?_, fun t ht => ?_, fun q _ => ⟨hn₁ q, rfl⟩⟩
    · rw [hheld] at hbm
      exact absurd hbm (by simp)
    · have ht' := (hreg t).mp ht
      refine (h.slab.token t ht').congr (by rw [hobj.pool]) ⟨?_, ?_, ?_⟩ (fun q => by rw [hn₁, hn])
        (fun q _ => hobj.objUsed q)
      · rw [hoth _ (by simp), h.no_pages hn (x := .fullList t) ht' (by simp)]
      · rw [hoth _ (by simp), h.no_pages hn (x := .partialList t) ht' (by simp)]
      · rw [hoth _ (by simp), h.no_pages hn (x := .emptyList t) ht' (by simp)]
    · exact .blank (hn₁ q)
    · rw [hobj.pool]
      exact h.slab.blank t (fun hr => ht ((hreg t).mpr hr))
  have hcls : KmallocClasses mm₁ 9 := h.classes.sameObj hobj
  have hinv : MmInv ⟨initKmalloc mm₁, []⟩ c₁ :=
    initKmalloc_inv (P := fun m => MmInv ⟨m, []⟩ c₁) (fun m n hm => registerObjAllocator_outcome hm n)
      ⟨hslab, hcls⟩
  exact ⟨initKmalloc mm₁, c₁, by rw [OsdiKernel.mmInit, hrun, ok_bind], hinv⟩

/-- A list that is empty, or was never written, leads nowhere. -/
theorem not_onChain (h : mm.links.next x = some x ∨ mm.links.next x = none) (hf : ∀ q, x ≠ .frame q) :
    ¬ OnChain mm x p := by
  intro hc
  have hstay : ∀ y, Relation.TransGen (fun a b => mm.links.next a = some b) x y → y = x := by
    intro y hy
    induction hy with
    | single hn =>
        rcases h with h | h
        · exact Option.some.inj (hn.symm.trans h)
        · rw [h] at hn
          exact absurd hn (by simp)
    | tail _ hn ih =>
        subst ih
        rcases h with h | h
        · exact Option.some.inj (hn.symm.trans h)
        · rw [h] at hn
          exact absurd hn (by simp)
  exact hf p (hstay _ hc).symm

theorem MmInv.not_owned (h : MmInv s c) (hn : ∀ p, (s.mm.bookkeep p).objAlloc = none) : ¬ OwnedBy s.mm t p := by
  have hlist : ∀ x, (∀ q, x ≠ .frame q) → (∀ k, x ≠ .freelist k) → ¬ OnChain s.mm x p := by
    intro x hq hk
    by_cases hx : s.mm.IsHead x
    · have hring := h.slab.buddy.lists.rings.ring x hx
      exact not_onChain (Or.inl (hring.next_self_iff.mpr (by rw [h.no_pages hn hx hk]; rfl))) hq
    · exact not_onChain (Or.inr (h.slab.buddy.lists.idle x hq hx).1) hq
  intro ho
  rcases ho with ho | ho | ho | ho
  · rw [h.no_currPage hn] at ho
    exact absurd ho (by simp)
  · exact hlist (.fullList t) (by simp) (by simp) ho
  · exact hlist (.partialList t) (by simp) (by simp) ho
  · exact hlist (.emptyList t) (by simp) (by simp) ho

/-- What is live is not in a free block. -/
theorem MmInv.live_not_free (h : MmInv s c) {e : Live} (he : e ∈ s.live) : phyAddrToPfn e.addr ∉ freeFrames s.mm := by
  intro hf
  have hno := (h.slab.buddy.freeFrames_iff.mp hf).2
  cases ho : e.owner with
  | slab t =>
      have hown := (h.slab.objAlloc_slab he).mpr ho
      refine hno ⟨_, 0⟩ (Or.inl ⟨rfl, fun hnone => ?_⟩) (Block.covers_start _)
      exact absurd (hown.symm.trans hnone) (by simp)
  | buddy k =>
      obtain ⟨_, ha⟩ := h.slab.objAlloc_buddy he ho
      exact hno ⟨_, k⟩ (Or.inr ⟨e, he, ho, ha⟩) (Block.covers_start _)

theorem MmInv.soundlyReset (h : MmInv ⟨mm, []⟩ c) (hn : ∀ p, (mm.bookkeep p).objAlloc = none) : SoundlyReset mm where
  count := fun k hk => ⟨c (.freelist k), h.slab.buddy.lists.rings.ring _ hk, h.slab.buddy.count k hk⟩
  unowned := fun _ _ _ _ => h.not_owned hn
  unnamed := fun f _ => hn f
  later := by
    intro s hr size addr mm' hk
    obtain ⟨c', hs⟩ := hr.inv_ok (P := fun s => ∃ c, MmInv s c) ⟨c, h⟩
      (fun s op s' hs hl he => hs.elim (fun _ hs => mmInv_exec hs op (heapSystem_legal hl) he))
    rcases kmalloc_outcome hs size with ⟨_, hno⟩ | ⟨_, r, hrun, hal⟩
    · rw [hno] at hk
      exact absurd hk (by simp)
    · obtain rfl : r = (some addr, mm') := Except.ok.inj (hrun.symm.trans hk)
      obtain ⟨c'', hinv⟩ := hal.inv
      exact hinv.live_not_free (e := ⟨addr, size, kmallocOwner size⟩) (List.mem_cons_self ..)

theorem sound_of_spent (h : MmInv s c) (hs : s.mm.Spent) : ∃ mm', mmInit s.mm = .ok mm' ∧ SoundlyReset mm' := by
  obtain ⟨mm', c', hrun, hinv⟩ := h.mmInit hs
  obtain ⟨mm₁, hrun₁, he⟩ := mmInit_emptied s.mm
  obtain rfl : mm' = mm₁ := Except.ok.inj (hrun.symm.trans hrun₁)
  exact ⟨mm', hrun, hinv.soundlyReset (fun p => (he.objAlloc p).trans (h.no_objAlloc hs p))⟩

/-- An allocator with a page counts it. -/
theorem MmInv.spent (h : MmInv s c) (hfree : ∀ k, k < maxOrder + 1 → s.mm.nrFree k = 0)
    (hused : ∀ t, t < maxObjAllocatorNum → (s.mm.objAllocPool t).pageUsed = 0) : s.mm.Spent := by
  refine ⟨hfree, fun p _ => ?_⟩
  cases ho : (s.mm.bookkeep p).objAlloc with
  | none => rfl
  | some t =>
      have ht := h.slab.registered ho
      have htok := h.slab.token t ht
      have hlen := htok.pageUsed
      have hpos := List.length_pos_of_mem ((htok.owned p).mpr ho)
      rw [hused t ht.1] at hlen
      omega

theorem mmInv_heapSystem (h : MmReach heapSystem s) : ∃ c, MmInv s c := by
  obtain ⟨mm₀, h₀, hr⟩ := h
  exact mmInv_reachable ⟨mm₀, h₀, hr.mono (fun _ _ => heapSystem_legal) (fun _ _ => rfl)⟩

/--
**When memory can be initialised again.** After any run of `kmalloc` and
`kfree`, another `mm_init` leaves a sound state exactly when every block is
handed out and no page has an allocator.
-/
theorem mmInit_again_iff (h : MmReach heapSystem s) :
    (∃ mm', mmInit s.mm = .ok mm' ∧ SoundlyReset mm') ↔ s.mm.Spent := by
  obtain ⟨c, hi⟩ := mmInv_heapSystem h
  refine ⟨fun hs => ?_, sound_of_spent hi⟩
  obtain ⟨mm', hrun, hs⟩ := hs
  exact spent_of_sound hrun hs

/-- With all memory handed out in the largest blocks, initialising again is sound. -/
theorem mmInit_again_spent :
    ∃ s, MmReach heapSystem s ∧ s.live.length = 8 ∧ ∃ mm', mmInit s.mm = .ok mm' ∧ SoundlyReset mm' := by
  have hrun : (mmRun heapSystem (List.replicate 8 (.kmalloc 2097152))).map
      (fun s => (s.live.length, decide (∀ k, k < maxOrder + 1 → s.mm.nrFree k = 0),
        decide (∀ t, t < maxObjAllocatorNum → (s.mm.objAllocPool t).pageUsed = 0))) = some (8, true, true) := by
    decide +kernel
  obtain ⟨s, hs, hspent⟩ := Option.map_eq_some_iff.mp hrun
  simp only [Prod.mk.injEq, decide_eq_true_eq] at hspent
  obtain ⟨hlive, hfree, hused⟩ := hspent
  have hr := mmReach_of_run hs
  obtain ⟨c, hi⟩ := mmInv_heapSystem hr
  exact ⟨s, hr, hlive, (mmInit_again_iff hr).mpr (hi.spent hfree hused)⟩

/-- Right after the first time it is not: `nr_free` of the largest order becomes 16. -/
theorem not_mmInit_again :
    ¬ ∀ s, MmReach heapSystem s → ∃ mm', mmInit s.mm = .ok mm' ∧ SoundlyReset mm' := by
  intro hall
  have hrun : (mmRun heapSystem []).map (fun s => s.mm.nrFree maxOrder) = some 8 := by decide +kernel
  obtain ⟨s, hs, hnr⟩ := Option.map_eq_some_iff.mp hrun
  obtain ⟨mm', hinit, hsound⟩ := hall s (mmReach_of_run hs)
  have hspent := (spent_of_sound hinit hsound).1 maxOrder (Nat.lt_succ_self _)
  rw [hnr] at hspent
  exact absurd hspent (by decide)

end OsdiKernel
