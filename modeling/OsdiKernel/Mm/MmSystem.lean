import Mathlib.Algebra.BigOperators.Group.Finset.Basic
import OsdiKernel.Mm.Kmalloc

/-!
# Runs of the memory manager

`mm_init`, then any sequence of `kmalloc`, `kfree`, `register_obj_allocator`,
`obj_allocate` and `obj_free`. Anything may be asked for; only what is
outstanding may be freed, as often as it is outstanding.

Frees and registrations always return. An allocation either returns or faults:
it faults exactly when it needs a page and the buddy allocator has none, or when
the token was never registered.
-/

namespace OsdiKernel

/-- The memory manager, and what it has handed out. -/
structure MmState where
  mm : Mm
  live : List Live

/-- What a client may do. -/
inductive MmOp where
  | kmalloc (size : Int)
  | kfree (addr : Nat)
  | registerObjAllocator (objsize : Int)
  | objAllocate (token : Int)
  | objFree (addr : Nat)

/-- The object came from an object allocator. -/
def Live.isSlab (e : Live) : Bool :=
  match e.owner with
  | .slab _ => true
  | .buddy _ => false

/-- Which allocator serves `kmalloc(size)`. -/
def kmallocOwner (size : Int) : Owner :=
  match kmallocClass size with
  | some i => .slab (i - minKmallocOrder)
  | none => .buddy ((kmallocOrder size).getD 0)

/-- Record what an allocation returned: nothing, if it returned NULL. -/
def handOut (s : MmState) (size : Int) (owner : Owner) : Option Nat × Mm → MmState
  | (none, mm) => { s with mm }
  | (some addr, mm) => ⟨mm, ⟨addr, size, owner⟩ :: s.live⟩

/-- Strike the first record of an address. -/
def giveUp (live : List Live) (addr : Nat) : List Live := live.eraseP (fun e => e.addr = addr)

/-- The memory manager as a system. -/
def mmSystem : System MmState MmOp Fault where
  legal := fun s op =>
    match op with
    | .kfree addr => ∃ e ∈ s.live, e.addr = addr
    | .objFree addr => ∃ e ∈ s.live, e.addr = addr ∧ e.isSlab = true
    | _ => True
  exec := fun s op =>
    match op with
    | .kmalloc size => do
        let r ← kmalloc s.mm size
        .ok (handOut s size (kmallocOwner size) r)
    | .kfree addr => do
        let mm ← kfree s.mm addr
        .ok ⟨mm, giveUp s.live addr⟩
    | .registerObjAllocator objsize => .ok { s with mm := (registerObjAllocator s.mm objsize).2 }
    | .objAllocate token => do
        let r ← objAllocate s.mm token
        .ok (handOut s (s.mm.objAllocPool token.toNat).objsize (.slab token.toNat) r)
    | .objFree addr => do
        let mm ← objFree s.mm addr
        .ok ⟨mm, giveUp s.live addr⟩

instance : ∀ s op, Decidable (mmSystem.legal s op)
  | s, .kfree addr => inferInstanceAs (Decidable (∃ e ∈ s.live, e.addr = addr))
  | s, .objFree addr => inferInstanceAs (Decidable (∃ e ∈ s.live, e.addr = addr ∧ e.isSlab = true))
  | _, .kmalloc _ => inferInstanceAs (Decidable True)
  | _, .registerObjAllocator _ => inferInstanceAs (Decidable True)
  | _, .objAllocate _ => inferInstanceAs (Decidable True)

/-- Reachable from `mm_init` on zeroed memory, by the rules of `S`. -/
def MmReach (S : System MmState MmOp Fault) (s : MmState) : Prop :=
  ∃ mm₀, mmInit Mm.bss = .ok mm₀ ∧ S.Reach ⟨mm₀, []⟩ s

/-- Reachable by any lawful requests. -/
def MmReachable (s : MmState) : Prop := MmReach mmSystem s

/-- Carry out a list of requests after `mm_init`. -/
def mmRun (S : System MmState MmOp Fault) [∀ s op, Decidable (S.legal s op)] (ops : List MmOp) :
    Option MmState :=
  match mmInit Mm.bss with
  | .ok mm => S.run ⟨mm, []⟩ ops
  | .error _ => none

theorem mmReach_of_run {S : System MmState MmOp Fault} [∀ s op, Decidable (S.legal s op)]
    {ops : List MmOp} {s : MmState} (h : mmRun S ops = some s) : MmReach S s := by
  cases h₀ : mmInit Mm.bss with
  | error e => simp [mmRun, h₀] at h
  | ok mm =>
      simp only [mmRun, h₀] at h
      exact ⟨mm, h₀, System.Reach.of_run .init h⟩

/-- The invariant of a run. -/
structure MmInv (s : MmState) (c : Link → List Nat) : Prop where
  slab : SlabInv s.mm c s.live
  classes : KmallocClasses s.mm 9

variable {s s' : MmState} {mm mm' : Mm} {c c' : Link → List Nat} {live : List Live} {t p : Nat}

/-! ## Each operation -/

theorem KmallocClasses.touched {n : Nat} (h : KmallocClasses mm n) (hT : Touches mm mm' c c' t p) :
    KmallocClasses mm' n := by
  intro u hu
  obtain ⟨hr, hs⟩ := h u hu
  refine ⟨(hT.registered u).mpr hr, ?_⟩
  by_cases hut : u = t
  · subst hut; rw [hT.size.1, hs]
  · rw [hT.pool u hut, hs]

theorem KmallocClasses.sameObj {n : Nat} (h : KmallocClasses mm n) (ho : mm.SameObj mm') :
    KmallocClasses mm' n := by
  intro u hu
  rw [Mm.Registered, ho.pool]
  exact h u hu

theorem kmallocClass_some {size : Int} {i : Nat} (h : kmallocClass size = some i) :
    3 ≤ i ∧ i ≤ 11 ∧ size ≤ 2 ^ i := by
  have hm := List.mem_range'_1.mp (List.mem_of_find?_eq_some h)
  have hs := List.find?_some h
  simp only [minKmallocOrder, maxKmallocOrder] at hm
  exact ⟨hm.1, by omega, by simpa using hs⟩

theorem kmallocOrder_some {size : Int} {k : Nat} (h : kmallocOrder size = some k) :
    k ≤ maxOrder ∧ size ≤ 2 ^ (k + pageShift) := by
  have hm := List.mem_range.mp (List.mem_of_find?_eq_some h)
  have hs := List.find?_some h
  exact ⟨Nat.lt_succ_iff.mp hm, by simpa using hs⟩

/-- The class a size belongs to is registered, and its objects are large enough. -/
theorem MmInv.class_token (h : MmInv s c) {size : Int} {i : Nat} (hi : kmallocClass size = some i) :
    s.mm.Registered (i - minKmallocOrder) ∧
      size ≤ (s.mm.objAllocPool (i - minKmallocOrder)).objsize := by
  obtain ⟨h3, h11, hle⟩ := kmallocClass_some hi
  obtain ⟨hr, hs⟩ := h.classes (i - minKmallocOrder) (by unfold minKmallocOrder; omega)
  refine ⟨hr, ?_⟩
  rw [hs, Nat.sub_add_cancel (show minKmallocOrder ≤ i from h3)]
  exact hle

/-- `kmalloc(size)` has a page to serve from, or a block large enough, or is too large. -/
def kmallocCan (mm : Mm) (size : Int) : Bool :=
  match kmallocClass size with
  | some i => canServe mm (i - minKmallocOrder)
  | none =>
      match kmallocOrder size with
      | some k => hasFree mm k
      | none => true

/-- `obj_allocate(token)` has an allocator that can serve, or no such token exists. -/
def objAllocateCan (mm : Mm) (token : Int) : Bool :=
  if token < 0 ∨ token ≥ maxObjAllocatorNum then true
  else (mm.objAllocPool token.toNat).objsize ≠ 0 && canServe mm token.toNat

/-- An allocation that returned: NULL with nothing changed, or an address. -/
structure Allocated (s : MmState) (size : Int) (owner : Owner) (r : Option Nat × Mm) : Prop where
  refused : r.1 = none → r.2 = s.mm
  inv : ∃ c, MmInv (handOut s size owner r) c

/-- **`obj_allocate`** of any token. -/
theorem objAllocate_outcome (h : MmInv s c) (token size : Int) :
    (objAllocateCan s.mm token = false ∧ objAllocate s.mm token = .error .nullDeref) ∨
    (objAllocateCan s.mm token = true ∧ ∃ r, objAllocate s.mm token = .ok r ∧
      Allocated s size (.slab token.toNat) r) := by
  by_cases hrange : token < 0 ∨ token ≥ maxObjAllocatorNum
  · refine Or.inr ⟨if_pos hrange, (none, s.mm), by rw [objAllocate, if_pos hrange], fun _ => rfl, c, h⟩
  · obtain ⟨t, rfl⟩ : ∃ t : Nat, token = t := ⟨token.toNat, by omega⟩
    have ht16 : t < maxObjAllocatorNum := by omega
    rw [objAllocateCan, if_neg hrange, Int.toNat_natCast]
    by_cases hreg : s.mm.Registered t
    · have hsz : (s.mm.objAllocPool t).objsize ≠ 0 := hreg.2
      rcases objAllocate_spec h.slab hreg with ⟨hrun, hcan⟩ | ⟨hcan, p, mm', c', addr, hrun, hsv⟩
      · exact Or.inl ⟨by simp [hcan], hrun⟩
      · exact Or.inr ⟨by simp [hcan, hsz], (some addr, mm'), hrun, fun he => absurd he (by simp), c',
          hsv.inv size, h.classes.touched hsv.touches⟩
    · have hsz : (s.mm.objAllocPool t).objsize = 0 := by
        by_contra hne
        exact hreg ⟨ht16, hne⟩
      exact Or.inl ⟨by simp [hsz], objAllocate_unregistered h.slab ht16 hreg⟩

/-- **`kmalloc`** of any size. -/
theorem kmalloc_outcome (h : MmInv s c) (size : Int) :
    (kmallocCan s.mm size = false ∧ kmalloc s.mm size = .error .nullDeref) ∨
    (kmallocCan s.mm size = true ∧ ∃ r, kmalloc s.mm size = .ok r ∧
      Allocated s size (kmallocOwner size) r) := by
  cases hcls : kmallocClass size with
  | some i =>
      have hreg := (h.class_token hcls).1
      have hrange : ¬ (((i - minKmallocOrder : Nat) : Int) < 0 ∨
          ((i - minKmallocOrder : Nat) : Int) ≥ maxObjAllocatorNum) := by
        have := hreg.1
        omega
      have hcan : kmallocCan s.mm size = objAllocateCan s.mm (i - minKmallocOrder : Nat) := by
        rw [kmallocCan, objAllocateCan, if_neg hrange, Int.toNat_natCast]
        simp [hcls, hreg.2]
      have hrun : kmalloc s.mm size = objAllocate s.mm (i - minKmallocOrder : Nat) := by
        simp only [kmalloc, hcls]
      have hown : kmallocOwner size = .slab ((i - minKmallocOrder : Nat) : Int).toNat := by
        simp only [kmallocOwner, hcls, Int.toNat_natCast]
      rw [hcan, hrun, hown]
      exact objAllocate_outcome h _ size
  | none =>
      cases hord : kmallocOrder size with
      | none =>
          refine Or.inr ⟨by simp only [kmallocCan, hcls, hord], (none, s.mm), ?_, fun _ => rfl, c, h⟩
          simp only [kmalloc, hcls, hord]
      | some k =>
          have hown : kmallocOwner size = .buddy k := by simp [kmallocOwner, hcls, hord]
          rcases buddyBlockAlloc_live h.slab (kmallocOrder_some hord).1 with ⟨hrun, hfree⟩ |
            ⟨hfree, p, mm', c', hrun, hphy, hobj, _, hinv⟩
          · refine Or.inl ⟨by simp only [kmallocCan, hcls, hord, hfree], ?_⟩
            simp only [kmalloc, hcls, hord, hrun, ok_bind]
          · refine Or.inr ⟨by simp only [kmallocCan, hcls, hord, hfree], (some (frameAddr p), mm'), ?_,
              fun he => absurd he (by simp), c', ?_⟩
            · simp only [kmalloc, hcls, hord, hrun, ok_bind, hphy]
            · rw [hown]
              exact ⟨hinv size, h.classes.sameObj hobj⟩

/-- What is freed was live, and is struck off once. -/
theorem giveUp_perm {addr : Nat} (h : ∃ e ∈ live, e.addr = addr) :
    ∃ e ∈ live, e.addr = addr ∧ live.Perm (e :: giveUp live addr) := by
  obtain ⟨e, he, ha⟩ := h
  obtain ⟨x, l₁, l₂, _, hx, hl, hr⟩ := List.exists_of_eraseP (p := fun e : Live => e.addr = addr) he
    (by simpa using ha)
  refine ⟨x, by rw [hl]; simp, by simpa using hx, ?_⟩
  rw [giveUp, hr, hl]
  exact List.perm_middle

/-- **`kfree`** of an outstanding address takes it back to whoever produced it. -/
theorem kfree_outcome (h : MmInv s c) {addr : Nat} (hl : ∃ e ∈ s.live, e.addr = addr) :
    ∃ mm' c', kfree s.mm addr = .ok mm' ∧ MmInv ⟨mm', giveUp s.live addr⟩ c' := by
  obtain ⟨e, he, rfl, hperm⟩ := giveUp_perm hl
  have hinv := h.slab.perm hperm
  cases ho : e.owner with
  | slab t =>
      have hown := (h.slab.objAlloc_slab he).mpr ho
      obtain ⟨mm', c', hrun, hfr⟩ := objFree_spec ⟨hinv, rfl, hown⟩
      refine ⟨mm', c', ?_, hfr.inv, h.classes.touched hfr.touches⟩
      simp only [kfree, hown, hrun]
  | buddy k =>
      obtain ⟨mm', c', hrun, hinv', hobj⟩ := kfree_block hinv ho
      exact ⟨mm', c', hrun, hinv', h.classes.sameObj hobj⟩

/-- **`obj_free`** of an outstanding object. -/
theorem objFree_outcome (h : MmInv s c) {addr : Nat}
    (hl : ∃ e ∈ s.live, e.addr = addr ∧ e.isSlab = true) :
    ∃ mm' c', objFree s.mm addr = .ok mm' ∧ MmInv ⟨mm', giveUp s.live addr⟩ c' := by
  obtain ⟨e, he, rfl, hslab⟩ := hl
  have hown : ∃ t, (s.mm.bookkeep (phyAddrToPfn e.addr)).objAlloc = some t := by
    cases ho : e.owner with
    | slab t => exact ⟨t, (h.slab.objAlloc_slab he).mpr ho⟩
    | buddy k => simp [Live.isSlab, ho] at hslab
  obtain ⟨t, ht⟩ := hown
  obtain ⟨mm', c', hrun, hinv⟩ := kfree_outcome h ⟨e, he, rfl⟩
  refine ⟨mm', c', ?_, hinv⟩
  rw [← hrun]
  simp only [kfree, ht]

theorem registerObjAllocator_outcome (h : MmInv s c) (objsize : Int) :
    MmInv { s with mm := (registerObjAllocator s.mm objsize).2 } c := by
  have hr := registerObjAllocator_spec h.slab objsize
  refine ⟨hr.inv, fun u hu => ?_⟩
  obtain ⟨hreg, hsz⟩ := h.classes u hu
  rw [Mm.Registered, hr.old u hreg]
  exact ⟨hreg, hsz⟩

/-! ## Runs -/

theorem mmInv_init {mm₀ : Mm} (h : mmInit Mm.bss = .ok mm₀) : ∃ c, MmInv ⟨mm₀, []⟩ c := by
  obtain ⟨mm, c, hrun, hinv, _, hcls, _⟩ := mmInit_spec
  rw [h] at hrun
  injection hrun with he
  subst he
  exact ⟨c, hinv, hcls⟩

/-- What a request needs so as not to fault. -/
def canReturn (mm : Mm) : MmOp → Bool
  | .kmalloc size => kmallocCan mm size
  | .objAllocate token => objAllocateCan mm token
  | _ => true

/-- **One step.** A lawful request returns if it can be served, and keeps the invariant. -/
theorem mmInv_step (h : MmInv s c) {op : MmOp} (hl : mmSystem.legal s op) :
    (canReturn s.mm op = false ∧ mmSystem.exec s op = .error .nullDeref) ∨
    (canReturn s.mm op = true ∧ ∃ s' c', mmSystem.exec s op = .ok s' ∧ MmInv s' c') := by
  cases op with
  | kmalloc size =>
      rcases kmalloc_outcome h size with ⟨hcan, hrun⟩ | ⟨hcan, r, hrun, hal⟩
      · exact Or.inl ⟨hcan, by simp only [mmSystem, hrun, error_bind]⟩
      · obtain ⟨c', hinv⟩ := hal.inv
        exact Or.inr ⟨hcan, _, c', by simp only [mmSystem, hrun, ok_bind], hinv⟩
  | kfree addr =>
      obtain ⟨mm', c', hrun, hinv⟩ := kfree_outcome h hl
      exact Or.inr ⟨rfl, _, c', by simp only [mmSystem, hrun, ok_bind], hinv⟩
  | registerObjAllocator objsize =>
      exact Or.inr ⟨rfl, _, c, rfl, registerObjAllocator_outcome h objsize⟩
  | objAllocate token =>
      rcases objAllocate_outcome h token (s.mm.objAllocPool token.toNat).objsize with
        ⟨hcan, hrun⟩ | ⟨hcan, r, hrun, hal⟩
      · exact Or.inl ⟨hcan, by simp only [mmSystem, hrun, error_bind]⟩
      · obtain ⟨c', hinv⟩ := hal.inv
        exact Or.inr ⟨hcan, _, c', by simp only [mmSystem, hrun, ok_bind], hinv⟩
  | objFree addr =>
      obtain ⟨mm', c', hrun, hinv⟩ := objFree_outcome h hl
      exact Or.inr ⟨rfl, _, c', by simp only [mmSystem, hrun, ok_bind], hinv⟩

/-- A request that returned kept the invariant. -/
theorem mmInv_exec (h : MmInv s c) (op : MmOp) (hl : mmSystem.legal s op)
    (he : mmSystem.exec s op = .ok s') : ∃ c', MmInv s' c' := by
  rcases mmInv_step h hl with ⟨_, hrun⟩ | ⟨_, s'', c', hrun, hinv⟩
  · rw [hrun] at he
    exact absurd he (by simp)
  · rw [hrun] at he
    exact Except.ok.inj he ▸ ⟨c', hinv⟩

theorem mmInv_reachable (h : MmReachable s) : ∃ c, MmInv s c := by
  obtain ⟨mm₀, h₀, hr⟩ := h
  refine hr.inv_ok (P := fun s => ∃ c, MmInv s c) (mmInv_init h₀) ?_
  intro s op s' hs hl he
  obtain ⟨c, hs⟩ := hs
  exact mmInv_exec hs op hl he

/-! ## The bookkeeping -/

/-- Where an allocator keeps a page. -/
inductive Place where
  | curr
  | full
  | part
  | empty
  deriving DecidableEq

/-- The heads a traversal of a list visits. -/
def pagesOn (mm : Mm) (x : Link) : Set Nat :=
  {p | ∃ xs : List Nat, IsRing mm.links x (xs.map .frame) ∧ p ∈ xs}

/-- Allocator `t` keeps page `p` there. -/
def KeptAt (mm : Mm) (t p : Nat) : Place → Prop
  | .curr => (mm.objAllocPool t).currPage = some p
  | .full => p ∈ pagesOn mm (.fullList t)
  | .part => p ∈ pagesOn mm (.partialList t)
  | .empty => p ∈ pagesOn mm (.emptyList t)

/-- What a page's `obj_used` must be, by where it is kept. -/
def Place.allows (perPage used : Int) : Place → Prop
  | .curr => 0 ≤ used ∧ used < perPage
  | .full => used = perPage
  | .part => 0 < used ∧ used < perPage
  | .empty => used = 0

/-- The pages that name allocator `t`. -/
def pagesOf (mm : Mm) (t : Nat) : Finset Nat :=
  (Finset.range pageFrameNum).filter (fun p => (mm.bookkeep p).objAlloc = some t)

/-- The object allocators' bookkeeping. -/
structure Bookkeeping (s : MmState) : Prop where
  /-- `obj_alloc` names the allocator that keeps the page, and is NULL if none does. -/
  names : ∀ p t, (s.mm.bookkeep p).objAlloc = some t ↔
    s.mm.Registered t ∧ ∃ place, KeptAt s.mm t p place
  /-- No page is kept in two places, or by two allocators. -/
  once : ∀ p t u place place', s.mm.Registered t → s.mm.Registered u → KeptAt s.mm t p place →
    KeptAt s.mm u p place' → t = u ∧ place = place'
  /-- A page's counter fits where it is kept. -/
  counts : ∀ p t place, s.mm.Registered t → KeptAt s.mm t p place →
    place.allows (s.mm.objAllocPool t).objPerPage (s.mm.bookkeep p).objUsed
  /-- `page_used` is the number of pages. -/
  pageUsed : ∀ t, s.mm.Registered t → (s.mm.objAllocPool t).pageUsed = (pagesOf s.mm t).card
  /-- `obj_used` is the sum over the pages. -/
  objUsed : ∀ t, s.mm.Registered t →
    (s.mm.objAllocPool t).objUsed = ∑ p ∈ pagesOf s.mm t, (s.mm.bookkeep p).objUsed
  /-- `kfree` of an object reaches the allocator it came from. -/
  slab : ∀ e ∈ s.live, ∀ t, e.owner = .slab t →
    (s.mm.bookkeep (phyAddrToPfn e.addr)).objAlloc = some t ∧ kfree s.mm e.addr = objFree s.mm e.addr
  /-- `kfree` of a block reaches the buddy allocator, with the block's own head and order. -/
  buddy : ∀ e ∈ s.live, ∀ k, e.owner = .buddy k →
    ∃ p, e.addr = (s.mm.bookkeep p).phyAddr ∧ (s.mm.bookkeep p).order = k ∧
      kfree s.mm e.addr = buddyBlockFree s.mm p

theorem MmInv.pagesOn_eq (h : MmInv s c) {x : Link} (hx : s.mm.IsHead x) :
    pagesOn s.mm x = {p | p ∈ c x} := by
  ext p
  constructor
  · intro hp
    obtain ⟨xs, hxs, hpx⟩ := hp
    have := hxs.unique (h.slab.buddy.lists.rings.ring _ hx)
    exact PageLists.mem_frame.mp (this ▸ PageLists.mem_frame.mpr hpx)
  · intro hp
    exact ⟨_, h.slab.buddy.lists.rings.ring _ hx, hp⟩

/-- The four places are the four parts of `tokenPages`. -/
theorem MmInv.kept_iff (h : MmInv s c) (ht : s.mm.Registered t) :
    (∃ place, KeptAt s.mm t p place) ↔ p ∈ tokenPages s.mm c t := by
  have h1 := h.pagesOn_eq (x := .fullList t) ht
  have h2 := h.pagesOn_eq (x := .partialList t) ht
  have h3 := h.pagesOn_eq (x := .emptyList t) ht
  simp only [tokenPages, List.mem_append, Option.mem_toList]
  constructor
  · intro hk
    obtain ⟨place, hk⟩ := hk
    cases place with
    | curr => exact Or.inl hk
    | full => rw [KeptAt, h1] at hk; exact Or.inr (Or.inl hk)
    | part => rw [KeptAt, h2] at hk; exact Or.inr (Or.inr (Or.inl hk))
    | empty => rw [KeptAt, h3] at hk; exact Or.inr (Or.inr (Or.inr hk))
  · intro hm
    rcases hm with hm | hm | hm | hm
    · exact ⟨.curr, hm⟩
    · exact ⟨.full, by rw [KeptAt, h1]; exact hm⟩
    · exact ⟨.part, by rw [KeptAt, h2]; exact hm⟩
    · exact ⟨.empty, by rw [KeptAt, h3]; exact hm⟩

theorem MmInv.owned_iff (h : MmInv s c) :
    (s.mm.bookkeep p).objAlloc = some t ↔ s.mm.Registered t ∧ ∃ place, KeptAt s.mm t p place := by
  constructor
  · intro ho
    have ht := h.slab.registered ho
    exact ⟨ht, (h.kept_iff ht).mpr (((h.slab.token t ht).owned p).mpr ho)⟩
  · intro hk
    exact ((h.slab.token t hk.1).owned p).mp ((h.kept_iff hk.1).mp hk.2)

/-- A page is in one of the four places at most. -/
theorem MmInv.kept_once (h : MmInv s c) (ht : s.mm.Registered t) {place place' : Place}
    (hk : KeptAt s.mm t p place) (hk' : KeptAt s.mm t p place') : place = place' := by
  have h1 := h.pagesOn_eq (x := .fullList t) ht
  have h2 := h.pagesOn_eq (x := .partialList t) ht
  have h3 := h.pagesOn_eq (x := .emptyList t) ht
  have hl := h.slab.buddy.lists
  have hcurr : (s.mm.objAllocPool t).currPage = some p → ∀ x, s.mm.IsHead x → p ∉ c x :=
    fun hc => h.slab.curr_loose ht hc
  have hfp : p ∈ c (.fullList t) → p ∈ c (.partialList t) → False :=
    fun a b => absurd (hl.apart (h := .fullList t) (g := .partialList t) ht ht a b) (by simp)
  have hfe : p ∈ c (.fullList t) → p ∈ c (.emptyList t) → False :=
    fun a b => absurd (hl.apart (h := .fullList t) (g := .emptyList t) ht ht a b) (by simp)
  have hpe : p ∈ c (.partialList t) → p ∈ c (.emptyList t) → False :=
    fun a b => absurd (hl.apart (h := .partialList t) (g := .emptyList t) ht ht a b) (by simp)
  cases place <;> cases place' <;> simp only [KeptAt, h1, h2, h3, Set.mem_ofPred_eq] at hk hk'
  · rfl
  · exact absurd hk' (hcurr hk (.fullList t) ht)
  · exact absurd hk' (hcurr hk (.partialList t) ht)
  · exact absurd hk' (hcurr hk (.emptyList t) ht)
  · exact absurd hk (hcurr hk' (.fullList t) ht)
  · rfl
  · exact (hfp hk hk').elim
  · exact (hfe hk hk').elim
  · exact absurd hk (hcurr hk' (.partialList t) ht)
  · exact (hfp hk' hk).elim
  · rfl
  · exact (hpe hk hk').elim
  · exact absurd hk (hcurr hk' (.emptyList t) ht)
  · exact (hfe hk' hk).elim
  · exact (hpe hk' hk).elim
  · rfl

theorem MmInv.pagesOf_eq (h : MmInv s c) (ht : s.mm.Registered t) :
    pagesOf s.mm t = (tokenPages s.mm c t).toFinset := by
  ext p
  rw [pagesOf, Finset.mem_filter, Finset.mem_range, List.mem_toFinset, (h.slab.token t ht).owned]
  exact ⟨fun hm => hm.2, fun hm => ⟨h.slab.lt_of_owned hm, hm⟩⟩

theorem MmInv.bookkeeping (h : MmInv s c) : Bookkeeping s where
  names := fun _ _ => h.owned_iff
  once := by
    intro p t u place place' ht hu hk hk'
    have h1 : (s.mm.bookkeep p).objAlloc = some t := h.owned_iff.mpr ⟨ht, place, hk⟩
    have h2 : (s.mm.bookkeep p).objAlloc = some u := h.owned_iff.mpr ⟨hu, place', hk'⟩
    have htu : t = u := Option.some.inj (h1.symm.trans h2)
    subst htu
    exact ⟨rfl, h.kept_once ht hk hk'⟩
  counts := by
    intro p t place ht hk
    have htok := h.slab.token t ht
    have h1 := h.pagesOn_eq (x := .fullList t) ht
    have h2 := h.pagesOn_eq (x := .partialList t) ht
    have h3 := h.pagesOn_eq (x := .emptyList t) ht
    cases place with
    | curr =>
        have hown := h.owned_iff.mpr ⟨ht, .curr, hk⟩
        have hnn := ((h.slab.page p (h.slab.lt_of_owned hown)).slab t hown).1
        exact ⟨by rw [hnn]; exact Int.natCast_nonneg _, htok.curr p hk⟩
    | full => rw [KeptAt, h1] at hk; exact htok.full p hk
    | part => rw [KeptAt, h2] at hk; exact htok.part p hk
    | empty => rw [KeptAt, h3] at hk; exact htok.empty p hk
  pageUsed := by
    intro t ht
    rw [h.pagesOf_eq ht, List.toFinset_card_of_nodup (h.slab.token t ht).nodup]
    exact (h.slab.token t ht).pageUsed
  objUsed := by
    intro t ht
    rw [h.pagesOf_eq ht, List.sum_toFinset _ (h.slab.token t ht).nodup]
    exact (h.slab.token t ht).objUsed
  slab := by
    intro e he t ho
    have hown := (h.slab.objAlloc_slab he).mpr ho
    exact ⟨hown, by simp only [kfree, hown]⟩
  buddy := by
    intro e he k ho
    obtain ⟨hoa, ha⟩ := h.slab.objAlloc_buddy he ho
    obtain ⟨hpN, _⟩ := h.slab.live_page he
    have hheld := h.slab.held ⟨phyAddrToPfn e.addr, k⟩ (Or.inr ⟨e, he, ho, ha⟩)
    refine ⟨phyAddrToPfn e.addr, ?_, hheld.2, by simp only [kfree, hoa]⟩
    rw [h.slab.buddy.addr _ hpN]
    exact ha

/--
**Slab bookkeeping.** After any run in which only outstanding addresses are
freed, as often as they are outstanding, every page an allocator owns is in
exactly one place with a counter that fits, `obj_alloc` names the owner, and the
totals are right; so `kfree` goes back to the producer. And no lawful call
faults that can be served.
-/
theorem slab_bookkeeping (h : MmReachable s) :
    Bookkeeping s ∧ ∀ op, mmSystem.legal s op → canReturn s.mm op = true →
      ∃ s', mmSystem.exec s op = .ok s' := by
  obtain ⟨c, hinv⟩ := mmInv_reachable h
  refine ⟨hinv.bookkeeping, fun op hl hcan => ?_⟩
  rcases mmInv_step hinv hl with ⟨hno, _⟩ | ⟨_, s', _, hrun, _⟩
  · rw [hno] at hcan
    exact absurd hcan (by simp)
  · exact ⟨s', hrun⟩

/-- An object, a block of two pages, and the object freed again. -/
theorem slab_bookkeeping_first :
    ∃ s, MmReachable s ∧ s.live.map Live.addr = [0x202000] ∧ Bookkeeping s := by
  have hrun : (mmRun mmSystem [.kmalloc 16, .kmalloc 5000, .kfree 0x200000]).map
      (fun s => s.live.map Live.addr) = some [0x202000] := by decide +kernel
  obtain ⟨s, hs, hlive⟩ := Option.map_eq_some_iff.mp hrun
  exact ⟨s, mmReach_of_run hs, hlive, (slab_bookkeeping (mmReach_of_run hs)).1⟩

/-! ## Failure -/

/-- An allocation succeeds, or returns NULL and leaves the memory manager as it was. -/
def CleanOutcome (mm : Mm) (r : Except Fault (Option Nat × Mm)) : Prop :=
  ∃ addr mm', r = .ok (addr, mm') ∧ (addr = none → mm' = mm)

theorem Allocated.clean {size : Int} {owner : Owner} {r : Option Nat × Mm}
    (h : Allocated s size owner r) : CleanOutcome s.mm (.ok r) := ⟨r.1, r.2, rfl, h.refused⟩

theorem not_clean_error {f : Fault} : ¬ CleanOutcome mm (.error f) := by
  intro h
  obtain ⟨addr, mm', he, _⟩ := h
  exact absurd he (by simp)

/--
**When allocation is clean.** A request that needs no page, or can get one, is
served or refused cleanly; any other faults.
-/
theorem allocation_clean_iff (h : MmReachable s) :
    (∀ size, CleanOutcome s.mm (kmalloc s.mm size) ↔ kmallocCan s.mm size = true) ∧
    (∀ token, CleanOutcome s.mm (objAllocate s.mm token) ↔ objAllocateCan s.mm token = true) := by
  obtain ⟨c, hinv⟩ := mmInv_reachable h
  refine ⟨fun size => ?_, fun token => ?_⟩
  · rcases kmalloc_outcome hinv size with ⟨hcan, hrun⟩ | ⟨hcan, r, hrun, hal⟩
    · rw [hrun, hcan]
      exact ⟨fun hc => absurd hc not_clean_error, fun hf => absurd hf (by simp)⟩
    · rw [hrun, hcan]
      exact ⟨fun _ => rfl, fun _ => hal.clean⟩
  · rcases objAllocate_outcome hinv token 0 with ⟨hcan, hrun⟩ | ⟨hcan, r, hrun, hal⟩
    · rw [hrun, hcan]
      exact ⟨fun hc => absurd hc not_clean_error, fun hf => absurd hf (by simp)⟩
    · rw [hrun, hcan]
      exact ⟨fun _ => rfl, fun _ => hal.clean⟩

/-- At the start every size up to the largest block can be had, and a larger one is refused. -/
theorem allocation_clean_start :
    ∃ s, MmReachable s ∧ s.live = [] ∧ CleanOutcome s.mm (kmalloc s.mm 2097152) ∧
      CleanOutcome s.mm (kmalloc s.mm 2097153) := by
  have hrun : (mmRun mmSystem []).map (fun s => (s.live, kmallocCan s.mm 2097152, kmallocCan s.mm 2097153))
      = some ([], true, true) := by decide +kernel
  obtain ⟨s, hs, hcan⟩ := Option.map_eq_some_iff.mp hrun
  have hr := mmReach_of_run hs
  simp only [Prod.mk.injEq] at hcan
  exact ⟨s, hr, hcan.1, ((allocation_clean_iff hr).1 _).mpr hcan.2.1,
    ((allocation_clean_iff hr).1 _).mpr hcan.2.2⟩

/-- Token 9 was never registered, and with all memory handed out there is no page for one byte. -/
theorem allocation_faults :
    ¬ (∀ s, MmReachable s → ∀ token, CleanOutcome s.mm (objAllocate s.mm token)) ∧
    ¬ (∀ s, MmReachable s → ∀ size, CleanOutcome s.mm (kmalloc s.mm size)) := by
  refine ⟨fun hall => ?_, fun hall => ?_⟩
  · have hrun : (mmRun mmSystem []).map (fun s => objAllocateCan s.mm 9) = some false := by decide +kernel
    obtain ⟨s, hs, hcan⟩ := Option.map_eq_some_iff.mp hrun
    have hr := mmReach_of_run hs
    obtain ⟨c, hinv⟩ := mmInv_reachable hr
    have hclean := hall s hr 9
    rcases objAllocate_outcome hinv 9 0 with ⟨_, hf⟩ | ⟨hyes, _⟩
    · rw [hf] at hclean
      exact not_clean_error hclean
    · rw [hcan] at hyes
      exact absurd hyes (by simp)
  · have hrun : (mmRun mmSystem (List.replicate 8 (.kmalloc 2097152))).map (fun s => kmallocCan s.mm 1)
        = some false := by decide +kernel
    obtain ⟨s, hs, hcan⟩ := Option.map_eq_some_iff.mp hrun
    have hr := mmReach_of_run hs
    obtain ⟨c, hinv⟩ := mmInv_reachable hr
    have hclean := hall s hr 1
    rcases kmalloc_outcome hinv 1 with ⟨_, hf⟩ | ⟨hyes, _⟩
    · rw [hf] at hclean
      exact not_clean_error hclean
    · rw [hcan] at hyes
      exact absurd hyes (by simp)

end OsdiKernel
