import Mathlib.Algebra.BigOperators.Group.List.Basic
import Mathlib.Algebra.Order.Group.Int
import OsdiKernel.Mm.BuddyOps
import OsdiKernel.Mm.Slab

/-!
# The object allocators' invariant

The allocators do not record what they have handed out, so `live` does: one
entry for each allocation not given back, an address twice if it was handed out
twice.

The invariant has three parts. For each registered allocator, `TokenInv`: its
pages are in one place each, and its counters count them. For each page,
`PageInv`: who owns it, and that `obj_used` is the number of live allocations on
it. And the buddy allocator's invariant, where the held blocks are the
allocators' pages and the blocks `kmalloc` handed out whole.

Every operation touches one page and at most one allocator, so what has to be
proved of it is what it does to those two; `Touches` and `SlabInv.touched` say
so.
-/

namespace OsdiKernel

/-- Who produced an allocation. -/
inductive Owner where
  | slab (token : Nat)
  | buddy (order : Nat)
  deriving DecidableEq, Repr

/-- An allocation that has not been given back, and the size that was asked for. -/
structure Live where
  addr : Nat
  size : Int
  owner : Owner
  deriving DecidableEq, Repr

/-- Where page frame `p` begins. -/
def frameAddr (p : Nat) : Nat := lowMemory + p * pageSize

/-- The live allocations on page `p`. -/
def onPage (live : List Live) (p : Nat) : List Live := live.filter (fun e => phyAddrToPfn e.addr = p)

/-- The token has been registered. -/
def Mm.Registered (mm : Mm) (t : Nat) : Prop :=
  t < maxObjAllocatorNum ∧ (mm.objAllocPool t).objsize ≠ 0

/-- The blocks that are not free: the allocators' pages, and what `kmalloc` handed out whole. -/
def heldBlocks (mm : Mm) (live : List Live) : Set Block :=
  {b | (b.order = 0 ∧ (mm.bookkeep b.start).objAlloc ≠ none) ∨
    ∃ e ∈ live, e.owner = .buddy b.order ∧ e.addr = frameAddr b.start}

/-- All of an allocator's pages: the current one, then those on its lists. -/
def tokenPages (mm : Mm) (c : Link → List Nat) (t : Nat) : List Nat :=
  (mm.objAllocPool t).currPage.toList ++
    (c (.fullList t) ++ (c (.partialList t) ++ c (.emptyList t)))

/-- An address where an object of `t` can be on page `p`. -/
def ObjAddr (mm : Mm) (t p a : Nat) : Prop :=
  ∃ j : Nat, (j : Int) < (mm.objAllocPool t).objPerPage ∧
    (a : Int) = frameAddr p + j * (mm.objAllocPool t).objsize

/-- The invariant of a registered allocator. -/
structure TokenInv (mm : Mm) (c : Link → List Nat) (t : Nat) : Prop where
  /-- Objects fit a page, at least two to a page. -/
  size : ∃ n : Nat, 8 ≤ n ∧ n ≤ 2048 ∧ (mm.objAllocPool t).objsize = n ∧
    (mm.objAllocPool t).objPerPage = (4096 / n : Nat)
  /-- The pages that name this allocator are the ones it has. -/
  owned : ∀ p, p ∈ tokenPages mm c t ↔ (mm.bookkeep p).objAlloc = some t
  /-- Each of them is in one place. -/
  nodup : (tokenPages mm c t).Nodup
  /-- `page_used` counts them. -/
  pageUsed : (mm.objAllocPool t).pageUsed = (tokenPages mm c t).length
  /-- `obj_used` counts the objects on them. -/
  objUsed : (mm.objAllocPool t).objUsed
    = ((tokenPages mm c t).map (fun p => (mm.bookkeep p).objUsed)).sum
  curr : ∀ p, (mm.objAllocPool t).currPage = some p →
    (mm.bookkeep p).objUsed < (mm.objAllocPool t).objPerPage
  full : ∀ p ∈ c (.fullList t), (mm.bookkeep p).objUsed = (mm.objAllocPool t).objPerPage
  part : ∀ p ∈ c (.partialList t), 0 < (mm.bookkeep p).objUsed ∧
    (mm.bookkeep p).objUsed < (mm.objAllocPool t).objPerPage
  empty : ∀ p ∈ c (.emptyList t), (mm.bookkeep p).objUsed = 0

/-- The invariant of a page, where `xs` is the live allocations on it. -/
structure PageInv (mm : Mm) (p : Nat) (xs : List Live) : Prop where
  registered : ∀ t, (mm.bookkeep p).objAlloc = some t → mm.Registered t
  /-- The head of the free chain is an object of the page. -/
  chain : ∀ t a, (mm.bookkeep p).objAlloc = some t → (mm.bookkeep p).free = some a → ObjAddr mm t p a
  /-- On an allocator's page are that allocator's objects, and `obj_used` counts them. -/
  slab : ∀ t, (mm.bookkeep p).objAlloc = some t →
    (mm.bookkeep p).objUsed = xs.length ∧ ∀ e ∈ xs, e.owner = .slab t ∧ ObjAddr mm t p e.addr
  /-- On any other page is at most the block it heads. -/
  whole : (mm.bookkeep p).objAlloc = none →
    xs.length ≤ 1 ∧ ∀ e ∈ xs, (∃ k, e.owner = .buddy k) ∧ e.addr = frameAddr p

/-- The memory manager's invariant: `c` is what the lists hold, `live` what is handed out. -/
structure SlabInv (mm : Mm) (c : Link → List Nat) (live : List Live) : Prop where
  buddy : BuddyInv mm c (heldBlocks mm live)
  held : ∀ b ∈ heldBlocks mm live, Held mm b
  token : ∀ t, mm.Registered t → TokenInv mm c t
  page : ∀ p, p < pageFrameNum → PageInv mm p (onPage live p)
  /-- An allocator that is not registered has no page. -/
  blank : ∀ t, ¬ mm.Registered t → (mm.objAllocPool t).currPage = none
  /-- Past the frames there is nothing. -/
  outside : ∀ p, pageFrameNum ≤ p → (mm.bookkeep p).objAlloc = none ∧ onPage live p = []

variable {mm mm' mm'' : Mm} {c c' c'' : Link → List Nat} {live live' : List Live} {H : Set Block}
  {e : Live} {t p q a : Nat}

/-- Which list heads are in use is a matter of which allocators are registered. -/
theorem Mm.isHead_registered (h : ∀ u, mm'.Registered u ↔ mm.Registered u) : mm'.IsHead = mm.IsHead := by
  funext x
  cases x with
  | frame q => rfl
  | freelist k => rfl
  | fullList u => exact propext (h u)
  | partialList u => exact propext (h u)
  | emptyList u => exact propext (h u)

/-! ## Addresses -/

/-- An address inside a frame belongs to that frame. -/
theorem phyAddrToPfn_frameAddr (off : Nat) (hp : p < pageFrameNum) (ho : off < pageSize) :
    phyAddrToPfn (frameAddr p + off) = p := by
  unfold pageFrameNum at hp
  unfold pageSize at ho
  have hmod : (frameAddr p + off + (2 ^ 64 - lowMemory)) % 2 ^ 64 = p * 4096 + off := by
    simp only [frameAddr, lowMemory, pageSize]
    omega
  have hmask : (0x0000FFFFFFFFF000 : Nat) >>> 12 = 2 ^ 36 - 1 := by decide
  have hdiv : (p * 4096 + off) >>> 12 = p := by
    rw [Nat.shiftRight_eq_div_pow]
    omega
  rw [phyAddrToPfn, hmod, pageShift, Nat.shiftRight_and_distrib, hmask, hdiv,
    Nat.and_two_pow_sub_one_eq_mod]
  exact Nat.mod_eq_of_lt (by omega)

theorem phyAddrToPfn_frame (hp : p < pageFrameNum) : phyAddrToPfn (frameAddr p) = p :=
  phyAddrToPfn_frameAddr 0 hp (by decide)

theorem frameAddr_injective (h : frameAddr p = frameAddr q) : p = q := by
  simp only [frameAddr, pageSize] at h
  omega

/-- An object lies within its page, -/
theorem ObjAddr.within_size (h : ∃ n : Nat, 8 ≤ n ∧ n ≤ 2048 ∧ (mm.objAllocPool t).objsize = n ∧
    (mm.objAllocPool t).objPerPage = (4096 / n : Nat)) (ha : ObjAddr mm t p a) :
    ∃ n off : Nat, (mm.objAllocPool t).objsize = n ∧ off + n ≤ pageSize ∧ a = frameAddr p + off := by
  obtain ⟨n, hn8, hn, hsz, hper⟩ := h
  obtain ⟨j, hj, hja⟩ := ha
  rw [hper] at hj
  rw [hsz] at hja
  have hj' : j + 1 ≤ 4096 / n := by exact_mod_cast hj
  have hmul : (j + 1) * n ≤ 4096 := (Nat.mul_le_mul_right n hj').trans (Nat.div_mul_le_self 4096 n)
  refine ⟨n, j * n, hsz, ?_, by exact_mod_cast hja⟩
  rw [Nat.succ_mul] at hmul
  exact hmul

/-- so its address says which page that is. -/
theorem ObjAddr.pfn_size (h : ∃ n : Nat, 8 ≤ n ∧ n ≤ 2048 ∧ (mm.objAllocPool t).objsize = n ∧
    (mm.objAllocPool t).objPerPage = (4096 / n : Nat)) (hp : p < pageFrameNum) (ha : ObjAddr mm t p a) :
    phyAddrToPfn a = p := by
  obtain ⟨m, off, hm, hoff, rfl⟩ := ha.within_size h
  obtain ⟨n, hn8, _, hsz, _⟩ := h
  have : m = n := by
    rw [hsz] at hm
    exact (Int.ofNat_inj.mp hm).symm
  exact phyAddrToPfn_frameAddr off hp (by omega)

theorem ObjAddr.within (h : TokenInv mm c t) (ha : ObjAddr mm t p a) :
    ∃ n off : Nat, (mm.objAllocPool t).objsize = n ∧ off + n ≤ pageSize ∧ a = frameAddr p + off :=
  ha.within_size h.size

theorem ObjAddr.pfn (h : TokenInv mm c t) (hp : p < pageFrameNum) (ha : ObjAddr mm t p a) :
    phyAddrToPfn a = p := ha.pfn_size h.size hp

/-! ## What is live on a page -/

theorem mem_onPage : e ∈ onPage live p ↔ e ∈ live ∧ phyAddrToPfn e.addr = p := by
  simp [onPage, List.mem_filter]

theorem onPage_cons_self (h : phyAddrToPfn e.addr = p) : onPage (e :: live) p = e :: onPage live p := by
  simp [onPage, h]

theorem onPage_cons_ne (h : phyAddrToPfn e.addr ≠ p) : onPage (e :: live) p = onPage live p := by
  simp [onPage, h]

theorem onPage_perm (h : live.Perm live') (p : Nat) : (onPage live p).Perm (onPage live' p) :=
  h.filter _

theorem PageInv.perm {xs ys : List Live} (h : PageInv mm p xs) (hp : xs.Perm ys) : PageInv mm p ys where
  registered := h.registered
  chain := h.chain
  slab := by
    intro t ht
    obtain ⟨hu, he⟩ := h.slab t ht
    exact ⟨hp.length_eq ▸ hu, fun e hm => he e (hp.mem_iff.mpr hm)⟩
  whole := by
    intro hn
    obtain ⟨hu, he⟩ := h.whole hn
    exact ⟨hp.length_eq ▸ hu, fun e hm => he e (hp.mem_iff.mpr hm)⟩

/-- A page that is nobody's, with nothing on it. -/
theorem PageInv.blank (hp : (mm.bookkeep p).objAlloc = none) : PageInv mm p [] := by
  refine ⟨fun u hu => ?_, fun u a hu _ => ?_, fun u hu => ?_, fun _ => ⟨Nat.zero_le 1, by simp⟩⟩ <;>
    (rw [hp] at hu
     exact absurd hu (by simp))

/-- Where no page has an owner and nothing is live, no block is held. -/
theorem heldBlocks_nil (h : ∀ q, (mm.bookkeep q).objAlloc = none) : heldBlocks mm [] = ∅ := by
  ext b
  simp [heldBlocks, h]

theorem heldBlocks_perm (h : live.Perm live') : heldBlocks mm live = heldBlocks mm live' := by
  ext b
  simp only [heldBlocks, Set.mem_ofPred_eq, h.mem_iff]

/-- The order in which allocations were made does not matter. -/
theorem SlabInv.perm (h : SlabInv mm c live) (hp : live.Perm live') : SlabInv mm c live' where
  buddy := heldBlocks_perm hp ▸ h.buddy
  held := heldBlocks_perm hp ▸ h.held
  token := h.token
  page := fun p hpN => (h.page p hpN).perm (onPage_perm hp p)
  blank := h.blank
  outside := by
    intro p hpN
    obtain ⟨ho, hl⟩ := h.outside p hpN
    exact ⟨ho, List.perm_nil.mp (hl ▸ (onPage_perm hp p).symm)⟩

/-! ## What follows from the invariant -/

namespace SlabInv

theorem lt_of_owned (h : SlabInv mm c live) (ho : (mm.bookkeep p).objAlloc = some t) :
    p < pageFrameNum := by
  by_contra hn
  rw [(h.outside p (Nat.le_of_not_lt hn)).1] at ho
  exact absurd ho (by simp)

theorem registered (h : SlabInv mm c live) (ho : (mm.bookkeep p).objAlloc = some t) :
    mm.Registered t := (h.page p (h.lt_of_owned ho)).registered t ho

/-- Where a live allocation is, by who produced it. -/
theorem live_page (h : SlabInv mm c live) (he : e ∈ live) :
    phyAddrToPfn e.addr < pageFrameNum ∧ e ∈ onPage live (phyAddrToPfn e.addr) := by
  have hm : e ∈ onPage live (phyAddrToPfn e.addr) := mem_onPage.mpr ⟨he, rfl⟩
  refine ⟨?_, hm⟩
  by_contra hn
  rw [(h.outside _ (Nat.le_of_not_lt hn)).2] at hm
  exact absurd hm (by simp)

/-- **The page knows the producer.** -/
theorem objAlloc_slab (h : SlabInv mm c live) (he : e ∈ live) :
    (mm.bookkeep (phyAddrToPfn e.addr)).objAlloc = some t ↔ e.owner = .slab t := by
  obtain ⟨hp, hm⟩ := h.live_page he
  have hpg := h.page _ hp
  constructor
  · intro ho
    exact ((hpg.slab t ho).2 e hm).1
  · intro ho
    cases hoa : (mm.bookkeep (phyAddrToPfn e.addr)).objAlloc with
    | none =>
        obtain ⟨⟨k, hk⟩, _⟩ := (hpg.whole hoa).2 e hm
        rw [ho] at hk
        exact absurd hk (by simp)
    | some u =>
        have hu := ((hpg.slab u hoa).2 e hm).1
        rw [ho] at hu
        rw [Owner.slab.inj hu]

theorem objAlloc_buddy (h : SlabInv mm c live) (he : e ∈ live) {k : Nat} (ho : e.owner = .buddy k) :
    (mm.bookkeep (phyAddrToPfn e.addr)).objAlloc = none ∧
      e.addr = frameAddr (phyAddrToPfn e.addr) := by
  obtain ⟨hp, hm⟩ := h.live_page he
  cases hoa : (mm.bookkeep (phyAddrToPfn e.addr)).objAlloc with
  | none => exact ⟨rfl, (((h.page _ hp).whole hoa).2 e hm).2⟩
  | some t =>
      have ht := (((h.page _ hp).slab t hoa).2 e hm).1
      rw [ho] at ht
      exact absurd ht (by simp)

/-- The frames of a block in hand are nobody's pages, and nothing on its first one is live. -/
theorem fresh_page (h : SlabInv mm c live) {k : Nat}
    (hh : InHand mm' c' ⟨p, k⟩ (heldBlocks mm live)) :
    (mm.bookkeep p).objAlloc = none ∧ onPage live p = [] := by
  have hN : p < pageFrameNum := hh.inv.start_lt hh.mem
  have hno : ∀ j, (⟨p, j⟩ : Block) ∉ heldBlocks mm live := by
    intro j hj
    exact hh.start_ne hj (Block.covers_start ⟨p, k⟩) rfl
  have hoa : (mm.bookkeep p).objAlloc = none := by
    by_contra hne
    exact hno 0 (Or.inl ⟨rfl, hne⟩)
  refine ⟨hoa, List.eq_nil_iff_forall_not_mem.mpr (fun e he => ?_)⟩
  obtain ⟨⟨j, hj⟩, ha⟩ := ((h.page p hN).whole hoa).2 e he
  exact hno j (Or.inr ⟨e, (mem_onPage.mp he).1, hj, ha⟩)

end SlabInv

end OsdiKernel
