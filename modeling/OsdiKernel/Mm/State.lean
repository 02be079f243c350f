import Mathlib.Data.List.Nodup
import OsdiKernel.Lib.Blocks
import OsdiKernel.ListHead

/-!
# The memory manager's data

The globals of `mm.c`: `bookkeep`, `free_area`, `obj_alloc_pool`, and the list
nodes embedded in them. A `struct page *` is the index of the page in
`bookkeep`, an `obj_allocator_t *` its index in `obj_alloc_pool`, and a
`struct list_head *` says which object the node is embedded in; `none` is NULL
throughout. `list` is the first member of `struct page`, so the code casts
between the two freely, and so does `Link.toPage`.
-/

namespace OsdiKernel

/-- `PAGE_SHIFT` -/
def pageShift : Nat := 12

/-- `PAGE_SIZE` -/
def pageSize : Nat := 4096

/-- `PAGE_FRMAME_NUM` -/
def pageFrameNum : Nat := 4096

/-- `MAX_ORDER` -/
def maxOrder : Nat := 9

/-- `MAX_ORDER_SIZE` -/
def maxOrderSize : Nat := 512

/-- `LOW_MEMORY`: where page frame 0 begins. -/
def lowMemory : Nat := 0x200000

/-- `MAX_OBJ_ALLOCTOR_NUM` -/
def maxObjAllocatorNum : Nat := 16

/-- `MIN_ALLOCATAED_OBJ_SIZE` -/
def minAllocatedObjSize : Int := 8

/-- `MAX_ALLOCATAED_OBJ_SIZE` -/
def maxAllocatedObjSize : Int := 2048

/-- `MIN_KMALLOC_ORDER` -/
def minKmallocOrder : Nat := 3

/-- `MAX_KMALLOC_ORDER` -/
def maxKmallocOrder : Nat := 11

/-- Where a list node is embedded. -/
inductive Link where
  /-- `&bookkeep[pfn].list` -/
  | frame (pfn : Nat)
  /-- `&free_area[order].freelist` -/
  | freelist (order : Nat)
  /-- `&obj_alloc_pool[token].full` -/
  | fullList (token : Nat)
  /-- `&obj_alloc_pool[token].partial` -/
  | partialList (token : Nat)
  /-- `&obj_alloc_pool[token].empty` -/
  | emptyList (token : Nat)
  deriving DecidableEq, Repr

/-- The cast `(struct page *) list`, and the first access through it. -/
def Link.toPage : Option Link → Except Fault Nat
  | some (.frame pfn) => .ok pfn
  | some _ => .error .badCast
  | none => .error .nullDeref

/-- `enum booking_status` -/
inductive BookingStatus where
  | free
  | taken
  deriving DecidableEq, Repr

/-- `struct page` -/
structure Page where
  order : Int
  pfn : Nat
  used : BookingStatus
  phyAddr : Nat
  objUsed : Int
  /-- The allocator the page belongs to. -/
  objAlloc : Option Nat
  /-- The address of the first free object. -/
  free : Option Nat
  deriving DecidableEq, Repr

/-- `struct object_allocator`, less its three list heads, which live in `links`. -/
structure ObjAllocator where
  currPage : Option Nat
  objsize : Int
  objPerPage : Int
  objUsed : Int
  pageUsed : Int
  deriving DecidableEq, Repr

/-- The memory manager's globals, and the first word of every freed object. -/
structure Mm where
  bookkeep : Nat → Page
  /-- `free_area[k].nr_free` -/
  nrFree : Nat → Int
  objAllocPool : Nat → ObjAllocator
  links : Links Link
  /-- `((struct list_head *) addr)->next`, threaded through freed objects. -/
  objNext : Nat → Option Nat

/-- What `clear_bss` leaves. -/
def Mm.bss : Mm where
  bookkeep := fun _ => ⟨0, 0, .free, 0, 0, none, none⟩
  nrFree := fun _ => 0
  objAllocPool := fun _ => ⟨none, 0, 0, 0, 0⟩
  links := ⟨fun _ => none, fun _ => none⟩
  objNext := fun _ => none

namespace Mm

/-- Write through a `struct page *`. -/
def updatePage (mm : Mm) (pfn : Nat) (f : Page → Page) : Mm :=
  { mm with bookkeep := Function.update mm.bookkeep pfn (f (mm.bookkeep pfn)) }

/-- Write through an `obj_allocator_t *`. -/
def updatePool (mm : Mm) (token : Nat) (f : ObjAllocator → ObjAllocator) : Mm :=
  { mm with objAllocPool := Function.update mm.objAllocPool token (f (mm.objAllocPool token)) }

/-- Apply a `list.h` operation to the list nodes. -/
def onLinks (mm : Mm) (f : Links Link → Except Fault (Links Link)) : Except Fault Mm :=
  f mm.links >>= fun links => .ok { mm with links := links }

section Access

variable (mm : Mm) (p q t u : Nat) (f : Page → Page) (g : ObjAllocator → ObjAllocator)

@[simp] theorem updatePage_links : (mm.updatePage p f).links = mm.links := rfl
@[simp] theorem updatePage_nrFree : (mm.updatePage p f).nrFree = mm.nrFree := rfl
@[simp] theorem updatePage_pool : (mm.updatePage p f).objAllocPool = mm.objAllocPool := rfl
@[simp] theorem updatePage_objNext : (mm.updatePage p f).objNext = mm.objNext := rfl

@[simp] theorem updatePage_self : (mm.updatePage p f).bookkeep p = f (mm.bookkeep p) :=
  Function.update_self ..

theorem updatePage_ne (h : q ≠ p) : (mm.updatePage p f).bookkeep q = mm.bookkeep q :=
  Function.update_of_ne h ..

@[simp] theorem updatePool_links : (mm.updatePool t g).links = mm.links := rfl
@[simp] theorem updatePool_nrFree : (mm.updatePool t g).nrFree = mm.nrFree := rfl
@[simp] theorem updatePool_bookkeep : (mm.updatePool t g).bookkeep = mm.bookkeep := rfl
@[simp] theorem updatePool_objNext : (mm.updatePool t g).objNext = mm.objNext := rfl

@[simp] theorem updatePool_self : (mm.updatePool t g).objAllocPool t = g (mm.objAllocPool t) :=
  Function.update_self ..

theorem updatePool_ne (h : u ≠ t) : (mm.updatePool t g).objAllocPool u = mm.objAllocPool u :=
  Function.update_of_ne h ..

end Access

/-- The list heads that have been initialised: the ten free lists always, an
allocator's three once it is registered. -/
def IsHead (mm : Mm) : Link → Prop
  | .frame _ => False
  | .freelist k => k ≤ maxOrder
  | .fullList t | .partialList t | .emptyList t =>
      t < maxObjAllocatorNum ∧ (mm.objAllocPool t).objsize ≠ 0

end Mm

/-! ## Lists of pages -/

/-- Every list in the memory manager is a list of pages: `c h` is the pages on
the list at `h`. A list head that is not in use has never been written. -/
structure PageLists (l : Links Link) (hd : Link → Prop) (c : Link → List Nat) : Prop where
  rings : Rings l hd (fun h => (c h).map Link.frame)
  idle : ∀ h, (∀ p, h ≠ .frame p) → ¬ hd h → l.next h = none ∧ c h = []

namespace PageLists

variable {l : Links Link} {hd : Link → Prop} {c : Link → List Nat} {h : Link} {p : Nat}

theorem frame_injective : Function.Injective Link.frame := fun _ _ h => Link.frame.inj h

theorem mem_frame {xs : List Nat} : Link.frame p ∈ xs.map Link.frame ↔ p ∈ xs :=
  List.mem_map_of_injective frame_injective

theorem update_map (v : List Nat) :
    (fun h' => ((Function.update c h v) h').map Link.frame)
      = Function.update (fun h' => (c h').map Link.frame) h (v.map Link.frame) := by
  funext h'
  by_cases he : h' = h
  · subst he; simp
  · simp [Function.update_of_ne he]

theorem loose_frame (hp : ¬ hd (.frame p)) (hn : ∀ h, hd h → p ∉ c h) :
    Loose hd (fun h => (c h).map Link.frame) (.frame p) :=
  ⟨hp, fun h hh hm => hn h hh (mem_frame.mp hm)⟩

/-- A list head that is not in use is on no list: the lists are of pages. -/
theorem loose_idle (hf : ∀ p, h ≠ .frame p) (hh : ¬ hd h) :
    Loose hd (fun h => (c h).map Link.frame) h := by
  refine ⟨hh, fun h' _ hm => ?_⟩
  obtain ⟨q, _, hq⟩ := List.mem_map.mp hm
  exact hf q hq.symm

/-- What an edit of one list in use leaves of the others. -/
theorem idle_edit (hr : PageLists l hd c) (hh : hd h) {l' : Links Link} {xs : List Nat}
    (hl : ∀ x, (∀ q, x ≠ .frame q) → ¬ hd x → l'.next x = l.next x) :
    ∀ x, (∀ q, x ≠ .frame q) → ¬ hd x → l'.next x = none ∧ Function.update c h xs x = [] := by
  intro x hx hn
  have hxh : x ≠ h := fun he => hn (he ▸ hh)
  rw [hl x hx hn, Function.update_of_ne hxh]
  exact hr.idle x hx hn

theorem nodup (hr : PageLists l hd c) (hh : hd h) : (c h).Nodup :=
  List.Nodup.of_map Link.frame (List.nodup_cons.mp (hr.rings.ring h hh).nodup).2

theorem apart (hr : PageLists l hd c) {g : Link} (hh : hd h) (hg : hd g) (hp : p ∈ c h)
    (hp' : p ∈ c g) : h = g :=
  Rings.apart hr.rings h g hh hg (.frame p) (mem_frame.mpr hp) (mem_frame.mpr hp')

theorem listEmpty_iff (hr : PageLists l hd c) (hh : hd h) : listEmpty l h = true ↔ c h = [] := by
  rw [OsdiKernel.listEmpty_iff hr.rings hh, List.map_eq_nil_iff]

theorem next_head (hr : PageLists l hd c) (hh : hd h) {xs : List Nat} (hc : c h = p :: xs) :
    l.next h = some (.frame p) := by
  have hc' : (c h).map Link.frame = .frame p :: xs.map .frame := by rw [hc, List.map_cons]
  exact OsdiKernel.next_head hr.rings hh hc'

theorem listAddTail_spec (hr : PageLists l hd c) (hh : hd h) (hp : ¬ hd (.frame p))
    (hn : ∀ h, hd h → p ∉ c h) :
    ∃ l', listAddTail l (.frame p) h = .ok l' ∧
      PageLists l' hd (Function.update c h (c h ++ [p])) := by
  obtain ⟨l', hl, hr', hx⟩ := OsdiKernel.listAddTail_spec hr.rings hh (loose_frame hp hn)
  refine ⟨l', hl, ?_, hr.idle_edit hh (fun x hf hd => hx x (loose_idle hf hd) (hf p))⟩
  rw [update_map, List.map_append, List.map_cons, List.map_nil]
  exact hr'

theorem listDel_spec (hr : PageLists l hd c) (hh : hd h) (hp : p ∈ c h) :
    ∃ l', listDel l (.frame p) = .ok l' ∧
      PageLists l' hd (Function.update c h ((c h).erase p)) := by
  obtain ⟨l', hl, hr', hx⟩ := OsdiKernel.listDel_spec hr.rings hh (mem_frame.mpr hp)
  refine ⟨l', hl, ?_, hr.idle_edit hh (fun x hf hd => hx x (loose_idle hf hd))⟩
  rw [update_map, List.map_erase frame_injective]
  exact hr'

/-- `INIT_LIST_HEAD` on a head that was not in use. -/
theorem initListHead_spec (hr : PageLists l hd c) (hf : ∀ p, h ≠ .frame p) (hh : ¬ hd h) :
    PageLists (initListHead l h) (fun x => x = h ∨ hd x) c := by
  have hc : (fun x => (c x).map Link.frame)
      = Function.update (fun x => (c x).map Link.frame) h [] := by
    rw [← List.map_nil, ← update_map, ← (hr.idle h hf hh).2, Function.update_eq_self]
  refine ⟨?_, fun x hx hn => ?_⟩
  · rw [hc]
    exact hr.rings.selfLoop (loose_idle hf hh)
  · simp only [not_or] at hn
    have hnext : (initListHead l h).next x = l.next x := Function.update_of_ne hn.1 _ _
    rw [hnext]
    exact hr.idle x hx hn.2

end PageLists

end OsdiKernel
