import OsdiKernel.Mm.State

/-!
# The buddy allocator

`page_init`, `free_area_init`, `buddy_block_alloc` and `buddy_block_free`, as
`mm.c` has them. Console output is left out: nothing reads it back.
-/

namespace OsdiKernel

/-- `FIND_BUDDY_PFN(pfn, order)` -/
def findBuddyPfn (pfn order : Nat) : Nat := pfn ^^^ (1 <<< order)

/-- `FIND_LBUDDY_PFN(pfn, order)`; the complement is that of a 32-bit `int`. -/
def findLbuddyPfn (pfn order : Nat) : Nat := pfn &&& ((2 ^ 32 - 1) ^^^ (1 <<< order))

/-- `page_init`: every iteration writes a page of its own. -/
def pageInit (mm : Mm) : Mm :=
  { mm with
    bookkeep := fun i =>
      if i < pageFrameNum then
        { mm.bookkeep i with
          pfn := i
          used := .free
          phyAddr := lowMemory + i * pageSize
          order := -1 }
      else mm.bookkeep i }

/-- `push_block_to_free_area` -/
def pushBlockToFreeArea (mm : Mm) (pushedBlock fa : Nat) (order : Int) : Except Fault Mm := do
  let mm ← mm.onLinks (listAddTail · (.frame pushedBlock) (.freelist fa))
  let mm := mm.updatePage pushedBlock (fun p => { p with order := order, used := .free })
  .ok { mm with nrFree := Function.update mm.nrFree fa (mm.nrFree fa + 1) }

/-- `pop_block_from_free_area` -/
def popBlockFromFreeArea (mm : Mm) (popedBlock fa : Nat) : Except Fault Mm := do
  let mm ← mm.onLinks (listDel · (.frame popedBlock))
  let mm := mm.updatePage popedBlock (fun p => { p with used := .taken })
  .ok { mm with nrFree := Function.update mm.nrFree fa (mm.nrFree fa - 1) }

/-- The heads `free_area_init` pushes: `i = 0; i < PAGE_FRMAME_NUM; i += MAX_ORDER_SIZE`. -/
def initialHeads : List Nat := List.range' 0 (pageFrameNum / maxOrderSize) maxOrderSize

/-- `free_area_init` -/
def freeAreaInit (mm : Mm) : Except Fault Mm :=
  let links := (List.range (maxOrder + 1)).foldl (fun l i => initListHead l (.freelist i)) mm.links
  initialHeads.foldlM (fun mm i => pushBlockToFreeArea mm i maxOrder maxOrder) { mm with links }

/-- The split loop of `buddy_block_alloc`, with `current_order = order + n`: give back
the upper half until the block is down to `order`. -/
def cutOffBottomHalf (mm : Mm) (targetBlock order : Nat) : Nat → Except Fault Mm
  | 0 => .ok mm
  | n + 1 => do
      let downwardOrder := order + n
      let buddyPfn := findBuddyPfn (mm.bookkeep targetBlock).pfn downwardOrder
      let mm ← pushBlockToFreeArea mm buddyPfn downwardOrder downwardOrder
      cutOffBottomHalf mm targetBlock order n

/-- The search loop of `buddy_block_alloc`, over the orders still to try. -/
def findTargetBlock (mm : Mm) (order : Nat) : List Nat → Except Fault (Option Nat × Mm)
  | [] => .ok (none, mm)
  | i :: rest =>
      if listEmpty mm.links (.freelist i) then findTargetBlock mm order rest
      else do
        let targetBlock ← Link.toPage (mm.links.next (.freelist i))
        let mm ← popBlockFromFreeArea mm targetBlock i
        let mm := mm.updatePage targetBlock (fun p => { p with order := order })
        let mm ← cutOffBottomHalf mm targetBlock order (i - order)
        .ok (some targetBlock, mm)

/-- `buddy_block_alloc`; `none` is the NULL it returns. -/
def buddyBlockAlloc (mm : Mm) (order : Int) : Except Fault (Option Nat × Mm) :=
  if order < 0 ∨ order > maxOrder then .ok (none, mm)
  else findTargetBlock mm order.toNat (List.range' order.toNat (maxOrder + 1 - order.toNat))

/--
The coalescing loop of `buddy_block_free`: the block it ends with.

Each turn raises the order of `block` by one and the loop stops at `MAX_ORDER`,
so `MAX_ORDER - block->order` turns are always enough (`coalesce_spec`).
-/
def coalesce : Nat → Mm → Nat → Except Fault (Nat × Mm)
  | 0, mm, block => .ok (block, mm)
  | fuel + 1, mm, block =>
      let order := (mm.bookkeep block).order
      let buddyPfn := findBuddyPfn (mm.bookkeep block).pfn order.toNat
      if order < maxOrder ∧ order = (mm.bookkeep buddyPfn).order ∧
          (mm.bookkeep buddyPfn).used = .free then do
        let mm ← popBlockFromFreeArea mm buddyPfn (mm.bookkeep buddyPfn).order.toNat
        let lbuddyPfn := findLbuddyPfn (mm.bookkeep block).pfn order.toNat
        coalesce fuel (mm.updatePage lbuddyPfn (fun p => { p with order := p.order + 1 })) lbuddyPfn
      else .ok (block, mm)

/-- `buddy_block_free` -/
def buddyBlockFree (mm : Mm) (block : Nat) : Except Fault Mm := do
  let (block, mm) ← coalesce (maxOrder - (mm.bookkeep block).order).toNat mm block
  pushBlockToFreeArea mm block (mm.bookkeep block).order.toNat (mm.bookkeep block).order

end OsdiKernel
