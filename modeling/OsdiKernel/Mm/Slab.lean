import OsdiKernel.Mm.Buddy

/-!
# The object allocators, and `kmalloc` over them

Each object allocator cuts pages into objects of one size. Pages with all their
objects in use wait on `full`, pages with some on `partial`, pages with none on
`empty`, and one page at a time, `curr_page`, is on no list and serves requests.

A page that has had an object freed keeps the address of the most recent one in
`free`, and each freed object keeps the address of the one freed before it.
`obj_allocate` reads the link out of the object it takes, but only into a local
variable: `free` itself is written by `obj_free` and nowhere else.
-/

namespace OsdiKernel

/-- `PHY_ADDR_TO_PFN(addr)`, in `unsigned long`. -/
def phyAddrToPfn (addr : Nat) : Nat :=
  ((addr + (2 ^ 64 - lowMemory)) % 2 ^ 64 &&& 0x0000FFFFFFFFF000) >>> pageShift

/-- `__init_obj_alloc` -/
def initObjAlloc (mm : Mm) (token : Nat) (objsize : Int) : Mm :=
  let links := initListHead mm.links (.fullList token)
  let links := initListHead links (.partialList token)
  let links := initListHead links (.emptyList token)
  { mm with links }.updatePool token (fun _ =>
    { currPage := none
      objsize := objsize
      objPerPage := pageSize / objsize
      objUsed := 0
      pageUsed := 0 })

/-- `__init_obj_page` -/
def initObjPage (mm : Mm) (page : Nat) : Mm :=
  mm.updatePage page (fun p => { p with objUsed := 0, objAlloc := none, free := none })

/-- `register_obj_allocator`: the token, or -1 when the pool is full. -/
def registerObjAllocator (mm : Mm) (objsize : Int) : Int × Mm :=
  let objsize := if objsize < minAllocatedObjSize then minAllocatedObjSize else objsize
  let objsize := if objsize > maxAllocatedObjSize then maxAllocatedObjSize else objsize
  match (List.range maxObjAllocatorNum).find? (fun token => (mm.objAllocPool token).objsize = 0) with
  | some token => (token, initObjAlloc mm token objsize)
  | none => (-1, mm)

/-- Take the first page off a list: `page_p = list.next; list_del(&page_p->list)`. -/
def takeFirst (mm : Mm) (list : Link) : Except Fault (Nat × Mm) := do
  let page ← Link.toPage (mm.links.next list)
  let mm ← mm.onLinks (listDel · (.frame page))
  .ok (page, mm)

/-- Demand a new page from the buddy allocator. The result is used unchecked. -/
def demandPage (mm : Mm) (token : Nat) : Except Fault (Nat × Mm) := do
  let (block, mm) ← buddyBlockAlloc mm 0
  match block with
  | none => .error .nullDeref
  | some page =>
      let mm := initObjPage mm page
      let mm := mm.updatePage page (fun p => { p with objAlloc := some token })
      .ok (page, mm.updatePool token (fun a => { a with pageUsed := a.pageUsed + 1 }))

/-- The first half of `obj_allocate`: make sure there is a `curr_page`. -/
def refillCurrPage (mm : Mm) (token : Nat) : Except Fault Mm :=
  match (mm.objAllocPool token).currPage with
  | some _ => .ok mm
  | none => do
      let (page, mm) ←
        if !listEmpty mm.links (.partialList token) then takeFirst mm (.partialList token)
        else if !listEmpty mm.links (.emptyList token) then takeFirst mm (.emptyList token)
        else demandPage mm token
      .ok (mm.updatePool token (fun a => { a with currPage := some page }))

/-- The second half of `obj_allocate`: take an object of `curr_page`. -/
def takeObject (mm : Mm) (token : Nat) : Except Fault (Nat × Mm) :=
  match (mm.objAllocPool token).currPage with
  | none => .error .nullDeref
  | some page =>
      let allocatedAddr :=
        match (mm.bookkeep page).free with
        -- `obj_freelist = obj_freelist->next` moves the local pointer on, and is lost
        | some objFreelist => objFreelist
        | none =>
            ((mm.bookkeep page).phyAddr
              + (mm.bookkeep page).objUsed * (mm.objAllocPool token).objsize).toNat
      let mm := mm.updatePool token (fun a => { a with objUsed := a.objUsed + 1 })
      let mm := mm.updatePage page (fun p => { p with objUsed := p.objUsed + 1 })
      if (mm.objAllocPool token).objPerPage = (mm.bookkeep page).objUsed then do
        let mm ← mm.onLinks (listAddTail · (.frame page) (.fullList token))
        .ok (allocatedAddr, mm.updatePool token (fun a => { a with currPage := none }))
      else .ok (allocatedAddr, mm)

/-- `obj_allocate` -/
def objAllocate (mm : Mm) (token : Int) : Except Fault (Option Nat × Mm) :=
  if token < 0 ∨ token ≥ maxObjAllocatorNum then .ok (none, mm)
  else do
    let mm ← refillCurrPage mm token.toNat
    let (addr, mm) ← takeObject mm token.toNat
    .ok (some addr, mm)

/-- From full to partial. -/
def fullToPartial (mm : Mm) (page token : Nat) : Except Fault Mm :=
  if (mm.objAllocPool token).objPerPage - 1 = (mm.bookkeep page).objUsed then do
    let mm ← mm.onLinks (listDel · (.frame page))
    mm.onLinks (listAddTail · (.frame page) (.partialList token))
  else .ok mm

/-- From partial to empty, or back to the buddy allocator. -/
def partialToEmpty (mm : Mm) (page token : Nat) : Except Fault Mm :=
  if (mm.bookkeep page).objUsed = 0 ∧ (mm.objAllocPool token).currPage ≠ some page then do
    let mm ← mm.onLinks (listDel · (.frame page))
    if (mm.objAllocPool token).pageUsed ≥ 10 then
      let mm := mm.updatePool token (fun a => { a with pageUsed := a.pageUsed - 1 })
      let mm := mm.updatePage page (fun p => { p with free := none, objAlloc := none, objUsed := 0 })
      buddyBlockFree mm page
    else mm.onLinks (listAddTail · (.frame page) (.emptyList token))
  else .ok mm

/-- `obj_free` -/
def objFree (mm : Mm) (objAddr : Nat) : Except Fault Mm :=
  let page := phyAddrToPfn objAddr
  let temp := (mm.bookkeep page).free
  let objAllocator := (mm.bookkeep page).objAlloc
  let mm := mm.updatePage page (fun p => { p with free := some objAddr })
  let mm := { mm with objNext := Function.update mm.objNext objAddr temp }
  match objAllocator with
  | none => .error .nullDeref
  | some token => do
      let mm := mm.updatePool token (fun a => { a with objUsed := a.objUsed - 1 })
      let mm := mm.updatePage page (fun p => { p with objUsed := p.objUsed - 1 })
      let mm ← fullToPartial mm page token
      partialToEmpty mm page token

/-- `__init_kmalloc` -/
def initKmalloc (mm : Mm) : Mm :=
  (List.range' minKmallocOrder (maxKmallocOrder + 1 - minKmallocOrder)).foldl
    (fun mm i => (registerObjAllocator mm (2 ^ i)).2) mm

/-- The allocator class `kmalloc` picks: the first `i` with `size <= 1 << i`. -/
def kmallocClass (size : Int) : Option Nat :=
  (List.range' minKmallocOrder (maxKmallocOrder + 1 - minKmallocOrder)).find? (fun i => size ≤ 2 ^ i)

/-- The buddy order `kmalloc` picks past the classes: the first `i` with `size <= 1 << (i + PAGE_SHIFT)`. -/
def kmallocOrder (size : Int) : Option Nat :=
  (List.range (maxOrder + 1)).find? (fun i => size ≤ 2 ^ (i + pageShift))

/-- `kmalloc` -/
def kmalloc (mm : Mm) (size : Int) : Except Fault (Option Nat × Mm) :=
  match kmallocClass size with
  | some i => objAllocate mm (i - minKmallocOrder : Nat)
  | none =>
      match kmallocOrder size with
      | some i => do
          let (block, mm) ← buddyBlockAlloc mm i
          match block with
          -- `buddy_block_alloc(i)->phy_addr`, unchecked
          | none => .error .nullDeref
          | some page => .ok (some (mm.bookkeep page).phyAddr, mm)
      | none => .ok (none, mm)

/-- `kfree` -/
def kfree (mm : Mm) (addr : Nat) : Except Fault Mm :=
  let pfn := phyAddrToPfn addr
  match (mm.bookkeep pfn).objAlloc with
  | some _ => objFree mm addr
  | none => buddyBlockFree mm pfn

/-- `mm_init` -/
def mmInit (mm : Mm) : Except Fault Mm := do
  let mm ← freeAreaInit (pageInit mm)
  .ok (initKmalloc mm)

end OsdiKernel
