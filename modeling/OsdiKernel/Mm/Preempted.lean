import OsdiKernel.Lib.System
import OsdiKernel.Lib.Threads
import OsdiKernel.Mm.MmSystem

/-!
# `sys_malloc` with interrupts on

`kmalloc` is one step in `Slab`. A system call runs with interrupts on, and
`sys_malloc` does not raise `preempt_count`, so any number of tasks can be inside
`obj_allocate` at once. Here it is taken apart into its statements, and
`task_preemption` may come between any two of them.

A statement is one step: a function that it calls is part of it, and so is the
test of an `if` that only looks at a local variable.
-/

namespace OsdiKernel

/-- The statement a task's `sys_malloc` comes to next; `t` is the token. -/
inductive MallocPc where
  | idle
  /-- `if (obj_allocator_p->curr_page == NULL)` -/
  | testCurr (t : Nat)
  /-- `if (!list_empty(&obj_allocator_p->partial))` -/
  | testPartial (t : Nat)
  /-- `else if (!list_empty(&obj_allocator_p->empty))` -/
  | testEmpty (t : Nat)
  /-- `page_p = (page_t *) list.next` -/
  | firstOf (t : Nat) (list : Link)
  /-- `list_del(&page_p->list)` -/
  | unlink (t page : Nat)
  /-- `page_p = buddy_block_alloc(0)` -/
  | demand (t : Nat)
  /-- `__init_obj_page(page_p)` -/
  | initPage (t page : Nat)
  /-- `page_p->obj_alloc = obj_allocator_p` -/
  | setObjAlloc (t page : Nat)
  /-- `obj_allocator_p->page_used += 1` -/
  | countPage (t page : Nat)
  /-- `obj_allocator_p->curr_page = page_p` -/
  | setCurr (t page : Nat)
  /-- `obj_freelist = obj_allocator_p->curr_page->free`, and which way it goes from there -/
  | readFree (t : Nat)
  /-- `allocated_addr = curr_page->phy_addr + curr_page->obj_used * objsize` -/
  | readAddr (t : Nat)
  /-- `obj_allocator_p->obj_used += 1`, with `allocated_addr` -/
  | countObj (t addr : Nat)
  /-- `obj_allocator_p->curr_page->obj_used += 1` -/
  | countOnPage (t addr : Nat)
  /-- `if (obj_allocator_p->obj_per_page == obj_allocator_p->curr_page->obj_used)` -/
  | testFull (t addr : Nat)
  /-- `list_add_tail(&obj_allocator_p->curr_page->list, &obj_allocator_p->full)` -/
  | putOnFull (t addr : Nat)
  /-- `obj_allocator_p->curr_page = NULL`; the page put on the list is remembered for the reader -/
  | clearCurr (t addr page : Nat)
  /-- in `kmalloc`: `buddy_block_alloc(i)->phy_addr` -/
  | block (order : Nat)
  /-- `return allocated_addr` -/
  | ret (owner : Owner) (addr : Nat)
  deriving DecidableEq, Repr

/-- The address a call will return. -/
def MallocPc.addr : MallocPc → Option Nat
  | .countObj _ a | .countOnPage _ a | .testFull _ a | .putOnFull _ a | .clearCurr _ a _ | .ret _ a => some a
  | _ => none

/-- `obj_allocator_p->curr_page`, by a statement that dereferences it. -/
def currPageOf (mm : Mm) (t : Nat) : Except Fault Nat :=
  match (mm.objAllocPool t).currPage with
  | some page => .ok page
  | none => .error .nullDeref

/-- One statement. -/
def mallocStatement (mm : Mm) : MallocPc → Except Fault (Mm × MallocPc)
  | .idle => .ok (mm, .idle)
  | .testCurr t => .ok (mm, if (mm.objAllocPool t).currPage = none then .testPartial t else .readFree t)
  | .testPartial t => .ok (mm, if !listEmpty mm.links (.partialList t) then .firstOf t (.partialList t) else .testEmpty t)
  | .testEmpty t => .ok (mm, if !listEmpty mm.links (.emptyList t) then .firstOf t (.emptyList t) else .demand t)
  | .firstOf t list => do
      let page ← Link.toPage (mm.links.next list)
      .ok (mm, .unlink t page)
  | .unlink t page => do
      let mm ← mm.onLinks (listDel · (.frame page))
      .ok (mm, .setCurr t page)
  | .demand t => do
      let (block, mm) ← buddyBlockAlloc mm 0
      match block with
      -- the next statement is `__init_obj_page(NULL)`
      | none => .error .nullDeref
      | some page => .ok (mm, .initPage t page)
  | .initPage t page => .ok (initObjPage mm page, .setObjAlloc t page)
  | .setObjAlloc t page => .ok (mm.updatePage page (fun p => { p with objAlloc := some t }), .countPage t page)
  | .countPage t page => .ok (mm.updatePool t (fun a => { a with pageUsed := a.pageUsed + 1 }), .setCurr t page)
  | .setCurr t page => .ok (mm.updatePool t (fun a => { a with currPage := some page }), .readFree t)
  | .readFree t => do
      let page ← currPageOf mm t
      match (mm.bookkeep page).free with
      -- `allocated_addr = obj_freelist`; what becomes of `obj_freelist` is lost
      | some objFreelist => .ok (mm, .countObj t objFreelist)
      | none => .ok (mm, .readAddr t)
  | .readAddr t => do
      let page ← currPageOf mm t
      .ok (mm, .countObj t ((mm.bookkeep page).phyAddr
        + (mm.bookkeep page).objUsed * (mm.objAllocPool t).objsize).toNat)
  | .countObj t addr => .ok (mm.updatePool t (fun a => { a with objUsed := a.objUsed + 1 }), .countOnPage t addr)
  | .countOnPage t addr => do
      let page ← currPageOf mm t
      .ok (mm.updatePage page (fun p => { p with objUsed := p.objUsed + 1 }), .testFull t addr)
  | .testFull t addr => do
      let page ← currPageOf mm t
      .ok (mm, if (mm.objAllocPool t).objPerPage = (mm.bookkeep page).objUsed then .putOnFull t addr
        else .ret (.slab t) addr)
  | .putOnFull t addr => do
      let page ← currPageOf mm t
      let mm ← mm.onLinks (listAddTail · (.frame page) (.fullList t))
      .ok (mm, .clearCurr t addr page)
  | .clearCurr t addr _ => .ok (mm.updatePool t (fun a => { a with currPage := none }), .ret (.slab t) addr)
  | .block order => do
      let (block, mm) ← buddyBlockAlloc mm order
      match block with
      | none => .error .nullDeref
      | some page => .ok (mm, .ret (.buddy order) (mm.bookkeep page).phyAddr)
  -- the caller records it (`mallocSystem`)
  | .ret _ _ => .ok (mm, .idle)

/-- Where `kmalloc(size)` begins: with an object, a block, or nothing but `NULL`. -/
def mallocEntry (size : Int) : MallocPc :=
  match kmallocClass size with
  | some i => .testCurr (i - minKmallocOrder)
  | none =>
      match kmallocOrder size with
      | some i => .block i
      | none => .idle

/-- A call's next `n` statements, with nothing in between, or those up to its return. -/
def mallocStatements : Nat → Mm → MallocPc → Except Fault (Mm × MallocPc)
  | 0, mm, pc => .ok (mm, pc)
  | _ + 1, mm, .ret owner addr => .ok (mm, .ret owner addr)
  | n + 1, mm, pc => do
      let (mm, pc) ← mallocStatement mm pc
      mallocStatements n mm pc

/-- Tasks that call `sys_malloc`, and what they have been given, the last first. -/
structure MallocTasks (ι : Type) where
  mm : Mm
  pc : ι → MallocPc
  preemptCount : ι → Int
  current : ι
  returned : List (Owner × Nat)

/-- What can happen next. -/
inductive MallocStep (ι : Type) where
  /-- the current task calls `sys_malloc` -/
  | call (size : Int)
  /-- the current task's next statement -/
  | run
  /-- a timer interrupt, and `task_preemption` chooses -/
  | preempt (next : ι)

variable {ι : Type} [DecidableEq ι]

/-- There is memory for the next statement. -/
def hasMemory (mm : Mm) : MallocPc → Bool
  | .demand _ => hasFree mm 0
  | .block order => hasFree mm order
  | _ => true

/-- The tasks' steps. Nobody frees, and memory is not exhausted. -/
def mallocSystem (ι : Type) [DecidableEq ι] : System (MallocTasks ι) (MallocStep ι) Fault where
  legal := fun s step =>
    match step with
    | .call _ => s.pc s.current = .idle
    | .run => s.pc s.current ≠ .idle ∧ hasMemory s.mm (s.pc s.current) = true
    | .preempt _ => ¬ s.preemptCount s.current > 0
  exec := fun s step =>
    match step with
    | .call size => .ok { s with pc := Function.update s.pc s.current (mallocEntry size) }
    | .run => do
        let (mm, pc) ← mallocStatement s.mm (s.pc s.current)
        let returned :=
          match s.pc s.current with
          | .ret owner addr => (owner, addr) :: s.returned
          | _ => s.returned
        .ok { s with mm, pc := Function.update s.pc s.current pc, returned }
    | .preempt next => .ok { s with current := next }

instance (s : MallocTasks ι) : (step : MallocStep ι) → Decidable ((mallocSystem ι).legal s step)
  | .call _ => inferInstanceAs (Decidable (s.pc s.current = .idle))
  | .run => inferInstanceAs (Decidable (s.pc s.current ≠ .idle ∧ hasMemory s.mm (s.pc s.current) = true))
  | .preempt _ => inferInstanceAs (Decidable (¬ s.preemptCount s.current > 0))

/-- After `mm_init`, and before the first call. -/
structure MallocStart (s : MallocTasks ι) : Prop where
  mm : mmInit Mm.bss = .ok s.mm
  pc : ∀ i, s.pc i = .idle
  returned : s.returned = []

/-- The run of a list of steps from boot, with the task `first` running. -/
def mallocRun (S : System (MallocTasks ι) (MallocStep ι) Fault) [∀ s step, Decidable (S.legal s step)] (first : ι)
    (steps : List (MallocStep ι)) : Option (MallocTasks ι) :=
  match mmInit Mm.bss with
  | .error _ => none
  | .ok mm => S.run ⟨mm, fun _ => .idle, fun _ => 0, first, []⟩ steps

omit [DecidableEq ι] in
/-- It starts as it should, and gets where steps lead. -/
theorem mallocReach_of_run {S : System (MallocTasks ι) (MallocStep ι) Fault} [∀ s step, Decidable (S.legal s step)] {first : ι}
    {steps : List (MallocStep ι)} {s : MallocTasks ι} (h : mallocRun S first steps = some s) :
    ∃ s₀, MallocStart s₀ ∧ S.Reach s₀ s := by
  cases h₀ : mmInit Mm.bss with
  | error e => simp [mallocRun, h₀] at h
  | ok mm =>
      simp only [mallocRun, h₀] at h
      exact ⟨_, ⟨h₀, fun _ => rfl, rfl⟩, System.Reach.of_run .init h⟩

/-! ## What goes wrong, and when -/

/-- An address of the allocator has been computed here that is not counted on a page yet. -/
def MallocPc.uncounted (t : Nat) : MallocPc → Bool
  | .countObj u _ => u = t
  | .countOnPage u _ => u = t
  | _ => false

/-- The page at this point is on the full list, and `curr_page` still points to it, if to the page `q`. -/
def MallocPc.putAway (t q : Nat) : MallocPc → Bool
  | .clearCurr u _ p => u = t ∧ p = q
  | _ => false

/--
The statement finds the allocator as it should be. It may dereference `curr_page`;
when it computes an address, no other call has computed one that it has not counted
yet, and the page is not full; and when it puts the page on the full list, no other
call has done so before it.
-/
def CleanStatement (s : MallocTasks ι) : MallocPc → Prop
  | .readFree t => (s.mm.objAllocPool t).currPage ≠ none
  | .readAddr t =>
      (∀ j, (s.pc j).uncounted t = false) ∧
      ∃ p, (s.mm.objAllocPool t).currPage = some p ∧ (s.mm.bookkeep p).objUsed < (s.mm.objAllocPool t).objPerPage
  | .countOnPage t _ => (s.mm.objAllocPool t).currPage ≠ none
  | .testFull t _ => (s.mm.objAllocPool t).currPage ≠ none
  | .putOnFull t _ => ∃ p, (s.mm.objAllocPool t).currPage = some p ∧ ∀ j, (s.pc j).putAway t p = false
  | _ => True

/-- Calls, interrupts, and statements that find the allocator as it should be. -/
def CleanStep (s : MallocTasks ι) : MallocStep ι → Prop
  | .run => CleanStatement s (s.pc s.current)
  | _ => True

instance [Fintype ι] (s : MallocTasks ι) : (x : MallocPc) → Decidable (CleanStatement s x)
  | .readFree t | .countOnPage t _ | .testFull t _ => inferInstanceAs (Decidable ((s.mm.objAllocPool t).currPage ≠ none))
  | .readAddr t => inferInstanceAs (Decidable ((∀ j, (s.pc j).uncounted t = false) ∧
      ∃ p, p ∈ (s.mm.objAllocPool t).currPage ∧ (s.mm.bookkeep p).objUsed < (s.mm.objAllocPool t).objPerPage))
  | .putOnFull t _ => inferInstanceAs (Decidable (∃ p, p ∈ (s.mm.objAllocPool t).currPage ∧ ∀ j, (s.pc j).putAway t p = false))
  | .idle | .testCurr _ | .testPartial _ | .testEmpty _ | .firstOf _ _ | .unlink _ _ | .demand _ | .initPage _ _
  | .setObjAlloc _ _ | .countPage _ _ | .setCurr _ _ | .countObj _ _ | .clearCurr _ _ _ | .block _ | .ret _ _ =>
      inferInstanceAs (Decidable True)

instance [Fintype ι] (s : MallocTasks ι) : (step : MallocStep ι) → Decidable (CleanStep s step)
  | .run => inferInstanceAs (Decidable (CleanStatement s (s.pc s.current)))
  | .call _ | .preempt _ => inferInstanceAs (Decidable True)

/-- Runs whose steps are all clean. -/
def cleanSystem (ι : Type) [DecidableEq ι] : System (MallocTasks ι) (MallocStep ι) Fault :=
  (mallocSystem ι).restrict CleanStep

instance [Fintype ι] (s : MallocTasks ι) (step : MallocStep ι) : Decidable ((cleanSystem ι).legal s step) :=
  inferInstanceAs (Decidable (((mallocSystem ι).restrict CleanStep).legal s step))

/-- An object of the allocator, among what was returned. -/
def ofToken (t : Nat) (r : Owner × Nat) : Bool := r.1 = .slab t

/-- What a caller of `kmalloc` relies on. -/
structure MallocSafe (s : MallocTasks ι) : Prop where
  distinct : (s.returned.map Prod.snd).Nodup
  perPage : ∀ p t, (s.mm.bookkeep p).objAlloc = some t → (s.mm.bookkeep p).objUsed ≤ (s.mm.objAllocPool t).objPerPage
  counted : (∀ i, s.pc i = .idle) → ∀ t, (s.mm.objAllocPool t).objUsed = s.returned.countP (ofToken t)

end OsdiKernel
