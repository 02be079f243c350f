import OsdiKernel.Sched.Fork

/-!
# Wait queues

`wait.c`. A task is on a queue by an entry that is a local variable of its call
of `wait`: it lies on the task's kernel stack, and so in the page of its
`task_struct`. Queue heads are initialised where they are declared.

As with `schedule`, a call of `wait` is one step here, and it ends in another
task; the caller's `wait` returns when that task is scheduled again.
-/

namespace OsdiKernel

/-- Where a list node of a wait queue is embedded. -/
inductive WaitNode where
  /-- `&wq_head->head` -/
  | head (wqHead : Nat)
  /-- `&wq_entry->entry`, which is the address of the entry -/
  | entry (wqEntry : Nat)
  deriving DecidableEq, Repr

/-- The kernel and its wait queues. -/
structure WaitState where
  k : Kernel
  links : Links WaitNode
  /-- `wq_entry->private` -/
  privateTask : Nat → TaskPtr

/-- `DECLARE_WAITQUEUE` of a local at `name`. -/
def declareWaitqueue (w : WaitState) (name : Nat) (tsk : TaskPtr) : WaitState :=
  { w with
    links :=
      { next := Function.update w.links.next (.entry name) none
        prev := Function.update w.links.prev (.entry name) none }
    privateTask := Function.update w.privateTask name tsk }

/-- `add_wait_queue_entry_tail` -/
def addWaitQueueEntryTail (links : Links WaitNode) (wqHead wqEntry : Nat) : Except Fault (Links WaitNode) :=
  listAddTail links (.entry wqEntry) (.head wqHead)

/-- `remove_wait_queue` -/
def removeWaitQueue (links : Links WaitNode) (wqEntry : Nat) : Except Fault (Links WaitNode) :=
  listDel links (.entry wqEntry)

/-- `wait`, as far as its call of `schedule`. -/
def goToSleep (w : WaitState) (wqHead waitingTask : Nat) : Except Fault WaitState := do
  let k := w.k.updateTask w.k.current (fun t => { t with state := .waiting })
  let w := declareWaitqueue { w with k } waitingTask k.current
  let links ← addWaitQueueEntryTail w.links wqHead waitingTask
  .ok { w with links }

/-- `wait` on the queue `wqHead`, with its local at `waitingTask`. -/
def wait (w : WaitState) (wqHead waitingTask : Nat) : Except Fault WaitState := do
  let w ← goToSleep w wqHead waitingTask
  let k ← schedule w.k
  .ok { w with k }

/-- One turn of `wake_up`. The cast to an entry is of whatever the list leads to. -/
def wakeEntry (pos : WaitNode) (w : WaitState) : Except Fault (Bool × WaitState) :=
  match pos with
  | .head _ => .error .badCast
  | .entry wqEntry => do
      let k := w.k.updateTask (w.privateTask wqEntry) (fun t => { t with state := .running })
      let links ← removeWaitQueue w.links wqEntry
      .ok (true, { w with k, links })

/-- `wake_up` -/
def wakeUp (w : WaitState) (wqHead : Nat) : Except Fault WaitState :=
  listForEach (fun w pos => w.links.next pos) (.head wqHead) wakeEntry w

/-- The links before anybody waits: `DECLARE_WAIT_QUEUE_HEAD`. -/
def waitQueueHeads : Links WaitNode where
  next := fun x =>
    match x with
    | .head wqHead => some (.head wqHead)
    | .entry _ => none
  prev := fun x =>
    match x with
    | .head wqHead => some (.head wqHead)
    | .entry _ => none

/-- `sizeof(struct task_struct)` -/
def taskStructSize : Nat := 176

/-- `sizeof(struct wait_queue_entry)` -/
def waitQueueEntrySize : Nat := 24

/-- `_start`: the stack of `init_task` grows down from there. -/
def startAddr : Nat := 0x80000

/-- A local variable of that size lies on the task's kernel stack. -/
def OnKernelStack (p : TaskPtr) (addr size : Nat) : Prop :=
  match p with
  | .initTask => addr + size ≤ startAddr
  | .page a => a + taskStructSize ≤ addr ∧ addr + size ≤ taskPtRegs a

instance : ∀ p addr size, Decidable (OnKernelStack p addr size)
  | .initTask, addr, size => inferInstanceAs (Decidable (addr + size ≤ startAddr))
  | .page a, addr, size => inferInstanceAs (Decidable (a + taskStructSize ≤ addr ∧ addr + size ≤ taskPtRegs a))

end OsdiKernel
