import OsdiKernel.Exec.Exec
import OsdiKernel.Sched.TaskSystem

/-!
# The tasks on the CPU

`Sched` and `Fork` take a call as one step. Here a call is taken apart into the
steps a timer interrupt can come between, so the machine has to remember where
every task is: a list of frames, the innermost first, each the next thing its
function will do.

Interrupts are on at every one of these points. What runs with them off — the
interrupt handler up to `enable_irq`, `task_preemption` from `disable_irq` to
`kernel_exit` — is part of the step it belongs to, and the machine needs no flag
for them. A read-modify-write of `preempt_count` is a single step too: the task
it belongs to is current again, with the count it had, by the time it goes on.

What `sys_exec` stores to a task's page reaches its `task_struct`. The frames
lie on the kernel stacks: of a task whose kernel stack is stored over, or whose
saved registers are, none is left.
-/

namespace OsdiKernel

/-- Where `_schedule` is, with its `c` and `next` so far in the selection loop. -/
inductive SchedulePc where
  | disable
  | select (i : Nat) (best : Int × Nat)
  | refresh (i : Nat)
  /-- at the call of `switch_to` -/
  | switchTo (next : Nat)
  /-- in `switch_to`, after `current = next` -/
  | cpuSwitchTo (next : TaskPtr)
  | enable
  deriving DecidableEq, Repr

/-- What `copy_process` is called with. -/
structure CopyArgs where
  cloneFlags : Nat
  fn : Nat
  arg : Nat
  stack : Nat
  deriving DecidableEq, Repr

/-- Where `copy_process` is. -/
inductive CopyPc where
  | disable
  | kmalloc
  /-- about to fill in the new page -/
  | fill (page : Nat)
  /-- about to give the new task its slot -/
  | assign (page : Nat)
  | enable (pid : Int)
  deriving DecidableEq, Repr

/-- Where `sys_fork` is. -/
inductive ForkPc where
  | disable
  | kmalloc
  /-- in `copy_process` -/
  | call
  | copyStack (pid : Int)
  | setSp (pid : Int)
  | enable (pid : Int)
  deriving DecidableEq, Repr

/-- Where `sys_exec` is. -/
inductive ExecPc where
  | disable
  | move
  /-- about to pass `argv[]` on -/
  | args (targetAddr : Nat)
  | enable (argc : Int)
  deriving DecidableEq, Repr

/-- Where `exit_process` is. It ends in `schedule`, and does nothing after it. -/
inductive ExitPc where
  | disable
  | zombie
  | kfree
  | enable
  deriving DecidableEq, Repr

/-- A function that has not returned, and where it is. -/
inductive Frame where
  /-- the task's own code: `main`, a thread's function or the program in user mode -/
  | task
  /-- a new task, before `schedule_tail` -/
  | retFromFork
  /-- `irq_exc_handler`, when `task_preemption` has scheduled -/
  | irqExit
  | schedule
  | scheduleInner (pc : SchedulePc)
  | copyProcess (args : CopyArgs) (pc : CopyPc)
  | sysFork (pc : ForkPc)
  | sysExec (name argv : Nat) (pc : ExecPc)
  | exitProcess (pc : ExitPc)
  deriving DecidableEq, Repr

/-- The kernel, and where every task is in it. -/
structure Machine where
  k : Kernel
  /-- What each task has not returned from, the innermost first. -/
  frames : TaskPtr → List Frame
  /-- Whose registers and stack the CPU has: `current`, but for a moment in `switch_to`. -/
  cpu : TaskPtr

namespace Machine

/-- The task on the CPU is at `fs` now, and the kernel is `k`. -/
def goOn (m : Machine) (k : Kernel) (fs : List Frame) : Machine :=
  { m with k := k, frames := Function.update m.frames m.cpu fs }

/-- The task on the CPU runs code of its own. -/
def atTask (m : Machine) : Bool := (m.frames m.cpu).head? = some .task

/-- The kernel after stores to these bytes is `k`. Nobody goes on whose kernel stack is among them. -/
def overwrite (m : Machine) (k : Kernel) (written : List Nat) : Except Fault Machine :=
  if ∃ a ∈ written, m.cpu.KernelStack a then .error .outOfBounds
  else
    .ok { m with
      k := k
      frames := fun p =>
        if p ≠ m.cpu ∧ InTable k p ∧ ∃ a ∈ written, p.Context a ∨ p.KernelStack a then [] else m.frames p }

end Machine

/-! ## One step of each function -/

/-- `_schedule`, called over `rest`. -/
def scheduleStep (m : Machine) (rest : List Frame) : SchedulePc → Except Fault Machine
  | .disable => .ok (m.goOn (preemptDisable m.k) (.scheduleInner (.select 0 (-1, 0)) :: rest))
  | .select i best =>
      if i < taskSlots then
        .ok (m.goOn m.k (.scheduleInner (.select (i + 1) (considerTask m.k best i)) :: rest))
      else if best.1 ≠ 0 then .ok (m.goOn m.k (.scheduleInner (.switchTo best.2) :: rest))
      else .ok (m.goOn m.k (.scheduleInner (.refresh 0) :: rest))
  | .refresh i =>
      if i < taskSlots then .ok (m.goOn (refreshTask m.k i) (.scheduleInner (.refresh (i + 1)) :: rest))
      else .ok (m.goOn m.k (.scheduleInner (.select 0 (-1, 0)) :: rest))
  | .switchTo next =>
      match m.k.task next with
      | none => .error .nullDeref
      | some p =>
          if m.k.current = p then .ok (m.goOn m.k (.scheduleInner .enable :: rest))
          else .ok (m.goOn { m.k with current := p } (.scheduleInner (.cpuSwitchTo p) :: rest))
  | .cpuSwitchTo next =>
      if (m.frames next).isEmpty then .error .outOfBounds
      -- the caller goes on from here when it is switched back to
      else .ok { m.goOn m.k (.scheduleInner .enable :: rest) with cpu := next }
  | .enable => .ok (m.goOn (preemptEnable m.k) rest)

/-- `copy_process` returns to `sys_fork`, or to its task. -/
def returnPid (pid : Int) : List Frame → List Frame
  | .sysFork .call :: rest => .sysFork (.copyStack pid) :: rest
  | rest => rest

/-- `copy_process` -/
def copyStep (m : Machine) (args : CopyArgs) (rest : List Frame) : CopyPc → Except Fault Machine
  | .disable => .ok (m.goOn (preemptDisable m.k) (.copyProcess args .kmalloc :: rest))
  | .kmalloc => do
      let (page, mm) ← kmalloc m.k.mm pageSize
      match page with
      -- the section entered above is not left on this path
      | none => .ok (m.goOn { m.k with mm } (returnPid (-1) rest))
      | some page => .ok (m.goOn { m.k with mm } (.copyProcess args (.fill page) :: rest))
  | .fill page =>
      let k := m.k.updateTask (.page page) (fun old =>
        copyTask m.k.cur args.cloneFlags args.fn args.arg args.stack (taskPtRegs page) old.pid)
      -- `cpu_context` says where the new task starts
      let m := { m with frames := Function.update m.frames (.page page) [.retFromFork] }
      .ok (m.goOn k (.copyProcess args (.assign page) :: rest))
  | .assign page => do
      let (pid, k) := assignPID m.k
      let k ← setTask k pid (.page page)
      let k := k.updateTask (.page page) (fun t => { t with pid := pid })
      .ok (m.goOn k (.copyProcess args (.enable pid) :: rest))
  | .enable pid => .ok (m.goOn (preemptEnable m.k) (returnPid pid rest))

/-- `sys_fork` -/
def forkStep (m : Machine) (rest : List Frame) : ForkPc → Except Fault Machine
  | .disable => .ok (m.goOn (preemptDisable m.k) (.sysFork .kmalloc :: rest))
  | .kmalloc => do
      let (userStack, mm) ← kmalloc m.k.mm pageSize
      .ok (m.goOn { m.k with mm } (.copyProcess ⟨0, 0, 0, userStack.getD 0⟩ .disable :: .sysFork .call :: rest))
  | .call => .ok m
  | .copyStack pid => do
      let p ← taskAt m.k pid
      let k := { m.k with mem := memcpy m.k.mem (m.k.tasks p).stack m.k.cur.stack pageSize }
      .ok (m.goOn k (.sysFork (.setSp pid) :: rest))
  | .setSp pid => do
      let p ← taskAt m.k pid
      let offset := toInt ((m.k.cur.ptRegs.sp : Int) - m.k.cur.stack)
      let k := m.k.updateTask p (fun t =>
        { t with ptRegs := { t.ptRegs with sp := toUnsignedLong (t.stack + offset) } })
      .ok (m.goOn k (.sysFork (.enable pid) :: rest))
  | .enable _ => .ok (m.goOn (preemptEnable m.k) rest)

/-- `sys_exec` -/
def execStep (m : Machine) (name argv : Nat) (rest : List Frame) : ExecPc → Except Fault Machine
  | .disable => .ok (m.goOn (preemptDisable m.k) (.sysExec name argv .move :: rest))
  | .move => do
      let (targetAddr, _, ram) ← execLoad m.k.mem name
      let m ← m.overwrite (m.k.stored ram) ram.written
      .ok (m.goOn m.k (.sysExec name argv (.args targetAddr) :: rest))
  | .args targetAddr =>
      match argcCount m.k.mem argv (2 ^ 31) with
      | none => .error .outOfBounds
      | some argc => do
          let (page, mm) ← kmalloc m.k.mm pageSize
          let (k, written) := execArgs { m.k with mm } targetAddr argv argc (page.getD 0)
          let m ← m.overwrite k written
          .ok (m.goOn m.k (.sysExec name argv (.enable argc) :: rest))
  | .enable _ => .ok (m.goOn (preemptEnable m.k) rest)

/-- `exit_process` -/
def exitStep (m : Machine) (rest : List Frame) : ExitPc → Except Fault Machine
  | .disable => .ok (m.goOn (preemptDisable m.k) (.exitProcess .zombie :: rest))
  | .zombie =>
      let k := m.k.updateTask m.k.current (fun t => { t with state := .zombie })
      .ok (m.goOn k (.exitProcess .kfree :: rest))
  | .kfree =>
      if m.k.cur.stack ≠ 0 then do
        let mm ← kfree m.k.mm m.k.cur.stack
        .ok (m.goOn { m.k with mm } (.exitProcess .enable :: rest))
      else .ok (m.goOn m.k (.exitProcess .enable :: rest))
  | .enable => .ok (m.goOn (preemptEnable m.k) (.schedule :: rest))

/-- The code on the CPU goes one step further. -/
def advance (m : Machine) : Except Fault Machine :=
  match m.frames m.cpu with
  | [] => .ok m
  | .task :: _ => .ok m
  | .retFromFork :: rest => .ok (m.goOn (scheduleTail m.k) (.task :: rest))
  | .irqExit :: rest => .ok (m.goOn m.k rest)
  | .schedule :: rest =>
      let k := m.k.updateTask m.k.current (fun t => { t with counter := 0 })
      .ok (m.goOn k (.scheduleInner .disable :: rest))
  | .scheduleInner pc :: rest => scheduleStep m rest pc
  | .copyProcess args pc :: rest => copyStep m args rest pc
  | .sysFork pc :: rest => forkStep m rest pc
  | .sysExec name argv pc :: rest => execStep m name argv rest pc
  | .exitProcess pc :: rest => exitStep m rest pc

/--
`irq_exc_handler` at a timer interrupt: `timer_tick`, then `task_preemption`. It
returns, or it comes to `_schedule` with interrupts on again.
-/
def irqExcHandler (m : Machine) : Machine :=
  let k := timerTick m.k
  if k.cur.counter > 0 ∨ k.cur.preemptCount > 0 then { m with k }
  else
    m.goOn (k.updateTask k.current (fun t => { t with counter := 0 }))
      (.scheduleInner .disable :: .irqExit :: m.frames m.cpu)

/-! ## Runs -/

/-- What a task may call. -/
inductive Call where
  | schedule
  | copyProcess (args : CopyArgs)
  | sysFork
  | sysExec (name argv : Nat)
  | exitProcess

/-- The function it comes to. -/
def Call.entry : Call → Frame
  | .schedule => .schedule
  | .copyProcess args => .copyProcess args .disable
  | .sysFork => .sysFork .disable
  | .sysExec name argv => .sysExec name argv .disable
  | .exitProcess => .exitProcess .disable

/-- The new task has no user stack: it is a kernel thread, or none was passed. -/
def CopyArgs.NoStack (args : CopyArgs) : Prop := args.cloneFlags &&& pfKthread ≠ 0 ∨ args.stack = 0

instance (args : CopyArgs) : Decidable args.NoStack := inferInstanceAs (Decidable (_ ∨ _))

/-- Nobody but `sys_fork` passes `copy_process` a stack. -/
def Call.Lawful : Call → Prop
  | .copyProcess args => args.NoStack
  | _ => True

instance (call : Call) : Decidable call.Lawful :=
  match call with
  | .copyProcess args => inferInstanceAs (Decidable args.NoStack)
  | .schedule | .sysFork | .sysExec _ _ | .exitProcess => inferInstanceAs (Decidable True)

/-- What can happen next. -/
inductive Event where
  | timerInterrupt
  | call (call : Call)
  /-- Programs run, and leave memory like this. -/
  | programs (mem : Nat → UInt8)
  | step

/-- Interrupts come at any time, calls from the tasks' own code. -/
def machineSystem : System Machine Event Fault where
  legal := fun m e =>
    match e with
    | .timerInterrupt => True
    | .call call => m.atTask = true ∧ call.Lawful
    | .programs _ => m.atTask = true
    | .step => m.atTask = false
  exec := fun m e =>
    match e with
    | .timerInterrupt => .ok (irqExcHandler m)
    | .call call => .ok (m.goOn m.k (call.entry :: m.frames m.cpu))
    | .programs mem => .ok { m with k := { m.k with mem } }
    | .step => advance m

instance (m : Machine) (e : Event) : Decidable (machineSystem.legal m e) :=
  match e with
  | .timerInterrupt => inferInstanceAs (Decidable True)
  | .call _ => inferInstanceAs (Decidable (_ ∧ _))
  | .programs _ => inferInstanceAs (Decidable (_ = _))
  | .step => inferInstanceAs (Decidable (_ = _))

/-- `main`, at `enable_irq`. -/
def bootMachine (k : Kernel) : Machine where
  k := k
  frames := fun p => if p = .initTask then [.task] else []
  cpu := .initTask

/-- Reachable from the initial task table. -/
def MachineReachable (m : Machine) : Prop := ∃ k, Boot k ∧ machineSystem.Reach (bootMachine k) m

/-! ## Careful runs -/

/-- A task whose page has none of these bytes. -/
def TaskPtr.Apart (p : TaskPtr) (start size : Nat) : Prop :=
  match p with
  | .initTask => True
  | .page a => size = 0 ∨ a + pageSize ≤ start ∨ start + size ≤ a

instance (p : TaskPtr) (start size : Nat) : Decidable (p.Apart start size) :=
  match p with
  | .initTask => inferInstanceAs (Decidable True)
  | .page _ => inferInstanceAs (Decidable (_ ∨ _))

/-- No task in the table has. -/
def ClearOfTasks (k : Kernel) (start size : Nat) : Prop := ∀ i < taskSlots, ∀ p ∈ k.task i, p.Apart start size

instance (k : Kernel) (start size : Nat) : Decidable (ClearOfTasks k start size) :=
  inferInstanceAs (Decidable (∀ i < taskSlots, ∀ p ∈ k.task i, _))

/-- The program is moved to where there is no task, and `argv[]` fits the pages it is copied to. -/
def ExecPc.Kept (k : Kernel) (name argv : Nat) : ExecPc → Prop
  | .move => ∀ res ∈ (execLoad k.mem name).toOption, ClearOfTasks k moveAddress res.2.1
  | .args _ => ∀ argc ∈ argcCount k.mem argv (2 ^ 31), argc ≤ pageSize / 8
  | .disable | .enable _ => True

instance (k : Kernel) (name argv : Nat) (pc : ExecPc) : Decidable (pc.Kept k name argv) :=
  match pc with
  | .move => inferInstanceAs (Decidable (∀ res ∈ (execLoad k.mem name).toOption, _))
  | .args _ => inferInstanceAs (Decidable (∀ argc ∈ argcCount k.mem argv (2 ^ 31), _))
  | .disable | .enable _ => inferInstanceAs (Decidable True)

/-- Nothing else stores to a task's page. -/
def Frame.Kept (k : Kernel) : Frame → Prop
  | .sysExec name argv pc => pc.Kept k name argv
  | _ => True

instance (k : Kernel) (f : Frame) : Decidable (f.Kept k) :=
  match f with
  | .sysExec name argv pc => inferInstanceAs (Decidable (pc.Kept k name argv))
  | .task | .retFromFork | .irqExit | .schedule | .scheduleInner _ | .copyProcess _ _ | .sysFork _
  | .exitProcess _ => inferInstanceAs (Decidable True)

/-- The code on the CPU goes on, and keeps off the tasks. -/
def Event.Kept (m : Machine) : Event → Prop
  | .step => ∀ f ∈ (m.frames m.cpu).head?, f.Kept m.k
  | _ => True

instance (m : Machine) (e : Event) : Decidable (e.Kept m) :=
  match e with
  | .step => inferInstanceAs (Decidable (∀ f ∈ (m.frames m.cpu).head?, _))
  | .timerInterrupt | .call _ | .programs _ => inferInstanceAs (Decidable True)

/-- Runs in which every `sys_exec` keeps off the tasks. -/
def carefulMachine : System Machine Event Fault := machineSystem.restrict fun m e => e.Kept m

instance (m : Machine) (e : Event) : Decidable (carefulMachine.legal m e) :=
  inferInstanceAs (Decidable (_ ∧ e.Kept m))

/-- Reachable in one. -/
def CarefulReachable (m : Machine) : Prop := ∃ k, Boot k ∧ carefulMachine.Reach (bootMachine k) m

end OsdiKernel
