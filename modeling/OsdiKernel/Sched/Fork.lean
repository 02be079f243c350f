import OsdiKernel.Sched.Sched

/-!
# Processes

`fork.c` and the system calls of `sys.c` that make and end processes. A new
task gets a page of its own from `kmalloc`; a user process gets a second one for
its stack. The task's page is not looked up by what it holds but by where its
`task_struct` pointer points, so a slot of `task[]` outlives the process until
`sys_kill` empties it.
-/

namespace OsdiKernel

/-- `PSR_MODE_EL0t` -/
def psrModeEL0t : Nat := 0

/-- `task_pt_regs`: a task's page ends with its trap frame of 34 words. -/
def taskPtRegs (page : Nat) : Nat := page + 4096 - 34 * 8

/-- `task[pid]`, by whoever dereferences it next. -/
def taskAt (k : Kernel) (pid : Int) : Except Fault TaskPtr :=
  if 0 ≤ pid ∧ pid < taskSlots then
    match k.task pid.toNat with
    | none => .error .nullDeref
    | some p => .ok p
  else .error .outOfBounds

/-- The first NULL slot. -/
def firstFree (task : Nat → Option TaskPtr) : Option Nat :=
  (List.range taskSlots).find? (fun i => (task i).isNone)

/-- `assignPID`: the slot is counted as used already. -/
def assignPID (k : Kernel) : Int × Kernel :=
  match firstFree k.task with
  | some i => (i, { k with nrTasks := k.nrTasks + 1 })
  | none => (-1, k)

/-- What `copy_process` writes into the new page, short of the `pid`, when `cur` is current. -/
def copyTask (cur : Task) (cloneFlags fn arg stack childregs : Nat) (pid : Int) : Task :=
  let kthread := cloneFlags &&& pfKthread ≠ 0
  let cpuContext :=
    if kthread then { CpuContext.zero with x19 := fn, x20 := arg } else CpuContext.zero
  { cpuContext := { cpuContext with pc := .retFromFork, sp := childregs }
    state := .running
    counter := cur.priority
    priority := cur.priority
    preemptCount := 1
    stack := if kthread then 0 else stack
    flags := cloneFlags
    pid := pid
    ptRegs :=
      if kthread then PtRegs.zero
      else { cur.ptRegs with regs := Function.update cur.ptRegs.regs 0 0, sp := stack + pageSize } }

/-- `task[pid] = p` -/
def setTask (k : Kernel) (pid : Int) (p : TaskPtr) : Except Fault Kernel :=
  if 0 ≤ pid ∧ pid < taskSlots then
    .ok { k with task := Function.update k.task pid.toNat (some p) }
  else .error .outOfBounds

/-- `copy_process` -/
def copyProcess (k : Kernel) (cloneFlags fn arg stack : Nat) : Except Fault (Int × Kernel) := do
  let k := preemptDisable k
  let (page, mm) ← kmalloc k.mm pageSize
  let k := { k with mm }
  match page with
  -- the section entered above is not left on this path
  | none => .ok (-1, k)
  | some page => do
      let p := TaskPtr.page page
      let old := k.tasks p
      let k := k.updateTask p (fun _ => copyTask k.cur cloneFlags fn arg stack (taskPtRegs page) old.pid)
      let (pid, k) := assignPID k
      -- with every slot taken this is `task[-1] = p`
      let k ← setTask k pid p
      let k := k.updateTask p (fun t => { t with pid := pid })
      .ok (pid, preemptEnable k)

/-- `move_to_user_mode` -/
def moveToUserMode (k : Kernel) (pc : Nat) : Except Fault (Int × Kernel) := do
  let k := k.updateTask k.current (fun t =>
    { t with ptRegs := { PtRegs.zero with pc := pc, pstate := psrModeEL0t } })
  let (stack, mm) ← kmalloc k.mm pageSize
  let k := { k with mm }
  match stack with
  | none => .ok (-1, k)
  | some stack =>
      .ok (0, k.updateTask k.current (fun t =>
        { t with ptRegs := { t.ptRegs with sp := stack + pageSize }, stack := stack }))

/-- `sys_fork` -/
def sysFork (k : Kernel) : Except Fault (Int × Kernel) := do
  let k := preemptDisable k
  let (userStack, mm) ← kmalloc k.mm pageSize
  let (pid, k) ← copyProcess { k with mm } 0 0 0 (userStack.getD 0)
  let p ← taskAt k pid
  let k := { k with mem := memcpy k.mem (k.tasks p).stack k.cur.stack pageSize }
  -- the offset goes through an `int`
  let offset := toInt ((k.cur.ptRegs.sp : Int) - k.cur.stack)
  let k := k.updateTask p (fun t =>
    { t with ptRegs := { t.ptRegs with sp := toUnsignedLong (t.stack + offset) } })
  .ok (pid, preemptEnable k)

/-- The copy loop of `cpio_move_file`: `n` bytes from `result` to `target`, one at a time. -/
def moveFile (mem : Nat → UInt8) (target result : Nat) : Nat → Nat → UInt8
  | 0 => mem
  | n + 1 => moveFile (Function.update mem target (mem result)) (target + 1) (result + 1) n

/-- Where `sys_exec` puts every program. -/
def moveAddress : Nat := 0x10A0000

/-- `argc_count`: the entries of `argv[]` before its NULL, if there are fewer than `n`. -/
def argcCount (mem : Nat → UInt8) (argv : Nat) : Nat → Option Nat
  | 0 => none
  | n + 1 =>
      if load64 mem argv = 0 then some 0
      else (argcCount mem (argv + 8) n).map (· + 1)

/--
`sys_exec`, where `cpio_get_file` found the file at `result`, `fileSize` bytes of it.
The scratch copy of `argv[]` is a page: more entries than fit it run over its end.
-/
def sysExec (k : Kernel) (result fileSize argv : Nat) : Except Fault (Int × Kernel) := do
  let k := preemptDisable k
  let k := { k with mem := moveFile k.mem moveAddress result fileSize }
  let argc := argcCount k.mem argv (pageSize / 8 + 1)
  let (backup, mm) ← kmalloc k.mm pageSize
  let k := { k with mm }
  match argc, backup with
  | none, _ => .error .outOfBounds
  | _, none => .error .nullDeref
  | some argc, some backup => do
      let k := { k with mem := memcpyTurns k.mem backup argv argc }
      let sp := toUnsignedLong ((k.cur.stack : Int) + pageSize - (argc + argc % 2) * 8)
      let k := { k with mem := memcpyTurns k.mem sp backup argc }
      let k := k.updateTask k.current (fun t =>
        { t with ptRegs := { t.ptRegs with
            sp := sp, pc := moveAddress, regs := Function.update t.ptRegs.regs 1 sp } })
      .ok (argc, preemptEnable k)

/-- `sys_exit` -/
def sysExit (k : Kernel) : Except Fault Kernel := exitProcess k

/-- `sys_malloc` -/
def sysMalloc (k : Kernel) (bytes : Int) : Except Fault (Option Nat × Kernel) := do
  let (addr, mm) ← kmalloc k.mm bytes
  .ok (addr, { k with mm })

/-- `sys_kill` -/
def sysKill (k : Kernel) (pid : Int) : Except Fault Kernel :=
  if k.cur.pid = pid then .ok k
  else if pid = 0 then .ok k
  else do
    let p ← taskAt k pid
    -- `if(task[pid]->flags = 0)`: an assignment, and never true
    let k := k.updateTask p (fun t => { t with flags := 0 })
    match p with
    -- `init_task` is not in memory that can be freed
    | .initTask => .error .outOfBounds
    | .page addr => do
        let mm ← kfree k.mm addr
        .ok { k with mm, task := Function.update k.task pid.toNat none, nrTasks := k.nrTasks - 1 }

end OsdiKernel
