import OsdiKernel.Sched.Create
import OsdiKernel.Sched.Stores

/-!
# Tasks in memory

The `task_struct` and the trap frame of a task where they really are, as words of
the task's page: the one at its bottom, the other at its top. `fork.c` and
`sys_fork` once more, now with every pointer an address and every field a load
or a store of a word.
-/

namespace OsdiKernel

/-! ## Words of a page -/

/-- The `j`-th word of what begins at `p`. -/
def word (mem : Nat → UInt8) (p j : Nat) : Nat := load64 mem (p + 8 * j)

/-- A store to it. -/
def setWord (mem : Nat → UInt8) (p j w : Nat) : Nat → UInt8 := store64 mem (p + 8 * j) w

/-- The loop of `memzero`, `n` turns of it. -/
def memzeroTurns (mem : Nat → UInt8) (x0 : Nat) : Nat → Nat → UInt8
  | 0 => mem
  | n + 1 => memzeroTurns (store64 mem x0 0) (x0 + 8) n

/-- `memzero(dst, n)`: like `memcpy`, a word a turn. -/
def memzero (mem : Nat → UInt8) (dst n : Nat) : Nat → UInt8 := memzeroTurns mem dst (max 1 ((n + 7) / 8))

/-! ## The code -/

/-- What the linker decides: the image lies below the frames. -/
structure Linked where
  initTask : Nat
  retFromFork : Nat
  below : initTask + pageSize ≤ lowMemory
  label : retFromFork < 2 ^ 64

/-- The address a `struct task_struct *` is. -/
def Linked.addr (im : Linked) : TaskPtr → Nat
  | .initTask => im.initTask
  | .page a => a

/-- The kernel with its tasks in memory. -/
structure RawKernel where
  mm : Mm
  mem : Nat → UInt8
  task : Nat → Option TaskPtr
  current : TaskPtr
  nrTasks : Int

/-- `preempt_disable`, with `cur` current. -/
def disableMem (mem : Nat → UInt8) (cur : Nat) : Nat → UInt8 :=
  setWord mem cur preemptCountWord (word mem cur preemptCountWord + 1)

/-- `preempt_enable`: minus one, modulo 2^64. -/
def enableMem (mem : Nat → UInt8) (cur : Nat) : Nat → UInt8 :=
  setWord mem cur preemptCountWord (word mem cur preemptCountWord + (2 ^ 64 - 1))

/-- What `copy_process` does to memory between `kmalloc` and `assignPID`. -/
def copyTaskMem (im : Linked) (mem : Nat → UInt8) (cur p cloneFlags fn arg stack : Nat) : Nat → UInt8 :=
  let childregs := taskPtRegs p
  let mem := memzero mem childregs (8 * ptRegsWords)
  let mem := memzero mem p (8 * cpuContextWords)
  let mem :=
    if cloneFlags &&& pfKthread ≠ 0 then
      let mem := setWord mem p x19Word fn
      let mem := setWord mem p x20Word arg
      setWord mem p stackWord 0
    else
      -- `*childregs = *cur_regs`
      let mem := memcpy mem childregs (taskPtRegs cur) (8 * ptRegsWords)
      let mem := setWord mem childregs 0 0
      let mem := setWord mem childregs spWord (stack + pageSize)
      setWord mem p stackWord stack
  let mem := setWord mem p flagsWord cloneFlags
  let mem := setWord mem p priorityWord (word mem cur priorityWord)
  let mem := setWord mem p stateWord TaskState.running.code
  let mem := setWord mem p counterWord (word mem p priorityWord)
  let mem := setWord mem p preemptCountWord 1
  let mem := setWord mem p contextPcWord im.retFromFork
  setWord mem p contextSpWord childregs

/-- `copy_process` -/
def copyProcessMem (im : Linked) (r : RawKernel) (cloneFlags fn arg stack : Nat) : Except Fault (Int × RawKernel) := do
  let cur := im.addr r.current
  let r := { r with mem := disableMem r.mem cur }
  let (page, mm) ← kmalloc r.mm pageSize
  let r := { r with mm }
  match page with
  | none => .ok (-1, r)
  | some p => do
      let mem := copyTaskMem im r.mem cur p cloneFlags fn arg stack
      match firstFree r.task with
      -- `task[-1] = p`
      | none => .error .outOfBounds
      | some pid =>
          let mem := setWord mem p pidWord pid
          .ok (pid, { r with
            mem := enableMem mem cur
            task := Function.update r.task pid (some (.page p))
            nrTasks := r.nrTasks + 1 })

/-- `sys_fork` -/
def sysForkMem (im : Linked) (r : RawKernel) : Except Fault (Int × RawKernel) := do
  let cur := im.addr r.current
  let r := { r with mem := disableMem r.mem cur }
  let (userStack, mm) ← kmalloc r.mm pageSize
  let (pid, r) ← copyProcessMem im { r with mm } 0 0 0 (userStack.getD 0)
  if 0 ≤ pid ∧ pid < taskSlots then
    match r.task pid.toNat with
    | none => .error .nullDeref
    | some q => do
        let p := im.addr q
        let mem := memcpy r.mem (word r.mem p stackWord) (word r.mem cur stackWord) pageSize
        let sp := word mem (taskPtRegs cur) spWord
        let offset := toInt ((sp : Int) - word mem cur stackWord)
        let mem := setWord mem (taskPtRegs p) spWord (toUnsignedLong (word mem p stackWord + offset))
        .ok (pid, { r with mem := enableMem mem cur })
  else .error .outOfBounds

/-- What a task does when it is switched to for the first time. -/
inductive FirstStep where
  /-- `blr x19`, with `x0` -/
  | call (fn arg : Nat)
  /-- `kernel_exit 0`: the trap frame `sp` points to is restored, and the task goes on in user mode. -/
  | userMode (frame : Nat)
  deriving DecidableEq, Repr

/-- `ret_from_fork`, by the context a task is switched to with. -/
def retFromForkStep (x19 x20 sp : Nat) : FirstStep := if x19 = 0 then .userMode sp else .call x19 x20

variable {mem mem' : Nat → UInt8} {p q a d i j n w x : Nat}

/-! ## Words and bytes -/

theorem word_lt (mem : Nat → UInt8) (p j : Nat) : word mem p j < 2 ^ 64 := load64_lt ..

theorem setWord_self : word (setWord mem p j w) p j = w % 2 ^ 64 := load64_store64 ..

theorem setWord_ne (h : i ≠ j) : word (setWord mem p j w) p i = word mem p i :=
  load64_store64_ne (by omega)

theorem setWord_apart (h : PagesApart p q) (hi : i < 512) (hj : j < 512) :
    word (setWord mem q j w) p i = word mem p i := by
  refine load64_store64_ne ?_
  unfold PagesApart pageSize at h
  omega

theorem setWord_byte (hj : j < 512) (hx : ¬ Within p pageSize x) : setWord mem p j w x = mem x := by
  refine store64_ne (fun h => hx ?_)
  obtain ⟨h1, h2⟩ := h
  exact ⟨by omega, by unfold pageSize; omega⟩

/-- The same bytes in a page are the same words. -/
theorem word_congr (h : ∀ x, Within p pageSize x → mem' x = mem x) (hi : i < 512) : word mem' p i = word mem p i := by
  refine load64_congr (fun x hx => h x ?_)
  obtain ⟨h1, h2⟩ := hx
  exact ⟨by omega, by unfold pageSize; omega⟩

/-- The same words are the same bytes. -/
theorem byte_of_word (h : word mem' p i = word mem p i) (hx : Within (p + 8 * i) 8 x) : mem' x = mem x :=
  byte_of_load64 h hx

/-- A frame's words are the last of its page. -/
theorem taskPtRegs_word (p i : Nat) : taskPtRegs p + 8 * i = p + 8 * (478 + i) := by
  unfold taskPtRegs
  omega

theorem word_taskPtRegs : word mem (taskPtRegs p) i = word mem p (478 + i) := by
  rw [word, taskPtRegs_word, word]

theorem setWord_taskPtRegs : setWord mem (taskPtRegs p) i w = setWord mem p (478 + i) w := by
  rw [setWord, taskPtRegs_word, setWord]

theorem memzeroTurns_byte (n : Nat) : ∀ (mem : Nat → UInt8) (d x : Nat),
    memzeroTurns mem d n x = if Within d (8 * n) x then 0 else mem x := by
  induction n with
  | zero =>
      intro mem d x
      have hno : ¬ Within d (8 * 0) x := fun h => by
        obtain ⟨h1, h2⟩ := h
        omega
      rw [if_neg hno]
      rfl
  | succ n ih =>
      intro mem d x
      rw [memzeroTurns, ih]
      by_cases hfirst : Within d 8 x
      · obtain ⟨h1, h2⟩ := hfirst
        have hzero : store64 mem d 0 x = 0 := by
          rw [store64, if_pos ⟨h1, h2⟩, Nat.zero_div]
          rfl
        rw [hzero, ite_self, if_pos ⟨h1, by omega⟩]
      · rw [store64_ne hfirst]
        refine if_congr ?_ rfl rfl
        unfold Within at *
        omega

/-- What `memzero` leaves in a word. -/
theorem word_memzeroTurns (hi : i < n) : word (memzeroTurns mem p n) p i = 0 := by
  have hzero : load64 (fun _ => 0) 0 = 0 := by decide
  rw [← hzero]
  refine load64_moved (fun k hk => ?_)
  rw [memzeroTurns_byte, if_pos ⟨by omega, by omega⟩]

end OsdiKernel
