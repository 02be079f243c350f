import OsdiKernel.Sched.Create

/-!
# The calls

What each call leaves behind, as an equation, and that the invariant still
holds there. Which frames changed hands is in the `TookPage` and `GavePage` each
spec comes with.
-/

namespace OsdiKernel

variable {k k' : Kernel} {c c' : Link → List Nat} {live : List Live} {p : TaskPtr} {i a s : Nat}

/-! ## Creating -/

/-- Nothing is created out of range: a new task has the priority of the task that makes it. -/
theorem SlotInv.newTask (h : SlotInv k c live) (hcur : InTable k k.current) (cloneFlags fn arg stack childregs : Nat)
    (i : Nat) (hstack : cloneFlags &&& pfKthread = 0 → stack ≠ 0 → pageAt stack ∈ live ∧
      ∀ p, InTable k p → ∀ r, pageOf k p r ≠ some stack) :
    NewTask k live i (copyTask k.cur cloneFlags fn arg stack childregs i) where
  pid := rfl
  running := rfl
  range := by
    have hr := h.range k.current hcur
    have hpr : 0 ≤ (k.cur).priority ∧ (k.cur).priority ≤ 2 ^ 30 := by
      obtain ⟨⟨h1, h2⟩, _⟩ := hr
      exact ⟨by unfold Kernel.cur; omega, by unfold Kernel.cur; omega⟩
    exact ⟨hr.1, hpr⟩
  stack := by
    intro b hb
    obtain ⟨hk, hs, rfl⟩ := copyTask_userStack hb
    exact hstack hk hs

/-- `copy_process` of a kernel thread took a page for it, and slot `i`. -/
structure Copied (k : Kernel) (live : List Live) (cloneFlags fn arg stack i a : Nat) (mm' : Mm)
    (c' : Link → List Nat) : Prop where
  slot : firstFree k.task = some i
  page : TookPage k.mm live a mm' c'
  run : copyProcess k cloneFlags fn arg stack = .ok ((i : Int), addTask k mm' i a
    (copyTask k.cur cloneFlags fn arg stack (taskPtRegs a) i))
  new : NewTask k live i (copyTask k.cur cloneFlags fn arg stack (taskPtRegs a) i)

theorem SlotInv.copyProcess (h : SlotInv k c live) (hcur : InTable k k.current) {cloneFlags : Nat}
    (hk : cloneFlags &&& pfKthread ≠ 0) (hcan : CanCopy k) (fn arg stack : Nat) :
    ∃ i a mm' c', Copied k live cloneFlags fn arg stack i a mm' c' := by
  obtain ⟨i, hi⟩ := hcan.1.firstFree
  obtain ⟨a, mm', c', ht⟩ := takePage h.mm hcan.2
  exact ⟨i, a, mm', c', hi, ht, copyProcess_eq (h.fresh_ne ht.fresh hcur) ht.run hi cloneFlags fn arg stack,
    h.newTask hcur cloneFlags fn arg stack _ i (fun hz => absurd hz hk)⟩

/-- **`copy_process`** of a kernel thread. -/
theorem copyProcess_spec (h : TaskInv k c live) {cloneFlags : Nat}
    (hk : cloneFlags &&& pfKthread ≠ 0) (hcan : CanCopy k) (fn arg stack : Nat) :
    ∃ i a mm' c', firstFree k.task = some i ∧ TookPage k.mm live a mm' c' ∧
      copyProcess k cloneFlags fn arg stack = .ok ((i : Int), addTask k mm' i a
        (copyTask k.cur cloneFlags fn arg stack (taskPtRegs a) i)) ∧
      TaskInv (addTask k mm' i a (copyTask k.cur cloneFlags fn arg stack (taskPtRegs a) i)) c'
        (pageAt a :: live) := by
  obtain ⟨i, a, mm', c', hcopy⟩ := h.slotInv.copyProcess h.current.1 hk hcan fn arg stack
  obtain ⟨hi64, hnone⟩ := firstFree_some hcopy.slot
  exact ⟨i, a, mm', c', hcopy.slot, hcopy.page, hcopy.run,
    h.addTask hi64 hnone hcopy.page.fresh hcopy.page.inv hcopy.new⟩

/-- `sys_fork` took the page `s` for the child's stack, the page `a` for the child, and slot `i`. -/
structure Forked (k : Kernel) (live : List Live) (i s a : Nat) (mm₁ mm₂ : Mm) (c₁ c₂ : Link → List Nat) : Prop where
  slot : firstFree k.task = some i
  stack : TookPage k.mm live s mm₁ c₁
  page : TookPage mm₁ (pageAt s :: live) a mm₂ c₂
  run : sysFork k = .ok ((i : Int), forked k mm₂ i s a)
  new : NewTask { k with mm := mm₁ } (pageAt s :: live) i (forkTask k.cur s a i)

theorem SlotInv.sysFork (h : SlotInv k c live) (hcur : InTable k k.current) (hcan : CanFork k) :
    ∃ i s a mm₁ c₁ mm₂ c₂, Forked k live i s a mm₁ mm₂ c₁ c₂ := by
  obtain ⟨i, hi⟩ := hcan.1.firstFree
  obtain ⟨s, mm₁, c₁, hs⟩ := takePage h.mm hcan.2.nonempty
  -- the stack is live now, and nobody uses it yet
  have h₁ : SlotInv { k with mm := mm₁ } c₁ (pageAt s :: live) :=
    h.grow hs.inv (fun _ he => List.mem_cons_of_mem _ he)
  obtain ⟨a, mm₂, c₂, ha⟩ := takePage hs.inv (hs.nonempty_iff.mpr hcan.2)
  have hnew := h₁.newTask hcur 0 0 0 s (taskPtRegs a) i
    (fun _ _ => ⟨List.mem_cons_self, fun p hp r => h.unused hs.fresh hp r⟩)
  exact ⟨i, s, a, mm₁, c₁, mm₂, c₂, hi, hs, ha, sysFork_eq (h₁.fresh_ne ha.fresh hcur) hs.run ha.run hi,
    hnew.pid, hnew.running, hnew.range, hnew.stack⟩

/-- **`sys_fork`**: a page for the stack, then one for the task. -/
theorem sysFork_spec (h : TaskInv k c live) (hcan : CanFork k) :
    ∃ i s a mm₁ c₁ mm₂ c₂, firstFree k.task = some i ∧ TookPage k.mm live s mm₁ c₁ ∧
      TookPage mm₁ (pageAt s :: live) a mm₂ c₂ ∧ sysFork k = .ok ((i : Int), forked k mm₂ i s a) ∧
      TaskInv (forked k mm₂ i s a) c₂ (pageAt a :: pageAt s :: live) := by
  obtain ⟨i, s, a, mm₁, c₁, mm₂, c₂, hf⟩ := h.slotInv.sysFork h.current.1 hcan
  obtain ⟨hi64, hnone⟩ := firstFree_some hf.slot
  refine ⟨i, s, a, mm₁, c₁, mm₂, c₂, hf.slot, hf.stack, hf.page, hf.run, ?_⟩
  have hadd := (h.tookPage hf.stack).addTask hi64 hnone hf.page.fresh hf.page.inv hf.new
  unfold forked
  generalize memcpy k.mem s k.cur.stack pageSize = mem
  exact ⟨hadd.writeMem _, hadd.current⟩

/-! ## Changing the current task -/

/-- What `move_to_user_mode` makes of a task. -/
def userTask (t : Task) (pc s : Nat) : Task :=
  { t with ptRegs := { PtRegs.zero with pc := pc, pstate := psrModeEL0t, sp := s + pageSize }, stack := s }

/-- The kernel with the current task replaced. -/
def setCurrent (k : Kernel) (mm : Mm) (t : Task) : Kernel :=
  { k with mm := mm, tasks := Function.update k.tasks k.current t }

/-- **`move_to_user_mode`** -/
theorem moveToUserMode_spec (h : TaskInv k c live) (hpage : (freeFrames k.mm).Nonempty) (pc : Nat) :
    ∃ s mm' c', TookPage k.mm live s mm' c' ∧
      moveToUserMode k pc = .ok (0, setCurrent k mm' (userTask k.cur pc s)) ∧
      TaskInv (setCurrent k mm' (userTask k.cur pc s)) c' (pageAt s :: live) := by
  obtain ⟨s, mm', c', ht⟩ := takePage h.mm hpage
  refine ⟨s, mm', c', ht, ?_, ?_, h.current.1, ?_⟩
  · simp only [moveToUserMode, Kernel.updateTask_mm, ht.run, ok_bind]
    refine congrArg Except.ok (Prod.ext rfl ?_)
    simp [Kernel.updateTask, setCurrent, userTask, Kernel.cur]
  · refine h.setTask ht.inv rfl (fun _ => h.current.2) (h.range _) ?_ ?_
    · exact fun q r b hq _ hb => List.mem_cons_of_mem _ (h.live q hq r b hb)
    · intro _ b hb
      have hbs : b = s := by
        unfold Task.userStack at hb
        split at hb
        · exact absurd hb (by simp)
        · exact (Option.some.inj hb).symm
      subst hbs
      exact ⟨List.mem_cons_self, fun q r hq _ => h.unused ht.fresh hq r⟩
  · show (Function.update k.tasks k.current (userTask k.cur pc s) k.current).state = .running
    rw [Function.update_self]
    exact h.current.2

/-- Where `sys_exec` leaves `sp`, for so many arguments. -/
def execSp (t : Task) (argc : Nat) : Nat :=
  toUnsignedLong ((t.stack : Int) + pageSize - (argc + argc % 2) * 8)

/-- What `sys_exec` makes of a task. -/
def execTask (t : Task) (argc : Nat) : Task :=
  { t with ptRegs := { t.ptRegs with
      sp := execSp t argc
      pc := moveAddress
      regs := Function.update t.ptRegs.regs 1 (execSp t argc) } }

/-- The kernel after `sys_exec`, its scratch page being `backup`. -/
def execed (k : Kernel) (mm : Mm) (result fileSize argv argc backup : Nat) : Kernel :=
  { setCurrent k mm (execTask k.cur argc) with
    mem := memcpyTurns (memcpyTurns (moveFile k.mem moveAddress result fileSize) backup argv argc)
      (execSp k.cur argc) backup argc }

theorem sysExec_eq {result fileSize argv argc : Nat} {mm' : Mm}
    (hargc : argcCount (moveFile k.mem moveAddress result fileSize) argv (pageSize / 8 + 1) = some argc)
    (hpage : kmalloc k.mm pageSize = .ok (some a, mm')) :
    sysExec k result fileSize argv = .ok ((argc : Int), execed k mm' result fileSize argv argc a) := by
  have hmm : (preemptDisable k).mm = k.mm := rfl
  have hmem : (preemptDisable k).mem = k.mem := rfl
  simp only [sysExec, hmm, hmem, hargc, hpage, ok_bind]
  refine congrArg Except.ok (Prod.ext rfl ?_)
  simp only [preemptEnable, preemptDisable, execed, setCurrent, execSp, Kernel.updateTask, Kernel.cur,
    Kernel.mk.injEq, true_and, and_true, Function.update_self, Function.update_idem]
  simp [execTask, execSp]

/-- **`sys_exec`**: its scratch page is taken, and stays taken. -/
theorem sysExec_spec (h : TaskInv k c live) (hpage : (freeFrames k.mm).Nonempty)
    {result fileSize argv argc : Nat}
    (hargc : argcCount (moveFile k.mem moveAddress result fileSize) argv (pageSize / 8 + 1) = some argc) :
    ∃ a mm' c', TookPage k.mm live a mm' c' ∧
      sysExec k result fileSize argv = .ok ((argc : Int), execed k mm' result fileSize argv argc a) ∧
      TaskInv (execed k mm' result fileSize argv argc a) c' (pageAt a :: live) := by
  obtain ⟨a, mm', c', ht⟩ := takePage h.mm hpage
  refine ⟨a, mm', c', ht, sysExec_eq hargc ht.run, ?_⟩
  have hset : TaskInv (Kernel.updateTask { k with mm := mm' } k.current (fun t => execTask t argc)) c'
      (pageAt a :: live) :=
    (h.tookPage ht).updateTask ⟨rfl, rfl, rfl, rfl, rfl⟩
  unfold execed
  generalize memcpyTurns _ _ _ _ = mem
  exact ⟨hset.writeMem mem, hset.current⟩

/-! ## Ending -/

/-- The kernel when `exit_process` goes to the scheduler. -/
def exited (k : Kernel) (mm : Mm) : Kernel :=
  { k with mm := mm, tasks := Function.update k.tasks k.current { k.cur with state := .zombie } }

theorem exitProcess_noStack (hs : k.cur.stack = 0) : exitProcess k = schedule (exited k k.mm) := by
  have hk : preemptEnable ((preemptDisable k).updateTask k.current (fun t => { t with state := .zombie }))
      = exited k k.mm := by
    simp [preemptEnable, preemptDisable, exited, Kernel.updateTask, Kernel.cur]
  have hz : ¬ (((preemptDisable k).updateTask (preemptDisable k).current
      (fun t => { t with state := .zombie })).cur.stack ≠ 0) := by
    simpa [preemptDisable, Kernel.cur, Kernel.updateTask] using hs
  rw [exitProcess, if_neg hz, ok_bind]
  exact congrArg schedule hk

theorem exitProcess_stack {mm' : Mm} (hs : k.cur.stack ≠ 0) (hfree : kfree k.mm k.cur.stack = .ok mm') :
    exitProcess k = schedule (exited k mm') := by
  have hstack : ((preemptDisable k).updateTask (preemptDisable k).current
      (fun t => { t with state := .zombie })).cur.stack = k.cur.stack := by
    simp [preemptDisable, Kernel.cur, Kernel.updateTask]
  rw [exitProcess, hstack, if_pos hs]
  simp only [Kernel.updateTask_mm, preemptDisable, hfree, ok_bind]
  refine congrArg schedule ?_
  simp [preemptEnable, exited, Kernel.updateTask, Kernel.cur]

/-- The user stack of whoever exits goes back to the allocator. -/
structure Exited (k : Kernel) (c : Link → List Nat) (live : List Live) (mm' : Mm) (c' : Link → List Nat)
    (live' : List Live) : Prop where
  run : exitProcess k = schedule (exited k mm')
  inv : SlotInv (exited k mm') c' live'
  kept : ∀ q a, InTable k q → pageOf k q .task = some a → pageAt a ∈ live'
  stack : (k.cur.userStack = none ∧ mm' = k.mm) ∨
    ∃ s, k.cur.userStack = some s ∧ GavePage k.mm live s mm' c'

theorem SlotInv.exitProcess (h : SlotInv k c live) (hin : InTable k k.current)
    (halive : k.cur.stack ≠ 0 → k.cur.state ≠ .zombie) : ∃ mm' c' live', Exited k c live mm' c' live' := by
  have hzombie : ({ k.cur with state := .zombie } : Task).userStack = none := if_pos (Or.inl rfl)
  by_cases hs : k.cur.stack = 0
  · refine ⟨k.mm, c, live, exitProcess_noStack hs, ?_, fun q b hq hb => h.live q hq .task b hb,
      Or.inl ⟨if_pos (Or.inr hs), rfl⟩⟩
    refine h.setTask h.mm rfl (h.range _) ?_ ?_
    · exact fun q r b hq _ hb => h.live q hq r b hb
    · intro _ b hb
      rw [hzombie] at hb
      exact absurd hb (by simp)
  · have hcur : k.cur.userStack = some k.cur.stack := if_neg (not_or.mpr ⟨halive hs, hs⟩)
    obtain ⟨mm', c', hg⟩ := kfree_page h.mm (h.live _ hin .stack _ hcur)
    have hkeep : ∀ q r b, InTable k q → q ≠ k.current ∨ r = .task → pageOf k q r = some b →
        pageAt b ∈ live.erase (pageAt k.cur.stack) := by
      intro q r b hq hqr hb
      refine (List.mem_erase_of_ne ?_).mpr (h.live q hq r b hb)
      -- the stack given back was the exiting task's, and nobody else's
      intro he
      rw [pageAt_injective he] at hb
      obtain ⟨hqp, hr⟩ := h.once q k.current hq hin r .stack _ hb hcur
      rcases hqr with hqr | hqr
      · exact hqr hqp
      · rw [hr] at hqr
        exact Use.noConfusion hqr
    refine ⟨mm', c', live.erase (pageAt k.cur.stack), exitProcess_stack hs hg.run, ?_,
      fun q b hq hb => hkeep q .task b hq (Or.inr rfl) hb, Or.inr ⟨_, hcur, hg⟩⟩
    refine h.setTask hg.inv rfl (h.range _) hkeep ?_
    intro _ b hb
    rw [hzombie] at hb
    exact absurd hb (by simp)

/-- What `exit_process` hands to the scheduler, the stack given back if there was one. -/
theorem exited_spec (h : TaskInv k c live) (hne : k.current ≠ .initTask) :
    ∃ mm' c' live', exitProcess k = schedule (exited k mm') ∧ TableInv (exited k mm') c' live' ∧
      ((k.cur.userStack = none ∧ mm' = k.mm) ∨
        ∃ s, k.cur.userStack = some s ∧ GavePage k.mm live s mm' c') := by
  have hrun : k.cur.state = .running := h.current.2
  obtain ⟨mm', c', live', hex⟩ := h.slotInv.exitProcess h.current.1
    (fun _ he => TaskState.noConfusion (hrun.symm.trans he))
  refine ⟨mm', c', live', hex.run, ⟨hex.inv.toUseInv, hex.inv.pid, h.count, ?_, hex.inv.range⟩, hex.stack⟩
  show (Function.update k.tasks k.current _ .initTask).state = .running
  rw [Function.update_of_ne hne.symm]
  exact h.initRunning

/-- The kernel after `sys_kill` of the task on page `a` in slot `i`. -/
def killed (k : Kernel) (mm : Mm) (i a : Nat) : Kernel :=
  { k.updateTask (.page a) (fun t => { t with flags := 0 }) with
    mm := mm, task := Function.update k.task i none, nrTasks := k.nrTasks - 1 }

theorem sysKill_eq {mm' : Mm} (hi : i < taskSlots) (hi0 : i ≠ 0) (hpid : k.cur.pid ≠ i)
    (hslot : k.task i = some (.page a)) (hfree : kfree k.mm a = .ok mm') :
    sysKill k i = .ok (killed k mm' i a) := by
  have hrange : (0 : Int) ≤ (i : Int) ∧ (i : Int) < taskSlots := by omega
  have h0 : (i : Int) ≠ 0 := by omega
  simp only [sysKill, if_neg hpid, if_neg h0, taskAt, if_pos hrange, Int.toNat_natCast, hslot, ok_bind,
    Kernel.updateTask_mm, hfree, Kernel.updateTask_task, Kernel.updateTask_nrTasks, killed]

/-- `sys_kill` gave the page `a` of the task in slot `i` back. -/
structure Killed (k : Kernel) (live : List Live) (i a : Nat) (mm' : Mm) (c' : Link → List Nat) : Prop where
  slot : k.task i = some (.page a)
  notCurrent : k.current ≠ .page a
  page : GavePage k.mm live a mm' c'
  run : sysKill k i = .ok (killed k mm' i a)

theorem SlotInv.sysKill (h : SlotInv k c live) (hi : i < taskSlots) (hi0 : i ≠ 0) (hpid : k.cur.pid ≠ i)
    (hslot : k.task i ≠ none) : ∃ a mm' c', Killed k live i a mm' c' := by
  obtain ⟨p, hp⟩ := Option.ne_none_iff_exists'.mp hslot
  cases p with
  | initTask => exact absurd (h.slot_unique hp h.init) hi0
  | page a =>
      obtain ⟨mm', c', hg⟩ := kfree_page h.mm (h.live _ (h.inTable hp) .task a rfl)
      have hcur : k.current ≠ .page a := by
        intro he
        refine hpid ?_
        have := h.pid i _ hp
        rw [← he] at this
        exact this
      exact ⟨a, mm', c', hp, hcur, hg, sysKill_eq hi hi0 hpid hp hg.run⟩

/-- **`sys_kill`** of another task than the caller and `init_task`. -/
theorem sysKill_spec (h : TaskInv k c live) (hi : i < taskSlots) (hi0 : i ≠ 0) (hpid : k.cur.pid ≠ i)
    (hslot : k.task i ≠ none) :
    ∃ a mm' c', k.task i = some (.page a) ∧ GavePage k.mm live a mm' c' ∧
      sysKill k i = .ok (killed k mm' i a) ∧ TaskInv (killed k mm' i a) c' (live.erase (pageAt a)) := by
  obtain ⟨a, mm', c', hk⟩ := h.slotInv.sysKill hi hi0 hpid hslot
  have h₁ : TaskInv (k.updateTask (.page a) (fun t => { t with flags := 0 })) c live :=
    h.updateTask ⟨rfl, rfl, rfl, rfl, rfl⟩
  exact ⟨a, mm', c', hk.slot, hk.page, hk.run, h₁.removeTask hk.slot hk.notCurrent hk.page.inv⟩

end OsdiKernel
