import OsdiKernel.Trap.Fork

/-!
# Kernel threads and the way to user mode

A thread that `copy_process` makes of a function begins in `ret_from_fork`,
which calls the function with its argument. Should that return, the thread
leaves through the frame at the top of its page: a frame of zeros, unless
`move_to_user_mode` has put a program there.
-/

namespace OsdiKernel

open A64 Cpu

variable {im : Linked} {mem mem' : Nat → UInt8} {cur p a s i j w x cloneFlags fn arg pc pid : Nat}

/-! ## `copy_process` with `PF_KTHREAD` -/

/-- What is in the page of a kernel thread that the task at `cur` made. -/
structure KthreadWords (im : Linked) (mem mem' : Nat → UInt8) (cur p cloneFlags fn arg : Nat) : Prop where
  frame : ∀ i < ptRegsWords, word mem' p (478 + i) = 0
  x19 : word mem' p x19Word = fn % 2 ^ 64
  x20 : word mem' p x20Word = arg % 2 ^ 64
  contextSp : word mem' p contextSpWord = taskPtRegs p % 2 ^ 64
  contextPc : word mem' p contextPcWord = im.retFromFork
  state : word mem' p stateWord = TaskState.running.code
  counter : word mem' p counterWord = word mem cur priorityWord
  priority : word mem' p priorityWord = word mem cur priorityWord
  preemptCount : word mem' p preemptCountWord = 1
  stack : word mem' p stackWord = 0
  flags : word mem' p flagsWord = cloneFlags % 2 ^ 64

/-- The page once `memzero` has been called twice. -/
def zeroedMem (mem : Nat → UInt8) (p : Nat) : Nat → UInt8 :=
  memzero (memzero mem (taskPtRegs p) (8 * ptRegsWords)) p (8 * cpuContextWords)

theorem zeroedMem_eq :
    zeroedMem mem p = memzeroTurns (memzeroTurns mem (taskPtRegs p) ptRegsWords) p cpuContextWords := by
  rw [zeroedMem, memzero_words _ (by decide), memzero_words _ (by decide)]

theorem zeroedMem_frame (hi : i < ptRegsWords) : word (zeroedMem mem p) p (478 + i) = 0 := by
  have hword : word (zeroedMem mem p) p (478 + i) = word (memzeroTurns mem (taskPtRegs p) ptRegsWords) (taskPtRegs p) i := by
    rw [zeroedMem_eq, word_taskPtRegs]
    -- the context lies below
    refine load64_congr (fun y hy => ?_)
    rw [memzeroTurns_byte, if_neg]
    unfold Within cpuContextWords at *
    omega
  rw [hword, word_memzeroTurns hi]

theorem zeroedMem_byte (hx : ¬ Within p pageSize x) : zeroedMem mem p x = mem x := by
  rw [zeroedMem_eq, zeroed_byte hx]

theorem copyTaskMem_kthread (hk : cloneFlags &&& pfKthread ≠ 0) (h : PagesApart cur p) :
    KthreadWords im mem (copyTaskMem im mem cur p cloneFlags fn arg s) cur p cloneFlags fn arg := by
  simp only [copyTaskMem, if_pos hk]
  rw [← zeroedMem]
  have hprio : word (zeroedMem mem p) cur priorityWord = word mem cur priorityWord :=
    word_congr (fun x hx => zeroedMem_byte (h.not_within hx)) (by decide)
  have hmod : word mem cur priorityWord % 2 ^ 64 = word mem cur priorityWord := Nat.mod_eq_of_lt (word_lt ..)
  refine ⟨?_, ?_, ?_, ?_, ?_, ?_, ?_, ?_, ?_, ?_, ?_⟩
  · intro i hi
    have hfield : ∀ {m : Nat → UInt8} {j w : Nat}, j < 478 → word (setWord m p j w) p (478 + i) = word m p (478 + i) :=
      fun hj => setWord_ne (by omega)
    simp (disch := decide) only [hfield]
    exact zeroedMem_frame hi
  · simp (disch := decide) only [setWord_ne, setWord_self]
  · simp (disch := decide) only [setWord_ne, setWord_self]
  · exact setWord_self
  · rw [setWord_ne (by decide), setWord_self, Nat.mod_eq_of_lt im.label]
  · simp (disch := decide) only [setWord_ne, setWord_self]
    rfl
  · simp (disch := decide) only [setWord_ne, setWord_self, setWord_apart h, hprio, hmod]
  · simp (disch := decide) only [setWord_ne, setWord_self, setWord_apart h, hprio, hmod]
  · simp (disch := decide) only [setWord_ne, setWord_self]
    rfl
  · simp (disch := decide) only [setWord_ne, setWord_self]
    rfl
  · simp (disch := decide) only [setWord_ne, setWord_self]

theorem copyTaskMem_kthread_byte (hk : cloneFlags &&& pfKthread ≠ 0) (hx : ¬ Within p pageSize x) :
    copyTaskMem im mem cur p cloneFlags fn arg s x = mem x := by
  have hbyte : ∀ {m : Nat → UInt8} {j w : Nat}, j < 512 → setWord m p j w x = m x := fun hj => setWord_byte hj hx
  simp only [copyTaskMem, if_pos hk]
  rw [← zeroedMem]
  simp (disch := decide) only [hbyte]
  exact zeroedMem_byte hx

/-- What `copy_process` does to memory, with `cur` current and the new task on page `p`. -/
def kthreadMem (im : Linked) (mem : Nat → UInt8) (cur p cloneFlags fn arg pid : Nat) : Nat → UInt8 :=
  enableMem (setWord (copyTaskMem im (disableMem mem cur) cur p cloneFlags fn arg 0) p pidWord pid) cur

theorem kthreadMem_words (hk : cloneFlags &&& pfKthread ≠ 0) (h : PagesApart cur p) :
    KthreadWords im mem (kthreadMem im mem cur p cloneFlags fn arg pid) cur p cloneFlags fn arg := by
  have hcopy := @copyTaskMem_kthread im (disableMem mem cur) cur p 0 cloneFlags fn arg hk h
  have hprio : word (disableMem mem cur) cur priorityWord = word mem cur priorityWord := disableMem_word (by decide)
  have hpage : ∀ i, i < 512 → i ≠ pidWord → word (kthreadMem im mem cur p cloneFlags fn arg pid) p i
      = word (copyTaskMem im (disableMem mem cur) cur p cloneFlags fn arg 0) p i :=
    fun i hi hne => (setWord_apart h.symm hi (by decide)).trans (setWord_ne hne)
  refine ⟨fun i hi => ?_, ?_, ?_, ?_, ?_, ?_, ?_, ?_, ?_, ?_, ?_⟩
  · unfold ptRegsWords at hi
    rw [hpage _ (by omega) (by unfold pidWord; omega), hcopy.frame i hi]
  · rw [hpage _ (by decide) (by decide), hcopy.x19]
  · rw [hpage _ (by decide) (by decide), hcopy.x20]
  · rw [hpage _ (by decide) (by decide), hcopy.contextSp]
  · rw [hpage _ (by decide) (by decide), hcopy.contextPc]
  · rw [hpage _ (by decide) (by decide), hcopy.state]
  · rw [hpage _ (by decide) (by decide), hcopy.counter, hprio]
  · rw [hpage _ (by decide) (by decide), hcopy.priority, hprio]
  · rw [hpage _ (by decide) (by decide), hcopy.preemptCount]
  · rw [hpage _ (by decide) (by decide), hcopy.stack]
  · rw [hpage _ (by decide) (by decide), hcopy.flags]

theorem kthreadMem_pid (h : PagesApart cur p) :
    word (kthreadMem im mem cur p cloneFlags fn arg pid) p pidWord = pid % 2 ^ 64 :=
  (setWord_apart h.symm (by decide) (by decide)).trans setWord_self

/-- Nothing else has changed: the `preempt_count` of the one who called is back where it was. -/
theorem kthreadMem_byte (hk : cloneFlags &&& pfKthread ≠ 0) (h : PagesApart cur p) (hx : ¬ Within p pageSize x) :
    kthreadMem im mem cur p cloneFlags fn arg pid x = mem x := by
  have hcopied : ∀ y, ¬ Within p pageSize y → setWord (copyTaskMem im (disableMem mem cur) cur p cloneFlags fn arg 0) p pidWord pid y
      = disableMem mem cur y :=
    fun y hy => (setWord_byte (by decide) hy).trans (copyTaskMem_kthread_byte hk hy)
  by_cases hcount : Within (cur + 8 * preemptCountWord) 8 x
  · refine byte_of_word (p := cur) (i := preemptCountWord) ?_ hcount
    have hlt := word_lt mem cur preemptCountWord
    have hcur : word (setWord (copyTaskMem im (disableMem mem cur) cur p cloneFlags fn arg 0) p pidWord pid) cur preemptCountWord
        = (word mem cur preemptCountWord + 1) % 2 ^ 64 := by
      rw [word_congr (fun y hy => hcopied y (h.not_within hy)) (by decide), disableMem, setWord_self]
    rw [kthreadMem, enableMem, setWord_self, hcur]
    omega
  · rw [kthreadMem, enableMem_byte hcount, hcopied x hx, disableMem_byte hcount]

/-! ## The calls -/

variable {k : Kernel} {r r' : RawKernel} {cpu : Cpu (Nat → UInt8)} {mm₁ : Mm}

/-- **The call**, with a page and a slot. -/
theorem copyProcessMem_eq (hpage : kmalloc r.mm pageSize = .ok (some a, mm₁)) (hslot : firstFree r.task = some i) :
    copyProcessMem im r cloneFlags fn arg 0 = .ok ((i : Int), {
      mm := mm₁
      mem := kthreadMem im r.mem (im.addr r.current) a cloneFlags fn arg i
      task := Function.update r.task i (some (.page a))
      current := r.current
      nrTasks := r.nrTasks + 1 }) := by
  simp only [copyProcessMem, hpage, ok_bind, hslot]
  rfl

/-- A program that was never there. -/
def zeroCtx (a : Nat) : Ctx := ⟨fun _ => 0, BitVec.ofNat 64 (a + pageSize), 0, 0, 0⟩

theorem ctxAt_zero (h : ∀ i < ptRegsWords, word mem a (478 + i) = 0) : ctxAt mem (taskPtRegs a) = zeroCtx a := by
  have hload : ∀ i < ptRegsWords, load mem (taskPtRegs a + 8 * i) = 0 := by
    intro i hi
    rw [load_word, word_taskPtRegs, h i hi]
    rfl
  rw [ctxAt, taskPtRegs_top, funext (fun r : Fin 31 => hload r (by unfold ptRegsWords; omega)), hload 31 (by decide),
    hload 32 (by decide), hload 33 (by decide)]
  rfl

/-- `copy_process` made a kernel thread on page `a`, in slot `i`. -/
structure KthreadMade (im : Linked) (k : Kernel) (r : RawKernel) (cpu : Cpu (Nat → UInt8)) (live : List Live)
    (cloneFlags fn arg i a : Nat) (mm' : Mm) (lk' : Link → List Nat) : Prop where
  copied : Copied k live cloneFlags fn arg 0 i a mm' lk'
  run : copyProcessMem im r cloneFlags fn arg 0 = .ok ((i : Int), {
    mm := mm'
    mem := kthreadMem im r.mem (im.addr r.current) a cloneFlags fn arg i
    task := Function.update r.task i (some (.page a))
    current := r.current
    nrTasks := r.nrTasks + 1 })
  apart : PagesApart (im.addr r.current) a
  contextSp : word (kthreadMem im r.mem (im.addr r.current) a cloneFlags fn arg i) a contextSpWord = taskPtRegs a
  keeps : KeepsTasks im r (kthreadMem im r.mem (im.addr r.current) a cloneFlags fn arg i)
  legal : cpu.Legal (.create a (newThread (kthreadMem im r.mem (im.addr r.current) a cloneFlags fn arg i) a)
    (kthreadMem im r.mem (im.addr r.current) a cloneFlags fn arg i))

theorem kthread_made {lk : Link → List Nat} {live : List Live} (hinv : TaskInv k lk live) (hm : InMemory im r k)
    (hcan : CanCopy k) (hflags : cloneFlags &&& pfKthread ≠ 0) (hcpu : CpuInv cpu) (hhosts : Hosts im r cpu) (fn arg : Nat) :
    ∃ i a mm' lk', KthreadMade im k r cpu live cloneFlags fn arg i a mm' lk' := by
  obtain ⟨i, a, mm₁, c₁, hcopy⟩ := hinv.slotInv.copyProcess hinv.current.1 hflags hcan fn arg 0
  have hrun := @copyProcessMem_eq im a i cloneFlags fn arg r mm₁ (by rw [hm.mm]; exact hcopy.page.run)
    (by rw [hm.task]; exact hcopy.slot)
  have hfresh : FreshPage im r a := hcopy.page.freshPage hinv.toUseInv (fun b hb => hb) hm.task
  have hcur : PagesApart (im.addr r.current) a := by
    obtain ⟨j, hj, hslot⟩ := hinv.current.1
    refine hfresh.apart j r.current hj ?_
    rw [hm.task, hm.current]
    exact hslot
  have hwords := @kthreadMem_words im r.mem (im.addr r.current) a cloneFlags fn arg i hflags hcur
  have hkeeps : KeepsTasks im r (kthreadMem im r.mem (im.addr r.current) a cloneFlags fn arg i) := by
    refine ⟨fun x hx => kthreadMem_byte hflags hcur ?_, fun j v hj hv x hx => ?_⟩
    · have habove := hfresh.above
      unfold Within
      omega
    · exact kthreadMem_byte hflags hcur ((hfresh.apart j v hj hv).not_within hx)
  have hframe : taskPtRegs a < 2 ^ 64 := by
    have hfits := hfresh.fits
    unfold pageSize at hfits
    unfold taskPtRegs
    omega
  have hsp : word (kthreadMem im r.mem (im.addr r.current) a cloneFlags fn arg i) a contextSpWord = taskPtRegs a := by
    rw [hwords.contextSp, Nat.mod_eq_of_lt hframe]
  exact ⟨i, a, mm₁, c₁, hcopy, hrun, hcur, hsp, hkeeps, hhosts.can_create hcpu hfresh hkeeps hsp⟩

/--
**A kernel thread** begins in `ret_from_fork` with its function and argument in
`x19` and `x20`, on an empty stack. If the function returns and the frame was left as it
is, the thread goes on at address 0 in user mode.
-/
theorem kthread_starts (fn arg : Nat) (hk : KernelReachable k) (hm : InMemory im r k) (hcan : CanCopy k)
    (hflags : cloneFlags &&& pfKthread ≠ 0) (hreach : Cpu.Reachable cpu) (hhosts : Hosts im r cpu) :
    ∃ (pid a : Nat) (r' : RawKernel), copyProcessMem im r cloneFlags fn arg 0 = .ok ((pid : Int), r') ∧
      cpu.Legal (.create a (newThread r'.mem a) r'.mem) ∧
      let made := cpu.step (.create a (newThread r'.mem a) r'.mem)
      StartsAt made a (BitVec.ofNat 64 im.retFromFork) (BitVec.ofNat 64 fn) (BitVec.ofNat 64 arg)
          (BitVec.ofNat 64 (taskPtRegs a)) ∧
        LeavesWith made a (zeroCtx a) := by
  obtain ⟨lk, live, hinv⟩ := (kernelOk_reachable hk).task
  have hcpu := cpuInv_reachable hreach
  obtain ⟨i, a, mm', lk', hmade⟩ := kthread_made hinv hm hcan hflags hcpu hhosts fn arg
  have hwords := @kthreadMem_words im r.mem (im.addr r.current) a cloneFlags fn arg i hflags hmade.apart
  refine ⟨i, a, _, hmade.run, hmade.legal, ?_⟩
  obtain ⟨hstarts, hleaves⟩ := hcpu.newThread_starts hmade.legal
  rw [hwords.contextPc, hwords.x19, hwords.x20, hmade.contextSp, ofNat_mod, ofNat_mod] at hstarts
  rw [ctxAt_zero hwords.frame] at hleaves
  exact ⟨hstarts, hleaves⟩

/-- The first process, in the kernel, makes a thread of the function at `0x81000`. -/
theorem kthread_starts_first :
    ∃ k, TaskReachable k ∧ ∃ (pid a : Nat) (r' : RawKernel),
      copyProcessMem smallImage (forkingMem k) pfKthread 0x81000 5 0 = .ok ((pid : Int), r') ∧
        StartsAt ((firstForking k).step (.create a (newThread r'.mem a) r'.mem)) a 0x80800 0x81000 5
          (BitVec.ofNat 64 (taskPtRegs a)) := by
  obtain ⟨k, hk, hcan, htwo⟩ := firstTwo
  obtain ⟨pid, a, r', hrun, _, hstarts, _⟩ := kthread_starts 0x81000 5 hk.kernel (forkingMem_inMemory htwo)
    ⟨hcan.1, hcan.2.nonempty⟩ (show pfKthread &&& pfKthread ≠ 0 by decide) (firstForking_reachable k)
    (firstForking_hosts htwo)
  exact ⟨k, hk, pid, a, r', hrun, hstarts⟩

/-! ## `move_to_user_mode` -/

/-- `pc` in `struct pt_regs`. -/
def pcWord : Nat := 32

/-- `pstate` in `struct pt_regs`. -/
def pstateWord : Nat := 33

/-- `move_to_user_mode` -/
def moveToUserModeMem (im : Linked) (r : RawKernel) (pc : Nat) : Except Fault (Int × RawKernel) := do
  let cur := im.addr r.current
  let regs := taskPtRegs cur
  let mem := memzero r.mem regs (8 * ptRegsWords)
  let mem := setWord mem regs pcWord pc
  let mem := setWord mem regs pstateWord psrModeEL0t
  let (stack, mm) ← kmalloc r.mm pageSize
  match stack with
  | none => .ok (-1, { r with mm, mem })
  | some stack =>
      let mem := setWord mem regs spWord (stack + pageSize)
      .ok (0, { r with mm, mem := setWord mem cur stackWord stack })

/-- What it does to memory when there is a page. -/
def userModeMem (mem : Nat → UInt8) (cur pc s : Nat) : Nat → UInt8 :=
  let mem := memzero mem (taskPtRegs cur) (8 * ptRegsWords)
  let mem := setWord mem (taskPtRegs cur) pcWord pc
  let mem := setWord mem (taskPtRegs cur) pstateWord psrModeEL0t
  let mem := setWord mem (taskPtRegs cur) spWord (s + pageSize)
  setWord mem cur stackWord s

/-- `move_to_user_mode`, down to the last store. -/
def userFrameMem (mem : Nat → UInt8) (cur pc s : Nat) : Nat → UInt8 :=
  let mem := memzero mem (taskPtRegs cur) (8 * ptRegsWords)
  let mem := setWord mem (taskPtRegs cur) pcWord pc
  let mem := setWord mem (taskPtRegs cur) pstateWord psrModeEL0t
  setWord mem (taskPtRegs cur) spWord (s + pageSize)

/-- A program at its start, with its stack on page `s`. -/
def userCtx (cur pc s : Nat) : Ctx :=
  ⟨fun _ => 0, BitVec.ofNat 64 (cur + pageSize), BitVec.ofNat 64 (s + pageSize), BitVec.ofNat 64 pc, 0⟩

theorem userModeMem_byte (hx : ¬ Within cur pageSize x) : userModeMem mem cur pc s x = mem x := by
  have hbyte : ∀ {m : Nat → UInt8} {j w : Nat}, j < 512 → setWord m cur j w x = m x := fun hj => setWord_byte hj hx
  simp only [userModeMem, setWord_taskPtRegs]
  simp (disch := decide) only [hbyte]
  rw [memzero_words _ (by decide), memzeroTurns_byte, if_neg]
  unfold Within taskPtRegs ptRegsWords pageSize at *
  omega

theorem ctxAt_userModeMem (mem : Nat → UInt8) : ctxAt (userModeMem mem cur pc s) (taskPtRegs cur) = userCtx cur pc s := by
  -- a word of the frame, whatever else is written
  have hword : ∀ i < ptRegsWords, word (userModeMem mem cur pc s) (taskPtRegs cur) i =
      if i = spWord then (s + pageSize) % 2 ^ 64 else if i = pstateWord then psrModeEL0t
        else if i = pcWord then pc % 2 ^ 64 else 0 := by
    intro i hi
    have hstack : word (userModeMem mem cur pc s) (taskPtRegs cur) i = word (userFrameMem mem cur pc s) (taskPtRegs cur) i := by
      rw [word_taskPtRegs, word_taskPtRegs]
      exact setWord_ne (by unfold stackWord; omega)
    rw [hstack, userFrameMem]
    by_cases hsp : i = spWord
    · rw [hsp, setWord_self, if_pos rfl]
    · rw [setWord_ne hsp, if_neg hsp]
      by_cases hps : i = pstateWord
      · rw [hps, setWord_self, if_pos rfl]
        rfl
      · rw [setWord_ne hps, if_neg hps]
        by_cases hpc : i = pcWord
        · rw [hpc, setWord_self, if_pos rfl]
        · rw [setWord_ne hpc, if_neg hpc, memzero_words _ (by decide), word_memzeroTurns hi]
  have hx : (fun r : Fin 31 => load (userModeMem mem cur pc s) (taskPtRegs cur + 8 * r)) = fun _ => 0 := by
    funext r
    rw [load_word, hword r (by unfold ptRegsWords; omega), if_neg (by unfold spWord; omega),
      if_neg (by unfold pstateWord; omega), if_neg (by unfold pcWord; omega)]
    rfl
  have hsp : load (userModeMem mem cur pc s) (taskPtRegs cur + 8 * 31) = BitVec.ofNat 64 (s + pageSize) := by
    rw [load_word, hword 31 (by decide), if_pos (show 31 = spWord from rfl), ofNat_mod]
  have hpc : load (userModeMem mem cur pc s) (taskPtRegs cur + 8 * 32) = BitVec.ofNat 64 pc := by
    rw [load_word, hword 32 (by decide), if_neg (by decide), if_neg (by decide), if_pos (show 32 = pcWord from rfl), ofNat_mod]
  have hps : load (userModeMem mem cur pc s) (taskPtRegs cur + 8 * 33) = 0 := by
    rw [load_word, hword 33 (by decide), if_neg (by decide), if_pos (show 33 = pstateWord from rfl)]
    rfl
  rw [ctxAt, hx, hsp, hpc, hps, taskPtRegs_top]
  rfl

/-- What is written in the page of the current task is nobody else's. -/
theorem Hosts.held_elsewhere {lk : Link → List Nat} {live : List Live} (hh : Hosts im r cpu) (hcpu : CpuInv cpu)
    (hm : InMemory im r k) (h : UseInv k lk live) (hcur : InTable k k.current) {q b : Nat} {u : Thread} (hq : q ≠ cpu.current)
    (hu : cpu.thread q = some u) (hb : u.Word q b) (hx : Within b 8 x) : ¬ Within cpu.current pageSize x := by
  obtain ⟨i, v, hi, hv, rfl, hinit, hpage⟩ := hh.task q u hu
  have hin : InTable k v := ⟨i, hi, by rw [← hm.task]; exact hv⟩
  have hcurEq : cpu.current = im.addr k.current := by rw [hh.current, hm.current]
  have hne : v ≠ k.current := by
    rintro rfl
    exact hq hcurEq.symm
  have hapart : PagesApart (im.addr v) (im.addr k.current) := h.tasks_apart im hin hcur hne
  have hstacked := (hcpu.placed _ u hu).stacked
  have hlow := hstacked.le_floor
  obtain ⟨hx1, hx2⟩ := hx
  rw [hcurEq]
  rcases hb with ⟨f, j, hf, hj, rfl⟩ | ⟨j, hj, rfl⟩
  · have hmem := hstacked.mem hf
    unfold sFrameSize at hmem
    cases v with
    | initTask =>
        -- the boot stack is below the frames, and the current task is not `init_task`
        have htop := hinit rfl
        cases hk : k.current with
        | initTask => exact absurd hk.symm hne
        | page b =>
            obtain ⟨f', _, hfa, _⟩ := h.mm.slab.pageAllocated (h.live _ hcur .task b (by rw [hk]; rfl))
            show ¬ Within b pageSize x
            rw [hfa]
            unfold Within frameAddr
            omega
    | page b =>
        obtain ⟨hb1, hb2⟩ := hpage b rfl
        exact hapart.not_within ⟨show b ≤ x by omega, show x < b + pageSize by omega⟩
  · refine hapart.not_within ⟨by omega, ?_⟩
    unfold pageSize
    omega

/-- `move_to_user_mode` took page `s` for the stack of the current task, whose one frame is written to. -/
structure UserModeMade (im : Linked) (k : Kernel) (r : RawKernel) (cpu : Cpu (Nat → UInt8)) (live : List Live) (pc s : Nat)
    (mm' : Mm) (lk' : Link → List Nat) : Prop where
  page : TookPage k.mm live s mm' lk'
  run : moveToUserModeMem im r pc = .ok (0, { r with mm := mm', mem := userModeMem r.mem cpu.current pc s })
  legal : cpu.Legal (.amend 0 (userCtx cpu.current pc s) (userModeMem r.mem cpu.current pc s))

theorem userMode_made {lk : Link → List Nat} {live : List Live} (pc : Nat) (hinv : TaskInv k lk live) (hm : InMemory im r k)
    (hpage : (freeFrames k.mm).Nonempty) (hcpu : CpuInv cpu) (hhosts : Hosts im r cpu) {c : Ctx}
    (hcall : cpu.Deep cpu.current 0 [⟨0, taskPtRegs cpu.current, c⟩]) :
    ∃ s mm' lk', UserModeMade im k r cpu live pc s mm' lk' := by
  have hcur : InTable k k.current := hinv.current.1
  have hcurEq : cpu.current = im.addr r.current := hhosts.current
  obtain ⟨s, mm', c', ht⟩ := takePage hinv.mm hpage
  have hrun : moveToUserModeMem im r pc
      = .ok (0, { r with mm := mm', mem := userModeMem r.mem cpu.current pc s }) := by
    have hmm : kmalloc r.mm pageSize = .ok (some s, mm') := by rw [hm.mm]; exact ht.run
    simp only [moveToUserModeMem, hmm, ok_bind, ← hcurEq]
    rfl
  obtain ⟨t, hthread, _, hsaved⟩ := id hcall
  rw [List.drop_zero] at hsaved
  have hframe : WordsAt (userModeMem r.mem cpu.current pc s) (taskPtRegs cpu.current) (frameWords 0 (userCtx cpu.current pc s)) := by
    rw [← ctxAt_userModeMem r.mem]
    exact wordsAt_ctxAt _ _
  have hfirst : t.saved[0]? = some ⟨0, taskPtRegs cpu.current, c⟩ := by
    rw [hsaved]
    rfl
  refine ⟨s, mm', c', ht, hrun, t, _, hthread, hfirst, hframe, fun b hb hne => ?_⟩
  rw [hhosts.mem]
  have hother : ∀ q u, q ≠ cpu.current → cpu.thread q = some u → u.Word q b →
      load (userModeMem r.mem cpu.current pc s) b = load r.mem b := fun q u hq hu hw =>
    load_kept (fun x hx => userModeMem_byte (hhosts.held_elsewhere hcpu hm hinv.toUseInv hcur hq hu hw hx))
  rcases hb with ⟨q, u, f, i, hu, hf, hi, rfl⟩ | ⟨q, u, i, hq, hu, hi, rfl⟩
  · by_cases hq : q = cpu.current
    · -- there is only the one frame
      subst hq
      obtain rfl := Option.some.inj (hthread.symm.trans hu)
      rw [hsaved] at hf
      obtain rfl := List.mem_singleton.mp hf
      exact absurd rfl (hne i hi)
    · exact hother q u hq hu (Or.inl ⟨f, i, hf, hi, rfl⟩)
  · exact hother q u hq hu (Or.inr ⟨i, hi, rfl⟩)

/--
**`move_to_user_mode`**, called by the function of a kernel thread: when the
function returns, the thread goes on at `pc` in user mode, with nothing in its registers and a
stack of its own.
-/
theorem userMode_enters (pc : Nat) (hk : KernelReachable k) (hm : InMemory im r k) (hpage : (freeFrames k.mm).Nonempty)
    (hreach : Cpu.Reachable cpu) (hhosts : Hosts im r cpu) {c : Ctx}
    (hcall : cpu.Deep cpu.current 0 [⟨0, taskPtRegs cpu.current, c⟩]) :
    ∃ s r', moveToUserModeMem im r pc = .ok (0, r') ∧ cpu.Legal (.amend 0 (userCtx cpu.current pc s) r'.mem) ∧
      ∀ es cpu', Run (cpu.step (.amend 0 (userCtx cpu.current pc s) r'.mem)) es cpu' →
        depth cpu.current cpu.current 0 es = some (cpu.current, 0) → cpu'.Legal (.resume 0) →
          ctxOf (cpu'.step (.resume 0)).core.regs = userCtx cpu.current pc s := by
  obtain ⟨lk, live, hinv⟩ := (kernelOk_reachable hk).task
  have hcpu := cpuInv_reachable hreach
  obtain ⟨s, mm', c', hmade⟩ := userMode_made pc hinv hm hpage hcpu hhosts hcall
  refine ⟨s, _, hmade.run, hmade.legal, fun es cpu' hes hback hret => ?_⟩
  -- the frame as it is now
  obtain ⟨hdeep', hcur'⟩ := (hcall.amended (userCtx cpu.current pc s) _).run hes hback
  rw [← hcur'] at hdeep'
  have hres := ((hcpu.step hmade.legal).run hes).resumed hdeep' hret
  rw [hres, taskPtRegs_top, hcur']
  rfl

/-- The first process is sent to `0x1000`, and interrupted before the function returns. -/
theorem userMode_enters_first :
    ∃ k, TaskReachable k ∧ ∃ s r', moveToUserModeMem smallImage (forkingMem k) 0x1000 = .ok (0, r') ∧
      let cpu := (firstForking k).step (.amend 0 (userCtx (firstForking k).current 0x1000 s) r'.mem)
      (firstForking k).Legal (.amend 0 (userCtx (firstForking k).current 0x1000 s) r'.mem) ∧
        Run cpu [.interrupt 1 0x80a80, .resume 1] ((cpu.step (.interrupt 1 0x80a80)).step (.resume 1)) ∧
        ctxOf (((cpu.step (.interrupt 1 0x80a80)).step (.resume 1)).step (.resume 0)).core.regs
          = userCtx (firstForking k).current 0x1000 s := by
  obtain ⟨k, hk, hcan, htwo⟩ := firstTwo
  obtain ⟨s, r', hrun, hlegal, hreturns⟩ := userMode_enters 0x1000 hk.kernel (forkingMem_inMemory htwo)
    hcan.2.nonempty (firstForking_reachable k) (firstForking_hosts htwo) (firstForking_deep k)
  refine ⟨k, hk, s, r', hrun, hlegal, ?_⟩
  have hcpu := (cpuInv_reachable (firstForking_reachable k)).step hlegal
  have hint : ((firstForking k).step (.amend 0 (userCtx (firstForking k).current 0x1000 s) r'.mem)).Legal
      (.interrupt 1 0x80a80) := interrupt_amended (firstForking_interrupt k)
  have hframe : (firstForking k).core.regs.sp.toNat = taskPtRegs (firstForking k).current := by
    rw [firstForking_sp]
    exact show (0x200ef0 : BitVec 64).toNat = taskPtRegs 0x200000 by decide
  obtain ⟨hes, hback, hret⟩ := hcpu.interrupted_return ((firstForking_deep k).amended _ _) hframe hint
  exact ⟨hes, hreturns _ _ hes hback hret⟩

end OsdiKernel
