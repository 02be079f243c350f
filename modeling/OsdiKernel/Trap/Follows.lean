import OsdiKernel.Trap.Whole

/-!
# The records follow

Call by call, what is in memory afterwards is what the records say, and what the
core went through are events it allows. With the core's own events this is a
simulation: every run of the kernel on its core is a run of `kernelSystem`, and
none of them gets stuck.
-/

namespace OsdiKernel

open A64 Cpu

variable {im : Linked} {w w' : Whole} {r : RawKernel} {m m' : Cpu (Nat → UInt8)} {k k' : Kernel} {lk : Link → List Nat}
  {live : List Live} {mem : Nat → UInt8} {i a : Nat}

/-! ## Calls -/

/-- A call returns, here and in the records, and the one follows the other. -/
def Returns (im : Linked) (w : Whole) (k : Kernel) (op : KernelOp) : Prop :=
  ∃ w' k', execKernel im w op = .ok w' ∧ kernelSystem.exec k op = .ok k' ∧ Follows im w' k' ∧ ∃ es, Run w.cpu es w'.cpu

theorem Follows.schedule (h : Follows im w k) (ht : TaskInv k lk live) (hinv : CpuInv w.cpu) :
    Returns im w k (.call .schedule) := by
  obtain ⟨k', p, hs, hsched, hinv'⟩ := schedule_outcome ht.toTableInv
  obtain ⟨r, hrun, hrec, ho⟩ := scheduleMem_refines h.records (ht.toUseInv.tasksApart im) ht.current.1 ht.range.rest hs
  obtain ⟨hfol, hes⟩ := h.switchTo ht.toUseInv hinv hrec hsched.only.task hinv'.current.1 ho
  exact ⟨_, k', by simp only [execKernel, hrun, ok_bind], hs, hfol, hes⟩

theorem Exited.tableInv {mm' : Mm} {lk' : Link → List Nat} {live' : List Live} (hex : Exited k lk live mm' lk' live')
    (ht : TaskInv k lk live) (hne : k.current ≠ .initTask) : TableInv (exited k mm') lk' live' := by
  refine ⟨hex.inv.toUseInv, hex.inv.pid, ht.count, ?_, hex.inv.range⟩
  show (Function.update k.tasks k.current _ .initTask).state = .running
  rw [Function.update_of_ne hne.symm]
  exact ht.initRunning

theorem Follows.exitProcess (h : Follows im w k) (ht : TaskInv k lk live) (hinv : CpuInv w.cpu) (hne : k.current ≠ .initTask) :
    Returns im w k (.call .exitProcess) := by
  obtain ⟨mm', lk', live', hex⟩ := ht.slotInv.exitProcess ht.current.1
    (fun _ he => TaskState.noConfusion (ht.current.2.symm.trans he))
  obtain ⟨k', p, hs, hsched, hinv'⟩ := schedule_outcome (hex.tableInv ht hne)
  have hexit : OsdiKernel.exitProcess k = .ok k' := hex.run.trans hs
  obtain ⟨r, hrun, hrec, ho⟩ := exitProcessMem_refines h.records (ht.toUseInv.tasksApart im) ht.current hex ht.range.rest hexit
  obtain ⟨hfol, hes⟩ := h.switchTo ht.toUseInv hinv hrec hsched.only.task hinv'.current.1 ho
  exact ⟨_, k', by simp only [execKernel, hrun, ok_bind], hexit, hfol, hes⟩

theorem Follows.timerInterrupt (h : Follows im w k) (ht : TaskInv k lk live) (hsec : SectionsOk k) (hinv : CpuInv w.cpu) :
    Returns im w k .timerInterrupt := by
  obtain ⟨k', hs, hinv', _, hsame⟩ := tickOnce_outcome ht hsec
  obtain ⟨hrec, ho⟩ := timerTickMem_refines h.records (ht.toUseInv.tasksApart im) ht.current.1
  have hcur : InTable (timerTick k) (timerTick k).current := ht.current.1
  have hself : (timerTick k).cur.counter = k.cur.counter - 1 := by
    show ((timerTick k).tasks k.current).counter = _
    rw [timerTick, Kernel.updateTask_self]
    rfl
  obtain ⟨_, hlo, hhi⟩ : _ ∧ 0 ≤ k.cur.counter ∧ k.cur.counter ≤ 2 ^ 30 := ht.range _ ht.current.1
  rcases taskPreemptionMem_refines hrec (ht.toUseInv.tasksApart im) hcur (by omega) (by omega) (timerTick_sections hsec).here
    (timerTick_rest ht.range) hs with ⟨hrun, rfl⟩ | ⟨r, hrun, hrec', ho'⟩
  · obtain ⟨hfol, hes⟩ := h.writes ht.toUseInv hinv hrec rfl rfl ho
    exact ⟨_, _, by simp only [execKernel, hrun, ok_bind]; rfl, hs, hfol, hes⟩
  · obtain ⟨hfol, hes⟩ := h.switchTo ht.toUseInv hinv hrec' hsame hinv'.current.1 (ho.trans ho')
    exact ⟨_, k', by simp only [execKernel, hrun, ok_bind]; rfl, hs, hfol, hes⟩

theorem Follows.sysMalloc {bytes : Int} (h : Follows im w k) (ht : TaskInv k lk live) (hinv : CpuInv w.cpu)
    (hcan : kmallocCan k.mm bytes = true) : Returns im w k (.call (.sysMalloc bytes)) := by
  obtain ⟨addr, k', hs, _⟩ := sysMalloc_outcome ht hcan
  obtain ⟨⟨addr', mm'⟩, hk, hk'⟩ := bind_eq_ok
    (show (kmalloc k.mm bytes >>= fun x => .ok (x.1, { k with mm := x.2 })) = .ok (addr, k') from hs)
  obtain ⟨rfl, rfl⟩ := Prod.mk.inj (Except.ok.inj hk')
  have hrun : sysMallocMem w.raw bytes = .ok (addr', { w.raw with mm := mm' }) := by
    simp only [sysMallocMem, h.records.mm, hk, ok_bind]
  obtain ⟨hfol, hes⟩ := h.writes ht.toUseInv hinv (h.records.setMm mm') rfl rfl (.refl _ _ _)
  refine ⟨_, _, by simp only [execKernel, hrun, ok_bind], ?_, hfol, hes⟩
  show (OsdiKernel.sysMalloc k bytes >>= fun x => .ok x.2) = _
  rw [hs]
  rfl

theorem drops_same (w : Whole) (pid : Int) : w.drops im w.raw pid = w.writes w.raw := by
  unfold Whole.drops
  cases w.raw.task pid.toNat <;> rfl

theorem Follows.sysKill {pid : Int} (h : Follows im w k) (ht : TaskInv k lk live) (hinv : CpuInv w.cpu) (h0 : 0 ≤ pid)
    (h64 : pid < taskSlots) (hslot : k.task pid.toNat ≠ none) : Returns im w k (.call (.sysKill pid)) := by
  have hp := h.tablePages ht.toUseInv
  have htask := h.records.task
  obtain ⟨i, rfl⟩ : ∃ i : Nat, pid = i := ⟨pid.toNat, by omega⟩
  rw [Int.toNat_natCast] at hslot
  have hi : i < taskSlots := by omega
  -- nothing is done about the caller, or the idle task
  have hnothing : sysKillMem im w.raw i = .ok w.raw → OsdiKernel.sysKill k i = .ok k → Returns im w k (.call (.sysKill i)) := by
    intro hrun hs
    obtain ⟨hfol, hes⟩ := h.writes ht.toUseInv hinv h.records rfl rfl (.refl _ _ _)
    exact ⟨w.writes w.raw, k, by simp only [execKernel, hrun, ok_bind, drops_same], hs, hfol, hes⟩
  have hcur := ht.current.1
  have hown := h.records.ownPid ht.slotInv hcur
  by_cases hpid : k.cur.pid = i
  · refine hnothing ?_ (by rw [OsdiKernel.sysKill, if_pos hpid])
    rw [sysKillMem, if_pos (hown.trans hpid)]
  · by_cases hi0 : i = 0
    · refine hnothing ?_ (by rw [OsdiKernel.sysKill, if_neg hpid, if_pos (by omega)])
      rw [sysKillMem, if_neg (by rw [hown]; exact hpid), if_pos (by omega)]
    · obtain ⟨a, mm', lk', hk⟩ := ht.slotInv.sysKill hi hi0 hpid hslot
      obtain ⟨r, hrun, hrec, ho, hsame⟩ := sysKillMem_refines h.records (ht.toUseInv.tasksApart im) ht.slotInv hcur hi hi0 hpid hk
      rw [← htask] at ho
      have hslotRaw : w.raw.task i = some (.page a) := by rw [htask]; exact hk.slot
      have hrtask : r.task = Function.update w.raw.task i none := by rw [hrec.task, htask]; rfl
      have hsp : w.cpu.core.regs.sp = w.cpu.core.regs.sp := rfl
      obtain ⟨hlegal, hh⟩ := h.housed.writes hp hinv ho hsp
      have hcura : w.cpu.current ≠ a := by
        intro he
        obtain ⟨n, hn, htn⟩ := hcur
        have hpages := hp.apart n i k.current (.page a) hn hi (by rw [htask]; exact htn) hslotRaw hk.notCurrent
        have haddr : im.addr k.current = a := by rw [← h.records.current, ← h.housed.current, he]
        rw [haddr] at hpages
        unfold PagesApart pageSize at hpages
        change a + 4096 ≤ a ∨ a + 4096 ≤ a at hpages
        omega
      have honly : ∀ j, w.raw.task j = some (.page a) → j = i := fun j hj =>
        ht.slotInv.slot_unique (by rw [← htask]; exact hj) hk.slot
      have hremove : Housed im r ((w.writes r).cpu.step (.remove a)) := hh.remove hp hi hslotRaw honly hrtask hsame rfl
      have hdrops : w.drops im r i = ⟨r, (w.writes r).cpu.step (.remove a)⟩ := by
        rw [Whole.drops, Int.toNat_natCast, hslotRaw, hrtask, Function.update_self]
        rfl
      refine ⟨w.drops im r i, _, by simp only [execKernel, hrun, ok_bind], hk.run, ?_, ?_⟩
      · rw [hdrops]
        exact ⟨hrec, hremove⟩
      · rw [hdrops]
        exact ⟨_, (Run.cons hlegal (.nil _)).snoc (show (w.writes r).cpu.Legal (.remove a) from hcura.symm)⟩

/-! ## Calls that make tasks -/

theorem KeepsTasks.keepsWords (h : KeepsTasks im r mem) : KeepsWords im r.task r.mem mem := by
  intro i v j hi hv hlo hhi
  unfold pidWord at hhi
  exact word_congr (fun x hx => h.task i v hi hv x hx) (by omega)

/-- The task is on page `a`, with its thread. -/
theorem Follows.adds {t : Task} (h : Follows im w k) (mm : Mm) (hi : i < taskSlots) (hfree : k.task i = none)
    (hnew : ∀ q, InTable k q → q ≠ .page a) (hkeeps : KeepsTasks im w.raw mem) (ht : TaskAt mem a t)
    (hlegal : w.cpu.Legal (.create a (newThread mem a) mem)) :
    let r : RawKernel := ⟨mm, mem, Function.update w.raw.task i (some (.page a)), w.raw.current, w.raw.nrTasks + 1⟩
    Follows im (w.adds r i) (addTask k mm i a t) ∧ ∃ es, Run w.cpu es (w.adds r i).cpu := by
  intro r
  have hadds : w.adds r i = ⟨r, w.cpu.step (.create a (newThread mem a) mem)⟩ := by
    rw [Whole.adds, Int.toNat_natCast, show r.task i = some (.page a) from Function.update_self ..]
  have hkeeps' : KeepsWords im k.task w.raw.mem mem := by
    rw [← h.records.task]
    exact hkeeps.keepsWords
  have hhoused : Housed im r (w.cpu.step (.create a (newThread r.mem a) r.mem)) :=
    h.housed.create (by rw [h.records.task]; exact hfree) hi hlegal.1 rfl rfl
  rw [hadds]
  exact ⟨⟨h.records.addTask hi hfree hnew hkeeps' ht mm, hhoused⟩, _, .cons hlegal (.nil _)⟩

theorem KthreadWords.taskAt {mem' : Nat → UInt8} {cur p cloneFlags fn arg : Nat} {t : Task}
    (hw : KthreadWords im mem mem' cur p cloneFlags fn arg) (ht : word mem cur priorityWord = toUnsignedLong t.priority)
    (hflags : cloneFlags < 2 ^ 64) (hpid : word mem' p pidWord = i) (hi : i < taskSlots) :
    TaskAt mem' p (copyTask t cloneFlags fn arg 0 (taskPtRegs p) i) := by
  refine .of_words hw.state (hw.counter.trans ht) (hw.priority.trans ht) hw.preemptCount ?_ ?_ ?_
  · rw [hw.stack]
    simp [copyTask]
  · rw [hw.flags, Nat.mod_eq_of_lt hflags, copyTask]
  · refine hpid.trans (toUnsignedLong_of_range ?_).symm
    exact Nat.lt_trans hi (by decide)

theorem Follows.copyProcess {cloneFlags fn arg : Nat} (h : Follows im w k) (ht : TaskInv k lk live) (hinv : CpuInv w.cpu)
    (hk : cloneFlags &&& pfKthread ≠ 0) (h64 : cloneFlags < 2 ^ 64) (hcan : CanCopy k) :
    Returns im w k (.call (.copyProcess cloneFlags fn arg)) := by
  obtain ⟨i, a, mm', lk', hmade⟩ := kthread_made ht h.records.inMemory hcan hk hinv h.housed.hosts fn arg
  have hcopy := hmade.copied
  obtain ⟨hi, hfree⟩ := firstFree_some hcopy.slot
  have hwords := @kthreadMem_words im w.raw.mem (im.addr w.raw.current) a cloneFlags fn arg i hk hmade.apart
  have hprio : word w.raw.mem (im.addr w.raw.current) priorityWord = toUnsignedLong k.cur.priority := by
    rw [h.records.current]
    exact (h.records.tasks _ ht.current.1).priority
  have hpid : word (kthreadMem im w.raw.mem (im.addr w.raw.current) a cloneFlags fn arg i) a pidWord = i :=
    (kthreadMem_pid hmade.apart).trans (Nat.mod_eq_of_lt (Nat.lt_trans hi (by decide)))
  obtain ⟨hfol, hes⟩ := h.adds mm' hi hfree (fun q hq => ht.slotInv.fresh_ne hcopy.page.fresh hq) hmade.keeps
    (hwords.taskAt hprio h64 hpid hi) hmade.legal
  refine ⟨_, _, by simp only [execKernel, hmade.run, ok_bind], ?_, hfol, hes⟩
  show (OsdiKernel.copyProcess k cloneFlags fn arg 0 >>= fun x => .ok x.2) = _
  rw [hcopy.run]
  rfl

theorem ForkedWords.taskAt {mem' : Nat → UInt8} {cur p s tstack : Nat} {t : Task} (hw : ForkedWords im mem mem' cur tstack p s i)
    (ht : word mem cur priorityWord = toUnsignedLong t.priority) (hi : i < taskSlots) : TaskAt mem' p (forkTask t s p i) := by
  refine .of_words hw.state (hw.counter.trans ht) (hw.priority.trans ht) hw.preemptCount ?_ hw.flags ?_
  · rw [hw.stack]
    simp [forkTask, copyTask]
  · refine hw.pid.trans (toUnsignedLong_of_range ?_).symm
    exact Nat.lt_trans hi (by decide)

theorem Follows.sysFork {c : Ctx} (h : Follows im w k) (ht : TaskInv k lk live) (hinv : CpuInv w.cpu) (hcan : CanFork k)
    (huser : word w.raw.mem (im.addr w.raw.current) stackWord ≠ 0) (hcall : InCall w c)
    (hlo : word w.raw.mem (im.addr w.raw.current) stackWord ≤ c.spEl0.toNat)
    (hhi : c.spEl0.toNat ≤ word w.raw.mem (im.addr w.raw.current) stackWord + pageSize) :
    Returns im w k (.call .sysFork) := by
  obtain ⟨i, s, a, mm₁, mm₂, c₁, c₂, hmade⟩ := fork_made ht h.records.inMemory hcan huser hlo hhi hinv h.housed.hosts hcall
  have hf := hmade.forked
  obtain ⟨hi, hfree⟩ := firstFree_some hf.slot
  have hcur : TaskAt w.raw.mem (im.addr k.current) k.cur := h.records.tasks _ ht.current.1
  have htask := hmade.words.taskAt hcur.priority hi
  have hnew : ∀ q, InTable k q → q ≠ .page a := fun q hq => (ht.tookPage hf.stack).slotInv.fresh_ne hf.page.fresh hq
  obtain ⟨hfol, hes⟩ := h.adds mm₂ hi hfree hnew hmade.keeps htask hmade.legal
  have hrec := hfol.records
  have hexec : execKernel im w (.call .sysFork) = .ok (w.adds ⟨mm₂, forkMem im w.raw.mem (im.addr k.current) a s i,
      Function.update w.raw.task i (some (.page a)), w.raw.current, w.raw.nrTasks + 1⟩ i) := by
    rw [execKernel, hmade.run, ok_bind]
  refine ⟨_, forked k mm₂ i s a, hexec, ?_, ⟨?_, hfol.housed⟩, hes⟩
  · show (OsdiKernel.sysFork k >>= fun x => .ok x.2) = _
    rw [hf.run]
    rfl
  · -- the records have the stack's copy as well
    unfold forked
    generalize memcpy k.mem s k.cur.stack pageSize = copied
    exact ⟨hrec.mm, hrec.task, hrec.current, hrec.nrTasks, hrec.tasks⟩

/-! ## The way to user mode -/

theorem userFrameMem_byte {cur pc s x : Nat} (hx : ¬ Within (taskPtRegs cur) (8 * ptRegsWords) x) : userFrameMem mem cur pc s x = mem x := by
  have hbyte : ∀ {m : Nat → UInt8} {j n : Nat}, j < ptRegsWords → setWord m (taskPtRegs cur) j n x = m x := by
    intro m j n hj
    refine store64_ne (fun hin => hx ?_)
    unfold Within ptRegsWords at *
    omega
  simp (disch := decide) only [userFrameMem, hbyte]
  rw [memzero_words _ (by decide), memzeroTurns_byte, if_neg hx]

/-- The frame is behind the words of the task, in its page. -/
theorem TablePages.keeps_frame {task : Nat → Option TaskPtr} {p : TaskPtr} {j pc s : Nat} (hp : TablePages im task) (hj : j < taskSlots)
    (htj : task j = some p) : KeepsWords im task mem (userFrameMem mem (im.addr p) pc s) := by
  intro i v n hi hv hlo hhi
  refine load64_congr (fun x hx => userFrameMem_byte ?_)
  unfold pidWord at hhi
  unfold Within taskPtRegs ptRegsWords at *
  by_cases hvp : v = p
  · subst hvp
    omega
  · have hpages := hp.apart i j v p hi hj hv htj hvp
    unfold PagesApart pageSize at hpages
    omega

theorem Follows.moveToUserMode {c : Ctx} (pc : Nat) (h : Follows im w k) (ht : TaskInv k lk live) (hinv : CpuInv w.cpu)
    (hpage : (freeFrames k.mm).Nonempty) (hcall : InCall w c) : Returns im w k (.call (.moveToUserMode pc)) := by
  have hp := ht.toUseInv.tablePages im
  have hcur := ht.current.1
  obtain ⟨i, hi, hti⟩ := id hcur
  have hcurEq : w.cpu.current = im.addr k.current := by rw [h.housed.current, h.records.current]
  obtain ⟨s, mm', lk', hmade⟩ := userMode_made pc ht h.records.inMemory hpage hinv h.housed.hosts hcall
  obtain ⟨s', mm₁, lk₁, hpage', hmove, _⟩ := moveToUserMode_spec ht hpage pc
  obtain ⟨hs, hmm⟩ := Prod.mk.inj (Except.ok.inj (hmade.page.run.symm.trans hpage'.run))
  obtain rfl := Option.some.inj hs
  obtain rfl := hmm
  have hs64 : s < 2 ^ 64 := Nat.lt_of_le_of_lt (Nat.le_add_right ..) hmade.page.end_lt
  have hrec : Represents im { w.raw with mm := mm', mem := userModeMem w.raw.mem w.cpu.current pc s }
      (setCurrent k mm' (userTask k.cur pc s)) := by
    rw [hcurEq]
    exact h.records.setCurrent hp.apart hcur hs64 (hp.keeps_frame hi hti) pc mm'
  have hexec : execKernel im w (.call (.moveToUserMode pc)) = .ok ⟨{ w.raw with mm := mm', mem := userModeMem w.raw.mem w.cpu.current pc s },
      w.cpu.step (.amend 0 (userCtx w.cpu.current pc s) (userModeMem w.raw.mem w.cpu.current pc s))⟩ := by
    simp only [execKernel, hmade.run, ok_bind, ← h.housed.current, ctxAt_userModeMem]
  have hsame : SameStacks w.cpu (w.cpu.step (.amend 0 (userCtx w.cpu.current pc s) (userModeMem w.raw.mem w.cpu.current pc s))) :=
    sameStacks_current (f := fun t => amended t 0 (userCtx w.cpu.current pc s)) (fun _ => ⟨rfl, rfl⟩) rfl
  refine ⟨_, _, hexec, ?_, ⟨hrec, h.housed.congr rfl h.housed.current rfl hsame⟩, _, .cons hmade.legal (.nil _)⟩
  show (OsdiKernel.moveToUserMode k pc >>= fun x => .ok x.2) = _
  rw [hmove]
  rfl

/-! ## Runs -/

/-- The kernel when `main` begins: `init_task` alone, on the stack the loader left it. -/
structure WholeBoot (im : Linked) (w : Whole) : Prop where
  records : ∃ k, Boot k ∧ Represents im w.raw k
  housed : Housed im w.raw w.cpu
  cpu : Booted w.cpu

/-- What any moves lead to. -/
def WholeReachable (im : Linked) (w : Whole) : Prop := ∃ w₀, WholeBoot im w₀ ∧ (wholeSystem im).Reach w₀ w

/-- What `w` is, as records and as a core. -/
structure WholeOk (im : Linked) (w : Whole) (k : Kernel) : Prop where
  reachable : KernelReachable k
  follows : Follows im w k
  cpu : Cpu.Reachable w.cpu

theorem Cpu.Reachable.run {es : List (CpuEvent (Nat → UInt8))} (h : Cpu.Reachable m) (hr : Run m es m') : Cpu.Reachable m' := by
  obtain ⟨m₀, es₀, hboot, hr₀⟩ := h
  induction hr generalizing es₀ with
  | nil m => exact ⟨m₀, es₀, hboot, hr₀⟩
  | cons hl _ ih => exact ih _ (hr₀.snoc hl)

/-- **The core by itself** is no step of the records. -/
theorem Follows.core {e : CpuEvent (Nat → UInt8)} (h : Follows im w k) (ht : UseInv k lk live) (hinv : CpuInv w.cpu)
    (hl : w.cpu.Legal e) (he : CoreEvent im w.raw e) :
    Follows im ⟨{ w.raw with mem := (w.cpu.step e).core.mem }, w.cpu.step e⟩ k := by
  obtain ⟨hh, hkeeps⟩ := h.housed.core (h.tablePages ht) hinv hl he
  rw [h.records.task] at hkeeps
  exact ⟨h.records.keeps hkeeps, hh⟩

/-- **Every lawful call** is lawful for the records, and follows them. -/
theorem Follows.kernel {op : KernelOp} (h : Follows im w k) (hk : KernelOk k) (hinv : CpuInv w.cpu) (hl : legalKernel im w op) :
    kernelSystem.legal k op ∧ Returns im w k op := by
  obtain ⟨⟨lk, live, ht⟩, hsec⟩ := hk
  have htask := h.records.task
  have hmm := h.records.mm
  cases op with
  | timerInterrupt => exact ⟨trivial, h.timerInterrupt ht hsec hinv⟩
  | call op =>
      cases op with
      | schedule => exact ⟨trivial, h.schedule ht hinv⟩
      | exitProcess =>
          have hne : k.current ≠ .initTask := by
            rw [← h.records.current]
            exact hl
          exact ⟨hne, h.exitProcess ht hinv hne⟩
      | sysKill pid =>
          obtain ⟨h0, h64, hslot⟩ := hl
          rw [htask] at hslot
          exact ⟨⟨h0, h64, hslot⟩, h.sysKill ht hinv h0 h64 hslot⟩
      | sysMalloc bytes =>
          have hcan : kmallocCan k.mm bytes = true := by
            rw [← hmm]
            exact hl
          exact ⟨hcan, h.sysMalloc ht hinv hcan⟩
      | copyProcess cloneFlags fn arg =>
          obtain ⟨hk, h64, hslot, hpage⟩ := hl
          rw [htask] at hslot
          rw [hmm] at hpage
          exact ⟨⟨hk, hslot, hpage⟩, h.copyProcess ht hinv hk h64 ⟨hslot, hpage⟩⟩
      | sysFork =>
          obtain ⟨hslot, hpages, huser, c, hcall, hlo, hhi⟩ := hl
          rw [htask] at hslot
          rw [hmm] at hpages
          exact ⟨⟨hslot, hpages⟩, h.sysFork ht hinv ⟨hslot, hpages⟩ huser hcall hlo hhi⟩
      | moveToUserMode pc =>
          obtain ⟨hpage, c, hcall⟩ := hl
          rw [hmm] at hpage
          exact ⟨hpage, h.moveToUserMode pc ht hinv hpage hcall⟩

/-- What a move is to the records. -/
def RecordStep (k k' : Kernel) : Move → Prop
  | .core _ => k' = k
  | .kernel op => kernelSystem.legal k op ∧ kernelSystem.exec k op = .ok k'

theorem WholeOk.step {mv : Move} (h : WholeOk im w k) (hl : (wholeSystem im).legal w mv) :
    ∃ w' k', (wholeSystem im).exec w mv = .ok w' ∧ WholeOk im w' k' ∧ RecordStep k k' mv := by
  have hok := kernelOk_reachable h.reachable
  have hinv := cpuInv_reachable h.cpu
  cases mv with
  | core e =>
      obtain ⟨hl, he⟩ := hl
      obtain ⟨_, _, ht⟩ := hok.task
      exact ⟨_, k, rfl, ⟨h.reachable, h.follows.core ht.toUseInv hinv hl he, h.cpu.run (.cons hl (.nil _))⟩, rfl⟩
  | kernel op =>
      obtain ⟨hlegal, w', k', hexec, hstep, hfol, es, hrun⟩ := h.follows.kernel hok hinv hl
      obtain ⟨k₀, h₀, hreach⟩ := h.reachable
      exact ⟨w', k', hexec, ⟨⟨k₀, h₀, hreach.step hlegal hstep⟩, hfol, h.cpu.run hrun⟩, hlegal, hstep⟩

theorem wholeOk_reachable (h : WholeReachable im w) : ∃ k, WholeOk im w k := by
  obtain ⟨w₀, ⟨⟨k₀, hboot, hrec⟩, hhoused, hcpu⟩, hreach⟩ := h
  refine hreach.inv (P := fun w => ∃ k, WholeOk im w k) ⟨k₀, ⟨k₀, hboot, .init⟩, ⟨hrec, hhoused⟩, w₀.cpu, [], hcpu, .nil _⟩ ?_
  rintro w mv ⟨k, hok⟩ hl
  obtain ⟨w', k', hexec, hok', _⟩ := hok.step hl
  exact ⟨w', hexec, k', hok'⟩

/--
**The kernel on its core.** However exceptions, ticks, calls and switches follow
each other, the words in memory are those of a kernel of records that calls and ticks have
led to, and every task in it has its thread. No lawful move fails: what the core
does by itself is no step of the records, and a call or a tick is that step.
-/
theorem whole_follows (h : WholeReachable im w) :
    ∃ k, KernelReachable k ∧ Follows im w k ∧ Cpu.Reachable w.cpu ∧
      ∀ mv, (wholeSystem im).legal w mv →
        ∃ w' k', (wholeSystem im).exec w mv = .ok w' ∧ Follows im w' k' ∧ RecordStep k k' mv := by
  obtain ⟨k, hok⟩ := wholeOk_reachable h
  refine ⟨k, hok.reachable, hok.follows, hok.cpu, fun mv hl => ?_⟩
  obtain ⟨w', k', hexec, hok', hstep⟩ := hok.step hl
  exact ⟨w', k', hexec, hok'.follows, hstep⟩

/-- `main` begins, with `init_task` at `0x90000` and the stack below `0x80000`. -/
def mainBegins (mm : Mm) : Whole where
  raw := ⟨mm, setWord (setWord (fun _ => 0) 0x90000 priorityWord 1) 0x90000 flagsWord pfKthread,
    fun i => if i = 0 then some .initTask else none, .initTask, 1⟩
  cpu := ⟨⟨⟨fun _ => 0, 0x80000, 0, 0, 0, 0, 0x80800, 0⟩,
    setWord (setWord (fun _ => 0) 0x90000 priorityWord 1) 0x90000 flagsWord pfKthread⟩, 0x90000,
    fun p => if p = 0x90000 then some ⟨0x70000, 0x80000, [], fun _ => 0, 0⟩ else none⟩

theorem mainBegins_boot {mm : Mm} (h : mmInit Mm.bss = .ok mm) : WholeBoot smallImage (mainBegins mm) where
  records := by
    have hboot : Boot (bootKernel mm) := ⟨h, rfl, rfl, rfl, PtRegs.zero, rfl⟩
    refine ⟨bootKernel mm, hboot, rfl, rfl, rfl, rfl, ?_⟩
    rintro q ⟨i, _, hq⟩
    have hinit : q = .initTask := by
      by_cases hi : i = 0
      · subst hi
        exact (Option.some.inj hq).symm
      · exact absurd ((if_neg hi).symm.trans hq) (by simp)
    subst hinit
    have hzero : ∀ j, word (fun _ => 0) 0x90000 j = 0 := fun j => by simp [word, load64, List.range_succ]
    have hother : ∀ j, j ≠ priorityWord → j ≠ flagsWord → word (mainBegins mm).raw.mem 0x90000 j = 0 :=
      fun j hp hf => (setWord_ne hf).trans ((setWord_ne hp).trans (hzero j))
    have hlong : toUnsignedLong 0 = 0 := by decide
    have hinit : TaskAt (mainBegins mm).raw.mem 0x90000 (initTask PtRegs.zero) := by
      refine .of_words ?_ ?_ ?_ ?_ ?_ ?_ ?_
      · exact hother stateWord (by decide) (by decide)
      · exact (hother counterWord (by decide) (by decide)).trans hlong.symm
      · exact (setWord_ne (by decide)).trans setWord_self
      · exact (hother preemptCountWord (by decide) (by decide)).trans hlong.symm
      · exact hother stackWord (by decide) (by decide)
      · exact setWord_self
      · exact (hother pidWord (by decide) (by decide)).trans hlong.symm
    exact hinit
  housed := by
    refine ⟨rfl, rfl, fun q u hu => ?_, fun i v _ hv => ?_⟩
    · by_cases hq : q = 0x90000
      · subst hq
        obtain rfl := Option.some.inj hu
        exact ⟨0, .initTask, by decide, rfl, rfl, show 0x80000 ≤ 0x90000 by decide⟩
      · exact absurd ((if_neg hq).symm.trans hu) (by simp)
    · by_cases hi : i = 0
      · subst hi
        obtain rfl := Option.some.inj hv
        exact ⟨_, rfl⟩
      · exact absurd ((if_neg hi).symm.trans hv) (by simp)
  cpu := by
    refine ⟨⟨⟨0x70000, 0x80000, [], fun _ => 0, 0⟩, rfl, ⟨?_, ?_, ?_, ?_⟩, rfl, ?_⟩, fun p hp => if_neg hp⟩
    · exact show 0x90000 + 104 < 2 ^ 64 by omega
    · exact show 0x80000 < 2 ^ 64 by omega
    · exact Or.inr (show 0x80000 ≤ 0x90000 by omega)
    · exact show 0x70000 ≤ 0x80000 by omega
    · exact ⟨show 0x70000 ≤ (0x80000 : BitVec 64).toNat by decide, show (0x80000 : BitVec 64).toNat ≤ 0x80000 by decide⟩

/-- `main` is interrupted, makes a kernel thread of the function at `0x81000`, and gives it the core. -/
def mainMoves : List Move :=
  [.core (.interrupt 1 0x80a80), .core (.resume 1), .kernel (.call (.copyProcess pfKthread 0x81000 0)),
    .kernel (.call .schedule)]

/-- Who is current after the last two of them. -/
theorem mainMoves_current : ∀ n ∈ [3, 4], ((mmInit Mm.bss >>= fun mm =>
      (mainMoves.take n).foldlM (wholeSystem smallImage).exec (mainBegins mm)).map (·.raw.current)).toOption
    = some (if n = 3 then .initTask else .page 0x200000) := by decide +kernel

theorem WholeReachable.next (h : WholeReachable im w) (mv : Move) (hl : (wholeSystem im).legal w mv)
    (he : (wholeSystem im).exec w mv = .ok w') : WholeReachable im w' := by
  obtain ⟨w₀, hboot, hr⟩ := h
  exact ⟨w₀, hboot, hr.step hl he⟩

/-- The last of those moves: the records follow it to the thread. -/
theorem whole_follows_main :
    ∃ w w' k', WholeReachable smallImage w ∧ w.raw.current = .initTask ∧
      (wholeSystem smallImage).exec w (.kernel (.call .schedule)) = .ok w' ∧ w'.raw.current = .page 0x200000 ∧
      Follows smallImage w' k' := by
  obtain ⟨mm, _, hmm, _⟩ := mmInit_spec
  have hpage : (freeFrames mm).Nonempty := ⟨0, (freeFrames_mmInit hmm).mpr (by decide)⟩
  have h₀ : WholeReachable smallImage (mainBegins mm) := ⟨_, mainBegins_boot hmm, .init⟩
  have hcpu : CpuInv (mainBegins mm).cpu := cpuInv_reachable ⟨_, [], (mainBegins_boot hmm).cpu, .nil _⟩
  have hint : (mainBegins mm).cpu.Legal (.interrupt 1 0x80a80) :=
    ⟨_, rfl, show 0x70000 + 272 ≤ (0x80000 : BitVec 64).toNat by decide⟩
  let w₁ : Whole := ⟨{ (mainBegins mm).raw with mem := ((mainBegins mm).cpu.step (.interrupt 1 0x80a80)).core.mem },
    (mainBegins mm).cpu.step (.interrupt 1 0x80a80)⟩
  have h₁ : WholeReachable smallImage w₁ := h₀.next (.core (.interrupt 1 0x80a80)) ⟨hint, trivial⟩ rfl
  let w₂ : Whole := ⟨{ w₁.raw with mem := (w₁.cpu.step (.resume 1)).core.mem }, w₁.cpu.step (.resume 1)⟩
  have h₂ : WholeReachable smallImage w₂ := h₁.next (.core (.resume 1)) ⟨hcpu.can_resume hint, trivial⟩ rfl
  -- the thread is made
  obtain ⟨_, _, _, _, hmoves⟩ := whole_follows h₂
  have hl : (wholeSystem smallImage).legal w₂ (.kernel (.call (.copyProcess pfKthread 0x81000 0))) :=
    ⟨by decide, by decide, ⟨1, by decide, rfl⟩, hpage⟩
  obtain ⟨w₃, k₃, hexec₃, _, _⟩ := hmoves _ hl
  have h₃ := h₂.next _ hl hexec₃
  -- and gets the core
  obtain ⟨_, _, _, _, hmoves⟩ := whole_follows h₃
  obtain ⟨w₄, k₄, hexec₄, hfol, _⟩ := hmoves (.kernel (.call .schedule)) trivial
  have hmade : (mainMoves.take 3).foldlM (wholeSystem smallImage).exec (mainBegins mm) = .ok w₃ := by
    show ((wholeSystem smallImage).exec w₂ (.kernel (.call (.copyProcess pfKthread 0x81000 0))) >>= fun w => .ok w) = _
    rw [hexec₃, ok_bind]
  have hswitched : (mainMoves.take 4).foldlM (wholeSystem smallImage).exec (mainBegins mm) = .ok w₄ := by
    show ((wholeSystem smallImage).exec w₂ (.kernel (.call (.copyProcess pfKthread 0x81000 0))) >>= fun w =>
      (wholeSystem smallImage).exec w (.kernel (.call .schedule)) >>= fun w => .ok w) = _
    rw [hexec₃, ok_bind, hexec₄, ok_bind]
  have hcur₃ := mainMoves_current 3 (by decide)
  have hcur₄ := mainMoves_current 4 (by decide)
  rw [hmm, ok_bind, hmade] at hcur₃
  rw [hmm, ok_bind, hswitched] at hcur₄
  exact ⟨w₃, w₄, k₄, h₃, Option.some.inj hcur₃, hexec₄, Option.some.inj hcur₄, hfol⟩

end OsdiKernel
