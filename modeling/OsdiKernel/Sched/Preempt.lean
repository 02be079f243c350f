import OsdiKernel.Exec.Argv
import OsdiKernel.Sched.MachineInv

/-!
# The preemption discipline

Counts say who is inside what, in every state of every run in which `sys_exec`
keeps off the tasks, and so an interrupt leaves alone whoever is inside anything
— `sys_fork`, which is still at work on its child, among them. An `argv[]` of
more pointers than a page holds can be copied over somebody else's count.
-/

namespace OsdiKernel

variable {m m' : Machine} {k k' : Kernel} {c c' : Link → List Nat} {live live' : List Live}
  {p q : TaskPtr} {f : Frame} {rest fs : List Frame}

/-! ## Interrupts -/

theorem timerTick_same (k : Kernel) : SameButCounters k (timerTick k) := .setCounter k _ (fun t => t.counter - 1)

/-- Whoever is current is in the table. -/
theorem MachineInv.current_inTable (h : MachineInv m c live) : InTable m.k m.k.current := by
  obtain ⟨f, rest, _, _, hat⟩ := h.running
  rw [hat.current]
  unfold Frame.target
  split
  · exact hat.point.1
  · exact h.cpu

/-- With a count of zero, the current task has the CPU. -/
theorem MachineInv.current_cpu (h : MachineInv m c live) (h0 : inside (m.frames m.k.current) = 0) :
    m.k.current = m.cpu := by
  by_contra hne
  have := (h.parked _ h.current_inTable hne).inside
  omega

theorem timerTick_count (h : MachineInv m c live) :
    (timerTick m.k).cur.preemptCount = inside (m.frames m.k.current) := by
  have hs := timerTick_same m.k
  rw [Kernel.cur, hs.current, hs.tasks]
  exact h.count _ h.current_inTable

/-- **In a section, an interrupt ticks and returns.** -/
theorem irqExcHandler_section (h : MachineInv m c live) (hin : 0 < inside (m.frames m.k.current)) :
    irqExcHandler m = { m with k := timerTick m.k } := by
  have hcount := timerTick_count h
  exact if_pos (Or.inr (by omega))

theorem irqExcHandler_inv (h : MachineInv m c live) : MachineInv (irqExcHandler m) c live := by
  have hs := timerTick_same m.k
  by_cases hstay : (timerTick m.k).cur.counter > 0 ∨ (timerTick m.k).cur.preemptCount > 0
  · rw [show irqExcHandler m = { m with k := timerTick m.k } from if_pos hstay]
    exact h.counters hs
  · rw [show irqExcHandler m = _ from if_neg hstay]
    have h0 : inside (m.frames m.k.current) = 0 := by
      have hcount := timerTick_count h
      rw [not_or] at hstay
      omega
    have hcur := h.current_cpu h0
    rw [hcur] at h0
    obtain ⟨f, rest, hf, hover, hat⟩ := h.running
    rw [hf] at h0 ⊢
    have hcalm : CalmStack (.irqExit :: f :: rest) := .cons trivial (hover.calm h0)
    have hs' : SameButCounters m.k
        ((timerTick m.k).updateTask (timerTick m.k).current (fun t => { t with counter := 0 })) :=
      hs.trans (.setCounter _ _ (fun _ => 0))
    refine h.next hat (.of_sameButCounters hs') (by rw [hs'.tasks]) (h.use.onlySched (.of_sameButCounters hs'))
      hcalm ?_ (hs'.current.trans hcur) nofun trivial
    rw [hs'.tasks, inside_cons, hcalm.inside]
    exact (h.count _ h.cpu).trans (by rw [hf, h0]; rfl)

/-! ## Runs -/

theorem machineOk_boot (h : Boot k) : MachineOk (bootMachine k) := by
  obtain ⟨c, huse⟩ := h.useInv
  obtain ⟨r, hr⟩ := h.init
  have honly : ∀ p, InTable k p → p = .initTask := fun p ⟨_, _, hp⟩ => (h.slot hp).2
  refine ⟨c, [], huse, by rw [show (bootMachine k).k = k from rfl, hr]; rfl, huse.init_inTable, fun p hp => ?_,
    fun p hp hpc => absurd (honly p hp) hpc, .task, [], rfl, rfl, h.current, fun hz => Or.inl rfl, trivial⟩
  rw [honly p hp, show (bootMachine k).k = k from rfl, hr]
  rfl

/-- **Whatever happens next keeps the invariant.** -/
theorem machineOk_step (m : Machine) (e : Event) (m' : Machine) (h : MachineOk m) (hl : carefulMachine.legal m e)
    (hrun : carefulMachine.exec m e = .ok m') : MachineOk m' := by
  obtain ⟨c, live, h⟩ := h
  obtain ⟨hl, hcare⟩ := hl
  cases e with
  | timerInterrupt =>
      obtain rfl := Except.ok.inj hrun
      exact ⟨c, live, irqExcHandler_inv h⟩
  | call call =>
      obtain rfl := Except.ok.inj hrun
      exact ⟨c, live, call_inv h hl.1 hl.2⟩
  | programs mem =>
      obtain rfl := Except.ok.inj hrun
      exact ⟨c, live, h.writeMem mem⟩
  | step => exact advance_inv h hcare hrun

theorem machineOk_reachable (h : CarefulReachable m) : MachineOk m := by
  obtain ⟨k, hk, hr⟩ := h
  exact hr.inv_ok (machineOk_boot hk) machineOk_step

/-! ## The discipline -/

/-- `copy_process` has made `sys_fork`'s child, and the copy of the stack or the `sp` is still to come. -/
def pendingFork : List Frame → Option Int
  | .copyProcess _ (.enable pid) :: .sysFork .call :: _ => some pid
  | .sysFork (.copyStack pid) :: _ => some pid
  | .sysFork (.setSp pid) :: _ => some pid
  | _ => none

/-- What `preempt_count` is for. -/
structure Disciplined (m : Machine) : Prop where
  others : ∀ i p, m.k.task i = some p → p ≠ m.k.current → (m.k.tasks p).preemptCount = 1
  current : m.k.cur.preemptCount = inside (m.frames m.k.current)
  nonneg : ∀ i p, m.k.task i = some p → 0 ≤ (m.k.tasks p).preemptCount
  /-- A timer interrupt does not switch away from a task that is in a section: it ticks. -/
  tick : ∀ p, p = m.cpu ∨ p = m.k.current → 0 < inside (m.frames p) →
    irqExcHandler m = { m with k := timerTick m.k }
  /-- Whoever is not done with its child is on the CPU, and the child has not run. -/
  child : ∀ i p, m.k.task i = some p → ∀ fs pid, fs <:+ m.frames p → pendingFork fs = some pid →
    p = m.cpu ∧ ∃ q, taskAt m.k pid = .ok q ∧ q ≠ m.cpu ∧ q ≠ m.k.current ∧ m.frames q = [.retFromFork]

/-- Where the child is pending. -/
theorem pendingFork_some {pid : Int} (h : pendingFork (f :: rest) = some pid) :
    (∃ args, f = .copyProcess args (.enable pid)) ∨ f = .sysFork (.copyStack pid) ∨ f = .sysFork (.setSp pid) := by
  unfold pendingFork at h
  split at h
  · rename_i args _ _ he
    exact Or.inl ⟨args, Option.some.inj h ▸ (List.cons.inj he).1⟩
  · rename_i he
    exact Or.inr (Or.inl (Option.some.inj h ▸ (List.cons.inj he).1))
  · rename_i he
    exact Or.inr (Or.inr (Option.some.inj h ▸ (List.cons.inj he).1))
  · exact absurd h (by simp)

/-- Calls that are in no section are not forking. -/
theorem CalmStack.not_pending (h : CalmStack fs) : ∀ {gs : List Frame}, gs <:+ fs → pendingFork gs = none := by
  induction h with
  | task =>
      intro gs hgs
      rcases List.suffix_cons_iff.mp hgs with rfl | hnil
      · rfl
      · rw [List.suffix_nil.mp hnil]
        rfl
  | @cons f fs hf _ ih =>
      intro gs hgs
      rcases List.suffix_cons_iff.mp hgs with rfl | hgs
      · cases hp : pendingFork (f :: fs) with
        | none => rfl
        | some pid =>
            rcases pendingFork_some hp with ⟨_, rfl⟩ | rfl | rfl
            · exact hf.elim
            · exact hf.elim
            · exact hf.elim
      · exact ih hgs

/-- Below the innermost call there is nothing pending either. -/
theorem Over.not_pending (h : Over f rest) {gs : List Frame} (hgs : gs <:+ rest) : pendingFork gs = none := by
  have hnil : rest = [] → pendingFork gs = none := by
    intro he
    rw [he, List.suffix_nil] at hgs
    rw [hgs]
    rfl
  unfold Over at h
  split at h
  · exact hnil h
  · exact hnil h
  · exact h.elim
  · rcases h with ⟨_, hrest⟩ | ⟨r, rfl, hr⟩
    · exact hrest.not_pending hgs
    · rcases List.suffix_cons_iff.mp hgs with rfl | hgs
      · rfl
      · exact hr.not_pending hgs
  · exact CalmStack.not_pending h hgs

theorem Parked.not_pending (h : Parked fs) {gs : List Frame} (hgs : gs <:+ fs) : pendingFork gs = none := by
  rcases h with rfl | ⟨rest, rfl, hrest⟩
  · rcases List.suffix_cons_iff.mp hgs with rfl | hnil
    · rfl
    · rw [List.suffix_nil.mp hnil]
      rfl
  · rcases List.suffix_cons_iff.mp hgs with rfl | hgs
    · rfl
    · exact hrest.not_pending hgs

/-- What is pending on the CPU is pending for a child that has not run. -/
theorem At.unborn {pid : Int} (h : At m live f) (hp : pendingFork (f :: rest) = some pid) :
    m.k.current = m.cpu ∧ Unborn m pid := by
  rcases pendingFork_some hp with ⟨_, rfl⟩ | rfl | rfl
  · exact ⟨h.current, h.point⟩
  · exact ⟨h.current, h.point⟩
  · exact ⟨h.current, h.point⟩

/-- A task that is not current has entered one section, and waits in it. -/
theorem MachineInv.others (h : MachineInv m c live) (hp : InTable m.k p) (hne : p ≠ m.k.current) :
    inside (m.frames p) = 1 := by
  by_cases hpc : p = m.cpu
  · obtain ⟨f, rest, hf, hover, hat⟩ := h.running
    have hcur : f.target m.cpu ≠ m.cpu := by
      rw [← hat.current, ← hpc]
      exact hne.symm
    rw [hpc, hf]
    -- between `current = next` and `cpu_switch_to`
    unfold Frame.target at hcur
    split at hcur
    · rw [inside_cons, CalmStack.inside hover]
      rfl
    · exact absurd rfl hcur
  · exact (h.parked p hp hpc).inside

/--
**The preemption discipline.** However calls, interrupts and first dispatches
interleave, as long as no program is moved over a task and no `argv[]` has more
pointers than fit a page: every task but the current one has a count of one, the
current one's is the number of sections it is inside, and a timer interrupt in a
section ticks and returns; so the child of a `sys_fork` does not run before its
stack is copied and its `sp` is set.
-/
theorem preemption_disciplined (h : CarefulReachable m) : Disciplined m := by
  obtain ⟨c, live, hinv⟩ := machineOk_reachable h
  have hin : ∀ i p, m.k.task i = some p → InTable m.k p := fun i p hp => hinv.use.inTable hp
  refine ⟨fun i p hp hne => ?_, hinv.count _ hinv.current_inTable, fun i p hp => ?_, fun p hpc h0 => ?_,
    fun i p hp fs pid hfs hpend => ?_⟩
  · rw [hinv.count p (hin i p hp), hinv.others (hin i p hp) hne]
    rfl
  · rw [hinv.count p (hin i p hp)]
    omega
  · refine irqExcHandler_section hinv ?_
    by_contra hzero
    have hcur := hinv.current_cpu (Nat.le_zero.mp (Nat.not_lt.mp hzero))
    rw [hcur] at hpc hzero
    rw [or_self] at hpc
    rw [hpc] at h0
    exact hzero h0
  · by_cases hpc : p = m.cpu
    · obtain ⟨f, rest, hf, hover, hat⟩ := hinv.running
      rw [hpc, hf] at hfs
      rcases List.suffix_cons_iff.mp hfs with rfl | hbelow
      · obtain ⟨hcur, q, hq, hne, hnew⟩ := hat.unborn hpend
        refine ⟨hpc, q, hq, hne, ?_, hnew⟩
        rw [hcur]
        exact hne
      · rw [hover.not_pending hbelow] at hpend
        exact absurd hpend (by simp)
    · rw [(hinv.parked p (hin i p hp) hpc).not_pending hfs] at hpend
      exact absurd hpend (by simp)

/-- Carry out a list of events after `mm_init`. -/
def carefulRun (events : List Event) : Option Machine :=
  match mmInit Mm.bss with
  | .ok mm => carefulMachine.run (bootMachine (bootKernel mm)) events
  | .error _ => none

theorem carefulReachable_of_run {events : List Event} (h : carefulRun events = some m) : CarefulReachable m := by
  cases h₀ : mmInit Mm.bss with
  | error e => simp [carefulRun, h₀] at h
  | ok mm =>
      simp only [carefulRun, h₀] at h
      exact ⟨_, ⟨h₀, rfl, rfl, rfl, PtRegs.zero, rfl⟩, System.Reach.of_run .init h⟩

/-- A child has come to the end of its `sys_exec`; that and the `sys_fork` that made it were interrupted. -/
theorem preemption_disciplined_exec :
    ∃ m, CarefulReachable m ∧ m.frames m.cpu = [.sysExec smallNameAddr 0 (.enable 0), .task] ∧ m.cpu ≠ .initTask ∧
      Disciplined m := by
  have hrun : (carefulRun (List.flatten [[.call .sysFork, .step, .step, .step, .timerInterrupt, .step, .step, .step,
      .timerInterrupt], List.replicate 4 .step, [.call .schedule], List.replicate 70 .step,
      [.programs smallInitramfs, .call (.sysExec smallNameAddr 0), .step, .timerInterrupt, .step, .step,
        .timerInterrupt]])).map (fun m =>
        decide (m.frames m.cpu = [.sysExec smallNameAddr 0 (.enable 0), .task] ∧ m.cpu ≠ .initTask)) = some true := by
    decide +kernel
  obtain ⟨m, hm, hres⟩ := Option.map_eq_some_iff.mp hrun
  obtain ⟨hframes, hcpu⟩ := of_decide_eq_true hres
  exact ⟨m, carefulReachable_of_run hm, hframes, hcpu, preemption_disciplined (carefulReachable_of_run hm)⟩

/-! ## An `argv[]` of two pages -/

/-- All of a task's count was stored to. -/
theorem Kernel.stored_count {r : Ram} {b : Nat} (hin : InTable k (.page b))
    (hall : ∀ x, Within (b + 8 * preemptCountWord) 8 x → x ∈ r.written) :
    ((k.stored r).tasks (.page b)).preemptCount = toLong (load64 r.mem (b + 8 * preemptCountWord)) := by
  show (if InTable k (.page b) then (k.tasks (.page b)).stored r b else k.tasks (.page b)).preemptCount = _
  rw [if_pos hin]
  exact Ram.longAfter_written hall

/-- **Where the vector runs over a task, one of the pointers is its count.** -/
theorem execArgs_count {target argv argc backup b i : Nat}
    (hoff : ∀ p, InTable k p → ∀ x, CopiedTo backup argc x → ¬ p.Page x) (hbackup : backup + 8 * argc ≤ 2 ^ 64)
    (hsp : execSp k.cur argc + 8 * argc ≤ 2 ^ 64) (hfirst : CopiesSafely backup argv argc)
    (hsecond : CopiesSafely (execSp k.cur argc) backup argc) (hin : InTable k (.page b)) (hne : TaskPtr.page b ≠ k.current)
    (hi : i < argc) (hword : execSp k.cur argc + 8 * i = b + 8 * preemptCountWord) :
    ((execArgs k target argv argc backup).1.tasks (.page b)).preemptCount = toLong (load64 k.mem (argv + 8 * i)) := by
  let mem₁ := memcpyTurns k.mem backup argv argc
  let k₂ : Kernel := Kernel.updateTask { k with mem := mem₁ } k.current
    (fun t => { t with ptRegs := { t.ptRegs with sp := execSp k.cur argc } })
  let r : Ram := (⟨mem₁, []⟩ : Ram).copyPointers (execSp k.cur argc) backup argc
  have h1 : k.stored ((⟨k.mem, []⟩ : Ram).copyPointers backup argv argc) = { k with mem := mem₁ } :=
    stored_copyPointers hoff hbackup
  have hwritten := (wrote_copyPointers argc ⟨mem₁, []⟩ (execSp k.cur argc) backup).written
  have hall : ∀ x, Within (b + 8 * preemptCountWord) 8 x → x ∈ r.written := by
    intro x hx
    rw [← hword] at hx
    refine (hwritten x).mpr (Or.inl ⟨i, hi, ?_⟩)
    rwa [Nat.mod_eq_of_lt (by omega)]
  have hmem : load64 r.mem (b + 8 * preemptCountWord) = load64 k.mem (argv + 8 * i) := by
    rw [show r.mem = memcpyTurns mem₁ (execSp k.cur argc) backup argc from copyPointers_mem _ _ _ _ hsp, ← hword,
      memcpyTurns_word hsecond hi, memcpyTurns_word hfirst hi]
  have hcount : ((k₂.stored r).tasks (.page b)).preemptCount = toLong (load64 r.mem (b + 8 * preemptCountWord)) :=
    Kernel.stored_count hin hall
  rw [← hmem, ← hcount]
  simp only [execArgs, h1]
  -- the trap frame it goes on with is that of another task
  exact congrArg Task.preemptCount (Kernel.updateTask_ne _ _ _ _ hne)

/-- So many pointers to the name of the file `a`, in the program, and the file in the initramfs. -/
def manyPointers : Nat → UInt8 :=
  initramfs (fun x => if Within 0x10A1000 (8 * 1008) x then UInt8.ofNat (smallNameAddr / 256 ^ ((x - 0x10A1000) % 8)) else 0)
    [97, 0]

theorem manyPointers_word {i : Nat} (hi : i < 1008) : load64 manyPointers (0x10A1000 + 8 * i) = smallNameAddr := by
  have hfirst : load64 manyPointers 0x10A1000 = smallNameAddr := by decide +kernel
  rw [← hfirst]
  refine load64_moved (fun j hj => ?_)
  have hlow : ∀ n < 1008, manyPointers (0x10A1000 + 8 * n + j) = UInt8.ofNat (smallNameAddr / 256 ^ j) := by
    intro n hn
    have hmod : (0x10A1000 + 8 * n + j - 0x10A1000) % 8 = j := by omega
    rw [manyPointers, initramfs, if_pos (by unfold initramfsAddr; omega), if_pos ⟨by omega, by omega⟩, hmod]
  rw [hlow i hi]
  exact (hlow 0 (by decide)).symm

theorem manyPointers_vector : ArgVector manyPointers 0x10A1000 1008 := by
  refine ⟨fun i hi => ?_, by decide +kernel⟩
  rw [manyPointers_word hi]
  decide

/-- `main` has forked twice, and the second child runs. -/
theorem secondChild : ∃ m, CarefulReachable m ∧ m.frames m.cpu = [.task] ∧
    (m.cpu = .page 0x203000 ∧ m.k.current = .page 0x203000) ∧ m.k.cur.stack = 0x202000 ∧
    m.k.task 1 = some (.page 0x201000) ∧ ClearOfTasks m.k moveAddress 1 ∧ ClearOfTasks m.k 0x204000 (8 * 1008) ∧
    ∃ mm, kmalloc m.k.mm pageSize = .ok (some 0x204000, mm) := by
  have hrun : (carefulRun (List.flatten [[.call .sysFork], List.replicate 10 .step, [.call .sysFork],
      List.replicate 10 .step, [.call .schedule], List.replicate 70 .step, [.call .schedule],
      List.replicate 70 .step])).map (fun m =>
      decide (m.frames m.cpu = [.task] ∧ (m.cpu = .page 0x203000 ∧ m.k.current = .page 0x203000) ∧
        m.k.cur.stack = 0x202000 ∧ m.k.task 1 = some (.page 0x201000) ∧ ClearOfTasks m.k moveAddress 1 ∧
        ClearOfTasks m.k 0x204000 (8 * 1008) ∧
        (kmalloc m.k.mm pageSize).toOption.map Prod.fst = some (some 0x204000))) = some true := by decide +kernel
  obtain ⟨m, hm, hres⟩ := Option.map_eq_some_iff.mp hrun
  obtain ⟨hframes, hcpu, hstack, htask, hload, hcopy, hpage⟩ := of_decide_eq_true hres
  refine ⟨m, carefulReachable_of_run hm, hframes, hcpu, hstack, htask, hload, hcopy, ?_⟩
  cases hk : kmalloc m.k.mm pageSize with
  | error f =>
      rw [hk] at hpage
      exact absurd hpage (by simp [Except.toOption])
  | ok res =>
      rw [hk] at hpage
      obtain ⟨page, mm⟩ := res
      obtain rfl : page = some 0x204000 := by simpa [Except.toOption] using hpage
      exact ⟨mm, rfl⟩

theorem CarefulReachable.machineReachable (h : CarefulReachable m) : MachineReachable m := by
  obtain ⟨k, hk, hr⟩ := h
  have hless : ∀ s e, carefulMachine.legal s e → machineSystem.legal s e := fun _ _ hl => hl.1
  exact ⟨k, hk, hr.mono hless (fun _ _ => rfl)⟩

theorem MachineReachable.next {e : Event} (h : MachineReachable m) (hl : machineSystem.legal m e)
    (he : machineSystem.exec m e = .ok m') : MachineReachable m' := by
  obtain ⟨k, hk, hr⟩ := h
  exact ⟨k, hk, hr.step hl he⟩

theorem Machine.goOn_goOn {gs : List Frame} : (m.goOn k fs).goOn k' gs = m.goOn k' gs :=
  congrArg (fun frames => ({ m with k := k', frames := frames } : Machine)) (Function.update_idem ..)

theorem Machine.goOn_atTask {g : Frame} (hg : g ≠ .task) : (m.goOn k (g :: fs)).atTask = false := by
  simp [Machine.atTask, Machine.goOn, hg]

theorem Machine.goOn_frames : (m.goOn k fs).frames (m.goOn k fs).cpu = fs := Function.update_self ..

/-- A task that calls `sys_exec` comes to pass its `argv[]` on, with the program in place. -/
theorem MachineReachable.moved {name argv size : Nat} {ram : Ram} (h : MachineReachable m)
    (hframes : m.frames m.cpu = [.task]) (hcpu : InTable m.k m.cpu) (hapart : ClearOfTasks m.k moveAddress size)
    (hload : execLoad m.k.mem name = .ok (moveAddress, size, ram)) :
    MachineReachable (m.goOn (loadedKernel m.k ram) [.sysExec name argv (.args moveAddress), .task]) := by
  have htask : m.atTask = true := decide_eq_true (congrArg List.head? hframes)
  have hcalled : MachineReachable (m.goOn m.k (.sysExec name argv .disable :: m.frames m.cpu)) :=
    h.next (e := .call (.sysExec name argv)) ⟨htask, trivial⟩ rfl
  rw [hframes] at hcalled
  have hdisabled : MachineReachable (m.goOn (preemptDisable m.k) [.sysExec name argv .move, .task]) := by
    refine hcalled.next (e := .step) (Machine.goOn_atTask (by simp)) ?_
    show advance _ = _
    simp only [advance, Machine.goOn_frames, execStep, Machine.goOn_goOn]
    rfl
  refine hdisabled.next (e := .step) (Machine.goOn_atTask (by simp)) ?_
  have hclear : (m.goOn (preemptDisable m.k) [.sysExec name argv .move, .task]).overwrite (loadedKernel m.k ram)
      ram.written = .ok _ := Machine.overwrite_clear
    (fun p hp x hx => hapart.off hp ((execLoad_written hload).mp hx)) hcpu
  have hload' : execLoad (preemptDisable m.k).mem name = .ok (moveAddress, size, ram) := hload
  show advance _ = _
  simp only [advance, Machine.goOn_frames, execStep]
  rw [show (m.goOn (preemptDisable m.k) _).k = preemptDisable m.k from rfl, hload', ok_bind]
  rw [show (preemptDisable m.k).stored ram = loadedKernel m.k ram from rfl]
  simp only [hclear, ok_bind]
  exact congrArg Except.ok Machine.goOn_goOn

/-- And it passes it on, if that leaves its own kernel stack alone. -/
theorem MachineReachable.passed {name argv target argc b : Nat} {mm : Mm} (h : MachineReachable m)
    (hframes : m.frames m.cpu = [.sysExec name argv (.args target), .task])
    (hargc : argcCount m.k.mem argv (2 ^ 31) = some argc) (hpage : kmalloc m.k.mm pageSize = .ok (some b, mm))
    (hcalm : ∀ a ∈ (execArgs { m.k with mm } target argv argc b).2, ¬ m.cpu.KernelStack a) :
    ∃ m', MachineReachable m' ∧ m'.k = (execArgs { m.k with mm } target argv argc b).1 := by
  obtain ⟨m₁, hm, hk⟩ := Machine.overwrite_calm (m := m) (k := (execArgs { m.k with mm } target argv argc b).1) hcalm
  have htask : m.atTask = false := decide_eq_false (by rw [hframes]; nofun)
  refine ⟨m₁.goOn m₁.k [.sysExec name argv (.enable argc), .task], h.next (e := .step) htask ?_, hk⟩
  show advance m = _
  simp only [advance, hframes, execStep, hargc, hpage, ok_bind, Option.getD_some, hm]

/-- A child of `main` runs over its sibling, which is as it was when it was made. -/
theorem not_disciplined : ¬ ∀ m, MachineReachable m → Disciplined m := by
  intro hall
  obtain ⟨m, hm, hframes, ⟨hcpu, hcurrent⟩, hstack, htask, hapart, hcopy, mm, hpage⟩ := secondChild
  obtain ⟨c, live, hinv⟩ := machineOk_reachable hm
  let k : Kernel := { m.k with mem := manyPointers }
  have hwrote : MachineReachable { m with k := k } :=
    hm.machineReachable.next (e := .programs manyPointers) (decide_eq_true (congrArg List.head? hframes)) rfl
  have hprog : ProgramAt k smallNameAddr _ smallFile.data := initramfs_program _ m.k
  have hload := execLoad_found hprog
  have hw := (execLoad_wrote hload).2
  generalize Ram.copyChars ⟨k.mem, []⟩ moveAddress _ _ = ram at hload hw
  let m₂ : Machine :=
    Machine.goOn { m with k := k } (loadedKernel k ram) [.sysExec smallNameAddr 0x10A1000 (.args moveAddress), .task]
  have hmoved : MachineReachable m₂ := hwrote.moved hframes hinv.cpu hapart hload
  have hcpu' : m₂.cpu = .page 0x203000 := hcpu
  -- the vector is behind the program, and as it was
  have hv : ArgVector ram.mem 0x10A1000 1008 := manyPointers_vector.congr (fun x hx => hw.same x (fun hin => by
    obtain ⟨h1, _⟩ := hx
    obtain ⟨_, h2⟩ : Within 0x10A0000 1 x := hin
    omega))
  have hword : load64 ram.mem 0x10A1000 = smallNameAddr := by
    rw [← manyPointers_word (i := 0) (by decide)]
    refine load64_congr (fun x hx => hw.same x (fun hin => ?_))
    obtain ⟨h1, _⟩ := hx
    obtain ⟨_, h2⟩ : Within 0x10A0000 1 x := hin
    omega
  have hoff : ∀ p, InTable m.k p → ∀ x, CopiedTo 0x204000 1008 x → ¬ p.Page x :=
    fun p hp x hx => hcopy.off hp ((copiedTo_iff (by decide)).mp hx)
  let k₁ : Kernel := { loadedKernel k ram with mm := mm }
  have hsp : execSp k₁.cur 1008 = 0x201080 := by
    have hcur : k₁.cur = (preemptDisable k).cur := loadedKernel_cur hw (fun x hx => hapart.off hinv.current_inTable hx)
    have hs : k₁.cur.stack = 0x202000 := by
      rw [hcur, ← hstack]
      simp [preemptDisable, Kernel.cur, k]
    rw [execSp, hs]
    decide
  have hwritten : ∀ x ∈ (execArgs k₁ moveAddress 0x10A1000 1008 0x204000).2, ¬ (TaskPtr.page 0x203000).KernelStack x := by
    intro x hx hin
    have hsecond : copiedSp k₁ 0x10A1000 1008 0x204000 = execSp k₁.cur 1008 := copiedSp_eq (fun y hy hb =>
      hoff _ hinv.current_inTable y hy (TaskPtr.page_iff.mpr (Or.inl hb)))
    have hrange : 0x204000 ≤ x ∨ x < 0x203000 := by
      rw [execArgs_written, hsecond, hsp] at hx
      rcases hx with hx | hx
      · exact Or.inl ((copiedTo_iff (by decide)).mp hx).1
      · exact Or.inr ((copiedTo_iff (by decide)).mp hx).2
    obtain ⟨h1, h2⟩ : 0x203000 + 8 * 22 ≤ x ∧ x < 0x203000 + 8 * 22 + (4096 - 8 * 34 - 8 * 22) := hin
    omega
  obtain ⟨m', hm', hk'⟩ := hmoved.passed Machine.goOn_frames (hv.count (by decide)) hpage
    (fun x hx => by rw [hcpu']; exact hwritten x hx)
  have hcount : ((execArgs k₁ moveAddress 0x10A1000 1008 0x204000).1.tasks (.page 0x201000)).preemptCount
      = toLong (load64 k₁.mem (0x10A1000 + 8 * 0)) :=
    execArgs_count hoff (by decide) (by rw [hsp]; decide) (Or.inl (by decide)) (Or.inl (by rw [hsp]; decide))
      ⟨1, by decide, htask⟩ (by rw [show k₁.current = .page 0x203000 from hcurrent]; decide) (by decide)
      (by rw [hsp]; decide)
  have hcurrent' : m'.k.current = .page 0x203000 := by rw [hk']; exact hcurrent
  have hone := (hall m' hm').others 1 (.page 0x201000) (by rw [hk']; exact htask) (by rw [hcurrent']; decide)
  rw [hk'] at hone
  rw [show load64 k₁.mem (0x10A1000 + 8 * 0) = smallNameAddr from hword] at hcount
  exact absurd (hcount.symm.trans hone) (by decide)

end OsdiKernel
