import OsdiKernel.Sched.Share
import OsdiKernel.Sched.TaskSystem

/-!
# Calls and ticks

Runs in which the timer may come between any two calls. `TaskSystem` has no
timer because it does not have to say who is in a section. Here the current task
is in none and everybody else is in one, so a tick always ends with
`task_preemption`, and the counters stay where the arithmetic is exact.
-/

namespace OsdiKernel

/-- What happens next to the kernel. -/
inductive KernelOp where
  | call (op : TaskOp)
  | timerInterrupt

/-- Calls as in `taskSystem`, and interrupts at any time. -/
def kernelSystem : System Kernel KernelOp Fault where
  legal := fun k op =>
    match op with
    | .call op => taskSystem.legal k op
    | .timerInterrupt => True
  exec := fun k op =>
    match op with
    | .call op => taskSystem.exec k op
    | .timerInterrupt => tickOnce k

/-- Who is in a section of `preempt_disable`. -/
structure SectionsOk (k : Kernel) : Prop where
  here : k.cur.preemptCount = 0
  elsewhere : ∀ q, InTable k q → q ≠ k.current → (k.tasks q).preemptCount = 1

/-- The table's invariant, and the sections. -/
structure KernelOk (k : Kernel) : Prop where
  task : TaskOk k
  sections : SectionsOk k

/-- Reachable from the initial task table. -/
def KernelReachable (k : Kernel) : Prop := ∃ k₀, Boot k₀ ∧ kernelSystem.Reach k₀ k

variable {k k' : Kernel} {c c' : Link → List Nat} {live : List Live} {p q : TaskPtr} {i a : Nat} {t : Task} {mm : Mm}

/-! ## Sections -/

/-- **A switch** opens a section for the one that leaves, and closes that of the one that goes on. -/
theorem schedule_sections (hr : RestInRange k) (hq : Runnable k q) (hs : schedule k = .ok k') (p : TaskPtr) :
    (k'.tasks p).preemptCount
      = (k.tasks p).preemptCount + (if p = k.current then 1 else 0) - (if p = k'.current then 1 else 0) := by
  obtain ⟨next, k₁, picked, hrun, hpk⟩ := pickNext_spec (scheduleStart_range hr) (scheduleStart_runnable.mpr hq)
  obtain ⟨k₂, hs₂, hcur, _, _, _, hcount⟩ := schedule_counts hrun hpk.slot hpk.same hpk.range
  obtain rfl := Except.ok.inj (hs₂.symm.trans hs)
  rw [hcur]
  exact hcount p

theorem SectionsOk.schedule (h : SectionsOk k) (hr : RestInRange k) (hrun : Runnable k q) (hs : schedule k = .ok k')
    (ho : OnlySched k k') (hcur : InTable k' k'.current) : SectionsOk k' := by
  have hcount := schedule_sections hr hrun hs
  refine ⟨?_, fun p hp hne => ?_⟩
  · rw [Kernel.cur, hcount, if_pos rfl]
    by_cases hc : k'.current = k.current
    · rw [if_pos hc, hc, show (k.tasks k.current).preemptCount = 0 from h.here]
      rfl
    · rw [if_neg hc, h.elsewhere _ (ho.inTable.mp hcur) hc]
      rfl
  · rw [hcount, if_neg hne]
    by_cases hc : p = k.current
    · rw [if_pos hc, hc, show (k.tasks k.current).preemptCount = 0 from h.here]
      rfl
    · rw [if_neg hc, h.elsewhere p (ho.inTable.mp hp) hc]
      rfl

/-- A change that leaves the table and the counts alone. -/
theorem SectionsOk.congr (h : SectionsOk k) (htask : ∀ q, InTable k' q → InTable k q) (hcur : k'.current = k.current)
    (hcount : ∀ q, (k'.tasks q).preemptCount = (k.tasks q).preemptCount) : SectionsOk k' where
  here := by
    rw [Kernel.cur, hcur, hcount]
    exact h.here
  elsewhere := fun q hq hne => by
    rw [hcur] at hne
    rw [hcount]
    exact h.elsewhere q (htask q hq) hne

/-- A new task is in one section. -/
theorem SectionsOk.addTask (h : SectionsOk k) (hi : i < taskSlots) (hfree : k.task i = none) (hcur : k.current ≠ .page a)
    (ht : t.preemptCount = 1) : SectionsOk (addTask k mm i a t) where
  here := by
    rw [Kernel.cur]
    show ((OsdiKernel.addTask k mm i a t).tasks k.current).preemptCount = 0
    rw [addTask_ne hcur]
    exact h.here
  elsewhere := fun q hq hne => by
    by_cases hqa : q = .page a
    · subst hqa
      rw [addTask_self]
      exact ht
    · rw [addTask_ne hqa]
      exact h.elsewhere q (((addTask_inTable hi hfree).mp hq).resolve_left hqa) hne

/-- A task that is killed is in nobody's way. -/
theorem SectionsOk.killed (h : SectionsOk k) (i a : Nat) (mm : Mm) : SectionsOk (killed k mm i a) := by
  refine h.congr (fun q hq => ?_) rfl (fun q => ?_)
  · obtain ⟨j, hj, hq⟩ := hq
    refine ⟨j, hj, ?_⟩
    by_cases hji : j = i
    · subst hji
      exact absurd hq (by simp [OsdiKernel.killed])
    · simpa [OsdiKernel.killed, hji] using hq
  · by_cases hqa : q = .page a
    · subst hqa
      simp [OsdiKernel.killed]
    · simp [OsdiKernel.killed, Kernel.updateTask, hqa]

theorem kernelOk_boot (h : Boot k) : KernelOk k := by
  refine ⟨taskOk_boot h, ?_, ?_⟩
  · obtain ⟨ptRegs, hinit⟩ := h.init
    rw [Kernel.cur, h.current, hinit]
    rfl
  · rintro q ⟨i, _, hq⟩ hne
    rw [h.current] at hne
    exact absurd (h.slot hq).2 hne

/-! ## The timer -/

theorem timerTick_rest (hr : InRange k) : RestInRange (timerTick k) := by
  have hbut : SameButCounters k (timerTick k) := .setCounter k _ (fun t => t.counter - 1)
  intro p hp
  obtain ⟨hpr, hc⟩ := hr p (hbut.inTable.mp hp)
  rw [hbut.priority]
  refine ⟨hpr, fun hne => ?_⟩
  rw [hbut.current] at hne
  rw [timerTick, Kernel.updateTask_ne _ _ _ _ hne]
  exact hc

/-- A tick that ends nobody's turn leaves counters in range. -/
theorem timerTick_range (hr : InRange k) (hcur : InTable k k.current) (hpos : 0 < (timerTick k).cur.counter) :
    InRange (timerTick k) := by
  have hbut : SameButCounters k (timerTick k) := .setCounter k _ (fun t => t.counter - 1)
  intro p hp
  obtain ⟨hpr, hc⟩ := timerTick_rest hr p hp
  refine ⟨hpr, ?_⟩
  by_cases hpc : p = (timerTick k).current
  · subst hpc
    have hself : ((timerTick k).tasks k.current).counter = (k.tasks k.current).counter - 1 := by
      rw [timerTick, Kernel.updateTask_self]
    have hle := (hr k.current hcur).2.2
    rw [Kernel.cur, hbut.current] at hpos
    rw [hbut.current]
    omega
  · exact hc hpc

theorem timerTick_sections (h : SectionsOk k) : SectionsOk (timerTick k) := by
  have hbut : SameButCounters k (timerTick k) := .setCounter k _ (fun t => t.counter - 1)
  exact h.congr (fun q hq => hbut.inTable.mp hq) hbut.current (fun q => by rw [hbut.tasks q])

/-- **A tick returns**, in a task that may run. -/
theorem tickOnce_outcome (h : TaskInv k c live) (hsec : SectionsOk k) :
    ∃ k', tickOnce k = .ok k' ∧ TaskInv k' c live ∧ SectionsOk k' ∧ k'.task = k.task := by
  have hbut : SameButCounters k (timerTick k) := .setCounter k _ (fun t => t.counter - 1)
  have honly : OnlySched k (timerTick k) := .of_sameButCounters hbut
  have hsec' := timerTick_sections hsec
  by_cases hmore : (timerTick k).cur.counter > 0 ∨ (timerTick k).cur.preemptCount > 0
  · have hpos : 0 < (timerTick k).cur.counter := by
      rcases hmore with hpos | hcount
      · exact hpos
      · rw [hsec'.here] at hcount
        exact absurd hcount (by omega)
    have hrange := timerTick_range h.range h.current.1 hpos
    refine ⟨timerTick k, by rw [tickOnce, taskPreemption, if_pos hmore], ⟨h.toTableInv.onlySched honly hrange, ?_⟩, hsec', rfl⟩
    rw [hbut.current, hbut.runnable]
    exact h.current
  · have hinit : Runnable (timerTick k) .initTask := hbut.runnable.mpr h.initRunnable
    obtain ⟨k', p, hs, hsched⟩ := schedule_spec (timerTick_rest h.range) hinit
    have hinv : TaskInv k' c live := by
      refine ⟨h.toTableInv.onlySched (honly.trans hsched.only) hsched.range, ?_⟩
      rw [hsched.current, hsched.runnable_iff]
      exact hsched.runnable
    refine ⟨k', ?_, hinv, hsec'.schedule (timerTick_rest h.range) hinit hs hsched.only hinv.current.1, hsched.only.task⟩
    rw [tickOnce, taskPreemption, if_neg hmore]
    exact hs

/-! ## Runs -/

theorem SectionsOk.scheduled (h : SectionsOk k) (ht : TableInv k c live) (hs : OsdiKernel.schedule k = .ok k') :
    SectionsOk k' ∧ TaskInv k' c live := by
  obtain ⟨k₁, p, hs₁, hsched, hinv⟩ := schedule_outcome ht
  obtain rfl := Except.ok.inj (hs₁.symm.trans hs)
  exact ⟨h.schedule ht.range.rest ht.initRunnable hs hsched.only hinv.current.1, hinv⟩

/-- **Every lawful call and every tick returns**, and nobody's section is lost. -/
theorem kernelOk_step : kernelSystem.Keeps KernelOk := by
  rintro k op ⟨⟨c, live, h⟩, hsec⟩ hl
  cases op with
  | timerInterrupt =>
      obtain ⟨k', hrun, hinv, hsec', _⟩ := tickOnce_outcome h hsec
      exact ⟨k', hrun, ⟨c, live, hinv⟩, hsec'⟩
  | call op =>
      obtain ⟨k', hrun, hok⟩ := taskOk_step k op ⟨c, live, h⟩ hl
      refine ⟨k', hrun, hok, ?_⟩
      have hcurTable := h.current.1
      cases op with
      | copyProcess cloneFlags fn arg =>
          obtain ⟨i, a, mm', c', hslot, hpage, hcopy, _⟩ := copyProcess_spec h hl.1 hl.2 fn arg 0
          simp only [taskSystem, hcopy, ok_bind] at hrun
          obtain rfl := Except.ok.inj hrun
          obtain ⟨hi, hnone⟩ := firstFree_some hslot
          exact hsec.addTask hi hnone (h.slotInv.fresh_ne hpage.fresh hcurTable) rfl
      | moveToUserMode pc =>
          obtain ⟨s, mm', c', _, hmove, _⟩ := moveToUserMode_spec h hl pc
          simp only [taskSystem, hmove, ok_bind] at hrun
          obtain rfl := Except.ok.inj hrun
          refine hsec.congr (fun q hq => hq) rfl (fun q => ?_)
          by_cases hq : q = k.current
          · subst hq
            simp [setCurrent, userTask, Kernel.cur]
          · simp [setCurrent, hq]
      | sysFork =>
          obtain ⟨i, s, a, mm₁, c₁, mm₂, c₂, hslot, hs, hpage, hfork, _⟩ := sysFork_spec h hl
          simp only [taskSystem, hfork, ok_bind] at hrun
          obtain rfl := Except.ok.inj hrun
          obtain ⟨hi, hnone⟩ := firstFree_some hslot
          have hne : k.current ≠ .page a := (h.tookPage hs).slotInv.fresh_ne hpage.fresh hcurTable
          have hadd : SectionsOk (addTask k mm₂ i a (forkTask k.cur s a i)) := hsec.addTask hi hnone hne rfl
          unfold forked
          generalize memcpy k.mem s k.cur.stack pageSize = mem
          exact ⟨hadd.here, hadd.elsewhere⟩
      | exitProcess =>
          obtain ⟨mm', c', live', hexit, htab, _⟩ := exited_spec h hl
          have hrun : exitProcess k = .ok k' := hrun
          rw [hexit] at hrun
          have hsec' : SectionsOk (exited k mm') := by
            refine hsec.congr (fun q hq => hq) rfl (fun q => ?_)
            by_cases hq : q = k.current
            · subst hq
              simp [exited, Kernel.cur]
            · simp [exited, hq]
          exact (hsec'.scheduled htab hrun).1
      | sysKill pid =>
          obtain ⟨h0, h64, hslot⟩ := hl
          obtain ⟨i, rfl⟩ : ∃ i : Nat, pid = i := ⟨pid.toNat, by omega⟩
          rw [Int.toNat_natCast] at hslot
          have hrun : OsdiKernel.sysKill k i = .ok k' := hrun
          by_cases hpid : k.cur.pid = i
          · rw [OsdiKernel.sysKill, if_pos hpid] at hrun
            exact Except.ok.inj hrun ▸ hsec
          · by_cases hi0 : i = 0
            · rw [OsdiKernel.sysKill, if_neg hpid, if_pos (by omega)] at hrun
              exact Except.ok.inj hrun ▸ hsec
            · obtain ⟨a, mm', c', _, _, hkill, _⟩ := sysKill_spec h (by omega) hi0 hpid hslot
              obtain rfl := Except.ok.inj (hkill.symm.trans hrun)
              exact hsec.killed i a mm'
      | schedule => exact (hsec.scheduled h.toTableInv hrun).1
      | sysMalloc bytes =>
          obtain ⟨⟨addr, k₁⟩, hmalloc, hk'⟩ := bind_eq_ok (show (OsdiKernel.sysMalloc k bytes >>= fun x => .ok x.2) = .ok k' from hrun)
          obtain ⟨⟨addr', mm'⟩, _, hk₁⟩ := bind_eq_ok hmalloc
          obtain ⟨_, rfl⟩ := Prod.mk.inj (Except.ok.inj hk₁)
          obtain rfl := Except.ok.inj hk'
          exact ⟨hsec.here, hsec.elsewhere⟩

/-- Runs of calls alone are runs. -/
theorem TaskReachable.kernel (h : TaskReachable k) : KernelReachable k := by
  obtain ⟨k₀, h₀, hr⟩ := h
  refine ⟨k₀, h₀, ?_⟩
  induction hr with
  | init => exact .init
  | @step _ _ op _ hl he ih => exact ih.step (i := .call op) hl he

theorem kernelOk_reachable (h : KernelReachable k) : KernelOk k := by
  obtain ⟨k₀, h₀, hr⟩ := h
  exact hr.inv (kernelOk_boot h₀) kernelOk_step

end OsdiKernel
