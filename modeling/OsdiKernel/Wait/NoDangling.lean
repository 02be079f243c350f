import OsdiKernel.Sched.FailedCreate
import OsdiKernel.Wait.QueueInv

/-!
# When no entry dangles

Runs of `wait`, `wake_up` and the calls that make, end and choose tasks. Two
things leave an entry behind that is nobody's any more: `sys_kill` of a task
that waits frees the page the entry lies in, and `schedule` with nobody runnable
goes to slot 0 even if `init_task` waits, whose `wait` then returns with its
entry still on the queue.
-/

namespace OsdiKernel

/-- What the current task may do, and an interrupt for it. -/
inductive WaitOp where
  | wait (wqHead waitingTask : Nat)
  | wakeUp (wqHead : Nat)
  | schedule
  | copyProcess (cloneFlags fn arg : Nat)
  | sysFork
  | exitProcess
  | sysKill (pid : Int)

/-- The locals of `wait` lie on the caller's stack, and `sys_kill` is of a task in the table. -/
def waitSystem : System WaitState WaitOp Fault where
  legal := fun w op =>
    match op with
    | .wait _ waitingTask => OnKernelStack w.k.current waitingTask waitQueueEntrySize
    | .copyProcess cloneFlags _ _ => cloneFlags &&& pfKthread ≠ 0
    | .sysKill pid => 0 ≤ pid ∧ pid < taskSlots ∧ w.k.task pid.toNat ≠ none
    | _ => True
  exec := fun w op =>
    match op with
    | .wait wqHead waitingTask => wait w wqHead waitingTask
    | .wakeUp wqHead => wakeUp w wqHead
    | .schedule => do
        let k ← schedule w.k
        .ok { w with k }
    | .copyProcess cloneFlags fn arg => do
        let (_, k) ← copyProcess w.k cloneFlags fn arg 0
        .ok { w with k }
    | .sysFork => do
        let (_, k) ← sysFork w.k
        .ok { w with k }
    | .exitProcess => do
        let k ← exitProcess w.k
        .ok { w with k }
    | .sysKill pid => do
        let k ← sysKill w.k pid
        .ok { w with k }

/-- Somebody else is runnable. -/
def OthersRunnable (k : Kernel) : Prop :=
  ∃ i, i < taskSlots ∧ ∃ p ∈ k.task i, p ≠ k.current ∧ (k.tasks p).state = .running

instance (k : Kernel) : Decidable (OthersRunnable k) :=
  inferInstanceAs (Decidable (∃ i, i < taskSlots ∧ ∃ p ∈ k.task i, p ≠ k.current ∧ (k.tasks p).state = .running))

/-- Nobody who waits is killed, and nobody who waits is scheduled for want of others. -/
def Careful (w : WaitState) : WaitOp → Prop
  | .wait _ _ => OthersRunnable w.k ∨ (w.k.current ≠ .initTask ∧ (w.k.tasks .initTask).state ≠ .waiting)
  | .exitProcess => OthersRunnable w.k ∨ (w.k.tasks .initTask).state ≠ .waiting
  | .sysKill pid => ∀ p ∈ w.k.task pid.toNat, pid = 0 ∨ p = w.k.current ∨ (w.k.tasks p).state ≠ .waiting
  | _ => True

/-- Reachable from the initial task table and empty queues, by the rules of `S`. -/
def WaitReach (S : System WaitState WaitOp Fault) (w : WaitState) : Prop :=
  ∃ w₀ : WaitState, Boot w₀.k ∧ w₀.links = waitQueueHeads ∧ S.Reach w₀ w

/-- Where a task is, is still allocated. `init_task` is static. -/
def StackAllocated (mm : Mm) : TaskPtr → Prop
  | .initTask => True
  | .page a => PageAllocated mm a

/-- What the wait queues are to be like: `queue q` is the entries on queue `q`. -/
structure QueuesSound (w : WaitState) (queue : Nat → List Nat) : Prop where
  ring : ∀ q, IsRing w.links (.head q) ((queue q).map .entry)
  /-- An entry is that of a task in the table that waits. -/
  waiting : ∀ q, ∀ e ∈ queue q, (∃ i, i < taskSlots ∧ w.k.task i = some (w.privateTask e)) ∧
    (w.k.tasks (w.privateTask e)).state = .waiting
  /-- It lies on that task's stack, which is still allocated, -/
  allocated : ∀ q, ∀ e ∈ queue q, OnKernelStack (w.privateTask e) e waitQueueEntrySize ∧
    StackAllocated w.k.mm (w.privateTask e)
  /-- in a call of `wait` that has not returned. -/
  asleep : ∀ q, ∀ e ∈ queue q, w.privateTask e ≠ w.k.current
  /-- Each task that waits has exactly one. -/
  one : ∀ i p, w.k.task i = some p → (w.k.tasks p).state = .waiting →
    ∃! qe : Nat × Nat, qe.2 ∈ queue qe.1 ∧ w.privateTask qe.2 = p
  /-- So `wake_up` returns, and writes to tasks in the table only. -/
  wakes : ∀ q, ∃ w', wakeUp w q = .ok w' ∧ ∀ p, ¬ InTable w.k p → w'.k.tasks p = w.k.tasks p

variable {w w' : WaitState} {k : Kernel} {queue : Nat → List Nat} {c c' : Link → List Nat}
  {live : List Live} {p : TaskPtr}

/-! ## The invariant says so -/

theorem UseInv.stackAllocated (h : UseInv k c live) (hp : InTable k p) : StackAllocated k.mm p := by
  cases p with
  | initTask => trivial
  | page a => exact h.mm.slab.pageAllocated (h.live _ hp .task a rfl)

theorem WaitInv.queuesSound (h : WaitInv w queue c live) : QueuesSound w queue where
  ring := fun q => h.rings.ring (.head q) ⟨q, rfl⟩
  waiting := fun q e he => ⟨(h.queued q e he).1, (h.queued q e he).2.1⟩
  allocated := fun q e he => ⟨(h.queued q e he).2.2, h.slot.stackAllocated (h.queued q e he).1⟩
  asleep := by
    intro q e he hc
    have hwait := (h.queued q e he).2.1
    rw [hc] at hwait
    exact h.not_waiting hwait
  one := by
    intro i p hp hs
    obtain ⟨q, e, he, hpe⟩ := h.asleep p (h.slot.inTable hp) hs
    refine ⟨(q, e), ⟨he, hpe⟩, fun qe hqe => ?_⟩
    obtain ⟨h1, h2⟩ := h.once qe.1 q qe.2 e hqe.1 he (hqe.2.trans hpe.symm)
    exact Prod.ext h1 h2
  wakes := by
    intro q
    obtain ⟨w', hrun, _, hsame⟩ := h.wakeUp q
    exact ⟨w', hrun, hsame⟩

/-! ## Each step -/

/-- The invariant holds, whatever is on the queues. -/
def WaitOk (w : WaitState) : Prop := ∃ queue c live, WaitInv w queue c live

theorem waitOk_boot {w₀ : WaitState} (h : Boot w₀.k) (hl : w₀.links = waitQueueHeads) : WaitOk w₀ := by
  obtain ⟨c, live, hinv⟩ := taskOk_boot h
  obtain ⟨ptRegs, hinit⟩ := h.init
  refine ⟨fun _ => [], c, live, ⟨hinv.slotInv, hinv.current.1, by rw [hinit]; rfl, hl ▸ rings_waitQueueHeads, ?_, ?_, ?_⟩,
    Or.inl hinv.current.2⟩
  · exact fun q e he => absurd he (by simp)
  · exact fun q q' e e' he => absurd he (by simp)
  · intro p hp hs
    obtain ⟨i, _, hi⟩ := hp
    rw [(h.slot hi).2, hinit] at hs
    exact TaskState.noConfusion hs

/-- **`wait`** -/
theorem WaitInv.wait (h : WaitInv w queue c live) {wqHead waitingTask : Nat}
    (hs : OnKernelStack w.k.current waitingTask waitQueueEntrySize) (hc : Careful w (.wait wqHead waitingTask)) :
    ∃ w', OsdiKernel.wait w wqHead waitingTask = .ok w' ∧ WaitOk w' := by
  obtain ⟨w₁, hrun₁, hk, h₁⟩ := h.goToSleep wqHead hs
  have hgo : (∃ p, Runnable w₁.k p) ∨ (w₁.k.tasks .initTask).state ≠ .waiting := by
    rw [hk]
    rcases hc with ⟨i, hi, p, hp, hne, hrun⟩ | ⟨hne, hinit⟩
    · refine Or.inl ⟨p, ⟨i, hi, hp⟩, ?_⟩
      rw [w.k.updateTask_ne _ _ _ hne]
      exact hrun
    · refine Or.inr ?_
      rw [w.k.updateTask_ne _ _ _ hne.symm]
      exact hinit
  obtain ⟨k', hrun, h'⟩ := h₁.schedule hgo
  exact ⟨{ w₁ with k := k' }, by rw [OsdiKernel.wait, hrun₁, ok_bind, hrun, ok_bind], _, c, live, h'⟩

theorem WaitInv.schedule (h : WaitInv w queue c live) :
    ∃ k', OsdiKernel.schedule w.k = .ok k' ∧ WaitOk { w with k := k' } := by
  have hgo : (∃ p, Runnable w.k p) ∨ (w.k.tasks .initTask).state ≠ .waiting := by
    rcases h.awake with hr | ⟨hi, hr⟩
    · exact Or.inl ⟨w.k.current, h.current, hr⟩
    · rw [Kernel.cur, hi] at hr
      exact Or.inr hr
  obtain ⟨k', hrun, h'⟩ := h.toQueueInv.schedule hgo
  exact ⟨k', hrun, queue, c, live, h'⟩

/-- A task on a fresh page joins the table. It does not wait. -/
theorem WaitInv.addTask (h : WaitInv w queue c live) {mm' : Mm} {live' : List Live} {i a : Nat} {t : Task}
    (mem : Nat → UInt8) (hi : i < taskSlots) (hfree : w.k.task i = none) (hfresh : ∀ p, InTable w.k p → p ≠ .page a)
    (hslot : SlotInv { addTask w.k mm' i a t with mem } c' live') (ht : t.state = .running) :
    WaitOk { w with k := { addTask w.k mm' i a t with mem } } := by
  have hin : ∀ p, InTable { OsdiKernel.addTask w.k mm' i a t with mem } p ↔ p = .page a ∨ InTable w.k p :=
    fun p => show InTable (OsdiKernel.addTask w.k mm' i a t) p ↔ _ from addTask_inTable hi hfree
  have hne : ∀ p, p ≠ .page a → (OsdiKernel.addTask w.k mm' i a t).tasks p = w.k.tasks p := fun p hp => addTask_ne hp
  have hcur := hne _ (hfresh _ h.current)
  refine ⟨queue, c', live', h.kernel hslot ((hin _).mpr (Or.inr h.current)) ?_ (fun p => ?_), ?_⟩
  · exact (congrArg Task.stack (hne .initTask nofun)).trans h.initStack
  · rw [hin]
    show ((p = .page a ∨ InTable w.k p) ∧ ((OsdiKernel.addTask w.k mm' i a t).tasks p).state = .waiting) ↔ _
    by_cases hp : p = .page a
    · subst hp
      rw [addTask_self, ht]
      exact ⟨fun hs => TaskState.noConfusion hs.2, fun hs => absurd rfl (hfresh _ hs.1)⟩
    · rw [hne p hp]
      exact ⟨fun hs => ⟨hs.1.resolve_left hp, hs.2⟩, fun hs => ⟨Or.inr hs.1, hs.2⟩⟩
  · show ((OsdiKernel.addTask w.k mm' i a t).tasks w.k.current).state = .running ∨ (w.k.current = .initTask ∧
      ((OsdiKernel.addTask w.k mm' i a t).tasks w.k.current).state ≠ .waiting)
    rw [hcur]
    exact h.awake

/-- **`copy_process`** of a kernel thread, if it returns. -/
theorem WaitInv.copyProcess (h : WaitInv w queue c live) {cloneFlags fn arg : Nat} {r : Int × Kernel}
    (hk : cloneFlags &&& pfKthread ≠ 0) (hrun : OsdiKernel.copyProcess w.k cloneFlags fn arg 0 = .ok r) :
    WaitOk { w with k := r.2 } := by
  by_cases hcan : CanCopy w.k
  · obtain ⟨i, a, mm', c', hcopy⟩ := h.slot.copyProcess h.current hk hcan fn arg 0
    obtain ⟨hi64, hnone⟩ := firstFree_some hcopy.slot
    obtain rfl := Except.ok.inj (hcopy.run.symm.trans hrun)
    have hadd := h.slot.addTask hi64 hnone hcopy.page.fresh hcopy.page.inv hcopy.new
    exact h.addTask w.k.mem hi64 hnone (fun p hp => h.slot.fresh_ne hcopy.page.fresh hp) hadd rfl
  · obtain ⟨f, hf⟩ := h.slot.copyProcess_faults hcan cloneFlags fn arg 0
    rw [hf] at hrun
    exact absurd hrun (by simp)

/-- **`sys_fork`**, if it returns. -/
theorem WaitInv.sysFork (h : WaitInv w queue c live) {r : Int × Kernel} (hrun : OsdiKernel.sysFork w.k = .ok r) :
    WaitOk { w with k := r.2 } := by
  by_cases hcan : CanFork w.k
  · obtain ⟨i, s, a, mm₁, c₁, mm₂, c₂, hf⟩ := h.slot.sysFork h.current hcan
    obtain ⟨hi64, hnone⟩ := firstFree_some hf.slot
    obtain rfl := Except.ok.inj (hf.run.symm.trans hrun)
    have hgrow : SlotInv { w.k with mm := mm₁ } c₁ (pageAt s :: live) :=
      h.slot.grow hf.stack.inv (fun _ he => List.mem_cons_of_mem _ he)
    have hadd := hgrow.addTask hi64 hnone hf.page.fresh hf.page.inv hf.new
    unfold forked
    generalize memcpy w.k.mem s w.k.cur.stack pageSize = mem
    exact h.addTask mem hi64 hnone (fun p hp => hgrow.fresh_ne hf.page.fresh hp) (hadd.writeMem mem) rfl
  · obtain ⟨f, hf⟩ := h.slot.sysFork_faults hcan
    rw [hf] at hrun
    exact absurd hrun (by simp)

/-- **`exit_process`** -/
theorem WaitInv.exitProcess (h : WaitInv w queue c live) (hc : Careful w .exitProcess) :
    ∃ k', OsdiKernel.exitProcess w.k = .ok k' ∧ WaitOk { w with k := k' } := by
  have halive : w.k.cur.stack ≠ 0 → w.k.cur.state ≠ .zombie := by
    intro hs hz
    rcases h.awake with hr | ⟨hi, _⟩
    · rw [hr] at hz
      exact TaskState.noConfusion hz
    · rw [Kernel.cur, hi] at hs
      exact hs h.initStack
  obtain ⟨mm', c', live', hex⟩ := h.slot.exitProcess h.current halive
  have hself : (exited w.k mm').tasks w.k.current = { w.k.cur with state := .zombie } := Function.update_self ..
  have hne : ∀ p, p ≠ w.k.current → (exited w.k mm').tasks p = w.k.tasks p := fun p hp => Function.update_of_ne hp _ _
  have h₁ : QueueInv { w with k := exited w.k mm' } queue c' live' := by
    refine h.kernel hex.inv h.current ?_ (fun p => ?_)
    · by_cases hi : TaskPtr.initTask = w.k.current
      · have hstack := h.initStack
        rw [hi] at hstack ⊢
        rw [hself]
        exact hstack
      · rw [hne _ hi]
        exact h.initStack
    · show (InTable w.k p ∧ ((exited w.k mm').tasks p).state = .waiting) ↔ _
      by_cases hp : p = w.k.current
      · subst hp
        rw [hself]
        exact ⟨fun hs => TaskState.noConfusion hs.2, fun hs => absurd hs.2 h.not_waiting⟩
      · rw [hne p hp]
  have hgo : (∃ p, Runnable (exited w.k mm') p) ∨ ((exited w.k mm').tasks .initTask).state ≠ .waiting := by
    rcases hc with ⟨i, hi, p, hp, hpne, hrun⟩ | hinit
    · exact Or.inl ⟨p, ⟨i, hi, hp⟩, by rw [hne p hpne]; exact hrun⟩
    · refine Or.inr ?_
      by_cases hi : TaskPtr.initTask = w.k.current
      · rw [hi, hself]
        exact TaskState.noConfusion
      · rw [hne _ hi]
        exact hinit
  obtain ⟨k', hrun, h'⟩ := h₁.schedule hgo
  exact ⟨k', hex.run.trans hrun, queue, c', live', h'⟩

/-- **`sys_kill`** -/
theorem WaitInv.sysKill (h : WaitInv w queue c live) {pid : Int} (h0 : 0 ≤ pid) (h64 : pid < taskSlots)
    (hslot : w.k.task pid.toNat ≠ none) (hc : Careful w (.sysKill pid)) :
    ∃ k', OsdiKernel.sysKill w.k pid = .ok k' ∧ WaitOk { w with k := k' } := by
  obtain ⟨i, rfl⟩ : ∃ i : Nat, pid = i := ⟨pid.toNat, by omega⟩
  rw [Int.toNat_natCast] at hslot
  by_cases hpid : w.k.cur.pid = i
  · exact ⟨w.k, by rw [OsdiKernel.sysKill, if_pos hpid], queue, c, live, h⟩
  by_cases hi0 : i = 0
  · exact ⟨w.k, by rw [OsdiKernel.sysKill, if_neg hpid, if_pos (by omega)], queue, c, live, h⟩
  obtain ⟨a, mm', c', hkill⟩ := h.slot.sysKill (by omega) hi0 hpid hslot
  have hcare := hc (.page a) hkill.slot
  have htarget : (w.k.tasks (.page a)).state ≠ .waiting := by
    rcases hcare with hz | hz | hz
    · omega
    · exact absurd hz.symm hkill.notCurrent
    · exact hz
  let k₁ := w.k.updateTask (.page a) (fun t => { t with flags := 0 })
  have h₁ : SlotInv k₁ c live := h.slot.updateTask rfl rfl rfl rfl
  have hstate : ∀ p, (k₁.tasks p).state = (w.k.tasks p).state ∧ (k₁.tasks p).stack = (w.k.tasks p).stack := by
    intro p
    by_cases hp : p = .page a
    · subst hp
      simp [k₁]
    · rw [w.k.updateTask_ne _ p _ hp]
      exact ⟨rfl, rfl⟩
  have hin : ∀ p, InTable (killed w.k mm' i a) p ↔ InTable w.k p ∧ p ≠ .page a :=
    fun p => show InTable (dropTask k₁ mm' i) p ↔ _ from h₁.dropTask_inTable hkill.slot
  have hdrop : SlotInv (killed w.k mm' i a) c' (live.erase (pageAt a)) := h₁.dropTask hkill.slot hkill.page.inv
  refine ⟨killed w.k mm' i a, hkill.run, queue, c', _,
    h.kernel hdrop ((hin _).mpr ⟨h.current, hkill.notCurrent⟩) ((hstate _).2.trans h.initStack) (fun p => ?_), ?_⟩
  · rw [hin]
    show ((InTable w.k p ∧ p ≠ .page a) ∧ (k₁.tasks p).state = .waiting) ↔ _
    rw [(hstate p).1]
    refine ⟨fun hs => ⟨hs.1.1, hs.2⟩, fun hs => ⟨⟨hs.1, fun hp => ?_⟩, hs.2⟩⟩
    rw [hp] at hs
    exact htarget hs.2
  · show (k₁.tasks w.k.current).state = .running ∨ (w.k.current = .initTask ∧ (k₁.tasks w.k.current).state ≠ .waiting)
    rw [(hstate _).1]
    exact h.awake

/-! ## Runs -/

/-- The steps, each careful. -/
def carefulSystem : System WaitState WaitOp Fault := waitSystem.restrict Careful

/-- **A careful step that returns keeps the invariant.** -/
theorem waitOk_step {op : WaitOp} (h : WaitOk w) (hl : carefulSystem.legal w op)
    (he : carefulSystem.exec w op = .ok w') : WaitOk w' := by
  obtain ⟨queue, c, live, h⟩ := h
  obtain ⟨hlegal, hcare⟩ := hl
  have he' : waitSystem.exec w op = .ok w' := he
  cases op with
  | wait wqHead waitingTask =>
      obtain ⟨w₁, hrun, hok⟩ := h.wait hlegal hcare
      exact Except.ok.inj (hrun.symm.trans he') ▸ hok
  | wakeUp wqHead =>
      obtain ⟨w₁, hrun, hinv, _⟩ := h.wakeUp wqHead
      exact Except.ok.inj (hrun.symm.trans he') ▸ ⟨_, c, live, hinv⟩
  | schedule =>
      obtain ⟨k', hrun, hok⟩ := h.schedule
      simp only [waitSystem, hrun, ok_bind, Except.ok.injEq] at he'
      exact he' ▸ hok
  | copyProcess cloneFlags fn arg =>
      cases hrun : copyProcess w.k cloneFlags fn arg 0 with
      | error f =>
          simp only [waitSystem, hrun, error_bind] at he'
          exact absurd he' (by simp)
      | ok r =>
          simp only [waitSystem, hrun, ok_bind, Except.ok.injEq] at he'
          exact he' ▸ h.copyProcess hlegal hrun
  | sysFork =>
      cases hrun : sysFork w.k with
      | error f =>
          simp only [waitSystem, hrun, error_bind] at he'
          exact absurd he' (by simp)
      | ok r =>
          simp only [waitSystem, hrun, ok_bind, Except.ok.injEq] at he'
          exact he' ▸ h.sysFork hrun
  | exitProcess =>
      obtain ⟨k', hrun, hok⟩ := h.exitProcess hcare
      simp only [waitSystem, hrun, ok_bind, Except.ok.injEq] at he'
      exact he' ▸ hok
  | sysKill pid =>
      obtain ⟨h0, h64, hslot⟩ := hlegal
      obtain ⟨k', hrun, hok⟩ := h.sysKill h0 h64 hslot hcare
      simp only [waitSystem, hrun, ok_bind, Except.ok.injEq] at he'
      exact he' ▸ hok

/--
**No entry dangles**, in any run that kills nobody who waits and never schedules
anybody who waits: every entry is that of a task in the table that waits, in
memory that is allocated, and every task that waits has exactly one.
-/
theorem noDangling_of_careful (h : WaitReach carefulSystem w) : ∃ queue, QueuesSound w queue := by
  obtain ⟨w₀, h₀, hl, hr⟩ := h
  obtain ⟨queue, c, live, hinv⟩ := hr.inv_ok (waitOk_boot h₀ hl) (fun _ _ _ hw hl he => waitOk_step hw hl he)
  exact ⟨queue, hinv.queuesSound⟩

/-! ## Runs that can be computed -/

instance : ∀ w op, Decidable (waitSystem.legal w op)
  | w, .wait _ waitingTask => inferInstanceAs (Decidable (OnKernelStack w.k.current waitingTask waitQueueEntrySize))
  | _, .copyProcess cloneFlags _ _ => inferInstanceAs (Decidable (cloneFlags &&& pfKthread ≠ 0))
  | w, .sysKill pid => inferInstanceAs (Decidable (0 ≤ pid ∧ pid < taskSlots ∧ w.k.task pid.toNat ≠ none))
  | _, .wakeUp _ => inferInstanceAs (Decidable True)
  | _, .schedule => inferInstanceAs (Decidable True)
  | _, .sysFork => inferInstanceAs (Decidable True)
  | _, .exitProcess => inferInstanceAs (Decidable True)

instance : ∀ w op, Decidable (Careful w op)
  | w, .wait _ _ => inferInstanceAs
      (Decidable (OthersRunnable w.k ∨ (w.k.current ≠ .initTask ∧ (w.k.tasks .initTask).state ≠ .waiting)))
  | w, .exitProcess => inferInstanceAs (Decidable (OthersRunnable w.k ∨ (w.k.tasks .initTask).state ≠ .waiting))
  | w, .sysKill pid => inferInstanceAs
      (Decidable (∀ p ∈ w.k.task pid.toNat, pid = 0 ∨ p = w.k.current ∨ (w.k.tasks p).state ≠ .waiting))
  | _, .copyProcess _ _ _ => inferInstanceAs (Decidable True)
  | _, .wakeUp _ => inferInstanceAs (Decidable True)
  | _, .schedule => inferInstanceAs (Decidable True)
  | _, .sysFork => inferInstanceAs (Decidable True)

instance (w : WaitState) (op : WaitOp) : Decidable (carefulSystem.legal w op) :=
  inferInstanceAs (Decidable (waitSystem.legal w op ∧ Careful w op))

/-- Carry out a list of steps after `mm_init`. -/
def waitRun (S : System WaitState WaitOp Fault) [∀ w op, Decidable (S.legal w op)] (ops : List WaitOp) :
    Option WaitState :=
  match mmInit Mm.bss with
  | .ok mm => S.run ⟨bootKernel mm, waitQueueHeads, fun _ => .initTask⟩ ops
  | .error _ => none

theorem waitReach_of_run {S : System WaitState WaitOp Fault} [∀ w op, Decidable (S.legal w op)]
    {ops : List WaitOp} (h : waitRun S ops = some w) : WaitReach S w := by
  cases h₀ : mmInit Mm.bss with
  | error e => simp [waitRun, h₀] at h
  | ok mm =>
      simp only [waitRun, h₀] at h
      exact ⟨_, ⟨h₀, rfl, rfl, rfl, PtRegs.zero, rfl⟩, rfl, System.Reach.of_run .init h⟩

/-- A thread waits, with `init_task` to run meanwhile. -/
theorem noDangling_one_waits :
    ∃ w, WaitReach carefulSystem w ∧ w.links.next (.head 0) = some (.entry 0x200800) ∧
      ∃ queue, QueuesSound w queue := by
  have hrun : (waitRun carefulSystem [.copyProcess pfKthread 0 0, .schedule, .wait 0 0x200800]).map
      (fun w => w.links.next (.head 0)) = some (some (.entry 0x200800)) := by decide +kernel
  obtain ⟨w, hw, hnext⟩ := Option.map_eq_some_iff.mp hrun
  have hr := waitReach_of_run hw
  exact ⟨w, hr, hnext, noDangling_of_careful hr⟩

/-- And `init_task` kills it: its entry is still on the queue. -/
theorem not_noDangling : ¬ ∀ w, WaitReach waitSystem w → ∃ queue, QueuesSound w queue := by
  intro hall
  have hrun : (waitRun waitSystem [.copyProcess pfKthread 0 0, .schedule, .wait 0 0x200800, .sysKill 1]).map
      (fun w => (w.links.next (.head 0), w.privateTask 0x200800,
        decide (∃ i, i < taskSlots ∧ w.k.task i = some (.page 0x200000)))) =
      some (some (.entry 0x200800), .page 0x200000, false) := by decide +kernel
  obtain ⟨w, hw, hres⟩ := Option.map_eq_some_iff.mp hrun
  simp only [Prod.mk.injEq, decide_eq_false_iff_not] at hres
  obtain ⟨hnext, hpriv, hnone⟩ := hres
  obtain ⟨queue, hsound⟩ := hall w (waitReach_of_run hw)
  have hhead := (hsound.ring 0).next_head
  rw [hnext] at hhead
  have hmem : 0x200800 ∈ queue 0 := by
    cases hq : queue 0 with
    | nil =>
        rw [hq] at hhead
        exact absurd hhead (by simp)
    | cons e es =>
        rw [hq, List.map_cons, List.headD_cons] at hhead
        obtain rfl := WaitNode.entry.inj (Option.some.inj hhead)
        exact List.mem_cons_self
  have htask := (hsound.waiting 0 _ hmem).1
  rw [hpriv] at htask
  exact hnone htask

end OsdiKernel
