import OsdiKernel.Exec.OwnWrites
import OsdiKernel.Sched.Machine

/-!
# What holds between two steps

A task loses the CPU at two kinds of places: inside `_schedule`, which has
raised its count, and at an interrupt, which finds it at zero. So a task that is
not on the CPU has a count of one, from its own `_schedule` or from the
`copy_process` that made it, and the frames of the one that is on the CPU are
those of a single section — of two, where `sys_fork` calls `copy_process` — over
calls that are in none.

`MachineInv` says so, and follows the pages a call has taken and not yet given
to a task: the slots stay right only because a new task's page was nobody's.
-/

namespace OsdiKernel

variable {m m' : Machine} {k k' : Kernel} {c c' : Link → List Nat} {live live' : List Live}
  {p q : TaskPtr} {f : Frame} {rest fs : List Frame} {mm : Mm} {a : Nat}

/-! ## Sections -/

/--
The sections a function has entered and not left: between a `preempt_disable` and
its `preempt_enable`. `schedule_tail` leaves the one a new task starts in.
-/
def Frame.sections : Frame → Nat
  | .task | .irqExit | .schedule => 0
  | .retFromFork => 1
  | .scheduleInner .disable | .copyProcess _ .disable | .sysFork .disable | .sysExec _ _ .disable
  | .exitProcess .disable => 0
  | .scheduleInner _ | .copyProcess _ _ | .sysFork _ | .sysExec _ _ _ | .exitProcess _ => 1

/-- The sections a task is inside. -/
def inside (fs : List Frame) : Nat := (fs.map Frame.sections).sum

@[simp] theorem inside_cons (f : Frame) (fs : List Frame) : inside (f :: fs) = f.sections + inside fs := by
  simp [inside]

@[simp] theorem inside_nil : inside [] = 0 := rfl

/-- Interrupted here, the task may lose the CPU. -/
def Frame.Calm : Frame → Prop
  | .irqExit | .schedule | .scheduleInner .disable | .sysFork .disable | .sysExec _ _ .disable
  | .exitProcess .disable => True
  | .copyProcess args .disable => args.NoStack
  | _ => False

/-- The task's own code, and calls that are in no section. -/
inductive CalmStack : List Frame → Prop where
  | task : CalmStack [.task]
  | cons {f : Frame} {fs : List Frame} : f.Calm → CalmStack fs → CalmStack (f :: fs)

/-- What a function can have been called by. -/
def Over : Frame → List Frame → Prop
  | .task, rest | .retFromFork, rest => rest = []
  | .sysFork .call, _ => False
  | .copyProcess args pc, rest =>
      ((pc = .disable → args.NoStack) ∧ CalmStack rest) ∨ ∃ r, rest = .sysFork .call :: r ∧ CalmStack r
  | _, rest => CalmStack rest

/-- Where a task is that is not on the CPU. -/
def Parked (fs : List Frame) : Prop :=
  fs = [.retFromFork] ∨ ∃ rest, fs = .scheduleInner .enable :: rest ∧ CalmStack rest

theorem Frame.Calm.sections (h : f.Calm) : f.sections = 0 := by
  unfold Frame.Calm at h
  split at h <;> first | rfl | exact h.elim

theorem CalmStack.inside (h : CalmStack fs) : inside fs = 0 := by
  induction h with
  | task => rfl
  | cons hf _ ih => rw [inside_cons, hf.sections, ih]

/-- The innermost call of a calm task: there is one. -/
theorem CalmStack.split (h : CalmStack fs) : ∃ f rest, fs = f :: rest ∧ Over f rest ∧ (f = .task ∨ f.Calm) := by
  cases h with
  | task => exact ⟨.task, [], rfl, rfl, Or.inl rfl⟩
  | @cons f fs hf hfs =>
      refine ⟨f, fs, rfl, ?_, Or.inr hf⟩
      unfold Frame.Calm at hf
      split at hf
      all_goals first | exact hfs | exact Or.inl ⟨fun _ => hf, hfs⟩ | exact hf.elim

/-- Out of every section is calm. -/
theorem Over.calm (h : Over f rest) (h0 : OsdiKernel.inside (f :: rest) = 0) : CalmStack (f :: rest) := by
  have hs : f.sections = 0 := by
    rw [inside_cons] at h0
    omega
  unfold Frame.sections at hs
  split at hs
  all_goals first | exact absurd hs (by omega) | skip
  · rw [show rest = [] from h]
    exact .task
  · exact .cons trivial h
  · exact .cons trivial h
  · exact .cons trivial h
  · rcases h with ⟨hargs, hrest⟩ | ⟨r, rfl, hr⟩
    · exact .cons (hargs rfl) hrest
    · simp [Frame.sections] at h0
  · exact .cons trivial h
  · exact .cons trivial h
  · exact .cons trivial h

theorem Parked.inside (h : Parked fs) : OsdiKernel.inside fs = 1 := by
  rcases h with rfl | ⟨rest, rfl, hrest⟩
  · rfl
  · rw [inside_cons, hrest.inside]
    rfl

theorem Parked.not_empty (h : Parked fs) : ¬ fs.isEmpty = true := by
  rcases h with rfl | ⟨rest, rfl, _⟩ <;> simp

/-- `copy_process` returned to its task. -/
theorem CalmStack.returnPid (h : CalmStack fs) (pid : Int) : returnPid pid fs = fs := by
  cases h with
  | task => rfl
  | @cons f fs hf _ =>
      unfold OsdiKernel.returnPid
      split
      · exact absurd hf (by simp_all [Frame.Calm])
      · rfl

/-! ## The invariant -/

/-- Whom `current` points to while the task on the CPU is there. -/
def Frame.target (cpu : TaskPtr) : Frame → TaskPtr
  | .scheduleInner (.cpuSwitchTo next) => next
  | _ => cpu

/-- A zombie never leaves these. -/
def Frame.Leaving : Frame → Prop
  | .exitProcess .kfree | .exitProcess .enable | .schedule => True
  | .scheduleInner pc => pc ≠ .enable
  | _ => False

/-- The scheduler may go there. -/
def Eligible (k : Kernel) (p : TaskPtr) : Prop := (k.tasks p).state = .running ∨ p = .initTask

/-- So may it to the task in that slot. -/
def Choice (k : Kernel) (next : Nat) : Prop := ∃ p, k.task next = some p ∧ Eligible k p

/-- The page belongs to the code that runs: it is live, and no task uses it. -/
def OwnPage (k : Kernel) (live : List Live) (a : Nat) : Prop :=
  pageAt a ∈ live ∧ ∀ p, InTable k p → ∀ r, pageOf k p r ≠ some a

/-- The stack `copy_process` was given, if it was, is nobody's. -/
def CopyArgs.Ready (args : CopyArgs) (k : Kernel) (live : List Live) : Prop :=
  args.NoStack ∨ OwnPage k live args.stack

/-- The task in slot `pid` is new, and has not run. -/
def Unborn (m : Machine) (pid : Int) : Prop :=
  ∃ p, taskAt m.k pid = .ok p ∧ p ≠ m.cpu ∧ m.frames p = [.retFromFork]

/-- What a function relies on to go on. -/
def Point (m : Machine) (live : List Live) : Frame → Prop
  | .scheduleInner (.select _ best) => Choice m.k best.2
  | .scheduleInner (.switchTo next) => Choice m.k next
  | .scheduleInner (.cpuSwitchTo next) => InTable m.k next ∧ next ≠ m.cpu ∧ Eligible m.k next
  | .copyProcess args .disable | .copyProcess args .kmalloc => args.Ready m.k live
  | .copyProcess args (.fill page) =>
      OwnPage m.k live page ∧ (args.NoStack ∨ args.stack ≠ page ∧ OwnPage m.k live args.stack)
  | .copyProcess _ (.assign page) =>
      OwnPage m.k live page ∧ m.frames (.page page) = [.retFromFork] ∧
      (m.k.tasks (.page page)).preemptCount = 1 ∧
      ∀ b, (m.k.tasks (.page page)).userStack = some b → b ≠ page ∧ OwnPage m.k live b
  | .copyProcess _ (.enable pid) => Unborn m pid
  | .sysFork (.copyStack pid) | .sysFork (.setSp pid) => Unborn m pid
  | .exitProcess .kfree => (m.k.tasks m.cpu).stack ≠ 0 → OwnPage m.k live (m.k.tasks m.cpu).stack
  | _ => True

/-- The task on the CPU is in `f`, and may be. -/
structure At (m : Machine) (live : List Live) (f : Frame) : Prop where
  current : m.k.current = f.target m.cpu
  /-- Only `init_task` comes back from its end. -/
  alive : (m.k.tasks m.cpu).state = .zombie → m.cpu = .initTask ∨ f.Leaving
  point : Point m live f

/-- `c` is what the lists hold, `live` what is handed out. -/
structure MachineInv (m : Machine) (c : Link → List Nat) (live : List Live) : Prop where
  use : UseInv m.k c live
  initStack : (m.k.tasks .initTask).stack = 0
  cpu : InTable m.k m.cpu
  /-- A count is raised once for each section. -/
  count : ∀ p, InTable m.k p → (m.k.tasks p).preemptCount = inside (m.frames p)
  parked : ∀ p, InTable m.k p → p ≠ m.cpu → Parked (m.frames p)
  running : ∃ f rest, m.frames m.cpu = f :: rest ∧ Over f rest ∧ At m live f

/-- The invariant holds, for some record of what is handed out. -/
def MachineOk (m : Machine) : Prop := ∃ c live, MachineInv m c live

/-- Where no function waits for anything. -/
theorem point_of_calm (h : f = .task ∨ f.Calm) : Point m live f := by
  rcases h with rfl | h
  · trivial
  · unfold Frame.Calm at h
    split at h
    all_goals first | trivial | exact Or.inl h

theorem target_of_calm (h : f = .task ∨ f.Calm) (cpu : TaskPtr) : f.target cpu = cpu := by
  rcases h with rfl | h
  · rfl
  · unfold Frame.Calm at h
    split at h <;> first | rfl | exact h.elim

/-! ## What a step changes -/

/-- The code of the task on the CPU has changed nothing the invariant says of the others. -/
structure Local (cpu : TaskPtr) (k k' : Kernel) : Prop where
  task : k'.task = k.task
  count : ∀ q, InTable k q → q ≠ cpu → (k'.tasks q).preemptCount = (k.tasks q).preemptCount
  initStack : (k'.tasks .initTask).stack = (k.tasks .initTask).stack

theorem Local.inTable {cpu : TaskPtr} (h : Local cpu k k') : InTable k' p ↔ InTable k p := by
  unfold InTable
  rw [h.task]

/-- The fields of a task that the invariant looks at are as they were, but for `p`'s count. -/
theorem Local.updateTask {cpu : TaskPtr} (k : Kernel) (p : TaskPtr) (g : Task → Task)
    (hcount : p ≠ cpu → (g (k.tasks p)).preemptCount = (k.tasks p).preemptCount)
    (hstack : (g (k.tasks p)).stack = (k.tasks p).stack) : Local cpu k (k.updateTask p g) where
  task := rfl
  count := by
    intro q _ hq
    by_cases hqp : q = p
    · subst hqp
      rw [k.updateTask_self]
      exact hcount hq
    · rw [k.updateTask_ne p q g hqp]
  initStack := by
    by_cases hp : TaskPtr.initTask = p
    · subst hp
      rw [k.updateTask_self]
      exact hstack
    · rw [k.updateTask_ne p _ g hp]

/-- What the code that runs has in hand it keeps, as long as the tasks use what they used. -/
theorem OwnPage.keep (h : OwnPage k live a) (htask : k'.task = k.task)
    (hpage : ∀ p, InTable k p → ∀ r b, pageOf k' p r = some b → pageOf k p r = some b)
    (hsub : ∀ e ∈ live, e ∈ live') : OwnPage k' live' a := by
  refine ⟨hsub _ h.1, fun p hp r hb => ?_⟩
  unfold InTable at hp
  rw [htask] at hp
  exact h.2 p hp r (hpage p hp r a hb)

/-- **The task on the CPU goes on**, wherever it is then. -/
theorem MachineInv.goOn (h : MachineInv m c live) (hl : Local m.cpu m.k k') (huse : UseInv k' c' live')
    (hover : Over f rest) (hcount : (k'.tasks m.cpu).preemptCount = inside (f :: rest))
    (hat : At (m.goOn k' (f :: rest)) live' f) : MachineInv (m.goOn k' (f :: rest)) c' live' where
  use := huse
  initStack := hl.initStack.trans h.initStack
  cpu := hl.inTable.mpr h.cpu
  count := by
    intro p hp
    have hp' := hl.inTable.mp hp
    show (k'.tasks p).preemptCount = inside (Function.update m.frames m.cpu (f :: rest) p)
    by_cases hpc : p = m.cpu
    · rw [hpc, Function.update_self]
      exact hcount
    · rw [Function.update_of_ne hpc, hl.count p hp' hpc]
      exact h.count p hp'
  parked := by
    intro p hp hpc
    have hne : p ≠ m.cpu := hpc
    show Parked (Function.update m.frames m.cpu (f :: rest) p)
    rw [Function.update_of_ne hne]
    exact h.parked p (hl.inTable.mp hp) hne
  running := ⟨f, rest, Function.update_self .., hover, hat⟩

/-- It returns out of every section. -/
theorem MachineInv.back (h : MachineInv m c live) (hl : Local m.cpu m.k k') (huse : UseInv k' c' live')
    (hfs : CalmStack fs) (hcount : (k'.tasks m.cpu).preemptCount = 0) (hcur : k'.current = m.cpu)
    (halive : (k'.tasks m.cpu).state = .zombie → m.cpu = .initTask) : MachineInv (m.goOn k' fs) c' live' := by
  have h0 := hfs.inside
  obtain ⟨f, rest, rfl, hover, hcalm⟩ := hfs.split
  refine h.goOn hl huse hover ?_ ⟨?_, fun hz => Or.inl (halive hz), point_of_calm hcalm⟩
  · rw [hcount, h0]
    rfl
  · rw [target_of_calm hcalm]
    exact hcur

/-- Where the task on the CPU is. -/
theorem MachineInv.where_at (h : MachineInv m c live) (hf : m.frames m.cpu = f :: rest) :
    Over f rest ∧ At m live f ∧ (m.k.tasks m.cpu).preemptCount = inside (f :: rest) := by
  obtain ⟨f', rest', hf', hover, hat⟩ := h.running
  rw [hf] at hf'
  obtain ⟨rfl, rfl⟩ := List.cons.inj hf'
  exact ⟨hover, hat, hf ▸ h.count m.cpu h.cpu⟩

/-- It goes on, and is no less alive. -/
theorem MachineInv.next {f₀ : Frame} (h : MachineInv m c live) (hat : At m live f₀) (hl : Local m.cpu m.k k')
    (hstate : (k'.tasks m.cpu).state = (m.k.tasks m.cpu).state) (huse : UseInv k' c' live')
    (hover : Over f rest) (hcount : (k'.tasks m.cpu).preemptCount = inside (f :: rest))
    (hcur : k'.current = f.target m.cpu) (hleave : f₀.Leaving → f.Leaving)
    (hpoint : Point (m.goOn k' (f :: rest)) live' f) : MachineInv (m.goOn k' (f :: rest)) c' live' := by
  refine h.goOn hl huse hover hcount ⟨hcur, fun hz => ?_, hpoint⟩
  have hz' : (m.k.tasks m.cpu).state = .zombie := hstate ▸ hz
  exact (hat.alive hz').imp_right hleave

theorem Local.refl (cpu : TaskPtr) (k : Kernel) : Local cpu k k := ⟨rfl, fun _ _ _ => rfl, rfl⟩

/-- Counters are nobody's business here. -/
theorem Local.of_sameButCounters {cpu : TaskPtr} (h : SameButCounters k k') : Local cpu k k' where
  task := h.task
  count := by
    intro q _ _
    rw [h.tasks q]
  initStack := by rw [h.tasks]

/-- `preempt_disable` enters a section of the current task, -/
theorem preemptDisable_spec (k : Kernel) : Local k.current k (preemptDisable k) ∧
    OnlySched k (preemptDisable k) ∧
    ((preemptDisable k).tasks k.current).preemptCount = (k.tasks k.current).preemptCount + 1 := by
  refine ⟨.updateTask k _ _ (fun hne => absurd rfl hne) rfl, onlySched_preempt k (· + 1), ?_⟩
  rw [preemptDisable, k.updateTask_self]

/-- and `preempt_enable` leaves one. -/
theorem preemptEnable_spec (k : Kernel) : Local k.current k (preemptEnable k) ∧
    OnlySched k (preemptEnable k) ∧
    ((preemptEnable k).tasks k.current).preemptCount = (k.tasks k.current).preemptCount - 1 := by
  refine ⟨.updateTask k _ _ (fun hne => absurd rfl hne) rfl, onlySched_preempt k (· - 1), ?_⟩
  rw [preemptEnable, k.updateTask_self]

/-- **A section is entered.** -/
theorem MachineInv.enter {f₀ : Frame} (h : MachineInv m c live) (hf : m.frames m.cpu = f₀ :: rest)
    (hcur : m.k.current = m.cpu) (hover : Over f rest) (hs : f.sections = f₀.sections + 1)
    (htarget : f.target m.cpu = m.cpu) (hleave : f₀.Leaving → f.Leaving)
    (hpoint : Point (m.goOn (preemptDisable m.k) (f :: rest)) live f) :
    MachineInv (m.goOn (preemptDisable m.k) (f :: rest)) c live := by
  obtain ⟨_, hat, hcount⟩ := h.where_at hf
  obtain ⟨hl, ho, hc⟩ := preemptDisable_spec m.k
  rw [hcur] at hl hc
  refine h.next hat hl (ho.state _) (h.use.onlySched ho) hover ?_ (hcur.trans htarget.symm) hleave hpoint
  rw [hc, hcount, inside_cons, inside_cons, hs]
  push_cast
  omega

/-- **The last section is left.** -/
theorem MachineInv.leave {f₀ : Frame} (h : MachineInv m c live) (hf : m.frames m.cpu = f₀ :: rest)
    (hcur : m.k.current = m.cpu) (hfs : CalmStack fs) (hin : inside (f₀ :: rest) = 1)
    (hno : ¬ f₀.Leaving) : MachineInv (m.goOn (preemptEnable m.k) fs) c live := by
  obtain ⟨_, hat, hcount⟩ := h.where_at hf
  obtain ⟨hl, ho, hc⟩ := preemptEnable_spec m.k
  rw [hcur] at hl hc
  refine h.back hl (h.use.onlySched ho) hfs ?_ hcur (fun hz => ?_)
  · rw [hc, hcount, hin]
    rfl
  · rw [ho.state] at hz
    exact (hat.alive hz).resolve_right hno

/-! ## `_schedule` -/

theorem considerTask_choice {best : Int × Nat} (h : Choice k best.2) (i : Nat) :
    Choice k (considerTask k best i).2 := by
  unfold considerTask
  cases ht : k.task i with
  | none => exact h
  | some p =>
      dsimp only
      by_cases hc : (k.tasks p).state = .running ∧ (k.tasks p).counter > best.1
      · rw [if_pos hc]
        exact ⟨p, ht, Or.inl hc.1⟩
      · rw [if_neg hc]
        exact h

theorem refreshTask_same (k : Kernel) (i : Nat) : SameButCounters k (refreshTask k i) := by
  unfold refreshTask
  cases k.task i with
  | none => exact .refl k
  | some p => exact .setCounter k p _

/-- One more turn of a loop of `_schedule`, or none. -/
theorem MachineInv.turn {pc pc' : SchedulePc} (h : MachineInv m c live)
    (hf : m.frames m.cpu = .scheduleInner pc :: rest) (hs : SameButCounters m.k k')
    (hsec : (Frame.scheduleInner pc').sections = (Frame.scheduleInner pc).sections)
    (hcur : m.k.current = (Frame.scheduleInner pc').target m.cpu) (hpc : pc ≠ .enable → pc' ≠ .enable)
    (hpoint : Point (m.goOn k' (.scheduleInner pc' :: rest)) live (.scheduleInner pc')) :
    MachineInv (m.goOn k' (.scheduleInner pc' :: rest)) c live := by
  obtain ⟨hover, hat, hcount⟩ := h.where_at hf
  have hrest : CalmStack rest := hover
  refine h.next hat (.of_sameButCounters hs) (by rw [hs.tasks]) (h.use.onlySched (.of_sameButCounters hs)) hrest
    ?_ (hs.current.trans hcur) hpc hpoint
  rw [hs.tasks, inside_cons, hsec, ← inside_cons]
  exact hcount

/-- A zombie is not chosen, unless it is `init_task`. -/
theorem Eligible.eq_init {p : TaskPtr} (h : Eligible k p) (hz : (k.tasks p).state = .zombie) : p = .initTask := by
  rcases h with hr | hi
  · rw [hz] at hr
    exact TaskState.noConfusion hr
  · exact hi

/-- `switch_to` the task in that slot: it may be the one that runs. -/
theorem MachineInv.switchTo {next : Nat} (h : MachineInv m c live)
    (hf : m.frames m.cpu = .scheduleInner (.switchTo next) :: rest)
    (hrun : scheduleStep m rest (.switchTo next) = .ok m') : MachineInv m' c live := by
  obtain ⟨hover, hat, hcount⟩ := h.where_at hf
  have hrest : CalmStack rest := hover
  obtain ⟨p, hp, helig⟩ := show Choice m.k next from hat.point
  have hcur : m.k.current = m.cpu := hat.current
  simp only [scheduleStep, hp] at hrun
  by_cases hpc : m.k.current = p
  · rw [if_pos hpc] at hrun
    obtain rfl := Except.ok.inj hrun
    have hself : Eligible m.k m.cpu := (hcur.symm.trans hpc) ▸ helig
    exact h.goOn (.refl _ _) h.use hrest hcount ⟨hcur, fun hz => Or.inl (hself.eq_init hz), trivial⟩
  · rw [if_neg hpc] at hrun
    obtain rfl := Except.ok.inj hrun
    have hne : p ≠ m.cpu := fun he => hpc (hcur.trans he.symm)
    have huse : UseInv { m.k with current := p } c live :=
      h.use.onlySched ⟨rfl, rfl, rfl, rfl, fun _ => rfl⟩
    exact h.next hat ⟨rfl, fun _ _ _ => rfl, rfl⟩ rfl huse hrest hcount rfl
      nofun ⟨h.use.inTable hp, hne, helig⟩

/-- `cpu_switch_to` another: the one that ran is parked in its `_schedule`, and the other goes on. -/
theorem MachineInv.cpuSwitchTo {next : TaskPtr} (h : MachineInv m c live)
    (hf : m.frames m.cpu = .scheduleInner (.cpuSwitchTo next) :: rest)
    (hrun : scheduleStep m rest (.cpuSwitchTo next) = .ok m') : MachineInv m' c live := by
  obtain ⟨hover, hat, hcount⟩ := h.where_at hf
  have hrest : CalmStack rest := hover
  obtain ⟨hin, hne, helig⟩ := show InTable m.k next ∧ next ≠ m.cpu ∧ Eligible m.k next from hat.point
  have hframes : ¬ (m.frames next).isEmpty = true := (h.parked next hin hne).not_empty
  simp only [scheduleStep, if_neg hframes] at hrun
  obtain rfl := Except.ok.inj hrun
  have hnext : Function.update m.frames m.cpu (.scheduleInner .enable :: rest) next = m.frames next :=
    Function.update_of_ne hne ..
  refine ⟨h.use, h.initStack, hin, ?_, ?_, ?_⟩
  · intro q hq
    show (m.k.tasks q).preemptCount = inside (Function.update m.frames m.cpu _ q)
    by_cases hqc : q = m.cpu
    · rw [hqc, Function.update_self]
      exact hcount
    · rw [Function.update_of_ne hqc]
      exact h.count q hq
  · intro q hq _
    show Parked (Function.update m.frames m.cpu _ q)
    by_cases hqc : q = m.cpu
    · rw [hqc, Function.update_self]
      exact Or.inr ⟨rest, rfl, hrest⟩
    · rw [Function.update_of_ne hqc]
      exact h.parked q hq hqc
  · rcases h.parked next hin hne with hnew | ⟨r, henable, hr⟩
    · exact ⟨.retFromFork, [], hnext.trans hnew, rfl, hat.current, fun hz => Or.inl (helig.eq_init hz), trivial⟩
    · exact ⟨.scheduleInner .enable, r, hnext.trans henable, hr, hat.current,
        fun hz => Or.inl (helig.eq_init hz), trivial⟩

theorem scheduleStep_inv {pc : SchedulePc} (h : MachineInv m c live)
    (hf : m.frames m.cpu = .scheduleInner pc :: rest) (hrun : scheduleStep m rest pc = .ok m') :
    MachineInv m' c live := by
  obtain ⟨hover, hat, _⟩ := h.where_at hf
  have hrest : CalmStack rest := hover
  have hfirst : Choice m.k 0 := ⟨.initTask, h.use.init, Or.inr rfl⟩
  cases pc with
  | disable =>
      obtain rfl := Except.ok.inj hrun
      exact h.enter hf hat.current hrest rfl rfl nofun
        ⟨.initTask, h.use.init, Or.inr rfl⟩
  | select i best =>
      have hbest : Choice m.k best.2 := hat.point
      simp only [scheduleStep] at hrun
      by_cases hi : i < taskSlots
      · rw [if_pos hi] at hrun
        obtain rfl := Except.ok.inj hrun
        exact h.turn hf (.refl _) rfl hat.current nofun
          (considerTask_choice hbest i)
      · rw [if_neg hi] at hrun
        by_cases hc : best.1 ≠ 0
        · rw [if_pos hc] at hrun
          obtain rfl := Except.ok.inj hrun
          exact h.turn hf (.refl _) rfl hat.current nofun hbest
        · rw [if_neg hc] at hrun
          obtain rfl := Except.ok.inj hrun
          exact h.turn hf (.refl _) rfl hat.current nofun trivial
  | refresh i =>
      simp only [scheduleStep] at hrun
      by_cases hi : i < taskSlots
      · rw [if_pos hi] at hrun
        obtain rfl := Except.ok.inj hrun
        exact h.turn hf (refreshTask_same _ i) rfl hat.current nofun trivial
      · rw [if_neg hi] at hrun
        obtain rfl := Except.ok.inj hrun
        exact h.turn hf (.refl _) rfl hat.current nofun hfirst
  | switchTo next => exact h.switchTo hf hrun
  | cpuSwitchTo next => exact h.cpuSwitchTo hf hrun
  | enable =>
      obtain rfl := Except.ok.inj hrun
      refine h.leave hf hat.current hrest ?_ (fun hl => hl rfl)
      rw [inside_cons, hrest.inside]
      rfl

/-! ## `copy_process` -/

/-- Taking a page gives one that nobody uses. -/
theorem MachineInv.takePage (h : MachineInv m c live) {page : Option Nat}
    (hrun : kmalloc m.k.mm pageSize = .ok (page, mm)) :
    ∃ a c', page = some a ∧ TookPage m.k.mm live a mm c' := by
  rcases kmalloc_page h.use.mm with ⟨_, hno⟩ | ⟨a, mm', c', ht⟩
  · rw [hno] at hrun
    exact absurd hrun (by simp)
  · have he := Except.ok.inj (ht.run.symm.trans hrun)
    obtain ⟨rfl, rfl⟩ := Prod.mk.inj he
    exact ⟨a, c', rfl, ht⟩

/-- A page just taken is in hand, -/
theorem MachineInv.ownPage (h : MachineInv m c live) (ht : TookPage m.k.mm live a mm c') :
    OwnPage { m.k with mm := mm } (pageAt a :: live) a :=
  ⟨List.mem_cons_self, fun _ hp r => h.use.unused ht.fresh hp r⟩

/-- and so is whatever was. -/
theorem OwnPage.took {b : Nat} (h : OwnPage k live b) :
    OwnPage { k with mm := mm } (pageAt a :: live) b :=
  h.keep rfl (fun _ _ _ _ hb => hb) (fun _ he => List.mem_cons_of_mem _ he)

theorem OwnPage.onlySched (h : OwnPage k live a) (ho : OnlySched k k') : OwnPage k' live a :=
  h.keep ho.task (fun p _ r _ hb => (ho.pageOf p r).symm.trans hb) (fun _ he => he)

theorem CopyArgs.Ready.onlySched {args : CopyArgs} (h : args.Ready k live) (ho : OnlySched k k') :
    args.Ready k' live := h.imp_right (·.onlySched ho)

theorem Over.copy {args : CopyArgs} {pc pc' : CopyPc} (h : Over (.copyProcess args pc) rest)
    (hpc : pc' ≠ .disable) : Over (.copyProcess args pc') rest := by
  rcases h with ⟨_, hrest⟩ | hfork
  · exact Or.inl ⟨fun he => absurd he hpc, hrest⟩
  · exact Or.inr hfork

theorem Unborn.keep {pid : Int} (h : Unborn m pid) (htask : k'.task = m.k.task) : Unborn (m.goOn k' fs) pid := by
  obtain ⟨p, hp, hne, hframes⟩ := h
  refine ⟨p, ?_, hne, (Function.update_of_ne hne ..).trans hframes⟩
  show taskAt k' pid = .ok p
  unfold taskAt at hp ⊢
  rw [htask]
  exact hp

/-- The task's own pages do not depend on another's record. -/
theorem pageOf_updateTask_ne (g : Task → Task) (hq : q ≠ p) (r : Use) :
    pageOf (k.updateTask p g) q r = pageOf k q r :=
  pageOf_congr (k.updateTask_ne p q g hq) r

/-- A record that is in no slot is written. -/
theorem MachineInv.writeFresh (h : MachineInv m c live) (ha : OwnPage m.k live a) (g : Task → Task) :
    Local m.cpu m.k (m.k.updateTask (.page a) g) ∧ UseInv (m.k.updateTask (.page a) g) c live ∧
      (m.k.updateTask (.page a) g).tasks m.cpu = m.k.tasks m.cpu := by
  have hne : ∀ q, InTable m.k q → q ≠ .page a := fun q hq he => ha.2 q hq .task (he ▸ rfl)
  refine ⟨⟨rfl, fun q hq _ => ?_, ?_⟩, ?_, m.k.updateTask_ne _ _ g (hne _ h.cpu)⟩
  · rw [m.k.updateTask_ne _ _ g (hne q hq)]
  · rw [m.k.updateTask_ne _ _ g (hne _ h.use.init_inTable)]
  · exact h.use.setTask h.use.mm (fun q r b hq _ hb => h.use.live q hq r b hb)
      (fun hin => absurd rfl (hne _ hin))

theorem OwnPage.writeFresh {b : Nat} (h : OwnPage k live b) (ha : OwnPage k live a) (g : Task → Task) :
    OwnPage (k.updateTask (.page a) g) live b := by
  refine h.keep rfl (fun q hq r d hd => ?_) (fun _ he => he)
  have hne : q ≠ .page a := fun he => ha.2 q hq .task (he ▸ rfl)
  rw [pageOf_updateTask_ne g hne] at hd
  exact hd

/-- **The new task's page is filled in.** Nobody looks at it yet. -/
theorem MachineInv.fill {args : CopyArgs} (h : MachineInv m c live)
    (hf : m.frames m.cpu = .copyProcess args (.fill a) :: rest)
    (hrun : copyStep m args rest (.fill a) = .ok m') : MachineInv m' c live := by
  obtain ⟨hover, hat, hcount⟩ := h.where_at hf
  obtain ⟨ha, hstack⟩ := show OwnPage m.k live a ∧
    (args.NoStack ∨ args.stack ≠ a ∧ OwnPage m.k live args.stack) from hat.point
  obtain rfl := Except.ok.inj hrun
  let g : Task → Task := fun old =>
    copyTask m.k.cur args.cloneFlags args.fn args.arg args.stack (taskPtRegs a) old.pid
  let m₁ : Machine := { m with frames := Function.update m.frames (.page a) [.retFromFork] }
  have hne : ∀ q, InTable m.k q → q ≠ .page a := fun q hq he => ha.2 q hq .task (he ▸ rfl)
  have hframes : ∀ q, InTable m.k q → m₁.frames q = m.frames q :=
    fun q hq => Function.update_of_ne (hne q hq) ..
  have hat₁ : At m₁ live (.copyProcess args (.fill a)) := ⟨hat.current, hat.alive, hat.point⟩
  have h₁ : MachineInv m₁ c live := by
    refine ⟨h.use, h.initStack, h.cpu, fun q hq => ?_, fun q hq hqc => ?_, _, _, (hframes _ h.cpu).trans hf,
      hover, hat₁⟩
    · rw [hframes q hq]
      exact h.count q hq
    · rw [hframes q hq]
      exact h.parked q hq hqc
  have hself : (m.k.updateTask (.page a) g).tasks (.page a) = g (m.k.tasks (.page a)) := m.k.updateTask_self ..
  obtain ⟨hl, huse, hcpu⟩ := h.writeFresh ha g
  refine h₁.next hat₁ hl (congrArg Task.state hcpu) huse (hover.copy nofun)
    ((congrArg Task.preemptCount hcpu).trans hcount) hat.current (fun hl => hl) ⟨ha.writeFresh ha g, ?_,
      congrArg Task.preemptCount hself, fun b hb => ?_⟩
  · exact (Function.update_of_ne (hne _ h.cpu).symm ..).trans (Function.update_self ..)
  · obtain ⟨hkthread, hs0, rfl⟩ := copyTask_userStack ((congrArg Task.userStack hself).symm.trans hb)
    rcases hstack with hno | ⟨hsa, hown⟩
    · exact absurd hno (not_or.mpr ⟨fun hk => hk hkthread, hs0⟩)
    · exact ⟨hsa, hown.writeFresh ha g⟩

/-- The task on page `a` gets the slot `i`. -/
theorem copyStep_assign {args : CopyArgs} (hrun : copyStep m args rest (.assign a) = .ok m') :
    ∃ i, firstFree m.k.task = some i ∧
      m' = m.goOn (addTask m.k m.k.mm i a { m.k.tasks (.page a) with pid := i })
        (.copyProcess args (.enable i) :: rest) := by
  simp only [copyStep, assignPID] at hrun
  cases hfree : firstFree m.k.task with
  | none =>
      have hout : ¬ ((0 : Int) ≤ -1 ∧ (-1 : Int) < taskSlots) := by omega
      simp only [hfree, setTask, if_neg hout, error_bind] at hrun
      exact absurd hrun (by simp)
  | some i =>
      have hi := (firstFree_some hfree).1
      have hrange : (0 : Int) ≤ (i : Int) ∧ (i : Int) < taskSlots := by omega
      simp only [hfree, setTask, if_pos hrange, ok_bind] at hrun
      exact ⟨i, rfl, (Except.ok.inj hrun).symm⟩

/-- **The new task gets its slot**, with the count `copy_process` gave it. -/
theorem MachineInv.assign {args : CopyArgs} (h : MachineInv m c live)
    (hf : m.frames m.cpu = .copyProcess args (.assign a) :: rest)
    (hrun : copyStep m args rest (.assign a) = .ok m') : MachineInv m' c live := by
  obtain ⟨hover, hat, hcount⟩ := h.where_at hf
  obtain ⟨ha, hnew, hone, hstack⟩ := show OwnPage m.k live a ∧ m.frames (.page a) = [.retFromFork] ∧
    (m.k.tasks (.page a)).preemptCount = 1 ∧
    ∀ b, (m.k.tasks (.page a)).userStack = some b → b ≠ a ∧ OwnPage m.k live b from hat.point
  obtain ⟨i, hfree, rfl⟩ := copyStep_assign hrun
  obtain ⟨hi, hnone⟩ := firstFree_some hfree
  let t : Task := { m.k.tasks (.page a) with pid := i }
  let k₁ : Kernel := addTask m.k m.k.mm i a t
  have hne : ∀ q, InTable m.k q → q ≠ .page a := fun q hq he => ha.2 q hq .task (he ▸ rfl)
  have hin : ∀ q, InTable k₁ q ↔ q = .page a ∨ InTable m.k q := fun q => addTask_inTable hi hnone
  have hold : ∀ q, InTable m.k q → k₁.tasks q = m.k.tasks q := fun q hq => addTask_ne (hne q hq)
  have huse : UseInv k₁ c live :=
    h.use.addTask hi hnone h.use.mm (fun _ he => he) ha.1 ha.2 (fun b hb => hstack b hb)
  have hcpu : TaskPtr.page a ≠ m.cpu := (hne _ h.cpu).symm
  have hframes : Function.update m.frames m.cpu (.copyProcess args (.enable i) :: rest) (.page a)
      = [.retFromFork] := (Function.update_of_ne hcpu ..).trans hnew
  refine ⟨huse, ?_, (hin _).mpr (Or.inr h.cpu), fun q hq => ?_, fun q hq hqc => ?_, _, _,
    Function.update_self .., hover.copy nofun, hat.current, fun hz => ?_, ?_⟩
  · show (k₁.tasks .initTask).stack = 0
    rw [hold _ h.use.init_inTable]
    exact h.initStack
  · show (k₁.tasks q).preemptCount = inside (Function.update m.frames m.cpu _ q)
    rcases (hin q).mp hq with rfl | hq
    · rw [hframes, show k₁.tasks (.page a) = t from addTask_self]
      exact hone
    · rw [hold q hq]
      by_cases hqc : q = m.cpu
      · rw [hqc, Function.update_self]
        exact hcount
      · rw [Function.update_of_ne hqc]
        exact h.count q hq
  · have hqc' : q ≠ m.cpu := hqc
    show Parked (Function.update m.frames m.cpu _ q)
    rcases (hin q).mp hq with rfl | hq
    · rw [hframes]
      exact Or.inl rfl
    · rw [Function.update_of_ne hqc']
      exact h.parked q hq hqc'
  · have hz' : (k₁.tasks m.cpu).state = .zombie := hz
    rw [hold _ h.cpu] at hz'
    exact hat.alive hz'
  · refine ⟨.page a, ?_, hcpu, hframes⟩
    have hrange : (0 : Int) ≤ (i : Int) ∧ (i : Int) < taskSlots := by omega
    have hslot : k₁.task i = some (.page a) := addTask_task_self
    show taskAt k₁ i = .ok (.page a)
    simp only [taskAt, if_pos hrange, Int.toNat_natCast, hslot]

/-- `copy_process` keeps the invariant; it takes a page on the way. -/
theorem copyStep_inv {args : CopyArgs} {pc : CopyPc} (h : MachineInv m c live)
    (hf : m.frames m.cpu = .copyProcess args pc :: rest) (hrun : copyStep m args rest pc = .ok m') :
    MachineOk m' := by
  obtain ⟨hover, hat, hcount⟩ := h.where_at hf
  cases pc with
  | disable =>
      obtain rfl := Except.ok.inj hrun
      have hready : args.Ready m.k live := hat.point
      have ho := (preemptDisable_spec m.k).2.1
      exact ⟨c, live, h.enter hf hat.current (hover.copy nofun) rfl rfl
        (fun hl => hl) (hready.onlySched ho)⟩
  | kmalloc =>
      obtain ⟨⟨page, mm⟩, hk, hrun⟩ := bind_eq_ok hrun
      obtain ⟨a, c', rfl, ht⟩ := h.takePage hk
      obtain rfl := Except.ok.inj hrun
      have hready : args.Ready m.k live := hat.point
      have hstack : args.NoStack ∨ args.stack ≠ a ∧ OwnPage { m.k with mm := mm } (pageAt a :: live) args.stack := by
        refine hready.imp_right (fun hown => ⟨fun he => ht.fresh ?_, hown.took⟩)
        rw [← he]
        exact hown.1
      have huse := h.use.grow ht.inv (fun _ he => List.mem_cons_of_mem _ he)
      exact ⟨c', _, h.next hat ⟨rfl, fun _ _ _ => rfl, rfl⟩ rfl huse
        (hover.copy nofun) hcount hat.current (fun hl => hl) ⟨h.ownPage ht, hstack⟩⟩
  | fill page => exact ⟨c, live, h.fill hf hrun⟩
  | assign page => exact ⟨c, live, h.assign hf hrun⟩
  | enable pid =>
      obtain rfl := Except.ok.inj hrun
      have hchild : Unborn m pid := hat.point
      refine ⟨c, live, ?_⟩
      rcases hover with ⟨_, hrest⟩ | ⟨r, rfl, hr⟩
      · rw [hrest.returnPid]
        refine h.leave hf hat.current hrest ?_ (fun hl => hl)
        rw [inside_cons, hrest.inside]
        rfl
      · obtain ⟨hl, ho, hc⟩ := preemptEnable_spec m.k
        rw [show m.k.current = m.cpu from hat.current] at hl hc
        refine h.next hat hl (ho.state _) (h.use.onlySched ho) hr ?_ hat.current (fun hl => hl)
          (hchild.keep ho.task)
        -- the section left is `copy_process`'s, and `sys_fork` is in its own
        rw [hc, hcount, inside_cons, inside_cons, inside_cons, hr.inside]
        rfl

/-! ## `sys_fork` -/

theorem forkStep_inv {pc : ForkPc} (h : MachineInv m c live) (hf : m.frames m.cpu = .sysFork pc :: rest)
    (hrun : forkStep m rest pc = .ok m') : MachineOk m' := by
  obtain ⟨hover, hat, hcount⟩ := h.where_at hf
  cases pc with
  | disable =>
      obtain rfl := Except.ok.inj hrun
      exact ⟨c, live, h.enter hf hat.current hover rfl rfl (fun hl => hl) trivial⟩
  | kmalloc =>
      obtain ⟨⟨page, mm⟩, hk, hrun⟩ := bind_eq_ok hrun
      obtain ⟨s, c', rfl, ht⟩ := h.takePage hk
      obtain rfl := Except.ok.inj hrun
      have huse := h.use.grow ht.inv (fun _ he => List.mem_cons_of_mem _ he)
      exact ⟨c', _, h.next hat ⟨rfl, fun _ _ _ => rfl, rfl⟩ rfl huse (Or.inr ⟨rest, rfl, hover⟩)
        (hcount.trans (by simp [Frame.sections])) hat.current (fun hl => hl) (Or.inr (h.ownPage ht))⟩
  | call => exact hover.elim
  | copyStack pid =>
      obtain ⟨p, _, hrun⟩ := bind_eq_ok hrun
      obtain rfl := Except.ok.inj hrun
      have hchild : Unborn m pid := hat.point
      exact ⟨c, live, h.next hat ⟨rfl, fun _ _ _ => rfl, rfl⟩ rfl (h.use.writeMem _) hover hcount hat.current
        (fun hl => hl) (hchild.keep rfl)⟩
  | setSp pid =>
      obtain ⟨p, hp, hrun⟩ := bind_eq_ok hrun
      obtain rfl := Except.ok.inj hrun
      obtain ⟨q, hq, hne, _⟩ := show Unborn m pid from hat.point
      obtain rfl := Except.ok.inj (hp.symm.trans hq)
      let g : Task → Task := fun t => { t with ptRegs := { t.ptRegs with
        sp := toUnsignedLong (t.stack + toInt ((m.k.cur.ptRegs.sp : Int) - m.k.cur.stack)) } }
      have hcpu : (m.k.updateTask p g).tasks m.cpu = m.k.tasks m.cpu := m.k.updateTask_ne p _ g hne.symm
      exact ⟨c, live, h.next hat (.updateTask m.k p g (fun _ => rfl) rfl) (congrArg Task.state hcpu)
        (h.use.updateTask (f := g) rfl) hover ((congrArg Task.preemptCount hcpu).trans hcount) hat.current (fun hl => hl)
        trivial⟩
  | enable pid =>
      obtain rfl := Except.ok.inj hrun
      refine ⟨c, live, h.leave hf hat.current hover ?_ (fun hl => hl)⟩
      rw [inside_cons, CalmStack.inside hover]
      rfl

/-! ## `sys_exec` -/

/-- Bytes that a task's page has none of. -/
theorem ClearOfTasks.off {start size x : Nat} (h : ClearOfTasks k start size) (hp : InTable k p) (hx : Within start size x) :
    ¬ p.Page x := by
  obtain ⟨i, hi, hslot⟩ := hp
  have hapart := h i hi p hslot
  obtain ⟨h1, h2⟩ := hx
  intro hin
  cases p with
  | initTask => exact hin.elim
  | page b =>
      obtain ⟨h3, h4⟩ : Within (b + 0) pageSize x := hin
      have hb : size = 0 ∨ b + pageSize ≤ start ∨ start + size ≤ b := hapart
      omega

/-- Stores that keep off the tasks leave everybody where he is. -/
theorem Machine.overwrite_clear {written : List Nat} (hoff : ∀ p, InTable k p → ∀ a ∈ written, ¬ p.Page a)
    (hcpu : InTable k m.cpu) : m.overwrite k written = .ok { m with k := k } := by
  have hpage : ∀ (p : TaskPtr) x, p.Context x ∨ p.KernelStack x → p.Page x := fun p x hx =>
    TaskPtr.page_iff.mpr (Or.inl (hx.elim TaskPtr.context_below TaskPtr.kernelStack_below))
  have hcalm : ¬ ∃ a ∈ written, m.cpu.KernelStack a :=
    fun ⟨a, ha, hin⟩ => hoff m.cpu hcpu a ha (hpage _ _ (Or.inr hin))
  rw [Machine.overwrite, if_neg hcalm]
  refine congrArg (fun frames => Except.ok ({ m with k := k, frames := frames } : Machine)) (funext fun p => if_neg ?_)
  rintro ⟨_, hp, a, ha, hin⟩
  exact hoff p hp a ha (hpage _ _ hin)

/-- Whose own kernel stack was left alone goes on. -/
theorem Machine.overwrite_calm {written : List Nat} (hcalm : ∀ a ∈ written, ¬ m.cpu.KernelStack a) :
    ∃ m', m.overwrite k written = .ok m' ∧ m'.k = k :=
  ⟨_, if_neg fun ⟨a, ha, hin⟩ => hcalm a ha hin, rfl⟩

/-- Trap frames are nobody's business here either. -/
theorem Local.of_onlyFrames {cpu : TaskPtr} (h : OnlyFrames k k') : Local cpu k k' where
  task := h.task
  count := by
    intro q _ _
    rw [h.tasks q]
  initStack := by rw [h.tasks]

/-- The user stack of the task on the CPU is a live page, unless it is on its way out. -/
theorem MachineInv.stack_use (h : MachineInv m c live)
    (halive : (m.k.tasks m.cpu).state = .zombie → m.cpu = .initTask) (hs : (m.k.tasks m.cpu).stack ≠ 0) :
    pageOf m.k m.cpu .stack = some (m.k.tasks m.cpu).stack := by
  have hlive : (m.k.tasks m.cpu).state ≠ .zombie := by
    intro hz
    rw [halive hz] at hs
    exact hs h.initStack
  exact if_neg (not_or.mpr ⟨hlive, hs⟩)

/-- Live pages are below the top of memory, and above its bottom. -/
theorem MachineInv.page_range (h : MachineInv m c live) (ha : pageAt a ∈ live) :
    pageSize ≤ a ∧ a + pageSize < 2 ^ 64 := by
  obtain ⟨f, hf, rfl, _⟩ := h.use.mm.slab.pageAllocated ha
  unfold frameAddr lowMemory pageSize pageFrameNum at *
  omega

/-- As many pointers as fit a page are copied to no task's page. -/
theorem MachineInv.copies_off {f₀ : Frame} {argc x : Nat} (h : MachineInv m c live) (hat : At m live f₀)
    (hno : ¬ f₀.Leaving) (hcur : m.k.current = m.cpu) (ht : TookPage m.k.mm live a mm c') (hle : argc ≤ pageSize / 8)
    (hp : InTable m.k p) (hx : CopiedTo a argc x ∨ CopiedTo (execSp m.k.cur argc) argc x) : ¬ p.Page x := by
  have hstack : m.k.cur.stack = (m.k.tasks m.cpu).stack := by rw [Kernel.cur, hcur]
  rcases hx with hx | hx
  · exact h.use.off_taken ht hp (copied_page hle ht.lt hx)
  · by_cases hs : m.k.cur.stack = 0
    · -- no user stack: the copy is at the bottom of memory, where no page is
      have hlow := copied_stack hle (by rw [hs]; decide) hx
      rw [hs] at hlow
      obtain ⟨_, h2⟩ := hlow
      intro hin
      obtain ⟨b, rfl, hb, h3, _⟩ := h.use.page_live hp hin
      have := (h.page_range hb).1
      omega
    · have huse := h.stack_use (fun hz => (hat.alive hz).resolve_right hno) (hstack ▸ hs)
      have hrange := (h.page_range (h.use.live _ h.cpu .stack _ huse)).2
      have hin := copied_stack hle (hstack ▸ hrange) hx
      exact h.use.off_stack hp h.cpu huse (hstack ▸ hin)

/-- The program is moved. -/
theorem execStep_move {name argv : Nat} (h : MachineInv m c live)
    (hf : m.frames m.cpu = .sysExec name argv .move :: rest) (hkept : ExecPc.Kept m.k name argv .move)
    (hrun : execStep m name argv rest .move = .ok m') : MachineOk m' := by
  obtain ⟨hover, hat, hcount⟩ := h.where_at hf
  obtain ⟨⟨targetAddr, size, ram⟩, hload, hrun⟩ := bind_eq_ok hrun
  have hapart : ClearOfTasks m.k moveAddress size := hkept (targetAddr, size, ram) (by rw [hload]; rfl)
  obtain ⟨_, hw⟩ := execLoad_wrote hload
  have hoff : ∀ p, InTable m.k p → ∀ x, Within moveAddress size x → ¬ p.Page x :=
    fun p hp x hx => hapart.off hp hx
  have hclear : m.overwrite (m.k.stored ram) ram.written = .ok { m with k := m.k.stored ram } :=
    Machine.overwrite_clear (fun p hp x hx => hoff p hp x ((execLoad_written hload).mp hx)) h.cpu
  simp only [hclear, ok_bind] at hrun
  obtain rfl := Except.ok.inj hrun
  have ho : OnlyFrames m.k (m.k.stored ram) := (StoredTo.stored hw).onlyFrames
    (fun p hp x hx hb => hoff p hp x hx (TaskPtr.page_iff.mpr (Or.inl hb)))
  exact ⟨c, live, h.next hat (.of_onlyFrames ho) (by rw [ho.tasks]) (h.use.onlyFrames ho) hover
    (by rw [ho.tasks]; exact hcount) (ho.current.trans hat.current) (fun hl => hl) trivial⟩

/-- `argv[]` is passed on. -/
theorem execStep_args {name argv targetAddr : Nat} (h : MachineInv m c live)
    (hf : m.frames m.cpu = .sysExec name argv (.args targetAddr) :: rest)
    (hkept : ExecPc.Kept m.k name argv (.args targetAddr))
    (hrun : execStep m name argv rest (.args targetAddr) = .ok m') : MachineOk m' := by
  obtain ⟨hover, hat, hcount⟩ := h.where_at hf
  simp only [execStep] at hrun
  cases hargc : argcCount m.k.mem argv (2 ^ 31) with
  | none =>
      rw [hargc] at hrun
      exact absurd hrun (by simp)
  | some argc =>
      rw [hargc] at hrun
      obtain ⟨⟨page, mm⟩, hk, hrun⟩ := bind_eq_ok hrun
      obtain ⟨a, c', rfl, ht⟩ := h.takePage hk
      have hle : argc ≤ pageSize / 8 := hkept argc hargc
      let k₁ : Kernel := { m.k with mm := mm }
      have hcopies : ∀ p, InTable m.k p → ∀ x, CopiedTo a argc x ∨ CopiedTo (execSp m.k.cur argc) argc x →
          ¬ p.Page x := fun p hp x hx => h.copies_off hat (fun hl => hl) hat.current ht hle hp hx
      have hin : InTable m.k m.k.current := hat.current ▸ h.cpu
      have hsp : copiedSp k₁ argv argc a = execSp m.k.cur argc := copiedSp_eq (fun x hx hb =>
        hcopies _ hin x (Or.inl hx) (TaskPtr.page_iff.mpr (Or.inl hb)))
      have hoff : ∀ p, InTable m.k p → ∀ x ∈ (execArgs k₁ targetAddr argv argc a).2, ¬ p.Page x := by
        intro p hp x hx
        rw [execArgs_written, hsp] at hx
        exact hcopies p hp x hx
      have hst := execArgs_storedTo k₁ targetAddr argv argc a
      have ho : OnlyFrames k₁ (execArgs k₁ targetAddr argv argc a).1 := hst.onlyFrames
        (fun p hp x hx hb => hoff p hp x hx (TaskPtr.page_iff.mpr (Or.inl hb)))
      have hclear := Machine.overwrite_clear (m := m) (fun p hp => hoff p (ho.inTable.mp hp))
        (ho.inTable.mpr h.cpu)
      simp only [Option.getD_some] at hrun
      rw [hclear, ok_bind] at hrun
      obtain rfl := Except.ok.inj hrun
      have huse : UseInv k₁ c' (pageAt a :: live) := h.use.grow ht.inv (fun _ he => List.mem_cons_of_mem _ he)
      have hl : Local m.cpu k₁ (execArgs k₁ targetAddr argv argc a).1 := .of_onlyFrames ho
      exact ⟨c', _, h.next hat ⟨hl.task, hl.count, hl.initStack⟩ (by rw [ho.tasks]) (huse.onlyFrames ho) hover
        (by rw [ho.tasks]; exact hcount) (ho.current.trans hat.current) (fun hl => hl) trivial⟩

theorem execStep_inv {name argv : Nat} {pc : ExecPc} (h : MachineInv m c live)
    (hf : m.frames m.cpu = .sysExec name argv pc :: rest) (hkept : pc.Kept m.k name argv)
    (hrun : execStep m name argv rest pc = .ok m') : MachineOk m' := by
  cases pc with
  | disable =>
      obtain ⟨hover, hat, hcount⟩ := h.where_at hf
      obtain rfl := Except.ok.inj hrun
      exact ⟨c, live, h.enter hf hat.current hover rfl rfl (fun hl => hl) trivial⟩
  | move => exact execStep_move h hf hkept hrun
  | args targetAddr => exact execStep_args h hf hkept hrun
  | enable argc =>
      obtain ⟨hover, hat, hcount⟩ := h.where_at hf
      obtain rfl := Except.ok.inj hrun
      refine ⟨c, live, h.leave hf hat.current hover ?_ (fun hl => hl)⟩
      rw [inside_cons, CalmStack.inside hover]
      rfl

/-! ## `exit_process` -/

/-- A page that no task uses goes back. -/
theorem MachineInv.givePage (h : MachineInv m c live) (ha : OwnPage m.k live a) :
    ∃ mm c', GavePage m.k.mm live a mm c' ∧ UseInv { m.k with mm := mm } c' (live.erase (pageAt a)) := by
  obtain ⟨mm, c', hg⟩ := kfree_page h.use.mm ha.1
  refine ⟨mm, c', hg, hg.inv, h.use.slots, h.use.init, fun q hq r b hb => ?_, h.use.once⟩
  refine (List.mem_erase_of_ne fun he => ?_).mpr (h.use.live q hq r b hb)
  exact ha.2 q hq r (pageAt_injective he ▸ hb)

/-- The exiting task's stack is nobody's from then on. -/
theorem MachineInv.endTask (h : MachineInv m c live) (hcur : m.k.current = m.cpu)
    (halive : (m.k.tasks m.cpu).state = .zombie → m.cpu = .initTask) :
    let k' := m.k.updateTask m.k.current (fun t => { t with state := .zombie })
    UseInv k' c live ∧ ((k'.tasks m.cpu).stack ≠ 0 → OwnPage k' live (k'.tasks m.cpu).stack) := by
  intro k'
  rw [show k' = m.k.updateTask m.cpu (fun t => { t with state := .zombie }) by rw [← hcur]]
  let t : Task := { m.k.tasks m.cpu with state := .zombie }
  have hzombie : t.userStack = none := if_pos (Or.inl rfl)
  have huse : UseInv (m.k.updateTask m.cpu (fun t => { t with state := .zombie })) c live :=
    h.use.setTask h.use.mm (fun q r b hq _ hb => h.use.live q hq r b hb)
      (fun _ b hb => absurd (hzombie.symm.trans hb) (by simp))
  refine ⟨huse, ?_⟩
  rw [m.k.updateTask_self]
  intro hs
  have hs' : (m.k.tasks m.cpu).stack ≠ 0 := hs
  have hstack : pageOf m.k m.cpu .stack = some (m.k.tasks m.cpu).stack := h.stack_use halive hs'
  refine ⟨h.use.live _ h.cpu .stack _ hstack, fun q hq r hb => ?_⟩
  by_cases hqc : q = m.cpu ∧ r = .stack
  · obtain ⟨rfl, rfl⟩ := hqc
    rw [pageOf, m.k.updateTask_self] at hb
    exact absurd (hzombie.symm.trans hb) (by simp)
  · have hb' : pageOf m.k q r = some (m.k.tasks m.cpu).stack := by
      by_cases hq' : q = m.cpu
      · cases r with
        | task => exact hb
        | stack => exact absurd ⟨hq', rfl⟩ hqc
      · rw [pageOf_updateTask_ne _ hq'] at hb
        exact hb
    exact hqc (h.use.once q m.cpu hq h.cpu r .stack _ hb' hstack)

theorem exitStep_inv {pc : ExitPc} (h : MachineInv m c live) (hf : m.frames m.cpu = .exitProcess pc :: rest)
    (hrun : exitStep m rest pc = .ok m') : MachineOk m' := by
  obtain ⟨hover, hat, hcount⟩ := h.where_at hf
  have hcur : m.k.current = m.cpu := hat.current
  cases pc with
  | disable =>
      obtain rfl := Except.ok.inj hrun
      exact ⟨c, live, h.enter hf hcur hover rfl rfl (fun hl => hl.elim) trivial⟩
  | zombie =>
      obtain rfl := Except.ok.inj hrun
      obtain ⟨huse, hown⟩ := h.endTask hcur (fun hz => (hat.alive hz).resolve_right (fun hl => hl))
      have hc : ((m.k.updateTask m.k.current (fun t => { t with state := .zombie })).tasks m.cpu).preemptCount
          = (m.k.tasks m.cpu).preemptCount := by
        rw [hcur, m.k.updateTask_self]
      exact ⟨c, live, h.goOn (.updateTask m.k _ _ (fun _ => rfl) rfl) huse hover (hc.trans hcount)
        ⟨hcur, fun _ => Or.inr trivial, hown⟩⟩
  | kfree =>
      have hown : (m.k.tasks m.cpu).stack ≠ 0 → OwnPage m.k live (m.k.tasks m.cpu).stack := hat.point
      have hstack : m.k.cur.stack = (m.k.tasks m.cpu).stack := by rw [Kernel.cur, hcur]
      simp only [exitStep, hstack] at hrun
      by_cases hs : (m.k.tasks m.cpu).stack ≠ 0
      · rw [if_pos hs] at hrun
        obtain ⟨mm, c', hg, huse⟩ := h.givePage (hown hs)
        rw [hg.run, ok_bind] at hrun
        obtain rfl := Except.ok.inj hrun
        exact ⟨c', _, h.next hat ⟨rfl, fun _ _ _ => rfl, rfl⟩ rfl huse hover hcount hcur (fun hl => hl) trivial⟩
      · rw [if_neg hs] at hrun
        obtain rfl := Except.ok.inj hrun
        exact ⟨c, live, h.next hat (.refl _ _) rfl h.use hover hcount hcur (fun hl => hl) trivial⟩
  | enable =>
      obtain rfl := Except.ok.inj hrun
      obtain ⟨hl, ho, hc⟩ := preemptEnable_spec m.k
      rw [hcur] at hl hc
      refine ⟨c, live, h.next hat hl (ho.state _) (h.use.onlySched ho) hover ?_ hcur (fun hl => hl) trivial⟩
      rw [hc, hcount, inside_cons, inside_cons]
      simp [Frame.sections]

/-! ## Any step -/

/-- Where a function is does not depend on counters. -/
theorem Point.counters (h : Point m live f) (hs : SameButCounters m.k k') : Point { m with k := k' } live f := by
  have ho : OnlySched m.k k' := .of_sameButCounters hs
  have helig : ∀ q, Eligible m.k q → Eligible k' q := fun q he => he.imp_left ((ho.state q).trans)
  have hchoice : ∀ next, Choice m.k next → Choice k' next := by
    intro next ⟨q, hq, he⟩
    refine ⟨q, ?_, helig q he⟩
    rw [hs.task]
    exact hq
  have hborn : ∀ pid, Unborn m pid → Unborn { m with k := k' } pid := by
    intro pid ⟨q, hq, hrest⟩
    refine ⟨q, ?_, hrest⟩
    show taskAt k' pid = .ok q
    unfold taskAt at hq ⊢
    rw [hs.task]
    exact hq
  unfold Point at h ⊢
  split at h
  · exact hchoice _ h
  · exact hchoice _ h
  · exact ⟨hs.inTable.mpr h.1, h.2.1, helig _ h.2.2⟩
  · exact h.onlySched ho
  · exact h.onlySched ho
  · exact ⟨h.1.onlySched ho, h.2.imp_right (fun hr => ⟨hr.1, hr.2.onlySched ho⟩)⟩
  · obtain ⟨h1, h2, h3, h4⟩ := h
    refine ⟨h1.onlySched ho, h2, ?_, fun b hb => ?_⟩
    · show (k'.tasks _).preemptCount = 1
      rw [hs.tasks]
      exact h3
    · have hb' : (k'.tasks _).userStack = some b := hb
      rw [hs.tasks] at hb'
      obtain ⟨h5, h6⟩ := h4 b hb'
      exact ⟨h5, h6.onlySched ho⟩
  · exact hborn _ h
  · exact hborn _ h
  · exact hborn _ h
  · show (k'.tasks m.cpu).stack ≠ 0 → OwnPage k' live (k'.tasks m.cpu).stack
    rw [hs.tasks]
    exact fun h0 => (h h0).onlySched ho
  · trivial

/-- Nor does anything else. -/
theorem MachineInv.counters (h : MachineInv m c live) (hs : SameButCounters m.k k') :
    MachineInv { m with k := k' } c live := by
  obtain ⟨f, rest, hf, hover, hat⟩ := h.running
  refine ⟨h.use.onlySched (.of_sameButCounters hs), ?_, hs.inTable.mpr h.cpu, fun p hp => ?_,
    fun p hp hpc => h.parked p (hs.inTable.mp hp) hpc, f, rest, hf, hover, hs.current.trans hat.current, ?_,
    hat.point.counters hs⟩
  · show (k'.tasks .initTask).stack = 0
    rw [hs.tasks]
    exact h.initStack
  · show (k'.tasks p).preemptCount = _
    rw [hs.tasks]
    exact h.count p (hs.inTable.mp hp)
  · show (k'.tasks m.cpu).state = .zombie → _
    rw [hs.tasks]
    exact hat.alive

theorem advance_inv (h : MachineInv m c live) (hkept : ∀ f ∈ (m.frames m.cpu).head?, f.Kept m.k)
    (hrun : advance m = .ok m') : MachineOk m' := by
  obtain ⟨f, rest, hf, hover, hat⟩ := h.running
  obtain ⟨_, _, hcount⟩ := h.where_at hf
  simp only [advance, hf] at hrun
  cases f with
  | task =>
      obtain rfl := Except.ok.inj hrun
      exact ⟨c, live, h⟩
  | retFromFork =>
      obtain rfl := Except.ok.inj hrun
      obtain rfl : rest = [] := hover
      exact ⟨c, live, h.leave hf hat.current .task rfl (fun hl => hl)⟩
  | irqExit =>
      obtain rfl := Except.ok.inj hrun
      refine ⟨c, live, h.back (.refl _ _) h.use hover ?_ hat.current
        (fun hz => (hat.alive hz).resolve_right (fun hl => hl))⟩
      rw [hcount, inside_cons, CalmStack.inside hover]
      rfl
  | schedule =>
      obtain rfl := Except.ok.inj hrun
      have hs := SameButCounters.setCounter m.k m.k.current (fun _ => 0)
      refine ⟨c, live, h.next hat (.of_sameButCounters hs) (by rw [hs.tasks])
        (h.use.onlySched (.of_sameButCounters hs)) hover ?_ hat.current nofun trivial⟩
      rw [hs.tasks]
      exact hcount
  | scheduleInner pc => exact ⟨c, live, scheduleStep_inv h hf hrun⟩
  | copyProcess args pc => exact copyStep_inv h hf hrun
  | sysFork pc => exact forkStep_inv h hf hrun
  | sysExec name argv pc => exact execStep_inv h hf (hkept (.sysExec name argv pc) (by rw [hf]; rfl)) hrun
  | exitProcess pc => exact exitStep_inv h hf hrun

/-- Programs write to memory of theirs. -/
theorem MachineInv.writeMem (h : MachineInv m c live) (mem : Nat → UInt8) :
    MachineInv { m with k := { m.k with mem } } c live := by
  obtain ⟨f, rest, hf, hover, hat⟩ := h.running
  exact ⟨h.use.writeMem mem, h.initStack, h.cpu, h.count, h.parked, f, rest, hf, hover, hat.current, hat.alive, hat.point⟩

theorem call_inv {call : Call} (h : MachineInv m c live) (htask : m.atTask = true) (hl : call.Lawful) :
    MachineInv (m.goOn m.k (call.entry :: m.frames m.cpu)) c live := by
  obtain ⟨f, rest, hf, hover, hat⟩ := h.running
  obtain ⟨_, _, hcount⟩ := h.where_at hf
  have hhead : (m.frames m.cpu).head? = some .task := of_decide_eq_true htask
  rw [hf] at hhead
  obtain rfl : f = .task := Option.some.inj hhead
  obtain rfl : rest = [] := hover
  rw [hf]
  -- every call begins before its `preempt_disable`
  cases call with
  | copyProcess args =>
      exact h.next hat (.refl _ _) rfl h.use (Or.inl ⟨fun _ => hl, .task⟩) hcount hat.current (fun hl => hl.elim)
        (Or.inl hl)
  | schedule => exact h.next hat (.refl _ _) rfl h.use .task hcount hat.current (fun hl => hl.elim) trivial
  | sysFork => exact h.next hat (.refl _ _) rfl h.use .task hcount hat.current (fun hl => hl.elim) trivial
  | sysExec name argv => exact h.next hat (.refl _ _) rfl h.use .task hcount hat.current (fun hl => hl.elim) trivial
  | exitProcess => exact h.next hat (.refl _ _) rfl h.use .task hcount hat.current (fun hl => hl.elim) trivial

end OsdiKernel
