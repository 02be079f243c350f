import OsdiKernel.Trap.Housed

/-!
# The whole kernel

The kernel's words and the core together. A move is what the core does by itself
(whatever runs goes on, an exception comes, the way back is taken) or a call in
the kernel, carried out on memory and down to the registers: a call that comes to
`cpu_switch_to` parks one thread and takes up another, `fork` lays out a thread
that nobody has run yet.

`Follows` says that the kernel of records is what is in memory and that every
task in it has its thread. Calls are not interrupted here, as in `taskSystem`; what
becomes of those that are is in `Sched.Machine`.
-/

namespace OsdiKernel

open A64 Cpu

/-- The kernel, and the core that runs it. -/
structure Whole where
  raw : RawKernel
  cpu : Cpu (Nat → UInt8)

/-- What happens next. -/
inductive Move where
  | core (e : CpuEvent (Nat → UInt8))
  | kernel (op : KernelOp)

namespace Whole

/-- The current thread goes on with memory as the kernel left it. -/
def writes (w : Whole) (r : RawKernel) : Whole := ⟨r, w.cpu.step (.work w.cpu.core.regs r.mem)⟩

/-- `cpu_switch_to(prev, next)`, if they are two, and the `preempt_enable` of the one that goes on. -/
def switchTo (im : Linked) (w : Whole) (r : RawKernel) : Whole :=
  let prev := im.addr w.raw.current
  let next := im.addr r.current
  let args := (w.cpu.core.regs.set 0 (BitVec.ofNat 64 prev)).set 1 (BitVec.ofNat 64 next)
  let cpu := w.cpu.step (.work args r.mem)
  let cpu := if prev = next then cpu else cpu.step (.switch next)
  writes ⟨r, cpu⟩ (scheduleTailMem im { r with mem := cpu.core.mem })

/-- The task in slot `pid` is new, and so is its thread. -/
def adds (w : Whole) (r : RawKernel) (pid : Int) : Whole :=
  match r.task pid.toNat with
  | some (.page a) => ⟨r, w.cpu.step (.create a (newThread r.mem a) r.mem)⟩
  | _ => w.writes r

/-- The task that was in slot `pid`, if it no longer is, and its thread. -/
def drops (im : Linked) (w : Whole) (r : RawKernel) (pid : Int) : Whole :=
  match w.raw.task pid.toNat, r.task pid.toNat with
  | some p, none => ⟨r, (w.writes r).cpu.step (.remove (im.addr p))⟩
  | _, _ => w.writes r

end Whole

/-- A call, or a tick, with the registers that matter to it. -/
def execKernel (im : Linked) (w : Whole) : KernelOp → Except Fault Whole
  | .timerInterrupt => do
      let (switched, r) ← taskPreemptionMem im (timerTickMem im w.raw)
      .ok (if switched then w.switchTo im r else w.writes r)
  | .call .schedule => do
      let r ← scheduleMem im w.raw
      .ok (w.switchTo im r)
  | .call .exitProcess => do
      let r ← exitProcessMem im w.raw
      .ok (w.switchTo im r)
  | .call (.sysKill pid) => do
      let r ← sysKillMem im w.raw pid
      .ok (w.drops im r pid)
  | .call (.sysMalloc bytes) => do
      let (_, r) ← sysMallocMem w.raw bytes
      .ok (w.writes r)
  | .call (.copyProcess cloneFlags fn arg) => do
      let (pid, r) ← copyProcessMem im w.raw cloneFlags fn arg 0
      .ok (w.adds r pid)
  | .call .sysFork => do
      let (pid, r) ← sysForkMem im w.raw
      .ok (w.adds r pid)
  | .call (.moveToUserMode pc) => do
      let (_, r) ← moveToUserModeMem im w.raw pc
      -- the frame that is written to is the one it will leave with
      .ok ⟨r, w.cpu.step (.amend 0 (ctxAt r.mem (taskPtRegs (im.addr r.current))) r.mem)⟩

/-- The current task is in a call from user mode, or in the function of a kernel thread: there is the one frame. -/
def InCall (w : Whole) (c : Ctx) : Prop := w.cpu.Deep w.cpu.current 0 [⟨0, taskPtRegs w.cpu.current, c⟩]

/-- As in `taskSystem`. `fork` is called by a program on its own stack. -/
def legalKernel (im : Linked) (w : Whole) : KernelOp → Prop
  | .timerInterrupt => True
  | .call .schedule => True
  | .call .exitProcess => w.raw.current ≠ .initTask
  | .call (.sysKill pid) => 0 ≤ pid ∧ pid < taskSlots ∧ w.raw.task pid.toNat ≠ none
  | .call (.sysMalloc bytes) => kmallocCan w.raw.mm bytes = true
  | .call (.copyProcess cloneFlags _ _) =>
      cloneFlags &&& pfKthread ≠ 0 ∧ cloneFlags < 2 ^ 64 ∧ (∃ i, i < taskSlots ∧ w.raw.task i = none) ∧
        (freeFrames w.raw.mm).Nonempty
  | .call .sysFork =>
      (∃ i, i < taskSlots ∧ w.raw.task i = none) ∧ (freeFrames w.raw.mm).Nontrivial ∧
        let stack := word w.raw.mem (im.addr w.raw.current) stackWord
        stack ≠ 0 ∧ ∃ c, InCall w c ∧ stack ≤ c.spEl0.toNat ∧ c.spEl0.toNat ≤ stack + pageSize
  | .call (.moveToUserMode _) => (freeFrames w.raw.mm).Nonempty ∧ ∃ c, InCall w c

/-- The kernel on its core, in an image. -/
def wholeSystem (im : Linked) : System Whole Move Fault where
  legal := fun w mv =>
    match mv with
    | .core e => w.cpu.Legal e ∧ CoreEvent im w.raw e
    | .kernel op => legalKernel im w op
  exec := fun w mv =>
    match mv with
    | .core e => .ok ⟨{ w.raw with mem := (w.cpu.step e).core.mem }, w.cpu.step e⟩
    | .kernel op => execKernel im w op

/-- The records are what is in memory, and every task has its thread. -/
structure Follows (im : Linked) (w : Whole) (k : Kernel) : Prop where
  records : Represents im w.raw k
  housed : Housed im w.raw w.cpu

variable {im : Linked} {w : Whole} {r : RawKernel} {m m' : Cpu (Nat → UInt8)} {k k' : Kernel} {lk : Link → List Nat}
  {live : List Live} {mem : Nat → UInt8} {v : TaskPtr} {i : Nat} {regs : Regs}

/-! ## Writes and switches -/

theorem Cpu.Run.snoc {es : List (CpuEvent (Nat → UInt8))} {e : CpuEvent (Nat → UInt8)} (h : Run m es m') (hl : m'.Legal e) :
    Run m (es ++ [e]) (m'.step e) := by
  induction h with
  | nil m => exact .cons hl (.nil _)
  | cons hl' _ ih => exact .cons hl' (ih hl)

/-- The kernel's own writes, with the stack pointer where it was. -/
theorem Housed.writes (h : Housed im r m) (hp : TablePages im r.task) (hinv : CpuInv m) (ho : OnlyTasks im r.task r.mem mem)
    (hsp : regs.sp = m.core.regs.sp) :
    m.Legal (.work regs mem) ∧ Housed im { r with mem } (m.step (.work regs mem)) := by
  obtain ⟨t, ht, hon⟩ := hinv.running
  exact ⟨⟨h.spares hinv hp ho, t, ht, by rw [hsp]; exact hon⟩, h.congr rfl h.current rfl (.refl m)⟩

/-- **`cpu_switch_to`** stores a context, and no task sees it. -/
theorem Housed.switch (h : Housed im r m) (hp : TablePages im r.task) (hinv : CpuInv m) (hi : i < taskSlots)
    (hv : r.task i = some v) (hne : im.addr v ≠ m.current) (h0 : (m.core.regs.x 0).toNat = m.current)
    (h1 : (m.core.regs.x 1).toNat = im.addr v) :
    m.Legal (.switch (im.addr v)) ∧
      Housed im { r with current := v, mem := (m.step (.switch (im.addr v))).core.mem } (m.step (.switch (im.addr v))) ∧
      KeepsWords im r.task r.mem (m.step (.switch (im.addr v))).core.mem := by
  obtain ⟨u, hu⟩ := h.thread i v hi hv
  obtain ⟨t, ht, _⟩ := hinv.running
  obtain ⟨hmem, _⟩ := hinv.switched ht hu hne h0 h1
  have hsame : SameStacks m (m.step (.switch (im.addr v))) :=
    sameStacks_current (f := fun t => parked t m.core.regs) (fun _ => ⟨rfl, rfl⟩) rfl
  have hat : ∀ m' : Cpu (Nat → UInt8), m'.current = im.addr v → SameStacks m m' →
      Housed im { r with current := v, mem := m'.core.mem } m' := fun _ hcur hs => h.congr rfl hcur rfl hs
  refine ⟨⟨hne, ⟨u, hu⟩, h0, h1⟩, hat _ rfl hsame, ?_⟩
  show KeepsWords im r.task r.mem (callSwitch m.core).mem
  rw [hmem, h.mem]
  exact h.keeps_context hp ht (by rw [contextWords_length]; exact Nat.le_refl _)

/-- The registers a call of `cpu_switch_to` begins with. -/
theorem switchArgs {c : Regs} {prev next : Nat} (hp : prev < 2 ^ 64) (hn : next < 2 ^ 64) :
    let args := (c.set 0 (BitVec.ofNat 64 prev)).set 1 (BitVec.ofNat 64 next)
    args.sp = c.sp ∧ (args.x 0).toNat = prev ∧ (args.x 1).toNat = next := by
  refine ⟨rfl, ?_, ?_⟩
  · rw [Regs.set_ne (by decide), Regs.set_self, BitVec.toNat_ofNat, Nat.mod_eq_of_lt hp]
  · rw [Regs.set_self, BitVec.toNat_ofNat, Nat.mod_eq_of_lt hn]

theorem Follows.tablePages (h : Follows im w k) (ht : UseInv k lk live) : TablePages im w.raw.task := by
  rw [h.records.task]
  exact ht.tablePages im

/-- **A call that gives up the core**: what the next one finds is what it left, and the section it is in ends. -/
theorem Follows.switchTo (h : Follows im w k) (ht : UseInv k lk live) (hinv : CpuInv w.cpu)
    (hrec : Represents im r (preemptDisable k')) (htask : k'.task = k.task) (hcur : InTable k' k'.current)
    (ho : OnlyTasks im k.task w.raw.mem r.mem) :
    Follows im (w.switchTo im r) k' ∧ ∃ es, Run w.cpu es (w.switchTo im r).cpu := by
  have hh := h.housed
  have hp := h.tablePages ht
  rw [← h.records.task] at htask ho
  have hrtask : r.task = w.raw.task := hrec.task.trans htask
  have hrcur : r.current = k'.current := hrec.current
  obtain ⟨i, hi, hti⟩ := id hcur
  rw [htask, ← hrcur] at hti
  have hprev : im.addr w.raw.current = w.cpu.current := hh.current.symm
  obtain ⟨u, hu⟩ := hh.thread i _ hi hti
  have h64 : im.addr r.current < 2 ^ 64 := by
    have hplaced := (hinv.placed _ _ hu).context
    omega
  obtain ⟨t, ht, _⟩ := hinv.running
  have h64' : w.cpu.current < 2 ^ 64 := by
    have hplaced := (hinv.placed _ _ ht).context
    omega
  -- down to `cpu_switch_to`
  set args := (w.cpu.core.regs.set 0 (BitVec.ofNat 64 (im.addr w.raw.current))).set 1 (BitVec.ofNat 64 (im.addr r.current))
  obtain ⟨hsp, h0, h1⟩ := switchArgs (c := w.cpu.core.regs) (hprev ▸ h64') h64
  obtain ⟨hlegal₁, hh₁⟩ := hh.writes hp hinv ho hsp
  set m₁ := w.cpu.step (.work args r.mem)
  have hinv₁ : CpuInv m₁ := hinv.step hlegal₁
  have hrun₁ : Run w.cpu [.work args r.mem] m₁ := .cons hlegal₁ (.nil _)
  -- whoever goes on
  have hswitch : ∃ m₂ es, (if im.addr w.raw.current = im.addr r.current then m₁ else m₁.step (.switch (im.addr r.current))) = m₂ ∧
      Run w.cpu es m₂ ∧ CpuInv m₂ ∧ Housed im { r with mem := m₂.core.mem } m₂ ∧ KeepsWords im r.task r.mem m₂.core.mem := by
    by_cases hsame : im.addr w.raw.current = im.addr r.current
    · rw [if_pos hsame]
      refine ⟨m₁, _, rfl, hrun₁, hinv₁, ?_, fun _ _ _ _ _ _ _ => rfl⟩
      exact hh₁.congr rfl (hh.current.trans hsame) hrtask (.refl m₁)
    · rw [if_neg hsame]
      obtain ⟨hlegal₂, hh₂, hkeeps₂⟩ := hh₁.switch hp hinv₁ hi hti (fun he => hsame (hprev.trans he.symm)) (h0.trans hprev) h1
      refine ⟨_, _, rfl, hrun₁.snoc hlegal₂, hinv₁.step hlegal₂, ?_, by rw [hrtask]; exact hkeeps₂⟩
      exact hh₂.congr hh₂.mem hh₂.current hrtask (.refl _)
  obtain ⟨m₂, es, hm₂, hrun₂, hinv₂, hh₂, hkeeps₂⟩ := hswitch
  have hrec₂ : Represents im { r with mem := m₂.core.mem } (preemptDisable k') :=
    hrec.keeps (by rw [hrec.task] at hkeeps₂; exact hkeeps₂)
  -- and the end of its section
  have hp₂ : TablePages im k'.task := by rw [htask]; exact hp
  have hrec₃ := hrec₂.tail hp₂.apart hcur
  have ho₃ : OnlyTasks im r.task m₂.core.mem (scheduleTailMem im { r with mem := m₂.core.mem }).mem :=
    onlyTasks_setWord hi (by rw [hrtask]; exact hti) (by decide) (by decide)
  obtain ⟨hlegal₃, hh₃⟩ := hh₂.writes (by rw [hrtask]; exact hp) hinv₂ ho₃ rfl
  have hout : w.switchTo im r
      = ⟨scheduleTailMem im { r with mem := m₂.core.mem },
        m₂.step (.work m₂.core.regs (scheduleTailMem im { r with mem := m₂.core.mem }).mem)⟩ := by
    rw [← hm₂]
    rfl
  rw [hout]
  exact ⟨⟨hrec₃, hh₃⟩, _, hrun₂.snoc hlegal₃⟩

/-- A call that gives up nothing. -/
theorem Follows.writes (h : Follows im w k) (ht : UseInv k lk live) (hinv : CpuInv w.cpu) (hrec : Represents im r k')
    (htask : r.task = w.raw.task) (hcur : r.current = w.raw.current) (ho : OnlyTasks im k.task w.raw.mem r.mem) :
    Follows im (w.writes r) k' ∧ ∃ es, Run w.cpu es (w.writes r).cpu := by
  have hh := h.housed
  rw [← h.records.task] at ho
  obtain ⟨hlegal, hh'⟩ := hh.writes (h.tablePages ht) hinv ho rfl
  refine ⟨⟨hrec, hh'.congr rfl ?_ htask (.refl _)⟩, _, .cons hlegal (.nil _)⟩
  show w.cpu.current = im.addr r.current
  rw [hcur]
  exact hh.current

end OsdiKernel
