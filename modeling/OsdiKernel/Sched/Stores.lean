import OsdiKernel.Lib.Words
import OsdiKernel.Sched.TaskInv

/-!
# Stores that reach a task

A `task_struct` lies at the bottom of its task's page and the trap frame at the
top, with the kernel stack between them. `Task` keeps the two ends as a record,
so a store through a pointer that has gone astray has to be carried over to the
record: `Kernel.stored` is the kernel after such stores. Where they keep off
every task's page it is the same kernel with other bytes.
-/

namespace OsdiKernel

/-! ## The layout -/

/-- `cpu_context.x19` -/
def x19Word : Nat := 0

/-- `cpu_context.x20` -/
def x20Word : Nat := 1

/-- `cpu_context.sp` -/
def contextSpWord : Nat := 11

/-- `cpu_context.pc` -/
def contextPcWord : Nat := 12

/-- `state` -/
def stateWord : Nat := 13

/-- `counter` -/
def counterWord : Nat := 14

/-- `priority` -/
def priorityWord : Nat := 15

/-- `preempt_count` -/
def preemptCountWord : Nat := 16

/-- `stack` -/
def stackWord : Nat := 17

/-- `flags` -/
def flagsWord : Nat := 18

/-- `pid` -/
def pidWord : Nat := 19

/-- The words of `struct cpu_context`. -/
def cpuContextWords : Nat := 13

/-- The words of `struct task_struct`: two more for `run_list`, which nothing uses. -/
def taskStructWords : Nat := 22

/-- The words of `struct pt_regs`: `regs[31]`, `sp`, `pc` and `pstate`. -/
def ptRegsWords : Nat := 34

/-- `sp` in `struct pt_regs`. -/
def spWord : Nat := 31

/-- `TASK_RUNNING`, `TASK_WAITING`, `TASK_ZOMBIE` -/
def TaskState.code : TaskState → Nat
  | .running => 0
  | .waiting => 1
  | .zombie => 2

/-- A number that is no state is neither running nor a zombie to the code, as a waiting task is. -/
def TaskState.ofCode : Nat → TaskState
  | 0 => .running
  | 2 => .zombie
  | _ => .waiting

/-- A word as a `long`. -/
def toLong (w : Nat) : Int := (w : Int).bmod (2 ^ 64)

/-! ## The stores -/

namespace Ram

/-- A byte of the word at `addr` has been stored to. -/
def Touches (r : Ram) (addr : Nat) : Prop := ∃ a ∈ r.written, Within addr 8 a

instance (r : Ram) (addr : Nat) : Decidable (r.Touches addr) := inferInstanceAs (Decidable (∃ a ∈ r.written, _))

/-- What the word at `addr` is that was `w`: the bytes that were stored to are new. -/
def wordAfter (r : Ram) (addr w : Nat) : Nat :=
  if r.Touches addr then load64 (fun a => if a ∈ r.written then r.mem a else store64 r.mem addr w a) addr else w

/-- The same for a `long`. -/
def longAfter (r : Ram) (addr : Nat) (c : Int) : Int :=
  if r.Touches addr then toLong (r.wordAfter addr (toUnsignedLong c)) else c

end Ram

/-- A number for it. The linker's, for a label, is not known here. -/
def CodeAddr.number : CodeAddr → Nat
  | .addr a => a
  | .retFromFork => 0

/-- The `cpu_context` at `p`, after stores. -/
def CpuContext.stored (c : CpuContext) (r : Ram) (p : Nat) : CpuContext where
  x19 := r.wordAfter p c.x19
  x20 := r.wordAfter (p + 8) c.x20
  x21 := r.wordAfter (p + 8 * 2) c.x21
  x22 := r.wordAfter (p + 8 * 3) c.x22
  x23 := r.wordAfter (p + 8 * 4) c.x23
  x24 := r.wordAfter (p + 8 * 5) c.x24
  x25 := r.wordAfter (p + 8 * 6) c.x25
  x26 := r.wordAfter (p + 8 * 7) c.x26
  x27 := r.wordAfter (p + 8 * 8) c.x27
  x28 := r.wordAfter (p + 8 * 9) c.x28
  fp := r.wordAfter (p + 8 * 10) c.fp
  sp := r.wordAfter (p + 8 * contextSpWord) c.sp
  pc :=
    if r.Touches (p + 8 * contextPcWord) then .addr (r.wordAfter (p + 8 * contextPcWord) c.pc.number)
    else c.pc

/-- The trap frame at `p`, after stores. -/
def PtRegs.stored (t : PtRegs) (r : Ram) (p : Nat) : PtRegs where
  regs := fun i => r.wordAfter (p + 8 * i) (t.regs i)
  sp := r.wordAfter (p + 8 * spWord) t.sp
  pc := r.wordAfter (p + 8 * 32) t.pc
  pstate := r.wordAfter (p + 8 * 33) t.pstate

/-- The task on `page`, after stores. -/
def Task.stored (t : Task) (r : Ram) (page : Nat) : Task where
  cpuContext := t.cpuContext.stored r page
  state := .ofCode (r.wordAfter (page + 8 * stateWord) t.state.code)
  counter := r.longAfter (page + 8 * counterWord) t.counter
  priority := r.longAfter (page + 8 * priorityWord) t.priority
  preemptCount := r.longAfter (page + 8 * preemptCountWord) t.preemptCount
  stack := r.wordAfter (page + 8 * stackWord) t.stack
  flags := r.wordAfter (page + 8 * flagsWord) t.flags
  pid := r.longAfter (page + 8 * pidWord) t.pid
  ptRegs := t.ptRegs.stored r (taskPtRegs page)

instance (k : Kernel) (p : TaskPtr) : Decidable (InTable k p) :=
  inferInstanceAs (Decidable (∃ i, i < taskSlots ∧ k.task i = some p))

/-- The kernel after stores. `init_task` is static, and not where they go. -/
def Kernel.stored (k : Kernel) (r : Ram) : Kernel :=
  { k with
    mem := r.mem
    tasks := fun p =>
      match p with
      | .initTask => k.tasks .initTask
      | .page a => if InTable k (.page a) then (k.tasks (.page a)).stored r a else k.tasks (.page a) }

/-- The bytes of a task's page from `offset` on. `init_task` has no page. -/
def TaskPtr.Part (p : TaskPtr) (offset size a : Nat) : Prop :=
  match p with
  | .initTask => False
  | .page b => Within (b + offset) size a

instance (p : TaskPtr) (offset size a : Nat) : Decidable (p.Part offset size a) :=
  match p with
  | .initTask => inferInstanceAs (Decidable False)
  | .page b => inferInstanceAs (Decidable (Within (b + offset) size a))

/-- The page of a task. -/
def TaskPtr.Page (p : TaskPtr) : Nat → Prop := p.Part 0 pageSize

/-- The trap frame of a task. -/
def TaskPtr.TrapFrame (p : TaskPtr) : Nat → Prop := p.Part (pageSize - 8 * ptRegsWords) (8 * ptRegsWords)

/-- The `task_struct` and the kernel stack of a task. -/
def TaskPtr.BelowFrame (p : TaskPtr) : Nat → Prop := p.Part 0 (pageSize - 8 * ptRegsWords)

/-- The kernel stack of a task. -/
def TaskPtr.KernelStack (p : TaskPtr) : Nat → Prop :=
  p.Part (8 * taskStructWords) (pageSize - 8 * ptRegsWords - 8 * taskStructWords)

/-- The registers a task is switched back to with. -/
def TaskPtr.Context (p : TaskPtr) : Nat → Prop := p.Part 0 (8 * cpuContextWords)

instance (p : TaskPtr) (a : Nat) : Decidable (p.KernelStack a) := inferInstanceAs (Decidable (p.Part _ _ a))

instance (p : TaskPtr) (a : Nat) : Decidable (p.Context a) := inferInstanceAs (Decidable (p.Part _ _ a))

variable {k k' : Kernel} {r : Ram} {c c' : Link → List Nat} {live : List Live} {mm mm' : Mm} {p q : TaskPtr}
  {a b w x addr size : Nat}

/-! ## Stores to somewhere else -/

theorem Ram.not_touches (h : ∀ x ∈ r.written, ¬ Within addr 8 x) : ¬ r.Touches addr :=
  fun ⟨x, hx, hin⟩ => h x hx hin

theorem Ram.wordAfter_same (h : ∀ x ∈ r.written, ¬ Within addr 8 x) : r.wordAfter addr w = w :=
  if_neg (Ram.not_touches h)

theorem Ram.longAfter_same {c : Int} (h : ∀ x ∈ r.written, ¬ Within addr 8 x) : r.longAfter addr c = c :=
  if_neg (Ram.not_touches h)

/-- All of the word was stored to. -/
theorem Ram.wordAfter_written (h : ∀ x, Within addr 8 x → x ∈ r.written) : r.wordAfter addr w = load64 r.mem addr := by
  have htouch : r.Touches addr := ⟨addr, h addr ⟨Nat.le_refl _, by omega⟩, Nat.le_refl _, by omega⟩
  rw [Ram.wordAfter, if_pos htouch]
  exact load64_congr (fun x hx => if_pos (h x hx))

theorem Ram.longAfter_written {c : Int} (h : ∀ x, Within addr 8 x → x ∈ r.written) :
    r.longAfter addr c = toLong (load64 r.mem addr) := by
  have htouch : r.Touches addr := ⟨addr, h addr ⟨Nat.le_refl _, by omega⟩, Nat.le_refl _, by omega⟩
  rw [Ram.longAfter, if_pos htouch, Ram.wordAfter_written h]

theorem TaskState.ofCode_code (s : TaskState) : TaskState.ofCode s.code = s := by cases s <;> rfl

theorem CpuContext.stored_same {c : CpuContext} (h : ∀ x ∈ r.written, ¬ Within a (8 * cpuContextWords) x) :
    c.stored r a = c := by
  have hword : ∀ i < cpuContextWords, ∀ x ∈ r.written, ¬ Within (a + 8 * i) 8 x := by
    intro i hi x hx hin
    obtain ⟨h1, h2⟩ := hin
    exact h x hx ⟨by omega, by omega⟩
  have h0 := Ram.wordAfter_same (w := c.x19) (hword 0 (by decide))
  have h1 := Ram.wordAfter_same (w := c.x20) (hword 1 (by decide))
  have h2 := fun w i hi => Ram.wordAfter_same (w := w) (hword i hi)
  have hpc := Ram.not_touches (hword contextPcWord (by decide))
  simp only [Nat.mul_zero, Nat.add_zero, Nat.mul_one] at h0 h1
  simp only [CpuContext.stored, h0, h1, h2 _ 2 (by decide), h2 _ 3 (by decide), h2 _ 4 (by decide), h2 _ 5 (by decide),
    h2 _ 6 (by decide), h2 _ 7 (by decide), h2 _ 8 (by decide), h2 _ 9 (by decide), h2 _ 10 (by decide),
    h2 _ contextSpWord (by decide), if_neg hpc]

theorem PtRegs.stored_same {t : PtRegs} (h : ∀ x ∈ r.written, ¬ Within a (8 * ptRegsWords) x) : t.stored r a = t := by
  have hword : ∀ w i, i < ptRegsWords → r.wordAfter (a + 8 * i) w = w := by
    refine fun w i hi => Ram.wordAfter_same (fun x hx hin => ?_)
    obtain ⟨h1, h2⟩ := hin
    exact h x hx ⟨by omega, by omega⟩
  have hregs : (fun i : Fin 31 => r.wordAfter (a + 8 * i) (t.regs i)) = t.regs :=
    funext fun i => hword _ _ (by unfold ptRegsWords; omega)
  simp only [PtRegs.stored, hregs, hword _ spWord (by decide), hword _ 32 (by decide), hword _ 33 (by decide)]

/-- Below the trap frame nothing was stored. -/
theorem Task.stored_frame {t : Task} (h : ∀ x ∈ r.written, ¬ (TaskPtr.page a).BelowFrame x) :
    t.stored r a = { t with ptRegs := t.ptRegs.stored r (taskPtRegs a) } := by
  have hword : ∀ i, i ≤ pidWord → ∀ x ∈ r.written, ¬ Within (a + 8 * i) 8 x := by
    intro i hi x hx hin
    obtain ⟨h1, h2⟩ := hin
    unfold pidWord at hi
    refine h x hx ⟨by omega, ?_⟩
    unfold pageSize ptRegsWords
    omega
  have hctx : t.cpuContext.stored r a = t.cpuContext := by
    refine CpuContext.stored_same (fun x hx hin => ?_)
    obtain ⟨h1, h2⟩ := hin
    refine h x hx ⟨by omega, ?_⟩
    unfold pageSize ptRegsWords
    unfold cpuContextWords at h2
    omega
  simp only [Task.stored, hctx, Ram.wordAfter_same (hword stateWord (by decide)),
    Ram.longAfter_same (hword counterWord (by decide)), Ram.longAfter_same (hword priorityWord (by decide)),
    Ram.longAfter_same (hword preemptCountWord (by decide)), Ram.wordAfter_same (hword stackWord (by decide)),
    Ram.wordAfter_same (hword flagsWord (by decide)), Ram.longAfter_same (hword pidWord (by decide)),
    TaskState.ofCode_code]

/-- A trap frame is the end of its page, and the rest is below it. -/
theorem TaskPtr.page_iff : p.Page a ↔ p.BelowFrame a ∨ p.TrapFrame a := by
  cases p with
  | initTask => exact (or_self_iff (a := False)).symm
  | page b =>
      show (b + 0 ≤ a ∧ a < b + 0 + 4096) ↔ (b + 0 ≤ a ∧ a < b + 0 + (4096 - 8 * 34)) ∨
        (b + (4096 - 8 * 34) ≤ a ∧ a < b + (4096 - 8 * 34) + 8 * 34)
      omega

theorem TaskPtr.kernelStack_below (h : p.KernelStack a) : p.BelowFrame a := by
  cases p with
  | initTask => exact h.elim
  | page b =>
      obtain ⟨h1, h2⟩ : b + 8 * 22 ≤ a ∧ a < b + 8 * 22 + (4096 - 8 * 34 - 8 * 22) := h
      exact ⟨show b + 0 ≤ a by omega, show a < b + 0 + (4096 - 8 * 34) by omega⟩

theorem TaskPtr.context_below (h : p.Context a) : p.BelowFrame a := by
  cases p with
  | initTask => exact h.elim
  | page b =>
      obtain ⟨h1, h2⟩ : b + 0 ≤ a ∧ a < b + 0 + 8 * 13 := h
      exact ⟨h1, show a < b + 0 + (4096 - 8 * 34) by omega⟩

theorem Task.stored_same {t : Task} (h : ∀ x ∈ r.written, ¬ (TaskPtr.page a).Page x) : t.stored r a = t := by
  rw [Task.stored_frame (fun x hx hb => h x hx (TaskPtr.page_iff.mpr (Or.inl hb))), PtRegs.stored_same]
  intro x hx hin
  obtain ⟨h1, h2⟩ := hin
  refine h x hx ⟨?_, ?_⟩
  · unfold taskPtRegs at h1
    omega
  · unfold taskPtRegs ptRegsWords at h2
    unfold pageSize
    omega

/-! ## The kernel after them -/

@[simp] theorem Kernel.stored_mm : (k.stored r).mm = k.mm := rfl
@[simp] theorem Kernel.stored_mem : (k.stored r).mem = r.mem := rfl
@[simp] theorem Kernel.stored_task : (k.stored r).task = k.task := rfl
@[simp] theorem Kernel.stored_current : (k.stored r).current = k.current := rfl
@[simp] theorem Kernel.stored_nrTasks : (k.stored r).nrTasks = k.nrTasks := rfl

/-- A task whose page they keep off is as it was. -/
theorem Kernel.stored_off (h : InTable k p → ∀ x ∈ r.written, ¬ p.Page x) : (k.stored r).tasks p = k.tasks p := by
  cases p with
  | initTask => rfl
  | page b =>
      show (if InTable k (.page b) then (k.tasks (.page b)).stored r b else k.tasks (.page b)) = _
      by_cases hb : InTable k (.page b)
      · rw [if_pos hb, Task.stored_same (h hb)]
      · rw [if_neg hb]

/-- Where they keep off all of them the kernel is, but for its bytes. -/
theorem Kernel.stored_clear (h : ∀ p, InTable k p → ∀ x ∈ r.written, ¬ p.Page x) :
    k.stored r = { k with mem := r.mem } := by
  have htasks : (k.stored r).tasks = k.tasks := funext fun p => Kernel.stored_off (h p)
  rw [← htasks]
  rfl

/-- A task whose trap frame alone they may reach is as it was, but for that. -/
theorem Kernel.stored_frame (h : InTable k p → ∀ x ∈ r.written, ¬ p.BelowFrame x) :
    ∃ regs, (k.stored r).tasks p = { k.tasks p with ptRegs := regs } := by
  cases p with
  | initTask => exact ⟨_, rfl⟩
  | page b =>
      show ∃ regs, (if InTable k (.page b) then (k.tasks (.page b)).stored r b else k.tasks (.page b)) = _
      by_cases hb : InTable k (.page b)
      · rw [if_pos hb, Task.stored_frame (h hb)]
        exact ⟨_, rfl⟩
      · rw [if_neg hb]
        exact ⟨_, rfl⟩

/-- Stores to `W`, and to the trap frame of the current task, led from `k` to `k'`. -/
structure StoredTo (k k' : Kernel) (W : Nat → Prop) : Prop where
  mm : k'.mm = k.mm
  task : k'.task = k.task
  current : k'.current = k.current
  nrTasks : k'.nrTasks = k.nrTasks
  mem : ∀ a, ¬ W a → k'.mem a = k.mem a
  off : ∀ p, p ≠ k.current → (InTable k p → ∀ a, W a → ¬ p.Page a) → k'.tasks p = k.tasks p
  frame : ∀ p, (InTable k p → ∀ a, W a → ¬ p.BelowFrame a) → ∃ regs, k'.tasks p = { k.tasks p with ptRegs := regs }

namespace StoredTo

variable {k'' : Kernel} {W V : Nat → Prop}

theorem stored (h : Wrote ⟨k.mem, []⟩ r W) : StoredTo k (k.stored r) W := by
  have hw : ∀ a, a ∈ r.written ↔ W a := fun a => (h.written a).trans (by simp)
  exact ⟨rfl, rfl, rfl, rfl, h.same, fun p _ hp => Kernel.stored_off fun hin x hx => hp hin x ((hw x).mp hx),
    fun p hp => Kernel.stored_frame fun hin x hx => hp hin x ((hw x).mp hx)⟩

theorem setFrame (k : Kernel) (f : PtRegs → PtRegs) :
    StoredTo k (k.updateTask k.current (fun t => { t with ptRegs := f t.ptRegs })) (fun _ => False) := by
  refine ⟨rfl, rfl, rfl, rfl, fun _ _ => rfl, fun p hp _ => k.updateTask_ne _ p _ hp, fun p _ => ?_⟩
  by_cases hp : p = k.current
  · rw [hp, k.updateTask_self]
    exact ⟨_, rfl⟩
  · rw [k.updateTask_ne _ p _ hp]
    exact ⟨_, rfl⟩

theorem inTable (h : StoredTo k k' W) : InTable k' q ↔ InTable k q := by
  unfold InTable
  rw [h.task]

theorem trans (h : StoredTo k k' W) (h' : StoredTo k' k'' V) : StoredTo k k'' (fun a => W a ∨ V a) where
  mm := h'.mm.trans h.mm
  task := h'.task.trans h.task
  current := h'.current.trans h.current
  nrTasks := h'.nrTasks.trans h.nrTasks
  mem := fun a ha => (h'.mem a fun hv => ha (Or.inr hv)).trans (h.mem a fun hw => ha (Or.inl hw))
  off := fun p hp hoff => (h'.off p (h.current ▸ hp) fun hin a ha => hoff (h.inTable.mp hin) a (Or.inr ha)).trans
    (h.off p hp fun hin a ha => hoff hin a (Or.inl ha))
  frame := by
    intro p hp
    obtain ⟨regs, h1⟩ := h.frame p fun hin a ha => hp hin a (Or.inl ha)
    obtain ⟨regs', h2⟩ := h'.frame p fun hin a ha => hp (h.inTable.mp hin) a (Or.inr ha)
    exact ⟨regs', by rw [h2, h1]⟩

theorem congr (h : StoredTo k k' W) (hWV : ∀ a, W a ↔ V a) : StoredTo k k' V where
  mm := h.mm
  task := h.task
  current := h.current
  nrTasks := h.nrTasks
  mem := fun a ha => h.mem a fun hw => ha ((hWV a).mp hw)
  off := fun p hp hoff => h.off p hp fun hin a ha => hoff hin a ((hWV a).mp ha)
  frame := fun p hp => h.frame p fun hin a ha => hp hin a ((hWV a).mp ha)

/-- In a section of the current task. -/
theorem enable (h : StoredTo (preemptDisable k) k' W) : StoredTo k (preemptEnable k') W where
  mm := h.mm
  task := h.task
  current := h.current
  nrTasks := h.nrTasks
  mem := h.mem
  off := by
    intro p hp hoff
    have hcur : k'.current = k.current := h.current
    rw [preemptEnable, hcur, k'.updateTask_ne _ p _ hp, h.off p hp hoff, preemptDisable, k.updateTask_ne _ p _ hp]
  frame := by
    intro p hp
    have hcur : k'.current = k.current := h.current
    obtain ⟨regs, hregs⟩ := h.frame p hp
    refine ⟨regs, ?_⟩
    rw [preemptEnable, hcur]
    by_cases hpc : p = k.current
    · rw [hpc, k'.updateTask_self, ← hpc, hregs, preemptDisable, hpc, k.updateTask_self, Int.add_sub_cancel]
    · rw [k'.updateTask_ne _ p _ hpc, hregs, preemptDisable, k.updateTask_ne _ p _ hpc]

end StoredTo

/-- Trap frames may have changed, and bytes; nothing else. -/
structure OnlyFrames (k k' : Kernel) : Prop where
  mm : k'.mm = k.mm
  task : k'.task = k.task
  current : k'.current = k.current
  nrTasks : k'.nrTasks = k.nrTasks
  tasks : ∀ q, k'.tasks q = { k.tasks q with ptRegs := (k'.tasks q).ptRegs }

/-- Stores that keep off what is below the trap frames. -/
theorem StoredTo.onlyFrames {W : Nat → Prop} (h : StoredTo k k' W)
    (hoff : ∀ p, InTable k p → ∀ a, W a → ¬ p.BelowFrame a) : OnlyFrames k k' where
  mm := h.mm
  task := h.task
  current := h.current
  nrTasks := h.nrTasks
  tasks := by
    intro q
    obtain ⟨regs, hq⟩ := h.frame q (hoff q)
    rw [hq]

namespace OnlyFrames

theorem inTable (h : OnlyFrames k k') : InTable k' q ↔ InTable k q := by
  unfold InTable
  rw [h.task]

theorem pageOf (h : OnlyFrames k k') (q : TaskPtr) (u : Use) : pageOf k' q u = pageOf k q u := by
  cases u with
  | task => rfl
  | stack => rw [OsdiKernel.pageOf, OsdiKernel.pageOf, h.tasks q]; rfl

end OnlyFrames

/-- Trap frames are not in the invariant. -/
theorem UseInv.onlyFrames (h : UseInv k c live) (ho : OnlyFrames k k') : UseInv k' c live where
  mm := by rw [ho.mm]; exact h.mm
  slots := by rw [ho.task]; exact h.slots
  init := by rw [ho.task]; exact h.init
  live := by
    intro q hq u b hb
    rw [ho.pageOf] at hb
    exact h.live q (ho.inTable.mp hq) u b hb
  once := by
    intro p q hp hq u v b hb hb'
    rw [ho.pageOf] at hb hb'
    exact h.once p q (ho.inTable.mp hp) (ho.inTable.mp hq) u v b hb hb'

theorem TaskInv.onlyFrames (h : TaskInv k c live) (ho : OnlyFrames k k') : TaskInv k' c live where
  toUseInv := h.toUseInv.onlyFrames ho
  pid := by
    intro i q hq
    rw [ho.task] at hq
    rw [ho.tasks q]
    exact h.pid i q hq
  count := by
    rw [ho.nrTasks, usedSlots, ho.task]
    exact h.count
  initRunning := by rw [ho.tasks]; exact h.initRunning
  range := by
    intro q hq
    rw [ho.tasks q]
    exact h.range q (ho.inTable.mp hq)
  current := by
    refine ⟨ho.inTable.mpr ?_, ?_⟩
    · rw [ho.current]
      exact h.current.1
    · rw [ho.current, ho.tasks]
      exact h.current.2

/-! ## Pages -/

/-- No program is loaded over a frame that is not free. -/
def LoadsFree (k : Kernel) (fileSize : Nat) : Prop :=
  ∀ a, moveAddress ≤ a → a < moveAddress + fileSize → phyAddrToPfn a < pageFrameNum →
    phyAddrToPfn a ∈ freeFrames k.mm

/-- Two pages have no byte in common. -/
def PagesApart (p q : Nat) : Prop := p + pageSize ≤ q ∨ q + pageSize ≤ p

theorem PagesApart.symm {p q : Nat} (h : PagesApart p q) : PagesApart q p := Or.symm h

theorem PagesApart.not_within {p q : Nat} (h : PagesApart p q) (hx : Within p pageSize x) : ¬ Within q pageSize x := by
  unfold PagesApart at h
  unfold Within at *
  omega

theorem frames_apart {f g : Nat} (h : f ≠ g) : PagesApart (frameAddr f) (frameAddr g) := by
  unfold PagesApart frameAddr
  rcases Nat.lt_or_gt_of_ne h with h | h
  · exact Or.inl (by unfold pageSize; omega)
  · exact Or.inr (by unfold pageSize; omega)

theorem live_apart (h : MmInv ⟨mm, live⟩ c) (ha : pageAt a ∈ live) (hb : pageAt b ∈ live) (hne : a ≠ b) :
    PagesApart a b := by
  obtain ⟨f, _, hfa, _⟩ := h.slab.pageAllocated ha
  obtain ⟨g, _, hgb, _⟩ := h.slab.pageAllocated hb
  subst hfa hgb
  exact frames_apart (fun he => hne (congrArg frameAddr he))

/-- A fresh page is none of them. -/
theorem TookPage.apart (ht : TookPage mm live a mm' c) (hb : pageAt b ∈ live) : PagesApart b a :=
  live_apart ht.inv (List.mem_cons_of_mem _ hb) List.mem_cons_self (fun he => ht.fresh (he ▸ hb))

/-- A live page is in a frame that is not free. -/
theorem MmInv.pfn_of_page (h : MmInv ⟨mm, live⟩ c) (ha : pageAt a ∈ live) (hx : Within a pageSize x) :
    phyAddrToPfn x < pageFrameNum ∧ phyAddrToPfn x ∉ freeFrames mm := by
  obtain ⟨f, hf, rfl, _, hfree⟩ := h.slab.pageAllocated ha
  obtain ⟨h1, h2⟩ := hx
  have hpfn : phyAddrToPfn x = f := by
    have := phyAddrToPfn_frameAddr (x - frameAddr f) hf (by omega)
    rwa [Nat.add_sub_cancel' h1] at this
  rw [hpfn]
  exact ⟨hf, hfree⟩

/-- The program is moved over no live page. -/
theorem LoadsFree.off_page (h : LoadsFree k size) (hmm : MmInv ⟨k.mm, live⟩ c) (ha : pageAt a ∈ live)
    (hx : Within moveAddress size x) : ¬ Within a pageSize x := by
  intro hin
  obtain ⟨hlt, hfree⟩ := hmm.pfn_of_page ha hin
  exact hfree (h x hx.1 hx.2 hlt)

/-- A task in the table is on a live page. -/
theorem UseInv.page_live (h : UseInv k c live) (hp : InTable k p) (hx : p.Page x) :
    ∃ b, p = .page b ∧ pageAt b ∈ live ∧ Within b pageSize x := by
  cases p with
  | initTask => exact hx.elim
  | page b => exact ⟨b, rfl, h.live _ hp .task b rfl, hx⟩

/-- No task in the table is where a program is moved, -/
theorem UseInv.off_load (h : UseInv k c live) (hl : LoadsFree k size) (hp : InTable k p)
    (hx : Within moveAddress size x) : ¬ p.Page x := by
  intro hin
  obtain ⟨b, _, hb, hin⟩ := h.page_live hp hin
  exact hl.off_page h.mm hb hx hin

/-- or on a page just taken, -/
theorem UseInv.off_taken (h : UseInv k c live) (ht : TookPage k.mm live a mm' c') (hp : InTable k p)
    (hx : Within a pageSize x) : ¬ p.Page x := by
  intro hin
  obtain ⟨b, _, hb, hin⟩ := h.page_live hp hin
  exact (ht.apart hb).not_within hin hx

/-- or on the user stack of one. -/
theorem UseInv.off_stack (h : UseInv k c live) (hp : InTable k p) (hq : InTable k q)
    (ha : pageOf k q .stack = some a) (hx : Within a pageSize x) : ¬ p.Page x := by
  intro hin
  obtain ⟨b, rfl, hb, hin⟩ := h.page_live hp hin
  have hne : b ≠ a := by
    rintro rfl
    exact Use.noConfusion (h.once _ q hp hq .task .stack _ rfl ha).2
  exact (live_apart h.mm hb (h.live q hq .stack a ha) hne).not_within hin hx

end OsdiKernel
