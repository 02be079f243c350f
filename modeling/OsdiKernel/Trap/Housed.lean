import OsdiKernel.Trap.Kthread

/-!
# A thread for every task

The kernel writes to `task_struct`s behind their contexts, the core to contexts
and to stacks. `Housed` says where the stacks are, so that neither of the two
can touch what the other relies on: what the scheduler writes leaves all threads
as they are, and a frame that is pushed, or a context that is stored, leaves all
tasks as they are.
-/

namespace OsdiKernel

open A64 Cpu

/-- Where the stack of a task is: in its page, behind the `task_struct`, or below `init_task`. -/
def StackRoom (im : Linked) (low top : Nat) : TaskPtr → Prop
  | .initTask => top ≤ im.initTask
  | .page b => b + taskStructSize ≤ low ∧ top ≤ b + pageSize

/-- The threads are the tasks in the table, all of them. -/
structure Housed (im : Linked) (r : RawKernel) (m : Cpu (Nat → UInt8)) : Prop where
  mem : m.core.mem = r.mem
  current : m.current = im.addr r.current
  task : ∀ q u, m.thread q = some u → ∃ i v, i < taskSlots ∧ r.task i = some v ∧ q = im.addr v ∧ StackRoom im u.low u.top v
  thread : ∀ i v, i < taskSlots → r.task i = some v → ∃ u, m.thread (im.addr v) = some u

/-- The tasks in the table have pages of their own, those of the allocator above the image. -/
structure TablePages (im : Linked) (task : Nat → Option TaskPtr) : Prop where
  apart : TasksApart im task
  above : ∀ i b, i < taskSlots → task i = some (.page b) → lowMemory ≤ b

variable {im : Linked} {r r' : RawKernel} {m m' : Cpu (Nat → UInt8)} {k : Kernel} {u : Thread} {v : TaskPtr}
  {mem mem' : Nat → UInt8} {q a p x i base : Nat} {ws : List (BitVec 64)}

theorem UseInv.tablePages {lk : Link → List Nat} {live : List Live} (h : UseInv k lk live) (im : Linked) :
    TablePages im k.task where
  apart := h.tasksApart im
  above := by
    intro i b hi hb
    obtain ⟨f, _, hfa, _⟩ := h.mm.slab.pageAllocated (h.live _ ⟨i, hi, hb⟩ .task b rfl)
    rw [hfa]
    unfold frameAddr
    omega

theorem Housed.hosts (h : Housed im r m) : Hosts im r m := by
  refine ⟨h.mem, h.current, fun q u hu => ?_⟩
  obtain ⟨i, v, hi, hv, hq, hroom⟩ := h.task q u hu
  refine ⟨i, v, hi, hv, hq, ?_, ?_⟩
  · rintro rfl
    exact Nat.le_trans hroom (Nat.le_trans (Nat.le_add_right ..) im.below)
  · rintro b rfl
    exact ⟨Nat.le_trans (Nat.le_add_right ..) hroom.1, hroom.2⟩

/-! ## Stacks, contexts and tasks -/

/-- **No task is on a stack or in a context**, its words behind the context that is. -/
theorem Housed.clear (h : Housed im r m) (hp : TablePages im r.task) (hu : m.thread q = some u) (hi : i < taskSlots)
    (hv : r.task i = some v) :
    (im.addr v + 8 * stateWord + 56 ≤ u.low ∨ u.top ≤ im.addr v + 8 * stateWord) ∧
      (im.addr v + 8 * stateWord + 56 ≤ q ∨ q + cpuContextSize ≤ im.addr v + 8 * stateWord) := by
  obtain ⟨j, w, hj, hw, rfl, hroom⟩ := h.task q u hu
  have hbelow := im.below
  have hcsize : cpuContextSize = 104 := rfl
  have hsword : stateWord = 13 := rfl
  by_cases hvw : v = w
  · subst hvw
    refine ⟨?_, by omega⟩
    cases v with
    | initTask =>
        have htop : u.top ≤ im.initTask := hroom
        exact Or.inr (Nat.le_trans htop (Nat.le_add_right ..))
    | page b =>
        have hlow : b + 176 ≤ u.low := hroom.1
        exact Or.inl (show b + 8 * stateWord + 56 ≤ u.low by omega)
  · have hpages := hp.apart i j v w hi hj hv hw hvw
    unfold PagesApart pageSize at hpages
    unfold pageSize at hbelow
    refine ⟨?_, by omega⟩
    cases w with
    | initTask =>
        have htop : u.top ≤ im.initTask := hroom
        cases v with
        | initTask => exact absurd rfl hvw
        | page b =>
            have habove := hp.above i b hi hv
            exact Or.inr (show u.top ≤ b + 8 * stateWord by omega)
    | page b =>
        have hlow : b + 176 ≤ u.low := hroom.1
        have htop : u.top ≤ b + 4096 := hroom.2
        change im.addr v + 4096 ≤ b ∨ b + 4096 ≤ im.addr v at hpages
        omega

theorem Housed.word_clear (h : Housed im r m) (hinv : CpuInv m) (hp : TablePages im r.task) (hu : m.thread q = some u)
    (hw : u.Word q a) (hx : Within a 8 x) : ¬ TaskByte im r.task x := by
  rintro ⟨i, v, hi, hv, hx'⟩
  obtain ⟨hstack, hcontext⟩ := h.clear hp hu hi hv
  unfold Within at hx hx'
  unfold cpuContextSize at hcontext
  rcases hw with ⟨f, j, hf, hj, rfl⟩ | ⟨j, hj, rfl⟩
  · have hstacked := (hinv.placed q u hu).stacked
    have hmem := hstacked.mem hf
    have hlow := hstacked.le_floor
    unfold sFrameSize at hmem
    omega
  · omega

/-- **The scheduler** writes to nobody's frame or context. -/
theorem Housed.spares (h : Housed im r m) (hinv : CpuInv m) (hp : TablePages im r.task) (ho : OnlyTasks im r.task r.mem mem) :
    m.Spares mem := by
  intro a ha
  have hword : ∃ q u, m.thread q = some u ∧ u.Word q a := by
    rcases ha with ⟨q, u, f, j, hu, hf, hj, rfl⟩ | ⟨q, u, j, _, hu, hj, rfl⟩
    · exact ⟨q, u, hu, Or.inl ⟨f, j, hf, hj, rfl⟩⟩
    · exact ⟨q, u, hu, Or.inr ⟨j, hj, rfl⟩⟩
  obtain ⟨q, u, hu, hw⟩ := hword
  rw [h.mem]
  exact load_kept (fun x hx => ho x (h.word_clear hinv hp hu hw hx))

/-- **What is pushed** on a stack goes to no task, -/
theorem Housed.keeps_stack (h : Housed im r m) (hp : TablePages im r.task) (hu : m.thread q = some u) (hlo : u.low ≤ base)
    (hhi : base + 8 * ws.length ≤ u.top) : KeepsWords im r.task mem (storeWords mem base ws) := by
  intro i v j hi hv hj1 hj2
  obtain ⟨hstack, _⟩ := h.clear hp hu hi hv
  unfold stateWord pidWord at *
  exact word_of_load (load_storeWords_apart (by omega))

/-- and neither does a context. -/
theorem Housed.keeps_context (h : Housed im r m) (hp : TablePages im r.task) (hu : m.thread q = some u)
    (hlen : 8 * ws.length ≤ cpuContextSize) : KeepsWords im r.task mem (storeWords mem q ws) := by
  intro i v j hi hv hj1 hj2
  obtain ⟨_, hcontext⟩ := h.clear hp hu hi hv
  unfold stateWord pidWord at *
  exact word_of_load (load_storeWords_apart (by omega))

/-! ## The core -/

/-- Every thread is where it was. -/
def SameStacks (m m' : Cpu (Nat → UInt8)) : Prop :=
  ∀ q, (m'.thread q).map (fun u => (u.low, u.top)) = (m.thread q).map (fun u => (u.low, u.top))

theorem SameStacks.refl (m : Cpu (Nat → UInt8)) : SameStacks m m := fun _ => rfl

/-- The frames or the registers of the current thread change. -/
theorem sameStacks_current {f : Thread → Thread} (hf : ∀ t, (f t).low = t.low ∧ (f t).top = t.top)
    (ht : m'.thread = m.setThread m.current ((m.thread m.current).map f)) : SameStacks m m' := by
  intro q
  rw [ht]
  by_cases hq : q = m.current
  · subst hq
    rw [setThread, Function.update_self]
    cases m.thread m.current with
    | none => rfl
    | some t => simp [hf t]
  · rw [setThread, Function.update_of_ne hq]

theorem Housed.congr (h : Housed im r m) (hmem : m'.core.mem = r'.mem) (hcur : m'.current = im.addr r'.current)
    (htask : r'.task = r.task) (hs : SameStacks m m') : Housed im r' m' := by
  refine ⟨hmem, hcur, fun q u hu => ?_, fun i v hi hv => ?_⟩
  · have hsame := hs q
    rw [hu, Option.map_some] at hsame
    obtain ⟨w, hw, heq⟩ := Option.map_eq_some_iff.mp hsame.symm
    obtain ⟨hlow, htop⟩ := Prod.mk.inj heq
    obtain ⟨i, v, hi, hv, hq, hroom⟩ := h.task q w hw
    exact ⟨i, v, hi, by rw [htask]; exact hv, hq, by rw [← hlow, ← htop]; exact hroom⟩
  · rw [htask] at hv
    obtain ⟨w, hw⟩ := h.thread i v hi hv
    have hsame := hs (im.addr v)
    rw [hw, Option.map_some] at hsame
    obtain ⟨u, hu, _⟩ := Option.map_eq_some_iff.mp hsame
    exact ⟨u, hu⟩

/-- What the core may do by itself. The tasks' words are for the kernel to write. -/
def CoreEvent (im : Linked) (r : RawKernel) : CpuEvent (Nat → UInt8) → Prop
  | .work _ mem | .amend _ _ mem => KeepsWords im r.task r.mem mem
  | .interrupt _ _ | .resume _ => True
  | .switch _ | .create _ _ _ | .remove _ => False

/-- **The core, by itself**: the threads stay where they are, and the tasks what they are. -/
theorem Housed.core {e : CpuEvent (Nat → UInt8)} (h : Housed im r m) (hp : TablePages im r.task) (hinv : CpuInv m)
    (hl : m.Legal e) (he : CoreEvent im r e) :
    Housed im { r with mem := (m.step e).core.mem } (m.step e) ∧ KeepsWords im r.task r.mem (m.step e).core.mem := by
  cases e with
  | work regs mem => exact ⟨h.congr rfl h.current rfl (.refl m), he⟩
  | interrupt el vector =>
      obtain ⟨t, ht, hroom⟩ := hl
      obtain ⟨hat, hlow, hfloor⟩ := hinv.room ht hroom
      have htop := (hinv.placed _ _ ht).stacked.floor_le
      refine ⟨h.congr rfl h.current rfl (sameStacks_current (f := fun t => pushed t el m.core.regs) (fun _ => ⟨rfl, rfl⟩) rfl), ?_⟩
      show KeepsWords im r.task r.mem (enterKernel el vector m.core).mem
      rw [(enterKernel_spec el vector hat).1, h.mem]
      exact h.keeps_stack hp ht hlow (by rw [frameWords_length]; exact Nat.le_trans hfloor htop)
  | resume el =>
      obtain ⟨t, f, fs, ht, hsaved, rfl, hsp⟩ := hl
      obtain ⟨hat, _⟩ := hinv.frameAt ht hsaved hsp
      have hmem : (m.step (.resume f.el)).core.mem = r.mem := by
        have hleft := (leaveKernel_spec hat (hinv.frames _ _ ht f (by rw [hsaved]; exact List.mem_cons_self))).1
        exact hleft.trans h.mem
      refine ⟨h.congr rfl h.current rfl (sameStacks_current (f := popped) (fun _ => ⟨rfl, rfl⟩) rfl), ?_⟩
      rw [hmem]
      exact fun _ _ _ _ _ _ _ => rfl
  | amend n ctx mem =>
      exact ⟨h.congr rfl h.current rfl (sameStacks_current (f := fun t => amended t n ctx) (fun _ => ⟨rfl, rfl⟩) rfl), he⟩
  | switch next => exact absurd he (by simp [CoreEvent])
  | create p t mem => exact absurd he (by simp [CoreEvent])
  | remove p => exact absurd he (by simp [CoreEvent])

/-! ## The kernel -/

/-- A new task brings its thread. -/
theorem Housed.create (h : Housed im r m) (hfree : r.task i = none) (hi : i < taskSlots) (hnone : m.thread p = none)
    (htask : r'.task = Function.update r.task i (some (.page p))) (hcur : r'.current = r.current) :
    Housed im r' (m.step (.create p (newThread r'.mem p) r'.mem)) := by
  refine ⟨rfl, by rw [hcur]; exact h.current, fun q u hu => ?_, fun j v hj hv => ?_⟩
  · by_cases hq : q = p
    · subst hq
      have hself : (m.step (.create q (newThread r'.mem q) r'.mem)).thread q = some (newThread r'.mem q) := Function.update_self ..
      obtain rfl := Option.some.inj (hself.symm.trans hu)
      exact ⟨i, .page q, hi, by rw [htask, Function.update_self], rfl, Nat.le_refl _, Nat.le_refl _⟩
    · obtain ⟨j, v, hj, hv, hqv, hroom⟩ := h.task q u ((Function.update_of_ne hq ..).symm.trans hu)
      refine ⟨j, v, hj, ?_, hqv, hroom⟩
      rw [htask, Function.update_of_ne]
      · exact hv
      · rintro rfl
        exact absurd (hfree.symm.trans hv) (by simp)
  · rw [htask] at hv
    by_cases hji : j = i
    · subst hji
      rw [Function.update_self] at hv
      obtain rfl := Option.some.inj hv
      exact ⟨_, Function.update_self ..⟩
    · rw [Function.update_of_ne hji] at hv
      obtain ⟨u, hu⟩ := h.thread j v hj hv
      refine ⟨u, (Function.update_of_ne ?_ ..).trans hu⟩
      intro hvp
      rw [hvp] at hu
      exact absurd (hnone.symm.trans hu) (by simp)

/-- A task that is killed takes its thread along. -/
theorem Housed.remove (h : Housed im r m) (hp : TablePages im r.task) (hi : i < taskSlots) (hslot : r.task i = some (.page a))
    (honly : ∀ j, r.task j = some (.page a) → j = i) (htask : r'.task = Function.update r.task i none)
    (hcur : r'.current = r.current) (hmem : m.core.mem = r'.mem) : Housed im r' (m.step (.remove a)) := by
  refine ⟨hmem, by rw [hcur]; exact h.current, fun q u hu => ?_, fun j v hj hv => ?_⟩
  · have hq : q ≠ a := by
      rintro rfl
      have hself : (m.step (.remove q)).thread q = none := Function.update_self ..
      exact absurd (hself.symm.trans hu) (by simp)
    obtain ⟨j, v, hj, hv, hqv, hroom⟩ := h.task q u ((Function.update_of_ne hq ..).symm.trans hu)
    refine ⟨j, v, hj, ?_, hqv, hroom⟩
    rw [htask, Function.update_of_ne]
    · exact hv
    · rintro rfl
      obtain rfl := Option.some.inj (hslot.symm.trans hv)
      exact hq hqv
  · rw [htask] at hv
    have hji : j ≠ i := by
      rintro rfl
      rw [Function.update_self] at hv
      exact absurd hv (by simp)
    rw [Function.update_of_ne hji] at hv
    obtain ⟨u, hu⟩ := h.thread j v hj hv
    refine ⟨u, (Function.update_of_ne ?_ ..).trans hu⟩
    -- two tasks are not at one address
    have hne : v ≠ .page a := by
      rintro rfl
      exact hji (honly j hv)
    have hpages := hp.apart j i v (.page a) hj hi hv hslot hne
    unfold PagesApart pageSize at hpages
    show im.addr v ≠ im.addr (.page a)
    omega

end OsdiKernel
