import Mathlib.Data.Finset.Card
import OsdiKernel.Mm.FreeFrames
import OsdiKernel.Sched.Fork
import OsdiKernel.Sched.Schedule

/-!
# The task table's invariant

A task needs up to two pages, its own and its user stack, and the kernel keeps
no record of them but the pointers in `task[]`. So the invariant says of every
task in the table that its pages are live, and of every live page that it has
one use at most. A zombie has given its stack back, though its `stack` still
points there.

The system calls change the table in four ways only: a slot is filled with a
task on a fresh page, a slot is emptied and its page returned, the current task
changes one of its own fields, and the scheduler runs. There is a lemma for each.
-/

namespace OsdiKernel

/-- What a task uses a page for. -/
inductive Use where
  | task
  | stack
  deriving DecidableEq, Repr

/-- The stack a task has, if it is alive and has one. -/
def Task.userStack (t : Task) : Option Nat :=
  if t.state = .zombie ∨ t.stack = 0 then none else some t.stack

/-- The page a task has for that use. `init_task` is static. -/
def pageOf (k : Kernel) (p : TaskPtr) : Use → Option Nat
  | .task =>
      match p with
      | .initTask => none
      | .page addr => some addr
  | .stack => (k.tasks p).userStack

/-- The slots that are not NULL. -/
def usedSlots (k : Kernel) : Finset Nat := (Finset.range taskSlots).filter (fun i => k.task i ≠ none)

/-- Tasks and their pages: `c` is what the lists hold, `live` what is handed out. -/
structure UseInv (k : Kernel) (c : Link → List Nat) (live : List Live) : Prop where
  mm : MmInv ⟨k.mm, live⟩ c
  /-- `task[]` has 64 slots. -/
  slots : ∀ i, taskSlots ≤ i → k.task i = none
  init : k.task 0 = some .initTask
  /-- What a task uses is live. -/
  live : ∀ p, InTable k p → ∀ r a, pageOf k p r = some a → pageAt a ∈ live
  /-- Nothing is used twice. -/
  once : ∀ p q, InTable k p → InTable k q → ∀ r s a, pageOf k p r = some a → pageOf k q s = some a →
    p = q ∧ r = s

/-- Who is in the table, whatever they do. -/
structure SlotInv (k : Kernel) (c : Link → List Nat) (live : List Live) : Prop
    extends UseInv k c live where
  /-- A task knows its slot, so no task has two. -/
  pid : ∀ i p, k.task i = some p → (k.tasks p).pid = i
  range : InRange k

/-- The table's invariant. -/
structure TableInv (k : Kernel) (c : Link → List Nat) (live : List Live) : Prop
    extends UseInv k c live where
  /-- A task knows its slot, so no task has two. -/
  pid : ∀ i p, k.task i = some p → (k.tasks p).pid = i
  /-- `nr_tasks` counts the table. -/
  count : k.nrTasks = (usedSlots k).card
  /-- There is always something to schedule. -/
  initRunning : (k.tasks .initTask).state = .running
  range : InRange k

/-- And whoever runs is in the table, and runnable. -/
structure TaskInv (k : Kernel) (c : Link → List Nat) (live : List Live) : Prop
    extends TableInv k c live where
  current : Runnable k k.current

variable {k k' : Kernel} {c c' : Link → List Nat} {live live' : List Live} {p q : TaskPtr}
  {i a : Nat} {mm' : Mm}

namespace UseInv

theorem slot_lt (h : UseInv k c live) (hi : k.task i = some p) : i < taskSlots := by
  by_contra hn
  rw [h.slots i (Nat.le_of_not_lt hn)] at hi
  exact absurd hi (by simp)

theorem inTable (h : UseInv k c live) (hi : k.task i = some p) : InTable k p := ⟨i, h.slot_lt hi, hi⟩

theorem init_inTable (h : UseInv k c live) : InTable k .initTask := h.inTable h.init

/-- A page that is not live is used by nobody. -/
theorem unused (h : UseInv k c live) (ha : pageAt a ∉ live) (hp : InTable k p) (r : Use) :
    pageOf k p r ≠ some a := fun hu => ha (h.live p hp r a hu)

theorem fresh_ne (h : UseInv k c live) (ha : pageAt a ∉ live) (hp : InTable k p) :
    p ≠ .page a := fun he => h.unused ha hp .task (he ▸ rfl)

/-- More may be live than the tasks use. -/
theorem grow (h : UseInv k c live) (hmm : MmInv ⟨mm', live'⟩ c') (hsub : ∀ e ∈ live, e ∈ live') :
    UseInv { k with mm := mm' } c' live' :=
  ⟨hmm, h.slots, h.init, fun p hp r a ha => hsub _ (h.live p hp r a ha), h.once⟩

/-- Bytes are not in the invariant. -/
theorem writeMem (h : UseInv k c live) (mem : Nat → UInt8) : UseInv { k with mem } c live :=
  ⟨h.mm, h.slots, h.init, h.live, h.once⟩

end UseInv

namespace SlotInv

/-- A task is in one slot. -/
theorem slot_unique (h : SlotInv k c live) {j : Nat} (hi : k.task i = some p) (hj : k.task j = some p) :
    i = j := by
  have := (h.pid i p hi).symm.trans (h.pid j p hj)
  exact_mod_cast this

/-- More may be live than the tasks use. -/
theorem grow (h : SlotInv k c live) (hmm : MmInv ⟨mm', live'⟩ c') (hsub : ∀ e ∈ live, e ∈ live') :
    SlotInv { k with mm := mm' } c' live' :=
  ⟨h.toUseInv.grow hmm hsub, h.pid, h.range⟩

/-- Bytes are not in the invariant. -/
theorem writeMem (h : SlotInv k c live) (mem : Nat → UInt8) : SlotInv { k with mem } c live :=
  ⟨h.toUseInv.writeMem mem, h.pid, h.range⟩

end SlotInv

namespace TableInv

theorem slotInv (h : TableInv k c live) : SlotInv k c live := ⟨h.toUseInv, h.pid, h.range⟩

theorem slot_unique (h : TableInv k c live) {j : Nat} (hi : k.task i = some p) (hj : k.task j = some p) :
    i = j := h.slotInv.slot_unique hi hj

theorem initRunnable (h : TableInv k c live) : Runnable k .initTask :=
  ⟨h.init_inTable, h.initRunning⟩

/-- More may be live than the tasks use. -/
theorem grow (h : TableInv k c live) (hmm : MmInv ⟨mm', live'⟩ c') (hsub : ∀ e ∈ live, e ∈ live') :
    TableInv { k with mm := mm' } c' live' :=
  ⟨h.toUseInv.grow hmm hsub, h.pid, h.count, h.initRunning, h.range⟩

/-- Bytes are not in the invariant. -/
theorem writeMem (h : TableInv k c live) (mem : Nat → UInt8) : TableInv { k with mem } c live :=
  ⟨(h.slotInv.writeMem mem).toUseInv, h.pid, h.count, h.initRunning, h.range⟩

end TableInv

/-- A page taken is nobody's yet. -/
theorem TaskInv.tookPage (h : TaskInv k c live) (ht : TookPage k.mm live a mm' c') :
    TaskInv { k with mm := mm' } c' (pageAt a :: live) :=
  ⟨h.toTableInv.grow ht.inv (fun _ he => List.mem_cons_of_mem _ he), h.current⟩

/-! ## Filling a slot -/

/-- The kernel with a task `t` on page `a` added in slot `i`. -/
def addTask (k : Kernel) (mm' : Mm) (i a : Nat) (t : Task) : Kernel :=
  { k with
    mm := mm'
    tasks := Function.update k.tasks (.page a) t
    task := Function.update k.task i (some (.page a))
    nrTasks := k.nrTasks + 1 }

section AddTask

variable {t : Task}

theorem addTask_task_self : (addTask k mm' i a t).task i = some (.page a) := Function.update_self ..

theorem addTask_task_ne {j : Nat} (h : j ≠ i) : (addTask k mm' i a t).task j = k.task j :=
  Function.update_of_ne h ..

theorem addTask_self : (addTask k mm' i a t).tasks (.page a) = t := Function.update_self ..

theorem addTask_ne (h : q ≠ .page a) : (addTask k mm' i a t).tasks q = k.tasks q :=
  Function.update_of_ne h ..

/-- What a task uses is read from its own record. -/
theorem pageOf_congr (h : k'.tasks q = k.tasks q) (r : Use) : pageOf k' q r = pageOf k q r := by
  cases r with
  | task => rfl
  | stack => rw [pageOf, pageOf, h]

theorem addTask_pageOf_ne (h : q ≠ .page a) (r : Use) :
    pageOf (addTask k mm' i a t) q r = pageOf k q r :=
  pageOf_congr (addTask_ne h) r

theorem addTask_inTable (hi : i < taskSlots) (hfree : k.task i = none) :
    InTable (addTask k mm' i a t) q ↔ q = .page a ∨ InTable k q := by
  constructor
  · intro hq
    obtain ⟨j, hj, ht⟩ := hq
    by_cases hji : j = i
    · subst hji
      rw [addTask_task_self] at ht
      exact Or.inl (Option.some.inj ht).symm
    · rw [addTask_task_ne hji] at ht
      exact Or.inr ⟨j, hj, ht⟩
  · intro hq
    rcases hq with rfl | hq
    · exact ⟨i, hi, addTask_task_self⟩
    · obtain ⟨j, hj, ht⟩ := hq
      have hji : j ≠ i := by
        intro he
        rw [he, hfree] at ht
        exact absurd ht (by simp)
      exact ⟨j, hj, by rw [addTask_task_ne hji]; exact ht⟩

/-- **A slot is filled**: nobody used the page before, or the stack. -/
theorem UseInv.addTask (h : UseInv k c live) (hi : i < taskSlots) (hfree : k.task i = none)
    (hmm : MmInv ⟨mm', live'⟩ c') (hsub : ∀ e ∈ live, e ∈ live') (halive : pageAt a ∈ live')
    (ha : ∀ p, InTable k p → ∀ r, pageOf k p r ≠ some a)
    (hstack : ∀ b, t.userStack = some b → b ≠ a ∧ pageAt b ∈ live' ∧
      ∀ p, InTable k p → ∀ r, pageOf k p r ≠ some b) :
    UseInv (addTask k mm' i a t) c' live' := by
  have hin : ∀ q, InTable (OsdiKernel.addTask k mm' i a t) q ↔ q = .page a ∨ InTable k q :=
    fun q => addTask_inTable hi hfree
  have hne : ∀ q, InTable k q → q ≠ .page a := fun q hq he => ha q hq .task (he ▸ rfl)
  -- the two pages of the new task
  have hnew : ∀ r b, pageOf (OsdiKernel.addTask k mm' i a t) (.page a) r = some b →
      (r = .task ∧ b = a) ∨ (r = .stack ∧ t.userStack = some b) := by
    intro r b hb
    cases r with
    | task => exact Or.inl ⟨rfl, (Option.some.inj hb).symm⟩
    | stack =>
        rw [pageOf, addTask_self] at hb
        exact Or.inr ⟨rfl, hb⟩
  have hunused : ∀ q, InTable k q → ∀ r s b, pageOf (OsdiKernel.addTask k mm' i a t) (.page a) r = some b →
      pageOf k q s ≠ some b := by
    intro q hq r s b hb
    rcases hnew r b hb with ⟨_, rfl⟩ | ⟨_, hs⟩
    · exact ha q hq s
    · exact (hstack b hs).2.2 q hq s
  refine ⟨hmm, ?_, ?_, ?_, ?_⟩
  · intro j hj
    rw [addTask_task_ne (by omega)]
    exact h.slots j hj
  · have hi0 : (0 : Nat) ≠ i := by
      intro he
      rw [← he, h.init] at hfree
      exact absurd hfree (by simp)
    rw [addTask_task_ne hi0]
    exact h.init
  · intro q hq r b hb
    rcases (hin q).mp hq with rfl | hq
    · rcases hnew r b hb with ⟨_, rfl⟩ | ⟨_, hs⟩
      · exact halive
      · exact (hstack b hs).2.1
    · rw [addTask_pageOf_ne (hne q hq)] at hb
      exact hsub _ (h.live q hq r b hb)
  · intro p q hp hq r s b hb hb'
    rcases (hin p).mp hp with rfl | hp
    · rcases (hin q).mp hq with rfl | hq
      · refine ⟨rfl, ?_⟩
        rcases hnew r b hb with ⟨hr, h1⟩ | ⟨hr, h1⟩
        · rcases hnew s b hb' with ⟨hs, _⟩ | ⟨_, h2⟩
          · rw [hr, hs]
          · exact absurd h1 (hstack b h2).1
        · rcases hnew s b hb' with ⟨_, h2⟩ | ⟨hs, _⟩
          · exact absurd h2 (hstack b h1).1
          · rw [hr, hs]
      · rw [addTask_pageOf_ne (hne q hq)] at hb'
        exact absurd hb' (hunused q hq r s b hb)
    · rw [addTask_pageOf_ne (hne p hp)] at hb
      rcases (hin q).mp hq with rfl | hq
      · exact absurd hb (hunused p hp s r b hb')
      · rw [addTask_pageOf_ne (hne q hq)] at hb'
        exact h.once p q hp hq r s b hb hb'

/-- A task that can be added in slot `i`: runnable, and its stack, if it has one, is spoken for by nobody. -/
structure NewTask (k : Kernel) (live : List Live) (i : Nat) (t : Task) : Prop where
  pid : t.pid = i
  running : t.state = .running
  range : (1 ≤ t.priority ∧ t.priority ≤ 2 ^ 29) ∧ 0 ≤ t.counter ∧ t.counter ≤ 2 ^ 30
  stack : ∀ b, t.userStack = some b →
    pageAt b ∈ live ∧ ∀ p, InTable k p → ∀ r, pageOf k p r ≠ some b

theorem SlotInv.addTask (h : SlotInv k c live) (hi : i < taskSlots) (hfree : k.task i = none)
    (ha : pageAt a ∉ live) (hmm : MmInv ⟨mm', pageAt a :: live⟩ c') (ht : NewTask k live i t) :
    SlotInv (addTask k mm' i a t) c' (pageAt a :: live) := by
  have hin : ∀ q, InTable (OsdiKernel.addTask k mm' i a t) q ↔ q = .page a ∨ InTable k q :=
    fun q => addTask_inTable hi hfree
  have hne : ∀ q, InTable k q → q ≠ .page a := fun q hq => h.fresh_ne ha hq
  have hpages := h.toUseInv.addTask hi hfree hmm (fun _ he => List.mem_cons_of_mem _ he)
    List.mem_cons_self (fun p hp r => h.unused ha hp r) (fun b hb => ⟨fun he => ha (he ▸ (ht.stack b hb).1),
      List.mem_cons_of_mem _ (ht.stack b hb).1, (ht.stack b hb).2⟩)
  refine ⟨hpages, ?_, ?_⟩
  · intro j q hj
    by_cases hji : j = i
    · subst hji
      rw [addTask_task_self] at hj
      rw [← Option.some.inj hj, addTask_self]
      exact ht.pid
    · rw [addTask_task_ne hji] at hj
      rw [addTask_ne (hne q (h.inTable hj))]
      exact h.pid j q hj
  · intro q hq
    rcases (hin q).mp hq with rfl | hq
    · rw [addTask_self]
      exact ht.range
    · rw [addTask_ne (hne q hq)]
      exact h.range q hq

theorem TableInv.addTask (h : TableInv k c live) (hi : i < taskSlots) (hfree : k.task i = none)
    (ha : pageAt a ∉ live) (hmm : MmInv ⟨mm', pageAt a :: live⟩ c') (ht : NewTask k live i t) :
    TableInv (addTask k mm' i a t) c' (pageAt a :: live) := by
  have hslot := h.slotInv.addTask hi hfree ha hmm ht
  refine ⟨hslot.toUseInv, hslot.pid, ?_, ?_, hslot.range⟩
  · have hslots : usedSlots (OsdiKernel.addTask k mm' i a t) = insert i (usedSlots k) := by
      refine Finset.ext fun j => ?_
      simp only [usedSlots, Finset.mem_filter, Finset.mem_range, Finset.mem_insert]
      by_cases hji : j = i
      · subst hji
        simp [addTask_task_self, hi]
      · rw [addTask_task_ne hji]
        simp [hji]
    have hnot : i ∉ usedSlots k := by simp [usedSlots, hfree]
    rw [hslots, Finset.card_insert_of_notMem hnot]
    show k.nrTasks + 1 = _
    rw [h.count]
    push_cast
    rfl
  · rw [addTask_ne (fun he => TaskPtr.noConfusion he)]
    exact h.initRunning

theorem TaskInv.addTask (h : TaskInv k c live) (hi : i < taskSlots) (hfree : k.task i = none)
    (ha : pageAt a ∉ live) (hmm : MmInv ⟨mm', pageAt a :: live⟩ c') (ht : NewTask k live i t) :
    TaskInv (addTask k mm' i a t) c' (pageAt a :: live) where
  toTableInv := h.toTableInv.addTask hi hfree ha hmm ht
  current := by
    refine ⟨(addTask_inTable hi hfree).mpr (Or.inr h.current.1), ?_⟩
    rw [show (OsdiKernel.addTask k mm' i a t).current = k.current from rfl,
      addTask_ne (h.fresh_ne ha h.current.1)]
    exact h.current.2

end AddTask

/-! ## Emptying a slot -/

/-- The kernel with slot `i` emptied. -/
def dropTask (k : Kernel) (mm' : Mm) (i : Nat) : Kernel :=
  { k with mm := mm', task := Function.update k.task i none, nrTasks := k.nrTasks - 1 }

theorem dropTask_task_self : (dropTask k mm' i).task i = none := Function.update_self ..

theorem dropTask_task_ne {j : Nat} (h : j ≠ i) : (dropTask k mm' i).task j = k.task j :=
  Function.update_of_ne h ..

/-- Who is left. -/
theorem SlotInv.dropTask_inTable (h : SlotInv k c live) (hi : k.task i = some p) :
    InTable (dropTask k mm' i) q ↔ InTable k q ∧ q ≠ p := by
  constructor
  · intro hq
    obtain ⟨j, hj, ht⟩ := hq
    by_cases hji : j = i
    · rw [hji, dropTask_task_self] at ht
      exact absurd ht (by simp)
    · rw [dropTask_task_ne hji] at ht
      refine ⟨⟨j, hj, ht⟩, fun he => hji ?_⟩
      rw [he] at ht
      exact h.slot_unique ht hi
  · intro hq
    obtain ⟨⟨j, hj, ht⟩, hqp⟩ := hq
    have hji : j ≠ i := by
      intro he
      rw [he, hi] at ht
      exact hqp (Option.some.inj ht).symm
    exact ⟨j, hj, by rw [dropTask_task_ne hji]; exact ht⟩

/-- **A slot is emptied**, and the page it pointed to returned. -/
theorem SlotInv.dropTask (h : SlotInv k c live) (hi : k.task i = some (.page a))
    (hmm : MmInv ⟨mm', live.erase (pageAt a)⟩ c') :
    SlotInv (dropTask k mm' i) c' (live.erase (pageAt a)) := by
  have hin : ∀ q, InTable (OsdiKernel.dropTask k mm' i) q → InTable k q ∧ q ≠ .page a :=
    fun q => (h.dropTask_inTable hi).mp
  have hi0 : (0 : Nat) ≠ i := by
    intro he
    rw [← he, h.init] at hi
    exact TaskPtr.noConfusion (Option.some.inj hi)
  refine ⟨⟨hmm, ?_, ?_, ?_, ?_⟩, ?_, fun q hq => h.range q (hin q hq).1⟩
  · intro j hj
    have hlt := h.slot_lt hi
    exact (dropTask_task_ne (by omega)).trans (h.slots j hj)
  · exact (dropTask_task_ne hi0).trans h.init
  · intro q hq r b hb
    obtain ⟨hq', hqa⟩ := hin q hq
    refine (List.mem_erase_of_ne ?_).mpr (h.live q hq' r b hb)
    -- the page given back was used as that task's page, and as nothing else
    intro he
    rw [pageAt_injective he] at hb
    exact hqa (h.once q (.page a) hq' (h.inTable hi) r .task a hb rfl).1
  · exact fun p q hp hq => h.once p q (hin p hp).1 (hin q hq).1
  · intro j q hj
    by_cases hji : j = i
    · rw [hji, dropTask_task_self] at hj
      exact absurd hj (by simp)
    · rw [dropTask_task_ne hji] at hj
      exact h.pid j q hj

theorem TaskInv.removeTask (h : TaskInv k c live) (hi : k.task i = some (.page a))
    (hcur : k.current ≠ .page a) (hmm : MmInv ⟨mm', live.erase (pageAt a)⟩ c') :
    TaskInv (dropTask k mm' i) c' (live.erase (pageAt a)) := by
  have hslot := h.slotInv.dropTask hi hmm
  refine ⟨⟨hslot.toUseInv, hslot.pid, ?_, h.initRunning, hslot.range⟩, ?_, h.current.2⟩
  · have hslots : usedSlots k = insert i (usedSlots (dropTask k mm' i)) := by
      refine Finset.ext fun j => ?_
      simp only [usedSlots, Finset.mem_filter, Finset.mem_range, Finset.mem_insert]
      by_cases hji : j = i
      · subst hji
        simp [hi, h.slot_lt hi]
      · rw [dropTask_task_ne hji]
        simp [hji]
    have hnot : i ∉ usedSlots (dropTask k mm' i) := by simp [usedSlots, dropTask_task_self]
    have hcount := h.count
    rw [hslots, Finset.card_insert_of_notMem hnot] at hcount
    push_cast at hcount
    show k.nrTasks - 1 = ((usedSlots (dropTask k mm' i)).card : Int)
    omega
  · exact (h.slotInv.dropTask_inTable hi).mpr ⟨h.current.1, hcur⟩

/-! ## Changing one task -/

/-- **One task changes** its fields, and perhaps its stack. -/
theorem UseInv.setTask (h : UseInv k c live) {t : Task} (hmm : MmInv ⟨mm', live'⟩ c')
    (hkeep : ∀ q r b, InTable k q → q ≠ p ∨ r = .task → pageOf k q r = some b → pageAt b ∈ live')
    (hstack : InTable k p → ∀ b, t.userStack = some b → pageAt b ∈ live' ∧
      ∀ q r, InTable k q → q ≠ p ∨ r = .task → pageOf k q r ≠ some b) :
    UseInv { k with mm := mm', tasks := Function.update k.tasks p t } c' live' := by
  let k₁ : Kernel := { k with mm := mm', tasks := Function.update k.tasks p t }
  have hself : k₁.tasks p = t := Function.update_self ..
  have hne : ∀ q, q ≠ p → k₁.tasks q = k.tasks q := fun q hq => Function.update_of_ne hq ..
  have hpage : ∀ q r, q ≠ p ∨ r = .task → pageOf k₁ q r = pageOf k q r := by
    intro q r hqr
    cases r with
    | task => rfl
    | stack =>
        rcases hqr with hq | hr
        · rw [pageOf, pageOf, hne q hq]
        · exact absurd hr (by simp)
  have hother : ∀ (q : TaskPtr) (r : Use), ¬ (q ≠ p ∨ r = .task) → q = p ∧ r = .stack := by
    intro q r hqr
    rw [not_or, not_not] at hqr
    refine ⟨hqr.1, ?_⟩
    cases r with
    | task => exact absurd rfl hqr.2
    | stack => rfl
  have hpstack : pageOf k₁ p .stack = t.userStack := by rw [pageOf, hself]
  refine ⟨hmm, h.slots, h.init, ?_, ?_⟩
  · intro q hq r b hb
    by_cases hqr : q ≠ p ∨ r = .task
    · rw [hpage q r hqr] at hb
      exact hkeep q r b hq hqr hb
    · obtain ⟨rfl, rfl⟩ := hother q r hqr
      exact (hstack hq b (hpstack ▸ hb)).1
  · intro q q' hq hq' r s b hb hb'
    by_cases hqr : q ≠ p ∨ r = .task
    · rw [hpage q r hqr] at hb
      by_cases hqs : q' ≠ p ∨ s = .task
      · rw [hpage q' s hqs] at hb'
        exact h.once q q' hq hq' r s b hb hb'
      · obtain ⟨rfl, rfl⟩ := hother q' s hqs
        exact absurd hb ((hstack hq' b (hpstack ▸ hb')).2 q r hq hqr)
    · obtain ⟨rfl, rfl⟩ := hother q r hqr
      by_cases hqs : q' ≠ q ∨ s = .task
      · rw [hpage q' s hqs] at hb'
        exact absurd hb' ((hstack hq b (hpstack ▸ hb)).2 q' s hq' hqs)
      · obtain ⟨rfl, rfl⟩ := hother q' s hqs
        exact ⟨rfl, rfl⟩

theorem SlotInv.setTask (h : SlotInv k c live) {t : Task} (hmm : MmInv ⟨mm', live'⟩ c')
    (hpid : t.pid = (k.tasks p).pid)
    (hrange : InTable k p → (1 ≤ t.priority ∧ t.priority ≤ 2 ^ 29) ∧ 0 ≤ t.counter ∧ t.counter ≤ 2 ^ 30)
    (hkeep : ∀ q r b, InTable k q → q ≠ p ∨ r = .task → pageOf k q r = some b → pageAt b ∈ live')
    (hstack : InTable k p → ∀ b, t.userStack = some b → pageAt b ∈ live' ∧
      ∀ q r, InTable k q → q ≠ p ∨ r = .task → pageOf k q r ≠ some b) :
    SlotInv { k with mm := mm', tasks := Function.update k.tasks p t } c' live' := by
  let k₁ : Kernel := { k with mm := mm', tasks := Function.update k.tasks p t }
  have hself : k₁.tasks p = t := Function.update_self ..
  have hne : ∀ q, q ≠ p → k₁.tasks q = k.tasks q := fun q hq => Function.update_of_ne hq ..
  refine ⟨h.toUseInv.setTask hmm hkeep hstack, ?_, ?_⟩
  · intro i q hq
    by_cases hqp : q = p
    · rw [hqp, hself, hpid, ← hqp]
      exact h.pid i q hq
    · rw [hne q hqp]
      exact h.pid i q hq
  · intro q hq
    by_cases hqp : q = p
    · subst hqp
      rw [hself]
      exact hrange hq
    · rw [hne q hqp]
      exact h.range q hq

theorem TableInv.setTask (h : TableInv k c live) {t : Task} (hmm : MmInv ⟨mm', live'⟩ c')
    (hpid : t.pid = (k.tasks p).pid) (hinit : p = .initTask → t.state = .running)
    (hrange : InTable k p → (1 ≤ t.priority ∧ t.priority ≤ 2 ^ 29) ∧ 0 ≤ t.counter ∧ t.counter ≤ 2 ^ 30)
    (hkeep : ∀ q r b, InTable k q → q ≠ p ∨ r = .task → pageOf k q r = some b → pageAt b ∈ live')
    (hstack : InTable k p → ∀ b, t.userStack = some b → pageAt b ∈ live' ∧
      ∀ q r, InTable k q → q ≠ p ∨ r = .task → pageOf k q r ≠ some b) :
    TableInv { k with mm := mm', tasks := Function.update k.tasks p t } c' live' := by
  have hslot := h.slotInv.setTask hmm hpid hrange hkeep hstack
  refine ⟨hslot.toUseInv, hslot.pid, h.count, ?_, hslot.range⟩
  by_cases hp : TaskPtr.initTask = p
  · show (Function.update k.tasks p t .initTask).state = .running
    rw [hp, Function.update_self]
    exact hinit hp.symm
  · show (Function.update k.tasks p t .initTask).state = .running
    rw [Function.update_of_ne hp]
    exact h.initRunning

/-- What the invariant looks at in a task stays as it is. -/
def SameUse (t t' : Task) : Prop :=
  t'.pid = t.pid ∧ t'.state = t.state ∧ t'.stack = t.stack ∧ t'.priority = t.priority ∧
    t'.counter = t.counter

/-- A task that uses what it used. -/
theorem UseInv.updateTask (h : UseInv k c live) {f : Task → Task}
    (huse : (f (k.tasks p)).userStack = (k.tasks p).userStack) : UseInv (k.updateTask p f) c live := by
  refine h.setTask h.mm (fun q r b hq _ hb => h.live q hq r b hb) ?_
  intro hp b hb
  rw [huse] at hb
  refine ⟨h.live p hp .stack b hb, fun q r hq hqr hu => ?_⟩
  obtain ⟨hqp, hrs⟩ := h.once q p hq hp r .stack b hu hb
  rcases hqr with hqr | hqr
  · exact hqr hqp
  · rw [hrs] at hqr
    exact Use.noConfusion hqr

/-- A task that uses what it used, and whose turn is in range. -/
theorem SlotInv.updateTask (h : SlotInv k c live) {f : Task → Task}
    (huse : (f (k.tasks p)).userStack = (k.tasks p).userStack) (hpid : (f (k.tasks p)).pid = (k.tasks p).pid)
    (hprio : (f (k.tasks p)).priority = (k.tasks p).priority)
    (hcnt : (f (k.tasks p)).counter = (k.tasks p).counter) : SlotInv (k.updateTask p f) c live := by
  have hfields : ∀ q, ((k.updateTask p f).tasks q).pid = (k.tasks q).pid ∧
      ((k.updateTask p f).tasks q).priority = (k.tasks q).priority ∧
      ((k.updateTask p f).tasks q).counter = (k.tasks q).counter := by
    intro q
    by_cases hq : q = p
    · subst hq
      rw [k.updateTask_self]
      exact ⟨hpid, hprio, hcnt⟩
    · rw [k.updateTask_ne p q f hq]
      exact ⟨rfl, rfl, rfl⟩
  refine ⟨h.toUseInv.updateTask huse, ?_, ?_⟩
  · intro i q hq
    rw [(hfields q).1]
    exact h.pid i q hq
  · intro q hq
    rw [(hfields q).2.1, (hfields q).2.2]
    exact h.range q hq

theorem TableInv.updateTask (h : TableInv k c live) {f : Task → Task}
    (hf : SameUse (k.tasks p) (f (k.tasks p))) : TableInv (k.updateTask p f) c live := by
  obtain ⟨hpid, hstate, hst, hprio, hcnt⟩ := hf
  have huse : (f (k.tasks p)).userStack = (k.tasks p).userStack := by
    rw [Task.userStack, Task.userStack, hstate, hst]
  have hslot := h.slotInv.updateTask huse hpid hprio hcnt
  refine ⟨hslot.toUseInv, hslot.pid, h.count, ?_, hslot.range⟩
  by_cases hp : TaskPtr.initTask = p
  · rw [hp, k.updateTask_self, hstate, ← hp]
    exact h.initRunning
  · rw [k.updateTask_ne _ _ _ hp]
    exact h.initRunning

theorem TaskInv.updateTask (h : TaskInv k c live) {f : Task → Task}
    (hf : SameUse (k.tasks p) (f (k.tasks p))) : TaskInv (k.updateTask p f) c live where
  toTableInv := h.toTableInv.updateTask hf
  current := by
    refine ⟨h.current.1, ?_⟩
    by_cases hp : k.current = p
    · rw [Kernel.updateTask_current, hp, k.updateTask_self, hf.2.1, ← hp]
      exact h.current.2
    · rw [Kernel.updateTask_current, k.updateTask_ne _ _ _ hp]
      exact h.current.2

/-! ## Scheduling -/

theorem OnlySched.pageOf (h : OnlySched k k') (q : TaskPtr) (r : Use) :
    pageOf k' q r = pageOf k q r := by
  cases r with
  | task => rfl
  | stack => rw [OsdiKernel.pageOf, OsdiKernel.pageOf, h.tasks q]; rfl

/-- The scheduler's fields are not in the invariant, but for their range. -/
theorem UseInv.onlySched (h : UseInv k c live) (ho : OnlySched k k') : UseInv k' c live where
  mm := by rw [ho.mm]; exact h.mm
  slots := by rw [ho.task]; exact h.slots
  init := by rw [ho.task]; exact h.init
  live := by
    intro q hq r b hb
    rw [ho.pageOf] at hb
    exact h.live q (ho.inTable.mp hq) r b hb
  once := by
    intro p q hp hq r s b hb hb'
    rw [ho.pageOf] at hb hb'
    exact h.once p q (ho.inTable.mp hp) (ho.inTable.mp hq) r s b hb hb'

theorem SlotInv.onlySched (h : SlotInv k c live) (ho : OnlySched k k') (hr : InRange k') :
    SlotInv k' c live where
  toUseInv := h.toUseInv.onlySched ho
  pid := by
    intro i q hq
    rw [ho.task] at hq
    rw [ho.tasks q]
    exact h.pid i q hq
  range := hr

theorem TableInv.onlySched (h : TableInv k c live) (ho : OnlySched k k') (hr : InRange k') :
    TableInv k' c live where
  toUseInv := h.toUseInv.onlySched ho
  pid := (h.slotInv.onlySched ho hr).pid
  count := by
    rw [ho.nrTasks, usedSlots, ho.task]
    exact h.count
  initRunning := by rw [ho.state]; exact h.initRunning
  range := hr

/-- **`schedule` returns** in a task that may run, with the table as it was. -/
theorem schedule_outcome (h : TableInv k c live) :
    ∃ k' p, schedule k = .ok k' ∧ Scheduled k k' p ∧ TaskInv k' c live := by
  obtain ⟨k', p, hrun, hs⟩ := schedule_spec h.range.rest h.initRunnable
  refine ⟨k', p, hrun, hs, h.onlySched hs.only hs.range, ?_⟩
  rw [hs.current, hs.runnable_iff]
  exact hs.runnable

end OsdiKernel
