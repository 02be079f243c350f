import OsdiKernel.Sched.Calls
import OsdiKernel.Wait.Wait

/-!
# The wait queues' invariant

The queues, the tasks and the pages are tied together by the entries: an entry
names a task in the table that waits, it lies on that task's kernel stack, and
every task that waits has one. So the page an entry lies in is live as long as
its task is in the table, and a task that does not wait has no entry to lose.
-/

namespace OsdiKernel

/-- The heads of wait queues. -/
def IsWaitHead (x : WaitNode) : Prop := ∃ q, x = .head q

/-- What the rings hold, when the entries on queue `q` are `queue q`. -/
def onQueues (queue : Nat → List Nat) : WaitNode → List WaitNode
  | .head q => (queue q).map .entry
  | .entry _ => []

/-- The queues, between two steps of the kernel: `queue` is what is on them. -/
structure QueueInv (w : WaitState) (queue : Nat → List Nat) (c : Link → List Nat) (live : List Live) : Prop where
  slot : SlotInv w.k c live
  current : InTable w.k w.k.current
  /-- `init_task` never has a user stack. -/
  initStack : (w.k.tasks .initTask).stack = 0
  rings : Rings w.links IsWaitHead (onQueues queue)
  /-- An entry is that of a task that waits, and lies on its stack. -/
  queued : ∀ q, ∀ e ∈ queue q, InTable w.k (w.privateTask e) ∧ (w.k.tasks (w.privateTask e)).state = .waiting ∧
    OnKernelStack (w.privateTask e) e waitQueueEntrySize
  /-- No task has two. -/
  once : ∀ q q' e e', e ∈ queue q → e' ∈ queue q' → w.privateTask e = w.privateTask e' → q = q' ∧ e = e'
  /-- A task that waits has one. -/
  asleep : ∀ p, InTable w.k p → (w.k.tasks p).state = .waiting → ∃ q, ∃ e ∈ queue q, w.privateTask e = p

/-- And whoever runs does not wait. Only `init_task` can run otherwise than as `TASK_RUNNING`. -/
structure WaitInv (w : WaitState) (queue : Nat → List Nat) (c : Link → List Nat) (live : List Live) : Prop
    extends QueueInv w queue c live where
  awake : w.k.cur.state = .running ∨ (w.k.current = .initTask ∧ w.k.cur.state ≠ .waiting)

variable {w w' : WaitState} {k k' : Kernel} {queue : Nat → List Nat} {c c' : Link → List Nat}
  {live live' : List Live} {p : TaskPtr} {q e addr size size' : Nat} {es : List Nat}

/-! ## What is on the queues -/

theorem entry_injective : Function.Injective WaitNode.entry := fun _ _ h => WaitNode.entry.inj h

theorem mem_onQueues : WaitNode.entry e ∈ onQueues queue (.head q) ↔ e ∈ queue q :=
  List.mem_map_of_injective entry_injective

/-- Who is on a queue after `e` was queued on `q`. -/
theorem mem_queuedUp {q' e' : Nat} (h : e' ∈ Function.update queue q (queue q ++ [e]) q') :
    e' ∈ queue q' ∨ (q' = q ∧ e' = e) := by
  by_cases hq : q' = q
  · subst hq
    rw [Function.update_self, List.mem_append, List.mem_singleton] at h
    exact h.imp id (fun he => ⟨rfl, he⟩)
  · rw [Function.update_of_ne hq] at h
    exact Or.inl h

theorem mem_queuedUp_of_mem {q' e' : Nat} (h : e' ∈ queue q') :
    e' ∈ Function.update queue q (queue q ++ [e]) q' := by
  by_cases hq : q' = q
  · subst hq
    rw [Function.update_self]
    exact List.mem_append_left _ h
  · rwa [Function.update_of_ne hq]

theorem onQueues_update : onQueues (Function.update queue q es) =
    Function.update (onQueues queue) (.head q) (es.map .entry) := by
  funext x
  cases x with
  | head r =>
      by_cases hr : r = q
      · subst hr
        simp [onQueues]
      · have hne : WaitNode.head r ≠ .head q := fun he => hr (WaitNode.head.inj he)
        rw [Function.update_of_ne hne, onQueues, onQueues, Function.update_of_ne hr]
  | entry a => rw [Function.update_of_ne (by simp), onQueues, onQueues]

/-- An entry on no queue. -/
theorem loose_entry (h : ∀ q, e ∉ queue q) : Loose IsWaitHead (onQueues queue) (.entry e) := by
  refine ⟨fun hh => ?_, fun x hx hm => ?_⟩
  · obtain ⟨q, he⟩ := hh
    exact WaitNode.noConfusion he
  · obtain ⟨q, rfl⟩ := hx
    exact h q (mem_onQueues.mp hm)

/-- Before anybody waits. -/
theorem rings_waitQueueHeads : Rings waitQueueHeads IsWaitHead (onQueues fun _ => []) := by
  refine ⟨fun x hx => ?_, fun x hx y hy => ?_, fun x x' hx _ y hy _ => ?_⟩
  · obtain ⟨q, rfl⟩ := hx
    exact ⟨by simp [onQueues], by simp [onQueues, Links.Linked, waitQueueHeads]⟩
  · obtain ⟨q, rfl⟩ := hx
    exact absurd hy (by simp [onQueues])
  · obtain ⟨q, rfl⟩ := hx
    exact absurd hy (by simp [onQueues])

/-! ## What `wait` and `wake_up` do to a queue -/

/-- **`wait`'s local joins the queue**, wherever it was before. -/
theorem queueUp_spec (h : Rings w.links IsWaitHead (onQueues queue)) (hfresh : ∀ q, e ∉ queue q) (q : Nat)
    (tsk : TaskPtr) :
    ∃ links, addWaitQueueEntryTail (declareWaitqueue w e tsk).links q e = .ok links ∧
      Rings links IsWaitHead (onQueues (Function.update queue q (queue q ++ [e]))) := by
  have hloose := loose_entry hfresh
  have hrings : Rings (declareWaitqueue w e tsk).links IsWaitHead (onQueues queue) := by
    refine h.congr (fun x hx => ?_)
    have hne : x ≠ .entry e := fun he => hx (he ▸ hloose)
    exact ⟨Function.update_of_ne hne _ _, Function.update_of_ne hne _ _⟩
  obtain ⟨l, hl, hrings', _⟩ := listAddTail_spec hrings ⟨q, rfl⟩ hloose
  refine ⟨l, hl, ?_⟩
  rw [onQueues_update, List.map_append]
  exact hrings'

/-- These tasks have been set running. -/
def wake (k : Kernel) (ps : List TaskPtr) : Kernel :=
  ps.foldl (fun k p => k.updateTask p (fun t => { t with state := .running })) k

section Wake

variable (k : Kernel) (ps ps' : List TaskPtr)

theorem wake_append : wake k (ps ++ ps') = wake (wake k ps) ps' := List.foldl_append

@[simp] theorem wake_task : (wake k ps).task = k.task := by
  induction ps generalizing k with
  | nil => rfl
  | cons p ps ih => exact ih _

@[simp] theorem wake_current : (wake k ps).current = k.current := by
  induction ps generalizing k with
  | nil => rfl
  | cons p ps ih => exact ih _

/-- Nothing but tasks is written. -/
theorem wake_eq : wake k ps = { k with tasks := (wake k ps).tasks } := by
  induction ps generalizing k with
  | nil => rfl
  | cons p ps ih => exact ih _

theorem wake_tasks (p : TaskPtr) :
    (wake k ps).tasks p = if p ∈ ps then { k.tasks p with state := .running } else k.tasks p := by
  induction ps generalizing k with
  | nil => rfl
  | cons q ps ih =>
      rw [show wake k (q :: ps) = wake (k.updateTask q (fun t => { t with state := .running })) ps from rfl, ih]
      by_cases hpq : p = q
      · subst hpq
        rw [k.updateTask_self, if_pos List.mem_cons_self]
        split <;> rfl
      · rw [k.updateTask_ne q p _ hpq]
        simp only [List.mem_cons, hpq, false_or]

theorem wake_state (p : TaskPtr) :
    ((wake k ps).tasks p).state = if p ∈ ps then .running else (k.tasks p).state := by
  rw [wake_tasks]
  split <;> rfl

theorem wake_stack (p : TaskPtr) : ((wake k ps).tasks p).stack = (k.tasks p).stack := by
  rw [wake_tasks]
  split <;> rfl

theorem wake_priority (p : TaskPtr) : ((wake k ps).tasks p).priority = (k.tasks p).priority := by
  rw [wake_tasks]
  split <;> rfl

theorem wake_counter (p : TaskPtr) : ((wake k ps).tasks p).counter = (k.tasks p).counter := by
  rw [wake_tasks]
  split <;> rfl

theorem wake_inTable {p : TaskPtr} : InTable (wake k ps) p ↔ InTable k p := by
  unfold InTable
  rw [wake_task]

end Wake

/-- **One turn of `wake_up`** takes the first entry off, and wakes its task. -/
theorem wakeEntry_spec (h : Rings w.links IsWaitHead (onQueues queue)) (hq : queue q = e :: es) :
    ∃ links, OsdiKernel.wakeEntry (.entry e) w =
        .ok (true, { w with k := wake w.k [w.privateTask e], links }) ∧
      links.next (.entry e) = some ((es.map WaitNode.entry).headD (.head q)) ∧
      Rings links IsWaitHead (onQueues (Function.update queue q es)) := by
  have hring : IsRing w.links (.head q) (WaitNode.entry e :: es.map .entry) := by
    have := h.ring (.head q) ⟨q, rfl⟩
    rw [onQueues, hq, List.map_cons] at this
    exact this
  have hmem : WaitNode.entry e ∈ onQueues queue (.head q) := mem_onQueues.mpr (by rw [hq]; exact List.mem_cons_self)
  obtain ⟨a, b, ha, hb, hrings, _⟩ := h.bypass ⟨q, rfl⟩ hmem
  have hnext : w.links.next (.entry e) = some ((es.map WaitNode.entry).headD (.head q)) :=
    IsRing.next_mid (show IsRing w.links (.head q) ([] ++ WaitNode.entry e :: es.map .entry) from hring)
  -- what follows the entry is still written in it, as only its neighbours were changed
  have hae : a = .head q := by
    have hchain := hring.chain
    rw [List.cons_append, List.isChain_cons_cons] at hchain
    exact Option.some.inj (ha.symm.trans hchain.1.2)
  have hne : WaitNode.entry e ≠ a := by
    rw [hae]
    exact nofun
  refine ⟨w.links.bypass a b, ?_, ?_, ?_⟩
  · have hdel : removeWaitQueue w.links e = .ok (w.links.bypass a b) := by
      rw [removeWaitQueue, listDel, ha, hb]
    rw [OsdiKernel.wakeEntry, hdel, ok_bind]
    rfl
  · show Function.update w.links.next a (some b) (.entry e) = _
    rw [Function.update_of_ne hne]
    exact hnext
  · have herase : (onQueues queue (.head q)).erase (.entry e) = es.map .entry := by
      rw [onQueues, hq, List.map_cons, List.erase_cons_head]
    rw [herase] at hrings
    rw [onQueues_update]
    exact hrings

/-- **`wake_up`** empties the queue, and sets everybody who was on it running. -/
theorem wakeUp_spec (h : Rings w.links IsWaitHead (onQueues queue)) (hlen : (queue q).length < 2 ^ 64) :
    ∃ links, OsdiKernel.wakeUp w q = .ok { w with k := wake w.k ((queue q).map w.privateTask), links } ∧
      Rings links IsWaitHead (onQueues (Function.update queue q [])) := by
  -- with the entries `ns` still to come, those before them are off the queue and their tasks woken
  let P : List WaitNode → WaitState → Prop := fun ns w' => ∃ done es links, queue q = done ++ es ∧
    ns = es.map .entry ∧ w' = { w with k := wake w.k (done.map w.privateTask), links } ∧
    Rings links IsWaitHead (onQueues (Function.update queue q es))
  let Q : WaitState → Prop := fun w' => ∃ links,
    w' = { w with k := wake w.k ((queue q).map w.privateTask), links } ∧
    Rings links IsWaitHead (onQueues (Function.update queue q []))
  have hend : ∀ w', P [] w' → Q w' := by
    intro w' hP
    obtain ⟨done, es, links, hsplit, hes, hw', hrings⟩ := hP
    rw [List.map_eq_nil_iff.mp hes.symm] at hsplit hrings
    rw [List.append_nil] at hsplit
    exact ⟨links, by rw [hw', hsplit], hrings⟩
  have hbody : ∀ x xs w', P (x :: xs) w' → x ≠ .head q ∧
      ((∃ w'', OsdiKernel.wakeEntry x w' = .ok (true, w'') ∧ w''.links.next x = some (xs.headD (.head q)) ∧ P xs w'') ∨
        ∃ w'', OsdiKernel.wakeEntry x w' = .ok (false, w'') ∧ Q w'') := by
    intro x xs w' hP
    obtain ⟨done, es, links, hsplit, hes, hw', hrings⟩ := hP
    cases es with
    | nil => exact absurd hes (by simp)
    | cons e es =>
        rw [List.map_cons] at hes
        obtain ⟨rfl, rfl⟩ := List.cons.inj hes
        subst hw'
        obtain ⟨links', hrun, hnext, hrings'⟩ := wakeEntry_spec
          (w := { w with k := wake w.k (done.map w.privateTask), links }) hrings (Function.update_self q (e :: es) queue)
        rw [Function.update_idem] at hrings'
        refine ⟨nofun, Or.inl ⟨_, hrun, hnext, done ++ [e], es, links', ?_, rfl, ?_, hrings'⟩⟩
        · rw [hsplit, List.append_assoc, List.singleton_append]
        · rw [List.map_append, wake_append]
          rfl
  have hring := h.ring (.head q) ⟨q, rfl⟩
  have hP₀ : P (onQueues queue (.head q)) w :=
    ⟨[], queue q, w.links, rfl, rfl, rfl, by rw [Function.update_eq_self]; exact h⟩
  obtain ⟨w', hrun, links, hw', hrings⟩ :=
    listForEach_spec hend hbody hring.next_head (by rw [onQueues, List.length_map]; exact hlen) hP₀
  exact ⟨links, hw' ▸ hrun, hrings⟩

/-! ## Stacks -/

/-- The pages of the tasks in the table are frames. -/
def Framed (k : Kernel) : Prop := ∀ a, InTable k (.page a) → ∃ f, a = frameAddr f

theorem UseInv.framed (h : UseInv k c live) : Framed k := by
  intro a hp
  obtain ⟨f, _, hf, _⟩ := h.mm.slab.pageAllocated (h.live _ hp .task a rfl)
  exact ⟨f, hf⟩

/-- Two tasks have no stack in common. -/
theorem Framed.stack_unique (h : Framed k) {p p' : TaskPtr} (hp : InTable k p) (hp' : InTable k p')
    (hs : OnKernelStack p addr size) (hs' : OnKernelStack p' addr size') : p = p' := by
  cases p with
  | initTask =>
      cases p' with
      | initTask => rfl
      | page b =>
          obtain ⟨g, hg⟩ := h _ hp'
          have h1 : addr + size ≤ startAddr := hs
          have h2 : b + taskStructSize ≤ addr := hs'.1
          unfold startAddr at h1
          unfold frameAddr lowMemory at hg
          omega
  | page a =>
      obtain ⟨f, hf⟩ := h _ hp
      have h1 : a + taskStructSize ≤ addr := hs.1
      have h2 : addr + size ≤ taskPtRegs a := hs.2
      unfold frameAddr lowMemory pageSize at hf
      unfold taskPtRegs at h2
      cases p' with
      | initTask =>
          have h3 : addr + size' ≤ startAddr := hs'
          unfold startAddr at h3
          omega
      | page b =>
          obtain ⟨g, hg⟩ := h _ hp'
          have h3 : b + taskStructSize ≤ addr := hs'.1
          have h4 : addr + size' ≤ taskPtRegs b := hs'.2
          unfold frameAddr lowMemory pageSize at hg
          unfold taskPtRegs at h4
          have hab : a = b := by omega
          rw [hab]

namespace QueueInv

/-- Each entry on a queue has a task of its own, so there are at most 64. -/
theorem length_le (h : QueueInv w queue c live) (q : Nat) : (queue q).length ≤ taskSlots := by
  let slotOf : Nat → Nat := fun e => (w.k.tasks (w.privateTask e)).pid.toNat
  have hslot : ∀ e ∈ queue q, slotOf e < taskSlots ∧ w.k.task (slotOf e) = some (w.privateTask e) := by
    intro e he
    obtain ⟨i, hi, ht⟩ := (h.queued q e he).1
    have hpid : slotOf e = i := by
      show (w.k.tasks (w.privateTask e)).pid.toNat = i
      rw [h.slot.pid i _ ht, Int.toNat_natCast]
    rw [hpid]
    exact ⟨hi, ht⟩
  have hnodup : (queue q).Nodup :=
    List.Nodup.of_map WaitNode.entry (List.nodup_cons.mp (h.rings.ring (.head q) ⟨q, rfl⟩).nodup).2
  have hmap : ((queue q).map slotOf).Nodup := by
    refine hnodup.map_on (fun e he e' he' hee => ?_)
    refine (h.once q q e e' he he' ?_).2
    have h1 := (hslot e he).2
    rw [hee, (hslot e' he').2] at h1
    exact (Option.some.inj h1).symm
  have hsub : ((queue q).map slotOf).toFinset ⊆ Finset.range taskSlots := by
    intro i hi
    obtain ⟨e, he, rfl⟩ := List.mem_map.mp (List.mem_toFinset.mp hi)
    exact Finset.mem_range.mpr (hslot e he).1
  have hcard := Finset.card_le_card hsub
  rwa [List.toFinset_card_of_nodup hmap, List.length_map, Finset.card_range] at hcard

/-- **Another kernel**, in which the same tasks wait. -/
theorem kernel (h : QueueInv w queue c live) (hslot : SlotInv k' c' live') (hcur : InTable k' k'.current)
    (hinit : (k'.tasks .initTask).stack = 0)
    (hwaiting : ∀ p, (InTable k' p ∧ (k'.tasks p).state = .waiting) ↔
      (InTable w.k p ∧ (w.k.tasks p).state = .waiting)) : QueueInv { w with k := k' } queue c' live' where
  slot := hslot
  current := hcur
  initStack := hinit
  rings := h.rings
  queued := by
    intro q e he
    obtain ⟨h1, h2, h3⟩ := h.queued q e he
    obtain ⟨h1', h2'⟩ := (hwaiting _).mpr ⟨h1, h2⟩
    exact ⟨h1', h2', h3⟩
  once := h.once
  asleep := by
    intro p hp hs
    obtain ⟨h1, h2⟩ := (hwaiting p).mp ⟨hp, hs⟩
    exact h.asleep p h1 h2

/-- The scheduler puts nobody to sleep. -/
theorem onlySched (h : QueueInv w queue c live) (ho : OnlySched w.k k') (hr : InRange k')
    (hcur : InTable k' k'.current) : QueueInv { w with k := k' } queue c live := by
  refine h.kernel (h.slot.onlySched ho hr) hcur ?_ (fun p => ?_)
  · rw [ho.tasks]
    exact h.initStack
  · rw [ho.inTable, ho.state]

/-- **`schedule`**, where it does not go to a task that waits. -/
theorem schedule (h : QueueInv w queue c live)
    (hgo : (∃ p, Runnable w.k p) ∨ (w.k.tasks .initTask).state ≠ .waiting) :
    ∃ k', OsdiKernel.schedule w.k = .ok k' ∧ WaitInv { w with k := k' } queue c live := by
  obtain ⟨k', p, hrun, hres⟩ := schedule_total h.slot.range.rest h.slot.init
  have hp : InTable w.k p := by
    rcases hres.choice with hp | ⟨_, hp⟩
    · exact hp.1
    · exact h.slot.inTable hp
  have hcur : InTable k' k'.current := by
    rw [hres.current, hres.only.inTable]
    exact hp
  refine ⟨k', hrun, h.onlySched hres.only hres.range hcur, ?_⟩
  show (k'.tasks k'.current).state = .running ∨ (k'.current = .initTask ∧ (k'.tasks k'.current).state ≠ .waiting)
  rw [hres.current, hres.only.state]
  rcases hres.choice with hp | ⟨hno, hp⟩
  · exact Or.inl hp.2
  · obtain rfl : TaskPtr.initTask = p := Option.some.inj (h.slot.init.symm.trans hp)
    refine Or.inr ⟨rfl, ?_⟩
    rcases hgo with ⟨r, hr⟩ | hgo
    · exact absurd hr (hno r)
    · exact hgo

end QueueInv

namespace WaitInv

theorem not_waiting (h : WaitInv w queue c live) : w.k.cur.state ≠ .waiting := by
  rcases h.awake with hr | ⟨_, hr⟩
  · rw [hr]
    exact nofun
  · exact hr

/-- Who runs is alive, or has no stack: it keeps its pages when it goes to sleep. -/
theorem userStack_waiting (h : WaitInv w queue c live) :
    ({ w.k.cur with state := .waiting } : Task).userStack = w.k.cur.userStack := by
  unfold Task.userStack
  rcases h.awake with hr | ⟨hi, _⟩
  · rw [hr]
    simp
  · have hz : w.k.cur.stack = 0 := by
      rw [Kernel.cur, hi]
      exact h.initStack
    simp [hz]

/-- No entry on a queue is that of the task that runs. -/
theorem queued_other (h : WaitInv w queue c live) (he : e ∈ queue q) : w.privateTask e ≠ w.k.current := by
  intro hp
  have hwait := (h.queued q e he).2.1
  rw [hp] at hwait
  exact h.not_waiting hwait

/-- Whoever runs has no entry, so its locals are on no queue. -/
theorem local_loose (h : WaitInv w queue c live) (hs : OnKernelStack w.k.current e size) (q : Nat) : e ∉ queue q := by
  intro he
  obtain ⟨hin, hwait, hstack⟩ := h.queued q e he
  rw [h.slot.framed.stack_unique hin h.current hstack hs] at hwait
  exact h.not_waiting hwait

end WaitInv

/-! ## Going to sleep -/

/-- **Before it calls `schedule`, `wait`** has queued the caller. -/
theorem WaitInv.goToSleep (h : WaitInv w queue c live) (wqHead : Nat) {waitingTask : Nat}
    (hs : OnKernelStack w.k.current waitingTask waitQueueEntrySize) :
    ∃ w', OsdiKernel.goToSleep w wqHead waitingTask = .ok w' ∧
      w'.k = w.k.updateTask w.k.current (fun t => { t with state := .waiting }) ∧
      QueueInv w' (Function.update queue wqHead (queue wqHead ++ [waitingTask])) c live := by
  have hfresh := h.local_loose hs
  let k₁ : Kernel := w.k.updateTask w.k.current (fun t => { t with state := .waiting })
  let w₁ : WaitState := declareWaitqueue { w with k := k₁ } waitingTask w.k.current
  have hrings : Rings ({ w with k := k₁ } : WaitState).links IsWaitHead (onQueues queue) := h.rings
  obtain ⟨l, hl, hrings'⟩ := queueUp_spec hrings hfresh wqHead w.k.current
  refine ⟨{ w₁ with links := l }, ?_, rfl, ?_⟩
  · have hadd : addWaitQueueEntryTail w₁.links wqHead waitingTask = .ok l := hl
    unfold OsdiKernel.goToSleep
    exact congrArg (· >>= fun links => Except.ok { w₁ with links }) hadd
  have hstate : ∀ p, (k₁.tasks p).state = if p = w.k.current then .waiting else (w.k.tasks p).state := by
    intro p
    by_cases hp : p = w.k.current
    · subst hp
      simp [k₁]
    · rw [w.k.updateTask_ne _ p _ hp, if_neg hp]
  have hpriv : ∀ e, e ≠ waitingTask → w₁.privateTask e = w.privateTask e := fun e he => Function.update_of_ne he _ _
  have hself : w₁.privateTask waitingTask = w.k.current := Function.update_self ..
  have hold : ∀ q e, e ∈ queue q → e ≠ waitingTask := fun q e he hee => hfresh q (hee ▸ he)
  have hother : ∀ q e, e ∈ queue q → w.privateTask e ≠ w.k.current := fun q e he => h.queued_other he
  have hslot : SlotInv k₁ c live := h.slot.updateTask h.userStack_waiting rfl rfl rfl
  refine ⟨hslot, h.current, ?_, ?_, ?_, ?_, ?_⟩
  · show (k₁.tasks .initTask).stack = 0
    by_cases hi : TaskPtr.initTask = w.k.current
    · rw [hi, w.k.updateTask_self, ← hi]
      exact h.initStack
    · rw [w.k.updateTask_ne _ _ _ hi]
      exact h.initStack
  · exact hrings'
  · intro q e he
    rcases mem_queuedUp he with he | ⟨_, rfl⟩
    · obtain ⟨h1, h2, h3⟩ := h.queued q e he
      show InTable k₁ (w₁.privateTask e) ∧ (k₁.tasks (w₁.privateTask e)).state = .waiting ∧ _
      rw [hpriv e (hold q e he), hstate, if_neg (hother q e he)]
      exact ⟨h1, h2, h3⟩
    · show InTable k₁ (w₁.privateTask e) ∧ (k₁.tasks (w₁.privateTask e)).state = .waiting ∧ _
      rw [hself, hstate, if_pos rfl]
      exact ⟨h.current, rfl, hs⟩
  · intro q q' e e' he he' hp
    have hp' : w₁.privateTask e = w₁.privateTask e' := hp
    rcases mem_queuedUp he with he | ⟨hq, hee⟩
    · rcases mem_queuedUp he' with he' | ⟨_, hee'⟩
      · rw [hpriv e (hold q e he), hpriv e' (hold q' e' he')] at hp'
        exact h.once q q' e e' he he' hp'
      · rw [hpriv e (hold q e he), hee', hself] at hp'
        exact absurd hp' (hother q e he)
    · rcases mem_queuedUp he' with he' | ⟨hq', hee'⟩
      · rw [hpriv e' (hold q' e' he'), hee, hself] at hp'
        exact absurd hp'.symm (hother q' e' he')
      · exact ⟨hq.trans hq'.symm, hee.trans hee'.symm⟩
  · intro p hp hs'
    have hs'' : (k₁.tasks p).state = .waiting := hs'
    rw [hstate] at hs''
    by_cases hpc : p = w.k.current
    · exact ⟨wqHead, waitingTask, by rw [Function.update_self]; simp, hpc ▸ hself⟩
    · rw [if_neg hpc] at hs''
      obtain ⟨q, e, he, hpe⟩ := h.asleep p hp hs''
      exact ⟨q, e, mem_queuedUp_of_mem he, (hpriv e (hold q e he)).trans hpe⟩

/-! ## Waking up -/

/-- Who is woken was not dead. -/
theorem SlotInv.wake {ps : List TaskPtr} (h : SlotInv k c live) (hps : ∀ p ∈ ps, (k.tasks p).state ≠ .zombie) :
    SlotInv (wake k ps) c live := by
  induction ps generalizing k with
  | nil => exact h
  | cons p ps ih =>
      have huse : ({ k.tasks p with state := .running } : Task).userStack = (k.tasks p).userStack := by
        unfold Task.userStack
        have hp := hps p List.mem_cons_self
        simp [hp]
      refine ih (h.updateTask huse rfl rfl rfl) (fun q hq => ?_)
      by_cases hqp : q = p
      · subst hqp
        rw [k.updateTask_self]
        exact nofun
      · rw [k.updateTask_ne p q _ hqp]
        exact hps q (List.mem_cons_of_mem _ hq)

/-- **`wake_up`** empties the queue, and writes to no task that is not in the table. -/
theorem WaitInv.wakeUp (h : WaitInv w queue c live) (q : Nat) :
    ∃ w', OsdiKernel.wakeUp w q = .ok w' ∧ WaitInv w' (Function.update queue q []) c live ∧
      ∀ p, ¬ InTable w.k p → w'.k.tasks p = w.k.tasks p := by
  obtain ⟨links, hrun, hrings⟩ := wakeUp_spec h.rings (lt_of_le_of_lt (h.length_le q) (by decide))
  generalize hps : (queue q).map w.privateTask = ps at hrun
  have hwoken : ∀ p, p ∈ ps ↔ ∃ e ∈ queue q, w.privateTask e = p := by
    intro p
    rw [← hps, List.mem_map]
  have hstate := wake_state w.k ps
  have hin : ∀ p, InTable (wake w.k ps) p ↔ InTable w.k p := fun p => wake_inTable ..
  -- an entry still on a queue is on another, and its task has not been woken
  have hleft : ∀ q' e', e' ∈ Function.update queue q [] q' → e' ∈ queue q' ∧ w.privateTask e' ∉ ps := by
    intro q' e' he'
    by_cases hqq : q' = q
    · subst hqq
      rw [Function.update_self] at he'
      exact absurd he' (by simp)
    · rw [Function.update_of_ne hqq] at he'
      refine ⟨he', fun hp => ?_⟩
      obtain ⟨e, he, hpe⟩ := (hwoken _).mp hp
      exact hqq (h.once q' q e' e he' he hpe.symm).1
  have hslot : SlotInv (OsdiKernel.wake w.k ps) c live := by
    refine h.slot.wake (fun p hp => ?_)
    obtain ⟨e, he, rfl⟩ := (hwoken p).mp hp
    rw [(h.queued q e he).2.1]
    exact nofun
  refine ⟨_, hrun, ⟨⟨hslot, ?_, (wake_stack ..).trans h.initStack, hrings, ?_, ?_, ?_⟩, ?_⟩, ?_⟩
  · rw [wake_current, hin]
    exact h.current
  · intro q' e' he'
    obtain ⟨hm, hp⟩ := hleft q' e' he'
    obtain ⟨h1, h2, h3⟩ := h.queued q' e' hm
    refine ⟨(hin _).mpr h1, ?_, h3⟩
    show ((wake w.k ps).tasks (w.privateTask e')).state = .waiting
    rw [hstate, if_neg hp]
    exact h2
  · exact fun q₁ q₂ e₁ e₂ h₁ h₂ hp => h.once q₁ q₂ e₁ e₂ (hleft q₁ e₁ h₁).1 (hleft q₂ e₂ h₂).1 hp
  · intro p hp hs
    have hs' : ((wake w.k ps).tasks p).state = .waiting := hs
    rw [hstate] at hs'
    by_cases hpe : p ∈ ps
    · rw [if_pos hpe] at hs'
      exact TaskState.noConfusion hs'
    · rw [if_neg hpe] at hs'
      obtain ⟨q', e', he', hpe'⟩ := h.asleep p ((hin p).mp hp) hs'
      refine ⟨q', e', ?_, hpe'⟩
      have hqq : q' ≠ q := fun hqq => hpe ((hwoken p).mpr ⟨e', hqq ▸ he', hpe'⟩)
      rwa [Function.update_of_ne hqq]
  · show ((wake w.k ps).tasks (wake w.k ps).current).state = .running ∨
      ((wake w.k ps).current = .initTask ∧ ((wake w.k ps).tasks (wake w.k ps).current).state ≠ .waiting)
    rw [wake_current, hstate]
    by_cases hc : w.k.current ∈ ps
    · rw [if_pos hc]
      exact Or.inl rfl
    · rw [if_neg hc]
      exact h.awake
  · intro p hp
    show (wake w.k ps).tasks p = _
    rw [wake_tasks, if_neg (fun hm => ?_)]
    obtain ⟨e, he, rfl⟩ := (hwoken p).mp hm
    exact hp (h.queued q e he).1

end OsdiKernel
