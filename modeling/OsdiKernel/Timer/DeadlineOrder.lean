import OsdiKernel.Timer.TimersInv

/-!
# Events fire in the order of their deadlines

The list is searched by the seconds that are left, and those order the events as
their deadlines do, as long as the difference has not wrapped. The seconds left of
an event that is overdue are close to `2^64`, so a new event is put before it.

So the order is kept if no event is overdue when another one is added.
-/

namespace OsdiKernel

variable {s s' s₀ : Timers} {xs rest : List Nat} {live : List Live} {log : List Happening} {e : Nat} {t : UInt64}

/-- What may happen next. -/
inductive TimerOp where
  /-- Time passes. -/
  | wait (ticks : Nat)
  | addTimer (callback : Nat) (args : List UInt8) (duration : UInt64)
  /-- The timer's interrupt is taken, however late. -/
  | interrupt
  deriving DecidableEq, Repr

/-- Registrations and interrupts, each in one step. -/
def timerSystem : System Timers TimerOp Fault where
  legal := fun s op =>
    match op with
    | .wait ticks => s.timer.cntpct + ticks < 2 ^ 64
    | .addTimer _ _ _ => True
    | .interrupt => listEmpty s.links .timerList = false
  exec := fun s op =>
    match op with
    | .wait ticks => .ok { s with timer := { s.timer with cntpct := s.timer.cntpct + ticks } }
    | .addTimer callback args duration => addTimer s callback args duration
    | .interrupt => timerEventsIrqHandler s

instance (s : Timers) : ∀ op, Decidable (timerSystem.legal s op)
  | .wait _ => inferInstanceAs (Decidable (_ < _))
  | .addTimer _ _ _ => inferInstanceAs (Decidable True)
  | .interrupt => inferInstanceAs (Decidable (_ = _))

/-- Before the first registration. -/
structure TimersBoot (s : Timers) : Prop where
  mm : mmInit Mm.bss = .ok s.mm
  links : s.links = initListHead ⟨fun _ => none, fun _ => none⟩ .timerList
  flag : s.isTimerMultiplexingEventIRQ = 0
  log : s.log = []

/-- The events added and not yet fired. -/
def pendingIn (log : List Happening) : List Nat := (addedIn log).filter (fun e => e ∉ firedIn log)

/-- The message fits, and no pending event is overdue, unless by so much that the new one still comes after it. -/
def OnTime (s : Timers) : TimerOp → Prop
  | .addTimer _ args duration => args.length < argsRoom ∧
      ∀ e ∈ pendingIn s.log, (getSystemTime s.timer).toNat ≤ (s.events e).deadline ∨
        2 ^ 64 + (s.events e).deadline ≤ (getSystemTime s.timer).toNat + duration.toNat
  | _ => True

instance (s : Timers) : ∀ op, Decidable (OnTime s op)
  | .wait _ => inferInstanceAs (Decidable True)
  | .addTimer _ _ _ => inferInstanceAs (Decidable (_ ∧ ∀ e ∈ pendingIn s.log, _))
  | .interrupt => inferInstanceAs (Decidable True)

/-- `a` is due before `b`, or at the same time and was registered before it. -/
def Earlier (s : Timers) (a b : Nat) : Prop :=
  (s.events a).deadline < (s.events b).deadline ∨
    (s.events a).deadline = (s.events b).deadline ∧ [a, b].Sublist (addedIn s.log)

/-- No event was called back before a pending one with an earlier deadline. -/
def FiredInOrder (deadline : Nat → Nat) (log : List Happening) : Prop :=
  ∀ pre e t post, log = pre ++ .fired e t :: post → ∀ a ∈ addedIn pre, a ∉ firedIn pre → deadline e ≤ deadline a

/-- The list is in order, the events were fired in order, and none twice. -/
structure DeadlineOrder (s : Timers) : Prop where
  list : ∃ xs, OnList s xs ∧ xs.Pairwise (Earlier s) ∧ (addedIn s.log).Perm (firedIn s.log ++ xs)
  once : (addedIn s.log).Nodup
  fired : FiredInOrder (fun e => (s.events e).deadline) s.log

theorem TimersInv.mem_pending (h : TimersInv s xs live) (he : e ∈ xs) : e ∈ pendingIn s.log := by
  have hnd : (firedIn s.log ++ xs).Nodup := h.account.nodup_iff.mp h.once
  have hnot : e ∉ firedIn s.log := fun hf => (List.nodup_append.mp hnd).2.2 e hf e he rfl
  exact List.mem_filter.mpr ⟨h.mem_added he, by simpa using hnot⟩

/-- A kernel that has just started, with a timer that ticks once a second. -/
def timersStart (mm : Mm) : Timers where
  mm := mm
  links := initListHead ⟨fun _ => none, fun _ => none⟩ .timerList
  events := fun _ => ⟨0, 0, 0, 0, 0, []⟩
  isTimerMultiplexingEventIRQ := 0
  timer := ⟨1, 0, 0, true⟩
  beyond := 0
  log := []

/-- Run it. -/
def timersRun (S : System Timers TimerOp Fault) [∀ s op, Decidable (S.legal s op)] (ops : List TimerOp) :
    Option Timers :=
  match mmInit Mm.bss with
  | .ok mm => S.run (timersStart mm) ops
  | .error _ => none

theorem timersReach_of_run {S : System Timers TimerOp Fault} [∀ s op, Decidable (S.legal s op)]
    {ops : List TimerOp} (h : timersRun S ops = some s) : ∃ s₀, TimersBoot s₀ ∧ S.Reach s₀ s := by
  unfold timersRun at h
  cases hmm : mmInit Mm.bss with
  | error f =>
      rw [hmm] at h
      exact absurd h (by simp)
  | ok mm =>
      rw [hmm] at h
      exact ⟨timersStart mm, ⟨hmm, rfl, rfl, rfl⟩, System.Reach.of_run .init h⟩

/-! ## The log -/

namespace FiredInOrder

variable {deadline deadline' : Nat → Nat}

theorem added (h : FiredInOrder deadline log) : FiredInOrder deadline (log ++ [.added e]) := by
  intro pre a t post hlog
  rcases List.eq_nil_or_concat post with rfl | ⟨post', h', rfl⟩
  · exact absurd (List.append_inj_right' hlog rfl) (by simp)
  · rw [List.concat_eq_append, ← List.cons_append, ← List.append_assoc] at hlog
    exact h pre a t post' (List.append_inj_left' hlog rfl)

theorem fired (h : FiredInOrder deadline log)
    (hmin : ∀ a ∈ addedIn log, a ∉ firedIn log → deadline e ≤ deadline a) :
    FiredInOrder deadline (log ++ [.fired e t]) := by
  intro pre a t' post hlog
  rcases List.eq_nil_or_concat post with rfl | ⟨post', h', rfl⟩
  · obtain ⟨rfl, he⟩ := List.append_inj' hlog rfl
    obtain rfl : e = a := by simpa using (Happening.fired.inj (List.singleton_inj.mp he)).1
    exact hmin
  · rw [List.concat_eq_append, ← List.cons_append, ← List.append_assoc] at hlog
    exact h pre a t' post' (List.append_inj_left' hlog rfl)

/-- It is about the events of the log. -/
theorem congr (h : FiredInOrder deadline log) (hsub : ∀ a ∈ firedIn log, a ∈ addedIn log)
    (hd : ∀ a ∈ addedIn log, deadline' a = deadline a) : FiredInOrder deadline' log := by
  intro pre a t post hlog b hb hnot
  have ha : a ∈ firedIn log := by
    rw [hlog, firedIn, List.filterMap_append, List.filterMap_cons]
    exact List.mem_append_right _ (List.mem_cons_self ..)
  have hb' : b ∈ addedIn log := by
    rw [hlog, addedIn, List.filterMap_append]
    exact List.mem_append_left _ hb
  rw [hd a (hsub a ha), hd b hb']
  exact h pre a t post hlog b hb hnot

end FiredInOrder

/-! ## The order of the list -/

theorem Earlier.le {a b : Nat} (h : Earlier s a b) : (s.events a).deadline ≤ (s.events b).deadline := by
  rcases h with h | ⟨h, _⟩
  · exact Nat.le_of_lt h
  · exact Nat.le_of_eq h

/-- It is about deadlines, and who was added when. -/
theorem Earlier.congr {a b : Nat} (h : Earlier s a b) (ha : (s'.events a).deadline = (s.events a).deadline)
    (hb : (s'.events b).deadline = (s.events b).deadline) (hlog : (addedIn s.log).Sublist (addedIn s'.log)) :
    Earlier s' a b := by
  unfold Earlier at h ⊢
  rw [ha, hb]
  exact h.imp id (fun ⟨h1, h2⟩ => ⟨h1, h2.trans hlog⟩)

/-- An insertion keeps an order that the remaining times agree with. -/
theorem pairwise_insertEvent {R : Nat → Nat → Prop} (hp : xs.Pairwise R)
    (hbefore : ∀ y ∈ xs, ¬ (s.events e).remainingTime < (s.events y).remainingTime → R y e)
    (hafter : ∀ y ∈ xs, (s.events e).remainingTime < (s.events y).remainingTime → R e y ∧ ∀ z ∈ xs, R y z → R e z) :
    (insertEvent s e xs).Pairwise R := by
  induction xs with
  | nil => exact List.pairwise_singleton R e
  | cons y ys ih =>
      obtain ⟨hy, hys⟩ := List.pairwise_cons.mp hp
      by_cases hlt : (s.events e).remainingTime < (s.events y).remainingTime
      · obtain ⟨hey, hez⟩ := hafter y (List.mem_cons_self ..) hlt
        rw [insertEvent_cons hlt]
        refine List.pairwise_cons.mpr ⟨fun z hz => ?_, hp⟩
        rcases List.mem_cons.mp hz with rfl | hm
        · exact hey
        · exact hez z hz (hy z hm)
      · have hins : insertEvent s e (y :: ys) = y :: insertEvent s e ys := if_neg hlt
        rw [hins]
        refine List.pairwise_cons.mpr ⟨fun z hz => ?_, ih hys ?_ ?_⟩
        · rcases (List.mem_orderedInsert _).mp hz with rfl | hm
          · exact hbefore y (List.mem_cons_self ..) hlt
          · exact hy z hm
        · exact fun z hz => hbefore z (List.mem_cons_of_mem _ hz)
        · intro z hz hlt'
          obtain ⟨h1, h2⟩ := hafter z (List.mem_cons_of_mem _ hz) hlt'
          exact ⟨h1, fun w hw => h2 w (List.mem_cons_of_mem _ hw)⟩

/-! ## A run -/

/-- The list is in order, and so is what has happened. -/
def OrderInv (s : Timers) : Prop :=
  ∃ xs live, TimersInv s xs live ∧ xs.Pairwise (Earlier s) ∧ FiredInOrder (fun e => (s.events e).deadline) s.log

/-- The timer has no part in it. -/
theorem OrderInv.onTimer (h : OrderInv s) {c : CoreTimer} {flag : Int} (hc : getSystemTime c = getSystemTime s.timer) :
    OrderInv { s with timer := c, isTimerMultiplexingEventIRQ := flag } := by
  obtain ⟨xs, live, hinv, hord, hfired⟩ := h
  exact ⟨xs, live, hinv.onTimer hc, hord, hfired⟩

theorem orderInv_boot (h : TimersBoot s) : OrderInv s := by
  refine ⟨[], [], ⟨nothingFreed_init h.mm, ?_, ?_, ?_, ?_, fun e he => absurd he (by simp)⟩, List.Pairwise.nil, ?_⟩
  · show IsRing s.links .timerList []
    rw [h.links]
    exact IsRing.selfLoop _ _
  · simp [h.log, addedIn]
  · simp [h.log, addedIn]
  · simp [h.log, addedIn, firedIn]
  · intro pre e t post hlog
    rw [h.log] at hlog
    exact absurd hlog (by simp)

/-- **The interrupt** calls back an event with the earliest deadline. -/
theorem orderInv_interrupt (h : OrderInv s) (hl : listEmpty s.links .timerList = false)
    (hrun : timerEventsIrqHandler s = .ok s') : OrderInv s' := by
  obtain ⟨xs, live, hinv, hord, hfired⟩ := h
  cases xs with
  | nil =>
      have hself : listEmpty s.links .timerList = true := by
        unfold listEmpty
        rw [decide_eq_true_iff]
        exact (IsRing.next_self_iff hinv.holds).mpr rfl
      rw [hself] at hl
      exact absurd hl (by simp)
  | cons e rest =>
      obtain ⟨links, hrem, hok⟩ := timerEventsIrqHandler_spec hinv.holds hinv.length_lt
      have hinv' := hinv.fired hrem
      have hd : ∀ a, ((firedFirst s e rest links).events a).deadline = (s.events a).deadline :=
        fun a => updatedEvents_deadline a
      obtain ⟨hhead, hrest⟩ := List.pairwise_cons.mp hord
      have hord' : rest.Pairwise (Earlier (firedFirst s e rest links)) :=
        hrest.imp (fun hab => hab.congr (hd _) (hd _) (by simp [firedFirst]))
      have hfired' : FiredInOrder (fun a => ((firedFirst s e rest links).events a).deadline)
          (firedFirst s e rest links).log := by
        simp only [hd]
        refine hfired.fired (fun a ha hnot => ?_)
        rcases List.mem_append.mp (hinv.account.mem_iff.mp ha) with hm | hm
        · exact absurd hm hnot
        · rcases List.mem_cons.mp hm with rfl | hm
          · exact Nat.le_refl _
          · exact (hhead a hm).le
      have horder : OrderInv (firedFirst s e rest links) := ⟨rest, live, hinv', hord', hfired'⟩
      rw [hok] at hrun
      obtain rfl := Except.ok.inj hrun
      cases rest with
      | nil => exact horder.onTimer getSystemTime_disable
      | cons a rest => exact horder.onTimer getSystemTime_armTimer

/-- Where a new event belongs among those that are up to date. -/
theorem earlier_of_remaining {a : Nat} {now : UInt64} (ha : (s.events a).Timely t)
    (he : (s.events e).registerTime = now) (hd : (s.events e).remainingTime = (s.events e).duration)
    (hp : (s.events a).prevUpdatedTime = now) :
    (¬ (s.events e).remainingTime < (s.events a).remainingTime → (s.events a).deadline ≤ (s.events e).deadline) ∧
    ((s.events e).remainingTime < (s.events a).remainingTime →
      (now.toNat ≤ (s.events a).deadline ∨ 2 ^ 64 + (s.events a).deadline ≤ now.toNat + (s.events e).duration.toNat) →
      (s.events e).deadline < (s.events a).deadline) := by
  have hde : (s.events e).deadline = now.toNat + (s.events e).duration.toNat := by
    unfold TimerEvent.deadline
    rw [he]
  rw [hde, hd, UInt64.lt_iff_toNat_lt]
  rcases Nat.lt_or_ge (s.events a).deadline now.toNat with hover | hdue
  · have hrem := ha.remaining_overdue (hp ▸ hover)
    rw [hp] at hrem
    rw [hrem]
    exact ⟨fun _ => by omega, fun hlt hor => by omega⟩
  · have hrem := ha.remaining (hp ▸ hdue)
    rw [hp] at hrem
    rw [hrem]
    exact ⟨fun hnot => by omega, fun hlt _ => by omega⟩

/-- A new event is put where it belongs, if the others are up to date and none is overdue. -/
theorem orderInv_add (hinv : TimersInv s xs live) (hf : InFlight s live e t) (hord : xs.Pairwise (Earlier s))
    (hfired : FiredInOrder (fun a => (s.events a).deadline) s.log)
    (hprev : ∀ a ∈ xs, (s.events a).prevUpdatedTime = t)
    (hdue : ∀ a ∈ xs, t.toNat ≤ (s.events a).deadline ∨
      2 ^ 64 + (s.events a).deadline ≤ t.toNat + (s.events e).duration.toNat)
    (hrun : (do
      let s ← addNewTimerEvents s e
      setNextTimerEventInterrupt s) = .ok s') : OrderInv s' := by
  obtain ⟨links, hadd, hinv'⟩ := hinv.add hf
  have hplace : ∀ a ∈ xs, _ := fun a ha =>
    earlier_of_remaining (e := e) (hinv.timely a ha) hf.registerTime hf.remainingTime (hprev a ha)
  have hord' : (insertEvent s e xs).Pairwise (Earlier { s with links, log := s.log ++ [.added e] }) := by
    have hsub : (addedIn s.log).Sublist (addedIn (s.log ++ [.added e])) := by
      rw [addedIn_added]
      exact List.sublist_append_left _ _
    refine pairwise_insertEvent (hord.imp (fun hab => hab.congr rfl rfl hsub)) ?_ ?_
    · -- those before it are due no later, and were registered before
      intro y hy hnot
      rcases Nat.lt_or_eq_of_le ((hplace y hy).1 hnot) with hlt | heq
      · exact Or.inl hlt
      · refine Or.inr ⟨heq, ?_⟩
        rw [addedIn_added]
        exact (List.singleton_sublist.mpr (hinv.mem_added hy)).append_right [e]
    · intro y hy hlt
      have hey := (hplace y hy).2 hlt (hdue y hy)
      exact ⟨Or.inl hey, fun z _ hyz => Or.inl (Nat.lt_of_lt_of_le hey hyz.le)⟩
  obtain ⟨a, rest, hcons⟩ := insertEvent_eq_cons s e xs
  rw [hcons] at hinv' hord'
  have horder : OrderInv { s with links, log := s.log ++ [.added e] } :=
    ⟨a :: rest, live, hinv', hord', hfired.added⟩
  rw [hadd, ok_bind, setNextTimerEventInterrupt_spec hinv'.holds] at hrun
  obtain rfl := Except.ok.inj hrun
  exact horder.onTimer getSystemTime_armTimer

/-- **A registration** when no event is overdue. -/
theorem orderInv_addTimer (h : OrderInv s) {cb : Nat} {args : List UInt8} {d : UInt64}
    (hon : OnTime s (.addTimer cb args d)) (hrun : addTimer s cb args d = .ok s') : OrderInv s' := by
  obtain ⟨xs, live, hinv, hord, hfired⟩ := h
  unfold addTimer at hrun
  cases hnew : newTimerEvent s cb args d with
  | error f =>
      rw [hnew, error_bind] at hrun
      exact absurd hrun (by simp)
  | ok r =>
      obtain ⟨htime, live', hreg⟩ := hinv.newTimerEvent hnew
      obtain ⟨e, now, s₁⟩ := r
      rw [hnew, ok_bind] at hrun
      obtain rfl : now = getSystemTime s.timer := htime
      have hexs : e ∉ xs := hreg.inv.not_mem hreg.flight
      have hfresh : e ∉ addedIn s.log := hreg.log ▸ hreg.flight.fresh
      have hregistered : ∀ a ∈ xs, (s₁.events a).registerTime ≤ getSystemTime s.timer := by
        intro a ha
        have htimely := hreg.inv.timely a ha
        rw [hreg.timer] at htimely
        exact UInt64.le_trans htimely.registered htimely.past
      have hup := hreg.inv.update hregistered (by rw [hreg.timer]; exact UInt64.le_refl _)
      -- the deadlines of the events there were before are what they were
      have hold : ∀ a, a ≠ e →
          (updatedEvents s₁.events xs (getSystemTime s.timer) a).deadline = (s.events a).deadline := by
        intro a ha
        rw [updatedEvents_deadline, hreg.others a ha]
      have hnew : updatedEvents s₁.events xs (getSystemTime s.timer) e = s₁.events e := if_neg hexs
      have hne : ∀ a ∈ addedIn s.log, a ≠ e := fun a ha he => hfresh (he ▸ ha)
      have hlive : ∀ a ∈ xs, a ≠ e := fun a ha he => hexs (he ▸ ha)
      have hfiredAdded : ∀ a ∈ firedIn s.log, a ∈ addedIn s.log := fun a ha =>
        hinv.account.mem_iff.mpr (List.mem_append_left _ ha)
      simp only [updateTimerEvents_spec (s := { s₁ with isTimerMultiplexingEventIRQ := 1 }) hreg.inv.holds
        hreg.inv.length_lt, ok_bind] at hrun
      refine orderInv_add (t := getSystemTime s.timer) (hup.onTimer rfl)
        (hreg.flight.of_eq rfl rfl hnew (UInt64.le_refl _)) ?_ ?_ ?_ ?_ hrun
      · refine hord.imp_of_mem (fun ha hb hab => hab.congr (hold _ (hlive _ ha)) (hold _ (hlive _ hb)) ?_)
        show (addedIn s.log).Sublist (addedIn s₁.log)
        rw [hreg.log]
      · show FiredInOrder (fun a => (updatedEvents s₁.events xs (getSystemTime s.timer) a).deadline) s₁.log
        rw [hreg.log]
        exact hfired.congr hfiredAdded (fun a ha => hold a (hne a ha))
      · intro a ha
        show (updatedEvents s₁.events xs _ a).prevUpdatedTime = _
        rw [updatedEvents, if_pos ha]
        rfl
      · intro a ha
        show _ ≤ (updatedEvents s₁.events xs _ a).deadline ∨
          _ + (updatedEvents s₁.events xs _ a).deadline ≤ _ + (updatedEvents s₁.events xs _ e).duration.toNat
        rw [hold a (hlive a ha), hnew, hreg.duration]
        exact hon.2 a (hinv.mem_pending ha)

/-- **A step** in which no registration finds an event overdue. -/
theorem orderInv_step (h : OrderInv s) {op : TimerOp} (hl : (timerSystem.restrict OnTime).legal s op)
    (hrun : timerSystem.exec s op = .ok s') : OrderInv s' := by
  cases op with
  | wait ticks =>
      obtain ⟨xs, live, hinv, hord, hfired⟩ := h
      obtain rfl := Except.ok.inj hrun
      exact ⟨xs, live, hinv.later hl.1, hord, hfired⟩
  | addTimer callback args duration => exact orderInv_addTimer h hl.2 hrun
  | interrupt => exact orderInv_interrupt h hl.1 hrun

/--
**Events fire in the order of their deadlines**, those with the same deadline as
they were registered, and each once, in every run in which no event is overdue
when another is registered.
-/
theorem deadlineOrder_of_onTime (h₀ : TimersBoot s₀) (h : (timerSystem.restrict OnTime).Reach s₀ s) :
    DeadlineOrder s := by
  obtain ⟨xs, live, hinv, hord, hfired⟩ :=
    h.inv_ok (orderInv_boot h₀) (fun _ _ _ hs hl hrun => orderInv_step hs hl hrun)
  exact ⟨⟨xs, hinv.holds, hord, hinv.account⟩, hinv.once, hfired⟩

/-- Of two events the one that is due first is called back first, although it was registered second. -/
theorem deadlineOrder_of_onTime_two :
    ∃ s, s.log = [.added 0x200000, .added 0x200080, .fired 0x200080 3] ∧ DeadlineOrder s := by
  have hrun : (timersRun (timerSystem.restrict OnTime)
      [.addTimer 0 [97] 5, .addTimer 0 [98] 3, .wait 3, .interrupt]).map Timers.log
      = some [.added 0x200000, .added 0x200080, .fired 0x200080 3] := by decide +kernel
  obtain ⟨s, hs, hlog⟩ := Option.map_eq_some_iff.mp hrun
  obtain ⟨s₀, h₀, hr⟩ := timersReach_of_run hs
  exact ⟨s, hlog, deadlineOrder_of_onTime h₀ hr⟩

/-- An event that is four seconds overdue waits for one registered now, for ten seconds. -/
theorem not_deadlineOrder : ¬ ∀ s₀ s, TimersBoot s₀ → timerSystem.Reach s₀ s → DeadlineOrder s := by
  intro hall
  have hrun : (timersRun timerSystem [.addTimer 0 [97] 1, .wait 5, .addTimer 0 [98] 10, .interrupt]).map
      (fun s => (s.log, (s.events 0x200000).deadline, (s.events 0x200080).deadline))
      = some ([.added 0x200000, .added 0x200080, .fired 0x200080 5], 1, 15) := by decide +kernel
  obtain ⟨s, hs, he⟩ := Option.map_eq_some_iff.mp hrun
  simp only [Prod.mk.injEq] at he
  obtain ⟨hlog, hfirst, hsecond⟩ := he
  obtain ⟨s₀, h₀, hr⟩ := timersReach_of_run hs
  have hle := (hall s₀ s h₀ hr).fired [.added 0x200000, .added 0x200080] 0x200080 5 [] hlog 0x200000
    (by decide) (by decide)
  simp only [hfirst, hsecond] at hle
  omega

end OsdiKernel
