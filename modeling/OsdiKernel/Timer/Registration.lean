import OsdiKernel.Timer.DeadlineOrder

/-!
# Interrupts during a registration

`add_timer` routes the timer's interrupt to the event handler before the event is
on the list, and sets the timer last. Until then the timer is still set for what
it was set for before: the scheduler's tick, if the list was empty, or the event
that was first.

In the second case an interrupt in between does no harm: the event that was first
is due, and so is the new one if it was put before it, unless that was a mistake.
In the first case the handler finds an empty list, or calls the new event back at
once.
-/

namespace OsdiKernel

/-- Where `add_timer` is. -/
inductive AddTimerPc where
  | idle
  /-- The event is made; next, `isTimerMultiplexingEventIRQ` is set, -/
  | raise (timerEvent : Nat) (currentSystemTime : UInt64)
  /-- `UpdateTimerEvents` runs, -/
  | update (timerEvent : Nat) (currentSystemTime : UInt64) (wasDown : Bool)
  /-- `AddNewTimerEvents`, -/
  | add (timerEvent : Nat) (currentSystemTime : UInt64) (wasDown : Bool)
  /-- and `setNextTimerEventInterrupt`. `wasDown` says whether the flag was 0 before. -/
  | setNext (timerEvent : Nat) (wasDown : Bool)
  deriving DecidableEq, Repr

/-- The timer events, and a registration in progress. -/
structure Registering where
  timers : Timers
  pc : AddTimerPc

/-- What may happen next. -/
inductive RegOp where
  /-- Time passes. -/
  | wait (ticks : Nat)
  /-- `add_timer` is called, -/
  | call (callback : Nat) (args : List UInt8) (duration : UInt64)
  /-- or carries out its next statement. -/
  | step
  /-- The pending core timer interrupt is taken. -/
  | interrupt
  deriving DecidableEq, Repr

/-- `irq_exc_router`, for the core timer; `timer_tick` leaves the timer events alone. -/
def irqExcRouter (s : Timers) : Except Fault Timers :=
  if s.isTimerMultiplexingEventIRQ ≠ 0 then timerEventsIrqHandler s
  else .ok { s with timer := coreTimerHandler s.timer }

/-- The next statement of `add_timer`. -/
def addTimerStep (s : Registering) : Except Fault Registering :=
  match s.pc with
  | .idle => .ok s
  | .raise e t =>
      .ok ⟨{ s.timers with isTimerMultiplexingEventIRQ := 1 },
        .update e t (decide (s.timers.isTimerMultiplexingEventIRQ = 0))⟩
  | .update e t wasDown => do
      let timers ← updateTimerEvents s.timers t
      .ok ⟨timers, .add e t wasDown⟩
  | .add e _ wasDown => do
      let timers ← addNewTimerEvents s.timers e
      .ok ⟨timers, .setNext e wasDown⟩
  | .setNext _ _ => do
      let timers ← setNextTimerEventInterrupt s.timers
      .ok ⟨timers, .idle⟩

/-- Registrations, one after the other, and the timer's interrupts whenever they are pending. The counter is far from its end. -/
def regSystem : System Registering RegOp Fault where
  legal := fun s op =>
    match op with
    | .wait ticks => s.timers.timer.cntpct + ticks + 2 ^ 31 < 2 ^ 64
    | .call _ _ _ => s.pc = .idle
    | .step => s.pc ≠ .idle
    | .interrupt => s.timers.timer.pending = true
  exec := fun s op =>
    match op with
    | .wait ticks => .ok { s with timers := { s.timers with
        timer := { s.timers.timer with cntpct := s.timers.timer.cntpct + ticks } } }
    | .call callback args duration => do
        let (e, t, timers) ← newTimerEvent s.timers callback args duration
        .ok ⟨timers, .raise e t⟩
    | .step => addTimerStep s
    | .interrupt => do
        let timers ← irqExcRouter s.timers
        .ok { s with timers }

instance (s : Registering) : ∀ op, Decidable (regSystem.legal s op)
  | .wait _ => inferInstanceAs (Decidable (_ < _))
  | .call _ _ _ => inferInstanceAs (Decidable (_ = _))
  | .step => inferInstanceAs (Decidable (_ ≠ _))
  | .interrupt => inferInstanceAs (Decidable (_ = _))

/-- Before the first registration; the scheduler's tick may be pending. -/
structure RegBoot (s : Registering) : Prop where
  timers : TimersBoot s.timers
  cntfrq : 0 < s.timers.timer.cntfrq
  cntpct : s.timers.timer.cntpct + 2 ^ 31 < 2 ^ 64
  pc : s.pc = .idle

/-- The new event is first, and the one behind it is due earlier. -/
def Overtakes (s : Timers) (e : Nat) : Prop :=
  s.links.next .timerList = some (.event e) ∧
    match s.links.next (.event e) with
    | some (.event a) => (s.events a).deadline < (s.events e).deadline
    | _ => False

instance (s : Timers) (e : Nat) : Decidable (Overtakes s e) :=
  match h : s.links.next (.event e) with
  | some (.event a) => decidable_of_iff
      (s.links.next .timerList = some (.event e) ∧ (s.events a).deadline < (s.events e).deadline)
      (by unfold Overtakes; rw [h])
  | some .timerList => isFalse (by unfold Overtakes; rw [h]; exact fun hc => hc.2)
  | none => isFalse (by unfold Overtakes; rw [h]; exact fun hc => hc.2)

/-- The interrupt is routed to the events and the timer is not yet set for the first of them. -/
def Unset (s : Registering) : Prop :=
  match s.pc with
  | .update _ _ wasDown => wasDown = true
  | .add _ _ wasDown => wasDown = true
  | .setNext e wasDown => wasDown = true ∨ Overtakes s.timers e
  | _ => False

instance (s : Registering) : Decidable (Unset s) :=
  match h : s.pc with
  | .idle => isFalse (by unfold Unset; rw [h]; exact id)
  | .raise _ _ => isFalse (by unfold Unset; rw [h]; exact id)
  | .update _ _ wasDown => decidable_of_iff (wasDown = true) (by unfold Unset; rw [h])
  | .add _ _ wasDown => decidable_of_iff (wasDown = true) (by unfold Unset; rw [h])
  | .setNext e wasDown => decidable_of_iff (wasDown = true ∨ Overtakes s.timers e) (by unfold Unset; rw [h])

/-- No interrupt is taken in between; the message fits, and the timer can count to the deadline. -/
def Undisturbed (s : Registering) : RegOp → Prop
  | .call _ args duration => args.length < argsRoom ∧ s.timers.timer.cntfrq * duration.toNat < 2 ^ 31
  | .interrupt => ¬ Unset s
  | _ => True

instance (s : Registering) : ∀ op, Decidable (Undisturbed s op)
  | .wait _ => inferInstanceAs (Decidable True)
  | .call _ _ _ => inferInstanceAs (Decidable (_ ∧ _))
  | .step => inferInstanceAs (Decidable True)
  | .interrupt => inferInstanceAs (Decidable (¬ _))

/-- The event handler does not run with an empty list, and has not called an event back before its deadline. -/
structure HandledInTime (S : System Registering RegOp Fault) (s : Registering) : Prop where
  listed : S.legal s .interrupt → s.timers.isTimerMultiplexingEventIRQ ≠ 0 →
    listEmpty s.timers.links .timerList = false
  due : ∀ e t, .fired e t ∈ s.timers.log → (s.timers.events e).deadline ≤ t.toNat

/-! ## The timer, once it is set -/

variable {s s' s₀ : Registering} {tm : Timers} {xs rest : List Nat} {live : List Live} {e a : Nat} {t : UInt64}

/-- The timer goes off no sooner than the event is due. -/
def SetFor (c : CoreTimer) (e : TimerEvent) : Prop := c.cntfrq * e.deadline ≤ max c.cval c.cntpct

/-- What has passed since the start. -/
theorem mul_getSystemTime_le {c : CoreTimer} (hc : c.cntpct < 2 ^ 64) (h : t ≤ getSystemTime c) :
    c.cntfrq * t.toNat ≤ c.cntpct := by
  have hlt : c.cntpct / c.cntfrq < 2 ^ 64 := lt_of_le_of_lt (Nat.div_le_self ..) hc
  rw [UInt64.le_iff_toNat_le, getSystemTime, UInt64.toNat_ofNat_of_lt' hlt] at h
  exact (Nat.mul_le_mul_left _ h).trans (Nat.mul_div_le ..)

/-- **Setting the timer** for an event that it can count to. -/
theorem setFor_armTimer {c : CoreTimer} {ev : TimerEvent} (hev : ev.Timely (getSystemTime c))
    (hshort : c.cntfrq * ev.duration.toNat < 2 ^ 31) (hc : c.cntpct + 2 ^ 31 < 2 ^ 64) :
    SetFor (armTimer c ev.remainingTime) ev := by
  have hpast := mul_getSystemTime_le (by omega) hev.past
  have hcnt : (armTimer c ev.remainingTime).cntpct = c.cntpct := by simp [armTimer, coreTimerEnable]
  have hfrq : (armTimer c ev.remainingTime).cntfrq = c.cntfrq := by simp [armTimer, coreTimerEnable]
  unfold SetFor
  rw [hcnt, hfrq]
  rcases Nat.lt_or_ge ev.deadline ev.prevUpdatedTime.toNat with hover | hdue
  · -- it is overdue already
    exact le_max_of_le_right ((Nat.mul_le_mul_left _ (Nat.le_of_lt hover)).trans hpast)
  · have hrem := hev.remaining hdue
    have hreg := UInt64.le_iff_toNat_le.mp hev.registered
    have hle : ev.remainingTime.toNat ≤ ev.duration.toNat := by
      rw [hrem]
      unfold TimerEvent.deadline
      omega
    have hticks : c.cntfrq * ev.remainingTime.toNat < 2 ^ 31 :=
      lt_of_le_of_lt (Nat.mul_le_mul_left _ hle) hshort
    have hcval : (armTimer c ev.remainingTime).cval = c.cntpct + c.cntfrq * ev.remainingTime.toNat := by
      generalize hn : c.cntfrq * ev.remainingTime.toNat = n at hticks
      have hlt : c.cntpct + n < 2 ^ 64 := by omega
      have hsum : toUnsignedLong ((c.cntpct + n : Nat) : Int) = c.cntpct + n := toUnsignedLong_of_range hlt
      have hval : toUnsignedLong (n : Nat) = n := toUnsignedLong_of_range (by omega)
      have hsext : toInt n = n := toInt_of_range (by omega) (by omega)
      have hpct : (coreTimerEnable c).cntpct = c.cntpct := by simp [coreTimerEnable]
      unfold armTimer
      rw [CoreTimer.setTval_cval, ← Nat.cast_mul, hn, hval, hsext, hpct, ← Nat.cast_add, hsum]
    have hsum : c.cntfrq * ev.deadline = c.cntfrq * ev.prevUpdatedTime.toNat + c.cntfrq * ev.remainingTime.toNat := by
      rw [← Nat.mul_add, hrem, Nat.add_sub_cancel' hdue]
    rw [hcval]
    exact le_max_of_le_left (by omega)

/-- An interrupt that is pending finds the event due. -/
theorem SetFor.due {c : CoreTimer} {ev : TimerEvent} (h : SetFor c ev) (hp : c.pending = true) (hfrq : 0 < c.cntfrq)
    (hc : c.cntpct < 2 ^ 64) : ev.deadline ≤ (getSystemTime c).toNat := by
  have hval : c.cval ≤ c.cntpct := by
    unfold CoreTimer.pending at hp
    simp only [Bool.and_eq_true, decide_eq_true_eq] at hp
    exact hp.2
  unfold SetFor at h
  rw [max_eq_right hval] at h
  have hlt : c.cntpct / c.cntfrq < 2 ^ 64 := lt_of_le_of_lt (Nat.div_le_self ..) hc
  rw [getSystemTime, UInt64.toNat_ofNat_of_lt' hlt, Nat.le_div_iff_mul_le hfrq, Nat.mul_comm]
  exact h

/-- The timer stays set for an event when time passes. -/
theorem SetFor.later {c : CoreTimer} {ev : TimerEvent} {n : Nat} (h : SetFor c ev) :
    SetFor { c with cntpct := c.cntpct + n } ev :=
  h.trans (max_le_max (Nat.le_refl _) (Nat.le_add_right ..))

/-- It is as good for an event with an earlier deadline. -/
theorem SetFor.earlier {c : CoreTimer} {ev ev' : TimerEvent} (h : SetFor c ev) (hd : ev'.deadline ≤ ev.deadline) :
    SetFor c ev' :=
  (Nat.mul_le_mul_left _ hd).trans h

/-! ## The invariant -/

/-- The event being registered. -/
structure Making (s : Timers) (xs : List Nat) (live : List Live) (e : Nat) (t : UInt64) : Prop where
  flight : InFlight s live e t
  short : s.timer.cntfrq * (s.events e).duration.toNat < 2 ^ 31
  /-- Those on the list were registered before. -/
  after : ∀ a ∈ xs, (s.events a).registerTime ≤ t

/-- What `add_timer` relies on, where it is. -/
def PcFacts (s : Registering) (xs : List Nat) (live : List Live) : Prop :=
  match s.pc with
  | .idle => True
  | .raise e t => Making s.timers xs live e t
  | .update e t _ => Making s.timers xs live e t
  | .add e t _ => Making s.timers xs live e t
  | .setNext _ wasDown => wasDown = true → xs ≠ []

/-- The timer can count to the deadline of any event, and none was called back before its own. -/
structure TimedInv (tm : Timers) (xs : List Nat) (live : List Live) : Prop where
  inv : TimersInv tm xs live
  cntfrq : 0 < tm.timer.cntfrq
  cntpct : tm.timer.cntpct + 2 ^ 31 < 2 ^ 64
  short : ∀ a ∈ xs, tm.timer.cntfrq * (tm.events a).duration.toNat < 2 ^ 31
  due : ∀ e t, .fired e t ∈ tm.log → (tm.events e).deadline ≤ t.toNat

/-- The timer is set for the first event, whenever the interrupt is routed to the events and nothing is in between. -/
structure RegInv (s : Registering) (xs : List Nat) (live : List Live) : Prop extends TimedInv s.timers xs live where
  pc : PcFacts s xs live
  armed : s.timers.isTimerMultiplexingEventIRQ ≠ 0 → ¬ Unset s →
    ∃ h rest, xs = h :: rest ∧ SetFor s.timers.timer (s.timers.events h)

theorem overtakes_iff (h : OnList tm (e :: a :: rest)) :
    Overtakes tm e ↔ (tm.events a).deadline < (tm.events e).deadline := by
  have hfirst : tm.links.next .timerList = some (.event e) := IsRing.next_cons h
  have h' : OnList tm ([] ++ e :: a :: rest) := h
  have hsecond : tm.links.next (.event e) = some (.event a) := h'.next_mid
  unfold Overtakes
  rw [hsecond]
  exact ⟨fun hc => hc.2, fun hlt => ⟨hfirst, hlt⟩⟩

theorem regInv_boot (h : RegBoot s) : RegInv s [] [] where
  inv := by
    refine ⟨nothingFreed_init h.timers.mm, ?_, ?_, ?_, ?_, fun e he => absurd he (by simp)⟩
    · show IsRing s.timers.links .timerList []
      rw [h.timers.links]
      exact IsRing.selfLoop _ _
    · simp [h.timers.log, addedIn]
    · simp [h.timers.log, addedIn]
    · simp [h.timers.log, addedIn, firedIn]
  cntfrq := h.cntfrq
  cntpct := h.cntpct
  short := fun a ha => absurd ha (by simp)
  pc := by
    unfold PcFacts
    rw [h.pc]
    trivial
  armed := fun hflag _ => absurd h.timers.flag hflag
  due := by
    intro e t he
    rw [h.timers.log] at he
    exact absurd he (by simp)

/-- Events that were fired were added. -/
theorem TimersInv.added_of_fired (h : TimersInv tm xs live) (he : .fired e t ∈ tm.log) : e ∈ addedIn tm.log := by
  refine h.account.mem_iff.mpr (List.mem_append_left _ ?_)
  exact List.mem_filterMap.mpr ⟨_, he, rfl⟩

/-- What `add_timer` relies on is about its event, and whether the list is empty. -/
theorem PcFacts.mono {tm' : Timers} {xs' : List Nat} {pc : AddTimerPc} (h : PcFacts ⟨tm, pc⟩ xs live)
    (hmaking : ∀ e t, Making tm xs live e t → Making tm' xs' live e t)
    (hnext : ∀ e, pc = .setNext e true → xs ≠ [] → xs' ≠ []) : PcFacts ⟨tm', pc⟩ xs' live := by
  cases pc with
  | idle => trivial
  | raise e t => exact hmaking e t h
  | update e t w => exact hmaking e t h
  | add e t w => exact hmaking e t h
  | setNext e w =>
      intro hw
      subst hw
      exact hnext e rfl (h rfl)

/-- Wherever `add_timer` is. -/
theorem RegInv.facts {pc : AddTimerPc} (h : RegInv s xs live) (hpc : s.pc = pc) : PcFacts ⟨s.timers, pc⟩ xs live := by
  subst hpc
  exact h.pc

/-! ## The steps -/

/-- **Time passes.** -/
theorem regInv_wait (h : RegInv s xs live) {n : Nat} (hn : s.timers.timer.cntpct + n + 2 ^ 31 < 2 ^ 64) :
    RegInv { s with timers := { s.timers with
      timer := { s.timers.timer with cntpct := s.timers.timer.cntpct + n } } } xs live where
  inv := h.inv.later (by omega)
  cntfrq := h.cntfrq
  cntpct := hn
  short := h.short
  pc := by
    refine PcFacts.mono h.pc (fun e t hm => ?_) (fun _ _ hne => hne)
    exact ⟨hm.flight.of_eq rfl rfl rfl (getSystemTime_mono (by omega)), hm.short, hm.after⟩
  armed := by
    intro hflag hset
    obtain ⟨a, rest, hxs, hfor⟩ := h.armed hflag hset
    exact ⟨a, rest, hxs, hfor.later⟩
  due := h.due

/-- **`add_timer` is called.** -/
theorem regInv_call (h : RegInv s xs live) (hidle : s.pc = .idle) {cb : Nat} {args : List UInt8} {d : UInt64}
    (hd : s.timers.timer.cntfrq * d.toNat < 2 ^ 31) {r : Nat × UInt64 × Timers}
    (hrun : newTimerEvent s.timers cb args d = .ok r) : ∃ live', RegInv ⟨r.2.2, .raise r.1 r.2.1⟩ xs live' := by
  obtain ⟨htime, live', hreg⟩ := h.inv.newTimerEvent hrun
  obtain ⟨e, t, tm⟩ := r
  obtain rfl : t = getSystemTime s.timers.timer := htime
  have hfresh : e ∉ addedIn s.timers.log := hreg.log ▸ hreg.flight.fresh
  have hne : ∀ a ∈ xs, a ≠ e := fun a ha he => hfresh (he ▸ h.inv.mem_added ha)
  refine ⟨live', ⟨hreg.inv, ?_, ?_, ?_, ?_⟩, ?_, ?_⟩
  · show 0 < tm.timer.cntfrq
    rw [hreg.timer]
    exact h.cntfrq
  · show tm.timer.cntpct + 2 ^ 31 < 2 ^ 64
    rw [hreg.timer]
    exact h.cntpct
  · intro a ha
    show tm.timer.cntfrq * (tm.events a).duration.toNat < 2 ^ 31
    rw [hreg.timer, hreg.others a (hne a ha)]
    exact h.short a ha
  · intro a t ha
    have ha' : .fired a t ∈ s.timers.log := by
      rw [← hreg.log]
      exact ha
    have hae : a ≠ e := ne_of_mem_of_not_mem (h.inv.added_of_fired ha') hfresh
    show (tm.events a).deadline ≤ t.toNat
    rw [hreg.others a hae]
    exact h.due a t ha'
  · refine ⟨hreg.flight, ?_, fun a ha => ?_⟩
    · show tm.timer.cntfrq * (tm.events e).duration.toNat < 2 ^ 31
      rw [hreg.timer, hreg.duration]
      exact hd
    · have htimely := hreg.inv.timely a ha
      rw [hreg.timer] at htimely
      exact UInt64.le_trans htimely.registered htimely.past
  · intro hflag _
    have hset : ¬ Unset s := by
      unfold Unset
      rw [hidle]
      exact id
    obtain ⟨a, rest, hxs, hfor⟩ := h.armed (hreg.flag ▸ hflag) hset
    refine ⟨a, rest, hxs, ?_⟩
    show SetFor tm.timer (tm.events a)
    rw [hreg.timer, hreg.others a (hne a (hxs ▸ List.mem_cons_self ..))]
    exact hfor

/-- What an update changes for the invariant. -/
theorem making_update (hm : Making tm xs live e t) (he : e ∉ xs) {later : UInt64} :
    Making { tm with events := updatedEvents tm.events xs later } xs live e t := by
  have hev : updatedEvents tm.events xs later e = tm.events e := if_neg he
  refine ⟨hm.flight.of_eq rfl rfl hev (UInt64.le_refl _), ?_, fun a ha => ?_⟩
  · show tm.timer.cntfrq * (updatedEvents tm.events xs later e).duration.toNat < 2 ^ 31
    rw [hev]
    exact hm.short
  · show (updatedEvents tm.events xs later a).registerTime ≤ t
    rw [updatedEvents, if_pos ha]
    exact hm.after a ha

/-- **The flag is set.** -/
theorem regInv_raise (h : RegInv s xs live) (hpc : s.pc = .raise e t) :
    RegInv ⟨{ s.timers with isTimerMultiplexingEventIRQ := 1 },
      .update e t (decide (s.timers.isTimerMultiplexingEventIRQ = 0))⟩ xs live where
  inv := h.inv.onTimer rfl
  cntfrq := h.cntfrq
  cntpct := h.cntpct
  short := h.short
  pc := by
    have hfacts : Making s.timers xs live e t := h.facts hpc
    exact ⟨hfacts.flight.of_eq rfl rfl rfl (UInt64.le_refl _), hfacts.short, hfacts.after⟩
  armed := by
    intro _ hset
    -- the flag was up before
    have hflag : s.timers.isTimerMultiplexingEventIRQ ≠ 0 := by simpa [Unset] using hset
    exact h.armed hflag (by unfold Unset; rw [hpc]; exact id)
  due := h.due

/-- **`UpdateTimerEvents`** -/
theorem regInv_update (h : RegInv s xs live) {w : Bool} (hpc : s.pc = .update e t w) :
    RegInv ⟨{ s.timers with events := updatedEvents s.timers.events xs t }, .add e t w⟩ xs live := by
  have hm : Making s.timers xs live e t := h.facts hpc
  refine ⟨⟨h.inv.update hm.after hm.flight.past, h.cntfrq, h.cntpct, ?_, ?_⟩,
    making_update hm (h.inv.not_mem hm.flight), ?_⟩
  · intro a ha
    show _ * (updatedEvents s.timers.events xs t a).duration.toNat < 2 ^ 31
    rw [updatedEvents_duration]
    exact h.short a ha
  · intro a t' ha
    show (updatedEvents s.timers.events xs t a).deadline ≤ t'.toNat
    rw [updatedEvents_deadline]
    exact h.due a t' ha
  · intro hflag hset
    have hset' : ¬ Unset s := by
      unfold Unset at hset ⊢
      rw [hpc]
      exact hset
    obtain ⟨a, rest, hxs, hfor⟩ := h.armed hflag hset'
    exact ⟨a, rest, hxs, hfor.earlier (Nat.le_of_eq (updatedEvents_deadline a))⟩

theorem mem_insertEvent : a ∈ insertEvent tm e xs ↔ a = e ∨ a ∈ xs := List.mem_orderedInsert _

/-- The new event is first, or the first stays first. -/
theorem insertEvent_cases : insertEvent tm e (a :: rest) = e :: a :: rest ∨
    insertEvent tm e (a :: rest) = a :: insertEvent tm e rest := by
  by_cases hlt : (tm.events e).remainingTime < (tm.events a).remainingTime
  · exact Or.inl (insertEvent_cons hlt)
  · exact Or.inr (if_neg hlt)

/-- **`AddNewTimerEvents`** -/
theorem regInv_add (h : RegInv s xs live) {w : Bool} (hpc : s.pc = .add e t w) :
    ∃ links, addNewTimerEvents s.timers e = .ok { s.timers with links, log := s.timers.log ++ [.added e] } ∧
      RegInv ⟨{ s.timers with links, log := s.timers.log ++ [.added e] }, .setNext e w⟩
        (insertEvent s.timers e xs) live := by
  have hm : Making s.timers xs live e t := h.facts hpc
  obtain ⟨links, hrun, hinv⟩ := h.inv.add hm.flight
  refine ⟨links, hrun, ⟨hinv, h.cntfrq, h.cntpct, ?_, ?_⟩, ?_, ?_⟩
  · intro a ha
    rcases mem_insertEvent.mp ha with rfl | hax
    · exact hm.short
    · exact h.short a hax
  · intro a t' ha
    rcases List.mem_append.mp ha with hold | hnew
    · exact h.due a t' hold
    · exact absurd (List.mem_singleton.mp hnew) (by simp)
  · intro _ hnil
    have hmem : e ∈ insertEvent s.timers e xs := mem_insertEvent.mpr (Or.inl rfl)
    rw [hnil] at hmem
    exact absurd hmem (by simp)
  · intro hflag hset
    unfold Unset at hset
    simp only [not_or] at hset
    obtain ⟨hw, hover⟩ := hset
    have hset' : ¬ Unset s := by
      unfold Unset
      rw [hpc]
      exact hw
    obtain ⟨a, rest, hxs, hfor⟩ := h.armed hflag hset'
    subst hxs
    have hcases : insertEvent s.timers e (a :: rest) = e :: a :: rest ∨
        insertEvent s.timers e (a :: rest) = a :: insertEvent s.timers e rest := insertEvent_cases
    rcases hcases with hins | hins
    · -- the new event is first, and due no later than the one behind it
      have hon := hinv.holds
      rw [hins] at hon
      rw [overtakes_iff hon, Nat.not_lt] at hover
      exact ⟨e, a :: rest, hins, hfor.earlier hover⟩
    · exact ⟨a, _, hins, hfor⟩

/-- Setting the timer changes nothing else. -/
theorem TimedInv.onTimer (h : TimedInv tm xs live) {c : CoreTimer} {flag : Int} (hfrq : c.cntfrq = tm.timer.cntfrq)
    (hpct : c.cntpct = tm.timer.cntpct) :
    TimedInv { tm with timer := c, isTimerMultiplexingEventIRQ := flag } xs live := by
  have htime : getSystemTime c = getSystemTime tm.timer := by
    unfold getSystemTime
    rw [hfrq, hpct]
  refine ⟨h.inv.onTimer htime, ?_, ?_, fun a ha => ?_, h.due⟩
  · show 0 < c.cntfrq
    rw [hfrq]
    exact h.cntfrq
  · show c.cntpct + 2 ^ 31 < 2 ^ 64
    rw [hpct]
    exact h.cntpct
  · show c.cntfrq * _ < 2 ^ 31
    rw [hfrq]
    exact h.short a ha

theorem armTimer_cntfrq {c : CoreTimer} {d : UInt64} : (armTimer c d).cntfrq = c.cntfrq := by
  simp [armTimer, coreTimerEnable]

theorem armTimer_cntpct {c : CoreTimer} {d : UInt64} : (armTimer c d).cntpct = c.cntpct := by
  simp [armTimer, coreTimerEnable]

/-- Where the flag is up, the list is not empty when the timer is set. -/
theorem RegInv.listed (h : RegInv s [] live) {w : Bool} (hpc : s.pc = .setNext e w) :
    s.timers.isTimerMultiplexingEventIRQ = 0 := by
  by_contra hflag
  have hw : w ≠ true := by
    intro hw
    have hfacts : w = true → ([] : List Nat) ≠ [] := h.facts hpc
    exact hfacts hw rfl
  have hfirst : s.timers.links.next .timerList = some .timerList := (IsRing.next_self_iff h.inv.holds).mpr rfl
  have hset : ¬ Unset s := by
    unfold Unset
    rw [hpc]
    rintro (hw' | hover)
    · exact hw hw'
    · have hnext := hover.1
      rw [hfirst] at hnext
      exact TimerNode.noConfusion (Option.some.inj hnext)
  obtain ⟨a, rest, hxs, _⟩ := h.armed hflag hset
  exact absurd hxs (by simp)

/-- Nothing is in between once the timer is set for the first event. -/
theorem TimedInv.regInv {pc : AddTimerPc} (h : TimedInv tm xs live) {c : CoreTimer} {flag : Int}
    (hfrq : c.cntfrq = tm.timer.cntfrq) (hpct : c.cntpct = tm.timer.cntpct)
    (hpc : PcFacts ⟨{ tm with timer := c, isTimerMultiplexingEventIRQ := flag }, pc⟩ xs live)
    (harmed : flag ≠ 0 → ∃ h rest, xs = h :: rest ∧ SetFor c (tm.events h)) :
    RegInv ⟨{ tm with timer := c, isTimerMultiplexingEventIRQ := flag }, pc⟩ xs live :=
  ⟨h.onTimer hfrq hpct, hpc, fun hflag _ => harmed hflag⟩

/-- The timer, set for the first event. -/
theorem TimedInv.setFor (h : TimedInv tm (a :: rest) live) :
    ∃ b rest', a :: rest = b :: rest' ∧ SetFor (armTimer tm.timer (tm.events a).remainingTime) (tm.events b) :=
  ⟨a, rest, rfl, setFor_armTimer (h.inv.timely a (List.mem_cons_self ..)) (h.short a (List.mem_cons_self ..)) h.cntpct⟩

/-- **`setNextTimerEventInterrupt`** -/
theorem regInv_setNext (h : RegInv s xs live) {w : Bool} (hpc : s.pc = .setNext e w) :
    ∃ d, setNextTimerEventInterrupt s.timers = .ok { s.timers with timer := armTimer s.timers.timer d } ∧
      RegInv ⟨{ s.timers with timer := armTimer s.timers.timer d }, .idle⟩ xs live := by
  cases xs with
  | nil =>
      have hfirst : s.timers.links.next .timerList = some .timerList := (IsRing.next_self_iff h.inv.holds).mpr rfl
      refine ⟨s.timers.beyond, ?_, h.toTimedInv.regInv armTimer_cntfrq armTimer_cntpct trivial
        (fun hflag => absurd (h.listed hpc) hflag)⟩
      unfold setNextTimerEventInterrupt
      rw [hfirst]
      rfl
  | cons a rest =>
      exact ⟨(s.timers.events a).remainingTime, setNextTimerEventInterrupt_spec h.inv.holds,
        h.toTimedInv.regInv armTimer_cntfrq armTimer_cntpct trivial (fun _ => h.toTimedInv.setFor)⟩

/-- Setting the timer leaves the event being registered alone. -/
theorem PcFacts.onTimer {pc : AddTimerPc} (h : PcFacts ⟨tm, pc⟩ xs live) {c : CoreTimer} {flag : Int}
    (hfrq : c.cntfrq = tm.timer.cntfrq) (hpct : c.cntpct = tm.timer.cntpct) :
    PcFacts ⟨{ tm with timer := c, isTimerMultiplexingEventIRQ := flag }, pc⟩ xs live := by
  have htime : getSystemTime c = getSystemTime tm.timer := by
    unfold getSystemTime
    rw [hfrq, hpct]
  refine h.mono (fun e t hm => ?_) (fun _ _ hne => hne)
  refine ⟨hm.flight.of_eq rfl rfl rfl ?_, ?_, hm.after⟩
  · show getSystemTime tm.timer ≤ getSystemTime c
    rw [htime]
    exact UInt64.le_refl _
  · show c.cntfrq * _ < 2 ^ 31
    rw [hfrq]
    exact hm.short

/-- The first event is called back when it is due. -/
theorem TimedInv.fired {links : Links TimerNode} (h : TimedInv tm (a :: rest) live) (hrem : Removed tm a rest links)
    (hdue : (tm.events a).deadline ≤ (getSystemTime tm.timer).toNat) :
    TimedInv (firedFirst tm a rest links) rest live := by
  refine ⟨h.inv.fired hrem, h.cntfrq, h.cntpct, ?_, ?_⟩
  · intro b hb
    show tm.timer.cntfrq * (updatedEvents tm.events (a :: rest) _ b).duration.toNat < 2 ^ 31
    rw [updatedEvents_duration]
    exact h.short b (List.mem_cons_of_mem _ hb)
  · intro b t hb
    show (updatedEvents tm.events (a :: rest) _ b).deadline ≤ t.toNat
    rw [updatedEvents_deadline]
    rcases List.mem_append.mp hb with hold | hnew
    · exact h.due b t hold
    · obtain ⟨rfl, rfl⟩ := Happening.fired.inj (List.mem_singleton.mp hnew)
      exact hdue

/-- The event being registered is not on the list, and stays as it is. -/
theorem TimedInv.making {links : Links TimerNode} (h : TimedInv tm (a :: rest) live) (hrem : Removed tm a rest links)
    (hm : Making tm (a :: rest) live e t) : Making (firedFirst tm a rest links) rest live e t := by
  have he : e ∉ a :: rest := h.inv.not_mem hm.flight
  have hm' : Making { tm with events := updatedEvents tm.events (a :: rest) (getSystemTime tm.timer) } (a :: rest)
      live e t := making_update hm he
  refine ⟨hm'.flight.of_eq ?_ (hrem.prev e he) rfl (UInt64.le_refl _), hm'.short,
    fun b hb => hm'.after b (List.mem_cons_of_mem _ hb)⟩
  simp only [firedFirst, addedIn_fired]

/-- **The interrupt**, when nothing is in between. -/
theorem regInv_interrupt (h : RegInv s xs live) (hp : s.timers.timer.pending = true) (hset : ¬ Unset s) :
    ∃ tm' xs', irqExcRouter s.timers = .ok tm' ∧ RegInv ⟨tm', s.pc⟩ xs' live := by
  unfold irqExcRouter
  by_cases hflag : s.timers.isTimerMultiplexingEventIRQ = 0
  · -- the scheduler's tick
    have hfrq : (coreTimerHandler s.timers.timer).cntfrq = s.timers.timer.cntfrq := by simp [coreTimerHandler]
    have hpct : (coreTimerHandler s.timers.timer).cntpct = s.timers.timer.cntpct := by simp [coreTimerHandler]
    rw [if_neg (not_not.mpr hflag)]
    exact ⟨_, xs, rfl, h.toTimedInv.regInv hfrq hpct (PcFacts.onTimer h.pc hfrq hpct) (fun hf => absurd hflag hf)⟩
  · rw [if_pos hflag]
    obtain ⟨a, rest, rfl, hfor⟩ := h.armed hflag hset
    obtain ⟨links, hrem, hrun⟩ := timerEventsIrqHandler_spec h.inv.holds h.inv.length_lt
    have htimed := h.toTimedInv.fired hrem (hfor.due hp h.cntfrq (by have := h.cntpct; omega))
    have hpc : PcFacts ⟨firedFirst s.timers a rest links, s.pc⟩ rest live := by
      refine PcFacts.mono h.pc (fun e t hm => h.toTimedInv.making hrem hm) (fun e hs => ?_)
      refine absurd ?_ hset
      unfold Unset
      rw [hs]
      exact Or.inl rfl
    cases rest with
    | nil => exact ⟨_, [], hrun, htimed.regInv rfl rfl (PcFacts.onTimer hpc rfl rfl) (fun hf => absurd rfl hf)⟩
    | cons b rest =>
        exact ⟨_, b :: rest, hrun, htimed.regInv armTimer_cntfrq armTimer_cntpct
          (PcFacts.onTimer hpc armTimer_cntfrq armTimer_cntpct) (fun _ => htimed.setFor)⟩

/-! ## A run -/

theorem regInv_step (h : RegInv s xs live) {op : RegOp} (hl : (regSystem.restrict Undisturbed).legal s op)
    (hrun : regSystem.exec s op = .ok s') : ∃ xs' live', RegInv s' xs' live' := by
  cases op with
  | wait ticks =>
      obtain rfl := Except.ok.inj hrun
      exact ⟨xs, live, regInv_wait h hl.1⟩
  | call callback args duration =>
      cases hnew : newTimerEvent s.timers callback args duration with
      | error f =>
          simp only [regSystem, hnew, error_bind, reduceCtorEq] at hrun
      | ok r =>
          simp only [regSystem, hnew, ok_bind, Except.ok.injEq] at hrun
          obtain ⟨live', hinv⟩ := regInv_call h hl.1 hl.2.2 hnew
          exact ⟨xs, live', hrun ▸ hinv⟩
  | step =>
      have hrun' : addTimerStep s = .ok s' := hrun
      unfold addTimerStep at hrun'
      cases hpc : s.pc with
      | idle => exact absurd hpc hl.1
      | raise e t =>
          simp only [hpc, Except.ok.injEq] at hrun'
          exact ⟨xs, live, hrun' ▸ regInv_raise h hpc⟩
      | update e t w =>
          simp only [hpc, updateTimerEvents_spec h.inv.holds h.inv.length_lt, ok_bind, Except.ok.injEq] at hrun'
          exact ⟨xs, live, hrun' ▸ regInv_update h hpc⟩
      | add e t w =>
          obtain ⟨links, hadd, hinv⟩ := regInv_add h hpc
          simp only [hpc, hadd, ok_bind, Except.ok.injEq] at hrun'
          exact ⟨_, live, hrun' ▸ hinv⟩
      | setNext e w =>
          obtain ⟨d, hset, hinv⟩ := regInv_setNext h hpc
          simp only [hpc, hset, ok_bind, Except.ok.injEq] at hrun'
          exact ⟨xs, live, hrun' ▸ hinv⟩
  | interrupt =>
      obtain ⟨tm', xs', hirq, hinv⟩ := regInv_interrupt h hl.1 hl.2
      simp only [regSystem, hirq, ok_bind, Except.ok.injEq] at hrun
      exact ⟨xs', live, hrun ▸ hinv⟩

theorem RegInv.handledInTime (h : RegInv s xs live) : HandledInTime (regSystem.restrict Undisturbed) s where
  listed := by
    intro hl hflag
    obtain ⟨a, rest, hxs, _⟩ := h.armed hflag hl.2
    unfold listEmpty
    rw [decide_eq_false_iff_not, IsRing.next_self_iff h.inv.holds, hxs]
    simp
  due := h.due

/--
**Interrupts find their event**, and find it due, in every run in which none is
taken between routing it to the events and setting the timer for the first of
them, and no timeout is too long for the timer.
-/
theorem handledInTime_of_undisturbed (h₀ : RegBoot s₀) (h : (regSystem.restrict Undisturbed).Reach s₀ s) :
    HandledInTime (regSystem.restrict Undisturbed) s := by
  have hinv : ∃ xs live, RegInv s xs live := by
    refine h.inv_ok (P := fun s => ∃ xs live, RegInv s xs live) ⟨[], [], regInv_boot h₀⟩ ?_
    rintro s op s' ⟨xs, live, hs⟩ hl hrun
    exact regInv_step hs hl hrun
  obtain ⟨xs, live, hs⟩ := hinv
  exact hs.handledInTime

/-- The same start, with no registration in progress. -/
theorem regBoot_start {mm : Mm} (h : mmInit Mm.bss = .ok mm) : RegBoot ⟨timersStart mm, .idle⟩ :=
  ⟨⟨h, rfl, rfl, rfl⟩, Nat.one_pos, (by decide : 0 + 2 ^ 31 < 2 ^ 64), rfl⟩

/-- Run it. -/
def regRun (S : System Registering RegOp Fault) [∀ s op, Decidable (S.legal s op)] (ops : List RegOp) :
    Option Registering :=
  match mmInit Mm.bss with
  | .ok mm => S.run ⟨timersStart mm, .idle⟩ ops
  | .error _ => none

theorem regReach_of_run {S : System Registering RegOp Fault} [∀ s op, Decidable (S.legal s op)]
    {ops : List RegOp} (h : regRun S ops = some s) : ∃ s₀, RegBoot s₀ ∧ S.Reach s₀ s := by
  unfold regRun at h
  cases hmm : mmInit Mm.bss with
  | error f =>
      rw [hmm] at h
      exact absurd h (by simp)
  | ok mm =>
      rw [hmm] at h
      exact ⟨⟨timersStart mm, .idle⟩, regBoot_start hmm, System.Reach.of_run .init h⟩

/-- An event registered with a tick pending that is not taken, and called back after five seconds. -/
theorem handledInTime_of_undisturbed_five :
    ∃ s, s.timers.log = [.added 0x200000, .fired 0x200000 5] ∧
      HandledInTime (regSystem.restrict Undisturbed) s := by
  have hrun : (regRun (regSystem.restrict Undisturbed)
      [.call 0 [97] 5, .step, .step, .step, .step, .wait 5, .interrupt]).map (fun s => s.timers.log)
      = some [.added 0x200000, .fired 0x200000 5] := by decide +kernel
  obtain ⟨s, hs, hlog⟩ := Option.map_eq_some_iff.mp hrun
  obtain ⟨s₀, h₀, hr⟩ := regReach_of_run hs
  exact ⟨s, hlog, handledInTime_of_undisturbed h₀ hr⟩

/-- A tick is pending when the flag is set: the handler would run with an empty list. -/
theorem not_handledInTime :
    ¬ ∀ s₀ s, RegBoot s₀ → regSystem.Reach s₀ s → HandledInTime regSystem s := by
  intro hall
  have hrun : (regRun regSystem [.call 0 [97] 5, .step]).map
      (fun s => (s.timers.timer.pending, s.timers.isTimerMultiplexingEventIRQ, listEmpty s.timers.links .timerList))
      = some (true, 1, true) := by decide +kernel
  obtain ⟨s, hs, he⟩ := Option.map_eq_some_iff.mp hrun
  simp only [Prod.mk.injEq] at he
  obtain ⟨hpending, hflag, hempty⟩ := he
  obtain ⟨s₀, h₀, hr⟩ := regReach_of_run hs
  have hlisted := (hall s₀ s h₀ hr).listed hpending (by rw [hflag]; decide)
  rw [hempty] at hlisted
  exact absurd hlisted (by decide)

end OsdiKernel
