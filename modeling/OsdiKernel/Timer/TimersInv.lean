import OsdiKernel.Mm.NothingFreed
import OsdiKernel.Timer.TimerList

/-!
# What the timer events keep

The list holds the events that were added and not yet fired. Each event is at an
address of its own, because events are never freed. And the seconds it has left
are its deadline less the time of its last update, as far as 64 bits go: once it
is overdue, that difference wraps.
-/

namespace OsdiKernel

variable {s s' : Timers} {xs rest : List Nat} {live : List Live} {e : Nat} {t now : UInt64}

/-! ## The log -/

/-- The events put on the list, in that order. -/
def addedIn (log : List Happening) : List Nat :=
  log.filterMap (fun h =>
    match h with
    | .added e => some e
    | .fired _ _ => none)

/-- The events called back, in that order. -/
def firedIn (log : List Happening) : List Nat :=
  log.filterMap (fun h =>
    match h with
    | .added _ => none
    | .fired e _ => some e)

section Log

variable {log : List Happening}

@[simp] theorem addedIn_added : addedIn (log ++ [.added e]) = addedIn log ++ [e] := by
  simp [addedIn]

@[simp] theorem addedIn_fired : addedIn (log ++ [.fired e t]) = addedIn log := by
  simp [addedIn]

@[simp] theorem firedIn_added : firedIn (log ++ [.added e]) = firedIn log := by
  simp [firedIn]

@[simp] theorem firedIn_fired : firedIn (log ++ [.fired e t]) = firedIn log ++ [e] := by
  simp [firedIn]

end Log

/-! ## The times of an event -/

/-- The times of an event that was updated no later than `now`. -/
structure TimerEvent.Timely (e : TimerEvent) (now : UInt64) : Prop where
  current : e.Current
  registered : e.registerTime ≤ e.prevUpdatedTime
  past : e.prevUpdatedTime ≤ now

namespace TimerEvent

variable {e : TimerEvent}

@[simp] theorem update_deadline : (e.update t).deadline = e.deadline := rfl

theorem Current.update (h : e.Current) : (e.update t).Current := by
  unfold Current at h
  show e.remainingTime - (t - e.prevUpdatedTime) = e.registerTime + e.duration - t
  rw [h]
  grind

theorem Timely.update (h : e.Timely now) (hr : e.registerTime ≤ t) (ht : t ≤ now) : (e.update t).Timely now :=
  ⟨h.current.update, hr, ht⟩

theorem Timely.mono {later : UInt64} (h : e.Timely now) (hl : now ≤ later) : e.Timely later :=
  ⟨h.current, h.registered, UInt64.le_trans h.past hl⟩

/-- What is left until the deadline, when it has not passed. -/
theorem Timely.remaining (h : e.Timely now) (hd : e.prevUpdatedTime.toNat ≤ e.deadline) :
    e.remainingTime.toNat = e.deadline - e.prevUpdatedTime.toNat := by
  have hc := h.current
  have hr := UInt64.le_iff_toNat_le.mp h.registered
  have h1 := e.registerTime.toNat_lt
  have h2 := e.duration.toNat_lt
  have h3 := e.prevUpdatedTime.toNat_lt
  unfold Current at hc
  unfold deadline at hd ⊢
  rw [hc, UInt64.toNat_sub, UInt64.toNat_add]
  omega

/-- When it has, the difference wraps. -/
theorem Timely.remaining_overdue (h : e.Timely now) (hd : e.deadline < e.prevUpdatedTime.toNat) :
    e.remainingTime.toNat = 2 ^ 64 + e.deadline - e.prevUpdatedTime.toNat := by
  have hc := h.current
  have h3 := e.prevUpdatedTime.toNat_lt
  unfold Current at hc
  unfold deadline at hd ⊢
  rw [hc, UInt64.toNat_sub, UInt64.toNat_add]
  omega

end TimerEvent

theorem getSystemTime_armTimer {c : CoreTimer} {d : UInt64} : getSystemTime (armTimer c d) = getSystemTime c := by
  unfold getSystemTime armTimer coreTimerEnable
  simp only [CoreTimer.setTval_cntpct, CoreTimer.setTval_cntfrq]

theorem getSystemTime_disable {c : CoreTimer} : getSystemTime (coreTimerDisable c) = getSystemTime c := rfl

/-- Time does not run backwards. -/
theorem getSystemTime_mono {c : CoreTimer} {n : Nat} (h : c.cntpct + n < 2 ^ 64) :
    getSystemTime c ≤ getSystemTime { c with cntpct := c.cntpct + n } := by
  have h1 : c.cntpct / c.cntfrq ≤ (c.cntpct + n) / c.cntfrq := Nat.div_le_div_right (Nat.le_add_right ..)
  have h2 : (c.cntpct + n) / c.cntfrq ≤ c.cntpct + n := Nat.div_le_self ..
  unfold getSystemTime
  have h3 : (c.cntpct + n) / c.cntfrq < 2 ^ 64 := by omega
  rw [UInt64.le_iff_toNat_le, UInt64.toNat_ofNat_of_lt' (lt_of_le_of_lt h1 h3), UInt64.toNat_ofNat_of_lt' h3]
  exact h1

/-! ## The invariant -/

/-- The events `xs` are on the list, and the allocator has handed out `live`. -/
structure TimersInv (s : Timers) (xs : List Nat) (live : List Live) : Prop where
  mem : NothingFreed ⟨s.mm, live⟩
  holds : OnList s xs
  /-- The memory of an event is never given back. -/
  allocated : ∀ e ∈ addedIn s.log, ∃ l ∈ live, l.addr = e
  once : (addedIn s.log).Nodup
  account : (addedIn s.log).Perm (firedIn s.log ++ xs)
  timely : ∀ e ∈ xs, (s.events e).Timely (getSystemTime s.timer)

/-- An event registered at `t` and not yet on the list. -/
structure InFlight (s : Timers) (live : List Live) (e : Nat) (t : UInt64) : Prop where
  allocated : ∃ l ∈ live, l.addr = e
  fresh : e ∉ addedIn s.log
  null : s.links.prev (.event e) = none
  registerTime : (s.events e).registerTime = t
  prevUpdatedTime : (s.events e).prevUpdatedTime = t
  remainingTime : (s.events e).remainingTime = (s.events e).duration
  past : t ≤ getSystemTime s.timer

namespace InFlight

theorem timely (h : InFlight s live e t) : (s.events e).Timely (getSystemTime s.timer) where
  current := by
    unfold TimerEvent.Current
    rw [h.registerTime, h.prevUpdatedTime, h.remainingTime]
    grind
  registered := by
    rw [h.registerTime, h.prevUpdatedTime]
    exact UInt64.le_refl t
  past := by
    rw [h.prevUpdatedTime]
    exact h.past

/-- What the rest of the kernel does meanwhile leaves it alone. -/
theorem of_eq (h : InFlight s live e t) (hlog : addedIn s'.log = addedIn s.log)
    (hprev : s'.links.prev (.event e) = s.links.prev (.event e)) (hev : s'.events e = s.events e)
    (hpast : getSystemTime s.timer ≤ getSystemTime s'.timer) : InFlight s' live e t where
  allocated := h.allocated
  fresh := by
    rw [hlog]
    exact h.fresh
  null := hprev.trans h.null
  registerTime := by
    rw [hev]
    exact h.registerTime
  prevUpdatedTime := by
    rw [hev]
    exact h.prevUpdatedTime
  remainingTime := by
    rw [hev]
    exact h.remainingTime
  past := UInt64.le_trans h.past hpast

end InFlight

namespace TimersInv

theorem mem_added (h : TimersInv s xs live) (he : e ∈ xs) : e ∈ addedIn s.log :=
  h.account.mem_iff.mpr (List.mem_append_right _ he)

theorem not_mem (h : TimersInv s xs live) (hf : InFlight s live e t) : e ∉ xs :=
  fun he => hf.fresh (h.mem_added he)

/-- The events on the list are fewer than the addresses. -/
theorem length_lt (h : TimersInv s xs live) : xs.length < 2 ^ 64 := by
  have hsub : xs.toFinset ⊆ Finset.range (2 ^ 32) := by
    intro e he
    obtain ⟨l, hl, rfl⟩ := h.allocated e (h.mem_added (List.mem_toFinset.mp he))
    exact Finset.mem_range.mpr (h.mem.addr_lt hl)
  have hcard := Finset.card_le_card hsub
  rw [List.toFinset_card_of_nodup h.holds.nodup, Finset.card_range] at hcard
  omega

/-- Setting the timer, and routing its interrupt. -/
theorem onTimer (h : TimersInv s xs live) {c : CoreTimer} {flag : Int}
    (hc : getSystemTime c = getSystemTime s.timer) :
    TimersInv { s with timer := c, isTimerMultiplexingEventIRQ := flag } xs live :=
  ⟨h.mem, h.holds, h.allocated, h.once, h.account, fun e he => by
    have htime := h.timely e he
    rw [← hc] at htime
    exact htime⟩

/-- Time passes. -/
theorem later (h : TimersInv s xs live) {n : Nat} (hn : s.timer.cntpct + n < 2 ^ 64) :
    TimersInv { s with timer := { s.timer with cntpct := s.timer.cntpct + n } } xs live :=
  ⟨h.mem, h.holds, h.allocated, h.once, h.account, fun e he => (h.timely e he).mono (getSystemTime_mono hn)⟩

/-- An update, as of a time that has passed. -/
theorem update (h : TimersInv s xs live) (hr : ∀ e ∈ xs, (s.events e).registerTime ≤ t)
    (ht : t ≤ getSystemTime s.timer) : TimersInv { s with events := updatedEvents s.events xs t } xs live := by
  refine ⟨h.mem, h.holds, h.allocated, h.once, h.account, fun e he => ?_⟩
  show (updatedEvents s.events xs t e).Timely _
  rw [updatedEvents, if_pos he]
  exact (h.timely e he).update (hr e he) ht

/-- What there is after `kmalloc` and `InitalizeNewTimerEvent`. -/
structure Registered (s s' : Timers) (xs : List Nat) (live' : List Live) (e : Nat) (d : UInt64) : Prop where
  inv : TimersInv s' xs live'
  flight : InFlight s' live' e (getSystemTime s.timer)
  duration : (s'.events e).duration = d
  others : ∀ a, a ≠ e → s'.events a = s.events a
  timer : s'.timer = s.timer
  log : s'.log = s.log
  flag : s'.isTimerMultiplexingEventIRQ = s.isTimerMultiplexingEventIRQ

/-- **A new event** has memory of its own, and is on no list, if `add_timer` gets so far. -/
theorem newTimerEvent (h : TimersInv s xs live) {cb : Nat} {args : List UInt8} {d : UInt64} {r : Nat × UInt64 × Timers}
    (hrun : newTimerEvent s cb args d = .ok r) :
    r.2.1 = getSystemTime s.timer ∧ ∃ live', Registered s r.2.2 xs live' r.1 d := by
  have hcls : kmallocClass timerEventSize = some 7 := by decide
  rcases h.mem.kmalloc hcls (by decide) with herr | ⟨addr, mm', hok, hmem, hnew⟩
  · simp only [OsdiKernel.newTimerEvent, herr, error_bind, reduceCtorEq] at hrun
  · by_cases hargs : args.length < argsRoom
    · simp only [OsdiKernel.newTimerEvent, hok, ok_bind, initalizeNewTimerEvent, if_pos hargs,
        Except.ok.injEq] at hrun
      subst hrun
      have hfresh : addr ∉ addedIn s.log := by
        intro ha
        obtain ⟨l, hl, hla⟩ := h.allocated addr ha
        exact hnew l hl hla
      have hne : ∀ a ∈ xs, a ≠ addr := fun a ha he => hfresh (he ▸ h.mem_added ha)
      refine ⟨rfl, ⟨addr, timerEventSize, .slab (7 - minKmallocOrder)⟩ :: live, ?_, ?_, ?_, ?_, rfl, rfl, rfl⟩
      · refine ⟨hmem, h.holds.detach (fun hm => hne addr hm rfl), ?_, h.once, h.account, ?_⟩
        · intro a ha
          obtain ⟨l, hl, hla⟩ := h.allocated a ha
          exact ⟨l, List.mem_cons_of_mem _ hl, hla⟩
        · intro a ha
          simp only [Function.update_of_ne (hne a ha)]
          exact h.timely a ha
      · exact ⟨⟨_, List.mem_cons_self .., rfl⟩, hfresh, by simp, by simp, by simp, by simp, UInt64.le_refl _⟩
      · simp
      · intro a ha
        exact Function.update_of_ne ha _ _
    · simp only [OsdiKernel.newTimerEvent, hok, ok_bind, initalizeNewTimerEvent, if_neg hargs, error_bind,
        reduceCtorEq] at hrun

/-- **The event goes on the list**, before the first that has more time left. -/
theorem add (h : TimersInv s xs live) (hf : InFlight s live e t) :
    ∃ links, addNewTimerEvents s e = .ok { s with links, log := s.log ++ [.added e] } ∧
      TimersInv { s with links, log := s.log ++ [.added e] } (insertEvent s e xs) live := by
  obtain ⟨links, hrun, hring⟩ := addNewTimerEvents_spec h.holds h.length_lt (h.not_mem hf) hf.null
  have hperm : (insertEvent s e xs).Perm (e :: xs) := List.perm_orderedInsert _ e xs
  refine ⟨links, hrun, h.mem, hring, ?_, ?_, ?_, ?_⟩
  · intro a ha
    rw [addedIn_added] at ha
    rcases List.mem_append.mp ha with hm | hm
    · exact h.allocated a hm
    · exact List.mem_singleton.mp hm ▸ hf.allocated
  · rw [addedIn_added]
    exact List.Nodup.append h.once (List.nodup_singleton e) (List.disjoint_singleton.mpr hf.fresh)
  · rw [addedIn_added, firedIn_added]
    calc (addedIn s.log ++ [e]).Perm (firedIn s.log ++ xs ++ [e]) := h.account.append_right [e]
      List.Perm _ (firedIn s.log ++ (e :: xs)) := by
        rw [List.append_assoc]
        exact (List.perm_append_singleton e xs).append_left _
      List.Perm _ (firedIn s.log ++ insertEvent s e xs) := hperm.symm.append_left _
  · intro a ha
    rcases List.mem_cons.mp (hperm.mem_iff.mp ha) with rfl | hm
    · exact hf.timely
    · exact h.timely a hm

/-- **The first event is called back**, and leaves the list. -/
theorem fired {links : Links TimerNode} (h : TimersInv s (e :: rest) live) (hrem : Removed s e rest links) :
    TimersInv (firedFirst s e rest links) rest live := by
  have hup := h.update (fun a ha => UInt64.le_trans (h.timely a ha).registered (h.timely a ha).past)
    (UInt64.le_refl _)
  refine ⟨h.mem, hrem.holds, ?_, ?_, ?_, fun a ha => hup.timely a (List.mem_cons_of_mem e ha)⟩
  · simp only [firedFirst, addedIn_fired]
    exact h.allocated
  · simp only [firedFirst, addedIn_fired]
    exact h.once
  · simp only [firedFirst, addedIn_fired, firedIn_fired, List.append_assoc, List.singleton_append]
    exact h.account

end TimersInv

end OsdiKernel
