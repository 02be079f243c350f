import OsdiKernel.CInt
import OsdiKernel.Mm.Slab

/-!
# Timer events

One hardware timer serves any number of timeouts: `timer_list` holds the events
that are still to come, the next one first, each with the seconds that were left
when it was last updated, and the timer is set for the first of them. Whole
seconds are all the events know about; the timer counts ticks, `cntfrq_el0` to
the second.

The callback, `print_timeoutEventInfo`, and the dumps of the list only print.
-/

namespace OsdiKernel

/-! ## The hardware timer -/

/-- The registers of the core timer. -/
structure CoreTimer where
  /-- `cntfrq_el0` -/
  cntfrq : Nat
  /-- `cntpct_el0` -/
  cntpct : Nat
  /-- `cntp_cval_el0`, which `cntp_tval_el0` is a view of. -/
  cval : Nat
  /-- Bit 0 of `cntp_ctl_el0`. -/
  enabled : Bool
  deriving DecidableEq, Repr

namespace CoreTimer

/-- `msr cntp_tval_el0`: the low 32 bits of the value, signed, count from now. -/
@[irreducible] def setTval (t : CoreTimer) (value : Nat) : CoreTimer :=
  { t with cval := toUnsignedLong (t.cntpct + toInt value) }

@[simp] theorem setTval_cntfrq (t : CoreTimer) (value : Nat) : (t.setTval value).cntfrq = t.cntfrq := by
  rw [setTval]

@[simp] theorem setTval_cntpct (t : CoreTimer) (value : Nat) : (t.setTval value).cntpct = t.cntpct := by
  rw [setTval]

@[simp] theorem setTval_enabled (t : CoreTimer) (value : Nat) : (t.setTval value).enabled = t.enabled := by
  rw [setTval]


theorem setTval_cval (t : CoreTimer) (value : Nat) :
    (t.setTval value).cval = toUnsignedLong (t.cntpct + toInt value) := by
  rw [setTval]

/-- The timer asserts its interrupt. -/
def pending (t : CoreTimer) : Bool := t.enabled && decide (t.cval ≤ t.cntpct)

end CoreTimer

/-- `core_timer_enable` -/
def coreTimerEnable (t : CoreTimer) : CoreTimer :=
  { t with enabled := true }.setTval (t.cntfrq >>> 5)

/-- `core_timer_disable` -/
def coreTimerDisable (t : CoreTimer) : CoreTimer := { t with enabled := false }

/-- `core_timer_handler` -/
def coreTimerHandler (t : CoreTimer) : CoreTimer := t.setTval (t.cntfrq >>> 5)

/-- `get_system_time` -/
def getSystemTime (t : CoreTimer) : UInt64 := UInt64.ofNat (t.cntpct / t.cntfrq)

/-! ## The events -/

/-- A node of the timer list: the list itself, or the event at an address. -/
inductive TimerNode where
  | timerList
  | event (addr : Nat)
  deriving DecidableEq, Repr

/-- `timer_event_t`, less its list node, which lives in `links`. -/
structure TimerEvent where
  registerTime : UInt64
  prevUpdatedTime : UInt64
  duration : UInt64
  remainingTime : UInt64
  callback : Nat
  args : List UInt8
  deriving DecidableEq, Repr

/-- `sizeof(timer_event_t)` -/
def timerEventSize : Int := 88

/-- From `args` to the end of the object `kmalloc` takes for an event: `128 - offsetof(timer_event_t, args)`. -/
def argsRoom : Nat := 72

/-- What happened to an event. -/
inductive Happening where
  /-- It was put on the list. -/
  | added (event : Nat)
  /-- Its callback was called, at that system time. -/
  | fired (event : Nat) (time : UInt64)
  deriving DecidableEq, Repr

/-- The globals of `timer.c`, the allocator and the timer under them, and what has happened so far. -/
structure Timers where
  mm : Mm
  links : Links TimerNode
  events : Nat → TimerEvent
  isTimerMultiplexingEventIRQ : Int
  timer : CoreTimer
  /-- The word of memory that would be `remainingTime` if `timer_list` were an event. -/
  beyond : UInt64
  log : List Happening

/-- `InitalizeNewTimerEvent`. The message is copied whatever its length. -/
def initalizeNewTimerEvent (s : Timers) (timerEvent : Nat) (callback : Nat) (args : List UInt8)
    (duration registerTime : UInt64) : Except Fault Timers :=
  if args.length < argsRoom then
    .ok { s with
      links := ⟨Function.update s.links.next (.event timerEvent) none,
        Function.update s.links.prev (.event timerEvent) none⟩
      events := Function.update s.events timerEvent
        { registerTime := registerTime
          prevUpdatedTime := registerTime
          duration := duration
          remainingTime := duration
          callback := callback
          args := args ++ [0] } }
  else .error .outOfBounds

/-- An event, `system_time` seconds after the start. -/
def TimerEvent.update (e : TimerEvent) (systemTime : UInt64) : TimerEvent :=
  { e with
    remainingTime := e.remainingTime - (systemTime - e.prevUpdatedTime)
    prevUpdatedTime := systemTime }

/-- `UpdateTimerEvents` -/
def updateTimerEvents (s : Timers) (systemTime : UInt64) : Except Fault Timers :=
  listForEach (fun s => s.links.next) .timerList
    (fun current s =>
      match current with
      | .event e => .ok (true, { s with events := Function.update s.events e ((s.events e).update systemTime) })
      | .timerList => .error .badCast)
    s

/-- The search of `AddNewTimerEvents`: before the first greater one. -/
def insertBeforeGreater (s : Timers) (timerEvent : Nat) : Except Fault Timers :=
  listForEach (fun s => s.links.next) .timerList
    (fun current s =>
      match current with
      | .event e =>
          if (s.events timerEvent).remainingTime < (s.events e).remainingTime then
            match s.links.prev current with
            | none => .error .nullDeref
            | some current => do
                let links ← listAdd s.links (.event timerEvent) current
                .ok (false, { s with links })
          else .ok (true, s)
      | .timerList => .error .badCast)
    s

/-- `AddNewTimerEvents` -/
def addNewTimerEvents (s : Timers) (timerEvent : Nat) : Except Fault Timers := do
  let s ←
    if listEmpty s.links .timerList then do
      let links ← listAdd s.links (.event timerEvent) .timerList
      pure { s with links }
    else do
      let s ← insertBeforeGreater s timerEvent
      if s.links.prev (.event timerEvent) = none then do
        let links ← listAddTail s.links (.event timerEvent) .timerList
        pure { s with links }
      else pure s
  .ok { s with log := s.log ++ [Happening.added timerEvent] }

/-- `((timer_event_t *) node)->remainingTime` -/
def remainingTimeAt (s : Timers) : Option TimerNode → Except Fault UInt64
  | some (.event e) => .ok (s.events e).remainingTime
  | some .timerList => .ok s.beyond
  | none => .error .nullDeref

/-- The timer enabled, and set for so many seconds from now. -/
def armTimer (t : CoreTimer) (duration : UInt64) : CoreTimer :=
  (coreTimerEnable t).setTval (toUnsignedLong (t.cntfrq * duration.toNat))

/-- `setNextTimerEventInterrupt` -/
def setNextTimerEventInterrupt (s : Timers) : Except Fault Timers := do
  let nextTimeoutDuration ← remainingTimeAt s (s.links.next .timerList)
  .ok { s with timer := armTimer s.timer nextTimeoutDuration }

/-- The first half of `add_timer`: an event of its own, not yet on the list. -/
def newTimerEvent (s : Timers) (callback : Nat) (args : List UInt8) (duration : UInt64) :
    Except Fault (Nat × UInt64 × Timers) := do
  let (timerEvent, mm) ← kmalloc s.mm timerEventSize
  match timerEvent with
  -- the result is used unchecked
  | none => .error .nullDeref
  | some timerEvent =>
      let currentSystemTime := getSystemTime s.timer
      let s ← initalizeNewTimerEvent { s with mm } timerEvent callback args duration currentSystemTime
      .ok (timerEvent, currentSystemTime, s)

/-- `add_timer` -/
def addTimer (s : Timers) (callback : Nat) (args : List UInt8) (duration : UInt64) : Except Fault Timers := do
  let (timerEvent, currentSystemTime, s) ← newTimerEvent s callback args duration
  let s ← updateTimerEvents { s with isTimerMultiplexingEventIRQ := 1 } currentSystemTime
  let s ← addNewTimerEvents s timerEvent
  setNextTimerEventInterrupt s

/-- `timerEvents_irq_handler` -/
def timerEventsIrqHandler (s : Timers) : Except Fault Timers := do
  let systemTime := getSystemTime s.timer
  let s ← updateTimerEvents s systemTime
  match s.links.next .timerList with
  | none => .error .nullDeref
  -- the list head is called through as if it were an event
  | some .timerList => .error .badCast
  | some (.event timeoutEvent) => do
      let s := { s with log := s.log ++ [Happening.fired timeoutEvent systemTime] }
      let links ← listDel s.links (.event timeoutEvent)
      let s := { s with links }
      if !listEmpty s.links .timerList then setNextTimerEventInterrupt s
      else .ok { s with timer := coreTimerDisable s.timer, isTimerMultiplexingEventIRQ := 0 }

/-! ## The list and its events -/

/-- When an event is due. -/
def TimerEvent.deadline (e : TimerEvent) : Nat := e.registerTime.toNat + e.duration.toNat

/-- What the code means by the remaining time: the time to the deadline, when it was last updated. -/
def TimerEvent.Current (e : TimerEvent) : Prop :=
  e.remainingTime = e.registerTime + e.duration - e.prevUpdatedTime

/-- The list holds the events `xs`, in that order. -/
def OnList (s : Timers) (xs : List Nat) : Prop := IsRing s.links .timerList (xs.map .event)

end OsdiKernel
