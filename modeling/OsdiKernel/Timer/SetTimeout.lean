import OsdiKernel.Lib.Ram
import OsdiKernel.Shell.Grammar
import OsdiKernel.Timer.DeadlineOrder

/-!
# `setTimeout`

The line is `setTimeout`, the message and the seconds. The message is what comes
before the first blank; it is copied into an array of 30 bytes at the end of the
event, up to its NUL and however long it is. The line is shorter than 256.

The object that is allocated for an event is larger than the event, so it takes a
message of 72 characters to get at the next object.
-/

namespace OsdiKernel

variable {s s' : Timers} {xs : List Nat} {live : List Live} {e callback : Nat} {args message digits : List UInt8}
  {d : UInt64} {r : Ram}

/-! ## The command -/

/-- The inner loop of `coomand_setTimeout`, from a `duration` on. -/
def secondsFrom (duration : UInt64) : List UInt8 → UInt64
  | [] => duration
  | c :: cs => secondsFrom (duration * 10 + (c.toUInt64 - 48)) cs

/-- The outer loop: the string in `buf` afterwards, which ends at the first blank, and `duration`. -/
def splitTimeout : List UInt8 → List UInt8 × UInt64
  | [] => ([], 0)
  | c :: cs => if c = 32 then ([], secondsFrom 0 cs) else (c :: (splitTimeout cs).1, (splitTimeout cs).2)

/-- `offsetof(timer_event_t, args)` -/
def argsOffset : Nat := 56

/-- `sizeof` of `args` -/
def argsSize : Nat := 30

/-- The copy of the message in `InitalizeNewTimerEvent`: the loop, and the NUL. -/
def copyArgs (r : Ram) (timerEvent : Nat) (args : List UInt8) : Ram :=
  (r.storeBytes (timerEvent + argsOffset) args).store (timerEvent + argsOffset + args.length) 0

/-- `coomand_setTimeout`: the event it makes, the state afterwards, and the memory the message is copied in. -/
def coomandSetTimeout (s : Timers) (r : Ram) (printTimeoutEventInfo : Nat) (buf : List UInt8) :
    Except Fault (Nat × Timers × Ram) := do
  let (message, duration) := splitTimeout buf
  let (timerEvent, _, _) ← newTimerEvent s printTimeoutEventInfo message duration
  let s ← addTimer s printTimeoutEventInfo message duration
  .ok (timerEvent, s, copyArgs r timerEvent message)

/-- An Enter after these characters, if it is this command that it calls. -/
def enterSetTimeout (s : Timers) (r : Ram) (printTimeoutEventInfo : Nat) (text : List UInt8) (enter : UInt8) :
    Except Fault (Option (Nat × Timers × Ram)) := do
  match ← enterAfter text enter with
  | some ⟨.setTimeout, some buf⟩ => (coomandSetTimeout s r printTimeoutEventInfo buf).map some
  | _ => .ok none

/-! ## The line -/

/-- The number that decimal digits are. -/
def digitsValue (digits : List UInt8) : Nat := digits.foldl (fun n c => n * 10 + (c.toNat - 48)) 0

def IsDecimal (digits : List UInt8) : Prop := ∀ c ∈ digits, 48 ≤ c ∧ c ≤ 57

/-- `setTimeout`, the message, a blank and the seconds. -/
def timeoutLine (message digits : List UInt8) : List UInt8 := setTimeoutWord ++ (message ++ 32 :: digits)

theorem secondsFrom_ofNat (hd : IsDecimal digits) : ∀ n, secondsFrom (UInt64.ofNat n) digits =
    UInt64.ofNat (digits.foldl (fun n c => n * 10 + (c.toNat - 48)) n) := by
  induction digits with
  | nil => exact fun _ => rfl
  | cons c cs ih =>
      intro n
      have hge : 48 ≤ c.toNat := UInt8.le_iff_toNat_le.mp (hd c List.mem_cons_self).1
      have hdigit : c.toUInt64 - 48 = UInt64.ofNat (c.toNat - 48) := by
        have hle : (48 : UInt64) ≤ c.toUInt64 := UInt64.le_iff_toNat_le.mpr (by simpa using hge)
        rw [← UInt64.toNat_inj, UInt64.toNat_sub_of_le _ _ hle, UInt64.toNat_ofNat_of_lt']
        · rfl
        · have := c.toNat_lt
          show c.toNat - 48 < 2 ^ 64
          omega
      have hstep : UInt64.ofNat n * 10 + (c.toUInt64 - 48) = UInt64.ofNat (n * 10 + (c.toNat - 48)) := by
        rw [hdigit, UInt64.ofNat_add, UInt64.ofNat_mul]
        rfl
      rw [secondsFrom, hstep, List.foldl_cons]
      exact ih (fun b hb => hd b (List.mem_cons_of_mem _ hb)) _

/-- **The seconds** are the number that was typed. -/
theorem secondsFrom_toNat (hd : IsDecimal digits) (hlt : digitsValue digits < 2 ^ 64) :
    (secondsFrom 0 digits).toNat = digitsValue digits := by
  have h := secondsFrom_ofNat hd 0
  rw [show (0 : UInt64) = UInt64.ofNat 0 from rfl, h]
  exact UInt64.toNat_ofNat_of_lt' hlt

/-- The message ends at the first blank. -/
theorem splitTimeout_blank (h : 32 ∉ message) (rest : List UInt8) :
    splitTimeout (message ++ 32 :: rest) = (message, secondsFrom 0 rest) := by
  induction message with
  | nil => rfl
  | cons c cs ih =>
      have hc : c ≠ 32 := fun hc => h (hc ▸ List.mem_cons_self)
      rw [List.cons_append, splitTimeout, if_neg hc, ih (fun hm => h (List.mem_cons_of_mem _ hm))]

/-- An Enter calls the command with what was typed behind its name. -/
theorem enterSetTimeout_eq {enter : UInt8} (h : TypedLine (timeoutLine message digits)) (hn : parse enter = .newLine)
    (hblank : 32 ∉ message) : enterSetTimeout s r callback (timeoutLine message digits) enter = (do
      let (timerEvent, _, _) ← newTimerEvent s callback message (secondsFrom 0 digits)
      let s ← addTimer s callback message (secondsFrom 0 digits)
      .ok (some (timerEvent, s, copyArgs r timerEvent message))) := by
  have hprefix : setTimeoutWord.take 10 <+: timeoutLine message digits :=
    (List.take_prefix 10 setTimeoutWord).trans (List.prefix_append _ _)
  have hcall := enterAfter_typed h hn
  have hfor := callFor_setTimeout hprefix
  rw [callFor] at hfor
  rw [hfor, timeoutLine, List.drop_left' (by rfl)] at hcall
  rw [enterSetTimeout, timeoutLine, hcall]
  simp only [ok_bind, coomandSetTimeout, splitTimeout_blank hblank]
  rcases newTimerEvent s callback message (secondsFrom 0 digits) with fault | ⟨e, t, s₁⟩
  · rfl
  · simp only [ok_bind]
    rcases addTimer s callback message (secondsFrom 0 digits) with fault | s' <;> rfl

/-- What a call has made, and copied where. -/
theorem enterSetTimeout_ok {enter : UInt8} {r' : Ram} (h : TypedLine (timeoutLine message digits))
    (hn : parse enter = .newLine) (hblank : 32 ∉ message)
    (hrun : enterSetTimeout s r callback (timeoutLine message digits) enter = .ok (some (e, s', r'))) :
    (∃ mm, kmalloc s.mm timerEventSize = .ok (some e, mm)) ∧ r' = copyArgs r e message := by
  rw [enterSetTimeout_eq h hn hblank] at hrun
  obtain ⟨⟨e₁, now, s₁⟩, hnew, hrun⟩ := bind_eq_ok hrun
  obtain ⟨s₂, _, hrun⟩ := bind_eq_ok hrun
  simp only [Except.ok.injEq, Option.some.injEq, Prod.mk.injEq] at hrun
  obtain ⟨rfl, rfl, rfl⟩ := hrun
  refine ⟨?_, rfl⟩
  obtain ⟨⟨addr, mm⟩, hk, hnew⟩ := bind_eq_ok hnew
  cases addr with
  | none => exact absurd hnew nofun
  | some addr =>
      obtain ⟨s₃, _, hnew⟩ := bind_eq_ok hnew
      obtain rfl := (Prod.mk.inj (Except.ok.inj hnew)).1
      exact ⟨mm, hk⟩

/-! ## The event -/

/-- What `add_timer` makes of a fresh object: one more event on the list. -/
structure EventAdded (s : Timers) (xs : List Nat) (e : Nat) (args : List UInt8) (d : UInt64) (s' : Timers) : Prop where
  log : s'.log = s.log ++ [.added e]
  list : ∃ ys, OnList s' ys ∧ ys.Perm (e :: xs)
  args : (s'.events e).args = args ++ [0]
  duration : (s'.events e).duration = d
  /-- What the other events are for has not changed. -/
  others : ∀ a, a ≠ e → (s'.events a).args = (s.events a).args ∧ (s'.events a).deadline = (s.events a).deadline

theorem newTimerEvent_ok (callback : Nat) (d : UInt64) {mm : Mm} (hk : kmalloc s.mm timerEventSize = .ok (some e, mm)) (hargs : args.length < argsRoom) :
    ∃ s₁, newTimerEvent s callback args d = .ok (e, getSystemTime s.timer, s₁) ∧
      s₁.links = ⟨Function.update s.links.next (.event e) none, Function.update s.links.prev (.event e) none⟩ ∧
      s₁.log = s.log ∧ (s₁.events e).args = args ++ [0] ∧ (s₁.events e).duration = d ∧
      ∀ a, a ≠ e → s₁.events a = s.events a := by
  simp only [newTimerEvent, hk, ok_bind, initalizeNewTimerEvent, if_pos hargs]
  refine ⟨_, rfl, rfl, rfl, ?_, ?_, fun a ha => Function.update_of_ne ha _ _⟩
  · simp only [Function.update_self]
  · simp only [Function.update_self]

/-- The second half of `add_timer`. -/
theorem addAndArm_spec (hlist : OnList s xs) (hlen : xs.length < 2 ^ 64) (he : e ∉ xs)
    (hnull : s.links.prev (.event e) = none) :
    ∃ s', (addNewTimerEvents s e >>= setNextTimerEventInterrupt) = .ok s' ∧ s'.log = s.log ++ [.added e] ∧
      s'.events = s.events ∧ ∃ ys, OnList s' ys ∧ ys.Perm (e :: xs) := by
  obtain ⟨links, hadd, hring⟩ := addNewTimerEvents_spec hlist hlen he hnull
  obtain ⟨a, rest, hcons⟩ := insertEvent_eq_cons s e xs
  have hperm : (insertEvent s e xs).Perm (e :: xs) := List.perm_orderedInsert _ e xs
  have hlinks : IsRing links .timerList ((insertEvent s e xs).map .event) := hring
  have hfirst : OnList { s with links, log := s.log ++ [.added e] } (a :: rest) := by
    unfold OnList
    rw [← hcons]
    exact hlinks
  rw [hadd, ok_bind, setNextTimerEventInterrupt_spec hfirst]
  refine ⟨_, rfl, rfl, rfl, insertEvent s e xs, ?_, hperm⟩
  unfold OnList
  exact hlinks

theorem addTimer_spec (callback : Nat) (d : UInt64) (hlist : OnList s xs) (hlen : xs.length < 2 ^ 64) {mm : Mm}
    (hk : kmalloc s.mm timerEventSize = .ok (some e, mm)) (he : e ∉ xs) (hargs : args.length < argsRoom) :
    ∃ s', addTimer s callback args d = .ok s' ∧ EventAdded s xs e args d s' := by
  obtain ⟨s₁, hnew, hlinks, hlog, harg, hdur, hothers⟩ := newTimerEvent_ok callback d hk hargs
  have hring : OnList { s₁ with isTimerMultiplexingEventIRQ := 1 } xs := by
    show IsRing s₁.links .timerList (xs.map .event)
    rw [hlinks]
    exact hlist.detach he
  have hnull : s₁.links.prev (.event e) = none := by
    rw [hlinks]
    exact Function.update_self ..
  obtain ⟨s', hrun, hlog', hevents, hlist'⟩ := addAndArm_spec (s := { s₁ with
    isTimerMultiplexingEventIRQ := 1, events := updatedEvents s₁.events xs (getSystemTime s.timer) })
    hring hlen he hnull
  have hat : s'.events e = s₁.events e := (congrFun hevents e).trans (if_neg he)
  have hother : ∀ a, s'.events a = updatedEvents s₁.events xs (getSystemTime s.timer) a := congrFun hevents
  refine ⟨s', ?_, ?_, hlist', ?_, ?_, fun a ha => ⟨?_, ?_⟩⟩
  · simp only [addTimer, hnew, ok_bind, updateTimerEvents_spec hring hlen]
    exact hrun
  · rw [hlog', hlog]
  · rw [hat, harg]
  · rw [hat, hdur]
  · rw [hother, updatedEvents_args, hothers a ha]
  · rw [hother, updatedEvents_deadline, hothers a ha]

/-! ## The message -/

theorem copyArgs_eq : copyArgs r e args = r.storeBytes (e + argsOffset) (args ++ [0]) :=
  (Ram.storeBytes_append args [0] r (e + argsOffset)).symm

/-- **The copy** writes to as many bytes as the message has, and one more. -/
theorem copyArgs_wrote (r : Ram) (e : Nat) (args : List UInt8) :
    Wrote r (copyArgs r e args) (Within (e + argsOffset) (args.length + 1)) := by
  rw [copyArgs_eq]
  have h := Wrote.storeBytes (args ++ [0]) r (e + argsOffset)
  rwa [List.length_append, List.length_singleton] at h

theorem copyArgs_bytes (r : Ram) (e : Nat) (args : List UInt8) :
    BytesAt (fun a => some ((copyArgs r e args).mem a)) (e + argsOffset) (args ++ [0]) := by
  intro j c hj
  have hlt := (List.getElem?_eq_some_iff.mp hj).1
  simp only [copyArgs_eq, storeBytes_mem]
  rw [if_pos (by omega), Nat.add_sub_cancel_left, List.getD_eq_getElem?_getD, hj]
  rfl

/-- What the model of `InitalizeNewTimerEvent` takes for a fault is a byte written behind the object. -/
theorem copyArgs_inside_iff (mem : Nat → UInt8) (e : Nat) (args : List UInt8) :
    (∀ a ∈ (copyArgs ⟨mem, []⟩ e args).written, Within (e + argsOffset) argsRoom a) ↔ args.length < argsRoom := by
  have hwrote := copyArgs_wrote ⟨mem, []⟩ e args
  constructor
  · intro h
    have hlast := h (e + argsOffset + args.length) ((hwrote.written _).mpr (Or.inl ⟨by omega, by omega⟩))
    have := hlast.2
    omega
  · intro hlt a ha
    rcases (hwrote.written a).mp ha with hin | hin
    · exact ⟨hin.1, by have := hin.2; omega⟩
    · exact absurd hin List.not_mem_nil

/-! ## What was typed -/

/-- One event with that message and so many seconds is new on the list, and only its array was written to. -/
structure TimeoutSet (s : Timers) (xs : List Nat) (message : List UInt8) (seconds : Nat) (e : Nat) (s' : Timers)
    (r' : Ram) : Prop where
  event : EventAdded s xs e message (s'.events e).duration s'
  seconds : (s'.events e).duration.toNat = seconds
  bytes : BytesAt (fun a => some (r'.mem a)) (e + argsOffset) (message ++ [0])
  inside : ∀ a ∈ r'.written, Within (e + argsOffset) argsSize a

/-- There is an object for one more event, and it is not that of a pending one. -/
def HasRoom (s : Timers) (xs : List Nat) : Prop := ∃ e mm, kmalloc s.mm timerEventSize = .ok (some e, mm) ∧ e ∉ xs

/-- As long as nothing was freed the second half goes without saying. -/
theorem TimersInv.hasRoom_iff (h : TimersInv s xs live) : HasRoom s xs ↔ kmallocCan s.mm timerEventSize = true := by
  have hcls : kmallocClass timerEventSize = some 7 := by decide
  obtain ⟨c, hi⟩ := h.mem.inv
  rcases kmalloc_outcome hi timerEventSize with ⟨hcan, hrun⟩ | ⟨hcan, _, hrun, _⟩
  · rw [hcan]
    refine ⟨fun ⟨e, mm, hk, _⟩ => ?_, fun hf => absurd hf (by simp)⟩
    rw [show s.mm = (⟨s.mm, live⟩ : MmState).mm from rfl, hrun] at hk
    exact absurd hk nofun
  · rcases h.mem.kmalloc hcls (by decide) with herr | ⟨e, mm, hk, _, hnew⟩
    · rw [herr] at hrun
      exact absurd hrun nofun
    · refine iff_of_true ⟨e, mm, hk, fun he => ?_⟩ hcan
      obtain ⟨l, hl, hle⟩ := h.allocated e (h.mem_added he)
      exact hnew l hl hle

/-- What was written shows how long the message was. -/
theorem TimeoutSet.length_lt {mem : Nat → UInt8} {seconds : Nat}
    (h : TimeoutSet s xs message seconds e s' (copyArgs ⟨mem, []⟩ e message)) : message.length < argsSize := by
  have hwritten := ((copyArgs_wrote ⟨mem, []⟩ e message).written (e + argsOffset + message.length)).mpr
    (Or.inl ⟨by omega, by omega⟩)
  have := (h.inside _ hwritten).2
  omega

/-- A short message is set, if there is room for the event. -/
theorem setTimeout_of_short (callback : Nat) (hlist : OnList s xs) (hlen : xs.length < 2 ^ 64) {mm : Mm}
    (hk : kmalloc s.mm timerEventSize = .ok (some e, mm)) (he : e ∉ xs) (hshort : message.length < argsSize)
    (hdigits : IsDecimal digits) (hseconds : digitsValue digits < 2 ^ 64) (mem : Nat → UInt8) :
    ∃ s', addTimer s callback message (secondsFrom 0 digits) = .ok s' ∧
      TimeoutSet s xs message (digitsValue digits) e s' (copyArgs ⟨mem, []⟩ e message) := by
  have hroom : message.length < argsRoom := by
    unfold argsSize at hshort
    unfold argsRoom
    omega
  obtain ⟨s', hrun, hadded⟩ := addTimer_spec callback (secondsFrom 0 digits) hlist hlen hk he hroom
  refine ⟨s', hrun, ?_, ?_, copyArgs_bytes _ e message, fun a ha => ?_⟩
  · rw [hadded.duration]
    exact hadded
  · rw [hadded.duration]
    exact secondsFrom_toNat hdigits hseconds
  · rcases ((copyArgs_wrote ⟨mem, []⟩ e message).written a).mp ha with hin | hin
    · exact ⟨hin.1, by have := hin.2; omega⟩
    · exact absurd hin List.not_mem_nil

/--
**`setTimeout`** registers exactly what was typed, and writes nowhere else, if and
only if the message has less than 30 characters and there is room for the event.
-/
theorem setTimeout_registers_iff {enter : UInt8} (hlist : OnList s xs) (hlen : xs.length < 2 ^ 64)
    (hblank : 32 ∉ message) (hdigits : IsDecimal digits) (hseconds : digitsValue digits < 2 ^ 64)
    (htyped : TypedLine (timeoutLine message digits)) (henter : parse enter = .newLine) (mem : Nat → UInt8) :
    (∃ e s' r', enterSetTimeout s ⟨mem, []⟩ callback (timeoutLine message digits) enter = .ok (some (e, s', r')) ∧
      TimeoutSet s xs message (digitsValue digits) e s' r') ↔ HasRoom s xs ∧ message.length < argsSize := by
  constructor
  · rintro ⟨e, s', r', hrun, hset⟩
    obtain ⟨⟨mm, hk⟩, rfl⟩ := enterSetTimeout_ok htyped henter hblank hrun
    -- a pending event would be on the list twice
    obtain ⟨ys, hys, hperm⟩ := hset.event.list
    exact ⟨⟨e, mm, hk, (List.nodup_cons.mp (hperm.nodup_iff.mp hys.nodup)).1⟩, hset.length_lt⟩
  · rintro ⟨⟨e, mm, hk, he⟩, hshort⟩
    obtain ⟨s', hrun, hset⟩ := setTimeout_of_short callback hlist hlen hk he hshort hdigits hseconds mem
    obtain ⟨s₁, hnew, _⟩ := newTimerEvent_ok callback (secondsFrom 0 digits) hk
      (show message.length < argsRoom by unfold argsSize at hshort; unfold argsRoom; omega)
    refine ⟨e, s', _, ?_, hset⟩
    rw [enterSetTimeout_eq htyped henter hblank, hnew, ok_bind, hrun]
    rfl

/-- The first event there is. -/
theorem hasRoom_start : ∃ mm, OnList (timersStart mm) [] ∧ HasRoom (timersStart mm) [] := by
  have hrun : ((mmInit Mm.bss).bind (fun mm => kmalloc mm timerEventSize)).map Prod.fst = .ok (some 0x200000) := by
    decide +kernel
  rcases hmm : mmInit Mm.bss with fault | mm
  · rw [hmm] at hrun
    exact absurd hrun nofun
  · rw [hmm] at hrun
    rcases hk : kmalloc mm timerEventSize with fault | ⟨addr, mm'⟩
    · simp only [Except.bind, hk, Except.map] at hrun
      exact absurd hrun nofun
    · simp only [Except.bind, hk, Except.map] at hrun
      obtain rfl := Except.ok.inj hrun
      exact ⟨mm, IsRing.selfLoop _ _, 0x200000, mm', hk, List.not_mem_nil⟩

/-- `setTimeout hi 5` -/
theorem setTimeout_registers_hi : ∃ s, OnList s [] ∧ ∃ e s' r',
    enterSetTimeout s ⟨fun _ => 0, []⟩ 0 (timeoutLine [104, 105] [53]) 13 = .ok (some (e, s', r')) ∧
      TimeoutSet s [] [104, 105] (digitsValue [53]) e s' r' := by
  obtain ⟨mm, hlist, hroom⟩ := hasRoom_start
  exact ⟨timersStart mm, hlist, (setTimeout_registers_iff hlist (by decide) (by decide) (by simp [IsDecimal]) (by decide)
    ⟨by decide +kernel, by decide +kernel, by decide⟩ (by decide) _).mpr ⟨hroom, by decide⟩⟩

/-- A message of thirty characters, whose NUL is written behind the array. -/
theorem not_setTimeout_registers :
    ¬ ∀ (s : Timers) (xs : List Nat) (message digits : List UInt8) (enter : UInt8) (mem : Nat → UInt8) (callback : Nat),
      OnList s xs → xs.length < 2 ^ 64 → HasRoom s xs → message ≠ [] → 32 ∉ message → IsDecimal digits →
      digitsValue digits < 2 ^ 64 → TypedLine (timeoutLine message digits) → parse enter = .newLine →
      ∃ e s' r', enterSetTimeout s ⟨mem, []⟩ callback (timeoutLine message digits) enter = .ok (some (e, s', r')) ∧
        TimeoutSet s xs message (digitsValue digits) e s' r' := by
  intro hall
  obtain ⟨mm, hlist, hroom⟩ := hasRoom_start
  have htyped : TypedLine (timeoutLine (List.replicate 30 97) [53]) := by
    refine ⟨?_, ?_, ?_⟩ <;> decide +kernel
  obtain ⟨e, s', r', hrun, hset⟩ := hall (timersStart mm) [] (List.replicate 30 97) [53] 13 (fun _ => 0) 0 hlist
    (by decide) hroom (by decide) (by decide +kernel) (by simp [IsDecimal]) (by decide) htyped (by decide)
  obtain ⟨_, rfl⟩ := enterSetTimeout_ok htyped (by decide) (by decide +kernel) hrun
  have hlen := hset.length_lt
  rw [List.length_replicate] at hlen
  exact absurd hlen (by decide)

end OsdiKernel
