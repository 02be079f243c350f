import OsdiKernel.Lib.Ledger
import OsdiKernel.Sched.Stores
import OsdiKernel.Sched.TaskSystem

/-!
# Whose pages are out

The kernel keeps no record of which pages it took for which process, so a ledger
does: one account for each slot of `task[]`, closed when `sys_kill` empties the
slot. Entries are not made by what a call intends but by what it does: the
frames that were free before it and are not after it are taken on the account of
the process the call was for, and those that are free only after it are
returned.

A process made by `sys_fork` leaves nothing behind if it never calls `sys_exec`,
exits by itself, and is then killed as a zombie. `LedgerInv` says why: what is
out on the account of such a process is what its task uses.
-/

namespace OsdiKernel

/-- What the ledger says about a process. -/
structure ProcTag where
  /-- It was made by `sys_fork`. -/
  forked : Bool
  /-- It has exited, or been killed. -/
  ended : Bool
  /-- `kill_zombies` has run since. -/
  reaped : Bool
  deriving DecidableEq, Repr

/-- Accounts by slot; what is taken and returned is page frames. -/
abbrev Books := Ledger ProcTag Nat

open Classical in
/-- Whether frame `f` was free in `k` and is not in `k'`. -/
noncomputable def took (k k' : Kernel) (f : Nat) : Nat :=
  if f ∈ freeFrames k.mm ∧ f ∉ freeFrames k'.mm then 1 else 0

/-- Enter a call that led from `k` to `k'`. -/
noncomputable def Account.enter (A : Account ProcTag Nat) (k k' : Kernel) : Account ProcTag Nat :=
  A.post (took k k') (took k' k)

/-- The kernel, and the ledger. -/
structure LeakState where
  k : Kernel
  books : Books

/-- What processes do, and the idle loop's `kill_zombies`. -/
inductive LeakOp where
  | copyProcess (cloneFlags fn arg : Nat)
  | moveToUserMode (pc : Nat)
  | sysFork
  | sysExec (result fileSize argv : Nat)
  | sysExit
  | sysKill (pid : Int)
  | killZombies
  | schedule

/-- The owner has exited, or been killed. -/
def ProcTag.end (t : ProcTag) : ProcTag := { t with ended := true }

/-- `kill_zombies` has run, and should leave nothing of a process that has ended. -/
def ProcTag.reap (t : ProcTag) : ProcTag := { t with reaped := t.reaped || t.ended }

/-- An account for a new process. -/
def newAccount (forked : Bool) : Account ProcTag Nat := Account.new ⟨forked, false, false⟩

/-- The account of the current process. -/
def LeakState.account (s : LeakState) : Account ProcTag Nat := s.books.seats s.k.cur.pid.toNat

/-- Enter a call on the account of the current process. -/
noncomputable def LeakState.charge (s : LeakState) (k' : Kernel) : LeakState :=
  ⟨k', s.books.change s.k.cur.pid.toNat (s.account.enter s.k k') []⟩

/--
Calls have the slot and the pages they need, only a thread without a stack goes
to user mode, and `sys_kill` is for another process in the table.
-/
noncomputable def leakSystem : System LeakState LeakOp Fault where
  legal := fun s op =>
    match op with
    | .copyProcess cloneFlags _ _ => cloneFlags &&& pfKthread ≠ 0 ∧ CanCopy s.k
    | .moveToUserMode _ => s.k.cur.stack = 0 ∧ (freeFrames s.k.mm).Nonempty
    | .sysFork => CanFork s.k
    | .sysExec result fileSize argv => (freeFrames s.k.mm).Nonempty ∧
        argcCount (moveFile s.k.mem moveAddress result fileSize) argv (pageSize / 8 + 1) ≠ none
    | .sysExit => s.k.current ≠ .initTask
    | .sysKill pid => 0 < pid ∧ pid < taskSlots ∧ pid ≠ s.k.cur.pid ∧ s.k.task pid.toNat ≠ none
    | .killZombies => True
    | .schedule => True
  exec := fun s op =>
    match op with
    | .copyProcess cloneFlags fn arg => do
        let (pid, k) ← copyProcess s.k cloneFlags fn arg 0
        .ok ⟨k, s.books.change pid.toNat ((newAccount false).enter s.k k) []⟩
    | .moveToUserMode pc => do
        let (_, k) ← moveToUserMode s.k pc
        .ok (s.charge k)
    | .sysFork => do
        let (pid, k) ← sysFork s.k
        .ok ⟨k, s.books.change pid.toNat ((newAccount true).enter s.k k) []⟩
    | .sysExec result fileSize argv => do
        let (_, k) ← sysExec s.k result fileSize argv
        .ok (s.charge k)
    | .sysExit => do
        let k ← sysExit s.k
        .ok ⟨k, s.books.change s.k.cur.pid.toNat ((s.account.enter s.k k).retag ProcTag.end) []⟩
    | .sysKill pid => do
        let k ← sysKill s.k pid
        .ok ⟨k, s.books.change pid.toNat (newAccount false)
          [((s.books.seats pid.toNat).enter s.k k).retag ProcTag.end]⟩
    | .killZombies => .ok ⟨killZombies s.k, s.books.retag ProcTag.reap⟩
    | .schedule => do
        let k ← schedule s.k
        .ok { s with k }

/--
The calls that leave nothing behind: a forked process does not exec, is killed
only as a zombie, and is so before `kill_zombies` runs.
-/
def Tidy (s : LeakState) : LeakOp → Prop
  | .sysExec _ fileSize _ => s.account.tag.forked = false ∧ LoadsFree s.k fileSize
  | .sysKill pid => (s.books.seats pid.toNat).tag.forked = true →
      ∀ p, s.k.task pid.toNat = some p → (s.k.tasks p).state = .zombie
  | .killZombies => ∀ i p, s.k.task i = some p → (s.books.seats i).tag.forked = true →
      (s.k.tasks p).state ≠ .zombie
  | _ => True

/-- Runs of such calls. -/
noncomputable def tidySystem : System LeakState LeakOp Fault where
  legal := fun s op => leakSystem.legal s op ∧ Tidy s op
  exec := leakSystem.exec

/-- The kernel after `mm_init`, with `init_task`'s account and nothing on it. -/
def LeakBoot (s : LeakState) : Prop := Boot s.k ∧ s.books = ⟨fun _ => newAccount false, []⟩

/-- Somebody who is not a reaped process holds `f`. -/
def Holds (s : LeakState) (f : Nat) : Prop :=
  (∃ i, i < taskSlots ∧ (s.books.seats i).out f ≠ 0) ∨
  ∃ A ∈ s.books.closed, ¬ (A.tag.forked = true ∧ A.tag.reaped = true) ∧ A.out f ≠ 0

/-- Forked processes that have ended, once `kill_zombies` has run, hold nothing. -/
structure NoLeak (s : LeakState) : Prop where
  /-- No account, of whomever, returned a page more often than it had taken it. -/
  sound : s.books.Sound taskSlots
  /-- Their slots are free: no task in the table is one of them. -/
  slot : ∀ i p, s.k.task i = some p →
    ¬ ((s.books.seats i).tag.forked = true ∧ (s.books.seats i).tag.reaped = true)
  /-- Every page taken for them was returned, as often as it was taken. -/
  settled : ∀ A ∈ s.books.closed, A.tag.forked = true → A.tag.reaped = true → A.Settled
  /-- The free frames are all but those that somebody else holds. -/
  frames : ∀ f, f < pageFrameNum → (f ∈ freeFrames s.k.mm ↔ ¬ Holds s f)

/-! ## The invariant -/

/-- What the ledger says about a slot and the task `p` in it. -/
structure SeatInv (k : Kernel) (p : TaskPtr) (A : Account ProcTag Nat) : Prop where
  /-- What the task uses is out on its account, -/
  owns : ∀ r b, pageOf k p r = some b → A.out (phyAddrToPfn b) = 1
  /-- and for a forked process nothing else is. -/
  only : A.tag.forked = true → ∀ f, A.out f ≠ 0 → ∃ r b, pageOf k p r = some b ∧ f = phyAddrToPfn b
  zombie : A.tag.ended = true → (k.tasks p).state = .zombie
  unreaped : A.tag.forked = true → A.tag.reaped = false

/-- The ledger agrees with the kernel. -/
structure LedgerInv (k : Kernel) (L : Books) : Prop where
  sound : L.Sound taskSlots
  /-- A frame is out once if it is not free, and otherwise not. -/
  free : ∀ f, f < pageFrameNum → f ∈ freeFrames k.mm → L.total taskSlots f = 0
  out : ∀ f, f < pageFrameNum → f ∉ freeFrames k.mm → L.total taskSlots f = 1
  vacant : ∀ i, i < taskSlots → k.task i = none → ∀ f, (L.seats i).out f = 0
  seat : ∀ i p, k.task i = some p → SeatInv k p (L.seats i)
  /-- Forked processes that left the table hold nothing. -/
  gone : ∀ A ∈ L.closed, A.tag.forked = true → A.Settled

variable {k k' : Kernel} {L : Books} {s s' : LeakState} {c c' : Link → List Nat} {live : List Live}
  {p : TaskPtr} {i a f : Nat} {A : Account ProcTag Nat} {As : List (Account ProcTag Nat)}

/-! ### Entries -/

theorem enter_out : (A.enter k k').out f = A.out f + took k k' f - took k' k f := Account.post_out ..

@[simp] theorem enter_tag : (A.enter k k').tag = A.tag := rfl

/-- The frames in `X` were taken. -/
theorem took_of_taken {X : Nat → Prop} (hX : ∀ f, X f → f ∈ freeFrames k.mm)
    (h : ∀ f, f ∈ freeFrames k'.mm ↔ f ∈ freeFrames k.mm ∧ ¬ X f) :
    (∀ f, X f → (A.enter k k').out f = A.out f + 1) ∧ ∀ f, ¬ X f → (A.enter k k').out f = A.out f := by
  have hback : ∀ f, took k' k f = 0 := fun f => if_neg fun hf => hf.2 ((h f).mp hf.1).1
  refine ⟨fun f hf => ?_, fun f hf => ?_⟩
  · have h1 : took k k' f = 1 := if_pos ⟨hX f hf, fun hm => ((h f).mp hm).2 hf⟩
    rw [enter_out, h1, hback]
    omega
  · have h0 : took k k' f = 0 := if_neg fun hm => hm.2 ((h f).mpr ⟨hm.1, hf⟩)
    rw [enter_out, h0, hback]
    omega

/-- The frames in `X` were returned. -/
theorem took_of_given {X : Nat → Prop} (hX : ∀ f, X f → f ∉ freeFrames k.mm)
    (h : ∀ f, f ∈ freeFrames k'.mm ↔ f ∈ freeFrames k.mm ∨ X f) :
    (∀ f, X f → (A.enter k k').out f = A.out f - 1) ∧ ∀ f, ¬ X f → (A.enter k k').out f = A.out f := by
  have hback : ∀ f, took k k' f = 0 := fun f => if_neg fun hf => hf.2 ((h f).mpr (Or.inl hf.1))
  refine ⟨fun f hf => ?_, fun f hf => ?_⟩
  · have h1 : took k' k f = 1 := if_pos ⟨(h f).mpr (Or.inr hf), hX f hf⟩
    rw [enter_out, h1, hback]
    omega
  · have h0 : took k' k f = 0 := if_neg fun hm => (((h f).mp hm.1).elim hm.2 hf)
    rw [enter_out, h0, hback]
    omega

/-- What an entry does to the total is what the call did to the free frames. -/
theorem enter_total (k' : Kernel) (ht : ∀ f, f < pageFrameNum → f ∈ freeFrames k.mm → L.total taskSlots f = 0)
    (ho : ∀ f, f < pageFrameNum → f ∉ freeFrames k.mm → L.total taskSlots f = 1)
    (hf : f < pageFrameNum) :
    (f ∈ freeFrames k'.mm → L.total taskSlots f + took k k' f - took k' k f = 0) ∧
    (f ∉ freeFrames k'.mm → L.total taskSlots f + took k k' f - took k' k f = 1) := by
  by_cases hk : f ∈ freeFrames k.mm
  · rw [ht f hf hk]
    have h0 : took k' k f = 0 := if_neg fun hm => hm.2 hk
    rw [h0]
    refine ⟨fun hk' => ?_, fun hk' => ?_⟩
    · rw [show took k k' f = 0 from if_neg fun hm => hm.2 hk']; rfl
    · rw [show took k k' f = 1 from if_pos ⟨hk, hk'⟩]; rfl
  · rw [ho f hf hk]
    have h0 : took k k' f = 0 := if_neg fun hm => hk hm.1
    rw [h0]
    refine ⟨fun hk' => ?_, fun hk' => ?_⟩
    · rw [show took k' k f = 1 from if_pos ⟨hk', hk⟩]; rfl
    · rw [show took k' k f = 0 from if_neg fun hm => hk' hm.1]; rfl

/-- **One seat changes**, and perhaps an account is closed. -/
theorem LedgerInv.change (h : LedgerInv k L) (hi : i < taskSlots)
    (hout : ∀ f, A.out f + (As.map (fun B => B.out f)).sum
      = (L.seats i).out f + took k k' f - took k' k f)
    (hA : ∀ f, 0 ≤ A.out f) (hAs : ∀ B ∈ As, ∀ f, 0 ≤ B.out f)
    (hother : ∀ j q, j ≠ i → k'.task j = some q → k.task j = some q ∧
      (∀ r, pageOf k' q r = pageOf k q r) ∧ (k'.tasks q).state = (k.tasks q).state)
    (hnull : ∀ j, j ≠ i → k'.task j = none → k.task j = none)
    (hvacant : k'.task i = none → ∀ f, A.out f = 0)
    (hseat : ∀ q, k'.task i = some q → SeatInv k' q A)
    (hgone : ∀ B ∈ As, B.tag.forked = true → B.Settled) :
    LedgerInv k' (L.change i A As) where
  sound := h.sound.change hA hAs
  free := by
    intro f hf hfree
    have := (enter_total k' h.free h.out hf).1 hfree
    rw [Ledger.total_change hi]
    have := hout f
    omega
  out := by
    intro f hf hfree
    have := (enter_total k' h.free h.out hf).2 hfree
    rw [Ledger.total_change hi]
    have := hout f
    omega
  vacant := by
    intro j hj hnone
    by_cases hji : j = i
    · subst hji
      rw [Ledger.change_seat]
      exact hvacant hnone
    · rw [Ledger.change_seat_ne L A As hji]
      exact h.vacant j hj (hnull j hji hnone)
  seat := by
    intro j q hq
    by_cases hji : j = i
    · subst hji
      rw [Ledger.change_seat]
      exact hseat q hq
    · obtain ⟨hq', hpage, hstate⟩ := hother j q hji hq
      obtain ⟨h1, h2, h3, h4⟩ := h.seat j q hq'
      rw [Ledger.change_seat_ne L A As hji]
      refine ⟨fun r b hb => h1 r b (hpage r ▸ hb), fun hfk f hf => ?_, fun he => ?_, h4⟩
      · obtain ⟨r, b, hb, hfb⟩ := h2 hfk f hf
        exact ⟨r, b, (hpage r).trans hb, hfb⟩
      · rw [hstate]
        exact h3 he
  gone := by
    intro B hB
    rcases List.mem_append.mp hB with hB | hB
    · exact hgone B hB
    · exact h.gone B hB

/-! ### The calls -/

/-- Where a live page is. -/
theorem SlabInv.frame_of_page {mm : Mm} (h : SlabInv mm c live) (ha : pageAt a ∈ live) :
    phyAddrToPfn a ∉ freeFrames mm ∧ a = frameAddr (phyAddrToPfn a) := by
  obtain ⟨p, hp, haddr, _, hfree⟩ := h.pageAllocated ha
  have hpfn : phyAddrToPfn a = p := haddr ▸ phyAddrToPfn_frame hp
  rw [hpfn]
  exact ⟨hfree, haddr⟩

/-- Two pages in use are in different frames. -/
theorem TableInv.frame_ne (h : TableInv k c live) {q : TaskPtr} {r u : Use} {b : Nat}
    (hp : InTable k p) (hq : InTable k q) (ha : pageOf k p r = some a) (hb : pageOf k q u = some b)
    (hne : ¬ (p = q ∧ r = u)) : phyAddrToPfn a ≠ phyAddrToPfn b := by
  intro he
  have hab : a = b := by
    rw [(h.mm.slab.frame_of_page (h.live p hp r a ha)).2, (h.mm.slab.frame_of_page (h.live q hq u b hb)).2, he]
  exact hne (h.once p q hp hq r u a ha (hab ▸ hb))

/-- The current task's slot. -/
theorem TaskInv.slot_current (h : TaskInv k c live) :
    k.cur.pid.toNat < taskSlots ∧ k.task k.cur.pid.toNat = some k.current := by
  obtain ⟨⟨i, hi, ht⟩, _⟩ := h.current
  have hpid : k.cur.pid = i := h.pid i _ ht
  rw [hpid, Int.toNat_natCast]
  exact ⟨hi, ht⟩

/-- What is free is on no account. -/
theorem LedgerInv.out_of_free (h : LedgerInv k L) (hf : f < pageFrameNum) (hfree : f ∈ freeFrames k.mm)
    (hi : i < taskSlots) : (L.seats i).out f = 0 :=
  (h.sound.settled (h.free f hf hfree)).1 i hi

/-- **A process is created** in slot `i`, with what it uses on its account. -/
theorem LedgerInv.create (h : LedgerInv k L) (hT : TaskInv k c live) (hi : i < taskSlots)
    (hnone : k.task i = none) (forked : Bool) (ha : pageAt a ∉ live)
    (htask : k'.task = Function.update k.task i (some (.page a)))
    (hold : ∀ q, q ≠ .page a → k'.tasks q = k.tasks q)
    (hX : ∀ f, (∃ r b, pageOf k' (.page a) r = some b ∧ f = phyAddrToPfn b) → f ∈ freeFrames k.mm)
    (hfr : ∀ f, f ∈ freeFrames k'.mm ↔
      f ∈ freeFrames k.mm ∧ ¬ ∃ r b, pageOf k' (.page a) r = some b ∧ f = phyAddrToPfn b) :
    LedgerInv k' (L.change i ((newAccount forked).enter k k') []) := by
  have hself : k'.task i = some (.page a) := by rw [htask, Function.update_self]
  have hne : ∀ j, j ≠ i → k'.task j = k.task j := fun j hj => by rw [htask, Function.update_of_ne hj]
  obtain ⟨hin, hout⟩ := took_of_taken (A := newAccount forked) hX hfr
  have hzero : ∀ f, (newAccount forked).out f = 0 := fun f => rfl
  refine h.change hi ?_ ?_ (fun B hB => absurd hB (by simp)) ?_ ?_ ?_ ?_ (fun B hB => absurd hB (by simp))
  · intro f
    rw [enter_out, h.vacant i hi hnone f, hzero]
    simp
  · intro f
    by_cases hf : ∃ r b, pageOf k' (.page a) r = some b ∧ f = phyAddrToPfn b
    · rw [hin f hf, hzero]; decide
    · rw [hout f hf, hzero]
  · intro j q hj hq
    rw [hne j hj] at hq
    have hqa : q ≠ .page a := hT.fresh_ne ha (hT.inTable hq)
    exact ⟨hq, pageOf_congr (hold q hqa), by rw [hold q hqa]⟩
  · intro j hj hjn
    rwa [hne j hj] at hjn
  · intro hn
    rw [hself] at hn
    exact absurd hn (by simp)
  · intro q hq
    rw [hself] at hq
    obtain rfl : TaskPtr.page a = q := Option.some.inj hq
    refine ⟨fun r b hb => ?_, fun _ f hf => ?_, fun he => absurd he (by simp [newAccount, Account.new]),
      fun _ => rfl⟩
    · rw [hin _ ⟨r, b, hb, rfl⟩, hzero]; rfl
    · by_contra hno
      rw [hout f hno, hzero] at hf
      exact hf rfl

/-- The seat of a task that took one page more, which was on no account. -/
theorem SeatInv.took {B : Account ProcTag Nat} {t : Task} (h : SeatInv k p A) (htask : k'.tasks p = t)
    (htag : B.tag = A.tag) (hfree : A.out (phyAddrToPfn a) = 0) (hone : B.out (phyAddrToPfn a) = 1)
    (hkept : ∀ f, f ≠ phyAddrToPfn a → B.out f = A.out f) (hstate : t.state = (k.tasks p).state)
    (hstack : t.userStack = (k.tasks p).userStack ∨ ((k.tasks p).userStack = none ∧ t.userStack = some a))
    (honly : A.tag.forked = true → t.userStack = some a) : SeatInv k' p B := by
  -- a page in use already is in another frame
  have hused : ∀ r b, pageOf k p r = some b → B.out (phyAddrToPfn b) = 1 := by
    intro r b hb
    have hout := h.owns r b hb
    have hne : phyAddrToPfn b ≠ phyAddrToPfn a := by
      intro he
      rw [he, hfree] at hout
      exact absurd hout (by decide)
    exact (hkept _ hne).trans hout
  refine ⟨?_, ?_, ?_, by rw [htag]; exact h.unreaped⟩
  · intro r b hb
    cases r with
    | task => exact hused .task b hb
    | stack =>
        rw [pageOf, htask] at hb
        rcases hstack with hs | ⟨_, hs⟩
        · rw [hs] at hb
          exact hused .stack b hb
        · rw [hs] at hb
          rw [← Option.some.inj hb]
          exact hone
  · rw [htag]
    intro hfk f hf
    by_cases hfa : f = phyAddrToPfn a
    · exact ⟨.stack, a, by rw [pageOf, htask]; exact honly hfk, hfa⟩
    · rw [hkept f hfa] at hf
      obtain ⟨r, b, hb, hfb⟩ := h.only hfk f hf
      cases r with
      | task => exact ⟨.task, b, hb, hfb⟩
      | stack =>
          -- a stack it had already it would have kept
          rcases hstack with hs | ⟨hs, _⟩
          · exact ⟨.stack, b, by rw [pageOf, htask, hs]; exact hb, hfb⟩
          · rw [pageOf, hs] at hb
            exact absurd hb (by simp)
  · intro he
    rw [htask, hstate]
    exact h.zombie (htag ▸ he)

/-- **The current task takes a page**, and may start to use it. -/
theorem LedgerInv.take (h : LedgerInv k L) (hT : TaskInv k c live) {mm' : Mm} {t : Task}
    {mem : Nat → UInt8} (ht : TookPage k.mm live a mm' c') (hstate : t.state = k.cur.state)
    (hstack : t.userStack = k.cur.userStack ∨ (k.cur.userStack = none ∧ t.userStack = some a))
    (honly : (L.seats k.cur.pid.toNat).tag.forked = true → t.userStack = some a) :
    LedgerInv { setCurrent k mm' t with mem }
      (L.change k.cur.pid.toNat
        ((L.seats k.cur.pid.toNat).enter k { setCurrent k mm' t with mem }) []) := by
  obtain ⟨hi, hslot⟩ := hT.slot_current
  generalize hL : L.seats k.cur.pid.toNat = B at honly ⊢
  generalize hii : k.cur.pid.toNat = i at hi hslot hL ⊢
  let k' : Kernel := { setCurrent k mm' t with mem }
  have hcur : k'.tasks k.current = t := Function.update_self ..
  have hother : ∀ q, q ≠ k.current → k'.tasks q = k.tasks q := fun q hq => Function.update_of_ne hq ..
  have hframes : ∀ f, f ∈ freeFrames k'.mm ↔ f ∈ freeFrames k.mm ∧ ¬ f = phyAddrToPfn a := ht.frames
  obtain ⟨h1, h2⟩ := took_of_taken (A := B) (fun f hf => hf ▸ ht.wasFree) hframes
  have hfN : phyAddrToPfn a < pageFrameNum := (hT.mm.slab.buddy.freeFrames_iff.mp ht.wasFree).1
  have hB0 : B.out (phyAddrToPfn a) = 0 := hL ▸ h.out_of_free hfN ht.wasFree hi
  have hB1 : (B.enter k k').out (phyAddrToPfn a) = 1 := by rw [h1 _ rfl, hB0]; rfl
  have hseat := h.seat i _ hslot
  rw [hL] at hseat
  refine h.change hi ?_ ?_ (fun C hC => absurd hC (by simp)) ?_ ?_ ?_ ?_ (fun C hC => absurd hC (by simp))
  · intro f
    rw [enter_out, hL]
    simp
  · intro f
    by_cases hf : f = phyAddrToPfn a
    · rw [hf, hB1]; decide
    · rw [h2 f hf, ← hL]; exact h.sound.seats i hi f
  · intro j q hj hq
    have hqc : q ≠ k.current := fun he => hj (hT.slot_unique (he ▸ hq) hslot)
    exact ⟨hq, pageOf_congr (hother q hqc), by rw [hother q hqc]⟩
  · exact fun j _ hn => hn
  · intro hn
    rw [show k'.task i = k.task i from rfl, hslot] at hn
    exact absurd hn (by simp)
  · intro q hq
    obtain rfl : k.current = q := Option.some.inj (hslot.symm.trans hq)
    exact hseat.took hcur rfl hB0 hB1 h2 hstate hstack honly

/-- The frame of the current task's stack, if it has one. -/
def StackFrame (k : Kernel) (f : Nat) : Prop := ∃ s, k.cur.userStack = some s ∧ f = phyAddrToPfn s

/-- It is all that a task which exits gives back. -/
theorem freeFrames_exited {mm' : Mm}
    (hmm : (k.cur.userStack = none ∧ mm' = k.mm) ∨ ∃ s, k.cur.userStack = some s ∧ GavePage k.mm live s mm' c')
    (f : Nat) : f ∈ freeFrames mm' ↔ f ∈ freeFrames k.mm ∨ StackFrame k f := by
  rcases hmm with ⟨hno, rfl⟩ | ⟨s, hs, hg⟩
  · refine ⟨Or.inl, ?_⟩
    rintro (hf | ⟨s, hs, _⟩)
    · exact hf
    · rw [hno] at hs
      exact absurd hs (by simp)
  · rw [hg.frames f]
    refine or_congr Iff.rfl ⟨fun hf => ⟨s, hs, hf⟩, ?_⟩
    rintro ⟨b, hb, hf⟩
    rw [hs] at hb
    rw [hf, Option.some.inj hb]

/-- The seat of a task that exits: only its own page is left on the account. -/
theorem SeatInv.exited {B : Account ProcTag Nat} {mm' : Mm} (h : SeatInv k k.current A) (hT : TaskInv k c live)
    (htag : B.tag = A.tag) (hback : ∀ f, StackFrame k f → B.out f = 0)
    (hkept : ∀ f, ¬ StackFrame k f → B.out f = A.out f) :
    SeatInv (OsdiKernel.exited k mm') k.current (B.retag ProcTag.end) := by
  have hin := hT.current.1
  have hcur : (OsdiKernel.exited k mm').tasks k.current = { k.cur with state := .zombie } := Function.update_self ..
  refine ⟨?_, ?_, fun _ => by rw [hcur], ?_⟩
  · intro r b hb
    cases r with
    | stack =>
        rw [pageOf, hcur, Task.userStack, if_pos (Or.inl rfl)] at hb
        exact absurd hb (by simp)
    | task =>
        have hf : ¬ StackFrame k (phyAddrToPfn b) := by
          rintro ⟨s, hs, he⟩
          refine hT.frame_ne hin hin (r := .task) (u := .stack) hb hs ?_ he
          exact fun hru => Use.noConfusion hru.2
        rw [Account.retag_out, hkept _ hf]
        exact h.owns .task b hb
  · intro hfk f hf
    rw [Account.retag_out] at hf
    have hfX : ¬ StackFrame k f := fun hx => hf (hback f hx)
    rw [hkept f hfX] at hf
    obtain ⟨r, b, hb, hfb⟩ := h.only (htag ▸ hfk) f hf
    cases r with
    | task => exact ⟨.task, b, hb, hfb⟩
    | stack => exact absurd ⟨b, hb, hfb⟩ hfX
  · intro hfk
    show B.tag.reaped = false
    rw [htag]
    exact h.unreaped (htag ▸ hfk)

/-- **The current task exits**, and gives its stack back if it has one. -/
theorem LedgerInv.exit (h : LedgerInv k L) (hT : TaskInv k c live) {mm' : Mm}
    (hmm : (k.cur.userStack = none ∧ mm' = k.mm) ∨
      ∃ s, k.cur.userStack = some s ∧ GavePage k.mm live s mm' c') :
    LedgerInv (exited k mm') (L.change k.cur.pid.toNat
      (((L.seats k.cur.pid.toNat).enter k (exited k mm')).retag ProcTag.end) []) := by
  obtain ⟨hi, hslot⟩ := hT.slot_current
  generalize k.cur.pid.toNat = i at hi hslot ⊢
  let k' := exited k mm'
  have hseat := h.seat i _ hslot
  have hother : ∀ q, q ≠ k.current → k'.tasks q = k.tasks q := fun q hq => Function.update_of_ne hq ..
  have htaken : ∀ f, StackFrame k f → f ∉ freeFrames k.mm := by
    intro f hf
    obtain ⟨s, hs, rfl⟩ := hf
    exact (hT.mm.slab.frame_of_page (hT.live _ hT.current.1 .stack s hs)).1
  have hframes : ∀ f, f ∈ freeFrames k'.mm ↔ f ∈ freeFrames k.mm ∨ StackFrame k f := freeFrames_exited hmm
  obtain ⟨h1, h2⟩ := took_of_given (A := L.seats i) htaken hframes
  have hzero : ∀ f, StackFrame k f → ((L.seats i).enter k k').out f = 0 := by
    intro f hf
    rw [h1 f hf]
    obtain ⟨s, hs, rfl⟩ := hf
    rw [hseat.owns .stack s hs]
    rfl
  refine h.change hi ?_ ?_ (fun B hB => absurd hB (by simp)) ?_ ?_ ?_ ?_ (fun B hB => absurd hB (by simp))
  · intro f
    rw [Account.retag_out, enter_out]
    simp
  · intro f
    rw [Account.retag_out]
    by_cases hf : StackFrame k f
    · rw [hzero f hf]
    · rw [h2 f hf]
      exact h.sound.seats i hi f
  · intro j q hj hq
    have hqc : q ≠ k.current := fun he => hj (hT.slot_unique (he ▸ hq) hslot)
    exact ⟨hq, pageOf_congr (hother q hqc), by rw [hother q hqc]⟩
  · exact fun j _ hn => hn
  · intro hn
    rw [show k'.task i = k.task i from rfl, hslot] at hn
    exact absurd hn (by simp)
  · intro q hq
    obtain rfl : k.current = q := Option.some.inj (hslot.symm.trans hq)
    exact hseat.exited hT rfl hzero h2

/-- The account goes where the pages went; the scheduler moves none. -/
theorem enter_congr {k'' : Kernel} (hmm : k''.mm = k'.mm) : A.enter k k'' = A.enter k k' := by
  unfold Account.enter took
  rw [hmm]

/-- **A task is killed**, and the page with its `task_struct` given back. -/
theorem LedgerInv.kill (h : LedgerInv k L) (hT : TaskInv k c live) {mm' : Mm}
    (hslot : k.task i = some (.page a)) (hg : GavePage k.mm live a mm' c')
    (hzombie : (L.seats i).tag.forked = true → (k.tasks (.page a)).state = .zombie) :
    LedgerInv (killed k mm' i a) (L.change i (newAccount false)
      [((L.seats i).enter k (killed k mm' i a)).retag ProcTag.end]) := by
  let k' := killed k mm' i a
  have hi := hT.slot_lt hslot
  have hseat := h.seat i _ hslot
  have hself : k'.task i = none := Function.update_self ..
  have hne : ∀ j, j ≠ i → k'.task j = k.task j := fun j hj => Function.update_of_ne hj ..
  have hother : ∀ q, q ≠ .page a → k'.tasks q = k.tasks q := fun q hq => Function.update_of_ne hq ..
  have hframes : ∀ f, f ∈ freeFrames k'.mm ↔ f ∈ freeFrames k.mm ∨ f = phyAddrToPfn a := hg.frames
  obtain ⟨h1, h2⟩ := took_of_given (A := L.seats i) (fun f hf => hf ▸ hg.wasTaken) hframes
  have hzero : ((L.seats i).enter k k').out (phyAddrToPfn a) = 0 := by
    rw [h1 _ rfl, hseat.owns .task a rfl]
    rfl
  refine h.change hi ?_ (fun _ => Int.le_refl 0) ?_ ?_ ?_ (fun _ _ => rfl) ?_ ?_
  · intro f
    rw [List.map_singleton, List.sum_singleton, Account.retag_out, enter_out]
    exact Int.zero_add _
  · intro B hB f
    rw [List.mem_singleton.mp hB, Account.retag_out]
    by_cases hf : f = phyAddrToPfn a
    · rw [hf, hzero]
    · rw [h2 f hf]
      exact h.sound.seats i hi f
  · intro j q hj hq
    rw [hne j hj] at hq
    have hqa : q ≠ .page a := fun he => hj (hT.slot_unique (he ▸ hq) hslot)
    exact ⟨hq, pageOf_congr (hother q hqa), by rw [hother q hqa]⟩
  · intro j hj hn
    rwa [hne j hj] at hn
  · intro q hq
    rw [hself] at hq
    exact absurd hq (by simp)
  · intro B hB hfk
    rw [List.mem_singleton.mp hB] at hfk ⊢
    refine Account.settled_iff.mpr fun f => ?_
    rw [Account.retag_out]
    by_cases hf : f = phyAddrToPfn a
    · rw [hf, hzero]
    · rw [h2 f hf]
      by_contra hout
      -- a zombie has its own page and no other
      obtain ⟨r, b, hb, hfb⟩ := hseat.only hfk f hout
      cases r with
      | task => exact hf (hfb.trans (congrArg phyAddrToPfn (Option.some.inj hb).symm))
      | stack =>
          rw [pageOf, Task.userStack, if_pos (Or.inl (hzombie hfk))] at hb
          exact absurd hb (by simp)

/-- **`kill_zombies`** finds no zombie that was forked. -/
theorem LedgerInv.reap (h : LedgerInv k L)
    (hno : ∀ i p, k.task i = some p → (L.seats i).tag.forked = true → (k.tasks p).state ≠ .zombie) :
    LedgerInv k (L.retag ProcTag.reap) where
  sound := h.sound.retag _
  free := by
    intro f hf hfree
    rw [Ledger.retag_total]
    exact h.free f hf hfree
  out := by
    intro f hf hfree
    rw [Ledger.retag_total]
    exact h.out f hf hfree
  vacant := h.vacant
  seat := by
    intro i p hp
    obtain ⟨h1, h2, h3, h4⟩ := h.seat i p hp
    refine ⟨h1, h2, h3, fun hfk => ?_⟩
    have hended : (L.seats i).tag.ended = false := by
      cases he : (L.seats i).tag.ended with
      | false => rfl
      | true => exact absurd (h3 he) (hno i p hp hfk)
    show ((L.seats i).tag.reaped || (L.seats i).tag.ended) = false
    rw [h4 hfk, hended]
    rfl
  gone := by
    intro B hB hfk
    obtain ⟨A, hA, rfl⟩ := List.mem_map.mp hB
    exact h.gone A hA hfk

/-- **The scheduler** takes and returns nothing. -/
theorem LedgerInv.onlySched (h : LedgerInv k L) (ho : OnlySched k k') : LedgerInv k' L where
  sound := h.sound
  free := by rw [ho.mm]; exact h.free
  out := by rw [ho.mm]; exact h.out
  vacant := by rw [ho.task]; exact h.vacant
  seat := by
    intro i p hp
    rw [ho.task] at hp
    obtain ⟨h1, h2, h3, h4⟩ := h.seat i p hp
    refine ⟨fun r b hb => h1 r b (ho.pageOf p r ▸ hb), fun hfk f hf => ?_, fun he => ?_, h4⟩
    · obtain ⟨r, b, hb, hfb⟩ := h2 hfk f hf
      exact ⟨r, b, (ho.pageOf p r).trans hb, hfb⟩
    · rw [ho.state]
      exact h3 he
  gone := h.gone

theorem LedgerInv.boot (h : LeakBoot s) : LedgerInv s.k s.books := by
  obtain ⟨hk, hL⟩ := h
  have htotal : ∀ f, s.books.total taskSlots f = 0 := by
    intro f
    rw [hL]
    exact Ledger.total_eq_zero (fun _ _ => rfl) (fun A hA => absurd hA (by simp))
  refine ⟨?_, fun f _ _ => htotal f, ?_, ?_, ?_, ?_⟩
  · rw [hL]
    exact ⟨fun _ _ _ => Int.le_refl 0, fun A hA => absurd hA (by simp)⟩
  · intro f hf hno
    exact absurd ((freeFrames_mmInit hk.mm).mpr hf) hno
  · intro i _ _ f
    rw [hL]; rfl
  · intro i p hp
    have hno : ∀ r b, pageOf s.k p r ≠ some b := by
      intro r b hb
      rw [hk.pageOf hp r] at hb
      exact absurd hb (by simp)
    rw [hL]
    exact ⟨fun r b hb => absurd hb (hno r b), fun _ f hf => absurd rfl hf,
      nofun, fun _ => rfl⟩
  · rw [hL]
    exact fun A hA => absurd hA (by simp)

end OsdiKernel
