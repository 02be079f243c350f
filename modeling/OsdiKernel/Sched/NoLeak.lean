import OsdiKernel.Sched.Leak

/-!
# What is left behind

Runs of the calls in `Leak`. In a tidy run nothing is left of a forked process
once it has ended and `kill_zombies` has run. In others something is:
`kill_zombies` does nothing, so a zombie that nobody kills keeps its slot and
its page; `sys_kill` never frees a stack, so a process killed while it is alive
leaves that; and `sys_exec` leaves its scratch page every time.
-/

namespace OsdiKernel

variable {k k' : Kernel} {s s₀ : LeakState} {c : Link → List Nat} {live : List Live} {f : Nat}

/-- The pages of a task that was just added. -/
theorem addTask_pages (k : Kernel) (mm' : Mm) (i a : Nat) (t : Task) :
    (∃ r b, pageOf (addTask k mm' i a t) (.page a) r = some b ∧ f = phyAddrToPfn b) ↔
      f = phyAddrToPfn a ∨ ∃ b, t.userStack = some b ∧ f = phyAddrToPfn b := by
  constructor
  · intro h
    obtain ⟨r, b, hb, hf⟩ := h
    cases r with
    | task => exact Or.inl (hf.trans (congrArg phyAddrToPfn (Option.some.inj hb).symm))
    | stack =>
        rw [pageOf, addTask_self] at hb
        exact Or.inr ⟨b, hb, hf⟩
  · intro h
    rcases h with hf | ⟨b, hb, hf⟩
    · exact ⟨.task, a, rfl, hf⟩
    · exact ⟨.stack, b, by rw [pageOf, addTask_self]; exact hb, hf⟩

/-- A step returns, and the table is as it should be; and if it was tidy, so is the ledger. -/
def LeakKept (s : LeakState) (op : LeakOp) : Prop :=
  ∃ s', leakSystem.exec s op = .ok s' ∧ TaskOk s'.k ∧
    (LedgerInv s.k s.books → Tidy s op → LedgerInv s'.k s'.books)

theorem leak_copyProcess (h : TaskInv s.k c live) {cloneFlags fn arg : Nat}
    (hl : leakSystem.legal s (.copyProcess cloneFlags fn arg)) : LeakKept s (.copyProcess cloneFlags fn arg) := by
  obtain ⟨i, a, mm', c', hi, ht, hrun, hinv⟩ := copyProcess_spec h hl.1 hl.2 fn arg 0
  obtain ⟨hi64, hnone⟩ := firstFree_some hi
  let k' := addTask s.k mm' i a (copyTask s.k.cur cloneFlags fn arg 0 (taskPtRegs a) i)
  refine ⟨⟨k', s.books.change i ((newAccount false).enter s.k k') []⟩,
    by simp only [leakSystem, hrun, ok_bind, Int.toNat_natCast, k'], ⟨c', _, hinv⟩, fun hL _ => ?_⟩
  -- a kernel thread has no stack
  have hpages : ∀ f, (∃ r b, pageOf k' (.page a) r = some b ∧ f = phyAddrToPfn b) ↔
      f = phyAddrToPfn a := by
    intro f
    rw [addTask_pages]
    simp [Task.userStack, copyTask]
  refine hL.create h hi64 hnone false ht.fresh rfl (fun q hq => addTask_ne hq) ?_ ?_
  · exact fun f hf => (hpages f).mp hf ▸ ht.wasFree
  · exact fun f => (ht.frames f).trans (and_congr Iff.rfl (not_congr (hpages f)).symm)

theorem leak_moveToUserMode (h : TaskInv s.k c live) {pc : Nat} (hl : leakSystem.legal s (.moveToUserMode pc)) :
    LeakKept s (.moveToUserMode pc) := by
  obtain ⟨hstack, hfree⟩ := hl
  obtain ⟨b, mm', c', ht, hrun, hinv⟩ := moveToUserMode_spec h hfree pc
  refine ⟨s.charge (setCurrent s.k mm' (userTask s.k.cur pc b)),
    by simp only [leakSystem, hrun, ok_bind], ⟨c', _, hinv⟩, fun hL _ => ?_⟩
  have hb : b ≠ 0 := (hinv.mm.slab.pageAllocated List.mem_cons_self).ne_zero
  have huse : (userTask s.k.cur pc b).userStack = some b := by
    refine if_neg (not_or.mpr ⟨?_, hb⟩)
    show s.k.cur.state ≠ .zombie
    rw [show s.k.cur.state = .running from h.current.2]
    exact TaskState.noConfusion
  exact hL.take h ht rfl (Or.inr ⟨if_pos (Or.inr hstack), huse⟩) (fun _ => huse)

theorem leak_sysFork (h : TaskInv s.k c live) (hl : leakSystem.legal s .sysFork) : LeakKept s .sysFork := by
  obtain ⟨i, b, a, mm₁, c₁, mm₂, c₂, hi, hb, ha, hrun, hinv⟩ := sysFork_spec h hl
  obtain ⟨hi64, hnone⟩ := firstFree_some hi
  obtain ⟨mem, hmem⟩ : ∃ mem, forked s.k mm₂ i b a
      = { addTask s.k mm₂ i a (forkTask s.k.cur b a i) with mem } := ⟨_, rfl⟩
  rw [hmem] at hrun hinv
  let k' : Kernel := { addTask s.k mm₂ i a (forkTask s.k.cur b a i) with mem }
  refine ⟨⟨k', s.books.change i ((newAccount true).enter s.k k') []⟩,
    by simp only [leakSystem, hrun, ok_bind, Int.toNat_natCast, k'], ⟨c₂, _, hinv⟩, fun hL _ => ?_⟩
  have hb0 : b ≠ 0 := (hb.inv.slab.pageAllocated List.mem_cons_self).ne_zero
  have huse : (forkTask s.k.cur b a i).userStack = some b := by
    simp [Task.userStack, forkTask, copyTask, hb0]
  have hpages : ∀ f, (∃ r x, pageOf k' (.page a) r = some x ∧ f = phyAddrToPfn x) ↔
      f = phyAddrToPfn a ∨ f = phyAddrToPfn b := by
    intro f
    refine (addTask_pages s.k mm₂ i a _).trans (or_congr Iff.rfl ?_)
    rw [huse]
    simp
  refine hL.create h hi64 hnone true (fun hm => ha.fresh (List.mem_cons_of_mem _ hm)) rfl
    (fun q hq => Function.update_of_ne hq ..) ?_ ?_
  · intro f hf
    rcases (hpages f).mp hf with rfl | rfl
    · exact ((hb.frames _).mp ha.wasFree).1
    · exact hb.wasFree
  · intro f
    rw [hpages f]
    show f ∈ freeFrames mm₂ ↔ _
    rw [ha.frames f, hb.frames f]
    constructor
    · intro hf
      exact ⟨hf.1.1, not_or.mpr ⟨hf.2, hf.1.2⟩⟩
    · intro hf
      obtain ⟨h1, h2⟩ := not_or.mp hf.2
      exact ⟨⟨hf.1, h2⟩, h1⟩

theorem leak_sysExec (h : TaskInv s.k c live) {result fileSize argv : Nat}
    (hl : leakSystem.legal s (.sysExec result fileSize argv)) : LeakKept s (.sysExec result fileSize argv) := by
  obtain ⟨hfree, hargc⟩ := hl
  obtain ⟨argc, hargc⟩ := Option.ne_none_iff_exists'.mp hargc
  obtain ⟨b, mm', c', ht, hrun, hinv⟩ := sysExec_spec h hfree hargc
  refine ⟨s.charge (execed s.k mm' result fileSize argv argc b),
    by simp only [leakSystem, hrun, ok_bind], ⟨c', _, hinv⟩, fun hL htidy => ?_⟩
  refine hL.take h ht rfl (Or.inl rfl) (fun hfk => ?_)
  rw [show (s.books.seats s.k.cur.pid.toNat).tag.forked = false from htidy.1] at hfk
  exact Bool.noConfusion hfk

theorem leak_sysExit (h : TaskInv s.k c live) (hl : leakSystem.legal s .sysExit) : LeakKept s .sysExit := by
  obtain ⟨mm', c', live', hrun, htab, hmm⟩ := exited_spec h hl
  obtain ⟨k', p, hs, hsched, hinv⟩ := schedule_outcome htab
  have hrun' : sysExit s.k = .ok k' := hrun.trans hs
  refine ⟨⟨k', s.books.change s.k.cur.pid.toNat ((s.account.enter s.k k').retag ProcTag.end) []⟩,
    by simp only [leakSystem, hrun', ok_bind], ⟨c', _, hinv⟩, fun hL _ => ?_⟩
  show LedgerInv k' (s.books.change _ ((s.account.enter s.k k').retag ProcTag.end) [])
  rw [enter_congr hsched.only.mm]
  exact (hL.exit h hmm).onlySched hsched.only

theorem leak_sysKill (h : TaskInv s.k c live) {pid : Int} (hl : leakSystem.legal s (.sysKill pid)) :
    LeakKept s (.sysKill pid) := by
  obtain ⟨h0, h64, hpid, hslot⟩ := hl
  obtain ⟨i, rfl⟩ : ∃ i : Nat, pid = i := ⟨pid.toNat, by omega⟩
  rw [Int.toNat_natCast] at hslot
  obtain ⟨a, mm', c', hp, hg, hrun, hinv⟩ := sysKill_spec h (by omega) (by omega) hpid.symm hslot
  refine ⟨⟨killed s.k mm' i a, s.books.change i (newAccount false)
      [((s.books.seats i).enter s.k (killed s.k mm' i a)).retag ProcTag.end]⟩,
    by simp only [leakSystem, hrun, ok_bind, Int.toNat_natCast], ⟨c', _, hinv⟩, fun hL htidy => ?_⟩
  exact hL.kill h hp hg (fun hfk => htidy hfk _ hp)

/--
**A step.** It returns, and the table is as it should be; and if it was tidy, so
is the ledger.
-/
theorem leak_step (h : TaskInv s.k c live) {op : LeakOp} (hl : leakSystem.legal s op) :
    ∃ s', leakSystem.exec s op = .ok s' ∧ TaskOk s'.k ∧
      (LedgerInv s.k s.books → Tidy s op → LedgerInv s'.k s'.books) := by
  cases op with
  | copyProcess cloneFlags fn arg => exact leak_copyProcess h hl
  | moveToUserMode pc => exact leak_moveToUserMode h hl
  | sysFork => exact leak_sysFork h hl
  | sysExec result fileSize argv => exact leak_sysExec h hl
  | sysExit => exact leak_sysExit h hl
  | sysKill pid => exact leak_sysKill h hl
  | killZombies => exact ⟨_, rfl, ⟨c, live, h⟩, fun hL htidy => hL.reap htidy⟩
  | schedule =>
      obtain ⟨k', p, hrun, hs, hinv⟩ := schedule_outcome h.toTableInv
      exact ⟨⟨k', s.books⟩, by simp only [leakSystem, hrun, ok_bind], ⟨c, live, hinv⟩,
        fun hL _ => hL.onlySched hs.only⟩

/-- The table is as it should be, tidy or not. -/
theorem leak_keeps_taskOk : leakSystem.Keeps (fun s => TaskOk s.k) := by
  intro s op hs hl
  obtain ⟨c, live, h⟩ := hs
  obtain ⟨s', hrun, hok, _⟩ := leak_step h hl
  exact ⟨s', hrun, hok⟩

theorem tidy_keeps : tidySystem.Keeps (fun s => TaskOk s.k ∧ LedgerInv s.k s.books) := by
  intro s op hs hl
  obtain ⟨⟨c, live, h⟩, hL⟩ := hs
  obtain ⟨s', hrun, hok, hledger⟩ := leak_step h hl.1
  exact ⟨s', hrun, hok, hledger hL hl.2⟩

theorem tidy_reachable (h₀ : LeakBoot s₀) (h : tidySystem.Reach s₀ s) :
    TaskOk s.k ∧ LedgerInv s.k s.books := h.inv ⟨taskOk_boot h₀.1, LedgerInv.boot h₀⟩ tidy_keeps

theorem LedgerInv.noLeak (h : LedgerInv s.k s.books) : NoLeak s where
  sound := h.sound
  slot := by
    intro i p hp ht
    have := (h.seat i p hp).unreaped ht.1
    rw [ht.2] at this
    exact Bool.noConfusion this
  settled := fun A hA hfk _ => h.gone A hA hfk
  frames := by
    intro f hf
    constructor
    · intro hfree hholds
      obtain ⟨hs, hc⟩ := h.sound.settled (h.free f hf hfree)
      rcases hholds with ⟨i, hi, hout⟩ | ⟨A, hA, _, hout⟩
      · exact hout (hs i hi)
      · exact hout (hc A hA)
    · intro hno
      by_contra hfree
      have h1 := h.out f hf hfree
      -- nobody has it out, so it is not out
      rw [Ledger.total_eq_zero ?_ ?_] at h1
      · exact absurd h1 (by decide)
      · intro i hi
        by_contra hout
        exact hno (Or.inl ⟨i, hi, hout⟩)
      · intro A hA
        by_contra hout
        refine hno (Or.inr ⟨A, hA, fun ht => hout ?_, hout⟩)
        exact Account.settled_iff.mp (h.gone A hA ht.1) f

/-- The free frames are what the ledger says. -/
theorem NoLeak.freeFrames_eq {t : LeakState} (hs : NoLeak s) (ht : NoLeak t) (hsk : TaskOk s.k)
    (htk : TaskOk t.k) (hsame : ∀ f, Holds t f ↔ Holds s f) :
    freeFrames t.k.mm = freeFrames s.k.mm := by
  have hlt : ∀ {k f}, TaskOk k → f ∈ freeFrames k.mm → f < pageFrameNum := by
    intro k f hk hf
    obtain ⟨c, live, h⟩ := hk
    exact (h.mm.slab.buddy.freeFrames_iff.mp hf).1
  refine Set.Subset.antisymm (fun f hf => ?_) (fun f hf => ?_)
  · have hN := hlt htk hf
    rw [hs.frames f hN, ← hsame f]
    exact (ht.frames f hN).mp hf
  · have hN := hlt hsk hf
    rw [ht.frames f hN, hsame f]
    exact (hs.frames f hN).mp hf

/--
**Nothing is leaked** as long as no forked process execs, each is killed only
once it has exited, and before `kill_zombies` runs; threads being made where there
are a slot and the pages for them, and no `argv[]` longer than the page it is
copied to. Whatever else is going on, nothing is out for those that have ended,
their slots are free, every page a call would return is allocated, and when all
others hold what they held before, the free frames are those from before.
-/
theorem no_leak_of_tidy (h₀ : LeakBoot s₀) (h : tidySystem.Reach s₀ s) :
    NoLeak s ∧ TaskTable s.k ∧ (∀ op, tidySystem.legal s op → ∃ s', tidySystem.exec s op = .ok s') ∧
    ∀ t, tidySystem.Reach s t → (∀ f, Holds t f ↔ Holds s f) →
      freeFrames t.k.mm = freeFrames s.k.mm := by
  obtain ⟨hk, hL⟩ := tidy_reachable h₀ h
  have hno := hL.noLeak
  refine ⟨hno, ?_, fun op hl => ?_, fun t ht hsame => ?_⟩
  · obtain ⟨c, live, hinv⟩ := hk
    exact hinv.table
  · obtain ⟨s', hrun, _⟩ := tidy_keeps s op ⟨hk, hL⟩ hl
    exact ⟨s', hrun⟩
  · obtain ⟨htk, htL⟩ := tidy_reachable h₀ (h.trans ht)
    exact hno.freeFrames_eq htL.noLeak hk htk hsame

/-! ## Runs that can be computed -/

/-- Enough for a call to be lawful. -/
def leakReady (s : LeakState) : LeakOp → Bool
  | .copyProcess cloneFlags fn arg => ready s.k (.copyProcess cloneFlags fn arg)
  | .moveToUserMode pc => s.k.cur.stack = 0 ∧ ready s.k (.moveToUserMode pc) = true
  | .sysFork => ready s.k .sysFork
  | .sysExec .. => false
  | .sysExit => ready s.k .exitProcess
  | .sysKill pid => 0 < pid ∧ pid ≠ s.k.cur.pid ∧ ready s.k (.sysKill pid) = true
  | .killZombies => true
  | .schedule => true

/-- There is a zombie in the slot. -/
def zombieAt (k : Kernel) (i : Nat) : Bool :=
  match k.task i with
  | none => false
  | some p => (k.tasks p).state = .zombie

/-- Enough for a call to be tidy. -/
def tidyReady (s : LeakState) : LeakOp → Bool
  | .sysExec .. => false
  | .sysKill pid => zombieAt s.k pid.toNat
  | .killZombies => (List.range taskSlots).all (fun i => !zombieAt s.k i || !(s.books.seats i).tag.forked)
  | _ => true

theorem TaskOk.leak_legal_of_ready (h : TaskOk s.k) {op : LeakOp} (hr : leakReady s op = true) :
    leakSystem.legal s op := by
  cases op with
  | copyProcess cloneFlags fn arg => exact h.legal_of_ready (.copyProcess cloneFlags fn arg) hr
  | moveToUserMode pc =>
      obtain ⟨hs, hp⟩ := of_decide_eq_true hr
      exact ⟨hs, h.legal_of_ready (.moveToUserMode pc) hp⟩
  | sysFork => exact h.legal_of_ready .sysFork hr
  | sysExec result fileSize argv => exact Bool.noConfusion hr
  | sysExit => exact h.legal_of_ready .exitProcess hr
  | sysKill pid =>
      obtain ⟨h0, hpid, hp⟩ := of_decide_eq_true hr
      obtain ⟨_, h64, hslot⟩ := h.legal_of_ready (.sysKill pid) hp
      exact ⟨h0, h64, hpid, hslot⟩
  | killZombies => trivial
  | schedule => trivial

theorem zombieAt_iff {i : Nat} {p : TaskPtr} (hp : k.task i = some p) :
    zombieAt k i = true ↔ (k.tasks p).state = .zombie := by
  rw [zombieAt, hp]
  exact decide_eq_true_iff

theorem TaskOk.tidy_of_ready (h : TaskOk s.k) {op : LeakOp} (hr : tidyReady s op = true) : Tidy s op := by
  obtain ⟨c, live, h⟩ := h
  cases op with
  | sysExec result fileSize argv => exact Bool.noConfusion hr
  | sysKill pid => exact fun _ p hp => (zombieAt_iff hp).mp hr
  | killZombies =>
      intro i p hp hfk hz
      have := List.all_eq_true.mp hr i (List.mem_range.mpr (h.slot_lt hp))
      simp [(zombieAt_iff hp).mpr hz, hfk] at this
  | copyProcess cloneFlags fn arg => trivial
  | moveToUserMode pc => trivial
  | sysFork => trivial
  | sysExit => trivial
  | schedule => trivial

/-- The system, as far as it can be computed; only its tidy calls, if `tidy`. -/
noncomputable def readyLeakSystem (tidy : Bool) : System LeakState LeakOp Fault where
  legal := fun s op => leakReady s op = true ∧ (tidy = true → tidyReady s op = true)
  exec := leakSystem.exec

instance (tidy : Bool) (s : LeakState) (op : LeakOp) : Decidable ((readyLeakSystem tidy).legal s op) :=
  inferInstanceAs (Decidable (_ ∧ (tidy = true → _)))

/-- Carry out a list of calls after `mm_init`. -/
noncomputable def leakRun (tidy : Bool) (ops : List LeakOp) : Option LeakState :=
  match mmInit Mm.bss with
  | .ok mm => (readyLeakSystem tidy).run ⟨bootKernel mm, ⟨fun _ => newAccount false, []⟩⟩ ops
  | .error _ => none

theorem reach_of_leakRun {tidy : Bool} {ops : List LeakOp} (h : leakRun tidy ops = some s) :
    ∃ s₀, LeakBoot s₀ ∧ leakSystem.Reach s₀ s ∧ (tidy = true → tidySystem.Reach s₀ s) := by
  cases h₀ : mmInit Mm.bss with
  | error e => simp [leakRun, h₀] at h
  | ok mm =>
      have hboot : LeakBoot ⟨bootKernel mm, ⟨fun _ => newAccount false, []⟩⟩ :=
        ⟨⟨h₀, rfl, rfl, rfl, PtRegs.zero, rfl⟩, rfl⟩
      simp only [leakRun, h₀] at h
      have hreach : (readyLeakSystem tidy).Reach _ s := System.Reach.of_run .init h
      have hok := taskOk_boot hboot.1
      refine ⟨_, hboot, ?_, fun htidy => ?_⟩
      · have hlegal : ∀ s op, TaskOk s.k → (readyLeakSystem tidy).legal s op → leakSystem.legal s op :=
          fun s op hk hr => hk.leak_legal_of_ready hr.1
        exact hreach.mono_inv (T := leakSystem) (P := fun s => TaskOk s.k) hok leak_keeps_taskOk hlegal rfl
      · have hlegal : ∀ s op, TaskOk s.k ∧ LedgerInv s.k s.books → (readyLeakSystem tidy).legal s op →
            tidySystem.legal s op :=
          fun s op hk hr => ⟨hk.1.leak_legal_of_ready hr.1, hk.1.tidy_of_ready (hr.2 htidy)⟩
        exact hreach.mono_inv (T := tidySystem) (P := fun s => TaskOk s.k ∧ LedgerInv s.k s.books)
          ⟨hok, .boot hboot⟩ tidy_keeps hlegal rfl

/-- A user process forks; its child exits, is killed as a zombie, and `kill_zombies` runs. -/
theorem no_leak_of_tidy_fork :
    ∃ s, NoLeak s ∧ s.k.nrTasks = 2 ∧ s.books.closed.map (fun A => A.tag) = [⟨true, true, true⟩] := by
  have hrun : (leakRun true [.copyProcess pfKthread 0 0, .schedule, .moveToUserMode 0, .sysFork, .schedule,
      .sysExit, .schedule, .sysKill 2, .killZombies]).map
      (fun s => (s.k.nrTasks, s.books.closed.map (fun A => A.tag))) = some (2, [⟨true, true, true⟩]) := by
    decide +kernel
  obtain ⟨s, hs, hn⟩ := Option.map_eq_some_iff.mp hrun
  obtain ⟨s₀, h₀, _, hreach⟩ := reach_of_leakRun hs
  exact ⟨s, (no_leak_of_tidy h₀ (hreach rfl)).1, congrArg Prod.fst hn, congrArg Prod.snd hn⟩

/-- `kill_zombies` leaves the slot of a child that exited taken. -/
theorem not_noLeak : ¬ ∀ s₀ s, LeakBoot s₀ → leakSystem.Reach s₀ s → NoLeak s := by
  intro hall
  have hrun : (leakRun false [.copyProcess pfKthread 0 0, .schedule, .moveToUserMode 0, .sysFork, .schedule,
      .sysExit, .killZombies]).map (fun s => ((s.k.task 2).isSome, (s.books.seats 2).tag))
      = some (true, ⟨true, true, true⟩) := by
    decide +kernel
  obtain ⟨s, hs, hn⟩ := Option.map_eq_some_iff.mp hrun
  obtain ⟨s₀, h₀, hreach, _⟩ := reach_of_leakRun hs
  obtain ⟨p, hp⟩ := Option.isSome_iff_exists.mp (congrArg Prod.fst hn)
  have htag : (s.books.seats 2).tag = ⟨true, true, true⟩ := congrArg Prod.snd hn
  exact (hall s₀ s h₀ hreach).slot 2 p hp ⟨by rw [htag], by rw [htag]⟩

end OsdiKernel
