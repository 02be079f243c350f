import OsdiKernel.Cpio.Lookup
import OsdiKernel.Exec.Exec
import OsdiKernel.Sched.Leak

/-!
# Whether `sys_exec` keeps to its own memory

Nothing reserves the frames programs are moved to, and nothing bounds `argv[]`
by the page it is copied to. So `sys_exec` keeps to its own memory exactly when
no page under the program is allocated, before or for the scratch copy, and
`argv[]` fits the page or, where it does not, overruns into memory of its own by
chance: its trap frame lies below a stack that was allocated next.
-/

namespace OsdiKernel

/-- Where the `i`-th pointer of a copy to `dest` goes. -/
def CopiedTo (dest argc a : Nat) : Prop := ∃ i, i < argc ∧ Within ((dest + 8 * i) % 2 ^ 64) 8 a

/-- No byte of a `task_struct` or a kernel stack in the table is overwritten. -/
def SparesTasks (k : Kernel) (e : ExecTrace) : Prop := ∀ p, InTable k p → ∀ a ∈ e.written, ¬ p.BelowFrame a

/-- What is done on behalf of user processes. -/
inductive ExecOp where
  | task (op : TaskOp)
  /-- Programs run, and leave memory like this. -/
  | programs (mem : Nat → UInt8)
  | sysExec (name argv : Nat)

/--
`sys_exec` is called from user mode, by a task with a user stack. After a call
that ran over a `task_struct` nothing can be said of the table.
-/
def execSystem : System Kernel ExecOp Fault where
  legal := fun k op =>
    match op with
    | .task op => taskSystem.legal k op
    | .programs _ => True
    | .sysExec name argv => k.cur.stack ≠ 0 ∧ SparesTasks k (sysExecTrace k name argv)
  exec := fun k op =>
    match op with
    | .task op => taskSystem.exec k op
    | .programs mem => .ok { k with mem }
    | .sysExec name argv => (sysExecTrace k name argv).outcome.map Prod.snd

/-- Reachable from the initial task table. -/
def ExecReachable (k : Kernel) : Prop := ∃ k₀, Boot k₀ ∧ execSystem.Reach k₀ k

variable {k k' : Kernel} {r : Ram} {c c' : Link → List Nat} {live : List Live}
  {name argv argc size dest source n : Nat}

/-! ## The loops -/

theorem wrote_storeWord (r : Ram) (a w : Nat) : Wrote r (r.storeWord a w) (Within a 8) := by
  have h := Wrote.storeBytes ((List.range 8).map fun i => UInt8.ofNat (w / 256 ^ i)) r a
  rwa [List.length_map, List.length_range] at h

theorem wrote_copyChars (n : Nat) : ∀ (r : Ram) (target result : Nat),
    Wrote r (r.copyChars target result n) (Within target n) := by
  induction n with
  | zero =>
      refine fun r target result => (Wrote.refl r).congr (fun x => ⟨fun h => h.elim, fun h => ?_⟩)
      obtain ⟨h1, h2⟩ := h
      omega
  | succ n ih =>
      intro r target result
      refine ((Wrote.store r target (r.mem result)).trans (ih _ (target + 1) (result + 1))).congr (fun x => ?_)
      show (x = target ∨ (target + 1 ≤ x ∧ x < target + 1 + n)) ↔ (target ≤ x ∧ x < target + (n + 1))
      omega

theorem wrote_copyPointers (n : Nat) : ∀ (r : Ram) (dest source : Nat),
    Wrote r (r.copyPointers dest source n) (CopiedTo dest n) := by
  induction n with
  | zero =>
      refine fun r dest source => (Wrote.refl r).congr (fun x => ⟨fun h => h.elim, fun h => ?_⟩)
      obtain ⟨i, hi, _⟩ := h
      omega
  | succ n ih =>
      intro r dest source
      refine ((wrote_storeWord r _ _).trans (ih _ (dest + 8) (source + 8))).congr (fun x => ?_)
      -- the first pointer, or one of those that follow it
      constructor
      · rintro (h | ⟨i, hi, h⟩)
        · exact ⟨0, by omega, h⟩
        · exact ⟨i + 1, by omega, by rw [show dest + 8 * (i + 1) = dest + 8 + 8 * i by omega]; exact h⟩
      · intro h
        obtain ⟨i, hi, h⟩ := h
        cases i with
        | zero => exact Or.inl h
        | succ i =>
            refine Or.inr ⟨i, by omega, ?_⟩
            rwa [show dest + 8 * (i + 1) = dest + 8 + 8 * i by omega] at h

/-- What `cpio_move_file` moved. -/
theorem execLoad_wrote {target : Nat} (h : execLoad k.mem name = .ok (target, size, r)) :
    target = moveAddress ∧ Wrote ⟨k.mem, []⟩ r (Within moveAddress size) := by
  obtain ⟨_, _, h⟩ := bind_eq_ok h
  obtain ⟨found, _, h⟩ := bind_eq_ok h
  obtain ⟨rfl, rfl, rfl⟩ : moveAddress = target ∧ _ = size ∧ _ = r := by
    simpa only [Except.ok.injEq, Prod.mk.injEq] using h
  exact ⟨rfl, wrote_copyChars _ _ _ _⟩

/-- And nothing else was written. -/
theorem execLoad_written {target a : Nat} (h : execLoad k.mem name = .ok (target, size, r)) :
    a ∈ r.written ↔ Within moveAddress size a := ((execLoad_wrote h).2.written a).trans (by simp)

/-- A copy that ends below the top of memory is in one piece. -/
theorem copiedTo_iff {a : Nat} (h : dest + 8 * argc ≤ 2 ^ 64) : CopiedTo dest argc a ↔ Within dest (8 * argc) a := by
  constructor
  · intro hc
    obtain ⟨i, hi, h1, h2⟩ := hc
    rw [Nat.mod_eq_of_lt (by omega)] at h1 h2
    exact ⟨by omega, by omega⟩
  · intro hw
    obtain ⟨h1, h2⟩ := hw
    refine ⟨(a - dest) / 8, by omega, ?_⟩
    rw [Nat.mod_eq_of_lt (by omega)]
    exact ⟨by omega, by omega⟩

/-! ## The two copies -/

/-- As many pointers as fit a page stay on the page they are copied to. -/
theorem copied_page {a b : Nat} (hargc : argc ≤ pageSize / 8) (hb : b + pageSize ≤ 2 ^ 64) (h : CopiedTo b argc a) :
    Within b pageSize a := by
  unfold pageSize at *
  obtain ⟨h1, h2⟩ := (copiedTo_iff (by omega)).mp h
  exact ⟨h1, by omega⟩

/-- And the arguments stay on the stack's page, above `sp`. -/
theorem copied_stack {t : Task} {a : Nat} (hargc : argc ≤ pageSize / 8) (hs : t.stack + pageSize < 2 ^ 64)
    (h : CopiedTo (execSp t argc) argc a) : Within t.stack pageSize a := by
  unfold pageSize at *
  have hsp : execSp t argc = t.stack + 4096 - (argc + argc % 2) * 8 := by
    unfold execSp toUnsignedLong pageSize
    omega
  rw [hsp] at h
  obtain ⟨h1, h2⟩ := (copiedTo_iff (by omega)).mp h
  exact ⟨by omega, by omega⟩

/-- The user stack of the current task is a live page. -/
theorem TaskInv.stack_use (h : TaskInv k c live) (hs : k.cur.stack ≠ 0) : pageOf k k.current .stack = some k.cur.stack := by
  show (k.tasks k.current).userStack = _
  have hrun : (k.tasks k.current).state = .running := h.current.2
  unfold Kernel.cur at hs ⊢
  simp [Task.userStack, hs, hrun]

/-- The user stack of the current task is a page of the frames. -/
theorem TaskInv.stack_lt (h : TaskInv k c live) (hs : k.cur.stack ≠ 0) : k.cur.stack + pageSize < 2 ^ 64 := by
  obtain ⟨f, hf, hfa, _⟩ := h.mm.slab.pageAllocated (h.live _ h.current.1 .stack _ (h.stack_use hs))
  rw [hfa]
  unfold frameAddr lowMemory pageSize pageFrameNum at *
  omega

/-- So is the scratch page. -/
theorem TookPage.lt {mm mm' : Mm} {a : Nat} (h : TookPage mm live a mm' c') : a + pageSize ≤ 2 ^ 64 := by
  obtain ⟨f, hf, hfa, _⟩ := h.inv.slab.pageAllocated (List.mem_cons_self ..)
  rw [hfa]
  unfold frameAddr lowMemory pageSize pageFrameNum at *
  omega

/-! ## One call -/

/-- The kernel with the program in place. -/
def loadedKernel (k : Kernel) (r : Ram) : Kernel := (preemptDisable k).stored r

/-- A call that found no archive it could read, -/
theorem sysExecTrace_unread {f : Fault} (hload : execLoad k.mem name = .error f) :
    sysExecTrace k name argv = ⟨.error f, [], 0, none⟩ := by
  have hload' : execLoad (preemptDisable k).mem name = .error f := hload
  simp only [sysExecTrace, hload']

/-- or no end of `argv[]`, -/
theorem sysExecTrace_uncounted {target : Nat} (hload : execLoad k.mem name = .ok (target, size, r))
    (hargc : argcCount r.mem argv (2 ^ 31) = none) :
    sysExecTrace k name argv = ⟨.error .outOfBounds, r.written, size, none⟩ := by
  have hload' : execLoad (preemptDisable k).mem name = .ok (target, size, r) := hload
  simp only [sysExecTrace, hload', Kernel.stored_mem, hargc]

/-- or no page. -/
theorem sysExecTrace_noPage {target : Nat} {f : Fault} (hload : execLoad k.mem name = .ok (target, size, r))
    (hargc : argcCount r.mem argv (2 ^ 31) = some argc) (hpage : kmalloc k.mm pageSize = .error f) :
    sysExecTrace k name argv =
      ⟨.error f, (execArgs (loadedKernel k r) target argv argc (load64 r.mem nullPhyAddr)).2 ++ r.written, size, none⟩ := by
  have hload' : execLoad (preemptDisable k).mem name = .ok (target, size, r) := hload
  have hpage' : kmalloc (preemptDisable k).mm pageSize = .error f := hpage
  simp only [sysExecTrace, hload', Kernel.stored_mem, hargc, Kernel.stored_mm, hpage']
  rfl

/-- A call that took a page. -/
theorem sysExecTrace_paged {target : Nat} {page : Option Nat} {mm : Mm}
    (hload : execLoad k.mem name = .ok (target, size, r)) (hargc : argcCount r.mem argv (2 ^ 31) = some argc)
    (hpage : kmalloc k.mm pageSize = .ok (page, mm)) :
    sysExecTrace k name argv =
      let s := execArgs { loadedKernel k r with mm } target argv argc (page.getD 0)
      ⟨if ∃ a ∈ s.2 ++ r.written, k.current.KernelStack a then .error .outOfBounds
        else .ok ((argc : Int), preemptEnable s.1), s.2 ++ r.written, size, some (page.getD 0)⟩ := by
  have hload' : execLoad (preemptDisable k).mem name = .ok (target, size, r) := hload
  have hpage' : kmalloc (preemptDisable k).mm pageSize = .ok (page, mm) := hpage
  simp only [sysExecTrace, hload', Kernel.stored_mem, hargc, Kernel.stored_mm, hpage']
  rfl

/-- However far it came, as much was moved as the file's size said. -/
theorem sysExecTrace_size {target : Nat} (hload : execLoad k.mem name = .ok (target, size, r)) :
    (sysExecTrace k name argv).size = size := by
  cases hargc : argcCount r.mem argv (2 ^ 31) with
  | none => rw [sysExecTrace_uncounted hload hargc]
  | some argc =>
      cases hpage : kmalloc k.mm pageSize with
      | error f => rw [sysExecTrace_noPage hload hargc hpage]
      | ok page => rw [sysExecTrace_paged hload hargc hpage]

/-- Where the second copy goes. -/
def copiedSp (k : Kernel) (argv argc backup : Nat) : Nat :=
  execSp (k.stored ((⟨k.mem, []⟩ : Ram).copyPointers backup argv argc)).cur argc

/-- Unless the first runs over the task's `stack`, that is where it should. -/
theorem copiedSp_eq (h : ∀ a, CopiedTo dest argc a → ¬ k.current.BelowFrame a) :
    copiedSp k argv argc dest = execSp k.cur argc := by
  have hw := wrote_copyPointers argc ⟨k.mem, []⟩ dest argv
  obtain ⟨regs, ht⟩ := (StoredTo.stored hw).frame k.current (fun _ => h)
  have hcur : (k.stored ((⟨k.mem, []⟩ : Ram).copyPointers dest argv argc)).cur = { k.cur with ptRegs := regs } := ht
  rw [copiedSp, hcur]
  rfl

theorem execArgs_written {target a : Nat} : a ∈ (execArgs k target argv argc dest).2 ↔
    CopiedTo dest argc a ∨ CopiedTo (copiedSp k argv argc dest) argc a := by
  have h1 := (wrote_copyPointers argc ⟨k.mem, []⟩ dest argv).written a
  have h2 := (wrote_copyPointers argc ⟨((⟨k.mem, []⟩ : Ram).copyPointers dest argv argc).mem, []⟩
    (copiedSp k argv argc dest) dest).written a
  simp only [List.not_mem_nil, or_false] at h1 h2
  rw [← h1, ← h2, or_comm]
  exact List.mem_append

theorem execArgs_storedTo (k : Kernel) (target argv argc dest : Nat) :
    StoredTo k (execArgs k target argv argc dest).1 (· ∈ (execArgs k target argv argc dest).2) := by
  have h1 := StoredTo.stored (wrote_copyPointers argc ⟨k.mem, []⟩ dest argv)
  have h2 := h1.trans (.setFrame _ (fun regs => { regs with sp := copiedSp k argv argc dest }))
  have h3 := h2.trans (.stored (wrote_copyPointers argc ⟨_, []⟩ (copiedSp k argv argc dest) dest))
  have h4 := h3.trans (.setFrame _ (fun regs =>
    { regs with pc := target, regs := Function.update regs.regs 1 regs.sp }))
  refine h4.congr (fun a => ?_)
  rw [execArgs_written, or_false, or_false]

/-- **What a call that took a page stored**, and where. -/
theorem sysExecTrace_storedTo {target : Nat} {page : Option Nat} {mm : Mm}
    (hload : execLoad k.mem name = .ok (target, size, r)) (hargc : argcCount r.mem argv (2 ^ 31) = some argc)
    (hpage : kmalloc k.mm pageSize = .ok (page, mm)) :
    StoredTo { k with mm } (preemptEnable (execArgs { loadedKernel k r with mm } target argv argc (page.getD 0)).1)
      (· ∈ (sysExecTrace k name argv).written) := by
  have hw : Wrote ⟨(preemptDisable { k with mm }).mem, []⟩ r (Within moveAddress size) := (execLoad_wrote hload).2
  have h := (StoredTo.stored hw).trans (execArgs_storedTo _ target argv argc (page.getD 0))
  refine h.enable.congr (fun a => ?_)
  rw [sysExecTrace_paged hload hargc hpage, List.mem_append, or_comm, hw.written a]
  simp only [List.not_mem_nil, or_false]
  rfl

/-- What a call that returned came to. -/
theorem sysExecTrace_ok {n : Int} (hout : (sysExecTrace k name argv).outcome = .ok (n, k')) :
    ∃ size ram argc page mm, execLoad k.mem name = .ok (moveAddress, size, ram) ∧
      argcCount ram.mem argv (2 ^ 31) = some argc ∧ kmalloc k.mm pageSize = .ok (page, mm) ∧ n = (argc : Int) ∧
      k' = preemptEnable (execArgs { loadedKernel k ram with mm } moveAddress argv argc (page.getD 0)).1 ∧
      StoredTo { k with mm } k' (· ∈ (sysExecTrace k name argv).written) := by
  cases hload : execLoad k.mem name with
  | error f =>
      rw [sysExecTrace_unread hload] at hout
      exact absurd hout (by simp)
  | ok res =>
      obtain ⟨target, size, ram⟩ := res
      obtain ⟨rfl, _⟩ := execLoad_wrote hload
      cases hargc : argcCount ram.mem argv (2 ^ 31) with
      | none =>
          rw [sysExecTrace_uncounted hload hargc] at hout
          exact absurd hout (by simp)
      | some argc =>
          cases hpage : kmalloc k.mm pageSize with
          | error f =>
              rw [sysExecTrace_noPage hload hargc hpage] at hout
              exact absurd hout (by simp)
          | ok res =>
              obtain ⟨page, mm⟩ := res
              have hstored := sysExecTrace_storedTo hload hargc hpage
              rw [sysExecTrace_paged hload hargc hpage] at hout
              dsimp only at hout
              split at hout
              · exact absurd hout (by simp)
              · obtain ⟨rfl, rfl⟩ := Prod.mk.inj (Except.ok.inj hout)
                exact ⟨size, ram, argc, page, mm, rfl, hargc, rfl, rfl, rfl, hstored⟩

/-! ## Its own memory -/

/-- A call that spares the tasks keeps the table. -/
theorem TaskInv.sysExecTrace (h : TaskInv k c live) {n : Int}
    (hout : (OsdiKernel.sysExecTrace k name argv).outcome = .ok (n, k'))
    (hspare : SparesTasks k (OsdiKernel.sysExecTrace k name argv)) : TaskOk k' := by
  obtain ⟨size, ram, argc, page, mm, _, _, hpage, _, _, hstored⟩ := sysExecTrace_ok hout
  rcases kmalloc_page h.mm with ⟨_, hno⟩ | ⟨a, mm', c', ht⟩
  · exact absurd (hpage.symm.trans hno) (by simp)
  · obtain ⟨_, rfl⟩ := Prod.mk.inj (Except.ok.inj (hpage.symm.trans ht.run))
    exact ⟨c', _, (h.tookPage ht).onlyFrames (hstored.onlyFrames hspare)⟩

theorem taskOk_exec (h : ExecReachable k) : TaskOk k := by
  obtain ⟨k₀, h₀, hr⟩ := h
  refine hr.inv_ok (taskOk_boot h₀) (fun k op k' hk hl he => ?_)
  cases op with
  | task op =>
      obtain ⟨k'', hrun, hok⟩ := taskOk_step k op hk hl
      have he' : taskSystem.exec k op = .ok k' := he
      rw [hrun] at he'
      exact Except.ok.inj he' ▸ hok
  | programs mem =>
      obtain ⟨c, live, h⟩ := hk
      obtain rfl : { k with mem } = k' := Except.ok.inj he
      exact ⟨c, live, h.toTableInv.writeMem mem, h.current⟩
  | sysExec name argv =>
      obtain ⟨c, live, h⟩ := hk
      have he' : (sysExecTrace k name argv).outcome.map Prod.snd = .ok k' := he
      cases hrun : (sysExecTrace k name argv).outcome with
      | error f =>
          rw [hrun] at he'
          exact absurd he' (by simp [Except.map])
      | ok res =>
          rw [hrun] at he'
          exact Except.ok.inj he' ▸ h.sysExecTrace hrun hl.2

theorem storeWord_mem (r : Ram) (a w : Nat) : (r.storeWord a w).mem = store64 r.mem a w := by
  funext x
  have hlen : ((List.range 8).map fun i => UInt8.ofNat (w / 256 ^ i)).length = 8 := by
    rw [List.length_map, List.length_range]
  rw [Ram.storeWord, storeBytes_mem, hlen, store64]
  by_cases hx : a ≤ x ∧ x < a + 8
  · rw [if_pos hx, if_pos hx, List.getD_eq_getElem _ _ (by rw [hlen]; omega), List.getElem_map, List.getElem_range]
  · rw [if_neg hx, if_neg hx]

theorem copyChars_mem (n : Nat) : ∀ (r : Ram) (target result : Nat),
    (r.copyChars target result n).mem = moveFile r.mem target result n := by
  induction n with
  | zero => exact fun r target result => rfl
  | succ n ih => exact fun r target result => ih _ _ _

theorem copyPointers_mem (n : Nat) : ∀ (r : Ram) (dest source : Nat), dest + 8 * n ≤ 2 ^ 64 →
    (r.copyPointers dest source n).mem = memcpyTurns r.mem dest source n := by
  induction n with
  | zero => exact fun r dest source _ => rfl
  | succ n ih =>
      intro r dest source hle
      rw [Ram.copyPointers, ih _ _ _ (by omega), storeWord_mem, Nat.mod_eq_of_lt (by omega)]
      rfl

/-- However many turns there are, as long as they are enough. -/
theorem argcCount_turns {mem : Nat → UInt8} {m : Nat} (h : argcCount mem argv n = some argc) (hm : argc < m) :
    argcCount mem argv m = some argc := by
  induction n generalizing argv argc m with
  | zero => exact absurd h (by simp [argcCount])
  | succ n ih =>
      obtain ⟨m, rfl⟩ : ∃ j, m = j + 1 := ⟨m - 1, by omega⟩
      unfold argcCount at h ⊢
      by_cases hz : load64 mem argv = 0
      · rw [if_pos hz] at h ⊢
        exact h
      · rw [if_neg hz] at h ⊢
        obtain ⟨a, ha, rfl⟩ := Option.map_eq_some_iff.mp h
        rw [ih ha (by omega)]
        rfl

/-- A copy that keeps off the tasks. -/
theorem stored_copyPointers (hoff : ∀ p, InTable k p → ∀ a, CopiedTo dest argc a → ¬ p.Page a)
    (hdest : dest + 8 * argc ≤ 2 ^ 64) : k.stored ((⟨k.mem, []⟩ : Ram).copyPointers dest source argc) =
      { k with mem := memcpyTurns k.mem dest source argc } := by
  have hw := wrote_copyPointers argc ⟨k.mem, []⟩ dest source
  rw [Kernel.stored_clear (fun p hp a ha => hoff p hp a (by simpa using (hw.written a).mp ha)),
    copyPointers_mem _ _ _ _ hdest]

/-- **The end of `sys_exec`** where its copies keep off the tasks. -/
theorem execArgs_eq (hoff : ∀ p, InTable k p → ∀ a, CopiedTo dest argc a ∨ CopiedTo (execSp k.cur argc) argc a → ¬ p.Page a)
    (hdest : dest + 8 * argc ≤ 2 ^ 64) (hsp : execSp k.cur argc + 8 * argc ≤ 2 ^ 64) :
    (execArgs k moveAddress argv argc dest).1 = { setCurrent k k.mm (execTask k.cur argc) with
      mem := memcpyTurns (memcpyTurns k.mem dest argv argc) (execSp k.cur argc) dest argc } := by
  have h1 : k.stored ((⟨k.mem, []⟩ : Ram).copyPointers dest argv argc) =
      { k with mem := memcpyTurns k.mem dest argv argc } :=
    stored_copyPointers (fun p hp a ha => hoff p hp a (Or.inl ha)) hdest
  let k₂ : Kernel := Kernel.updateTask { k with mem := memcpyTurns k.mem dest argv argc } k.current
    (fun t => { t with ptRegs := { t.ptRegs with sp := execSp k.cur argc } })
  have h2 : k₂.stored ((⟨k₂.mem, []⟩ : Ram).copyPointers (execSp k.cur argc) dest argc) =
      { k₂ with mem := memcpyTurns k₂.mem (execSp k.cur argc) dest argc } :=
    stored_copyPointers (fun p hp a ha => hoff p hp a (Or.inr ha)) hsp
  simp only [execArgs, h1]
  rw [show (Kernel.cur { k with mem := memcpyTurns k.mem dest argv argc }) = k.cur from rfl]
  rw [show (Kernel.stored (Kernel.updateTask _ _ _) _) = _ from h2]
  simp [k₂, Kernel.updateTask, setCurrent, execTask, Kernel.cur]

/-- The copies of as many pointers as fit a page keep off the tasks. -/
theorem TaskInv.copies_off (h : TaskInv k c live) (hs : k.cur.stack ≠ 0) {b a : Nat} {mm' : Mm} {p : TaskPtr}
    (ht : TookPage k.mm live b mm' c') (hle : argc ≤ pageSize / 8) (hp : InTable k p)
    (ha : CopiedTo b argc a ∨ CopiedTo (execSp k.cur argc) argc a) : ¬ p.Page a := by
  rcases ha with ha | ha
  · exact h.off_taken ht hp (copied_page hle ht.lt ha)
  · exact h.off_stack hp h.current.1 (h.stack_use hs) (copied_stack hle (h.stack_lt hs) ha)

/-- The program was not moved over the calling task. -/
theorem loadedKernel_cur (hw : Wrote ⟨k.mem, []⟩ r (Within moveAddress size))
    (htask : ∀ a, Within moveAddress size a → ¬ k.current.Page a) : (loadedKernel k r).cur = (preemptDisable k).cur :=
  Kernel.stored_off (fun _ a ha => htask a (by simpa using (hw.written a).mp ha))

/-- The kernel when a call returns that has so laid out its arguments. -/
def laidOut (k : Kernel) (r : Ram) (mm : Mm) (argv argc backup : Nat) : Kernel :=
  preemptEnable { setCurrent (loadedKernel k r) mm (execTask (loadedKernel k r).cur argc) with
    mem := memcpyTurns (memcpyTurns r.mem backup argv argc) (execSp k.cur argc) backup argc }

/-- **A call whose arguments fit a page**, and whose program is not moved over the task. -/
theorem sysExecTrace_returned (h : TaskInv k c live) (hs : k.cur.stack ≠ 0) {b : Nat} {mm' : Mm}
    (hload : execLoad k.mem name = .ok (moveAddress, size, r)) (hargc : argcCount r.mem argv (2 ^ 31) = some argc)
    (ht : TookPage k.mm live b mm' c') (hle : argc ≤ pageSize / 8)
    (htask : ∀ a, Within moveAddress size a → ¬ k.current.Page a) :
    (sysExecTrace k name argv).outcome = .ok ((argc : Int), laidOut k r mm' argv argc b) := by
  obtain ⟨_, hw⟩ := execLoad_wrote hload
  let k₁ : Kernel := { loadedKernel k r with mm := mm' }
  have hsp : execSp k₁.cur argc = execSp k.cur argc := by
    rw [show k₁.cur = (preemptDisable k).cur from loadedKernel_cur hw htask]
    simp [execSp, preemptDisable, Kernel.cur]
  have hoff : ∀ p, InTable k₁ p → ∀ a, CopiedTo b argc a ∨ CopiedTo (execSp k₁.cur argc) argc a → ¬ p.Page a := by
    rw [hsp]
    exact fun p hp a ha => h.copies_off hs ht hle hp ha
  have hstack := h.stack_lt hs
  have hb := ht.lt
  have hspfit : execSp k.cur argc + 8 * argc ≤ 2 ^ 64 := by
    unfold execSp toUnsignedLong
    unfold pageSize at *
    omega
  have heq : (execArgs k₁ moveAddress argv argc b).1 = _ :=
    execArgs_eq hoff (by unfold pageSize at *; omega) (hsp.symm ▸ hspfit)
  -- nothing was stored to the kernel stack
  have hcalm : ¬ ∃ a ∈ (execArgs k₁ moveAddress argv argc b).2 ++ r.written, k.current.KernelStack a := by
    rintro ⟨a, ha, hin⟩
    have hpage : k.current.Page a := TaskPtr.page_iff.mpr (Or.inl (TaskPtr.kernelStack_below hin))
    rcases List.mem_append.mp ha with ha | ha
    · have hspc : copiedSp k₁ argv argc b = execSp k₁.cur argc := copiedSp_eq (fun x hx hb =>
        hoff k.current h.current.1 x (Or.inl hx) (TaskPtr.page_iff.mpr (Or.inl hb)))
      rw [execArgs_written, hspc] at ha
      exact hoff k.current h.current.1 a ha hpage
    · exact htask a ((execLoad_written hload).mp ha) hpage
  rw [sysExecTrace_paged hload hargc ht.run]
  show (if ∃ a ∈ (execArgs k₁ moveAddress argv argc b).2 ++ r.written, k.current.KernelStack a then
      Except.error Fault.outOfBounds
    else Except.ok ((argc : Int), preemptEnable (execArgs k₁ moveAddress argv argc b).1)) = _
  rw [if_neg hcalm, heq, hsp]
  rfl

/-- What the calling task is then. -/
theorem laidOut_cur (hw : Wrote ⟨k.mem, []⟩ r (Within moveAddress size)) {mm' : Mm} {b : Nat}
    (htask : ∀ a, Within moveAddress size a → ¬ k.current.Page a) :
    (laidOut k r mm' argv argc b).tasks k.current = execTask k.cur argc := by
  rw [laidOut, loadedKernel_cur hw htask]
  simp [preemptEnable, preemptDisable, loadedKernel, setCurrent, Kernel.updateTask, Kernel.cur, execTask, execSp]

/-- Where `argv[]` fits its page and the program free frames, `sys_exec` is `sysExec` of what `cpio_get_file` found. -/
theorem sysExec_eq_trace (h : TaskInv k c live) (hs : k.cur.stack ≠ 0) {ram : Ram}
    (hload : execLoad k.mem name = .ok (moveAddress, size, ram)) (hargc : argcCount ram.mem argv (2 ^ 31) = some argc)
    (hle : argc ≤ pageSize / 8) (hl : LoadsFree k size) (hfree : (freeFrames k.mm).Nonempty) :
    ∃ result, sysExec k result size argv = (sysExecTrace k name argv).outcome := by
  obtain ⟨b, mm', c', ht⟩ := takePage h.mm hfree
  have htrace := sysExecTrace_returned h hs hload hargc ht hle (fun a ha => h.off_load hl h.current.1 ha)
  have hloaded : loadedKernel k ram = { preemptDisable k with mem := ram.mem } :=
    Kernel.stored_clear (fun p hp a ha => h.off_load hl hp ((execLoad_written hload).mp ha))
  obtain ⟨_, _, hmove⟩ := bind_eq_ok hload
  obtain ⟨⟨result, fileSize⟩, _, hmove⟩ := bind_eq_ok hmove
  obtain ⟨_, rfl, rfl⟩ : moveAddress = moveAddress ∧ min fileSize (2 ^ 31) = size ∧ _ = ram := by
    simpa only [Except.ok.injEq, Prod.mk.injEq] using hmove
  refine ⟨result.getD 0, ?_⟩
  rw [htrace, laidOut, hloaded]
  rw [copyChars_mem] at hargc ⊢
  rw [sysExec_eq (argcCount_turns hargc (by omega)) ht.run]
  simp [execed, preemptEnable, preemptDisable, setCurrent, Kernel.updateTask, Kernel.cur, execTask, execSp]

/-! ## Two calls -/

/-- An initramfs with the file `a`, and its name behind it. -/
def smallInitramfs : Nat → UInt8 := fun a =>
  if a < initramfsAddr then 0 else (archiveBytes [smallFile] smallTrailer ++ [97, 0]).getD (a - initramfsAddr) 0

/-- Where that name is. -/
def smallNameAddr : Nat := initramfsAddr + 240

theorem execReachable_programs (h : TaskReachable k) (mem : Nat → UInt8) : ExecReachable { k with mem } := by
  obtain ⟨k₀, h₀, hr⟩ := h
  have hr' : execSystem.Reach k₀ k := by
    clear h₀
    induction hr with
    | init => exact .init
    | @step s s' op _ hl he ih => exact ih.step (i := .task op) hl he
  exact ⟨k₀, h₀, hr'.step (i := .programs mem) trivial rfl⟩

end OsdiKernel
