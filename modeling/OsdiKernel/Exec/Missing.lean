import OsdiKernel.Exec.OwnWrites

/-!
# A program that is not there

`cpio_get_file` says so with a NULL, and `cpio_move_file` does not look: it
copies from NULL, as many bytes as the last entry it passed has, and returns the
place it copied them to. `sys_exec` goes on from there as from any program.
-/

namespace OsdiKernel

variable {mem : Memory} {k k' : Kernel} {p q n size argv : Nat} {name : List UInt8} {trailer : CpioHeader}
  {entries : List CpioEntry} {r : Int}

/-- `sys_exec` failed, and the caller goes on as if it had not called. -/
structure FailsCleanly (k : Kernel) (e : ExecTrace) : Prop where
  returned : ∃ r k', e.outcome = .ok (r, k') ∧ r < 0 ∧
    (k'.tasks k.current).ptRegs = k.cur.ptRegs ∧
    (∀ a, Within k.cur.stack pageSize a ∨ Within moveAddress e.size a → k'.mem a = k.mem a) ∧
    freeFrames k'.mm = freeFrames k.mm

/-- What is in `fileSize` when all entries have been passed: 5920 if there were none. -/
def passedSize (entries : List CpioEntry) : Nat := (entries.getLast?.map (·.data.length)).getD 5920

/-- What `sys_exec` did instead. -/
structure RunsFromNull (k : Kernel) (entries : List CpioEntry) (e : ExecTrace) (r : Int) (k' : Kernel) : Prop where
  count : 0 ≤ r
  /-- The caller goes on in what was copied, with a new `sp`, -/
  pc : (k'.tasks k.current).ptRegs.pc = moveAddress
  x1 : (k'.tasks k.current).ptRegs.regs 1 = (k'.tasks k.current).ptRegs.sp
  /-- unless something of its own page has been overwritten. -/
  sp : (∀ a ∈ e.written, ¬ k.current.Page a) → (k'.tasks k.current).ptRegs.sp = execSp k.cur r.toNat
  size : e.size = min (passedSize entries) (2 ^ 31)
  /-- The load area was written to from end to end. -/
  moved : ∀ a, Within moveAddress e.size a → a ∈ e.written

/-- The size a failed search leaves behind. -/
theorem cpioGetFileTurns_missing (h : Archived mem p entries trailer) (hname : CString mem q name)
    (hmiss : ∀ e ∈ entries, e.name ≠ name) (hn : entries.length < n) :
    cpioGetFileTurns mem q p size n = .ok (none, (entries.getLast?.map (·.data.length)).getD size) := by
  induction entries generalizing p n size with
  | nil =>
      obtain ⟨n, rfl⟩ : ∃ m, n = m + 1 := ⟨n - 1, by simp at hn; omega⟩
      have ht := h.trailerAt
      have hprint : printString mem (some (p + cpioHeaderSize)) = .ok cpioFooterMagic :=
        readStringTurns_spec ht.name (by decide)
      rw [cpioGetFileTurns, ht.parse]
      simp only [ok_bind, hprint]
      rfl
  | cons e es ih =>
      obtain ⟨n, rfl⟩ : ∃ m, n = m + 1 := ⟨n - 1, by simp at hn; omega⟩
      obtain ⟨he, hrest⟩ := h.first
      have hnamefit := he.name.fits
      have hprint : printString mem (some (p + cpioHeaderSize)) = .ok e.name :=
        readStringTurns_spec he.name (by omega)
      obtain ⟨c, hc, hiff⟩ := cpioStrncmpTurns_spec (n := 2 ^ 64 - 1) he.name.reads hname.reads he.name.nonzero
        hname.nonzero (Or.inl (by unfold cpioHeaderSize at hnamefit; omega))
      have hcmp : cpioStrncmp (charsAt mem (p + cpioHeaderSize)) (charsAt mem q) (2 ^ 64 - 1) = .ok c := hc
      have hc0 : c ≠ 0 := fun h0 => hmiss e (List.mem_cons_self ..) (hiff.mp h0)
      have hnext : cpioGetFileTurns mem q (p + e.bytes.length) e.data.length n =
          .ok (none, (es.getLast?.map (·.data.length)).getD e.data.length) :=
        ih hrest (fun d hd => hmiss d (List.mem_cons_of_mem _ hd)) (Nat.lt_of_succ_lt_succ hn)
      rw [cpioGetFileTurns, he.parse]
      simp only [ok_bind, hprint, hcmp, Option.getD_some, ne_eq, not_true_eq_false, if_false, hc0, hnext]
      cases es with
      | nil => rfl
      | cons d ds => rw [List.getLast?_cons_cons, List.getLast?_cons]; rfl

/-- **`cpio_move_file` of a file that is not there.** -/
theorem execLoad_missing (h : Archived (readable k.mem) initramfsAddr entries trailer)
    (hname : CString (readable k.mem) q name) (hmiss : ∀ e ∈ entries, e.name ≠ name) :
    execLoad k.mem q = .ok (moveAddress, min (passedSize entries) (2 ^ 31),
      Ram.copyChars ⟨k.mem, []⟩ moveAddress 0 (min (passedSize entries) (2 ^ 31))) := by
  have hprint : printString (readable k.mem) (some q) = .ok name := by
    have hfit := hname.fits
    exact readStringTurns_spec hname (by omega)
  have hlen := h.length_lt
  have hget : cpioGetFile (readable k.mem) initramfsAddr q 5920 = .ok (none, passedSize entries) :=
    cpioGetFileTurns_missing h hname hmiss (by omega)
  unfold execLoad cpioMoveFile
  simp only [hprint, hget, ok_bind]
  rfl

/-- The frame is set up at the end, -/
theorem execArgs_frame (k : Kernel) (target argv argc backup : Nat) :
    (((execArgs k target argv argc backup).1.tasks k.current).ptRegs.pc = target) ∧
    ((execArgs k target argv argc backup).1.tasks k.current).ptRegs.regs 1 =
      ((execArgs k target argv argc backup).1.tasks k.current).ptRegs.sp := by
  unfold execArgs
  dsimp only [Kernel.stored_current, Kernel.updateTask_current]
  rw [Kernel.updateTask_self]
  refine ⟨rfl, ?_⟩
  dsimp only
  exact Function.update_self ..

/-- with the `sp` that was meant, where no copy ran over the task. -/
theorem execArgs_sp {target argc backup : Nat}
    (hoff : ∀ a ∈ (execArgs k target argv argc backup).2, ¬ k.current.Page a) :
    ((execArgs k target argv argc backup).1.tasks k.current).ptRegs.sp = execSp k.cur argc := by
  have hfirst : (k.stored ((⟨k.mem, []⟩ : Ram).copyPointers backup argv argc)).cur = k.cur :=
    Kernel.stored_off (fun _ a ha => hoff a (List.mem_append_right _ ha))
  unfold execArgs at hoff ⊢
  dsimp only [Kernel.stored_current, Kernel.updateTask_current] at hoff ⊢
  rw [Kernel.updateTask_self]
  dsimp only
  rw [Kernel.stored_off (fun _ a ha => hoff a (List.mem_append_left _ ha)), Kernel.updateTask_self, hfirst]

theorem ptRegs_enable (k : Kernel) (p : TaskPtr) : ((preemptEnable k).tasks p).ptRegs = (k.tasks p).ptRegs := by
  unfold preemptEnable
  by_cases hp : p = k.current
  · rw [hp, k.updateTask_self]
  · rw [k.updateTask_ne _ p _ hp]

/-- A call that returned, with no program of that name. -/
theorem sysExecTrace_missing (h : Archived (readable k.mem) initramfsAddr entries trailer)
    (hname : CString (readable k.mem) q name) (hmiss : ∀ e ∈ entries, e.name ≠ name)
    (hrun : (sysExecTrace k q argv).outcome = .ok (r, k')) :
    RunsFromNull k entries (sysExecTrace k q argv) r k' := by
  have hload := execLoad_missing h hname hmiss
  obtain ⟨size, ram, argc, page, mm, hload', hargc, hpage, rfl, rfl, _⟩ := sysExecTrace_ok hrun
  obtain ⟨_, hw⟩ := execLoad_wrote hload'
  have hwritten : ∀ a, a ∈ (sysExecTrace k q argv).written ↔
      a ∈ (execArgs { loadedKernel k ram with mm } moveAddress argv argc (page.getD 0)).2 ∨ Within moveAddress size a := by
    intro a
    rw [sysExecTrace_paged hload' hargc hpage, List.mem_append, hw.written a]
    simp only [List.not_mem_nil, or_false]
  obtain ⟨hpc, hx1⟩ := execArgs_frame { loadedKernel k ram with mm } moveAddress argv argc (page.getD 0)
  refine ⟨Int.natCast_nonneg _, ?_, ?_, fun hoff => ?_, sysExecTrace_size hload, fun a ha => ?_⟩
  · rw [ptRegs_enable]
    exact hpc
  · rw [ptRegs_enable]
    exact hx1
  · have hcur : (loadedKernel k ram).cur = (preemptDisable k).cur :=
      loadedKernel_cur hw (fun a ha => hoff a ((hwritten a).mpr (Or.inr ha)))
    rw [ptRegs_enable]
    have hoff' : ∀ a ∈ (execArgs { loadedKernel k ram with mm } moveAddress argv argc (page.getD 0)).2,
        ¬ k.current.Page a := fun a ha => hoff a ((hwritten a).mpr (Or.inl ha))
    refine (execArgs_sp hoff').trans ?_
    rw [show Kernel.cur { loadedKernel k ram with mm } = (preemptDisable k).cur from hcur]
    simp [execSp, preemptDisable, Kernel.cur]
  · rw [sysExecTrace_size hload'] at ha
    exact (hwritten a).mpr (Or.inr ha)

theorem RunsFromNull.unclean {e : ExecTrace} (h : ∀ r k', e.outcome = .ok (r, k') → RunsFromNull k entries e r k') :
    ¬ FailsCleanly k e := by
  intro hclean
  obtain ⟨r, k', hrun, hneg, _⟩ := hclean
  have := (h r k' hrun).count
  omega

/--
**A missing program is run.** For every well-formed archive, name that is none of
its entries and `argv[]`, in every state: if `sys_exec` returns at all it returns
the number of arguments, and the caller goes on in bytes copied from NULL.
-/
theorem sysExec_missing (h : Archived (readable k.mem) initramfsAddr entries trailer)
    (hname : CString (readable k.mem) q name) (hmiss : ∀ e ∈ entries, e.name ≠ name) (argv : Nat) :
    ¬ FailsCleanly k (sysExecTrace k q argv) ∧
    ∀ r k', (sysExecTrace k q argv).outcome = .ok (r, k') → RunsFromNull k entries (sysExecTrace k q argv) r k' :=
  ⟨RunsFromNull.unclean (fun _ _ => sysExecTrace_missing h hname hmiss), fun _ _ => sysExecTrace_missing h hname hmiss⟩

/-! ## An archive in memory -/

/-- The archive of one file, with something behind it, and below it the memory `low`. -/
def initramfs (low : Nat → UInt8) (behind : List UInt8) : Nat → UInt8 := fun a =>
  if a < initramfsAddr then low a
  else (archiveBytes [smallFile] smallTrailer ++ behind).getD (a - initramfsAddr) 0

section Initramfs

variable (low : Nat → UInt8) (behind : List UInt8)

theorem initramfs_at {i : Nat} {b : UInt8} (hb : (archiveBytes [smallFile] smallTrailer ++ behind)[i]? = some b) :
    readable (initramfs low behind) (initramfsAddr + i) = some b := by
  unfold readable initramfs
  rw [if_neg (Nat.not_lt.mpr (Nat.le_add_right ..)), Nat.add_sub_cancel_left, List.getD_eq_getElem?_getD, hb]
  rfl

theorem initramfs_archived : Archived (readable (initramfs low behind)) initramfsAddr [smallFile] smallTrailer where
  wellFormed := smallArchive.wellFormed
  last := smallArchive.last
  aligned := by decide
  bytes i b hb := by
    refine initramfs_at low behind ?_
    rw [List.getElem?_append_left (List.getElem?_eq_some_iff.mp hb).1]
    exact hb
  fits := by decide +kernel

theorem initramfs_name (name rest : List UInt8) (hn : ∀ c ∈ name, c ≠ 0) (hfit : name.length < 2 ^ 32) :
    CString (readable (initramfs low (name ++ [0] ++ rest))) smallNameAddr name where
  nonzero := hn
  bytes i b hb := by
    have hlen : (archiveBytes [smallFile] smallTrailer).length = 240 := by decide +kernel
    have hi := (List.getElem?_eq_some_iff.mp hb).1
    rw [show smallNameAddr + i = initramfsAddr + (240 + i) from Nat.add_assoc ..]
    refine initramfs_at low _ ?_
    rw [List.getElem?_append_right (by omega), hlen, Nat.add_sub_cancel_left, List.getElem?_append_left hi]
    exact hb
  fits := by
    unfold smallNameAddr initramfsAddr
    omega

end Initramfs

/-- An archive without the file `b`. -/
theorem sysExec_missing_b :
    ∃ k, ExecReachable k ∧ ∃ r k', (sysExecTrace k smallNameAddr 0).outcome = .ok (r, k') ∧
      RunsFromNull k [smallFile] (sysExecTrace k smallNameAddr 0) r k' := by
  have hrun : (taskRun [.copyProcess pfKthread 0 0, .schedule, .moveToUserMode 0]).map (fun k =>
      (sysExecTrace { k with mem := initramfs (fun _ => 0) [98, 0] } smallNameAddr 0).outcome.toOption.isSome) =
      some true := by decide +kernel
  obtain ⟨k, hk, hres⟩ := Option.map_eq_some_iff.mp hrun
  have hreach := execReachable_programs (taskReachable_of_run hk) (initramfs (fun _ => 0) [98, 0])
  have hmiss := (sysExec_missing (k := { k with mem := initramfs (fun _ => 0) [98, 0] })
    (initramfs_archived (fun _ => 0) [98, 0])
    (initramfs_name (fun _ => 0) [98] [] (by simp) (by decide)) (by decide) 0).2
  refine ⟨_, hreach, ?_⟩
  cases hout : (sysExecTrace { k with mem := initramfs (fun _ => 0) [98, 0] } smallNameAddr 0).outcome with
  | error f => rw [hout] at hres; exact absurd hres (by simp [Except.toOption])
  | ok res => exact ⟨res.1, res.2, rfl, hmiss _ _ hout⟩

/-- It fails at the file `b`. -/
theorem not_failsCleanly :
    ¬ ∀ k, ExecReachable k → k.cur.stack ≠ 0 → ∀ entries trailer q name argv,
      Archived (readable k.mem) initramfsAddr entries trailer → CString (readable k.mem) q name →
      (∀ e ∈ entries, e.name ≠ name) → FailsCleanly k (sysExecTrace k q argv) := by
  intro hall
  have hrun : (taskRun [.copyProcess pfKthread 0 0, .schedule, .moveToUserMode 0]).map (fun k =>
      decide (k.cur.stack ≠ 0)) = some true := by decide +kernel
  obtain ⟨k, hk, hres⟩ := Option.map_eq_some_iff.mp hrun
  have hreach := execReachable_programs (taskReachable_of_run hk) (initramfs (fun _ => 0) [98, 0])
  have harch := initramfs_archived (fun _ => 0) [98, 0]
  have hname := initramfs_name (fun _ => 0) [98] [] (by simp) (by decide)
  have hclean := hall _ hreach (of_decide_eq_true hres) [smallFile] smallTrailer smallNameAddr [98] 0 harch hname
    (by decide)
  have hmiss : ∀ e ∈ [smallFile], e.name ≠ [98] := by decide
  exact RunsFromNull.unclean (fun _ _ hout => sysExecTrace_missing harch hname hmiss hout) hclean

end OsdiKernel
