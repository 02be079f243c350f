import OsdiKernel.Exec.Missing
import OsdiKernel.Lib.Words

/-!
# Where `sys_exec` puts the arguments

The vector is copied twice, to a scratch page and from there to the top of the
user stack, because it may lie where it is copied to. The second copy is from a
page of its own. The first is upwards: it may run down over the vector, or be
nowhere near it, but from below the scratch page up into it the copy would meet
its own pointers again. A page that was free a moment ago is no place for a
caller's vector, but no test keeps one from running on into it.
-/

namespace OsdiKernel

variable {k k' : Kernel} {c : Link → List Nat} {live : List Live} {mem mem' : Nat → UInt8}
  {q argv n m size b : Nat} {r : Int}

/-- `n` pointers, and then a NULL. -/
structure ArgVector (mem : Nat → UInt8) (argv n : Nat) : Prop where
  pointer : ∀ i < n, load64 mem (argv + 8 * i) ≠ 0
  last : load64 mem (argv + 8 * n) = 0

/-- The initramfs is in order, and the file named at `q` is in it: at `a`, with these bytes. -/
def ProgramAt (k : Kernel) (q a : Nat) (data : List UInt8) : Prop :=
  ∃ entries trailer name e, Archived (readable k.mem) initramfsAddr entries trailer ∧
    CString (readable k.mem) q name ∧ findEntry initramfsAddr name entries = some (a, e) ∧ e.data = data

/-- The count is right. -/
theorem ArgVector.count (h : ArgVector mem argv n) (hm : n < m) : argcCount mem argv m = some n := by
  induction n generalizing argv m with
  | zero =>
      obtain ⟨m, rfl⟩ : ∃ j, m = j + 1 := ⟨m - 1, by omega⟩
      exact if_pos h.last
  | succ n ih =>
      obtain ⟨m, rfl⟩ : ∃ j, m = j + 1 := ⟨m - 1, by omega⟩
      have hrest : ArgVector mem (argv + 8) n := by
        refine ⟨fun i hi => ?_, ?_⟩
        · rw [show argv + 8 + 8 * i = argv + 8 * (i + 1) by omega]
          exact h.pointer (i + 1) (by omega)
        · rw [show argv + 8 + 8 * n = argv + 8 * (n + 1) by omega]
          exact h.last
      have hfirst : load64 mem argv ≠ 0 := h.pointer 0 (by omega)
      rw [argcCount, if_neg hfirst, ih hrest (by omega)]
      rfl

/-- What is counted is a vector. -/
theorem argVector_of_count (h : argcCount mem argv m = some n) : ArgVector mem argv n := by
  induction m generalizing argv n with
  | zero => exact absurd h (by simp [argcCount])
  | succ m ih =>
      unfold argcCount at h
      by_cases hz : load64 mem argv = 0
      · rw [if_pos hz] at h
        obtain rfl := Option.some.inj h
        exact ⟨fun i hi => absurd hi (Nat.not_lt_zero i), hz⟩
      · rw [if_neg hz] at h
        obtain ⟨n, hn, rfl⟩ := Option.map_eq_some_iff.mp h
        have hrest := ih hn
        refine ⟨fun i hi => ?_, ?_⟩
        · cases i with
          | zero => exact hz
          | succ i =>
              rw [show argv + 8 * (i + 1) = argv + 8 + 8 * i by omega]
              exact hrest.pointer i (by omega)
        · rw [show argv + 8 * (n + 1) = argv + 8 + 8 * n by omega]
          exact hrest.last

/-- A vector that was not written to is the same vector. -/
theorem ArgVector.congr (h : ArgVector mem argv n) (hsame : ∀ x, Within argv (8 * (n + 1)) x → mem' x = mem x) :
    ArgVector mem' argv n := by
  have hword : ∀ i ≤ n, load64 mem' (argv + 8 * i) = load64 mem (argv + 8 * i) := by
    intro i hi
    refine load64_congr (fun x hx => hsame x ?_)
    obtain ⟨h1, h2⟩ := hx
    exact ⟨by omega, by omega⟩
  refine ⟨fun i hi => ?_, ?_⟩
  · rw [hword i (by omega)]
    exact h.pointer i hi
  · rw [hword n (Nat.le_refl n)]
    exact h.last

/-! ## The places -/

/-- **`cpio_move_file` of a file that is there.** -/
theorem execLoad_found {a : Nat} {data : List UInt8} (h : ProgramAt k q a data) :
    execLoad k.mem q = .ok (moveAddress, min data.length (2 ^ 31),
      Ram.copyChars ⟨k.mem, []⟩ moveAddress a (min data.length (2 ^ 31))) := by
  obtain ⟨entries, trailer, name, e, harch, hname, hfind, rfl⟩ := h
  have hprint : printString (readable k.mem) (some q) = .ok name := by
    have hfit := hname.fits
    exact readStringTurns_spec hname (by omega)
  have hlen := harch.length_lt
  have hget : cpioGetFile (readable k.mem) initramfsAddr q 5920 = .ok (some a, e.data.length) :=
    (cpioGetFileTurns_spec harch hname (by omega)).1 a e hfind
  unfold execLoad cpioMoveFile
  simp only [hprint, hget, ok_bind]
  rfl

/-- The user stack of the current task is a live page, and the scratch page another. -/
theorem TaskInv.pages_apart (h : TaskInv k c live) (hs : k.cur.stack ≠ 0) {mm' : Mm} {c' : Link → List Nat}
    (ht : TookPage k.mm live b mm' c') :
    ∃ f g, f < pageFrameNum ∧ g < pageFrameNum ∧ f ≠ g ∧ k.cur.stack = frameAddr f ∧ b = frameAddr g := by
  have hlive := h.live _ h.current.1 .stack _ (h.stack_use hs)
  obtain ⟨f, hf, hfa, _⟩ := h.mm.slab.pageAllocated hlive
  obtain ⟨g, hg, hga, _⟩ := ht.inv.slab.pageAllocated (List.mem_cons_self ..)
  refine ⟨f, g, hf, hg, fun he => ?_, hfa, hga⟩
  have hsame : b = k.cur.stack := by rw [hga, hfa, he]
  exact ht.fresh (hsame ▸ hlive)

theorem execSp_eq {t : Task} (hn : n ≤ 512) (hs : t.stack + pageSize < 2 ^ 64) :
    execSp t n = t.stack + 4096 - 8 * (n + n % 2) := by
  unfold execSp toUnsignedLong pageSize
  unfold pageSize at hs
  omega

/-- A page is found, and the stack's pointers can be copied from it. -/
structure ExecPlaces (k : Kernel) (n b : Nat) (mm' : Mm) : Prop where
  run : kmalloc k.mm pageSize = .ok (some b, mm')
  sp : execSp k.cur n + 8 * (n + n % 2) = k.cur.stack + pageSize
  inside : k.cur.stack ≤ execSp k.cur n
  aligned : 16 ∣ execSp k.cur n
  safe : CopiesSafely (execSp k.cur n) b n
  scratch : 8 ∣ b

theorem TaskInv.execPlaces (h : TaskInv k c live) (hs : k.cur.stack ≠ 0) (hn : n ≤ 512) {mm' : Mm}
    {c' : Link → List Nat} (ht : TookPage k.mm live b mm' c') : ExecPlaces k n b mm' := by
  obtain ⟨f, g, hf, hg, hne, hfa, hga⟩ := h.pages_apart hs ht
  have hsp := execSp_eq hn (h.stack_lt hs)
  refine ⟨ht.run, ?_, ?_, ?_, ?_, ?_⟩
  · rw [hsp]
    unfold pageSize
    omega
  · rw [hsp]
    omega
  · rw [hsp, hfa]
    unfold frameAddr lowMemory pageSize
    omega
  · unfold CopiesSafely
    rw [hsp, hfa, hga]
    unfold frameAddr pageSize
    omega
  · rw [hga]
    unfold frameAddr lowMemory pageSize
    omega

theorem execTask_x1 (t : Task) (argc : Nat) : (execTask t argc).ptRegs.regs 1 = execSp t argc :=
  show Function.update t.ptRegs.regs 1 (execSp t argc) 1 = _ from Function.update_self ..

/-- The file `a`, whatever is in memory below. -/
theorem initramfs_program (low : Nat → UInt8) (k : Kernel) :
    ProgramAt { k with mem := initramfs low [97, 0] } smallNameAddr (initramfsAddr + smallFile.dataOffset)
      smallFile.data :=
  ⟨[smallFile], smallTrailer, [97], smallFile, initramfs_archived _ _, initramfs_name _ [97] [] (by simp) (by decide),
    by decide +kernel, rfl⟩

/-- The pointers 1 and 2 at `a`, and the file `a` in the initramfs. -/
def twoPointers (a : Nat) : Nat → UInt8 :=
  initramfs (fun x => if x = a then 1 else if x = a + 8 then 2 else 0) [97, 0]

/-- A first process: its task at `0x200000`, its stack behind that, and the page behind that free. -/
theorem firstProcess : ∃ k, TaskReachable k ∧ (k.current = .page 0x200000 ∧ k.cur.stack = 0x201000) ∧
    (freeFrames k.mm).Nonempty ∧ (∃ mm, kmalloc k.mm pageSize = .ok (some 0x202000, mm)) ∧
    (sysExecTrace { k with mem := twoPointers 0x201ff8 } smallNameAddr 0x201ff8).outcome.toOption.map
      (fun res => load64 res.2.mem ((res.2.tasks k.current).ptRegs.sp + 8)) = some 1 := by
  have hrun : (taskRun [.copyProcess pfKthread 0 0, .schedule, .moveToUserMode 0]).map (fun k =>
      decide ((k.current = .page 0x200000 ∧ k.cur.stack = 0x201000) ∧ hasFree k.mm 0 = true ∧
        (kmalloc k.mm pageSize).toOption.map Prod.fst = some (some 0x202000) ∧
        (sysExecTrace { k with mem := twoPointers 0x201ff8 } smallNameAddr 0x201ff8).outcome.toOption.map
          (fun res => load64 res.2.mem ((res.2.tasks k.current).ptRegs.sp + 8)) = some 1)) = some true := by
    decide +kernel
  obtain ⟨k, hk, hres⟩ := Option.map_eq_some_iff.mp hrun
  obtain ⟨hplace, hfree, hpage, hword⟩ := of_decide_eq_true hres
  obtain ⟨c, live, hinv⟩ := taskOk_reachable (taskReachable_of_run hk)
  refine ⟨k, taskReachable_of_run hk, hplace, hinv.mm.slab.buddy.hasFree_iff_nonempty.mp hfree, ?_, hword⟩
  cases hm : kmalloc k.mm pageSize with
  | error f => rw [hm] at hpage; exact absurd hpage (by simp [Except.toOption])
  | ok res =>
      obtain ⟨page, mm⟩ := res
      rw [hm] at hpage
      obtain rfl : page = some 0x202000 := by simpa [Except.toOption] using hpage
      exact ⟨mm, rfl⟩

end OsdiKernel
