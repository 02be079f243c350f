import OsdiKernel.Exec.Argv

/-!
# Whether the argument strings survive

The new program is in place before `argv[]` is read, so a vector or a string that
was part of the old one is read as the new program's bytes. The new vector goes
to the top of the stack, where strings may be; the slot behind it, where the
program looks for the NULL, is not written at all.

What memory holds afterwards can be said byte by byte: `withImage` is the load,
`withVector` the two copies.
-/

namespace OsdiKernel

variable {k k' : Kernel} {mem mem' : Nat → UInt8} {q argv n m size a b : Nat} {r : Int} {data : List UInt8}
  {strings : Nat → List UInt8}

/-- Memory with a program in the load area. The counter of the loop that puts it there is an `int`. -/
def withImage (data : List UInt8) (mem : Nat → UInt8) : Nat → UInt8 := fun a =>
  if Within moveAddress (min data.length (2 ^ 31)) a then data.getD (a - moveAddress) 0 else mem a

/-- Memory with the vector in the scratch page and at its new place. -/
def withVector (mem : Nat → UInt8) (argv n scratch sp : Nat) : Nat → UInt8 := fun a =>
  if Within sp (8 * n) a then mem (argv + copyOffset scratch argv (a - sp))
  else if Within scratch (8 * n) a then mem (argv + copyOffset scratch argv (a - scratch))
  else mem a

/-- What the caller passes: `n` strings, by a vector of pointers. -/
structure PassesArgs (k : Kernel) (argv n : Nat) (strings : Nat → List UInt8) : Prop where
  aligned : 8 ∣ argv
  vector : ArgVector k.mem argv n
  string : ∀ i < n, CString (readable k.mem) (load64 k.mem (argv + 8 * i)) (strings i)
  /-- None of it is in the page with its task and kernel stack: that is not the process's memory. -/
  apart : ∀ x, Within argv (8 * (n + 1)) x ∨
    (∃ i < n, Within (load64 k.mem (argv + 8 * i)) ((strings i).length + 1) x) → ¬ k.current.Page x

/-- What the new program finds, its vector being at `x1`. -/
structure ArgsSurvive (k k' : Kernel) (n : Nat) (strings : Nat → List UInt8) (r : Int) : Prop where
  count : r = n
  last : load64 k'.mem ((k'.tasks k.current).ptRegs.regs 1 + 8 * n) = 0
  string : ∀ i < n, CString (readable k'.mem)
    (load64 k'.mem ((k'.tasks k.current).ptRegs.regs 1 + 8 * i)) (strings i)

/-- The bytes of the image, of the vector and of what else is there make up the same arguments. -/
structure ArgsKept (k : Kernel) (data : List UInt8) (argv n : Nat) (strings : Nat → List UInt8) (scratch : Nat) :
    Prop where
  vector : ArgVector (withImage data k.mem) argv n
  last : load64 (withVector (withImage data k.mem) argv n scratch (execSp k.cur n)) (execSp k.cur n + 8 * n) = 0
  string : ∀ i < n, CString (readable (withVector (withImage data k.mem) argv n scratch (execSp k.cur n)))
    (load64 (withVector (withImage data k.mem) argv n scratch (execSp k.cur n)) (execSp k.cur n + 8 * i)) (strings i)

/-! ## What memory holds -/

/-- The byte copy, downwards. -/
theorem copyChars_byte (n : Nat) : ∀ (ram : Ram) (target result : Nat), target ≤ result → ∀ x,
    (ram.copyChars target result n).mem x =
      if Within target n x then ram.mem (result + (x - target)) else ram.mem x := by
  induction n with
  | zero =>
      intro ram target result _ x
      have hno : ¬ Within target 0 x := fun h => by
        obtain ⟨h1, h2⟩ := h
        omega
      rw [if_neg hno]
      rfl
  | succ n ih =>
      intro ram target result hle x
      have hstore : ∀ y, (ram.store target (ram.mem result)).mem y = if y = target then ram.mem result else ram.mem y :=
        fun y => Function.update_apply ..
      rw [Ram.copyChars, ih _ _ _ (by omega), hstore, hstore]
      by_cases hx : x = target
      · subst hx
        have hrest : ¬ Within (x + 1) n x := fun h => by
          obtain ⟨h1, h2⟩ := h
          omega
        rw [if_neg hrest, if_pos rfl, if_pos ⟨Nat.le_refl _, by omega⟩, Nat.sub_self, Nat.add_zero]
      · by_cases hrest : Within (target + 1) n x
        · obtain ⟨h1, h2⟩ := hrest
          rw [if_pos ⟨h1, h2⟩, if_neg (by omega), if_pos ⟨by omega, by omega⟩]
          congr 1
          omega
        · have hall : ¬ Within target (n + 1) x := fun h => by
            obtain ⟨h1, h2⟩ := h
            exact hrest ⟨by omega, by omega⟩
          rw [if_neg hrest, if_neg hx, if_neg hall]

/-- A file's data is where it was found. -/
theorem findEntry_bytes {mem : Memory} {p : Nat} {entries : List CpioEntry} {trailer : CpioHeader} {name : List UInt8}
    {e : CpioEntry} (h : Archived mem p entries trailer) (hf : findEntry p name entries = some (a, e)) :
    p ≤ a ∧ BytesAt mem a e.data := by
  induction entries generalizing p with
  | nil => exact absurd hf (by simp [findEntry])
  | cons d ds ih =>
      unfold findEntry at hf
      by_cases hn : d.name = name
      · rw [if_pos hn] at hf
        obtain ⟨rfl, rfl⟩ := Prod.mk.inj (Option.some.inj hf)
        refine ⟨Nat.le_add_right .., ?_⟩
        have hbytes := h.bytes
        rw [archiveBytes, List.flatMap_cons, List.append_assoc] at hbytes
        have hentry := (bytesAt_append.mp hbytes).1
        rw [CpioEntry.bytes] at hentry
        exact (bytesAt_append.mp (bytesAt_append.mp hentry).2).1
      · rw [if_neg hn] at hf
        obtain ⟨hle, hb⟩ := ih h.first.2 hf
        exact ⟨by omega, hb⟩

/-- **The load**, byte by byte. -/
theorem loaded_mem (h : ProgramAt k q a data) :
    (Ram.copyChars ⟨k.mem, []⟩ moveAddress a (min data.length (2 ^ 31))).mem = withImage data k.mem := by
  obtain ⟨entries, trailer, name, e, harch, _, hfind, rfl⟩ := h
  obtain ⟨hle, hbytes⟩ := findEntry_bytes harch hfind
  have hbelow : moveAddress ≤ a := Nat.le_trans (by decide) hle
  funext x
  rw [copyChars_byte _ _ _ _ hbelow, withImage]
  by_cases hx : Within moveAddress (min e.data.length (2 ^ 31)) x
  · rw [if_pos hx, if_pos hx]
    obtain ⟨h1, h2⟩ := hx
    have hlt : x - moveAddress < e.data.length := by omega
    have hb := hbytes (x - moveAddress) _ (List.getElem?_eq_getElem hlt)
    rw [List.getD_eq_getElem _ _ hlt]
    exact Option.some.inj hb
  · rw [if_neg hx, if_neg hx]

/-- **The two copies**, byte by byte. -/
theorem copied_mem {mm' : Mm} (hp : ExecPlaces k n b mm') (ha : 8 ∣ argv) :
    memcpyTurns (memcpyTurns mem b argv n) (execSp k.cur n) b n = withVector mem argv n b (execSp k.cur n) := by
  have hb := hp.scratch
  have hfirst : argv < b → argv + 8 ≤ b := by omega
  funext x
  rw [memcpyTurns_byte n _ _ _ hp.safe, memcpyTurns_offset hfirst, memcpyTurns_offset hfirst, withVector]
  by_cases hx : Within (execSp k.cur n) (8 * n) x
  · obtain ⟨h1, h2⟩ := id hx
    rw [if_pos hx, if_pos hx, if_pos ⟨by omega, by omega⟩, Nat.add_sub_cancel_left]
  · rw [if_neg hx, if_neg hx]

/-! ## Strings -/

/-- A string in memory that can be read everywhere. -/
theorem cstring_readable {p : Nat} {s : List UInt8} :
    CString (readable mem) p s ↔
      (∀ c ∈ s, c ≠ 0) ∧ (∀ j ≤ s.length, mem (p + j) = (s ++ [0]).getD j 0) ∧ p + s.length < 2 ^ 64 := by
  have hlen : (s ++ [0]).length = s.length + 1 := by rw [List.length_append, List.length_singleton]
  constructor
  · intro h
    refine ⟨h.nonzero, fun j hj => ?_, h.fits⟩
    have hj' : j < (s ++ [0]).length := by omega
    rw [List.getD_eq_getElem _ _ hj']
    exact Option.some.inj (h.bytes j _ (List.getElem?_eq_getElem hj'))
  · intro h
    obtain ⟨hz, hb, hfit⟩ := h
    refine ⟨hz, fun j c hc => ?_, hfit⟩
    have hj := (List.getElem?_eq_some_iff.mp hc).1
    rw [readable, hb j (by omega), List.getD_eq_getElem?_getD, hc]
    rfl

/-- A string is the same string where none of its bytes changed, and nowhere else. -/
theorem cstring_kept {p : Nat} {s : List UInt8} (h : CString (readable mem) p s) :
    CString (readable mem') p s ↔ ∀ j ≤ s.length, mem' (p + j) = mem (p + j) := by
  obtain ⟨hz, hb, hfit⟩ := cstring_readable.mp h
  rw [cstring_readable]
  constructor
  · intro h' j hj
    rw [h'.2.1 j hj, hb j hj]
  · intro h'
    exact ⟨hz, fun j hj => (h' j hj).trans (hb j hj), hfit⟩

/-! ## The vector itself untouched -/

/-- Neither the image nor the copy to the scratch page changes the vector before it is read. -/
structure VectorKept (k : Kernel) (data : List UInt8) (argv n scratch : Nat) : Prop where
  image : ∀ x, Within argv (8 * (n + 1)) x → withImage data k.mem x = k.mem x
  clear : ¬ (argv < scratch ∧ scratch < argv + 8 * n)

/-- Then the pointers arrive as they were, -/
theorem VectorKept.word (h : VectorKept k data argv n b) {i : Nat} (hi : i < n) :
    load64 (withVector (withImage data k.mem) argv n b (execSp k.cur n)) (execSp k.cur n + 8 * i) =
      load64 k.mem (argv + 8 * i) := by
  refine load64_moved (fun t ht => ?_)
  have hoff : copyOffset b argv (8 * i + t) = 8 * i + t := by
    unfold copyOffset
    by_cases hlt : argv < b
    · rw [if_pos hlt, Nat.mod_eq_of_lt]
      have := h.clear
      omega
    · rw [if_neg hlt]
  have hsub : execSp k.cur n + 8 * i + t - execSp k.cur n = 8 * i + t := by omega
  rw [withVector, if_pos ⟨by omega, by omega⟩, hsub, hoff, ← Nat.add_assoc]
  exact h.image _ ⟨by omega, by omega⟩

/-- and what remains is the word behind them and the bytes of the strings. -/
theorem VectorKept.argsKept_iff (h : VectorKept k data argv n b) (hpass : PassesArgs k argv n strings) :
    ArgsKept k data argv n strings b ↔
      load64 (withVector (withImage data k.mem) argv n b (execSp k.cur n)) (execSp k.cur n + 8 * n) = 0 ∧
      ∀ i < n, ∀ j ≤ (strings i).length,
        withVector (withImage data k.mem) argv n b (execSp k.cur n) (load64 k.mem (argv + 8 * i) + j) =
          k.mem (load64 k.mem (argv + 8 * i) + j) := by
  constructor
  · intro hkept
    refine ⟨hkept.last, fun i hi => ?_⟩
    have hstr := hkept.string i hi
    rw [h.word hi] at hstr
    exact (cstring_kept (hpass.string i hi)).mp hstr
  · intro hrest
    refine ⟨hpass.vector.congr h.image, hrest.1, fun i hi => ?_⟩
    rw [h.word hi]
    exact (cstring_kept (hpass.string i hi)).mpr (hrest.2 i hi)

/-! ## One call -/

/-- Once the count is right, memory is as described. -/
theorem argsSurvive_iff {mm' : Mm} {ram : Ram} (hp : ExecPlaces k n b mm') (ha : 8 ∣ argv)
    (hw : Wrote ⟨k.mem, []⟩ ram (Within moveAddress size)) (hmem : ram.mem = withImage data k.mem)
    (htask : ∀ x, Within moveAddress size x → ¬ k.current.Page x)
    (hcount : argcCount (withImage data k.mem) argv (2 ^ 31) = some n) :
    ArgsSurvive k (laidOut k ram mm' argv n b) n strings (n : Int) ↔ ArgsKept k data argv n strings b := by
  have hcur : (laidOut k ram mm' argv n b).tasks k.current = execTask k.cur n := laidOut_cur hw htask
  have hx1 := execTask_x1 k.cur n
  have hafter : (laidOut k ram mm' argv n b).mem = withVector (withImage data k.mem) argv n b (execSp k.cur n) := by
    rw [← hmem, ← copied_mem hp ha]
    rfl
  constructor
  · intro h
    have hlast := h.last
    have hstring := h.string
    rw [hcur, hx1, hafter] at hlast hstring
    exact ⟨argVector_of_count hcount, hlast, hstring⟩
  · intro h
    refine ⟨rfl, ?_, ?_⟩ <;> rw [hcur, hx1, hafter]
    · exact h.last
    · exact h.string

/--
**When the arguments survive.** In every state that calls and programs can lead
to, for every file there is that is not moved over the task itself, and every
vector of up to 510 strings, wherever they are: after a call that returned, the
new program finds them exactly when the image, the vector and what else is in
memory make them up. Where the vector is not changed before it is read, that is
when the word behind its copy is NULL and no byte of a string has changed.
-/
theorem argsSurvive_exec (h : ExecReachable k) (hs : k.cur.stack ≠ 0) (hprog : ProgramAt k q a data)
    (htask : ∀ x, Within moveAddress data.length x → ¬ k.current.Page x) (hn : n ≤ 510)
    (hpass : PassesArgs k argv n strings) (hrun : (sysExecTrace k q argv).outcome = .ok (r, k')) :
    ∃ scratch mm, kmalloc k.mm pageSize = .ok (some scratch, mm) ∧
      (ArgsSurvive k k' n strings r ↔ ArgsKept k data argv n strings scratch) ∧
      (VectorKept k data argv n scratch → (ArgsKept k data argv n strings scratch ↔
        load64 (withVector (withImage data k.mem) argv n scratch (execSp k.cur n)) (execSp k.cur n + 8 * n) = 0 ∧
        ∀ i < n, ∀ j ≤ (strings i).length,
          withVector (withImage data k.mem) argv n scratch (execSp k.cur n) (load64 k.mem (argv + 8 * i) + j) =
            k.mem (load64 k.mem (argv + 8 * i) + j))) := by
  obtain ⟨c, live, hinv⟩ := taskOk_exec h
  have hload := execLoad_found hprog
  have hmem := loaded_mem hprog
  obtain ⟨_, hw⟩ := execLoad_wrote hload
  have hoff : ∀ x, Within moveAddress (min data.length (2 ^ 31)) x → ¬ k.current.Page x :=
    fun x hx => htask x ⟨hx.1, by have := hx.2; omega⟩
  obtain ⟨size, ram, argc, page, mm, hload', hargc, hpage, rfl, _, _⟩ := sysExecTrace_ok hrun
  obtain ⟨_, rfl, rfl⟩ : moveAddress = moveAddress ∧ _ = size ∧ _ = ram := by
    simpa only [Except.ok.injEq, Prod.mk.injEq] using hload.symm.trans hload'
  rcases kmalloc_page hinv.mm with ⟨_, hno⟩ | ⟨b, mm', c', ht⟩
  · exact absurd (hpage.symm.trans hno) (by simp)
  · refine ⟨b, _, ht.run, ?_, fun hv => hv.argsKept_iff hpass⟩
    have hp : ExecPlaces k n b mm' := hinv.execPlaces hs (by omega) ht
    -- either way the vector was counted to `n`
    have hsame : argc = n → (ArgsSurvive k k' n strings argc ↔ ArgsKept k data argv n strings b) := by
      rintro rfl
      have hreturned := sysExecTrace_returned hinv hs hload hargc ht (by unfold pageSize; omega) hoff
      rw [hrun] at hreturned
      obtain ⟨_, rfl⟩ := Prod.mk.inj (Except.ok.inj hreturned)
      exact argsSurvive_iff hp hpass.aligned hw hmem hoff (hmem ▸ hargc)
    constructor
    · intro hsurv
      exact (hsame (Int.ofNat_inj.mp hsurv.count)).mp hsurv
    · intro hkept
      have hcount := hkept.vector.count (show n < 2 ^ 31 by omega)
      rw [← hmem] at hcount
      exact (hsame (Option.some.inj (hargc.symm.trans hcount))).mpr hkept

/-- It returns if the vector, as the load leaves it, has an end, and there is a page. -/
theorem sysExecTrace_returns (h : ExecReachable k) (hs : k.cur.stack ≠ 0) (hfree : (freeFrames k.mm).Nonempty)
    (hprog : ProgramAt k q a data) (htask : ∀ x, Within moveAddress data.length x → ¬ k.current.Page x) (hn : n ≤ 512)
    (hv : ArgVector (withImage data k.mem) argv n) : ∃ r k', (sysExecTrace k q argv).outcome = .ok (r, k') := by
  obtain ⟨c, live, hinv⟩ := taskOk_exec h
  obtain ⟨b, mm', c', ht⟩ := takePage hinv.mm hfree
  rw [← loaded_mem hprog] at hv
  exact ⟨_, _, sysExecTrace_returned hinv hs (execLoad_found hprog) (hv.count (by omega)) ht hn
    (fun x hx => htask x ⟨hx.1, by have := hx.2; omega⟩)⟩

/-! ## One string, on the stack and in the program -/

/-- The string `x` at `p`, a pointer to it at `0x201800`, and the file `a` in the initramfs. -/
def oneString (p : Nat) : Nat → UInt8 :=
  initramfs (fun x => if x = p then 120 else if Within 0x201800 8 x then UInt8.ofNat (p / 256 ^ (x - 0x201800)) else 0)
    [97, 0]

theorem oneString_passes {p : Nat} (hcur : k.current = .page 0x200000) (hp : 0x201000 ≤ p ∧ p < 2 ^ 32)
    (hword : load64 (oneString p) 0x201800 = p) (hend : load64 (oneString p) 0x201808 = 0)
    (hbyte : oneString p p = 120 ∧ oneString p (p + 1) = 0) :
    PassesArgs { k with mem := oneString p } 0x201800 1 (fun _ => [120]) := by
  have hfirst : ∀ i < 1, load64 (oneString p) (0x201800 + 8 * i) = p := by
    intro i hi
    obtain rfl : i = 0 := by omega
    exact hword
  refine ⟨by decide, ⟨fun i hi => ?_, hend⟩, fun i hi => ?_, fun x hx hin => ?_⟩
  · show load64 (oneString p) (0x201800 + 8 * i) ≠ 0
    rw [hfirst i hi]
    omega
  · show CString (readable (oneString p)) (load64 (oneString p) (0x201800 + 8 * i)) [120]
    rw [hfirst i hi]
    refine cstring_readable.mpr ⟨by simp, fun j hj => ?_, ?_⟩
    · obtain rfl | rfl : j = 0 ∨ j = 1 := by
        simp only [List.length_singleton] at hj
        omega
      · exact hbyte.1
      · exact hbyte.2
    · simp only [List.length_singleton]
      omega
  · -- the vector and the string are above the task's page
    have hin' : k.current.Page x := hin
    rw [hcur] at hin'
    obtain ⟨_, h2⟩ : Within 0x200000 4096 x := hin'
    rcases hx with ⟨h1, _⟩ | ⟨i, hi, h1⟩
    · omega
    · have h1' : Within (load64 (oneString p) (0x201800 + 8 * i)) 2 x := h1
      rw [hfirst i hi] at h1'
      obtain ⟨h1', _⟩ := h1'
      omega

/-- The file `a` is moved to frames far above the first task's. -/
theorem firstProcess_off (hcur : k.current = .page 0x200000) {mem : Nat → UInt8} :
    ∀ x, Within moveAddress smallFile.data.length x → ¬ (Kernel.current { k with mem }).Page x := by
  intro x hx hin
  have hin' : k.current.Page x := hin
  rw [hcur] at hin'
  obtain ⟨_, h2⟩ : Within 0x200000 4096 x := hin'
  obtain ⟨h1, _⟩ := hx
  unfold moveAddress at h1
  omega

/-- Memory after that. -/
def oneStringAfter (p : Nat) : Nat → UInt8 :=
  withVector (withImage smallFile.data (oneString p)) 0x201800 1 0x202000 0x201ff0

theorem firstProcess_sp (h : k.cur.stack = 0x201000) : execSp k.cur 1 = 0x201ff0 := by
  rw [execSp, h]
  decide

/-- The string is on the stack, below: it survives. -/
theorem argsSurvive_exec_stack :
    ∃ k, ExecReachable k ∧ ∃ r k', (sysExecTrace k smallNameAddr 0x201800).outcome = .ok (r, k') ∧
      ArgsSurvive k k' 1 (fun _ => [120]) r := by
  obtain ⟨k, hk, hplace, hfree, ⟨mm, hmm⟩, _⟩ := firstProcess
  have hreach := execReachable_programs hk (oneString 0x201100)
  have hs : k.cur.stack ≠ 0 := by
    rw [hplace.2]
    decide
  have hprog := initramfs_program (fun x => if x = 0x201100 then 120 else
    if Within 0x201800 8 x then UInt8.ofNat (0x201100 / 256 ^ (x - 0x201800)) else 0) k
  have hpass := oneString_passes (p := 0x201100) hplace.1 (by decide) (by decide +kernel) (by decide +kernel)
    ⟨by decide +kernel, by decide +kernel⟩
  have himage : ArgVector (withImage smallFile.data (oneString 0x201100)) 0x201800 1 :=
    ⟨by decide +kernel, by decide +kernel⟩
  obtain ⟨r, k', hrun⟩ := sysExecTrace_returns hreach hs hfree hprog (firstProcess_off hplace.1) (by decide) himage
  refine ⟨_, hreach, r, k', hrun, ?_⟩
  obtain ⟨b, mm', hb, hiff, hkept⟩ := argsSurvive_exec hreach hs hprog (firstProcess_off hplace.1) (by decide) hpass hrun
  obtain ⟨hbeq, _⟩ := Prod.mk.inj (Except.ok.inj (hmm.symm.trans hb))
  obtain rfl := Option.some.inj hbeq
  have hsp : execSp { k with mem := oneString 0x201100 }.cur 1 = 0x201ff0 := firstProcess_sp hplace.2
  have hv : VectorKept { k with mem := oneString 0x201100 } smallFile.data 0x201800 1 0x202000 := by
    refine ⟨fun x hx => if_neg (fun hin => ?_), by decide⟩
    obtain ⟨h1, h2⟩ := hx
    obtain ⟨h3, h4⟩ := hin
    unfold moveAddress at h3
    omega
  refine hiff.mpr ((hkept hv).mpr ?_)
  rw [hsp]
  have hlast : load64 (oneStringAfter 0x201100) (0x201ff0 + 8 * 1) = 0 := by decide +kernel
  have hsame : ∀ i < 1, ∀ j ≤ 1, oneStringAfter 0x201100 (load64 (oneString 0x201100) (0x201800 + 8 * i) + j) =
      oneString 0x201100 (load64 (oneString 0x201100) (0x201800 + 8 * i) + j) := by decide +kernel
  exact ⟨hlast, hsame⟩

/-- The address is the process's own: on its stack, or in the program that is in place, of `size` bytes. -/
def CallerMemory (t : Task) (size x : Nat) : Prop := Within t.stack pageSize x ∨ Within moveAddress size x

/-- The string is the old program's: what the new one finds is its own first byte. -/
theorem not_argsSurvive :
    ¬ ∀ k, ExecReachable k → k.cur.stack ≠ 0 → ∀ q a data size argv n strings, ProgramAt k q a data → n ≤ 510 →
      PassesArgs k argv n strings → (∀ x, Within argv (8 * (n + 1)) x → CallerMemory k.cur size x) →
      (∀ i < n, ∀ j ≤ (strings i).length, CallerMemory k.cur size (load64 k.mem (argv + 8 * i) + j)) →
      ∀ r k', (sysExecTrace k q argv).outcome = .ok (r, k') → ArgsSurvive k k' n strings r := by
  intro hall
  obtain ⟨k, hk, hplace, hfree, ⟨mm, hmm⟩, _⟩ := firstProcess
  have hreach := execReachable_programs hk (oneString 0x10A0000)
  have hs : k.cur.stack ≠ 0 := by
    rw [hplace.2]
    decide
  have hprog := initramfs_program (fun x => if x = 0x10A0000 then 120 else
    if Within 0x201800 8 x then UInt8.ofNat (0x10A0000 / 256 ^ (x - 0x201800)) else 0) k
  have hword : load64 (oneString 0x10A0000) 0x201800 = 0x10A0000 := by decide +kernel
  have hpass := oneString_passes (p := 0x10A0000) hplace.1 (by decide) hword (by decide +kernel)
    ⟨by decide +kernel, by decide +kernel⟩
  have himage : ArgVector (withImage smallFile.data (oneString 0x10A0000)) 0x201800 1 :=
    ⟨by decide +kernel, by decide +kernel⟩
  obtain ⟨c, live, hinv⟩ := taskOk_exec hreach
  obtain ⟨b, mm', c', ht⟩ := takePage hinv.mm hfree
  obtain ⟨hbeq, _⟩ := Prod.mk.inj (Except.ok.inj (hmm.symm.trans ht.run))
  obtain rfl := Option.some.inj hbeq
  have hp : ExecPlaces { k with mem := oneString 0x10A0000 } 1 0x202000 mm' := hinv.execPlaces hs (by decide) ht
  have hload := execLoad_found hprog
  have hmem := loaded_mem hprog
  have hcount := himage.count (show 1 < 2 ^ 31 by decide)
  have hreturned := sysExecTrace_returned hinv hs hload (hmem.symm ▸ hcount) ht (by decide)
    (firstProcess_off hplace.1)
  have hsurv := hall _ hreach hs smallNameAddr _ _ 2 0x201800 1 _ hprog (by decide) hpass
    (fun x hx => Or.inl ?_) (fun i hi j hj => Or.inr ?_) _ _ hreturned
  · have hw := (execLoad_wrote hload).2
    have hkept := (argsSurvive_iff hp (by decide) hw hmem (firstProcess_off hplace.1) hcount).mp hsurv
    have hstring := hkept.string 0 (by decide)
    have hsp : execSp { k with mem := oneString 0x10A0000 }.cur 1 = 0x201ff0 := firstProcess_sp hplace.2
    rw [hsp] at hstring
    have hx := (cstring_readable.mp hstring).2.1 0 (Nat.zero_le _)
    have hseven : oneStringAfter 0x10A0000 (load64 (oneStringAfter 0x10A0000) (0x201ff0 + 8 * 0) + 0) = 7 := by
      decide +kernel
    exact absurd (hseven.symm.trans hx) (by decide)
  · -- the vector is on the stack
    have hstack : Kernel.cur { k with mem := oneString 0x10A0000 } = k.cur := rfl
    obtain ⟨h1, h2⟩ := hx
    rw [hstack, hplace.2]
    exact ⟨by omega, by unfold pageSize; omega⟩
  · -- and the string where the old program is
    obtain rfl : i = 0 := by omega
    have hword' : load64 (oneString 0x10A0000) (0x201800 + 8 * 0) = 0x10A0000 := hword
    simp only [List.length_singleton] at hj
    show Within moveAddress 2 (load64 (oneString 0x10A0000) (0x201800 + 8 * 0) + j)
    rw [hword']
    exact ⟨by unfold moveAddress; omega, by unfold moveAddress; omega⟩

end OsdiKernel
