import OsdiKernel.Sched.KernelSystem
import OsdiKernel.Sched.ScheduleMemory
import OsdiKernel.Trap.Syscall
import OsdiKernel.Wait.Wait

/-!
# Threads that were just made

What `copy_process` lays out in a page is a thread that was never on the core: a
`cpu_context` at the bottom and a frame at the top. The first switch to it finds
the one, and whoever leaves the frame then finds the other. As the page is
fresh, nothing that anybody else relies on was written to.
-/

namespace OsdiKernel

open A64 Cpu

/-- The program in a frame of EL0. -/
def ctxAt (mem : Nat → UInt8) (base : Nat) : Ctx where
  x := fun r => load mem (base + 8 * r)
  sp := BitVec.ofNat 64 (base + sFrameSize)
  spEl0 := load mem (base + 8 * 31)
  pc := load mem (base + 8 * 32)
  pstate := load mem (base + 8 * 33)

/-- The registers in a context; `x30` is its `pc`. -/
def contextAt (mem : Nat → UInt8) (p : Nat) (r : Fin 31) : BitVec 64 :=
  if r = 30 then load mem (p + 8 * contextPcWord) else load mem (p + 8 * (r - 19))

/-- What a new task's page is. -/
def newThread (mem : Nat → UInt8) (p : Nat) : Thread where
  low := p + taskStructSize
  top := p + pageSize
  saved := [⟨0, taskPtRegs p, ctxAt mem (taskPtRegs p)⟩]
  x := contextAt mem p
  sp := load mem (p + 8 * contextSpWord)

variable {mem mem' : Nat → UInt8} {p q a b base : Nat}

@[simp] theorem ctxAt_x (mem : Nat → UInt8) (base : Nat) (r : Fin 31) : (ctxAt mem base).x r = load mem (base + 8 * r) := rfl

@[simp] theorem ctxAt_spEl0 (mem : Nat → UInt8) (base : Nat) : (ctxAt mem base).spEl0 = load mem (base + 8 * 31) := rfl

@[simp] theorem ctxAt_pc (mem : Nat → UInt8) (base : Nat) : (ctxAt mem base).pc = load mem (base + 8 * 32) := rfl

@[simp] theorem ctxAt_pstate (mem : Nat → UInt8) (base : Nat) : (ctxAt mem base).pstate = load mem (base + 8 * 33) := rfl

theorem load_word (mem : Nat → UInt8) (p i : Nat) : load mem (p + 8 * i) = BitVec.ofNat 64 (word mem p i) := rfl

theorem word_of_load {j : Nat} (h : load mem' (a + 8 * j) = load mem (a + 8 * j)) : word mem' a j = word mem a j := by
  have hnat := congrArg BitVec.toNat h
  rwa [load_word, load_word, BitVec.toNat_ofNat, BitVec.toNat_ofNat, Nat.mod_eq_of_lt (word_lt ..),
    Nat.mod_eq_of_lt (word_lt ..)] at hnat

/-- A frame at the top of a page ends where the page does. -/
theorem taskPtRegs_top (p : Nat) : taskPtRegs p + sFrameSize = p + pageSize := by
  unfold taskPtRegs sFrameSize pageSize
  omega

theorem ofNat_mod (n : Nat) : BitVec.ofNat 64 (n % 2 ^ 64) = BitVec.ofNat 64 n :=
  BitVec.eq_of_toNat_eq (by rw [BitVec.toNat_ofNat, BitVec.toNat_ofNat, Nat.mod_mod])

theorem newThread_pc : (newThread mem p).x 30 = BitVec.ofNat 64 (word mem p contextPcWord) := by
  show contextAt mem p 30 = _
  rw [contextAt, if_pos rfl, load_word]

theorem newThread_x19 : (newThread mem p).x 19 = BitVec.ofNat 64 (word mem p x19Word) := by
  show contextAt mem p 19 = _
  rw [contextAt, if_neg (by decide), load_word]
  rfl

theorem newThread_x20 : (newThread mem p).x 20 = BitVec.ofNat 64 (word mem p x20Word) := by
  show contextAt mem p 20 = _
  rw [contextAt, if_neg (by decide), load_word]
  rfl

theorem newThread_sp : (newThread mem p).sp = BitVec.ofNat 64 (word mem p contextSpWord) := by
  show load mem (p + 8 * contextSpWord) = _
  rw [load_word]

theorem wordsAt_ctxAt (mem : Nat → UInt8) (base : Nat) : WordsAt mem base (frameWords 0 (ctxAt mem base)) := by
  intro i w hi
  have hlt : i < 34 := by
    have h := (List.getElem?_eq_some_iff.mp hi).1
    rwa [frameWords_length] at h
  rw [frameWords] at hi
  by_cases h31 : i < 31
  · rw [List.getElem?_append_left (by simpa using h31), List.getElem?_map, List.getElem?_eq_getElem (by simpa using h31)] at hi
    obtain rfl := Option.some.inj hi
    simp [ctxAt]
  · rw [List.getElem?_append_right (by simpa using h31)] at hi
    obtain rfl | rfl | rfl : i = 31 ∨ i = 32 ∨ i = 33 := by omega
    all_goals
      obtain rfl := Option.some.inj hi
      rfl

theorem wordsAt_contextAt (mem : Nat → UInt8) (p : Nat) :
    WordsAt mem p (contextWords (contextAt mem p) (load mem (p + 8 * contextSpWord))) := by
  intro i w hi
  have hlt : i < 13 := (List.getElem?_eq_some_iff.mp hi).1
  interval_cases i
  all_goals
    obtain rfl := Option.some.inj hi
    rfl

/-- Every word of a page that is read here is in it. -/
theorem newThread_laid (hp : p + pageSize < 2 ^ 64) (hsp : word mem p contextSpWord = taskPtRegs p) :
    Laid p (newThread mem p) mem where
  placed := by
    refine ⟨?_, hp, Or.inl ?_, ?_, ?_, ?_⟩
    · unfold cpuContextSize
      unfold pageSize at hp
      omega
    · show p + cpuContextSize ≤ p + taskStructSize
      unfold cpuContextSize taskStructSize
      omega
    · show p + taskStructSize ≤ taskPtRegs p
      unfold taskStructSize taskPtRegs
      omega
    · exact (taskPtRegs_top p).le
    · show p + taskStructSize ≤ p + pageSize
      unfold taskStructSize pageSize
      omega
  frames := by
    intro f hf
    obtain rfl := List.mem_singleton.mp hf
    exact wordsAt_ctxAt mem _
  context := wordsAt_contextAt mem p
  sp := by
    have heq : (newThread mem p).sp.toNat = taskPtRegs p := by
      show (load mem (p + 8 * contextSpWord)).toNat = _
      rw [load_word, hsp, BitVec.toNat_ofNat, Nat.mod_eq_of_lt]
      unfold taskPtRegs
      unfold pageSize at hp
      omega
    refine ⟨?_, heq.le⟩
    rw [heq]
    show p + taskStructSize ≤ taskPtRegs p
    unfold taskStructSize taskPtRegs
    omega

/-! ## The threads and the tasks -/

/-- The threads are the tasks in the table, each of them in its page. `init_task` has the stack the kernel began on. -/
structure Hosts (im : Linked) (r : RawKernel) (m : Cpu (Nat → UInt8)) : Prop where
  mem : m.core.mem = r.mem
  current : m.current = im.addr r.current
  task : ∀ q u, m.thread q = some u → ∃ i v, i < taskSlots ∧ r.task i = some v ∧ q = im.addr v ∧
    (v = .initTask → u.top ≤ lowMemory) ∧ ∀ b, v = .page b → b ≤ u.low ∧ u.top ≤ b + pageSize

variable {im : Linked} {r : RawKernel} {m m' : Cpu (Nat → UInt8)} {k : Kernel} {u : Thread}

/-- Memory that is as it was below the frames and in every task's page. -/
structure KeepsTasks (im : Linked) (r : RawKernel) (mem : Nat → UInt8) : Prop where
  below : ∀ x, x < lowMemory → mem x = r.mem x
  task : ∀ i v, i < taskSlots → r.task i = some v → ∀ x, Within (im.addr v) pageSize x → mem x = r.mem x

theorem load_kept (h : ∀ x, Within a 8 x → mem' x = mem x) : load mem' a = load mem a :=
  congrArg (BitVec.ofNat 64) (load64_congr h)

/-- Nobody's words are elsewhere. -/
theorem Hosts.spares (hh : Hosts im r m) (hinv : CpuInv m) (hk : KeepsTasks im r mem) : m.Spares mem := by
  intro a ha
  rw [hh.mem]
  rcases ha with ⟨q, u, f, i, hu, hf, hi, rfl⟩ | ⟨q, u, i, _, hu, hi, rfl⟩
  · obtain ⟨j, v, hj, hv, _, hinit, hpage⟩ := hh.task q u hu
    have hstacked := (hinv.placed q u hu).stacked
    have hmem := hstacked.mem hf
    have hlow := hstacked.le_floor
    unfold sFrameSize at hmem
    refine load_kept (fun x hx => ?_)
    obtain ⟨hx1, hx2⟩ := hx
    cases v with
    | initTask =>
        have htop := hinit rfl
        exact hk.below x (by omega)
    | page b =>
        obtain ⟨hb1, hb2⟩ := hpage b rfl
        exact hk.task j _ hj hv x ⟨show b ≤ x by omega, show x < b + pageSize by omega⟩
  · obtain ⟨j, v, hj, hv, rfl, _, _⟩ := hh.task q u hu
    refine load_kept (fun x hx => hk.task j v hj hv x ?_)
    obtain ⟨hx1, hx2⟩ := hx
    exact ⟨by omega, by unfold pageSize; omega⟩

/-- A page that is nobody's. -/
structure FreshPage (im : Linked) (r : RawKernel) (p : Nat) : Prop where
  above : lowMemory ≤ p
  fits : p + pageSize < 2 ^ 64
  apart : ∀ i v, i < taskSlots → r.task i = some v → PagesApart (im.addr v) p

theorem Hosts.none (hh : Hosts im r m) (hp : FreshPage im r p) : m.thread p = none := by
  cases hu : m.thread p with
  | none => rfl
  | some u =>
      obtain ⟨i, v, hi, hv, rfl, _⟩ := hh.task p u hu
      have hapart := hp.apart i v hi hv
      unfold PagesApart pageSize at hapart
      omega

theorem Hosts.apart (hh : Hosts im r m) (hp : FreshPage im r p) (hu : m.thread q = some u) :
    ThreadsApart p (newThread mem p) q u := by
  obtain ⟨i, v, hi, hv, rfl, hinit, hpage⟩ := hh.task q u hu
  have hapart := hp.apart i v hi hv
  have habove := hp.above
  -- where the other thread's stack is
  have hstack : u.top ≤ p ∨ p + pageSize ≤ u.low := by
    cases v with
    | initTask =>
        have htop := hinit rfl
        omega
    | page b =>
        obtain ⟨hb1, hb2⟩ := hpage b rfl
        rcases hapart with h | h
        · exact Or.inl (Nat.le_trans hb2 h)
        · exact Or.inr (Nat.le_trans h hb1)
  have hlow : (newThread mem p).low = p + taskStructSize := rfl
  have htop : (newThread mem p).top = p + pageSize := rfl
  unfold PagesApart at hapart
  unfold taskStructSize at hlow
  unfold pageSize at *
  have hc : cpuContextSize = 104 := rfl
  exact ⟨by omega, by omega, by omega, by omega⟩

/-- **A new task is a new thread.** -/
theorem Hosts.can_create (hh : Hosts im r m) (hinv : CpuInv m) (hp : FreshPage im r p) (hk : KeepsTasks im r mem)
    (hsp : word mem p contextSpWord = taskPtRegs p) : m.Legal (.create p (newThread mem p) mem) :=
  ⟨hh.none hp, fun _ _ hu => hh.apart hp hu, newThread_laid hp.fits hsp, hh.spares hinv hk⟩

end OsdiKernel
