import OsdiKernel.Sched.TaskMemory
import OsdiKernel.Sched.TaskSystem

/-!
# The child that `sys_fork` makes

Word by word. The pages involved are the parent's two and the child's two, and
the allocator keeps all four apart: so nothing that is written to the child can
be read as the parent's, and the only word of the parent that changes on the way
is its `preempt_count`, which comes back.
-/

namespace OsdiKernel

variable {im : Linked} {mem mem' : Nat → UInt8} {cur p s t i j n w x cloneFlags fn arg stack pid : Nat}

/-! ## `copy_process` -/

theorem memzero_words (n : Nat) (hn : 0 < n) : memzero mem p (8 * n) = memzeroTurns mem p n := by
  rw [memzero, show max 1 ((8 * n + 7) / 8) = n by omega]

theorem memcpy_words (n : Nat) (hn : 0 < n) : memcpy mem p s (8 * n) = memcpyTurns mem p s n := by
  rw [memcpy, show max 1 ((8 * n + 7) / 8) = n by omega]

/-- Memory once the frame is zeroed, the context is zeroed, and the frame is copied. -/
def frameCopied (mem : Nat → UInt8) (cur p : Nat) : Nat → UInt8 :=
  memcpy (memzero (memzero mem (taskPtRegs p) (8 * ptRegsWords)) p (8 * cpuContextWords)) (taskPtRegs p) (taskPtRegs cur)
    (8 * ptRegsWords)

theorem copiesSafely_frames (h : PagesApart cur p) : CopiesSafely (taskPtRegs p) (taskPtRegs cur) ptRegsWords := by
  unfold CopiesSafely taskPtRegs ptRegsWords
  unfold PagesApart pageSize at h
  omega

theorem frameCopied_eq : frameCopied mem cur p =
    memcpyTurns (memzeroTurns (memzeroTurns mem (taskPtRegs p) ptRegsWords) p cpuContextWords) (taskPtRegs p)
      (taskPtRegs cur) ptRegsWords := by
  rw [frameCopied, memzero_words _ (by decide), memzero_words _ (by decide), memcpy_words _ (by decide)]

/-- Zeroing stays in the page. -/
theorem zeroed_byte (hx : ¬ Within p pageSize x) :
    memzeroTurns (memzeroTurns mem (taskPtRegs p) ptRegsWords) p cpuContextWords x = mem x := by
  unfold Within pageSize at hx
  rw [memzeroTurns_byte, if_neg, memzeroTurns_byte, if_neg]
  · unfold Within taskPtRegs ptRegsWords
    omega
  · unfold Within cpuContextWords
    omega

theorem frameCopied_frame (h : PagesApart cur p) (hi : i < ptRegsWords) :
    word (frameCopied mem cur p) p (478 + i) = word mem cur (478 + i) := by
  rw [frameCopied_eq, ← word_taskPtRegs, word, memcpyTurns_word (copiesSafely_frames h) hi, taskPtRegs_word]
  refine load64_congr (fun x hx => zeroed_byte fun hp => ?_)
  unfold PagesApart pageSize at h
  unfold Within pageSize at *
  unfold ptRegsWords at hi
  omega

theorem frameCopied_context (h : PagesApart cur p) (hi : i < cpuContextWords) : word (frameCopied mem cur p) p i = 0 := by
  have hword : word (frameCopied mem cur p) p i
      = word (memzeroTurns (memzeroTurns mem (taskPtRegs p) ptRegsWords) p cpuContextWords) p i := by
    rw [frameCopied_eq]
    refine memcpyTurns_word_ne (copiesSafely_frames h) (Or.inl ?_)
    unfold cpuContextWords at hi
    unfold taskPtRegs
    omega
  rw [hword, word_memzeroTurns hi]

theorem frameCopied_byte (h : PagesApart cur p) (hx : ¬ Within p pageSize x) : frameCopied mem cur p x = mem x := by
  rw [frameCopied_eq, memcpyTurns_byte _ _ _ _ (copiesSafely_frames h), if_neg, zeroed_byte hx]
  unfold Within pageSize at hx
  unfold Within taskPtRegs ptRegsWords
  omega

/-- What is in the page of a process that was copied. -/
structure CopiedWords (im : Linked) (mem mem' : Nat → UInt8) (cur p cloneFlags stack : Nat) : Prop where
  frame : ∀ i < ptRegsWords, word mem' p (478 + i) =
    if i = 0 then 0 else if i = spWord then (stack + pageSize) % 2 ^ 64 else word mem cur (478 + i)
  x19 : word mem' p x19Word = 0
  contextSp : word mem' p contextSpWord = taskPtRegs p % 2 ^ 64
  contextPc : word mem' p contextPcWord = im.retFromFork
  state : word mem' p stateWord = TaskState.running.code
  counter : word mem' p counterWord = word mem cur priorityWord
  priority : word mem' p priorityWord = word mem cur priorityWord
  preemptCount : word mem' p preemptCountWord = 1
  stack : word mem' p stackWord = stack % 2 ^ 64
  flags : word mem' p flagsWord = cloneFlags % 2 ^ 64

theorem copyTaskMem_user (hu : cloneFlags &&& pfKthread = 0) (h : PagesApart cur p) :
    CopiedWords im mem (copyTaskMem im mem cur p cloneFlags fn arg stack) cur p cloneFlags stack := by
  have hno : ¬ cloneFlags &&& pfKthread ≠ 0 := not_not.mpr hu
  simp only [copyTaskMem, if_neg hno, setWord_taskPtRegs]
  rw [← frameCopied]
  have hprio : word (frameCopied mem cur p) cur priorityWord = word mem cur priorityWord := by
    refine load64_congr (fun x hx => frameCopied_byte h fun hp => ?_)
    unfold PagesApart pageSize at h
    unfold Within pageSize priorityWord at *
    omega
  have hmod : word mem cur priorityWord % 2 ^ 64 = word mem cur priorityWord := Nat.mod_eq_of_lt (word_lt ..)
  refine ⟨?_, ?_, ?_, ?_, ?_, ?_, ?_, ?_, ?_, ?_⟩
  · -- the fields of the task lie below the frame
    intro i hi
    have hfield : ∀ {m : Nat → UInt8} {j w : Nat}, j < 478 → word (setWord m p j w) p (478 + i) = word m p (478 + i) :=
      fun hj => setWord_ne (by omega)
    simp (disch := decide) only [hfield]
    by_cases h31 : i = spWord
    · rw [h31, setWord_self, if_neg (by decide), if_pos rfl]
    · rw [setWord_ne (by omega)]
      by_cases h0 : i = 0
      · rw [h0, setWord_self, if_pos rfl, Nat.zero_mod]
      · rw [setWord_ne (by omega), if_neg h0, if_neg h31, frameCopied_frame h hi]
  · -- `x19` is one of the words `memzero` cleared, and not written again
    simp (disch := decide) only [setWord_ne]
    exact frameCopied_context h (by decide)
  · exact setWord_self
  · rw [setWord_ne (by decide), setWord_self, Nat.mod_eq_of_lt im.label]
  · simp (disch := decide) only [setWord_ne, setWord_self]
    rfl
  · simp (disch := decide) only [setWord_ne, setWord_self, setWord_apart h, hprio, hmod]
  · simp (disch := decide) only [setWord_ne, setWord_self, setWord_apart h, hprio, hmod]
  · simp (disch := decide) only [setWord_ne, setWord_self]
    rfl
  · simp (disch := decide) only [setWord_ne, setWord_self]
  · simp (disch := decide) only [setWord_ne, setWord_self]

theorem copyTaskMem_byte (hu : cloneFlags &&& pfKthread = 0) (h : PagesApart cur p) (hx : ¬ Within p pageSize x) :
    copyTaskMem im mem cur p cloneFlags fn arg stack x = mem x := by
  have hno : ¬ cloneFlags &&& pfKthread ≠ 0 := not_not.mpr hu
  have hbyte : ∀ {m : Nat → UInt8} {j w : Nat}, j < 512 → setWord m p j w x = m x := fun hj => setWord_byte hj hx
  simp only [copyTaskMem, if_neg hno, setWord_taskPtRegs]
  rw [← frameCopied]
  simp (disch := decide) only [hbyte]
  exact frameCopied_byte h hx

/-! ## `sys_fork` -/

/-- Memory when `copy_process` returns to `sys_fork`. -/
def copiedMem (im : Linked) (mem : Nat → UInt8) (cur p s pid : Nat) : Nat → UInt8 :=
  enableMem (setWord (copyTaskMem im (disableMem (disableMem mem cur) cur) cur p 0 0 0 s) p pidWord pid) cur

/-- What `sys_fork` does to memory, with `cur` current, the child on page `p` and its stack on page `s`. -/
def forkMem (im : Linked) (mem : Nat → UInt8) (cur p s pid : Nat) : Nat → UInt8 :=
  let mem := copiedMem im mem cur p s pid
  let mem := memcpy mem (word mem p stackWord) (word mem cur stackWord) pageSize
  let offset := toInt ((word mem (taskPtRegs cur) spWord : Int) - word mem cur stackWord)
  enableMem (setWord mem (taskPtRegs p) spWord (toUnsignedLong (word mem p stackWord + offset))) cur

/-- The parent's task and stack, and the child's, are on four pages. -/
structure FourPages (cur t p s : Nat) : Prop where
  own : PagesApart cur t
  page : PagesApart cur p
  stack : PagesApart cur s
  pageStack : PagesApart t p
  copy : PagesApart t s
  child : PagesApart p s

theorem disableMem_byte (hx : ¬ Within (cur + 8 * preemptCountWord) 8 x) : disableMem mem cur x = mem x := store64_ne hx

theorem enableMem_byte (hx : ¬ Within (cur + 8 * preemptCountWord) 8 x) : enableMem mem cur x = mem x := store64_ne hx

theorem disableMem_word (h : i ≠ preemptCountWord) : word (disableMem mem cur) cur i = word mem cur i := setWord_ne h

theorem enableMem_word (h : i ≠ preemptCountWord) : word (enableMem mem cur) cur i = word mem cur i := setWord_ne h

theorem word_byte_page (hi : i < 512) (hx : Within (p + 8 * i) 8 x) : Within p pageSize x := by
  unfold Within pageSize at *
  omega

theorem copiedMem_user (h : PagesApart cur p) : CopiedWords im mem (copiedMem im mem cur p s pid) cur p 0 s := by
  have hcopy := @copyTaskMem_user im (disableMem (disableMem mem cur) cur) cur p 0 0 0 s rfl h
  have hcur : ∀ i, i ≠ preemptCountWord → word (disableMem (disableMem mem cur) cur) cur i = word mem cur i :=
    fun i hi => (disableMem_word hi).trans (disableMem_word hi)
  have hpage : ∀ i, i < 512 → i ≠ pidWord → word (copiedMem im mem cur p s pid) p i
      = word (copyTaskMem im (disableMem (disableMem mem cur) cur) cur p 0 0 0 s) p i :=
    fun i hi hne => (setWord_apart h.symm hi (by decide)).trans (setWord_ne hne)
  have hprio := hcur priorityWord (by decide)
  refine ⟨fun i hi => ?_, ?_, ?_, ?_, ?_, ?_, ?_, ?_, ?_, ?_⟩
  · unfold ptRegsWords at hi
    rw [hpage _ (by omega) (by unfold pidWord; omega), hcopy.frame i hi, hcur _ (by unfold preemptCountWord; omega)]
  · rw [hpage _ (by decide) (by decide), hcopy.x19]
  · rw [hpage _ (by decide) (by decide), hcopy.contextSp]
  · rw [hpage _ (by decide) (by decide), hcopy.contextPc]
  · rw [hpage _ (by decide) (by decide), hcopy.state]
  · rw [hpage _ (by decide) (by decide), hcopy.counter, hprio]
  · rw [hpage _ (by decide) (by decide), hcopy.priority, hprio]
  · rw [hpage _ (by decide) (by decide), hcopy.preemptCount]
  · rw [hpage _ (by decide) (by decide), hcopy.stack]
  · rw [hpage _ (by decide) (by decide), hcopy.flags]

theorem copiedMem_pid (h : PagesApart cur p) : word (copiedMem im mem cur p s pid) p pidWord = pid % 2 ^ 64 :=
  (setWord_apart h.symm (by decide) (by decide)).trans setWord_self

/-- Elsewhere, only the parent's `preempt_count` has changed, -/
theorem copiedMem_byte (h : PagesApart cur p) (hp : ¬ Within p pageSize x)
    (hx : ¬ Within (cur + 8 * preemptCountWord) 8 x) : copiedMem im mem cur p s pid x = mem x := by
  rw [copiedMem, enableMem_byte hx, setWord_byte (by decide) hp, copyTaskMem_byte rfl h hp, disableMem_byte hx,
    disableMem_byte hx]

/-- and is one up. -/
theorem copiedMem_preempt (h : PagesApart cur p) : word (copiedMem im mem cur p s pid) cur preemptCountWord
    = (word mem cur preemptCountWord + 1) % 2 ^ 64 := by
  -- `sys_fork` and `copy_process` have both raised it when the task is copied, and one has lowered it at the end
  have hcopy : word (copyTaskMem im (disableMem (disableMem mem cur) cur) cur p 0 0 0 s) cur preemptCountWord
      = ((word mem cur preemptCountWord + 1) % 2 ^ 64 + 1) % 2 ^ 64 := by
    rw [word_congr (fun x hx => copyTaskMem_byte rfl h (h.not_within hx)) (by decide), disableMem, setWord_self,
      disableMem, setWord_self]
  rw [copiedMem, enableMem, setWord_self, setWord_apart h (by decide) (by decide), hcopy]
  omega

theorem copiedMem_word (h : PagesApart cur p) (hi : i < 512) (hne : i ≠ preemptCountWord) :
    word (copiedMem im mem cur p s pid) cur i = word mem cur i := by
  rw [copiedMem, enableMem_word hne, setWord_apart h hi (by decide),
    word_congr (fun x hx => copyTaskMem_byte rfl h (h.not_within hx)) hi, disableMem_word hne, disableMem_word hne]

/-- What is left of both pages when `sys_fork` returns. -/
structure ForkedWords (im : Linked) (mem mem' : Nat → UInt8) (cur t p s pid : Nat) : Prop where
  frame : ∀ i < ptRegsWords, word mem' p (478 + i) =
    if i = 0 then 0 else if i = spWord then s + (word mem cur (478 + spWord) - t) else word mem cur (478 + i)
  x19 : word mem' p x19Word = 0
  contextSp : word mem' p contextSpWord = taskPtRegs p
  contextPc : word mem' p contextPcWord = im.retFromFork
  state : word mem' p stateWord = TaskState.running.code
  counter : word mem' p counterWord = word mem cur priorityWord
  priority : word mem' p priorityWord = word mem cur priorityWord
  preemptCount : word mem' p preemptCountWord = 1
  stack : word mem' p stackWord = s
  flags : word mem' p flagsWord = 0
  pid : word mem' p pidWord = pid
  stackPage : ∀ j < pageSize, mem' (s + j) = mem (t + j)
  outside : ∀ x, ¬ Within p pageSize x → ¬ Within s pageSize x → mem' x = mem x

/-- With the stack copied, -/
theorem stackCopied_byte (h : PagesApart t s) :
    memcpy mem s t pageSize x = if Within s pageSize x then mem (t + (x - s)) else mem x := by
  have hsafe : CopiesSafely s t 512 := by
    unfold CopiesSafely
    unfold PagesApart pageSize at h
    omega
  have hsize : pageSize = 8 * 512 := rfl
  rw [hsize, memcpy_words _ (by decide), memcpyTurns_byte _ _ _ _ hsafe]

/-- the pages of the tasks are as they were. -/
theorem stackCopied_word (h : PagesApart t s) {q : Nat} (hq : PagesApart q s) (hi : i < 512) :
    word (memcpy mem s t pageSize) q i = word mem q i :=
  word_congr (fun x hx => by rw [stackCopied_byte h, if_neg (hq.not_within hx)]) hi

/-- The child's `sp` is as far into its stack as the parent's. -/
theorem forkMem_eq (h : FourPages cur t p s) (ht : word mem cur stackWord = t) (hs : s + pageSize < 2 ^ 64)
    (hlo : t ≤ word mem cur (478 + spWord)) (hhi : word mem cur (478 + spWord) ≤ t + pageSize) :
    forkMem im mem cur p s pid = enableMem (setWord (memcpy (copiedMem im mem cur p s pid) s t pageSize) p (478 + spWord)
      (s + (word mem cur (478 + spWord) - t))) cur := by
  have hcopy := @copiedMem_user im mem cur p s pid h.page
  have hstack : word (copiedMem im mem cur p s pid) p stackWord = s := by
    rw [hcopy.stack]
    exact Nat.mod_eq_of_lt (by unfold pageSize at hs; omega)
  have hcurStack : word (copiedMem im mem cur p s pid) cur stackWord = t :=
    (copiedMem_word h.page (by decide) (by decide)).trans ht
  have hsp : word (copiedMem im mem cur p s pid) cur (478 + spWord) = word mem cur (478 + spWord) :=
    copiedMem_word h.page (by decide) (by decide)
  have hoff : toInt ((word mem cur (478 + spWord) : Int) - t) = (word mem cur (478 + spWord) : Int) - t := by
    unfold pageSize at hhi
    exact toInt_of_range (by omega) (by omega)
  have hsum : (s : Int) + ((word mem cur (478 + spWord) : Int) - t) = ((s + (word mem cur (478 + spWord) - t) : Nat) : Int) := by
    omega
  simp only [forkMem, hstack, hcurStack, word_taskPtRegs, setWord_taskPtRegs]
  rw [stackCopied_word h.copy h.stack (by decide), stackCopied_word h.copy h.stack (by decide),
    stackCopied_word h.copy h.child (by decide), hstack, hcurStack, hsp, hoff, hsum, toUnsignedLong_of_range (by omega)]

/-- **What `sys_fork` does to memory.** -/
theorem forkMem_words (h : FourPages cur t p s) (ht : word mem cur stackWord = t) (hp : p + pageSize ≤ 2 ^ 64)
    (hs : s + pageSize < 2 ^ 64) (hpid : pid < 2 ^ 64) (hlo : t ≤ word mem cur (478 + spWord))
    (hhi : word mem cur (478 + spWord) ≤ t + pageSize) :
    ForkedWords im mem (forkMem im mem cur p s pid) cur t p s pid := by
  have hcopy := @copiedMem_user im mem cur p s pid h.page
  rw [forkMem_eq h ht hs hlo hhi]
  set m := copiedMem im mem cur p s pid
  set m' := enableMem (setWord (memcpy m s t pageSize) p (478 + spWord) (s + (word mem cur (478 + spWord) - t))) cur
  have hpage : ∀ i, i < 512 → i ≠ 478 + spWord → word m' p i = word m p i := by
    intro i hi hne
    exact (setWord_apart h.page.symm hi (by decide)).trans
      ((setWord_ne hne).trans (stackCopied_word h.copy h.child hi))
  -- the last thing written is the count, which is where it was before
  have hpreempt : word m' cur preemptCountWord = word mem cur preemptCountWord := by
    have hlt := word_lt mem cur preemptCountWord
    have hcounted : word m cur preemptCountWord = (word mem cur preemptCountWord + 1) % 2 ^ 64 := copiedMem_preempt h.page
    have hword : word m' cur preemptCountWord = (word m cur preemptCountWord + (2 ^ 64 - 1)) % 2 ^ 64 := by
      refine setWord_self.trans ?_
      rw [setWord_apart h.page (by decide) (by decide), stackCopied_word h.copy h.stack (by decide)]
    rw [hword, hcounted]
    omega
  refine ⟨fun i hi => ?_, ?_, ?_, ?_, ?_, ?_, ?_, ?_, ?_, ?_, ?_, fun j hj => ?_, fun x hxp hxs => ?_⟩
  · unfold ptRegsWords at hi
    by_cases h31 : i = spWord
    · have hsp : word m' p (478 + spWord) = (s + (word mem cur (478 + spWord) - t)) % 2 ^ 64 :=
        (setWord_apart h.page.symm (by decide) (by decide)).trans setWord_self
      rw [h31, hsp, if_neg (by decide), if_pos rfl]
      exact Nat.mod_eq_of_lt (by omega)
    · rw [hpage _ (by omega) (by omega), hcopy.frame i hi]
      simp only [if_neg h31]
  · rw [hpage _ (by decide) (by decide), hcopy.x19]
  · rw [hpage _ (by decide) (by decide), hcopy.contextSp]
    exact Nat.mod_eq_of_lt (by unfold taskPtRegs; unfold pageSize at hp; omega)
  · rw [hpage _ (by decide) (by decide), hcopy.contextPc]
  · rw [hpage _ (by decide) (by decide), hcopy.state]
  · rw [hpage _ (by decide) (by decide), hcopy.counter]
  · rw [hpage _ (by decide) (by decide), hcopy.priority]
  · rw [hpage _ (by decide) (by decide), hcopy.preemptCount]
  · rw [hpage _ (by decide) (by decide), hcopy.stack]
    exact Nat.mod_eq_of_lt (by unfold pageSize at hs; omega)
  · rw [hpage _ (by decide) (by decide), hcopy.flags, Nat.zero_mod]
  · exact (hpage _ (by decide) (by decide)).trans ((copiedMem_pid h.page).trans (Nat.mod_eq_of_lt hpid))
  · -- the parent's stack holds neither the child's page nor the parent's own
    have hin : Within s pageSize (s + j) := ⟨by omega, by omega⟩
    have hfrom : Within t pageSize (t + j) := ⟨by omega, by omega⟩
    have hcur : ∀ {q y}, PagesApart q cur → Within q pageSize y → ¬ Within (cur + 8 * preemptCountWord) 8 y :=
      fun hq hy hw => hq.not_within hy (word_byte_page (by decide) hw)
    have hsub : s + j - s = j := Nat.add_sub_cancel_left ..
    have hend : m' (s + j) = memcpy m s t pageSize (s + j) :=
      (enableMem_byte (hcur h.stack.symm hin)).trans (setWord_byte (by decide) (h.child.symm.not_within hin))
    rw [hend, stackCopied_byte h.copy, if_pos hin, hsub]
    exact copiedMem_byte h.page (h.pageStack.not_within hfrom) (hcur h.own.symm hfrom)
  · by_cases hx : Within (cur + 8 * preemptCountWord) 8 x
    · exact byte_of_word hpreempt hx
    · have hend : m' x = memcpy m s t pageSize x := (enableMem_byte hx).trans (setWord_byte (by decide) hxp)
      rw [hend, stackCopied_byte h.copy, if_neg hxs]
      exact copiedMem_byte h.page hxp hx

/-! ## The pages -/

variable {k k' : Kernel} {r r' : RawKernel} {c c' : Link → List Nat} {live : List Live} {mm mm₁ mm₂ : Mm} {a b : Nat}
  {q : TaskPtr}

/-- **The call**, with two pages and a slot. -/
theorem sysForkMem_eq (hstack : kmalloc r.mm pageSize = .ok (some s, mm₁))
    (hpage : kmalloc mm₁ pageSize = .ok (some a, mm₂)) (hslot : firstFree r.task = some i) :
    sysForkMem im r = .ok ((i : Int), {
      mm := mm₂
      mem := forkMem im r.mem (im.addr r.current) a s i
      task := Function.update r.task i (some (.page a))
      current := r.current
      nrTasks := r.nrTasks + 1 }) := by
  have hi : i < taskSlots := List.mem_range.mp (List.mem_of_find?_eq_some hslot)
  have hrange : (0 : Int) ≤ (i : Int) ∧ (i : Int) < taskSlots := by omega
  simp only [sysForkMem, copyProcessMem, hstack, hpage, ok_bind, Option.getD_some, hslot, if_pos hrange, Int.toNat_natCast,
    Function.update_self]
  rfl

theorem image_apart (im : Linked) (h : MmInv ⟨mm, live⟩ c) (ha : pageAt a ∈ live) : PagesApart im.initTask a := by
  obtain ⟨f, _, hfa, _⟩ := h.slab.pageAllocated ha
  have hbelow := im.below
  refine Or.inl ?_
  rw [hfa]
  unfold frameAddr
  omega

/-- Whatever pages two uses have, they are not one page. -/
theorem UseInv.addr_apart (h : UseInv k c live) (im : Linked) {v : TaskPtr} (hq : InTable k q) (hv : InTable k v)
    (hb : pageOf k v .stack = some b) : PagesApart (im.addr q) b := by
  have hlive := h.live v hv .stack b hb
  cases q with
  | initTask => exact image_apart im h.mm hlive
  | page a =>
      refine live_apart h.mm (h.live _ hq .task a rfl) hlive (fun he => ?_)
      subst he
      exact Use.noConfusion (h.once _ v hq hv .task .stack _ rfl hb).2

theorem TookPage.addr_apart (ht : TookPage mm live s mm₁ c') (im : Linked) (h : ∀ b, q = .page b → pageAt b ∈ live) :
    PagesApart (im.addr q) s := by
  cases q with
  | initTask => exact image_apart im ht.inv List.mem_cons_self
  | page a => exact ht.apart (h a rfl)

theorem TookPage.end_lt (ht : TookPage mm live s mm₁ c') : s + pageSize < 2 ^ 64 := by
  obtain ⟨f, hf, hfa, _⟩ := ht.inv.slab.pageAllocated List.mem_cons_self
  rw [hfa]
  unfold frameAddr lowMemory pageSize pageFrameNum at *
  omega

/-! ## `sys_fork` -/

/-- A task's words, but for its registers and its turn. -/
structure TaskWords (mem : Nat → UInt8) (a : Nat) (t : Task) : Prop where
  zombie : word mem a stateWord = TaskState.zombie.code ↔ t.state = .zombie
  priority : word mem a priorityWord = toUnsignedLong t.priority
  stack : word mem a stackWord = t.stack
  flags : word mem a flagsWord = t.flags
  pid : word mem a pidWord = toUnsignedLong t.pid

/-- The table and the allocator of `k`, in memory. Frames, contexts, counters and stacks hold anything. -/
structure InMemory (im : Linked) (r : RawKernel) (k : Kernel) : Prop where
  mm : r.mm = k.mm
  task : r.task = k.task
  current : r.current = k.current
  nrTasks : r.nrTasks = k.nrTasks
  words : ∀ q, InTable k q → TaskWords r.mem (im.addr q) (k.tasks q)

/-- A child like its parent, in slot `pid`, on page `a` and with its stack on page `s`. -/
structure Duplicated (im : Linked) (r r' : RawKernel) (pid a s : Nat) : Prop where
  slot : pid < taskSlots ∧ r.task pid = none
  task : r'.task = Function.update r.task pid (some (.page a))
  current : r'.current = r.current
  nrTasks : r'.nrTasks = r.nrTasks + 1
  child : ForkedWords im r.mem r'.mem (im.addr r.current) (word r.mem (im.addr r.current) stackWord) a s pid
  enters : retFromForkStep (word r'.mem a x19Word) (word r'.mem a x20Word) (word r'.mem a contextSpWord)
    = .userMode (taskPtRegs a)
  /-- Every task that was there is as it was, the parent with its frame and its `preempt_count` too, -/
  tasks : ∀ i q, i < taskSlots → r.task i = some q → ∀ x, Within (im.addr q) pageSize x → r'.mem x = r.mem x
  /-- and so are the stacks. -/
  stacksKept : ∀ i q, i < taskSlots → r.task i = some q → word r.mem (im.addr q) stateWord ≠ TaskState.zombie.code →
    word r.mem (im.addr q) stackWord ≠ 0 →
    ∀ x, Within (word r.mem (im.addr q) stackWord) pageSize x → r'.mem x = r.mem x

theorem TaskWords.congr {t : Task} (h : TaskWords mem a t) (hsame : ∀ x, Within a pageSize x → mem' x = mem x) :
    TaskWords mem' a t := by
  have hword : ∀ j, j < 512 → word mem' a j = word mem a j := fun j hj => word_congr hsame hj
  refine ⟨?_, ?_, ?_, ?_, ?_⟩
  · rw [hword _ (by decide)]
    exact h.zombie
  · rw [hword _ (by decide)]
    exact h.priority
  · rw [hword _ (by decide)]
    exact h.stack
  · rw [hword _ (by decide)]
    exact h.flags
  · rw [hword _ (by decide)]
    exact h.pid

theorem InMemory.userStack (h : InMemory im r k) (hq : InTable k q) (hz : word r.mem (im.addr q) stateWord ≠ TaskState.zombie.code)
    (hs : word r.mem (im.addr q) stackWord ≠ 0) : pageOf k q .stack = some (word r.mem (im.addr q) stackWord) := by
  have hw := h.words q hq
  have hstate : (k.tasks q).state ≠ .zombie := fun he => hz (hw.zombie.mpr he)
  rw [hw.stack] at hs ⊢
  show (k.tasks q).userStack = _
  rw [Task.userStack, if_neg (not_or.mpr ⟨hstate, hs⟩)]

/-- The four pages of a fork. -/
theorem Forked.fourPages (hf : Forked k live i s a mm₁ mm₂ c c') (im : Linked) {c₀ : Link → List Nat} (h : UseInv k c₀ live)
    (hcur : InTable k k.current) (ht : pageOf k k.current .stack = some t) : FourPages (im.addr k.current) t a s where
  own := h.addr_apart im hcur hcur ht
  page := hf.page.addr_apart im (fun b hb => List.mem_cons_of_mem _ (h.live _ hcur .task b (by rw [hb]; rfl)))
  stack := hf.stack.addr_apart im (fun b hb => h.live _ hcur .task b (by rw [hb]; rfl))
  pageStack := hf.page.apart (List.mem_cons_of_mem _ (h.live _ hcur .stack t ht))
  copy := hf.stack.apart (h.live _ hcur .stack t ht)
  child := (hf.page.apart List.mem_cons_self).symm

/-- No page in use is one of the child's. -/
theorem Forked.kept (hf : Forked k live i s a mm₁ mm₂ c c') (hb : pageAt b ∈ live) (hx : Within b pageSize x) :
    ¬ Within a pageSize x ∧ ¬ Within s pageSize x :=
  ⟨(hf.page.apart (List.mem_cons_of_mem _ hb)).not_within hx, (hf.stack.apart hb).not_within hx⟩

theorem Forked.kept_task (hf : Forked k live i s a mm₁ mm₂ c c') (im : Linked) {c₀ : Link → List Nat} (h : UseInv k c₀ live)
    (hq : InTable k q) (hx : Within (im.addr q) pageSize x) : ¬ Within a pageSize x ∧ ¬ Within s pageSize x :=
  ⟨(hf.page.addr_apart im (fun b hb => List.mem_cons_of_mem _ (h.live _ hq .task b (by rw [hb]; rfl)))).not_within hx,
    (hf.stack.addr_apart im (fun b hb => h.live _ hq .task b (by rw [hb]; rfl))).not_within hx⟩

theorem forked_task : (forked k mm i s a).task = (addTask k mm i a (forkTask k.cur s a i)).task := rfl

theorem forked_tasks : (forked k mm i s a).tasks = (addTask k mm i a (forkTask k.cur s a i)).tasks := rfl

/-- **The tasks as records**: they change as the tasks in memory do. -/
theorem Forked.inMemory (hf : Forked k live i s a mm₁ mm₂ c c') {c₀ : Link → List Nat} (h : SlotInv k c₀ live)
    (hm : InMemory im r k) (hcur : InTable k k.current) (hr' : r'.mm = mm₂)
    (htask : r'.task = Function.update r.task i (some (.page a))) (hcurrent : r'.current = r.current)
    (hn : r'.nrTasks = r.nrTasks + 1) (hw : ForkedWords im r.mem r'.mem (im.addr k.current) t a s i) :
    InMemory im r' (forked k mm₂ i s a) where
  mm := hr'
  task := by rw [htask, hm.task]; rfl
  current := hcurrent.trans hm.current
  nrTasks := by rw [hn, hm.nrTasks]; rfl
  words := by
    intro q hq
    obtain ⟨hi64, hnone⟩ := firstFree_some hf.slot
    have hcases : q = .page a ∨ InTable k q := by
      obtain ⟨j, hj, hslot⟩ := hq
      rw [forked_task] at hslot
      exact (addTask_inTable hi64 hnone).mp ⟨j, hj, hslot⟩
    rcases hcases with rfl | hq
    · -- the child
      have hself : (forked k mm₂ i s a).tasks (.page a) = forkTask k.cur s a i := by
        rw [forked_tasks]
        exact addTask_self
      rw [hself]
      refine ⟨?_, ?_, hw.stack, hw.flags, ?_⟩
      · have hrun : word r'.mem (im.addr (.page a)) stateWord = TaskState.running.code := hw.state
        rw [hrun]
        exact ⟨fun he => absurd he (by decide), nofun⟩
      · exact hw.priority.trans (hm.words _ hcur).priority
      · refine hw.pid.trans (toUnsignedLong_of_range ?_).symm
        exact Nat.lt_trans hi64 (by decide)
    · -- anybody else: neither of the two pages is one of theirs
      have hne : q ≠ .page a := by
        rintro rfl
        exact hf.page.fresh (List.mem_cons_of_mem _ (h.live _ hq .task a rfl))
      have hold : (forked k mm₂ i s a).tasks q = k.tasks q := by
        rw [forked_tasks]
        exact addTask_ne hne
      rw [hold]
      refine (hm.words q hq).congr (fun x hx => ?_)
      obtain ⟨ha, hs⟩ := hf.kept_task im h.toUseInv hq hx
      exact hw.outside x ha hs

/--
**`sys_fork`** makes a child like its parent. Whatever the parent's registers
are and its stack holds, the child has them, but for `x0` and for an `sp` that is
as far into its own stack; and nobody else notices.
-/
theorem sysFork_duplicates (hk : TaskReachable k) (hm : InMemory im r k) (hcan : CanFork k)
    (huser : word r.mem (im.addr r.current) stackWord ≠ 0)
    (hlo : word r.mem (im.addr r.current) stackWord ≤ word r.mem (taskPtRegs (im.addr r.current)) spWord)
    (hhi : word r.mem (taskPtRegs (im.addr r.current)) spWord ≤ word r.mem (im.addr r.current) stackWord + pageSize) :
    ∃ (pid a s : Nat) (r' : RawKernel), sysForkMem im r = .ok ((pid : Int), r') ∧ Duplicated im r r' pid a s ∧
      ∃ k', sysFork k = .ok ((pid : Int), k') ∧ InMemory im r' k' := by
  obtain ⟨c, live, hinv⟩ := taskOk_reachable hk
  have hcur : InTable k k.current := hinv.current.1
  obtain ⟨i, s, a, mm₁, c₁, mm₂, c₂, hf⟩ := hinv.slotInv.sysFork hcur hcan
  obtain ⟨hi64, hnone⟩ := firstFree_some hf.slot
  rw [hm.current] at huser hlo hhi
  rw [word_taskPtRegs] at hlo hhi
  have hrunning : word r.mem (im.addr k.current) stateWord ≠ TaskState.zombie.code := by
    rw [Ne, (hm.words _ hcur).zombie, hinv.current.2]
    exact nofun
  have huse := hm.userStack hcur hrunning huser
  have hpages := hf.fourPages im hinv.toUseInv hcur huse
  have hwords : ForkedWords im r.mem (forkMem im r.mem (im.addr k.current) a s i) (im.addr k.current)
      (word r.mem (im.addr k.current) stackWord) a s i :=
    forkMem_words hpages rfl (Nat.le_of_lt hf.page.end_lt) hf.stack.end_lt (Nat.lt_trans hi64 (by decide)) hlo hhi
  have hrun := @sysForkMem_eq im s i r mm₁ mm₂ a (by rw [hm.mm]; exact hf.stack.run) hf.page.run (by rw [hm.task]; exact hf.slot)
  refine ⟨i, a, s, _, hrun, ?_, forked k mm₂ i s a, hf.run, ?_⟩
  · rw [hm.current]
    refine ⟨⟨hi64, by rw [hm.task]; exact hnone⟩, rfl, hm.current.symm, rfl, by rw [hm.current]; exact hwords, ?_, ?_, ?_⟩
    · -- `x19` is 0, so `ret_from_fork` takes the branch to user mode
      rw [hwords.x19, hwords.contextSp]
      rfl
    · intro j q hj hq x hx
      obtain ⟨ha, hs⟩ := hf.kept_task im hinv.toUseInv ⟨j, hj, by rw [← hm.task]; exact hq⟩ hx
      exact hwords.outside x ha hs
    · intro j q hj hq hz hne x hx
      have hin : InTable k q := ⟨j, hj, by rw [← hm.task]; exact hq⟩
      obtain ⟨ha, hs⟩ := hf.kept (hinv.live q hin .stack _ (hm.userStack hin hz hne)) hx
      exact hwords.outside x ha hs
  · refine hf.inMemory (t := word r.mem (im.addr k.current) stackWord) hinv.slotInv hm hcur rfl rfl rfl rfl ?_
    rw [hm.current]
    exact hwords

/-! ## Tasks laid out -/

/-- A task written to its page. -/
def layTask (mem : Nat → UInt8) (a : Nat) (t : Task) : Nat → UInt8 :=
  let mem := setWord mem a stateWord t.state.code
  let mem := setWord mem a priorityWord (toUnsignedLong t.priority)
  let mem := setWord mem a stackWord t.stack
  let mem := setWord mem a flagsWord t.flags
  setWord mem a pidWord (toUnsignedLong t.pid)

theorem layTask_byte {t : Task} (hx : ¬ Within a pageSize x) : layTask mem a t x = mem x := by
  have hbyte : ∀ {m : Nat → UInt8} {j w : Nat}, j < 512 → setWord m a j w x = m x := fun hj => setWord_byte hj hx
  simp (disch := decide) only [layTask, hbyte]

theorem layTask_words {t : Task} (hs : t.stack < 2 ^ 64) (hf : t.flags < 2 ^ 64) : TaskWords (layTask mem a t) a t := by
  have hlong : ∀ z : Int, toUnsignedLong z % 2 ^ 64 = toUnsignedLong z := by
    intro z
    unfold toUnsignedLong
    omega
  refine ⟨?_, ?_, ?_, ?_, ?_⟩
  · simp (disch := decide) only [layTask, setWord_ne, setWord_self]
    cases t.state <;> decide
  · simp (disch := decide) only [layTask, setWord_ne, setWord_self, hlong]
  · simp (disch := decide) only [layTask, setWord_ne, setWord_self]
    exact Nat.mod_eq_of_lt hs
  · simp (disch := decide) only [layTask, setWord_ne, setWord_self]
    exact Nat.mod_eq_of_lt hf
  · simp (disch := decide) only [layTask, setWord_self, hlong]

/-- A kernel whose `init_task` is at `0x90000`. -/
def smallImage : Linked := ⟨0x90000, 0x80800, by decide, by decide⟩

/-- Two tasks in memory, and the second one's `sp`. -/
def firstTwoMem (k : Kernel) : RawKernel where
  mm := k.mm
  mem := setWord (layTask (layTask (fun _ => 0) 0x90000 (k.tasks .initTask)) 0x200000 (k.tasks (.page 0x200000)))
    0x200000 (478 + spWord) 0x201ff0
  task := k.task
  current := k.current
  nrTasks := k.nrTasks

/-- A first process, and `init_task`. -/
structure FirstTwo (k : Kernel) : Prop where
  current : k.current = .page 0x200000
  stack : k.cur.stack = 0x201000
  slots : ∀ i < taskSlots, k.task i = if i = 0 then some .initTask else if i = 1 then some (.page 0x200000) else none
  init : (k.tasks .initTask).stack = 0 ∧ (k.tasks .initTask).flags < 2 ^ 64
  flags : (k.tasks (.page 0x200000)).flags < 2 ^ 64

theorem firstTwo : ∃ k, TaskReachable k ∧ CanFork k ∧ FirstTwo k := by
  have hrun : (taskRun [.copyProcess pfKthread 0 0, .schedule, .moveToUserMode 0]).map (fun k =>
      decide (ready k .sysFork = true ∧ k.current = .page 0x200000 ∧ k.cur.stack = 0x201000 ∧
        (∀ i < taskSlots, k.task i = if i = 0 then some .initTask else if i = 1 then some (.page 0x200000) else none) ∧
        ((k.tasks .initTask).stack = 0 ∧ (k.tasks .initTask).flags < 2 ^ 64) ∧
        (k.tasks (.page 0x200000)).flags < 2 ^ 64)) = some true := by
    decide +kernel
  obtain ⟨k, hk, hres⟩ := Option.map_eq_some_iff.mp hrun
  obtain ⟨hready, hcur, hstack, hslots, hinit, hflags⟩ := of_decide_eq_true hres
  have hreach := taskReachable_of_run hk
  exact ⟨k, hreach, (taskOk_reachable hreach).legal_of_ready .sysFork hready, hcur, hstack, hslots, hinit, hflags⟩

theorem firstTwoMem_inMemory (h : FirstTwo k) : InMemory smallImage (firstTwoMem k) k where
  mm := rfl
  task := rfl
  current := rfl
  nrTasks := rfl
  words := by
    have hflags := h.flags
    have hstack : (k.tasks (.page 0x200000)).stack < 2 ^ 64 := by
      have hs := h.stack
      rw [Kernel.cur, h.current] at hs
      rw [hs]
      decide
    intro q hq
    obtain ⟨i, hi, hq⟩ := hq
    rw [h.slots i hi] at hq
    by_cases h0 : i = 0
    · rw [if_pos h0] at hq
      obtain rfl := Option.some.inj hq
      have hinit : TaskWords (layTask (fun _ => 0) 0x90000 (k.tasks .initTask)) 0x90000 (k.tasks .initTask) :=
        layTask_words (by rw [h.init.1]; decide) h.init.2
      refine hinit.congr (fun x hx => ?_)
      have hfar : ¬ Within 0x200000 pageSize x := by
        unfold Within pageSize at *
        omega
      exact (setWord_byte (by decide) hfar).trans (layTask_byte hfar)
    · rw [if_neg h0] at hq
      by_cases h1 : i = 1
      · rw [if_pos h1] at hq
        obtain rfl := Option.some.inj hq
        have hlaid : TaskWords (layTask (layTask (fun _ => 0) 0x90000 (k.tasks .initTask)) 0x200000
            (k.tasks (.page 0x200000))) 0x200000 (k.tasks (.page 0x200000)) := layTask_words hstack hflags
        have hword : ∀ j, j ≠ 478 + spWord → word (firstTwoMem k).mem 0x200000 j = word (layTask
            (layTask (fun _ => 0) 0x90000 (k.tasks .initTask)) 0x200000 (k.tasks (.page 0x200000))) 0x200000 j :=
          fun j hj => setWord_ne hj
        exact ⟨by rw [Linked.addr, hword _ (by decide)]; exact hlaid.zombie,
          (hword _ (by decide)).trans hlaid.priority, (hword _ (by decide)).trans hlaid.stack,
          (hword _ (by decide)).trans hlaid.flags, (hword _ (by decide)).trans hlaid.pid⟩
      · rw [if_neg h1] at hq
        exact absurd hq (by simp)

/-- The first process forks, with its `sp` sixteen bytes below the top. -/
theorem sysFork_duplicates_first :
    ∃ k, TaskReachable k ∧ ∃ (pid a s : Nat) (r' : RawKernel), sysForkMem smallImage (firstTwoMem k) = .ok ((pid : Int), r') ∧
      Duplicated smallImage (firstTwoMem k) r' pid a s ∧
      ∃ k', sysFork k = .ok ((pid : Int), k') ∧ InMemory smallImage r' k' := by
  obtain ⟨k, hk, hcan, htwo⟩ := firstTwo
  have hm := firstTwoMem_inMemory htwo
  have hcur : smallImage.addr (firstTwoMem k).current = 0x200000 := by
    show smallImage.addr k.current = _
    rw [htwo.current]
    rfl
  have hin : InTable k (.page 0x200000) := ⟨1, by decide, htwo.slots 1 (by decide)⟩
  have hstack : word (firstTwoMem k).mem 0x200000 stackWord = 0x201000 := by
    refine (hm.words _ hin).stack.trans ?_
    have hs := htwo.stack
    rwa [Kernel.cur, htwo.current] at hs
  have hsp : word (firstTwoMem k).mem (taskPtRegs 0x200000) spWord = 0x201ff0 := by
    rw [word_taskPtRegs]
    exact setWord_self
  refine ⟨k, hk, sysFork_duplicates hk hm hcan ?_ ?_ ?_⟩
  · rw [hcur, hstack]
    decide
  · rw [hcur, hstack, hsp]
    decide
  · rw [hcur, hstack, hsp]
    decide

end OsdiKernel
