import OsdiKernel.Trap.NewThread

/-!
# `fork` returns twice

`sys_fork` in memory and the core together. Whenever it is that the scheduler
switches to the child, the child begins in `ret_from_fork` and leaves the kernel
for the place the parent called from, with the parent's registers, a 0 in `x0`,
and its stack pointer as far into its own stack. The parent comes back there with
whatever is stored as the result.
-/

namespace OsdiKernel

open A64 Cpu

variable {M : Type} [WordMemory M] {m m' : Cpu M} {p : Nat} {t : Thread} {f : Saved} {fs : List Saved}

/-- The first switch to `p` finds it about to execute `pc`, with `x19`, `x20` and `sp`. -/
def StartsAt (m : Cpu M) (p : Nat) (pc x19 x20 sp : BitVec 64) : Prop :=
  ∀ es m₁, Run m es m₁ → (∀ e ∈ es, e ≠ .switch p ∧ e ≠ .remove p) → m₁.Legal (.switch p) →
    (m₁.step (.switch p)).core.regs.pc = pc ∧ (m₁.step (.switch p)).core.regs.x 19 = x19 ∧
      (m₁.step (.switch p)).core.regs.x 20 = x20 ∧ (m₁.step (.switch p)).core.regs.sp = sp

/-- Once it has been switched to, `p` leaves its outermost frame as `c`. -/
def LeavesWith (m : Cpu M) (p : Nat) (c : Ctx) : Prop :=
  ∀ es m₁ es' m₂, Run m es m₁ → (∀ e ∈ es, e ≠ .switch p ∧ e ≠ .remove p) → m₁.Legal (.switch p) →
    Run (m₁.step (.switch p)) es' m₂ → depth p p 0 es' = some (p, 0) → m₂.Legal (.resume 0) →
      ctxOf (m₂.step (.resume 0)).core.regs = c

/-- Whatever result is stored, the current thread leaves its frame as `c` with that result. -/
def ReturnsTo (m : Cpu M) (f : Saved) (c : Ctx) : Prop :=
  ∀ es m₁, Run m es m₁ → depth m.current m.current 0 es = some (m.current, 0) → m₁.Legal (.resume 0) →
    m₁.Legal (storeResult m₁ f) ∧
      ctxOf ((m₁.step (storeResult m₁ f)).step (.resume 0)).core.regs = c.setResult (m₁.core.regs.x 0)

/-- **A new thread** starts with its context and leaves with its frame. -/
theorem CpuInv.starts (h : CpuInv m) (haway : m.Away p t) : StartsAt m p (t.x 30) (t.x 19) (t.x 20) t.sp := by
  intro es m₁ hrun hstay hin
  obtain ⟨hsw, _⟩ := h.switchedTo haway hrun hstay hin
  exact ⟨hsw.pc, hsw.callee 19 (by decide), hsw.callee 20 (by decide), hsw.sp⟩

theorem CpuInv.leaves (h : CpuInv m) (haway : m.Away p t) (hsaved : t.saved = f :: fs) :
    LeavesWith m p { f.ctx with sp := BitVec.ofNat 64 (f.base + sFrameSize) } := by
  intro es m₁ es' m₂ hrun hstay hin hrun' hback hret
  obtain ⟨_, hdeep⟩ := h.switchedTo haway hrun hstay hin
  rw [hsaved] at hdeep
  obtain ⟨hdeep', hcur⟩ := hdeep.run hrun' hback
  have hinv := ((h.run hrun).step hin).run hrun'
  have hres := hinv.resumed (hcur.symm ▸ hdeep') hret
  rw [hres]
  rfl

theorem CpuInv.returns (h : CpuInv m) (hd : m.Deep m.current 0 (f :: fs)) :
    ReturnsTo m f { f.ctx with sp := BitVec.ofNat 64 (f.base + sFrameSize) } := by
  intro es m₁ hrun hback hret
  obtain ⟨hdeep, hcur⟩ := hd.run hrun hback
  exact (h.run hrun).result_resumed (hcur.symm ▸ hdeep) hret

/-- **A new task**: its context is where the thread starts, and its frame is what it leaves with. -/
theorem CpuInv.newThread_starts {cpu : Cpu (Nat → UInt8)} {mem : Nat → UInt8} {a : Nat} (h : CpuInv cpu)
    (hlegal : cpu.Legal (.create a (newThread mem a) mem)) :
    StartsAt (cpu.step (.create a (newThread mem a) mem)) a (BitVec.ofNat 64 (word mem a contextPcWord))
        (BitVec.ofNat 64 (word mem a x19Word)) (BitVec.ofNat 64 (word mem a x20Word))
        (BitVec.ofNat 64 (word mem a contextSpWord)) ∧
      LeavesWith (cpu.step (.create a (newThread mem a) mem)) a (ctxAt mem (taskPtRegs a)) := by
  have hne : cpu.current ≠ a := by
    rintro rfl
    obtain ⟨t, ht, _⟩ := h.running
    exact absurd (hlegal.1.symm.trans ht) (by simp)
  have haway : (cpu.step (.create a (newThread mem a) mem)).Away a (newThread mem a) := ⟨hne, Function.update_self ..⟩
  have hstarts := (h.step hlegal).starts haway
  have hleaves := (h.step hlegal).leaves haway (show (newThread mem a).saved = _ :: [] from rfl)
  rw [newThread_pc, newThread_x19, newThread_x20, newThread_sp] at hstarts
  exact ⟨hstarts, hleaves⟩

/-! ## The frame of the caller and the frame of the child -/

variable {mem mem' : Nat → UInt8} {base a n s cur tstack pid : Nat} {c : Ctx} {im : Linked}

/-- What is in a frame is there word by word. -/
theorem ctxAt_of_wordsAt (h : WordsAt mem base (frameWords 0 c)) :
    ctxAt mem base = { c with sp := BitVec.ofNat 64 (base + sFrameSize) } := by
  have hword : ∀ i w, (frameWords 0 c)[i]? = some w → load mem (base + 8 * i) = w := h
  have hx : ∀ r : Fin 31, load mem (base + 8 * r) = c.x r := by
    intro r
    refine hword r _ ?_
    rw [frameWords, List.getElem?_append_left (by simp), List.getElem?_map, List.getElem?_eq_getElem (by simp)]
    simp
  rw [ctxAt, hword 31 c.spEl0 (by simp [frameWords]), hword 32 c.pc (by simp [frameWords]),
    hword 33 c.pstate (by simp [frameWords]), funext hx]

/-- The caller of `fork`, once more. -/
def forkedCtx (c : Ctx) (a s tstack : Nat) : Ctx :=
  { c with
    x := Function.update c.x 0 0
    sp := BitVec.ofNat 64 (a + pageSize)
    spEl0 := BitVec.ofNat 64 (s + (c.spEl0.toNat - tstack)) }

theorem forkedCtx_at (hw : ForkedWords im mem mem' cur tstack a s pid) (hframe : WordsAt mem (taskPtRegs cur) (frameWords 0 c)) :
    ctxAt mem' (taskPtRegs a) = forkedCtx c a s tstack := by
  have hcaller := ctxAt_of_wordsAt hframe
  have hx : ∀ r : Fin 31, load mem (taskPtRegs cur + 8 * r) = c.x r := fun r => by rw [← ctxAt_x, hcaller]
  have hsp : load mem (taskPtRegs cur + 8 * 31) = c.spEl0 := by rw [← ctxAt_spEl0, hcaller]
  have hpc : load mem (taskPtRegs cur + 8 * 32) = c.pc := by rw [← ctxAt_pc, hcaller]
  have hpstate : load mem (taskPtRegs cur + 8 * 33) = c.pstate := by rw [← ctxAt_pstate, hcaller]
  -- a word of the child's frame
  have hchild : ∀ i, i < ptRegsWords → load mem' (taskPtRegs a + 8 * i) = BitVec.ofNat 64
      (if i = 0 then 0 else if i = spWord then s + (word mem cur (478 + spWord) - tstack) else word mem cur (478 + i)) := by
    intro i hi
    rw [load_word, word_taskPtRegs, hw.frame i hi]
  have hsame : ∀ i, i < ptRegsWords → i ≠ 0 → i ≠ spWord →
      load mem' (taskPtRegs a + 8 * i) = load mem (taskPtRegs cur + 8 * i) := by
    intro i hi h0 h31
    rw [hchild i hi, if_neg h0, if_neg h31, load_word, word_taskPtRegs]
  have hspNat : word mem cur (478 + spWord) = c.spEl0.toNat := by
    rw [← hsp, load_word, BitVec.toNat_ofNat, Nat.mod_eq_of_lt (word_lt ..), word_taskPtRegs]
    rfl
  have hxs : (fun r : Fin 31 => load mem' (taskPtRegs a + 8 * r)) = Function.update c.x 0 0 := by
    funext r
    by_cases hr : r = 0
    · subst hr
      rw [Function.update_self]
      exact hchild 0 (by decide)
    · rw [Function.update_of_ne hr, ← hx r]
      exact hsame r (by unfold ptRegsWords; omega) (fun h => hr (Fin.ext h)) (by unfold spWord; omega)
  rw [ctxAt, hxs, hchild 31 (by decide), hsame 32 (by decide) (by decide) (by decide),
    hsame 33 (by decide) (by decide) (by decide), hpc, hpstate, hspNat]
  rw [taskPtRegs_top]
  rfl

/-! ## The call -/

variable {k : Kernel} {r : RawKernel} {cpu : Cpu (Nat → UInt8)} {live : List Live} {mm mm₁ : Mm} {lk : Link → List Nat}

theorem TookPage.above (ht : TookPage mm live s mm₁ lk) : lowMemory ≤ s := by
  obtain ⟨f, _, hfa, _⟩ := ht.inv.slab.pageAllocated List.mem_cons_self
  rw [hfa]
  unfold frameAddr
  omega

/-- A page that was just taken is nobody's. -/
theorem TookPage.freshPage (ht : TookPage mm live s mm₁ lk) {c₀ : Link → List Nat} {live₀ : List Live} (h : UseInv k c₀ live₀)
    (hsub : ∀ b, pageAt b ∈ live₀ → pageAt b ∈ live) (htask : r.task = k.task) : FreshPage im r s where
  above := ht.above
  fits := ht.end_lt
  apart := by
    intro i v hi hv
    rw [htask] at hv
    exact ht.addr_apart im (fun b hb => hsub b (h.live v ⟨i, hi, hv⟩ .task b (by rw [hb]; rfl)))

/-- The frame of the call that the current task made. -/
theorem CpuInv.caller_frame (hcpu : CpuInv cpu) (hhosts : Hosts im r cpu)
    (hcall : cpu.Deep cpu.current 0 [⟨0, taskPtRegs cpu.current, c⟩]) :
    WordsAt r.mem (taskPtRegs (im.addr r.current)) (frameWords 0 c) := by
  obtain ⟨t, ht, _, hsaved⟩ := hcall
  rw [List.drop_zero] at hsaved
  have hfr := hcpu.frames _ _ ht ⟨0, taskPtRegs cpu.current, c⟩ (by rw [hsaved]; exact List.mem_cons_self)
  rw [hhosts.mem] at hfr
  rwa [← hhosts.current]

/-- `sys_fork` made a child on page `a`, in slot `i`, with its stack on page `s`. -/
structure ForkMade (im : Linked) (k : Kernel) (r : RawKernel) (cpu : Cpu (Nat → UInt8)) (live : List Live)
    (i s a : Nat) (mm₁ mm₂ : Mm) (c₁ c₂ : Link → List Nat) : Prop where
  forked : Forked k live i s a mm₁ mm₂ c₁ c₂
  run : sysForkMem im r = .ok ((i : Int), {
    mm := mm₂
    mem := forkMem im r.mem (im.addr k.current) a s i
    task := Function.update r.task i (some (.page a))
    current := r.current
    nrTasks := r.nrTasks + 1 })
  words : ForkedWords im r.mem (forkMem im r.mem (im.addr k.current) a s i) (im.addr k.current)
    (word r.mem (im.addr k.current) stackWord) a s i
  keeps : KeepsTasks im r (forkMem im r.mem (im.addr k.current) a s i)
  legal : cpu.Legal (.create a (newThread (forkMem im r.mem (im.addr k.current) a s i) a)
    (forkMem im r.mem (im.addr k.current) a s i))

theorem fork_made (hinv : TaskInv k lk live) (hm : InMemory im r k) (hcan : CanFork k)
    (huser : word r.mem (im.addr r.current) stackWord ≠ 0)
    (hlo : word r.mem (im.addr r.current) stackWord ≤ c.spEl0.toNat)
    (hhi : c.spEl0.toNat ≤ word r.mem (im.addr r.current) stackWord + pageSize)
    (hcpu : CpuInv cpu) (hhosts : Hosts im r cpu)
    (hcall : cpu.Deep cpu.current 0 [⟨0, taskPtRegs cpu.current, c⟩]) :
    ∃ i s a mm₁ mm₂ c₁ c₂, ForkMade im k r cpu live i s a mm₁ mm₂ c₁ c₂ := by
  have hcur : InTable k k.current := hinv.current.1
  obtain ⟨i, s, a, mm₁, c₁, mm₂, c₂, hf⟩ := hinv.slotInv.sysFork hcur hcan
  obtain ⟨hi64, hnone⟩ := firstFree_some hf.slot
  have hframe := hcpu.caller_frame hhosts hcall
  rw [hm.current] at huser hlo hhi hframe
  have hsp : word r.mem (im.addr k.current) (478 + spWord) = c.spEl0.toNat := by
    have hload : load r.mem (taskPtRegs (im.addr k.current) + 8 * 31) = c.spEl0 := by
      rw [← ctxAt_spEl0, ctxAt_of_wordsAt hframe]
    rw [← hload, load_word, BitVec.toNat_ofNat, Nat.mod_eq_of_lt (word_lt ..), word_taskPtRegs]
    rfl
  -- the four pages, and what is in them afterwards
  have hrunning : word r.mem (im.addr k.current) stateWord ≠ TaskState.zombie.code := by
    rw [Ne, (hm.words _ hcur).zombie, hinv.current.2]
    simp
  have huse := hm.userStack hcur hrunning huser
  have hpages := hf.fourPages im hinv.toUseInv hcur huse
  have hwords : ForkedWords im r.mem (forkMem im r.mem (im.addr k.current) a s i) (im.addr k.current)
      (word r.mem (im.addr k.current) stackWord) a s i :=
    forkMem_words hpages rfl (Nat.le_of_lt hf.page.end_lt) hf.stack.end_lt (Nat.lt_trans hi64 (by decide))
      (by rw [hsp]; exact hlo) (by rw [hsp]; exact hhi)
  have hrun := @sysForkMem_eq im s i r mm₁ mm₂ a (by rw [hm.mm]; exact hf.stack.run) hf.page.run (by rw [hm.task]; exact hf.slot)
  rw [hm.current] at hrun
  -- nobody else's words
  have hfresh : FreshPage im r a := hf.page.freshPage hinv.toUseInv (fun b hb => List.mem_cons_of_mem _ hb) hm.task
  have hkeeps : KeepsTasks im r (forkMem im r.mem (im.addr k.current) a s i) := by
    refine ⟨fun x hx => hwords.outside x ?_ ?_, fun j v hj hv x hx => ?_⟩
    · have habove := hf.page.above
      unfold Within
      omega
    · have habove := hf.stack.above
      unfold Within
      omega
    · obtain ⟨ha, hs⟩ := hf.kept_task im hinv.toUseInv ⟨j, hj, by rw [← hm.task]; exact hv⟩ hx
      exact hwords.outside x ha hs
  have hlegal := hhosts.can_create hcpu hfresh hkeeps hwords.contextSp
  exact ⟨i, s, a, mm₁, mm₂, c₁, c₂, hf, by rw [hm.current]; exact hrun, hwords, hkeeps, hlegal⟩

/--
**`fork`**: the child and the parent both come back from it, the child with a 0
and its own stack, the parent with what is stored as the result.
-/
theorem fork_returns_twice (hk : KernelReachable k) (hm : InMemory im r k) (hcan : CanFork k)
    (huser : word r.mem (im.addr r.current) stackWord ≠ 0)
    (hlo : word r.mem (im.addr r.current) stackWord ≤ c.spEl0.toNat)
    (hhi : c.spEl0.toNat ≤ word r.mem (im.addr r.current) stackWord + pageSize)
    (hreach : Cpu.Reachable cpu) (hhosts : Hosts im r cpu)
    (hcall : cpu.Deep cpu.current 0 [⟨0, taskPtRegs cpu.current, c⟩]) :
    ∃ (pid a s : Nat) (r' : RawKernel), sysForkMem im r = .ok ((pid : Int), r') ∧
      cpu.Legal (.create a (newThread r'.mem a) r'.mem) ∧
      let forked := cpu.step (.create a (newThread r'.mem a) r'.mem)
      StartsAt forked a (BitVec.ofNat 64 im.retFromFork) 0 (BitVec.ofNat 64 (word r'.mem a x20Word))
          (BitVec.ofNat 64 (taskPtRegs a)) ∧
        LeavesWith forked a (forkedCtx c a s (word r.mem (im.addr r.current) stackWord)) ∧
        ReturnsTo forked ⟨0, taskPtRegs cpu.current, c⟩ { c with sp := BitVec.ofNat 64 (cpu.current + pageSize) } := by
  obtain ⟨lk, live, hinv⟩ := (kernelOk_reachable hk).task
  have hcpu := cpuInv_reachable hreach
  obtain ⟨i, s, a, mm₁, mm₂, c₁, c₂, hmade⟩ := fork_made hinv hm hcan huser hlo hhi hcpu hhosts hcall
  have hwords := hmade.words
  have hframe := hcpu.caller_frame hhosts hcall
  refine ⟨i, a, s, _, hmade.run, hmade.legal, ?_⟩
  obtain ⟨hstarts, hleaves⟩ := hcpu.newThread_starts hmade.legal
  rw [hwords.contextPc, hwords.x19, hwords.contextSp] at hstarts
  rw [hm.current] at hframe ⊢
  rw [forkedCtx_at hwords hframe] at hleaves
  refine ⟨hstarts, hleaves, ?_⟩
  -- the parent's frame is where it was
  have hreturns := (hcpu.step hmade.legal).returns (f := ⟨0, taskPtRegs cpu.current, c⟩) (hcall.step hmade.legal rfl)
  rw [← taskPtRegs_top]
  exact hreturns

/-- The first process on the core, at `0x1000`. -/
def firstOnCore (k : Kernel) : Cpu (Nat → UInt8) where
  core := ⟨⟨fun _ => 4, 0x201000, 0x201ff0, 0, 0, 0x56000000, 0x1000, 0⟩, (firstTwoMem k).mem⟩
  current := 0x200000
  thread := fun p => if p = 0x200000 then some ⟨0x200000 + taskStructSize, 0x201000, [], fun _ => 0, 0⟩ else none

theorem firstOnCore_booted (k : Kernel) : Booted (firstOnCore k) where
  thread := ⟨⟨0x200000 + taskStructSize, 0x201000, [], fun _ => 0, 0⟩, rfl,
    ⟨show 0x200000 + cpuContextSize < 2 ^ 64 by decide, show (0x201000 : Nat) < 2 ^ 64 by decide,
      Or.inl (show 0x200000 + cpuContextSize ≤ 0x200000 + taskStructSize by decide),
      show 0x200000 + taskStructSize ≤ 0x201000 by decide⟩, rfl,
    ⟨show 0x200000 + taskStructSize ≤ (0x201000 : BitVec 64).toNat by decide,
      show (0x201000 : BitVec 64).toNat ≤ 0x201000 by decide⟩⟩
  only := fun _ hp => if_neg hp

/-- It calls `fork`. -/
def firstForking (k : Kernel) : Cpu (Nat → UInt8) := (firstOnCore k).step (.interrupt 0 0x400)

theorem firstForking_legal (k : Kernel) : (firstOnCore k).Legal (.interrupt 0 0x400) :=
  ⟨⟨0x200000 + taskStructSize, 0x201000, [], fun _ => 0, 0⟩, rfl,
    show 0x200000 + taskStructSize + sFrameSize ≤ (0x201000 : BitVec 64).toNat by decide⟩

theorem firstForking_sp (k : Kernel) : (firstForking k).core.regs.sp = 0x200ef0 := by
  have hcpu : CpuInv (firstOnCore k) := cpuInv_reachable ⟨_, [], firstOnCore_booted k, .nil _⟩
  exact (hcpu.interrupt_sp (firstForking_legal k)).trans (show (0x201000 : BitVec 64) - BitVec.ofNat 64 sFrameSize = _ by decide)

/-- There is room below it. -/
theorem firstForking_interrupt (k : Kernel) {el : Nat} {vector : BitVec 64} : (firstForking k).Legal (.interrupt el vector) := by
  obtain ⟨f, hf⟩ : ∃ f, (firstForking k).thread (firstForking k).current
      = some ⟨0x200000 + taskStructSize, 0x201000, [f], fun _ => 0, 0⟩ := ⟨_, rfl⟩
  refine ⟨_, hf, ?_⟩
  rw [firstForking_sp]
  exact show 0x200000 + taskStructSize + sFrameSize ≤ (0x200ef0 : BitVec 64).toNat by decide

/-- The frame changes no other word. -/
theorem firstForking_word (k : Kernel) (h : p + 8 * n + 8 ≤ 0x200ef0 ∨ 0x201000 ≤ p + 8 * n) :
    word (firstForking k).core.mem p n = word (firstTwoMem k).mem p n := by
  have hroom : RoomAt (firstOnCore k).core.regs 0x200ef0 := rfl
  refine word_of_load ?_
  show load (enterKernel 0 0x400 (firstOnCore k).core).mem _ = _
  rw [(enterKernel_spec _ _ hroom).1]
  exact load_storeWords_apart (by rw [frameWords_length]; omega)

/-- The tasks, and the process in the kernel. -/
def forkingMem (k : Kernel) : RawKernel := { firstTwoMem k with mem := (firstForking k).core.mem }

/-- The tasks are where they were, beside the frame. -/
theorem forkingMem_inMemory (h : FirstTwo k) : InMemory smallImage (forkingMem k) k := by
  refine ⟨rfl, rfl, rfl, rfl, fun q hq => ?_⟩
  have hw := (firstTwoMem_inMemory h).words q hq
  have hword : ∀ n, n < 20 → word (forkingMem k).mem (smallImage.addr q) n = word (firstTwoMem k).mem (smallImage.addr q) n := by
    intro n hn
    refine firstForking_word k ?_
    obtain ⟨i, hi, hslot⟩ := hq
    rw [h.slots i hi] at hslot
    by_cases h0 : i = 0
    · rw [if_pos h0] at hslot
      obtain rfl := Option.some.inj hslot
      exact Or.inl (show 0x90000 + 8 * n + 8 ≤ 0x200ef0 by omega)
    · rw [if_neg h0] at hslot
      by_cases h1 : i = 1
      · rw [if_pos h1] at hslot
        obtain rfl := Option.some.inj hslot
        exact Or.inl (show 0x200000 + 8 * n + 8 ≤ 0x200ef0 by omega)
      · rw [if_neg h1] at hslot
        exact absurd hslot (by simp)
  exact ⟨by rw [hword _ (by decide)]; exact hw.zombie, (hword _ (by decide)).trans hw.priority,
    (hword _ (by decide)).trans hw.stack, (hword _ (by decide)).trans hw.flags, (hword _ (by decide)).trans hw.pid⟩

theorem firstForking_reachable (k : Kernel) : Cpu.Reachable (firstForking k) :=
  ⟨firstOnCore k, _, firstOnCore_booted k, .cons (firstForking_legal k) (.nil _)⟩

theorem forkingMem_current (h : FirstTwo k) : smallImage.addr (forkingMem k).current = 0x200000 := by
  show smallImage.addr k.current = _
  rw [h.current]
  rfl

theorem firstForking_hosts (h : FirstTwo k) : Hosts smallImage (forkingMem k) (firstForking k) := by
  refine ⟨rfl, (forkingMem_current h).symm, fun q u hu => ?_⟩
  by_cases hq : q = 0x200000
  · subst hq
    obtain rfl := Option.some.inj hu
    refine ⟨1, .page 0x200000, by decide, h.slots 1 (by decide), rfl, by simp, ?_⟩
    rintro b hb
    obtain rfl := TaskPtr.page.inj hb
    exact ⟨show 0x200000 ≤ 0x200000 + taskStructSize by decide, show 0x201000 ≤ 0x200000 + pageSize by decide⟩
  · exact absurd ((Function.update_of_ne hq _ _).symm.trans hu) (by simp [firstOnCore, hq])

theorem firstForking_deep (k : Kernel) : (firstForking k).Deep (firstForking k).current 0
    [⟨0, taskPtRegs (firstForking k).current, ctxOf (firstOnCore k).core.regs⟩] := by
  have hbase : ((0x201000 : BitVec 64) - BitVec.ofNat 64 sFrameSize).toNat = taskPtRegs 0x200000 := by decide
  have hdeep := deep_interrupt (m := firstOnCore k) 0 0x400 rfl
  have hsaved : (pushed ⟨0x200000 + taskStructSize, 0x201000, [], fun _ => 0, 0⟩ 0 (firstOnCore k).core.regs).saved
      = [⟨0, taskPtRegs 0x200000, ctxOf (firstOnCore k).core.regs⟩] := by
    rw [← hbase]
    rfl
  rw [hsaved] at hdeep
  exact hdeep

/-- The first process forks, with its `sp` sixteen bytes below the top. -/
theorem fork_returns_twice_first :
    ∃ k, TaskReachable k ∧ ∃ (pid a s : Nat) (r' : RawKernel), sysForkMem smallImage (forkingMem k) = .ok ((pid : Int), r') ∧
      LeavesWith ((firstForking k).step (.create a (newThread r'.mem a) r'.mem)) a
        (forkedCtx (ctxOf (firstOnCore k).core.regs) a s 0x201000) := by
  obtain ⟨k, hk, hcan, htwo⟩ := firstTwo
  have hin : InTable k (.page 0x200000) := ⟨1, by decide, htwo.slots 1 (by decide)⟩
  have hm := forkingMem_inMemory htwo
  have hcur := forkingMem_current htwo
  have hstack : word (forkingMem k).mem 0x200000 stackWord = 0x201000 := by
    refine (hm.words _ hin).stack.trans ?_
    have hs := htwo.stack
    rwa [Kernel.cur, htwo.current] at hs
  obtain ⟨pid, a, s, r', hrun, _, _, hleaves, _⟩ :=
    fork_returns_twice (c := ctxOf (firstOnCore k).core.regs) hk.kernel hm hcan (by rw [hcur, hstack]; decide)
    (by rw [hcur, hstack]; exact show 0x201000 ≤ (0x201ff0 : BitVec 64).toNat by decide)
    (by rw [hcur, hstack]; exact show (0x201ff0 : BitVec 64).toNat ≤ 0x201000 + pageSize by decide)
    (firstForking_reachable k) (firstForking_hosts htwo) (firstForking_deep k)
  rw [hcur, hstack] at hleaves
  exact ⟨k, hk, pid, a, s, r', hrun, hleaves⟩

end OsdiKernel
