import OsdiKernel.Mm.PreemptedMoves

/-!
# `sys_malloc` under preemption

`sys_fork`, `sys_exec` and `copy_process` hold `preempt_count` up where they call
`kmalloc`, and `sys_malloc` does not. Two calls can then compute one address
before either counts it, a call can put an object past the end of a page that
another has filled and not yet put away, and a call can find that the page it
checked for has been taken away. As long as no statement meets the allocator in
such a state, what was returned is what a caller expects, whoever was interrupted
where.
-/

namespace OsdiKernel

variable {ι : Type}

/-- The calls that have returned, where they ended. -/
def MallocTasks.past (s : MallocTasks ι) : List MallocPc := s.returned.map (fun r => .ret r.1 r.2)

/-- The tasks' invariant: `c` is what the lists hold, `H` every block that was ever handed out. -/
structure MallocInv [Fintype ι] (s : MallocTasks ι) (c : Link → List Nat) (H : Set Block) : Prop where
  obj : ObjInv s.mm c H
  calls : Everywhere (PcOk s.mm c H) s.pc s.past
  apart : Mutually PcApart s.pc s.past
  /-- A current page that is on the full list is about to be taken away. -/
  away : ∀ t p, (s.mm.objAllocPool t).currPage = some p → p ∈ c (.fullList t) → ∃ j, (s.pc j).putAway t p = true
  /-- `obj_used` counts the objects returned, and those that will be. -/
  count : ∀ t, (s.mm.objAllocPool t).objUsed = s.returned.countP (ofToken t) + threadCount (MallocPc.counted t) s.pc

variable [Fintype ι] {s s₀ : MallocTasks ι} {mm' : Mm} {c c' : Link → List Nat} {H H' : Set Block} {x y : MallocPc}

namespace MallocInv

/-- **A statement** of the current task, but for the return. -/
theorem statement (h : MallocInv s c H) (hx : s.pc s.current = x) (hmem : hasMemory s.mm x = true)
    (hclean : CleanStatement s x) (hret : ∀ owner addr, x ≠ .ret owner addr) :
    ∃ mm' y c' H', mallocStatement s.mm x = .ok (mm', y) ∧ Moves s.mm c H x mm' c' H' y ∧
      ∀ z, Elsewhere s.pc s.past s.current z → PcApart y z := by
  have hok : PcOk s.mm c H x := hx ▸ h.calls.now s.current
  have hoks : ∀ z, Elsewhere s.pc s.past s.current z → PcOk s.mm c H z := fun z hz => h.calls.elsewhere hz
  have happ : ∀ z, Elsewhere s.pc s.past s.current z → PcApart x z := fun z hz => hx ▸ h.apart.elsewhere hz
  -- a call that goes on with the page and the address it had
  have hgo : ∀ y, y.page = x.page → y.addr = x.addr → (∀ t, y.uncounted t = true → x.uncounted t = true) →
      ∀ z, Elsewhere s.pc s.past s.current z → PcApart y z :=
    fun y hp ha hu z hz => (happ z hz).mono (Or.inl hp) (Or.inl ha) hu
  cases x with
  | idle => exact ⟨s.mm, .idle, c, H, rfl, .read h.obj trivial (fun _ _ => rfl) (fun _ => rfl), happ⟩
  | testCurr t =>
      by_cases hc : (s.mm.objAllocPool t).currPage = none
      · exact ⟨s.mm, .testPartial t, c, H, by simp only [mallocStatement, if_pos hc], .read h.obj hok (fun _ _ => rfl) (fun _ => rfl),
          hgo _ rfl rfl (fun _ hu => hu)⟩
      · exact ⟨s.mm, .readFree t, c, H, by simp only [mallocStatement, if_neg hc], .read h.obj hok (fun _ _ => rfl) (fun _ => rfl),
          hgo _ rfl rfl (fun _ hu => hu)⟩
  | testPartial t =>
      -- without a `kfree` no page is ever put on this list, nor on the next
      have hempty := (h.obj.buddy.lists.listEmpty_iff (h := .partialList t) hok).mpr (h.obj.lists t).1
      exact ⟨s.mm, .testEmpty t, c, H, by simp [mallocStatement, hempty], .read h.obj hok (fun _ _ => rfl) (fun _ => rfl),
        hgo _ rfl rfl (fun _ hu => hu)⟩
  | testEmpty t =>
      have hempty := (h.obj.buddy.lists.listEmpty_iff (h := .emptyList t) hok).mpr (h.obj.lists t).2
      exact ⟨s.mm, .demand t, c, H, by simp [mallocStatement, hempty], .read h.obj hok (fun _ _ => rfl) (fun _ => rfl),
        hgo _ rfl rfl (fun _ hu => hu)⟩
  | firstOf t list => exact absurd hok id
  | unlink t p => exact absurd hok id
  | demand t =>
      obtain ⟨p, mm', c', hnew⟩ := h.obj.newBlock (k := 0) (Nat.zero_le _) hmem
      have hreg : mm'.Registered t := by
        rw [Mm.Registered, hnew.pool]
        exact hok
      have hrun : buddyBlockAlloc s.mm 0 = .ok (some p, mm') := hnew.run
      exact ⟨mm', .initPage t p, c', _, by simp only [mallocStatement, hrun, ok_bind],
        NewBlock.moves hnew ⟨hreg, Set.mem_insert _ _, hnew.owner⟩ (fun _ _ => rfl) (fun _ => rfl),
        fun z hz => NewBlock.apart hnew h.obj (hoks z hz) (Or.inl ⟨rfl, rfl⟩) (fun _ => rfl)⟩
  | initPage t p =>
      exact ⟨_, _, c, H, rfl, .initPage h.obj hok, hgo _ rfl rfl (fun _ hu => hu)⟩
  | setObjAlloc t p =>
      exact ⟨_, _, c, H, rfl, .setObjAlloc h.obj hok, hgo _ rfl rfl (fun _ hu => hu)⟩
  | countPage t p =>
      refine ⟨_, _, c, H, rfl, .counter (fun _ => ⟨rfl, rfl, rfl⟩) h.obj hok (fun _ _ => rfl) (fun u => ?_),
        hgo _ rfl rfl (fun _ hu => hu)⟩
      by_cases hu : u = t
      · subst hu
        rw [Mm.updatePool_self]
        rfl
      · rw [Mm.updatePool_ne _ _ _ _ hu]
        rfl
  | setCurr t p =>
      exact ⟨_, _, c, H, rfl, .setCurr h.obj hok, fun z hz => (happ z hz).mono (Or.inr rfl) (Or.inl rfl) (fun _ hu => hu)⟩
  | readFree t =>
      -- without a `kfree` no page has a chain
      obtain ⟨p, hp⟩ := Option.ne_none_iff_exists'.mp hclean
      have hfree := h.obj.chain p t (h.obj.curr t p hp)
      exact ⟨s.mm, .readAddr t, c, H, by simp only [mallocStatement, currPageOf, hp, ok_bind, hfree],
        .read h.obj hok (fun _ _ => rfl) (fun _ => rfl), hgo _ rfl rfl (fun _ hu => hu)⟩
  | readAddr t =>
      obtain ⟨honly, p, hp, hroom⟩ := hclean
      obtain ⟨hpfn, haddr, hy⟩ := readAddr_spec h.obj hp hroom rfl
      -- the step says it of the calls that go on, and those that are over have counted
      have hothers : ∀ z, Elsewhere s.pc s.past s.current z → z.uncounted t = false := by
        intro z hz
        rcases hz with ⟨j, _, rfl⟩ | hz
        · exact honly j
        · obtain ⟨r, _, rfl⟩ := List.mem_map.mp hz
          rfl
      exact ⟨s.mm, _, c, H, by simp only [mallocStatement, currPageOf, hp, ok_bind], .read h.obj hy (fun _ _ => rfl) (fun _ => rfl),
        fun z hz => PcApart.readAddr h.obj (hoks z hz) hp (hothers z hz) hpfn haddr⟩
  | countObj t a =>
      refine ⟨_, _, c, H, rfl, .counter (fun _ => ⟨rfl, rfl, rfl⟩) h.obj hok (fun _ _ => rfl) (fun u => ?_),
        hgo _ rfl rfl (fun _ hu => hu)⟩
      by_cases hu : u = t
      · subst hu
        rw [Mm.updatePool_self]
        simp [MallocPc.counted]
      · rw [Mm.updatePool_ne _ _ _ _ hu]
        simp [MallocPc.counted, Ne.symm hu]
  | countOnPage t a =>
      obtain ⟨p, hp⟩ := Option.ne_none_iff_exists'.mp hclean
      exact ⟨_, _, c, H, by simp only [mallocStatement, currPageOf, hp, ok_bind], .countOnPage h.obj hok hp,
        hgo _ rfl rfl (fun _ hu => absurd hu (by simp [MallocPc.uncounted]))⟩
  | testFull t a =>
      obtain ⟨p, hp⟩ := Option.ne_none_iff_exists'.mp hclean
      by_cases hfull : (s.mm.objAllocPool t).objPerPage = (s.mm.bookkeep p).objUsed
      · exact ⟨s.mm, .putOnFull t a, c, H, by simp only [mallocStatement, currPageOf, hp, ok_bind, if_pos hfull],
          .read h.obj hok (fun _ _ => rfl) (fun _ => rfl), hgo _ rfl rfl (fun _ hu => hu)⟩
      · exact ⟨s.mm, .ret (.slab t) a, c, H, by simp only [mallocStatement, currPageOf, hp, ok_bind, if_neg hfull],
          .read h.obj hok (fun _ _ => rfl) (fun _ => rfl), hgo _ rfl rfl (fun _ hu => hu)⟩
  | putOnFull t a =>
      obtain ⟨p, hp, honly⟩ := hclean
      -- if it were on the list, some call would be about to clear `curr_page`
      have hnot : p ∉ c (.fullList t) := by
        intro hm
        obtain ⟨j, hj⟩ := h.away t p hp hm
        rw [honly j] at hj
        exact absurd hj (by simp)
      obtain ⟨l, c', hrun, hmoves⟩ := Moves.putOnFull h.obj hok hp hnot
      exact ⟨_, _, c', H, by simp only [mallocStatement, currPageOf, hp, ok_bind, hrun], hmoves,
        hgo _ rfl rfl (fun _ hu => hu)⟩
  | clearCurr t a p =>
      exact ⟨_, _, c, H, rfl, .clearCurr h.obj hok, hgo _ rfl rfl (fun _ hu => hu)⟩
  | block k =>
      obtain ⟨p, mm', c', hnew⟩ := h.obj.newBlock (k := k) hok hmem
      exact ⟨mm', .ret (.buddy k) (mm'.bookkeep p).phyAddr, c', _, by simp only [mallocStatement, hnew.run, ok_bind],
        NewBlock.moves hnew ⟨p, hnew.addr, Set.mem_insert _ _, hnew.owner⟩ (fun _ _ => rfl) (fun _ => rfl),
        fun z hz => NewBlock.apart hnew h.obj (hoks z hz) (Or.inr ⟨rfl, congrArg some hnew.addr⟩) (fun _ => rfl)⟩
  | ret owner addr => exact absurd rfl (hret owner addr)

variable [DecidableEq ι]

/-- The current task has gone from `x` to `y`. -/
theorem moved (h : MallocInv s c H) (hx : s.pc s.current = x) (hm : Moves s.mm c H x mm' c' H' y)
    (happ : ∀ z, Elsewhere s.pc s.past s.current z → PcApart y z) :
    MallocInv { s with mm := mm', pc := Function.update s.pc s.current y } c' H' where
  obj := hm.obj
  calls := h.calls.step hm.here (fun z hz hok => hm.others z (hx ▸ h.apart.elsewhere hz) hok)
  apart := h.apart.step (fun _ _ => PcApart.symm) happ
  away := by
    intro t p hc hp
    rcases hm.away t p hc hp with hy | ⟨hc, hp, hnot⟩
    · refine ⟨s.current, ?_⟩
      show MallocPc.putAway t p (Function.update s.pc s.current y s.current) = true
      rw [Function.update_self]
      exact hy
    · -- somebody else is about to take it away
      obtain ⟨j, hj⟩ := h.away t p hc hp
      have hne : j ≠ s.current := by
        rintro rfl
        rw [hx, hnot] at hj
        exact absurd hj (by simp)
      refine ⟨j, ?_⟩
      show MallocPc.putAway t p (Function.update s.pc s.current y j) = true
      rw [Function.update_of_ne hne]
      exact hj
  count := by
    intro t
    have hpool := hm.count t
    have hthreads := threadCount_update (MallocPc.counted t) s.pc s.current y
    have hold := h.count t
    rw [hx] at hthreads
    push_cast [← Nat.cast_inj (R := Int)] at hthreads
    show (mm'.objAllocPool t).objUsed = s.returned.countP (ofToken t) + threadCount (MallocPc.counted t) (Function.update s.pc s.current y)
    omega

/-- The current task's call has returned. -/
theorem returns (h : MallocInv s c H) {owner : Owner} {addr : Nat} (hx : s.pc s.current = .ret owner addr) :
    MallocInv { s with pc := Function.update s.pc s.current .idle, returned := (owner, addr) :: s.returned } c H where
  obj := h.obj
  calls := by
    have hidle : PcOk s.mm c H .idle := trivial
    have := h.calls.finish hidle s.current
    rw [hx] at this
    exact this
  apart := by
    have := h.apart.finish (fun _ _ => PcApart.symm) pcApart_idle s.current
    rw [hx] at this
    exact this
  away := by
    intro t p hc hp
    obtain ⟨j, hj⟩ := h.away t p hc hp
    have hne : j ≠ s.current := by
      rintro rfl
      rw [hx] at hj
      exact absurd hj (by simp [MallocPc.putAway])
    refine ⟨j, ?_⟩
    show MallocPc.putAway t p (Function.update s.pc s.current .idle j) = true
    rw [Function.update_of_ne hne]
    exact hj
  count := by
    intro t
    have hthreads := threadCount_update (MallocPc.counted t) s.pc s.current .idle
    have hold := h.count t
    have hsame : MallocPc.counted t (.ret owner addr) = ofToken t (owner, addr) := by
      cases owner <;> simp [MallocPc.counted, ofToken]
    have hidle : MallocPc.counted t .idle = false := rfl
    simp only [hx, hsame, hidle, Bool.false_eq_true, if_false] at hthreads
    show (s.mm.objAllocPool t).objUsed = List.countP (ofToken t) ((owner, addr) :: s.returned)
      + threadCount (MallocPc.counted t) (Function.update s.pc s.current .idle)
    rw [List.countP_cons, hold]
    omega

end MallocInv

/-- A call begins at an allocator that is registered, at a block of an order there is, or is over. -/
theorem mallocEntry_cases (size : Int) :
    (∃ t, t < 9 ∧ mallocEntry size = .testCurr t) ∨ (∃ k, k ≤ maxOrder ∧ mallocEntry size = .block k) ∨ mallocEntry size = .idle := by
  unfold mallocEntry
  cases hcls : kmallocClass size with
  | some i =>
      obtain ⟨h3, h11, _⟩ := kmallocClass_some hcls
      exact Or.inl ⟨i - minKmallocOrder, by unfold minKmallocOrder; omega, rfl⟩
  | none =>
      cases hord : kmallocOrder size with
      | some k => exact Or.inr (Or.inl ⟨k, (kmallocOrder_some hord).1, rfl⟩)
      | none => exact Or.inr (Or.inr rfl)

variable [DecidableEq ι]

/-- **A clean step** returns, and keeps the invariant. -/
theorem mallocInv_step : (cleanSystem ι).Keeps (fun s => ∃ c H, MallocInv s c H) := by
  intro s step ⟨c, H, h⟩ ⟨hlegal, hclean⟩
  cases step with
  | call size =>
      have hidle : s.pc s.current = .idle := hlegal
      refine ⟨_, rfl, c, H, h.moved hidle (.read h.obj ?_ (fun _ _ => rfl) ?_) (fun z hz => ?_)⟩ <;>
        rcases mallocEntry_cases size with ⟨t, ht, he⟩ | ⟨k, hk, he⟩ | he <;> rw [he]
      · exact h.obj.classes t ht
      · exact hk
      · trivial
      · exact fun _ => rfl
      · exact fun _ => rfl
      · exact fun _ => rfl
      all_goals exact (pcApart_idle z).mono (Or.inl rfl) (Or.inl rfl) (fun _ hu => hu)
  | run =>
      obtain ⟨_, hmem⟩ := hlegal
      -- the return moves the call to those that are over, every other statement moves it on
      by_cases hret : ∃ owner addr, s.pc s.current = .ret owner addr
      · obtain ⟨owner, addr, hx⟩ := hret
        refine ⟨_, ?_, c, H, h.returns hx⟩
        simp only [cleanSystem, System.restrict, mallocSystem, hx, mallocStatement, ok_bind]
      · have hne : ∀ owner addr, s.pc s.current ≠ .ret owner addr := fun owner addr hx => hret ⟨owner, addr, hx⟩
        obtain ⟨mm', y, c', H', hrun, hm, happ⟩ := h.statement rfl hmem hclean hne
        refine ⟨_, ?_, c', H', h.moved rfl hm happ⟩
        simp only [cleanSystem, System.restrict, mallocSystem, hrun, ok_bind]
  | preempt next => exact ⟨_, rfl, c, H, ⟨h.obj, h.calls, h.apart, h.away, h.count⟩⟩

omit [DecidableEq ι] in
/-- At boot. -/
theorem mallocInv_init (h : MallocStart s₀) : ∃ c H, MallocInv s₀ c H := by
  obtain ⟨mm, c, hrun, hinv, hreg, _, hnone⟩ := mmInit_spec
  have hmm : s₀.mm = mm := Except.ok.inj (h.mm.symm.trans hrun)
  have hb : BuddyInv mm c ∅ := heldBlocks_nil hnone ▸ hinv.buddy
  -- what is on a list is held, and nothing is
  have hnil : ∀ x, (∀ k, x ≠ .freelist k) → (∀ q, x ≠ .frame q) → c x = [] := by
    intro x hxf hxq
    by_cases hx : mm.IsHead x
    · refine List.eq_nil_iff_forall_not_mem.mpr (fun q hq => ?_)
      obtain ⟨b, hbm, _⟩ := hb.others x hx hxf q hq
      exact absurd hbm (by simp)
    · exact (hb.lists.idle x hxq hx).2
  have hown : ∀ p t, (mm.bookkeep p).objAlloc ≠ some t := by
    intro p t
    rw [hnone p]
    simp
  have hobj : ObjInv mm c ∅ := by
    refine ⟨hb, fun t ht => (hreg t).mpr ht, fun t ht => (hinv.token t ht).size,
      fun t => ⟨hnil _ (by simp) (by simp), hnil _ (by simp) (by simp)⟩, fun p t hp => absurd hp (hown p t),
      fun p t hp => absurd hp (hown p t), fun p t hp => absurd hp (hown p t), fun t p hp => ?_, fun t p hp => ?_⟩
    · -- a current page would have an owner
      by_cases ht : mm.Registered t
      · exact ((hinv.token t ht).owned p).mp (by simp [tokenPages, hp])
      · rw [hinv.blank t ht] at hp
        exact absurd hp (by simp)
    · rw [hnil _ (by simp) (by simp)] at hp
      exact absurd hp (by simp)
  have hpast : s₀.past = [] := by rw [MallocTasks.past, h.returned]; rfl
  refine ⟨c, ∅, hmm ▸ hobj, ⟨fun i => ?_, by simp [hpast]⟩, ⟨fun i j _ => ?_, by simp [hpast], by simp [hpast]⟩, fun t p _ hp => ?_,
    fun t => ?_⟩
  · rw [h.pc i]
    trivial
  · rw [h.pc i]
    exact pcApart_idle _
  · rw [hnil _ (by simp) (by simp)] at hp
    exact absurd hp (by simp)
  · rw [threadCount_eq_zero (fun i => by rw [h.pc i]; rfl), h.returned, hmm]
    exact mmInit_objUsed hrun t

omit [DecidableEq ι] in
/-- What the callers rely on. -/
theorem MallocInv.safe (h : MallocInv s c H) : MallocSafe s where
  distinct := by
    have hpast := h.apart.past
    rw [MallocTasks.past, List.pairwise_map] at hpast
    rw [List.Nodup, List.pairwise_map]
    exact hpast.imp (fun {r r'} hap he => hap.addrs r.2 rfl (congrArg some he.symm))
  perPage := fun p t hp => (h.obj.used p t hp).2
  counted := by
    intro hidle t
    rw [h.count t, threadCount_eq_zero (fun i => by rw [hidle i]; rfl)]
    exact Int.add_zero _

/-- As long as no statement meets an allocator that another call has in hand, what `sys_malloc` has returned is what
its callers expect; and no statement faults. -/
theorem sysMalloc_preempted (h₀ : MallocStart s₀) (h : (cleanSystem ι).Reach s₀ s) :
    MallocSafe s ∧ ∀ step, (cleanSystem ι).legal s step → ∃ s', (cleanSystem ι).exec s step = .ok s' := by
  obtain ⟨c, H, hinv⟩ := h.inv (P := fun s => ∃ c H, MallocInv s c H) (mallocInv_init h₀) mallocInv_step
  refine ⟨hinv.safe, fun step hl => ?_⟩
  obtain ⟨s', he, _⟩ := h.returns (P := fun s => ∃ c H, MallocInv s c H) (mallocInv_init h₀) mallocInv_step hl
  exact ⟨s', he⟩

/-- Two tasks that both find no page, and each bring one: the second page takes the place of the first. -/
theorem sysMalloc_preempted_twice :
    ∃ s : MallocTasks (Fin 2), MallocSafe s ∧ s.returned = [(.slab 0, 0x200000), (.slab 0, 0x201000)] := by
  have hrun : (mallocRun (cleanSystem (Fin 2)) 0 (List.flatten [[.call 8], List.replicate 4 .run, [.preempt 1, .call 8],
      List.replicate 14 .run, [.preempt 0], List.replicate 10 .run])).map MallocTasks.returned
        = some [(.slab 0, 0x200000), (.slab 0, 0x201000)] := by decide +kernel
  obtain ⟨s, hs, hret⟩ := Option.map_eq_some_iff.mp hrun
  obtain ⟨s₀, h₀, hreach⟩ := mallocReach_of_run hs
  exact ⟨s, (sysMalloc_preempted h₀ hreach).1, hret⟩

/-- One task is interrupted with an address computed and not counted, and the next computes the same one. -/
theorem not_mallocSafe :
    ¬ ∀ s₀ s : MallocTasks (Fin 2), MallocStart s₀ → (mallocSystem (Fin 2)).Reach s₀ s → MallocSafe s := by
  intro hall
  have hrun : (mallocRun (mallocSystem (Fin 2)) 0 (List.flatten [[.call 8], List.replicate 10 .run, [.preempt 1, .call 8],
      List.replicate 7 .run, [.preempt 0], List.replicate 4 .run])).map MallocTasks.returned
        = some [(.slab 0, 0x200000), (.slab 0, 0x200000)] := by decide +kernel
  obtain ⟨s, hs, hret⟩ := Option.map_eq_some_iff.mp hrun
  obtain ⟨s₀, h₀, hreach⟩ := mallocReach_of_run hs
  have hnodup := (hall s₀ s h₀ hreach).distinct
  rw [hret] at hnodup
  exact absurd hnodup (by simp)

end OsdiKernel
