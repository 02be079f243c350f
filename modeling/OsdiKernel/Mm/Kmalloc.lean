import OsdiKernel.Mm.BuddySystem
import OsdiKernel.Mm.SlabFree

/-!
# Registration, `kmalloc` and `kfree` keep the invariant

Registering a token turns three idle list heads into empty lists. `kmalloc`
sends a request to one of the nine allocators `__init_kmalloc` registered or,
past the largest of them, to the buddy allocator; `kfree` asks the page which of
the two it was.
-/

namespace OsdiKernel

variable {mm mm' : Mm} {c c' : Link → List Nat} {live rest : List Live} {e : Live} {t p k : Nat}

/-! ## Registration -/

theorem isHead_initObjAlloc (mm : Mm) {n : Int} (ht : t < maxObjAllocatorNum) (hn : n ≠ 0) :
    (initObjAlloc mm t n).IsHead
      = fun x => x = .emptyList t ∨ x = .partialList t ∨ x = .fullList t ∨ mm.IsHead x := by
  have hpool : ∀ u, ((initObjAlloc mm t n).objAllocPool u).objsize
      = if u = t then n else (mm.objAllocPool u).objsize := by
    intro u
    by_cases hu : u = t
    · subst hu; simp [initObjAlloc]
    · rw [if_neg hu, initObjAlloc, Mm.updatePool_ne _ _ _ _ hu]
  funext x
  refine propext ?_
  cases x with
  | frame q => simp [Mm.IsHead]
  | freelist j => simp [Mm.IsHead]
  | fullList u =>
      by_cases hu : u = t
      · subst hu; simp [Mm.IsHead, hpool, ht, hn]
      · simp [Mm.IsHead, hpool, hu]
  | partialList u =>
      by_cases hu : u = t
      · subst hu; simp [Mm.IsHead, hpool, ht, hn]
      · simp [Mm.IsHead, hpool, hu]
  | emptyList u =>
      by_cases hu : u = t
      · subst hu; simp [Mm.IsHead, hpool, ht, hn]
      · simp [Mm.IsHead, hpool, hu]

/-- **A new allocator** has no page and three empty lists. -/
theorem initObjAlloc_spec (h : SlabInv mm c live) (ht : t < maxObjAllocatorNum)
    (hn : ¬ mm.Registered t) {n : Nat} (h8 : 8 ≤ n) (hmax : n ≤ 2048) :
    SlabInv (initObjAlloc mm t n) c live ∧
      (∀ u, (initObjAlloc mm t n).Registered u ↔ mm.Registered u ∨ u = t) ∧
      ((initObjAlloc mm t n).objAllocPool t).objsize = n ∧
      ∀ u, u ≠ t → (initObjAlloc mm t n).objAllocPool u = mm.objAllocPool u := by
  have hpool : (initObjAlloc mm t n).objAllocPool t = ⟨none, n, pageSize / n, 0, 0⟩ := by
    simp [initObjAlloc]
  have hne : ∀ u, u ≠ t → (initObjAlloc mm t n).objAllocPool u = mm.objAllocPool u := by
    intro u hu
    rw [initObjAlloc, Mm.updatePool_ne _ _ _ _ hu]
  have hreg : ∀ u, (initObjAlloc mm t n).Registered u ↔ mm.Registered u ∨ u = t := by
    intro u
    by_cases hu : u = t
    · subst hu
      simp only [Mm.Registered, hpool, ht, true_and, or_true, iff_true]
      omega
    · simp [Mm.Registered, hne u hu, hu]
  have hc : c (.fullList t) = [] ∧ c (.partialList t) = [] ∧ c (.emptyList t) = [] :=
    ⟨(h.buddy.lists.idle (.fullList t) (by simp) hn).2,
      (h.buddy.lists.idle (.partialList t) (by simp) hn).2,
      (h.buddy.lists.idle (.emptyList t) (by simp) hn).2⟩
  have hown : ∀ q, (mm.bookkeep q).objAlloc ≠ some t := fun q hq => hn (h.registered hq)
  have hhead := isHead_initObjAlloc mm (t := t) (n := (n : Int)) ht (by omega)
  have hlists : PageLists (initObjAlloc mm t n).links (initObjAlloc mm t n).IsHead c := by
    rw [hhead]
    have h₁ := h.buddy.lists.initListHead_spec (h := .fullList t) (by simp) hn
    have h₂ := h₁.initListHead_spec (h := .partialList t) (by simp) (by simp [Mm.IsHead]; exact fun a => by simpa using fun hz => hn ⟨a, hz⟩)
    exact h₂.initListHead_spec (h := .emptyList t) (by simp) (by simp [Mm.IsHead]; exact fun a => by simpa using fun hz => hn ⟨a, hz⟩)
  refine ⟨⟨⟨hlists, h.buddy.count, h.buddy.pfn, h.buddy.addr, h.buddy.flag, h.buddy.tiling,
    h.buddy.apart, h.buddy.coalesced, h.buddy.orders, ?_⟩, h.held, ?_, ?_, ?_, h.outside⟩, hreg,
    by rw [hpool], hne⟩
  · intro x hx hxf q hq
    rw [hhead] at hx
    rcases hx with hx | hx | hx | hx
    · rw [hx, hc.2.2] at hq; exact absurd hq (by simp)
    · rw [hx, hc.2.1] at hq; exact absurd hq (by simp)
    · rw [hx, hc.1] at hq; exact absurd hq (by simp)
    · exact h.buddy.others x hx hxf q hq
  · intro u hu
    by_cases hut : u = t
    · subst hut
      have hpages : tokenPages (initObjAlloc mm u n) c u = [] := by
        simp [tokenPages, hpool, hc]
      refine ⟨⟨n, h8, hmax, by rw [hpool], by rw [hpool]; rfl⟩, ?_, by rw [hpages]; exact List.nodup_nil,
        ?_, ?_, ?_, ?_, ?_, ?_⟩
      · intro q
        rw [hpages]
        exact ⟨fun hq => absurd hq (by simp), fun hq => absurd hq (hown q)⟩
      · rw [hpages, hpool]; rfl
      · rw [hpages, hpool]; rfl
      · intro q hq
        rw [hpool] at hq
        exact absurd hq (by simp)
      · intro q hq
        rw [hc.1] at hq
        exact absurd hq (by simp)
      · intro q hq
        rw [hc.2.1] at hq
        exact absurd hq (by simp)
      · intro q hq
        rw [hc.2.2] at hq
        exact absurd hq (by simp)
    · have hold : mm.Registered u := ((hreg u).mp hu).resolve_right hut
      exact (h.token u hold).congr (hne u hut) ⟨rfl, rfl, rfl⟩ (fun _ => Iff.rfl) (fun _ _ => rfl)
  · intro q hq
    refine (h.page q hq).congr ⟨rfl, rfl, rfl⟩ (fun u hu => (hreg u).mpr (Or.inl hu)) ?_
    intro u a hu ha
    have hut : u ≠ t := fun he => hn (he ▸ hu)
    rw [ObjAddr, hne u hut]
    exact ha
  · intro u hu
    have hut : u ≠ t := fun he => hu ((hreg u).mpr (Or.inr he))
    rw [hne u hut]
    exact h.blank u (fun hr => hu ((hreg u).mpr (Or.inl hr)))

/-- What registration leaves: nothing new, or one new allocator of an admissible size. -/
structure Registration (mm mm' : Mm) (c : Link → List Nat) (live : List Live) : Prop where
  inv : SlabInv mm' c live
  bookkeep : mm'.bookkeep = mm.bookkeep
  old : ∀ u, mm.Registered u → mm'.objAllocPool u = mm.objAllocPool u

/-- **`register_obj_allocator`** of any size. -/
theorem registerObjAllocator_spec (h : SlabInv mm c live) (objsize : Int) :
    Registration mm (registerObjAllocator mm objsize).2 c live := by
  have hclamp : ∃ n : Nat, 8 ≤ n ∧ n ≤ 2048 ∧
      (if (if objsize < minAllocatedObjSize then minAllocatedObjSize else objsize) > maxAllocatedObjSize
        then maxAllocatedObjSize
        else if objsize < minAllocatedObjSize then minAllocatedObjSize else objsize) = (n : Int) := by
    unfold minAllocatedObjSize maxAllocatedObjSize
    refine ⟨(if (if objsize < 8 then 8 else objsize) > 2048 then 2048
      else if objsize < 8 then 8 else objsize).toNat, ?_, ?_, ?_⟩ <;> omega
  obtain ⟨n, h8, hmax, hn⟩ := hclamp
  cases hfind : (List.range maxObjAllocatorNum).find? (fun token => (mm.objAllocPool token).objsize = 0) with
  | none =>
      have hrun : registerObjAllocator mm objsize = (-1, mm) := by
        simp only [registerObjAllocator, hfind]
      rw [hrun]
      exact ⟨h, rfl, fun _ _ => rfl⟩
  | some t =>
      have ht : t < maxObjAllocatorNum := List.mem_range.mp (List.mem_of_find?_eq_some hfind)
      have hzero : (mm.objAllocPool t).objsize = 0 := by
        simpa using List.find?_some hfind
      have hnr : ¬ mm.Registered t := fun hr => hr.2 hzero
      have hrun : registerObjAllocator mm objsize = ((t : Int), initObjAlloc mm t n) := by
        simp only [registerObjAllocator, hfind, hn]
      obtain ⟨hinv, _, _, hold⟩ := initObjAlloc_spec h ht hnr h8 hmax
      rw [hrun]
      exact ⟨hinv, rfl, fun u hu => hold u (fun he => hnr (he ▸ hu))⟩

/-- The classes `__init_kmalloc` registers: token `i - 3` serves objects of `2 ^ i` bytes. -/
def KmallocClasses (mm : Mm) (n : Nat) : Prop :=
  ∀ t, t < n → mm.Registered t ∧ (mm.objAllocPool t).objsize = 2 ^ (t + minKmallocOrder)

/-- The first `n` turns of `__init_kmalloc` take the first `n` tokens. -/
theorem initKmalloc_turns (h : SlabInv mm c live) (hno : ∀ u, ¬ mm.Registered u) :
    ∀ n, n ≤ 9 → ∃ mm', (List.range' minKmallocOrder n).foldl
        (fun mm i => (registerObjAllocator mm (2 ^ i)).2) mm = mm' ∧
      SlabInv mm' c live ∧ mm'.bookkeep = mm.bookkeep ∧ (∀ u, mm'.Registered u ↔ u < n) ∧
      KmallocClasses mm' n
  | 0, _ => ⟨mm, rfl, h, rfl, fun u => ⟨fun hu => absurd hu (hno u), fun hu => absurd hu (Nat.not_lt_zero u)⟩,
      fun t ht => absurd ht (Nat.not_lt_zero t)⟩
  | n + 1, hn => by
      obtain ⟨mm₁, hrun, h₁, hbk, hreg, hcls⟩ := initKmalloc_turns h hno n (by omega)
      have h16 : n < maxObjAllocatorNum := by unfold maxObjAllocatorNum; omega
      have hnew : ¬ mm₁.Registered n := fun hr => Nat.lt_irrefl n ((hreg n).mp hr)
      have hzero : (mm₁.objAllocPool n).objsize = 0 := by
        by_contra hne
        exact hnew ⟨h16, hne⟩
      have hfind : (List.range maxObjAllocatorNum).find?
          (fun token => (mm₁.objAllocPool token).objsize = 0) = some n := by
        rw [List.find?_range_eq_some]
        refine ⟨by simp [hzero], List.mem_range.mpr h16, fun j hj => ?_⟩
        simpa using ((hreg j).mpr hj).2
      -- the nine sizes are admissible as they are
      have hclamp : ∀ m : Nat, m < 9 →
          (if (if ((2 : Int) ^ (minKmallocOrder + m)) < minAllocatedObjSize then minAllocatedObjSize
              else (2 : Int) ^ (minKmallocOrder + m)) > maxAllocatedObjSize then maxAllocatedObjSize
            else if ((2 : Int) ^ (minKmallocOrder + m)) < minAllocatedObjSize then minAllocatedObjSize
              else (2 : Int) ^ (minKmallocOrder + m)) = ((2 ^ (minKmallocOrder + m) : Nat) : Int) ∧
          8 ≤ 2 ^ (minKmallocOrder + m) ∧ 2 ^ (minKmallocOrder + m) ≤ 2048 := by
        decide
      obtain ⟨hval, h8, hmax⟩ := hclamp n (by omega)
      obtain ⟨hinv, hreg', hsz, hold⟩ := initObjAlloc_spec h₁ h16 hnew h8 hmax
      refine ⟨initObjAlloc mm₁ n ((2 ^ (minKmallocOrder + n) : Nat) : Int), ?_, hinv, hbk, ?_, ?_⟩
      · rw [List.range'_concat, List.foldl_append, hrun, Nat.one_mul]
        simp only [List.foldl_cons, List.foldl_nil, registerObjAllocator, hfind, hval]
      · intro u
        rw [hreg', hreg]
        omega
      · intro u hu
        by_cases hun : u = n
        · subst hun
          refine ⟨(hreg' u).mpr (Or.inr rfl), ?_⟩
          rw [hsz, Nat.add_comm]
          exact Int.natCast_pow 2 _
        · have hlt : u < n := by omega
          rw [hold u hun]
          exact ⟨(hreg' u).mpr (Or.inl (hcls u hlt).1), (hcls u hlt).2⟩

/-- **`mm_init`** returns, with nothing handed out and the nine classes registered. -/
theorem mmInit_spec :
    ∃ mm c, mmInit Mm.bss = .ok mm ∧ SlabInv mm c [] ∧ (∀ u, mm.Registered u ↔ u < 9) ∧
      KmallocClasses mm 9 ∧ ∀ q, (mm.bookkeep q).objAlloc = none := by
  obtain ⟨mm₀, c, hrun, hb, honly, _, _, hobj⟩ := freeAreaInit_spec
  have hno : ∀ u, ¬ mm₀.Registered u := by
    intro u hu
    have := hu.2
    rw [hobj.pool] at this
    exact this rfl
  have hoa : ∀ q, (mm₀.bookkeep q).objAlloc = none := fun q => by rw [hobj.objAlloc]; rfl
  have hempty : heldBlocks mm₀ [] = ∅ := heldBlocks_nil hoa
  have h₀ : SlabInv mm₀ c [] := by
    refine ⟨hempty ▸ hb, ?_, fun t ht => absurd ht (hno t), ?_, ?_, fun q _ => ⟨hoa q, rfl⟩⟩
    · intro b hbm
      rw [hempty] at hbm
      exact absurd hbm (by simp)
    · exact fun q _ => .blank (hoa q)
    · intro t _
      rw [hobj.pool]
      rfl
  obtain ⟨mm, hrun', hinv, hbk, hreg, hcls⟩ := initKmalloc_turns h₀ hno 9 (Nat.le_refl 9)
  refine ⟨mm, c, ?_, hinv, hreg, hcls, fun q => by rw [hbk]; exact hoa q⟩
  rw [mmInit, hrun, ok_bind, initKmalloc]
  exact congrArg Except.ok hrun'

/-! ## Whole blocks -/

/-- A block handed out whole is held. -/
theorem heldBlocks_cons_buddy {size : Int} :
    heldBlocks mm (⟨frameAddr p, size, .buddy k⟩ :: live) = insert ⟨p, k⟩ (heldBlocks mm live) := by
  ext b
  obtain ⟨q, j⟩ := b
  simp only [heldBlocks, Set.mem_ofPred_eq, List.mem_cons, Set.mem_insert_iff, Block.mk.injEq]
  constructor
  · intro hb
    rcases hb with hb | ⟨e, rfl | he, ho, ha⟩
    · exact Or.inr (Or.inl hb)
    · exact Or.inl ⟨(frameAddr_injective ha).symm, (Owner.buddy.inj ho).symm⟩
    · exact Or.inr (Or.inr ⟨e, he, ho, ha⟩)
  · intro hb
    rcases hb with ⟨rfl, rfl⟩ | hb | ⟨e, he, ho, ha⟩
    · exact Or.inr ⟨_, Or.inl rfl, rfl, rfl⟩
    · exact Or.inl hb
    · exact Or.inr ⟨e, Or.inr he, ho, ha⟩

/-- **Allocating a whole block** and handing out its address. -/
theorem buddyBlockAlloc_live (h : SlabInv mm c live) (hk : k ≤ maxOrder) :
    (buddyBlockAlloc mm k = .ok (none, mm) ∧ hasFree mm k = false) ∨
    (hasFree mm k = true ∧ ∃ p mm' c', buddyBlockAlloc mm k = .ok (some p, mm') ∧
      (mm'.bookkeep p).phyAddr = frameAddr p ∧ mm.SameObj mm' ∧ (mm.bookkeep p).objAlloc = none ∧
      ∀ size, SlabInv mm' c' (⟨frameAddr p, size, .buddy k⟩ :: live)) := by
  rcases buddyBlockAlloc_spec h.buddy k hk with ⟨hrun, hno⟩ | ⟨i, p, mm', c', hrun, hal⟩
  · exact Or.inl ⟨hrun, hasFree_false h.buddy hno⟩
  · obtain ⟨tl, htl, _⟩ := hal.lists
    have hfree : hasFree mm k = true :=
      (hasFree_iff h.buddy).mpr ⟨i, hal.le.1, hal.le.2, by rw [htl]; simp⟩
    have hpN : p < pageFrameNum := hal.hand.inv.start_lt hal.hand.mem
    obtain ⟨hoa, hnil⟩ := h.fresh_page hal.hand
    have hpfn := phyAddrToPfn_frame hpN
    refine Or.inr ⟨hfree, p, mm', c', hrun, hal.hand.inv.addr p hpN, hal.obj, hoa, fun size => ?_⟩
    have hheld : heldBlocks mm' (⟨frameAddr p, size, .buddy k⟩ :: live)
        = insert ⟨p, k⟩ (heldBlocks mm live) := by
      rw [heldBlocks_cons_buddy, heldBlocks_congr hal.obj.objAlloc]
    refine h.untouched (p := p) hal.obj hal.others ?_ ?_ hpN ?_ ?_
    · rw [hheld]; exact hal.hand.inv
    · intro b hb
      rw [hheld] at hb
      rcases hb with hb | hb
      · rw [hb]; exact hal.held
      · rw [Held, hal.rest b hb]
        exact h.held b hb
    · rw [onPage_cons_self (e := ⟨frameAddr p, size, .buddy k⟩) hpfn, hnil]
      have hoa' : (mm'.bookkeep p).objAlloc = none := by rw [hal.obj.objAlloc]; exact hoa
      refine ⟨fun u hu => ?_, fun u a hu _ => ?_, fun u hu => ?_, fun _ => ⟨Nat.le_refl 1, by simp⟩⟩ <;>
        (rw [hoa'] at hu
         exact absurd hu (by simp))
    · intro q hq
      exact onPage_cons_ne (e := ⟨frameAddr p, size, .buddy k⟩) (fun he => hq (he.symm.trans hpfn))

/-- **Freeing a whole block** by its address. -/
theorem kfree_block (h : SlabInv mm c (e :: rest)) (ho : e.owner = .buddy k) :
    ∃ mm' c', kfree mm e.addr = .ok mm' ∧ SlabInv mm' c' rest ∧ mm.SameObj mm' := by
  obtain ⟨hoa, haddr⟩ := h.objAlloc_buddy (e := e) (by simp) ho
  obtain ⟨hpN, hmem⟩ := h.live_page (e := e) (by simp)
  generalize hp : phyAddrToPfn e.addr = p at hoa haddr hpN hmem
  have hone := ((h.page p hpN).whole hoa).1
  rw [onPage_cons_self hp, List.length_cons] at hone
  have hnil : onPage rest p = [] := List.length_eq_zero_iff.mp (by omega)
  have hheld : heldBlocks mm (e :: rest) = insert ⟨p, k⟩ (heldBlocks mm rest) := by
    obtain ⟨a, size, own⟩ := e
    simp only at haddr ho
    rw [haddr, ho]
    exact heldBlocks_cons_buddy
  have hfresh : (⟨p, k⟩ : Block) ∉ heldBlocks mm rest := by
    intro hm
    rcases hm with hm | ⟨x, hx, _, hxa⟩
    · exact hm.2 hoa
    · have hxp : x ∈ onPage rest p := mem_onPage.mpr ⟨hx, by rw [hxa]; exact phyAddrToPfn_frame hpN⟩
      rw [hnil] at hxp
      exact absurd hxp (by simp)
  have hin : (⟨p, k⟩ : Block) ∈ heldBlocks mm (e :: rest) := hheld ▸ Or.inl rfl
  have hhand : InHand mm c ⟨p, k⟩ (heldBlocks mm rest) := by
    refine ⟨hheld ▸ h.buddy, hfresh, fun x hx hm => ?_⟩
    by_cases hxf : ∃ j, x = .freelist j
    · obtain ⟨j, rfl⟩ := hxf
      have hfree : (⟨p, j⟩ : Block) ∈ frees c := (mem_frees hx).mpr hm
      exact h.buddy.apart _ hfree (h.buddy.eq_of_start (Or.inl hfree) (Or.inr hin) rfl ▸ hin)
    · -- every other list holds pages that are owned
      have hown : ∃ t, (mm.bookkeep p).objAlloc = some t := by
        cases x with
        | frame q => exact absurd hx id
        | freelist j => exact absurd ⟨j, rfl⟩ hxf
        | fullList t => exact ⟨t, h.owned_of_list hx (Or.inl rfl) hm⟩
        | partialList t => exact ⟨t, h.owned_of_list hx (Or.inr (Or.inl rfl)) hm⟩
        | emptyList t => exact ⟨t, h.owned_of_list hx (Or.inr (Or.inr rfl)) hm⟩
      obtain ⟨t, ht⟩ := hown
      rw [hoa] at ht
      exact absurd ht (by simp)
  obtain ⟨mm', c', hrun, hb, hoth, hrest, hobj⟩ := buddyBlockFree_spec hhand (h.held _ hin)
  have heq : heldBlocks mm' rest = heldBlocks mm rest := heldBlocks_congr hobj.objAlloc
  refine ⟨mm', c', ?_, h.untouched (p := p) hobj hoth (heq ▸ hb) ?_ hpN ?_ ?_, hobj⟩
  · simp only [kfree, hp, hoa, hrun]
  · intro b hbm
    rw [heq] at hbm
    rw [Held, hrest b hbm]
    exact h.held b (hheld ▸ Or.inr hbm)
  · rw [hnil]
    exact .blank ((hobj.objAlloc p).trans hoa)
  · intro q hq
    exact (onPage_cons_ne (fun he => hq (he.symm.trans hp))).symm

/-- and with every counter at zero. -/
theorem mmInit_objUsed (h : mmInit Mm.bss = .ok mm) (t : Nat) : (mm.objAllocPool t).objUsed = 0 := by
  have hregister : ∀ (mm : Mm) (n : Int), (∀ t, (mm.objAllocPool t).objUsed = 0) →
      ∀ t, ((registerObjAllocator mm n).2.objAllocPool t).objUsed = 0 := by
    intro mm n hz t
    unfold registerObjAllocator
    dsimp only
    cases (List.range maxObjAllocatorNum).find? (fun token => (mm.objAllocPool token).objsize = 0) with
    | none => exact hz t
    | some u =>
        by_cases htu : t = u
        · subst htu
          simp [initObjAlloc]
        · simp only [initObjAlloc]
          rw [Mm.updatePool_ne _ _ _ _ htu]
          exact hz t
  have hturns : ∀ (is : List Nat) (mm : Mm), (∀ t, (mm.objAllocPool t).objUsed = 0) →
      ∀ t, ((is.foldl (fun mm i => (registerObjAllocator mm (2 ^ i)).2) mm).objAllocPool t).objUsed = 0 := by
    intro is
    induction is with
    | nil => exact fun _ hz => hz
    | cons i is ih => exact fun mm hz => ih _ (hregister mm _ hz)
  obtain ⟨mm₀, c, hrun, _, _, _, _, hobj⟩ := freeAreaInit_spec
  rw [mmInit, hrun, ok_bind] at h
  obtain rfl := Except.ok.inj h
  exact hturns _ mm₀ (fun u => by rw [hobj.pool]; rfl) t

end OsdiKernel
