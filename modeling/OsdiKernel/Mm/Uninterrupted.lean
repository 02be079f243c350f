import OsdiKernel.Mm.Preempted

/-!
# `sys_malloc` without interruption

The statements a call goes through, if nothing comes between them, are `kmalloc`
as `Slab` has it. The proof follows the branches of `obj_allocate` from the end:
with an address, with a current page, with a page to take off a list or to
demand, from the beginning.
-/

namespace OsdiKernel

variable {mm mm' : Mm} {x y : MallocPc} {n t page : Nat}

theorem mallocStatements_next (hx : ∀ owner addr, x ≠ .ret owner addr) (h : mallocStatement mm x = .ok (mm', y)) :
    mallocStatements (n + 1) mm x = mallocStatements n mm' y := by
  rw [mallocStatements, h, ok_bind]
  exact hx

theorem mallocStatements_fault {e : Fault} (hx : ∀ owner addr, x ≠ .ret owner addr) (h : mallocStatement mm x = .error e) :
    mallocStatements (n + 1) mm x = .error e := by
  rw [mallocStatements, h, error_bind]
  exact hx

theorem mallocStatements_ret (owner : Owner) (addr : Nat) : mallocStatements n mm (.ret owner addr) = .ok (mm, .ret owner addr) := by
  cases n <;> rfl

/-- `curr_page` is where it was. -/
theorem currPageOf_some (hc : (mm.objAllocPool t).currPage = some page) : currPageOf mm t = .ok page := by
  rw [currPageOf, hc]

/-- From the address on. -/
theorem countObj_statements (hc : (mm.objAllocPool t).currPage = some page) (a : Nat) :
    mallocStatements (n + 5) mm (.countObj t a) =
      (let mm := mm.updatePool t (fun a => { a with objUsed := a.objUsed + 1 })
       let mm := mm.updatePage page (fun p => { p with objUsed := p.objUsed + 1 })
       if (mm.objAllocPool t).objPerPage = (mm.bookkeep page).objUsed then do
         let mm ← mm.onLinks (listAddTail · (.frame page) (.fullList t))
         .ok (mm.updatePool t (fun a => { a with currPage := none }), .ret (.slab t) a)
       else .ok (mm, .ret (.slab t) a)) := by
  have hcurr : ((mm.updatePool t (fun a => { a with objUsed := a.objUsed + 1 })).objAllocPool t).currPage = some page := by
    rw [mm.updatePool_self]
    exact hc
  rw [mallocStatements_next (by simp) rfl, mallocStatements_next (by simp)
    (by simp only [mallocStatement, currPageOf_some hcurr, ok_bind]; rfl)]
  -- the statements read `curr_page` again each time, and find what was there
  generalize mm.updatePool t (fun a => { a with objUsed := a.objUsed + 1 }) = mm at hcurr
  dsimp only
  generalize hmm : mm.updatePage page (fun p => { p with objUsed := p.objUsed + 1 }) = mm₂
  have hcurr₂ : (mm₂.objAllocPool t).currPage = some page := by
    rw [← hmm, mm.updatePage_pool]
    exact hcurr
  rw [mallocStatements_next (by simp) (by simp only [mallocStatement, currPageOf_some hcurr₂, ok_bind]; rfl)]
  by_cases hfull : (mm₂.objAllocPool t).objPerPage = (mm₂.bookkeep page).objUsed
  · rw [if_pos hfull, if_pos hfull]
    cases hput : mm₂.onLinks (listAddTail · (.frame page) (.fullList t)) with
    | error e =>
        rw [mallocStatements_fault (by simp) (by simp only [mallocStatement, currPageOf_some hcurr₂, ok_bind, hput, error_bind]; rfl)]
        rfl
    | ok mm₃ =>
        rw [mallocStatements_next (by simp) (by simp only [mallocStatement, currPageOf_some hcurr₂, ok_bind, hput]; rfl),
          mallocStatements_next (by simp) rfl, mallocStatements_ret]
        rfl
  · rw [if_neg hfull, if_neg hfull, mallocStatements_ret]

/-- The second half of `obj_allocate`. -/
theorem takeObject_statements (hc : (mm.objAllocPool t).currPage = some page) :
    mallocStatements (n + 7) mm (.readFree t) = (takeObject mm t).map (fun r => (r.2, .ret (.slab t) r.1)) := by
  rw [takeObject, hc]
  dsimp only
  cases hfree : (mm.bookkeep page).free with
  | some objFreelist =>
      -- one statement fewer than without a chain
      rw [mallocStatements_next (by simp) (by simp only [mallocStatement, currPageOf_some hc, ok_bind, hfree]; rfl)]
      rw [countObj_statements (n := n + 1) hc]
      dsimp only
      split
      · cases Mm.onLinks _ _ <;> rfl
      · rfl
  | none =>
      rw [mallocStatements_next (by simp) (by simp only [mallocStatement, currPageOf_some hc, ok_bind, hfree]; rfl),
        mallocStatements_next (by simp) (by simp only [mallocStatement, currPageOf_some hc, ok_bind]; rfl), countObj_statements hc]
      dsimp only
      split
      · cases Mm.onLinks _ _ <;> rfl
      · rfl

/-- With the current page in hand. -/
theorem setCurr_statements :
    mallocStatements (n + 8) mm (.setCurr t page) =
      (takeObject (mm.updatePool t (fun a => { a with currPage := some page })) t).map (fun r => (r.2, .ret (.slab t) r.1)) := by
  rw [mallocStatements_next (by simp) rfl]
  exact takeObject_statements (by rw [mm.updatePool_self])

/-- With a page to take off one of the lists. -/
theorem takeFirst_statements (list : Link) :
    mallocStatements (n + 10) mm (.firstOf t list) = (do
      let (page, mm) ← takeFirst mm list
      (takeObject (mm.updatePool t (fun a => { a with currPage := some page })) t).map (fun r => (r.2, .ret (.slab t) r.1))) := by
  cases hpage : Link.toPage (mm.links.next list) with
  | error e =>
      rw [mallocStatements_fault (by simp) (by simp only [mallocStatement, hpage, error_bind]; rfl)]
      simp only [takeFirst, hpage, error_bind]
  | ok page =>
      rw [mallocStatements_next (by simp) (by simp only [mallocStatement, hpage, ok_bind]; rfl)]
      cases hdel : mm.onLinks (listDel · (.frame page)) with
      | error e =>
          rw [mallocStatements_fault (by simp) (by simp only [mallocStatement, hdel, error_bind]; rfl)]
          simp only [takeFirst, hpage, hdel, ok_bind, error_bind]
      | ok mm₁ =>
          rw [mallocStatements_next (by simp) (by simp only [mallocStatement, hdel, ok_bind]; rfl), setCurr_statements]
          simp only [takeFirst, hpage, hdel, ok_bind]

/-- With a page to demand. -/
theorem demandPage_statements :
    mallocStatements (n + 12) mm (.demand t) = (do
      let (page, mm) ← demandPage mm t
      (takeObject (mm.updatePool t (fun a => { a with currPage := some page })) t).map (fun r => (r.2, .ret (.slab t) r.1))) := by
  cases hblock : buddyBlockAlloc mm 0 with
  | error e =>
      rw [mallocStatements_fault (by simp) (by simp only [mallocStatement, hblock, error_bind]; rfl)]
      simp only [demandPage, hblock, error_bind]
  | ok r =>
      obtain ⟨block, mm₁⟩ := r
      cases block with
      | none =>
          rw [mallocStatements_fault (by simp) (by simp only [mallocStatement, hblock, ok_bind]; rfl)]
          simp only [demandPage, hblock, ok_bind, error_bind]
      | some page =>
          rw [mallocStatements_next (by simp) (by simp only [mallocStatement, hblock, ok_bind]; rfl),
            mallocStatements_next (by simp) rfl, mallocStatements_next (by simp) rfl, mallocStatements_next (by simp) rfl,
            setCurr_statements]
          simp only [demandPage, hblock, ok_bind]

/-- From the beginning. -/
theorem testCurr_statements :
    mallocStatements 15 mm (.testCurr t) = (do
      let mm ← refillCurrPage mm t
      (takeObject mm t).map (fun r => (r.2, .ret (.slab t) r.1))) := by
  unfold refillCurrPage
  cases hc : (mm.objAllocPool t).currPage with
  | some page =>
      have hnext : mallocStatement mm (.testCurr t) = .ok (mm, .readFree t) := by simp [mallocStatement, hc]
      rw [mallocStatements_next (by simp) hnext, takeObject_statements hc]
      rfl
  | none =>
      have hnext : mallocStatement mm (.testCurr t) = .ok (mm, .testPartial t) := by simp [mallocStatement, hc]
      rw [mallocStatements_next (by simp) hnext]
      cases hpartial : listEmpty mm.links (.partialList t) with
      | false =>
          have hfirst : mallocStatement mm (.testPartial t) = .ok (mm, .firstOf t (.partialList t)) := by
            simp [mallocStatement, hpartial]
          rw [mallocStatements_next (by simp) hfirst, takeFirst_statements]
          simp only [Bool.not_false, if_true]
          cases takeFirst mm (.partialList t) <;> rfl
      | true =>
          have hsecond : mallocStatement mm (.testPartial t) = .ok (mm, .testEmpty t) := by simp [mallocStatement, hpartial]
          rw [mallocStatements_next (by simp) hsecond]
          cases hempty : listEmpty mm.links (.emptyList t) with
          | false =>
              have hfirst : mallocStatement mm (.testEmpty t) = .ok (mm, .firstOf t (.emptyList t)) := by
                simp [mallocStatement, hempty]
              rw [mallocStatements_next (by simp) hfirst, takeFirst_statements]
              simp only [Bool.not_true, Bool.not_false, Bool.false_eq_true, if_false, if_true]
              cases takeFirst mm (.emptyList t) <;> rfl
          | true =>
              have hdemand : mallocStatement mm (.testEmpty t) = .ok (mm, .demand t) := by simp [mallocStatement, hempty]
              rw [mallocStatements_next (by simp) hdemand, demandPage_statements]
              simp only [Bool.not_true, Bool.false_eq_true, if_false]
              cases demandPage mm t <;> rfl

/-- **`kmalloc` is its statements**, one after the other. -/
theorem kmalloc_statements (mm : Mm) (size : Int) :
    kmalloc mm size = (mallocStatements 15 mm (mallocEntry size)).map (fun r => (r.2.addr, r.1)) := by
  unfold kmalloc mallocEntry
  cases hcls : kmallocClass size with
  | some i =>
      obtain ⟨h3, h11, _⟩ := kmallocClass_some hcls
      have hvalid : ¬ (((i - minKmallocOrder : Nat) : Int) < 0 ∨ ((i - minKmallocOrder : Nat) : Int) ≥ maxObjAllocatorNum) := by
        unfold minKmallocOrder maxObjAllocatorNum
        omega
      dsimp only
      rw [objAllocate, if_neg hvalid, Int.toNat_natCast, testCurr_statements]
      cases refillCurrPage mm (i - minKmallocOrder) with
      | error e => rfl
      | ok mm₁ =>
          simp only [ok_bind]
          cases takeObject mm₁ (i - minKmallocOrder) <;> rfl
  | none =>
      cases hord : kmallocOrder size with
      | none => rfl
      | some k =>
          dsimp only
          cases hblock : buddyBlockAlloc mm k with
          | error e =>
              rw [mallocStatements_fault (by simp) (by simp only [mallocStatement, hblock, error_bind]; rfl)]
              rfl
          | ok r =>
              obtain ⟨block, mm₁⟩ := r
              cases block with
              | none =>
                  rw [mallocStatements_fault (by simp) (by simp only [mallocStatement, hblock, ok_bind]; rfl)]
                  rfl
              | some page =>
                  rw [mallocStatements_next (by simp) (by simp only [mallocStatement, hblock, ok_bind]; rfl), mallocStatements_ret]
                  rfl

end OsdiKernel
