import Mathlib.Data.List.Chain
import Mathlib.Logic.Function.Basic

/-!
# Intrusive rings

A circular doubly linked list threaded through its own members: every node
carries a forward and a backward pointer, the list head is a node like any
other, and an empty list is a head that points at itself. A pointer that was
never set is NULL, written `none`.

A ring is described by what a traversal of it sees. `IsRing l h xs` says that
starting at `h` the forward pointers visit exactly `xs`, once each, and return,
and that the backward pointers undo them. The two edits — splice a node in,
bypass a node — are then edits of `xs`.

`Rings l hd c` is the same for a whole family of rings sharing one pool of
nodes: `c h` is what the ring headed by `h` holds, and no node is on two rings.
That is the form an allocator needs, where one node moves from list to list.
-/

namespace OsdiKernel

/-- The two pointers of every node. -/
structure Links (ν : Type) where
  next : ν → Option ν
  prev : ν → Option ν

namespace Links

variable {ν : Type} [DecidableEq ν]

/-- Make `h` an empty ring of its own. -/
def selfLoop (l : Links ν) (h : ν) : Links ν where
  next := Function.update l.next h (some h)
  prev := Function.update l.prev h (some h)

/-- Put `n` between `p` and `q`. -/
def splice (l : Links ν) (n p q : ν) : Links ν where
  next := Function.update (Function.update l.next n (some q)) p (some n)
  prev := Function.update (Function.update l.prev q (some n)) n (some p)

/-- Make `p` and `q` point at each other, skipping whatever is between. -/
def bypass (l : Links ν) (p q : ν) : Links ν where
  next := Function.update l.next p (some q)
  prev := Function.update l.prev q (some p)

/-- `b` follows `a`, in both directions. -/
def Linked (l : Links ν) (a b : ν) : Prop := l.next a = some b ∧ l.prev b = some a

end Links

open Links

variable {ν : Type}

/-! ## Chains of linked nodes -/

/-- A chain reads the forward pointer of all but its last node, and the backward
pointer of all but its first. -/
theorem chain_congr {l l' : Links ν} :
    ∀ {L : List ν}, L.IsChain l.Linked →
      (∀ x ∈ L.dropLast, l'.next x = l.next x) → (∀ x ∈ L.tail, l'.prev x = l.prev x) →
      L.IsChain l'.Linked
  | [], _, _, _ => .nil
  | [_], _, _, _ => .singleton _
  | x :: y :: rest, hc, hn, hp => by
      rw [List.isChain_cons_cons] at hc ⊢
      have hx : l'.next x = l.next x := hn x (by simp)
      have hy : l'.prev y = l.prev y := hp y (by simp)
      refine ⟨⟨hx.trans hc.1.1, hy.trans hc.1.2⟩, chain_congr hc.2 ?_ ?_⟩
      · intro z hz; exact hn z (by simp [hz])
      · intro z hz; exact hp z (by simp only [List.tail_cons] at hz ⊢; exact List.mem_cons_of_mem _ hz)

/-- What the endpoints of an edit are allowed to be, from the two ways a ring
walk is free of repetition. -/
theorem edit_fresh {as m bs : List ν} {p q : ν}
    (hd : (as ++ p :: (m ++ q :: bs)).dropLast.Nodup)
    (ht : (as ++ p :: (m ++ q :: bs)).tail.Nodup) :
    p ∉ as ∧ p ∉ (q :: bs).dropLast ∧ q ∉ (as ++ [p]).tail ∧ q ∉ bs := by
  have hd' : (as ++ p :: (m ++ q :: bs)).dropLast = as ++ p :: (m ++ (q :: bs).dropLast) := by
    rw [show as ++ p :: (m ++ q :: bs) = (as ++ p :: m) ++ q :: bs by simp,
      List.dropLast_append_of_ne_nil (by simp)]
    simp
  have ht' : (as ++ p :: (m ++ q :: bs)).tail = (as ++ [p]).tail ++ (m ++ q :: bs) := by
    cases as <;> simp
  rw [hd'] at hd
  rw [ht'] at ht
  simp only [List.nodup_append, List.nodup_cons, List.mem_append, List.mem_cons] at hd ht
  refine ⟨fun h => ?_, fun h => ?_, fun h => ?_, ht.2.1.2.1.1⟩
  · exact hd.2.2 p h p (Or.inl rfl) rfl
  · exact hd.2.1.1 (Or.inr h)
  · exact ht.2.2 q h q (Or.inr (Or.inl rfl)) rfl

variable [DecidableEq ν]

theorem chain_splice {l : Links ν} {as bs : List ν} {n p q : ν}
    (hc : (as ++ p :: q :: bs).IsChain l.Linked)
    (hd : (as ++ p :: q :: bs).dropLast.Nodup) (ht : (as ++ p :: q :: bs).tail.Nodup)
    (hn : n ∉ as ++ p :: q :: bs) :
    (as ++ p :: n :: q :: bs).IsChain (l.splice n p q).Linked := by
  obtain ⟨hp1, hp2, hq1, hq2⟩ := edit_fresh (m := []) hd ht
  simp only [List.mem_append, List.mem_cons, not_or] at hn
  obtain ⟨hna, hnp, hnq, hnb⟩ := hn
  rw [List.isChain_append_cons_cons] at hc
  obtain ⟨h1, _, h2⟩ := hc
  rw [List.isChain_append_cons_cons, List.isChain_cons_cons]
  refine ⟨chain_congr h1 ?_ ?_, ⟨?_, ?_⟩, ⟨?_, ?_⟩, chain_congr h2 ?_ ?_⟩
  · intro x hx
    have hxa : x ∈ as := by simpa using hx
    have hxp : x ≠ p := fun he => hp1 (he ▸ hxa)
    have hxn : x ≠ n := fun he => hna (he ▸ hxa)
    simp [splice, Function.update_of_ne hxp, Function.update_of_ne hxn]
  · intro x hx
    have hxq : x ≠ q := fun he => hq1 (he ▸ hx)
    have hxn : x ≠ n := by
      rintro rfl
      rcases List.mem_append.mp (List.mem_of_mem_tail hx) with h | h
      · exact hna h
      · exact hnp (List.mem_singleton.mp h)
    simp [splice, Function.update_of_ne hxq, Function.update_of_ne hxn]
  · simp [splice]
  · simp [splice]
  · simp [splice, Function.update_of_ne hnp]
  · simp [splice, Function.update_of_ne (Ne.symm hnq)]
  · intro x hx
    have hxp : x ≠ p := fun he => hp2 (he ▸ hx)
    have hxn : x ≠ n := by
      rintro rfl
      rcases List.mem_cons.mp (List.dropLast_subset _ hx) with h | h
      · exact hnq h
      · exact hnb h
    simp [splice, Function.update_of_ne hxp, Function.update_of_ne hxn]
  · intro x hx
    have hxq : x ≠ q := fun he => hq2 (he ▸ hx)
    have hxn : x ≠ n := fun he => hnb (he ▸ hx)
    simp [splice, Function.update_of_ne hxq, Function.update_of_ne hxn]

theorem chain_bypass {l : Links ν} {as bs : List ν} {n p q : ν}
    (hc : (as ++ p :: n :: q :: bs).IsChain l.Linked)
    (hd : (as ++ p :: n :: q :: bs).dropLast.Nodup) (ht : (as ++ p :: n :: q :: bs).tail.Nodup) :
    (as ++ p :: q :: bs).IsChain (l.bypass p q).Linked := by
  obtain ⟨hp1, hp2, hq1, hq2⟩ := edit_fresh (m := [n]) hd ht
  rw [List.isChain_append_cons_cons, List.isChain_cons_cons] at hc
  obtain ⟨h1, _, _, h2⟩ := hc
  rw [List.isChain_append_cons_cons]
  refine ⟨chain_congr h1 ?_ ?_, ⟨by simp [bypass], by simp [bypass]⟩, chain_congr h2 ?_ ?_⟩
  · intro x hx
    have hxa : x ∈ as := by simpa using hx
    exact Function.update_of_ne (ne_of_mem_of_not_mem hxa hp1) _ _
  · intro x hx
    exact Function.update_of_ne (ne_of_mem_of_not_mem hx hq1) _ _
  · intro x hx
    exact Function.update_of_ne (ne_of_mem_of_not_mem hx hp2) _ _
  · intro x hx
    exact Function.update_of_ne (ne_of_mem_of_not_mem hx hq2) _ _

/-! ## One ring -/

/-- From `h`, the forward pointers visit exactly `xs`, once each, and come back;
the backward pointers undo them. -/
structure IsRing (l : Links ν) (h : ν) (xs : List ν) : Prop where
  /-- No node is met twice on the way round. -/
  nodup : (h :: xs).Nodup
  /-- Consecutive nodes point at each other. -/
  chain : (h :: (xs ++ [h])).IsChain l.Linked

namespace IsRing

variable {l l' : Links ν} {h n : ν} {xs : List ν}

omit [DecidableEq ν] in
/-- A ring is a statement about the pointers of its own nodes only. -/
theorem congr (hr : IsRing l h xs)
    (ha : ∀ x ∈ h :: xs, l'.next x = l.next x ∧ l'.prev x = l.prev x) : IsRing l' h xs := by
  refine ⟨hr.nodup, chain_congr hr.chain ?_ ?_⟩
  · intro x hx
    rw [← List.cons_append, List.dropLast_concat] at hx
    exact (ha x hx).1
  · intro x hx
    refine (ha x ?_).2
    simpa [or_comm] using hx

theorem selfLoop (l : Links ν) (h : ν) : IsRing (l.selfLoop h) h [] :=
  ⟨by simp, by simp [Linked, Links.selfLoop]⟩

omit [DecidableEq ν] in
theorem next_cons {x : ν} (hr : IsRing l h (x :: xs)) : l.next h = some x := by
  have hc := hr.chain
  rw [List.cons_append, List.isChain_cons_cons] at hc
  exact hc.1.1

omit [DecidableEq ν] in
/-- The emptiness test of an intrusive list reads one pointer. -/
theorem next_self_iff (hr : IsRing l h xs) : l.next h = some h ↔ xs = [] := by
  cases xs with
  | nil =>
      have hc := hr.chain
      rw [List.nil_append, List.isChain_cons_cons] at hc
      exact ⟨fun _ => rfl, fun _ => hc.1.1⟩
  | cons x xs =>
      have hne : x ≠ h := fun he => (List.nodup_cons.mp hr.nodup).1 (by simp [he])
      rw [hr.next_cons]
      simp [hne]

omit [DecidableEq ν] in
/-- The walk round a ring, head at both ends, repeats nothing else. -/
theorem walk_nodup (hr : IsRing l h xs) :
    (h :: (xs ++ [h])).dropLast.Nodup ∧ (h :: (xs ++ [h])).tail.Nodup := by
  refine ⟨?_, ?_⟩
  · rw [← List.cons_append, List.dropLast_concat]; exact hr.nodup
  · rw [List.tail_cons]
    exact (List.perm_append_singleton h xs).nodup_iff.mpr hr.nodup

omit [DecidableEq ν] in
/-- What a traversal sees is determined by the pointers. -/
theorem unique {ys : List ν} (hx : IsRing l h xs) (hy : IsRing l h ys) : xs = ys := by
  have walk : ∀ (xs ys : List ν) (a : ν), (a :: (xs ++ [h])).IsChain l.Linked →
      (a :: (ys ++ [h])).IsChain l.Linked → h ∉ xs → h ∉ ys → xs = ys := by
    intro xs
    induction xs with
    | nil =>
        intro ys a hcx hcy _ hny
        cases ys with
        | nil => rfl
        | cons y ys =>
            rw [List.nil_append, List.isChain_cons_cons] at hcx
            rw [List.cons_append, List.isChain_cons_cons] at hcy
            have : h = y := Option.some.inj (hcx.1.1.symm.trans hcy.1.1)
            exact absurd (by simp [this]) hny
    | cons x xs ih =>
        intro ys a hcx hcy hnx hny
        rw [List.cons_append, List.isChain_cons_cons] at hcx
        cases ys with
        | nil =>
            rw [List.nil_append, List.isChain_cons_cons] at hcy
            have : x = h := Option.some.inj (hcx.1.1.symm.trans hcy.1.1)
            exact absurd (by simp [this]) hnx
        | cons y ys =>
            rw [List.cons_append, List.isChain_cons_cons] at hcy
            have he : x = y := Option.some.inj (hcx.1.1.symm.trans hcy.1.1)
            subst he
            rw [ih ys x hcx.2 hcy.2 (fun hm => hnx (List.mem_cons_of_mem _ hm))
              (fun hm => hny (List.mem_cons_of_mem _ hm))]
  exact walk xs ys h hx.chain hy.chain (List.nodup_cons.mp hx.nodup).1 (List.nodup_cons.mp hy.nodup).1

/-- A node spliced in just before another, or before the head, is met just before it. -/
theorem splice_at {as bs : List ν} (hr : IsRing l h (as ++ bs)) (hn : n ∉ h :: (as ++ bs)) :
    ∃ p, l.prev (bs.headD h) = some p ∧ l.next p = some (bs.headD h) ∧ p ∈ h :: (as ++ bs) ∧
      IsRing (l.splice n p (bs.headD h)) h (as ++ n :: bs) := by
  obtain ⟨cs, p, hp⟩ : ∃ cs p, h :: as = cs ++ [p] := by
    rcases List.eq_nil_or_concat (h :: as) with he | ⟨cs, p, he⟩
    · exact absurd he (by simp)
    · exact ⟨cs, p, by simpa using he⟩
  obtain ⟨ds, hq⟩ : ∃ ds, bs ++ [h] = bs.headD h :: ds := by
    cases bs with
    | nil => exact ⟨[], rfl⟩
    | cons b bs => exact ⟨bs ++ [h], rfl⟩
  have hw : h :: ((as ++ bs) ++ [h]) = cs ++ p :: bs.headD h :: ds := by
    rw [List.append_assoc, ← List.cons_append, hp, hq]; simp
  have hc := hr.chain
  obtain ⟨hd, ht⟩ := hr.walk_nodup
  have hnw : n ∉ h :: ((as ++ bs) ++ [h]) := by
    simp only [List.mem_cons, List.mem_append, List.not_mem_nil, or_false, not_or] at hn ⊢
    exact ⟨hn.1, hn.2, hn.1⟩
  rw [hw] at hc hd ht hnw
  have hsplice := chain_splice hc hd ht hnw
  rw [List.isChain_append_cons_cons] at hc
  refine ⟨p, hc.2.1.2, hc.2.1.1, ?_, ?_, ?_⟩
  · have hpm : p ∈ h :: as := hp ▸ by simp
    rw [← List.cons_append]
    exact List.mem_append_left bs hpm
  · rw [← List.cons_append]
    refine (List.perm_middle (a := n)).nodup_iff.mpr (List.nodup_cons.mpr ⟨?_, ?_⟩)
    · rwa [List.cons_append]
    · rw [List.cons_append]
      exact hr.nodup
  · have hw' : h :: ((as ++ n :: bs) ++ [h]) = cs ++ p :: n :: bs.headD h :: ds := by
      rw [List.append_assoc, List.cons_append, hq, ← List.cons_append, hp]; simp
    rwa [hw']

/-- A node spliced in just before the head becomes the last one. -/
theorem splice_tail (hr : IsRing l h xs) (hn : n ∉ h :: xs) :
    ∃ p, l.prev h = some p ∧ p ∈ h :: xs ∧ IsRing (l.splice n p h) h (xs ++ [n]) := by
  have hr₀ : IsRing l h (xs ++ []) := by rwa [List.append_nil]
  have hn₀ : n ∉ h :: (xs ++ []) := by rwa [List.append_nil]
  obtain ⟨p, hp, _, hm, hr'⟩ := splice_at hr₀ hn₀
  rw [List.append_nil] at hm
  exact ⟨p, hp, hm, hr'⟩

omit [DecidableEq ν] in
/-- What follows a member. -/
theorem next_mid {as bs : List ν} {x : ν} (hr : IsRing l h (as ++ x :: bs)) :
    l.next x = some (bs.headD h) := by
  have hc := hr.chain
  rw [List.append_assoc, List.cons_append, ← List.cons_append, List.isChain_append] at hc
  have h2 := hc.2.1
  cases bs with
  | nil =>
      rw [List.nil_append, List.isChain_cons_cons] at h2
      exact h2.1.1
  | cons b bs =>
      rw [List.cons_append, List.isChain_cons_cons] at h2
      exact h2.1.1

omit [DecidableEq ν] in
/-- What follows the head. -/
theorem next_head (hr : IsRing l h xs) : l.next h = some (xs.headD h) := by
  cases xs with
  | nil => exact hr.next_self_iff.mpr rfl
  | cons x xs => exact hr.next_cons

/-- Bypassing a member removes exactly it. -/
theorem bypass (hr : IsRing l h xs) (hx : n ∈ xs) :
    ∃ p q, l.prev n = some p ∧ l.next n = some q ∧ p ∈ h :: xs ∧ q ∈ h :: xs ∧
      IsRing (l.bypass p q) h (xs.erase n) := by
  obtain ⟨ys, zs, rfl⟩ := List.append_of_mem hx
  obtain ⟨as, p, hp⟩ : ∃ as p, h :: ys = as ++ [p] := by
    rcases List.eq_nil_or_concat (h :: ys) with he | ⟨as, p, he⟩
    · exact absurd he (by simp)
    · exact ⟨as, p, by simpa using he⟩
  obtain ⟨q, bs, hq⟩ : ∃ q bs, zs ++ [h] = q :: bs := by
    cases zs with
    | nil => exact ⟨h, [], rfl⟩
    | cons z zs => exact ⟨z, zs ++ [h], rfl⟩
  have hw : h :: ((ys ++ n :: zs) ++ [h]) = as ++ p :: n :: q :: bs := by
    rw [List.append_assoc, ← List.cons_append, hp, List.cons_append, hq]; simp
  have hc := hr.chain
  obtain ⟨hd, ht⟩ := hr.walk_nodup
  rw [hw] at hc hd ht
  have hnys : n ∉ ys := by
    have hnd := (List.nodup_cons.mp hr.nodup).2
    rw [List.nodup_append] at hnd
    exact fun hm => hnd.2.2 n hm n (by simp) rfl
  have herase : (ys ++ n :: zs).erase n = ys ++ zs := by
    rw [List.erase_append_right _ hnys, List.erase_cons_head]
  have hb := chain_bypass hc hd ht
  rw [List.isChain_append_cons_cons, List.isChain_cons_cons] at hc
  refine ⟨p, q, hc.2.1.2, hc.2.2.1.1, ?_, ?_, ?_, ?_⟩
  · have : p ∈ h :: ys := hp ▸ by simp
    simp only [List.mem_cons, List.mem_append] at this ⊢
    tauto
  · have : q ∈ zs ++ [h] := hq ▸ by simp
    simp only [List.mem_cons, List.mem_append, List.not_mem_nil] at this ⊢
    tauto
  · rw [herase]
    refine hr.nodup.sublist (List.Sublist.cons_cons h ?_)
    exact List.Sublist.append_left (List.sublist_cons_self n zs) ys
  · rw [herase]
    have hw' : h :: (ys ++ zs ++ [h]) = as ++ p :: q :: bs := by
      rw [List.append_assoc, hq, ← List.cons_append, hp]; simp
    rwa [hw']

/-- Bypassing the first member, whose own pointers are left as they were. -/
theorem bypass_first (hr : IsRing l h (n :: xs)) :
    l.prev n = some h ∧ l.next n = some (xs.headD h) ∧
      (l.bypass h (xs.headD h)).next n = some (xs.headD h) ∧ IsRing (l.bypass h (xs.headD h)) h xs := by
  obtain ⟨p, q, hp, hq, _, _, hring⟩ := hr.bypass List.mem_cons_self
  have hprev : l.prev n = some h := by
    have hchain := hr.chain
    rw [List.cons_append, List.isChain_cons_cons] at hchain
    exact hchain.1.2
  have hnext : l.next n = some (xs.headD h) := next_mid (show IsRing l h ([] ++ n :: xs) from hr)
  have hne : n ≠ h := fun he => (List.nodup_cons.mp hr.nodup).1 (he ▸ List.mem_cons_self)
  obtain rfl := Option.some.inj (hp.symm.trans hprev)
  obtain rfl := Option.some.inj (hq.symm.trans hnext)
  rw [List.erase_cons_head] at hring
  exact ⟨hprev, hnext, (Function.update_of_ne hne _ _).trans hnext, hring⟩

end IsRing

/-! ## A family of rings over one pool of nodes -/

/-- `c h` is what the ring headed by `h` holds, for every `h` that is a head. -/
structure Rings (l : Links ν) (hd : ν → Prop) (c : ν → List ν) : Prop where
  /-- Every head heads a ring. -/
  ring : ∀ h, hd h → IsRing l h (c h)
  /-- No head is a member of a ring. -/
  notHead : ∀ h, hd h → ∀ x ∈ c h, ¬ hd x
  /-- No node is on two rings. -/
  apart : ∀ h h', hd h → hd h' → ∀ x, x ∈ c h → x ∈ c h' → h = h'

/-- A node that is neither a head nor on any ring. -/
def Loose (hd : ν → Prop) (c : ν → List ν) (n : ν) : Prop := ¬ hd n ∧ ∀ h, hd h → n ∉ c h

omit [DecidableEq ν] in
theorem Loose.not_on {hd : ν → Prop} {c : ν → List ν} {h n : ν} (hl : Loose hd c n) (hh : hd h) :
    n ∉ h :: c h := by
  simp only [List.mem_cons, not_or]
  exact ⟨fun he => hl.1 (he ▸ hh), hl.2 h hh⟩

namespace Rings

variable {l l' : Links ν} {hd : ν → Prop} {c : ν → List ν} {h n : ν} {xs : List ν}

omit [DecidableEq ν] in
/-- Rings are a statement about the pointers of heads and members only. -/
theorem congr (hr : Rings l hd c)
    (ha : ∀ x, ¬ Loose hd c x → l'.next x = l.next x ∧ l'.prev x = l.prev x) : Rings l' hd c := by
  refine ⟨fun h hh => (hr.ring h hh).congr (fun x hx => ha x (fun hl => ?_)), hr.notHead, hr.apart⟩
  rcases List.mem_cons.mp hx with rfl | hx
  · exact hl.1 hh
  · exact hl.2 h hh hx

/-- Rewriting the pointers of one ring, and of loose nodes that join it, leaves
every other ring alone. -/
theorem edit (hr : Rings l hd c) (hh : hd h) (hring : IsRing l' h xs)
    (hmem : ∀ x ∈ xs, x ∈ c h ∨ Loose hd c x)
    (hout : ∀ x, x ∉ h :: c h → x ∉ xs → l'.next x = l.next x ∧ l'.prev x = l.prev x) :
    Rings l' hd (Function.update c h xs) := by
  have hne : ∀ h', h' ≠ h → Function.update c h xs h' = c h' :=
    fun h' he => Function.update_of_ne he _ _
  have hsep : ∀ h', hd h' → h' ≠ h → ∀ x ∈ c h', x ∉ xs := by
    intro h' hh' he x hx hxs
    rcases hmem x hxs with hm | hm
    · exact he (hr.apart h' h hh' hh x hx hm)
    · exact hm.2 h' hh' hx
  refine ⟨?_, ?_, ?_⟩
  · intro h' hh'
    by_cases he : h' = h
    · subst he; rw [Function.update_self]; exact hring
    · rw [hne h' he]
      refine (hr.ring h' hh').congr (fun x hx => hout x ?_ ?_)
      · rcases List.mem_cons.mp hx with hx | hx
        · subst hx
          simp only [List.mem_cons, not_or]
          exact ⟨he, fun hm => hr.notHead h hh x hm hh'⟩
        · simp only [List.mem_cons, not_or]
          refine ⟨fun hxh => hr.notHead h' hh' x hx (hxh ▸ hh), fun hm => ?_⟩
          exact he (hr.apart h' h hh' hh x hx hm)
      · rcases List.mem_cons.mp hx with hx | hx
        · subst hx
          intro hxs
          rcases hmem x hxs with hm | hm
          · exact hr.notHead h hh x hm hh'
          · exact hm.1 hh'
        · exact hsep h' hh' he x hx
  · intro h' hh' x hx
    by_cases he : h' = h
    · subst he; rw [Function.update_self] at hx
      rcases hmem x hx with hm | hm
      · exact hr.notHead h' hh' x hm
      · exact hm.1
    · rw [hne h' he] at hx; exact hr.notHead h' hh' x hx
  · intro h₁ h₂ hh₁ hh₂ x hx₁ hx₂
    by_cases he₁ : h₁ = h <;> by_cases he₂ : h₂ = h
    · rw [he₁, he₂]
    · subst he₁; rw [Function.update_self] at hx₁; rw [hne h₂ he₂] at hx₂
      exact absurd hx₁ (hsep h₂ hh₂ he₂ x hx₂)
    · subst he₂; rw [Function.update_self] at hx₂; rw [hne h₁ he₁] at hx₁
      exact absurd hx₂ (hsep h₁ hh₁ he₁ x hx₁)
    · rw [hne h₁ he₁] at hx₁; rw [hne h₂ he₂] at hx₂
      exact hr.apart h₁ h₂ hh₁ hh₂ x hx₁ hx₂

/-- A loose node may become the head of a new, empty ring. -/
theorem selfLoop (hr : Rings l hd c) (hl : Loose hd c h) :
    Rings (l.selfLoop h) (fun x => x = h ∨ hd x) (Function.update c h []) := by
  have hne : ∀ h', hd h' → h' ≠ h := fun h' hh' he => hl.1 (he ▸ hh')
  have hc : ∀ h', hd h' → Function.update c h [] h' = c h' :=
    fun h' hh' => Function.update_of_ne (hne h' hh') _ _
  refine ⟨?_, ?_, ?_⟩
  · rintro h' (rfl | hh')
    · rw [Function.update_self]; exact IsRing.selfLoop l _
    · rw [hc h' hh']
      refine (hr.ring h' hh').congr (fun x hx => ?_)
      have hxh : x ≠ h := by
        rcases List.mem_cons.mp hx with hx | hx
        · exact hx ▸ hne h' hh'
        · exact fun he => hl.2 h' hh' (he ▸ hx)
      exact ⟨Function.update_of_ne hxh _ _, Function.update_of_ne hxh _ _⟩
  · rintro h' (rfl | hh') x hx
    · simp at hx
    · rw [hc h' hh'] at hx
      rintro (rfl | hhx)
      · exact hl.2 h' hh' hx
      · exact hr.notHead h' hh' x hx hhx
  · rintro h₁ h₂ (rfl | hh₁) (rfl | hh₂) x hx₁ hx₂
    · rfl
    · simp at hx₁
    · simp at hx₂
    · rw [hc h₁ hh₁] at hx₁; rw [hc h₂ hh₂] at hx₂
      exact hr.apart h₁ h₂ hh₁ hh₂ x hx₁ hx₂

/-- **Append.** A loose node spliced in before a head joins that ring at its end;
the other loose nodes are not touched. -/
theorem splice_tail (hr : Rings l hd c) (hh : hd h) (hl : Loose hd c n) :
    ∃ p, l.prev h = some p ∧
      Rings (l.splice n p h) hd (Function.update c h (c h ++ [n])) ∧
      ∀ x, Loose hd c x → x ≠ n → (l.splice n p h).next x = l.next x := by
  have hnh : n ≠ h := fun he => hl.1 (he ▸ hh)
  obtain ⟨p, hp, hpm, hring⟩ := (hr.ring h hh).splice_tail (n := n)
    (by simp only [List.mem_cons, not_or]; exact ⟨hnh, hl.2 h hh⟩)
  refine ⟨p, hp, hr.edit hh hring ?_ ?_, ?_⟩
  · intro x hx
    rcases List.mem_append.mp hx with hx | hx
    · exact Or.inl hx
    · exact Or.inr (List.mem_singleton.mp hx ▸ hl)
  · intro x hx hxs
    have hxp : x ≠ p := fun he => hx (he ▸ hpm)
    have hxh : x ≠ h := fun he => hx (by simp [he])
    have hxn : x ≠ n := fun he => hxs (by simp [he])
    simp [splice, Function.update_of_ne hxp, Function.update_of_ne hxh, Function.update_of_ne hxn]
  · intro x hx hxn
    have hxp : x ≠ p := fun he => hx.not_on hh (by rw [he]; exact hpm)
    simp [splice, Function.update_of_ne hxp, Function.update_of_ne hxn]

/-- **Unlink.** Bypassing a member takes it off its ring and off no other, and
touches no loose node. -/
theorem bypass (hr : Rings l hd c) (hh : hd h) (hx : n ∈ c h) :
    ∃ p q, l.prev n = some p ∧ l.next n = some q ∧
      Rings (l.bypass p q) hd (Function.update c h ((c h).erase n)) ∧
      ∀ x, Loose hd c x → (l.bypass p q).next x = l.next x := by
  obtain ⟨p, q, hp, hq, hpm, hqm, hring⟩ := (hr.ring h hh).bypass hx
  refine ⟨p, q, hp, hq, hr.edit hh hring (fun x hx' => Or.inl (List.mem_of_mem_erase hx')) ?_, ?_⟩
  · intro x hx' _
    have hxp : x ≠ p := fun he => hx' (he ▸ hpm)
    have hxq : x ≠ q := fun he => hx' (he ▸ hqm)
    exact ⟨Function.update_of_ne hxp _ _, Function.update_of_ne hxq _ _⟩
  · intro x hx'
    have hxp : x ≠ p := fun he => hx'.not_on hh (by rw [he]; exact hpm)
    exact Function.update_of_ne hxp _ _

end Rings

end OsdiKernel
