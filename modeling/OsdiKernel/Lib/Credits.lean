import Mathlib.Algebra.BigOperators.Fin
import Mathlib.Algebra.Order.Interval.Finset.Basic
import Mathlib.Data.Nat.Periodic
import Mathlib.Logic.Function.Iterate

/-!
# Turns by credit

Whoever is running pays a credit a tick, and goes on until it has none. Then
somebody who still has credit runs; when nobody has, everybody's credit is set
to a weight of its own. Who is chosen depends on the credits alone.

A round is paid for with what there is: it lasts as many ticks as there are
credits, and each runs for as long as it can pay (`round`). As rounds repeat
themselves, any stretch as long as one of them gives each exactly its weight, wherever it
begins (`window`).
-/

namespace OsdiKernel

variable {ι : Type} [Fintype ι] [DecidableEq ι]

/-- What everybody has left, and who runs. -/
structure Credits (ι : Type) where
  credit : ι → Nat
  current : ι

namespace Credits

/-- Once the one who runs has paid. -/
def spend (s : Credits ι) : ι → Nat := Function.update s.credit s.current (s.credit s.current - 1)

variable (w : ι → Nat) (pick : (ι → Nat) → ι)

/-- A fresh round. -/
def fresh : Credits ι := ⟨w, pick w⟩

/-- One tick. -/
def tick (s : Credits ι) : Credits ι :=
  if 0 < s.spend s.current then ⟨s.spend, s.current⟩
  else if ∃ p, 0 < s.spend p then ⟨s.spend, pick s.spend⟩
  else fresh w pick

/-- All credits. -/
def total (c : ι → Nat) : Nat := ∑ p, c p

/-- For how many of the first `n` ticks `p` runs. -/
def ran (s : Credits ι) (p : ι) (n : Nat) : Nat := ((Finset.range n).filter fun i => ((tick w pick)^[i] s).current = p).card

/-- The one who is chosen can pay, if anybody can. -/
def Sound : Prop := ∀ c : ι → Nat, (∃ p, 0 < c p) → 0 < c (pick c)

variable {w pick} {s : Credits ι}

theorem total_spend (h : 0 < s.credit s.current) : total s.spend + 1 = total s.credit := by
  have hold := Finset.add_sum_erase Finset.univ s.credit (Finset.mem_univ s.current)
  have hnew := Finset.add_sum_erase Finset.univ s.spend (Finset.mem_univ s.current)
  have hrest : ∑ p ∈ Finset.univ.erase s.current, s.spend p = ∑ p ∈ Finset.univ.erase s.current, s.credit p :=
    Finset.sum_congr rfl (fun p hp => Function.update_of_ne (Finset.ne_of_mem_erase hp) ..)
  have hself : s.spend s.current = s.credit s.current - 1 := Function.update_self ..
  unfold total
  omega

omit [DecidableEq ι] in
theorem total_pos {c : ι → Nat} : 0 < total c ↔ ∃ p, 0 < c p := by
  unfold total
  rw [Finset.sum_pos_iff]
  simp

/-- **A tick** while there are credits left. -/
theorem tick_spends (hs : Sound pick) (h : 0 < total s.spend) :
    (tick w pick s).credit = s.spend ∧ 0 < (tick w pick s).credit (tick w pick s).current := by
  unfold tick
  by_cases hmore : 0 < s.spend s.current
  · rw [if_pos hmore]
    exact ⟨rfl, hmore⟩
  · rw [if_neg hmore, if_pos (total_pos.mp h)]
    exact ⟨rfl, hs _ (total_pos.mp h)⟩

/-- **The tick** that pays the last one. -/
theorem tick_last (h : total s.spend = 0) : tick w pick s = fresh w pick := by
  have hno : ∀ p, ¬ 0 < s.spend p := fun p hp => by
    have hpos := total_pos.mpr ⟨p, hp⟩
    omega
  unfold tick
  rw [if_neg (hno _), if_neg (fun ⟨p, hp⟩ => hno p hp)]

theorem ran_succ (s : Credits ι) (p : ι) (n : Nat) :
    ran w pick s p (n + 1) = ran w pick (tick w pick s) p n + if s.current = p then 1 else 0 := by
  unfold ran
  rw [Finset.range_add_one', Finset.filter_insert]
  have hmap : ((Finset.range n).map ⟨fun i => i + 1, fun _ _ h => Nat.succ.inj h⟩).filter
      (fun i => ((tick w pick)^[i] s).current = p)
      = ((Finset.range n).filter fun i => ((tick w pick)^[i] (tick w pick s)).current = p).map
        ⟨fun i => i + 1, fun _ _ h => Nat.succ.inj h⟩ := by
    rw [Finset.filter_map]
    rfl
  rw [hmap]
  by_cases hp : s.current = p
  · rw [if_pos (show ((tick w pick)^[0] s).current = p from hp), if_pos hp, Finset.card_insert_of_notMem (by simp),
      Finset.card_map]
  · rw [if_neg (show ¬ ((tick w pick)^[0] s).current = p from hp), if_neg hp, Finset.card_map]
    rfl

/-- **A round** gives each what it can pay for, and then a new one begins. -/
theorem round (hs : Sound pick) : ∀ (n : Nat) (s : Credits ι), total s.credit = n → 0 < s.credit s.current →
    (tick w pick)^[n] s = fresh w pick ∧ ∀ p, ran w pick s p n = s.credit p
  | 0, s, hn, h => by
      have hpos := total_pos.mpr ⟨s.current, h⟩
      omega
  | n + 1, s, hn, h => by
      have htotal := total_spend h
      have hpaid : ∀ p, s.credit p = s.spend p + if s.current = p then 1 else 0 := by
        intro p
        by_cases hp : s.current = p
        · subst hp
          rw [spend, Function.update_self, if_pos rfl]
          omega
        · rw [spend, Function.update_of_ne (Ne.symm hp), if_neg hp, Nat.add_zero]
      by_cases hlast : n = 0
      · -- the last credit
        subst hlast
        have hzero : total s.spend = 0 := by omega
        refine ⟨tick_last hzero, fun p => ?_⟩
        have hp : s.spend p = 0 := by
          by_contra hne
          have hpos := total_pos.mpr ⟨p, Nat.pos_of_ne_zero hne⟩
          omega
        rw [ran_succ, hpaid p, hp]
        rfl
      · obtain ⟨hcredit, hlive⟩ := tick_spends (w := w) hs (s := s) (by omega)
        obtain ⟨hrest, hran⟩ := round hs n (tick w pick s) (by rw [hcredit]; omega) hlive
        refine ⟨hrest, fun p => ?_⟩
        rw [ran_succ, hran p, hcredit, hpaid p]

variable (hs : Sound pick) (hw : 0 < total w)
include hs hw

omit [DecidableEq ι] in
theorem fresh_live : 0 < (fresh w pick).credit (fresh w pick).current := hs w (total_pos.mp hw)

/-- Rounds repeat themselves. -/
theorem fresh_periodic : Function.Periodic (fun i => (tick w pick)^[i] (fresh w pick)) (total w) := by
  intro i
  show (tick w pick)^[i + total w] (fresh w pick) = _
  rw [Function.iterate_add_apply, (round hs (total w) _ rfl (fresh_live hs hw)).1]

/-- **Any stretch** of a round's length, once a round has begun, gives each exactly its weight. -/
theorem window (h : 0 < s.credit s.current) {t : Nat} (ht : total s.credit ≤ t) (p : ι) :
    ((Finset.Ico t (t + total w)).filter fun i => ((tick w pick)^[i] s).current = p).card = w p := by
  -- from the first fresh round on
  have hfrom : ∀ i, (tick w pick)^[total s.credit + i] s = (tick w pick)^[i] (fresh w pick) := by
    intro i
    rw [Nat.add_comm, Function.iterate_add_apply, (round hs _ s rfl h).1]
  obtain ⟨d, rfl⟩ := Nat.exists_eq_add_of_le ht
  have hshift : (Finset.Ico (total s.credit + d) (total s.credit + d + total w)).filter
      (fun i => ((tick w pick)^[i] s).current = p)
      = ((Finset.Ico d (d + total w)).filter fun i => ((tick w pick)^[i] (fresh w pick)).current = p).map
        (addLeftEmbedding (total s.credit)) := by
    rw [Nat.add_assoc, ← Finset.map_add_left_Ico, Finset.filter_map]
    congr 1
    refine Finset.filter_congr (fun i _ => ?_)
    simp only [Function.comp_apply, addLeftEmbedding_apply, hfrom]
  have hper : Function.Periodic (fun i => ((tick w pick)^[i] (fresh w pick)).current = p) (total w) := by
    intro i
    have hi := fresh_periodic hs hw i
    simp only at hi ⊢
    rw [hi]
  rw [hshift, Finset.card_map, Nat.filter_Ico_card_eq_of_periodic d (total w) _ hper, Nat.count_eq_card_filter_range]
  exact (round hs (total w) _ rfl (fresh_live hs hw)).2 p

end Credits

end OsdiKernel
