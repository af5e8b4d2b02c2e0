/-
  XrayCore.Schedule.Smooth

  Smooth weighted turns.  In each turn everybody gains their weight, and the first of those
  who then have most is served and pays the sum of all weights.

  What all have sums to zero, and nobody ever owes the whole sum: who pays has something,
  since all together have the sum.  So from nothing, after as many turns as the sum of the
  weights, all have nothing again, and each was served as often as the weight says.
  Nor does anybody get far ahead, since some of them have less than with the one who is
  served instead.
-/

import Mathlib

namespace XrayCore.Schedule

open Finset

variable {ι : Type} [Fintype ι] [LinearOrder ι] {w : ι → ℤ}

/-! ## One turn -/

/-- One turn, in which `i` is served. -/
structure Turn (w c : ι → ℤ) (i : ι) (c' : ι → ℤ) : Prop where
  most : ∀ j, c j + w j ≤ c i + w i
  first : ∀ j < i, c j + w j < c i + w i
  next : ∀ j, c' j = c j + w j - if j = i then ∑ k, w k else 0

theorem Turn.unique {c c' d : ι → ℤ} {i j : ι} (h : Turn w c i c') (h' : Turn w c j d) :
    i = j ∧ c' = d := by
  obtain rfl : i = j := by
    rcases lt_trichotomy i j with hlt | heq | hgt
    · exact absurd (h'.first i hlt) (not_lt.mpr (h.most j))
    · exact heq
    · exact absurd (h.first j hgt) (not_lt.mpr (h'.most i))
  exact ⟨rfl, funext fun k => by rw [h.next, h'.next]⟩

/-- The sum is zero, and nobody owes the sum of the weights. -/
structure Balanced (w c : ι → ℤ) : Prop where
  sum_eq : ∑ i, c i = 0
  lt : ∀ i, -(∑ k, w k) < c i

theorem Balanced.turn {c c' : ι → ℤ} {i : ι} (hw : ∀ i, 0 < w i) (h : Balanced w c)
    (ht : Turn w c i c') : Balanced w c' := by
  have hgain : ∑ j, (c j + w j) = ∑ k, w k := by
    rw [sum_add_distrib, h.sum_eq, zero_add]
  refine ⟨?_, fun j => ?_⟩
  · simp only [ht.next, sum_sub_distrib, hgain, sum_ite_eq', mem_univ,
      if_true, sub_self]
  · rw [ht.next]
    by_cases hj : j = i
    · -- all together have the sum of the weights, so the one with most has something
      have hpos : 0 < c i + w i := by
        by_contra hnot
        have hsum : ∑ k, w k ≤ 0 := hgain ▸ sum_nonpos fun k _ =>
          le_trans (ht.most k) (not_lt.mp hnot)
        have hall : 0 < ∑ k, w k := sum_pos (fun k _ => hw k) ⟨i, mem_univ i⟩
        omega
      rw [if_pos hj, hj]
      omega
    · have hlt := h.lt j
      have hwj := hw j
      rw [if_neg hj]
      omega

/-- Any `k` of the `n` have on average at most the sum of the weights times
    `1 / (k + 1) + ... + 1 / n`. -/
def Levelled (w c : ι → ℤ) : Prop :=
  ∀ s : Finset ι, ((∑ j ∈ s, c j : ℤ) : ℚ) ≤
    s.card * (∑ k, w k : ℤ) * (harmonic (Fintype.card ι) - harmonic s.card)

theorem Levelled.turn {c c' : ι → ℤ} {i : ι} (hw : ∀ i, 0 < w i) (h : Levelled w c)
    (ht : Turn w c i c') : Levelled w c' := by
  intro s
  have hgain : ∀ s : Finset ι, ∑ j ∈ s, w j ≤ ∑ k, w k := fun s =>
    sum_le_univ_sum_of_nonneg fun j => (hw j).le
  have hnext : ∑ j ∈ s, c' j = ∑ j ∈ s, (c j + w j) - if i ∈ s then ∑ k, w k else 0 := by
    simp only [ht.next, sum_sub_distrib, sum_ite_eq']
  by_cases hi : i ∈ s
  · -- one of them pays at least what all of them gain
    refine le_trans ?_ (h s)
    rw [hnext, if_pos hi, sum_add_distrib, Int.cast_le]
    linarith [hgain s]
  · -- together with the one who is served, their average would not be less
    have hmost : ∑ j ∈ s, (c j + w j) ≤ s.card * (c i + w i) := by
      rw [← nsmul_eq_mul]
      exact sum_le_card_nsmul s _ _ fun j _ => ht.most j
    have hboth := h (insert i s)
    have hgained : ((∑ j ∈ insert i s, w j : ℤ) : ℚ) ≤ (∑ k, w k : ℤ) := Int.cast_le.mpr (hgain _)
    rw [sum_insert hi, Int.cast_add] at hboth hgained
    rw [card_insert_of_notMem hi, harmonic_succ] at hboth
    rw [hnext, if_neg hi, sub_zero]
    rw [← @Int.cast_le ℚ, sum_add_distrib] at hmost
    rw [sum_add_distrib]
    push_cast at hboth hgained hmost ⊢
    generalize (∑ k, (w k : ℚ)) = total at *
    generalize harmonic (Fintype.card ι) = hn at *
    generalize harmonic s.card = hs at *
    generalize (∑ j ∈ s, (c j : ℚ)) = cs at *
    generalize (∑ j ∈ s, (w j : ℚ)) = ws at *
    have hk : (0 : ℚ) < s.card + 1 := by positivity
    refine le_of_mul_le_mul_left ?_ hk
    calc (s.card + 1) * (cs + ws) = s.card * (cs + ws) + (cs + ws) := by ring
      _ ≤ s.card * (cs + ws) + s.card * (c i + w i) := by linarith
      _ = s.card * ((c i + cs) + (w i + ws)) := by ring
      _ ≤ s.card * ((s.card + 1) * total * (hn - (hs + (s.card + 1 : ℚ)⁻¹)) + total) := by
        gcongr
      _ = (s.card + 1) * (s.card * total * (hn - hs)) := by
        field_simp
        ring

/-! ## A run -/

/-- Turn after turn, from nothing; `p t` is served in the turn `t`. -/
structure Turns (w : ι → ℤ) (c : ℕ → ι → ℤ) (p : ℕ → ι) : Prop where
  pos : ∀ i, 0 < w i
  turn : ∀ t, Turn w (c t) (p t) (c (t + 1))
  zero : c 0 = 0

namespace Turns

variable {c : ℕ → ι → ℤ} {p : ℕ → ι} {n : ℕ}

theorem sum_pos (h : Turns w c p) : 0 < ∑ k, w k :=
  Finset.sum_pos (fun k _ => h.pos k) ⟨p 0, Finset.mem_univ _⟩

theorem balanced (h : Turns w c p) (t : ℕ) : Balanced w (c t) := by
  induction t with
  | zero => exact ⟨by simp [h.zero], fun i => by simpa [h.zero] using h.sum_pos⟩
  | succ t ih => exact ih.turn h.pos (h.turn t)

theorem levelled (h : Turns w c p) (t : ℕ) : Levelled w (c t) := by
  induction t with
  | zero =>
    intro s
    have hle : harmonic s.card ≤ harmonic (Fintype.card ι) :=
      sum_le_sum_of_subset_of_nonneg (range_mono s.card_le_univ)
        fun _ _ _ => by positivity
    have hpos : (0 : ℚ) ≤ (∑ k, w k : ℤ) := Int.cast_nonneg h.sum_pos.le
    simp only [h.zero, Pi.zero_apply, sum_const_zero, Int.cast_zero]
    exact mul_nonneg (mul_nonneg s.card.cast_nonneg hpos) (sub_nonneg.mpr hle)
  | succ t ih => exact ih.turn h.pos (h.turn t)

/-- Nobody has more than the sum of the weights times `1 / 2 + ... + 1 / n`. -/
theorem le_harmonic (h : Turns w c p) (t : ℕ) (i : ι) :
    (c t i : ℚ) ≤ (∑ k, w k : ℤ) * (harmonic (Fintype.card ι) - 1) := by
  have hone : harmonic 1 = 1 := by norm_num [harmonic]
  have hle := h.levelled t {i}
  rwa [sum_singleton, card_singleton, hone, Nat.cast_one, one_mul] at hle

/-- What `k` turns give and take. -/
theorem add_eq (h : Turns w c p) (t k : ℕ) (i : ι) :
    c (t + k) i = c t i + k * w i -
      (∑ j, w j) * (List.range k).countP fun s => decide (p (t + s) = i) := by
  induction k with
  | zero => simp
  | succ k ih =>
    rw [← Nat.add_assoc, (h.turn (t + k)).next, ih, List.range_succ, List.countP_append,
      List.countP_singleton]
    by_cases hi : i = p (t + k)
    · simp only [← hi, decide_true, if_true]
      push_cast
      ring
    · simp only [Ne.symm hi, hi, decide_false, if_false, Bool.false_eq_true]
      push_cast
      ring

/-- After as many turns as the sum of the weights all have nothing again. -/
theorem return_zero (h : Turns w c p) (hn : (n : ℤ) = ∑ i, w i) : c n = 0 := by
  have hbal := h.balanced n
  -- a multiple of the sum that is less than the sum below zero is not below zero
  have hnonneg : ∀ i, 0 ≤ c n i := by
    intro i
    have heq := h.add_eq 0 n i
    rw [Nat.zero_add, h.zero, Pi.zero_apply, zero_add, hn, ← mul_sub] at heq
    have hlt := hbal.lt i
    rw [heq, neg_lt_iff_pos_add', ← mul_one_add] at hlt
    have hfactor := pos_of_mul_pos_right hlt h.sum_pos.le
    rw [heq]
    exact mul_nonneg h.sum_pos.le (by omega)
  funext i
  exact (sum_eq_zero_iff_of_nonneg fun i _ => hnonneg i).mp hbal.sum_eq i
    (mem_univ i)

/-- From then on everything repeats. -/
theorem periodic (h : Turns w c p) (hn : (n : ℤ) = ∑ i, w i) (t : ℕ) :
    c (t + n) = c t ∧ p (t + n) = p t := by
  have hc : c (t + n) = c t := by
    induction t with
    | zero => rw [Nat.zero_add, h.return_zero hn, h.zero]
    | succ t ih =>
      have hturn := h.turn (t + n)
      rw [ih] at hturn
      rw [Nat.add_right_comm]
      exact (hturn.unique (h.turn t)).2
  have hturn := h.turn (t + n)
  rw [hc] at hturn
  exact ⟨hc, (hturn.unique (h.turn t)).1⟩

/-- In a whole round each is served as often as the weight says. -/
theorem count_eq (h : Turns w c p) (hn : (n : ℤ) = ∑ i, w i) (t : ℕ) (i : ι) :
    ((List.range n).countP fun s => decide (p (t + s) = i) : ℤ) = w i := by
  have heq := h.add_eq t n i
  rw [(h.periodic hn t).1, hn, add_sub_assoc, left_eq_add, ← mul_sub] at heq
  have hdiff := (mul_eq_zero.mp heq).resolve_left h.sum_pos.ne'
  omega

end Turns

end XrayCore.Schedule
