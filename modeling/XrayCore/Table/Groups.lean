/-
  XrayCore.Table.Groups

  Runs of neighbours with the same key.

  Of a list that is sorted by the keys these are all elements with that key, one run for
  each key (`neighbours_spec`).  Positions that are sorted by their keys, and by themselves
  where the keys are the same, stay in order within a run (`filter_sortedByKey`).
-/

import Mathlib

namespace XrayCore.Table

open List

variable {α κ : Type} [DecidableEq κ]

/-- The runs of a list, each with its key; `n` is at least its length. -/
def neighbours (key : α → κ) : ℕ → List α → List (κ × List α)
  | 0, _ => []
  | _ + 1, [] => []
  | n + 1, a :: l =>
    (key a, a :: l.takeWhile (key · = key a)) :: neighbours key n (l.dropWhile (key · = key a))

variable {o : Type} [LinearOrder o] {key : α → κ} {f : κ → o}

/-- Where the smallest key is `k`, its run is at the front. -/
theorem takeWhile_eq_filter (hf : Function.Injective f) {k : κ} {l : List α}
    (hsorted : l.Pairwise fun a b => f (key a) ≤ f (key b)) (hleast : ∀ a ∈ l, f k ≤ f (key a)) :
    l.takeWhile (key · = k) = l.filter (key · = k) ∧
      l.dropWhile (key · = k) = l.filter (key · ≠ k) := by
  induction l with
  | nil => exact ⟨rfl, rfl⟩
  | cons a l ih =>
    obtain ⟨ha, hsorted⟩ := pairwise_cons.mp hsorted
    obtain ⟨hk, hleast⟩ := forall_mem_cons.mp hleast
    by_cases hkey : key a = k
    · obtain ⟨htake, hdrop⟩ := ih hsorted hleast
      rw [takeWhile_cons_of_pos (by simpa using hkey), filter_cons_of_pos (by simpa using hkey),
        dropWhile_cons_of_pos (by simpa using hkey), filter_cons_of_neg (by simpa using hkey),
        htake, hdrop]
      exact ⟨rfl, rfl⟩
    · -- behind a larger key there are only larger ones
      have hlarger : ∀ b ∈ a :: l, key b ≠ k := by
        intro b hb heq
        rcases mem_cons.mp hb with rfl | hb
        · exact hkey heq
        · exact hkey (hf (le_antisymm (heq ▸ ha b hb) hk))
      rw [takeWhile_cons_of_neg (by simpa using hkey), dropWhile_cons_of_neg (by simpa using hkey)]
      constructor
      · exact (filter_eq_nil_iff.mpr fun b hb => by simpa using hlarger b hb).symm
      · exact (filter_eq_self.mpr fun b hb => by simpa using hlarger b hb).symm

/-- The runs of a sorted list. -/
structure Runs (key : α → κ) (l : List α) (runs : List (κ × List α)) : Prop where
  eq : ∀ g ∈ runs, g.2 = l.filter (key · = g.1) ∧ g.2 ≠ []
  nodup : (runs.map Prod.fst).Nodup
  found : ∀ a ∈ l, ∃ g ∈ runs, g.1 = key a

theorem neighbours_spec (hf : Function.Injective f) {n : ℕ} {l : List α} (hn : l.length ≤ n)
    (hsorted : l.Pairwise fun a b => f (key a) ≤ f (key b)) : Runs key l (neighbours key n l) := by
  induction n generalizing l with
  | zero =>
    rw [length_eq_zero_iff.mp (Nat.le_zero.mp hn)]
    exact ⟨nofun, nodup_nil, nofun⟩
  | succ n ih =>
    cases l with
    | nil => exact ⟨nofun, nodup_nil, nofun⟩
    | cons a l =>
      obtain ⟨ha, hsorted⟩ := pairwise_cons.mp hsorted
      obtain ⟨htake, hdrop⟩ := takeWhile_eq_filter hf hsorted ha
      rw [neighbours, htake, hdrop]
      have hlen : (l.filter (key · ≠ key a)).length ≤ n := by
        have := length_filter_le (fun b => decide (key b ≠ key a)) l
        rw [length_cons] at hn
        omega
      have ih := ih hlen (hsorted.sublist filter_sublist)
      -- the keys of the other runs are others
      have hother : ∀ g ∈ neighbours key n (l.filter (key · ≠ key a)), g.1 ≠ key a := by
        intro g hg heq
        obtain ⟨hgroup, hne⟩ := ih.eq g hg
        obtain ⟨b, hb⟩ := exists_mem_of_ne_nil _ hne
        rw [hgroup, mem_filter, mem_filter] at hb
        have hb1 := of_decide_eq_true hb.1.2
        exact hb1 ((of_decide_eq_true hb.2).trans heq)
      constructor
      · intro g hg
        rcases mem_cons.mp hg with rfl | hg
        · rw [filter_cons_of_pos (by simp)]
          exact ⟨rfl, cons_ne_nil _ _⟩
        · obtain ⟨hgroup, hne⟩ := ih.eq g hg
          refine ⟨?_, hne⟩
          have hkey : key a ≠ g.1 := (hother g hg).symm
          rw [filter_cons_of_neg (by simpa using hkey), hgroup, filter_filter]
          apply filter_congr
          intro b _
          by_cases hb : key b = g.1
          · simp [hb, hother g hg]
          · simp [hb]
      · rw [map_cons, nodup_cons]
        refine ⟨fun hmem => ?_, ih.nodup⟩
        obtain ⟨g, hg, heq⟩ := mem_map.mp hmem
        exact hother g hg heq
      · intro b hb
        by_cases hkey : key b = key a
        · exact ⟨_, mem_cons_self .., hkey.symm⟩
        · rcases mem_cons.mp hb with rfl | hb
          · exact absurd rfl hkey
          · obtain ⟨g, hg, heq⟩ := ih.found b (mem_filter.mpr ⟨hb, by simpa using hkey⟩)
            exact ⟨g, mem_cons_of_mem _ hg, heq⟩

/-! ## Sorted positions -/

/-- Positions by their keys, and where these are the same by themselves. -/
def byKey (key : ℕ → o) (a b : ℕ) : Prop := key a < key b ∨ key a = key b ∧ a ≤ b

instance (key : ℕ → o) : DecidableRel (byKey key) := fun _ _ => inferInstanceAs (Decidable (_ ∨ _))

instance (key : ℕ → o) : Std.Total (byKey key) where
  total a b := by
    rcases lt_trichotomy (key a) (key b) with h | h | h
    · exact .inl (.inl h)
    · rcases Nat.le_total a b with hab | hab
      · exact .inl (.inr ⟨h, hab⟩)
      · exact .inr (.inr ⟨h.symm, hab⟩)
    · exact .inr (.inl h)

instance (key : ℕ → o) : IsTrans ℕ (byKey key) where
  trans a b c := by
    rintro (h | ⟨h, hab⟩) (h' | ⟨h', hbc⟩)
    · exact .inl (h.trans h')
    · exact .inl (h' ▸ h)
    · exact .inl (h ▸ h')
    · exact .inr ⟨h.trans h', Nat.le_trans hab hbc⟩

/-- The positions below `n`, sorted by their keys. -/
def sortedByKey (key : ℕ → o) (n : ℕ) : List ℕ := (List.range n).insertionSort (byKey key)

theorem pairwise_sortedByKey (key : ℕ → o) (n : ℕ) :
    (sortedByKey key n).Pairwise fun a b => key a ≤ key b := by
  refine (pairwise_insertionSort (byKey key) _).imp ?_
  rintro a b (h | ⟨h, _⟩)
  · exact h.le
  · exact h.le

theorem length_sortedByKey (key : ℕ → o) (n : ℕ) : (sortedByKey key n).length = n := by
  rw [sortedByKey, length_insertionSort, length_range]

theorem mem_sortedByKey {key : ℕ → o} {n i : ℕ} : i ∈ sortedByKey key n ↔ i < n := by
  rw [sortedByKey, mem_insertionSort, mem_range]

/-- Positions with the same key stay in order. -/
theorem filter_sortedByKey (key : ℕ → o) (n : ℕ) (k : o) :
    (sortedByKey key n).filter (key · = k) = (List.range n).filter (key · = k) := by
  have hperm := (perm_insertionSort (byKey key) (range n)).filter fun i => key i = k
  have hpairwise : ((sortedByKey key n).filter (key · = k)).Pairwise (· ≤ ·) := by
    refine (List.Pairwise.sublist filter_sublist
      (pairwise_insertionSort (byKey key) (range n))).imp_of_mem ?_
    rintro a b ha hb (h | ⟨_, h⟩)
    · have ha := of_decide_eq_true (mem_filter.mp ha).2
      have hb := of_decide_eq_true (mem_filter.mp hb).2
      exact absurd (ha.trans hb.symm) h.ne
    · exact h
  have hrange : ((range n).filter (key · = k)).Pairwise (· ≤ ·) :=
    (pairwise_lt_range.imp Nat.le_of_lt).sublist filter_sublist
  exact hperm.eq_of_pairwise (fun a b _ _ => Nat.le_antisymm) hpairwise hrange

end XrayCore.Table
