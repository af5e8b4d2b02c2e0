/-
  XrayCore.Words.Longest

  The longest suffix of a word that has a property, over any alphabet.

  For a property that goes from a word to its beginnings, such as being a node of a trie,
  the longest suffix can be kept up letter by letter: `longest_append` says that of what
  was read only the longest suffix counts.  This is what a string matching automaton
  computes with.
-/

import Mathlib

namespace XrayCore.Words

open List

variable {α : Type} (P : List α → Prop) [DecidablePred P]

/-- The longest suffix with the property; the empty word if there is none. -/
def longest : List α → List α
  | [] => []
  | a :: w => if P (a :: w) then a :: w else longest w

variable {P}

variable {w : List α}

theorem longest_of_mem (h : P w) : longest P w = w := by
  cases w with
  | nil => rfl
  | cons a w => rw [longest, if_pos h]

theorem longest_of_not_mem {a : α} (h : ¬ P (a :: w)) : longest P (a :: w) = longest P w := by
  rw [longest, if_neg h]

theorem longest_suffix (w : List α) : longest P w <:+ w := by
  induction w with
  | nil => exact suffix_rfl
  | cons a w ih =>
    rw [longest]
    split
    · exact suffix_rfl
    · exact ih.trans (suffix_cons a w)

theorem longest_mem (hnil : P []) (w : List α) : P (longest P w) := by
  induction w with
  | nil => exact hnil
  | cons a w ih =>
    rw [longest]
    split
    · next h => exact h
    · exact ih

/-- All suffixes with the property are suffixes of the longest one. -/
theorem suffix_longest {s : List α} (hs : s <:+ w) (h : P s) : s <:+ longest P w := by
  induction w with
  | nil => exact hs
  | cons a w ih =>
    rw [longest]
    split
    · exact hs
    · next hw =>
      rcases suffix_cons_iff.mp hs with rfl | hs
      · exact absurd h hw
      · exact ih hs

theorem eq_of_suffix_of_suffix {s t : List α} (h : s <:+ t) (h' : t <:+ s) : s = t :=
  h.eq_of_length (Nat.le_antisymm h.length_le h'.length_le)

/-- The longest suffix of a word that is spelled in other letters. -/
theorem longest_map {β : Type} {P' : List β → Prop} [DecidablePred P'] (f : α → β)
    (h : ∀ s, s <:+ w → (P' (s.map f) ↔ P s)) : longest P' (w.map f) = (longest P w).map f := by
  induction w with
  | nil => rfl
  | cons a w ih =>
    have hself := h _ suffix_rfl
    have ih := ih fun s hs => h s (hs.trans (suffix_cons a w))
    rw [map_cons] at hself ⊢
    by_cases hP : P (a :: w)
    · rw [longest_of_mem (hself.mpr hP), longest_of_mem hP]
      rfl
    · rw [longest_of_not_mem fun hP' => hP (hself.mp hP'), longest_of_not_mem hP, ih]

/-- The longest suffix is the only one that all others are suffixes of. -/
theorem longest_unique (hnil : P []) {s : List α} (hs : s <:+ w) (h : P s)
    (hmax : ∀ t, t <:+ w → P t → t <:+ s) : longest P w = s :=
  eq_of_suffix_of_suffix (hmax _ (longest_suffix w) (longest_mem hnil w)) (suffix_longest hs h)

/-- One more letter: of what was read only the longest suffix counts. -/
theorem longest_append (hnil : P []) (hclosed : ∀ w a, P (w ++ [a]) → P w) (w : List α) (a : α) :
    longest P (w ++ [a]) = longest P (longest P w ++ [a]) := by
  refine longest_unique hnil ?_ (longest_mem hnil _) fun t ht hP => ?_
  · refine (longest_suffix _).trans ?_
    obtain ⟨front, hfront⟩ := longest_suffix (P := P) w
    refine ⟨front, ?_⟩
    rw [← append_assoc, hfront]
  · -- a suffix of the longer word is empty, or ends in the letter
    rcases eq_nil_or_concat t with rfl | ⟨t, b, rfl⟩
    · exact nil_suffix
    · rw [concat_eq_append] at ht hP ⊢
      obtain ⟨front, hfront⟩ := ht
      rw [← append_assoc] at hfront
      obtain ⟨hw, hb⟩ := append_inj' hfront rfl
      obtain rfl : b = a := head_eq_of_cons_eq hb
      have hsuffix : t <:+ longest P w := suffix_longest ⟨front, hw⟩ (hclosed t b hP)
      obtain ⟨front', hfront'⟩ := hsuffix
      refine suffix_longest ⟨front', ?_⟩ hP
      rw [← append_assoc, hfront']

/-! ## The suffixes of a kind -/

variable {Q : List α → Prop} [DecidablePred Q]

/-- The suffixes of a kind, which all have the property, are those of the longest suffix. -/
theorem filter_tails_longest (hQ : ∀ s, Q s → P s) (w : List α) :
    (longest P w).tails.filter Q = w.tails.filter Q := by
  induction w with
  | nil => rfl
  | cons a w ih =>
    rw [longest]
    split
    · rfl
    · next h =>
      have hnot : ¬ decide (Q (a :: w)) = true := fun hq => h (hQ _ (of_decide_eq_true hq))
      rw [ih, tails_cons, filter_cons, if_neg hnot]

/-- The first of them is the word itself, if it is of the kind. -/
theorem filter_tails_of_ne_nil (hw : w ≠ []) :
    w.tails.filter Q = if Q w then w :: w.tail.tails.filter Q else w.tail.tails.filter Q := by
  cases w with
  | nil => exact absurd rfl hw
  | cons a w =>
    rw [tails_cons, filter_cons, tail_cons]
    by_cases h : Q (a :: w)
    · rw [if_pos (decide_eq_true h), if_pos h]
    · rw [if_neg fun hd => h (of_decide_eq_true hd), if_neg h]

/-- After the first of them come those of its tail. -/
theorem filter_tails_of_head? (hnil : ¬ Q []) {f : List α} (h : (w.tails.filter Q).head? = some f) :
    w.tails.filter Q = f :: f.tail.tails.filter Q := by
  induction w with
  | nil =>
    have hnone : filter (fun s => decide (Q s)) [[]] = [] := by
      rw [filter_singleton, decide_eq_false hnil]
      rfl
    have h : (filter (fun s => decide (Q s)) [[]]).head? = some f := h
    rw [hnone] at h
    nomatch h
  | cons a w ih =>
    rw [filter_tails_of_ne_nil (cons_ne_nil a w)] at h ⊢
    split at h
    · next hq =>
      rw [if_pos hq]
      obtain rfl := Option.some.inj h
      rfl
    · next hq =>
      rw [if_neg hq]
      exact ih h

/-- No suffix is met twice. -/
theorem nodup_tails (w : List α) : w.tails.Nodup := by
  induction w with
  | nil => exact pairwise_singleton _ _
  | cons a w ih =>
    rw [tails_cons, nodup_cons]
    refine ⟨fun hmem => ?_, ih⟩
    have hlen := ((mem_tails _ _).mp hmem).length_le
    rw [length_cons] at hlen
    omega

end XrayCore.Words
