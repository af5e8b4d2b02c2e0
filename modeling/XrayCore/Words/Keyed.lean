/-
  XrayCore.Words.Keyed

  Values with keys, in the order in which they were added.

  `valuesOf` takes the values of one key.  Going key by key gives as many values as going
  over the list once (`length_valuesOfAll`), but in the same order only if the keys come one
  after the other (`append_eq_iff`); if in addition all keys but the last are gone over
  twice, then there is only one other key (`append_stutter_eq_iff`).
-/

import XrayCore.Words.Stutter

namespace XrayCore.Words

open List

variable {κ V : Type} [DecidableEq κ]

/-- The values of a key. -/
def valuesOf (ms : List (κ × V)) (k : κ) : List V := (ms.filter fun m => m.1 = k).map Prod.snd

/-- The values of some keys, in the order of the list. -/
def valuesOfAll (ms : List (κ × V)) (ks : List κ) : List V :=
  (ms.filter fun m => m.1 ∈ ks).map Prod.snd

theorem valuesOf_cons_self (m : κ × V) (ms : List (κ × V)) :
    valuesOf (m :: ms) m.1 = m.2 :: valuesOf ms m.1 := by
  rw [valuesOf, filter_cons_of_pos (by simp)]
  rfl

variable {k : κ}

theorem valuesOf_cons_of_ne {m : κ × V} (h : m.1 ≠ k) (ms : List (κ × V)) :
    valuesOf (m :: ms) k = valuesOf ms k := by
  rw [valuesOf, filter_cons_of_neg (by simpa using h)]
  rfl

variable {ks : List κ}

theorem valuesOfAll_cons_of_mem {m : κ × V} (h : m.1 ∈ ks) (ms : List (κ × V)) :
    valuesOfAll (m :: ms) ks = m.2 :: valuesOfAll ms ks := by
  rw [valuesOfAll, filter_cons_of_pos (by simpa using h)]
  rfl

theorem valuesOfAll_cons_of_not_mem {m : κ × V} (h : m.1 ∉ ks) (ms : List (κ × V)) :
    valuesOfAll (m :: ms) ks = valuesOfAll ms ks := by
  rw [valuesOfAll, filter_cons_of_neg (by simpa using h)]
  rfl

variable {ms : List (κ × V)}

theorem mem_of_mem_valuesOf {v : V} (h : v ∈ valuesOf ms k) : (k, v) ∈ ms := by
  obtain ⟨m, hm, rfl⟩ := mem_map.mp h
  obtain ⟨hm, hkey⟩ := mem_filter.mp hm
  rw [← of_decide_eq_true hkey]
  exact hm

theorem valuesOf_eq_nil_iff : valuesOf ms k = [] ↔ ∀ m ∈ ms, m.1 ≠ k := by
  rw [valuesOf, map_eq_nil_iff, filter_eq_nil_iff]
  simp

/-- Key by key there are as many values. -/
theorem length_valuesOfAll (ms : List (κ × V)) (hks : ks.Nodup) :
    (valuesOfAll ms ks).length = (ks.flatMap (valuesOf ms)).length := by
  induction ks with
  | nil =>
    have hnone : (ms.filter fun m => m.1 ∈ ([] : List κ)) = [] :=
      filter_eq_nil_iff.mpr fun m _ => by simp
    rw [valuesOfAll, hnone]
    rfl
  | cons k ks ih =>
    obtain ⟨hk, hks⟩ := nodup_cons.mp hks
    rw [flatMap_cons, length_append, ← ih hks]
    -- each value has the first key, one of the others, or none of them
    clear ih
    induction ms with
    | nil => rfl
    | cons m ms ih =>
      by_cases hkey : m.1 = k
      · subst hkey
        rw [valuesOfAll_cons_of_mem (mem_cons_self ..), valuesOf_cons_self,
          valuesOfAll_cons_of_not_mem hk, length_cons, length_cons, ih]
        omega
      · by_cases hmem : m.1 ∈ ks
        · rw [valuesOfAll_cons_of_mem (mem_cons_of_mem _ hmem), valuesOf_cons_of_ne hkey,
            valuesOfAll_cons_of_mem hmem, length_cons, length_cons, ih]
          omega
        · have hnone : m.1 ∉ k :: ks := by
            rw [mem_cons, not_or]
            exact ⟨hkey, hmem⟩
          rw [valuesOfAll_cons_of_not_mem hnone, valuesOf_cons_of_ne hkey,
            valuesOfAll_cons_of_not_mem hmem, ih]

/-- Two keys one after the other: in the list they come so too. -/
theorem append_eq_iff (hvalues : (ms.map Prod.snd).Nodup) {l : κ} (hne : l ≠ k) :
    valuesOf ms k ++ valuesOf ms l = valuesOfAll ms [k, l] ↔
      ms.Pairwise fun m m' => m.1 = l → m'.1 ≠ k := by
  induction ms with
  | nil => exact ⟨fun _ => .nil, fun _ => rfl⟩
  | cons m ms ih =>
    rw [map_cons, nodup_cons] at hvalues
    have ih := ih hvalues.2
    rw [pairwise_cons, ← ih]
    by_cases hk : m.1 = k
    · subst hk
      rw [valuesOf_cons_self, valuesOf_cons_of_ne hne.symm,
        valuesOfAll_cons_of_mem (mem_cons_self ..), cons_append, cons.injEq]
      exact ⟨fun h => ⟨fun _ _ h' => absurd h'.symm hne, h.2⟩, fun h => ⟨rfl, h.2⟩⟩
    rw [valuesOf_cons_of_ne hk]
    by_cases hl : m.1 = l
    · subst hl
      rw [valuesOf_cons_self, valuesOfAll_cons_of_mem (by simp)]
      constructor
      · intro heq
        -- a value of the first key would have to be that of the element at hand
        cases hvals : valuesOf ms k with
        | nil =>
          rw [hvals] at heq
          exact ⟨fun m' hm' _ => valuesOf_eq_nil_iff.mp hvals m' hm', (cons.inj heq).2⟩
        | cons v vs =>
          rw [hvals] at heq
          have hmem := mem_of_mem_valuesOf (hvals ▸ mem_cons_self ..)
          rw [(cons.inj heq).1] at hmem
          exact absurd (mem_map_of_mem hmem) hvalues.1
      · rintro ⟨hall, heq⟩
        have hnil := valuesOf_eq_nil_iff.mpr fun m' hm' => hall m' hm' rfl
        rw [hnil] at heq ⊢
        rw [← heq]
        rfl
    · rw [valuesOf_cons_of_ne hl, valuesOfAll_cons_of_not_mem (by simp [hk, hl])]
      exact ⟨fun h => ⟨fun _ _ h' => absurd h' hl, h⟩, fun h => h.2⟩

theorem length_append_stutter (ms : List (κ × V)) (hks : (k :: ks).Nodup) :
    (valuesOf ms k ++ (stutter ks).reverse.flatMap (valuesOf ms)).length =
      (valuesOfAll ms (k :: ks)).length + (ks.dropLast.flatMap (valuesOf ms)).length := by
  have hperm := ((reverse_perm (stutter ks)).flatMap_right (valuesOf ms)).length_eq
  rw [length_append, hperm, length_flatMap_stutter, length_valuesOfAll ms hks,
    flatMap_cons, length_append]
  omega

/-- The other keys from the last to the first, all but the last one twice: that is the order
    of the list only if there is one other key, and it comes last. -/
theorem append_stutter_eq_iff (hvalues : (ms.map Prod.snd).Nodup) (hks : (k :: ks).Nodup)
    (hne : ∀ l ∈ ks, valuesOf ms l ≠ []) :
    valuesOf ms k ++ (stutter ks).reverse.flatMap (valuesOf ms) = valuesOfAll ms (k :: ks) ↔
      (∀ l ∈ ks, ∀ l' ∈ ks, l = l') ∧ ms.Pairwise fun m m' => m.1 ∈ ks → m'.1 ≠ k := by
  have hlength := length_append_stutter ms hks
  match ks with
  | [] =>
    have hself : valuesOf ms k = valuesOfAll ms [k] := by
      rw [valuesOf, valuesOfAll]
      simp only [mem_singleton]
    rw [stutter, reverse_nil, flatMap_nil, append_nil]
    refine ⟨fun _ => ⟨fun l hl => absurd hl not_mem_nil, ?_⟩, fun _ => hself⟩
    exact pairwise_of_forall fun _ _ hl => absurd hl not_mem_nil
  | [l] =>
    have hl : l ≠ k := fun h => (nodup_cons.mp hks).1 (h ▸ mem_singleton_self _)
    have hsingle : (stutter [l]).reverse.flatMap (valuesOf ms) = valuesOf ms l := by
      rw [stutter, reverse_singleton, flatMap_singleton]
    rw [hsingle, append_eq_iff hvalues hl]
    simp only [mem_singleton, forall_eq, true_and]
  | l :: l' :: ks =>
    -- the first key is gone over twice
    have hpos : 0 < (valuesOf ms l).length := length_pos_iff.mpr (hne l (mem_cons_self ..))
    have hl : l ≠ l' := by
      rintro rfl
      exact (nodup_cons.mp (nodup_cons.mp hks).2).1 (mem_cons_self ..)
    constructor
    · intro heq
      rw [heq, dropLast_cons_cons, flatMap_cons, length_append] at hlength
      omega
    · rintro ⟨hall, _⟩
      exact absurd (hall l (by simp) l' (by simp)) hl

end XrayCore.Words
