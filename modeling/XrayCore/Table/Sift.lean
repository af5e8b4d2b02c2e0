/-
  XrayCore.Table.Sift

  Tables of things to be given out once: each key holds a value, or holds nothing any
  more.

    * `sift` visits keys and gives out the values that pass a test;
    * `collect` gives out all that is left.

  Whatever the order of the visits, nothing is given out twice and nothing gets lost:
  `content` counts what a table still holds, and what `sift` gives out is what `content`
  loses (`content_sift`).
-/

import Mathlib

namespace XrayCore.Table

open List

variable {κ ν β : Type} [DecidableEq κ]

/-- A table whose keys hold a value, or nothing any more. -/
abbrev Stock (κ ν : Type) := AList fun _ : κ => Option ν

/-- What an entry gives out. -/
def given (f : ν → List β) : Option (Option ν) → List β
  | some (some v) => f v
  | _ => []

/-- What a table still holds. -/
def content (f : ν → List β) (t : Stock κ ν) : Multiset β :=
  (t.entries.flatMap fun e => given f (some e.2) : List β)

/-- The values of the visited keys that pass the test `p` are given out, and taken from the
    table. -/
def sift (p : κ → ν → Bool) (f : ν → List β) : List κ → Stock κ ν × List β → Stock κ ν × List β
  | [], st => st
  | k :: ks, (t, out) =>
    match t.lookup k with
    | some (some v) =>
      if p k v then sift p f ks (t.insert k none, out ++ f v) else sift p f ks (t, out)
    | _ => sift p f ks (t, out)

/-- All that the visited keys hold. -/
def collect (f : ν → List β) (t : Stock κ ν) (ks : List κ) : List β :=
  ks.flatMap fun k => given f (t.lookup k)

/-! ## Looking up -/

section

variable {t : AList fun _ : κ => ν} {k k' : κ} {v w : ν}

theorem lookup_insert_eq_some :
    (t.insert k v).lookup k' = some w ↔ k' = k ∧ w = v ∨ k' ≠ k ∧ t.lookup k' = some w := by
  by_cases h : k' = k
  · subst h
    simp [eq_comm]
  · simp [AList.lookup_insert_ne h, h]

theorem lookup_erase_eq_some :
    (t.erase k).lookup k' = some w ↔ k' ≠ k ∧ t.lookup k' = some w := by
  by_cases h : k' = k
  · subst h
    simp
  · simp [AList.lookup_erase_ne h, h]

end

/-! ## What a table holds -/

omit [DecidableEq κ] in
theorem content_empty (f : ν → List β) : content f (∅ : Stock κ ν) = 0 := rfl

/-- A new value of a key takes the place of the old one. -/
theorem content_insert (f : ν → List β) (t : Stock κ ν) (k : κ) (v : Option ν) :
    content f (t.insert k v) + given f (t.lookup k) = content f t + given f (some v) := by
  by_cases hk : k ∈ t
  · obtain ⟨old, before, after, hnot, hentries, hkerase⟩ :=
      exists_of_kerase (AList.mem_keys.mp hk)
    have hlookup : t.lookup k = some old := by
      rw [← Option.mem_def, AList.mem_lookup_iff, hentries]
      exact mem_append_right _ mem_cons_self
    rw [content, content, AList.entries_insert, hkerase, hentries, hlookup]
    simp only [flatMap_append, flatMap_cons, ← Multiset.coe_add]
    abel
  · rw [content, content, AList.entries_insert_of_notMem hk, AList.lookup_eq_none.mpr hk]
    simp only [flatMap_cons, ← Multiset.coe_add]
    rw [show given f (none : Option (Option ν)) = [] from rfl, Multiset.coe_nil]
    abel

variable {f : ν → List β} {t : Stock κ ν}

/-- What is in the content is held by some key. -/
theorem mem_content_iff {b : β} :
    b ∈ content f t ↔ ∃ k v, t.lookup k = some (some v) ∧ b ∈ f v := by
  rw [content, Multiset.mem_coe, mem_flatMap]
  constructor
  · rintro ⟨⟨k, v⟩, he, hb⟩
    cases v with
    | none => nomatch hb
    | some v => exact ⟨k, v, AList.mem_lookup_iff.mpr he, hb⟩
  · rintro ⟨k, v, hlookup, hb⟩
    exact ⟨⟨k, some v⟩, AList.mem_lookup_iff.mp hlookup, hb⟩

variable {ks : List κ}

/-- All keys in any order give out the whole content. -/
theorem coe_collect (f : ν → List β) (t : Stock κ ν) (hks : ks.Perm t.keys) :
    (collect f t ks : Multiset β) = content f t := by
  have hkeys : collect f t t.keys = t.entries.flatMap fun e => given f (some e.2) := by
    rw [collect, AList.keys, keys, flatMap_map]
    refine flatMap_congr fun e he => ?_
    rw [show t.lookup e.1 = some e.2 from AList.mem_lookup_iff.mpr he]
  rw [content, ← hkeys, Multiset.coe_eq_coe]
  exact hks.flatMap_right _

/-! ## Sifting -/

/-- One visit: the value passes and is given out, or all stays as it is. -/
theorem sift_cons (p : κ → ν → Bool) (f : ν → List β) (k : κ) (ks : List κ) (t : Stock κ ν)
    (out : List β) :
    (∃ v, t.lookup k = some (some v) ∧ p k v = true ∧
        sift p f (k :: ks) (t, out) = sift p f ks (t.insert k none, out ++ f v)) ∨
      ((∀ v, t.lookup k = some (some v) → p k v = false) ∧
        sift p f (k :: ks) (t, out) = sift p f ks (t, out)) := by
  rw [sift]
  split
  · rename_i v hlookup
    by_cases hp : p k v = true
    · rw [if_pos hp]
      exact .inl ⟨v, hlookup, hp, rfl⟩
    · rw [if_neg hp]
      refine .inr ⟨fun v' hv' => ?_, rfl⟩
      rw [hlookup] at hv'
      obtain rfl := Option.some.inj (Option.some.inj hv')
      exact Bool.not_eq_true _ ▸ hp
  · rename_i hnone
    exact .inr ⟨fun v hv => absurd hv (hnone v), rfl⟩

/-- What is given out is what the table loses. -/
theorem content_sift (p : κ → ν → Bool) (f : ν → List β) (ks : List κ) (t : Stock κ ν)
    (out : List β) :
    content f (sift p f ks (t, out)).1 + ((sift p f ks (t, out)).2 : Multiset β) =
      content f t + out := by
  induction ks generalizing t out with
  | nil => rfl
  | cons k ks ih =>
    rcases sift_cons p f k ks t out with ⟨v, hlookup, _, hsift⟩ | ⟨_, hsift⟩
    · rw [hsift, ih]
      have hinsert := content_insert f t k none
      rw [hlookup] at hinsert
      calc content f (t.insert k none) + ((out ++ f v : List β) : Multiset β)
          = content f (t.insert k none) + (f v : List β) + out := by
            rw [← Multiset.coe_add]
            abel
        _ = content f t + out := by
            rw [show content f (t.insert k none) + (f v : List β) = content f t + 0 from hinsert,
              add_zero]
    · rw [hsift, ih]

/-- A value that is still there was there before, and did not pass if it was visited. -/
theorem lookup_of_lookup_sift {p : κ → ν → Bool} {out : List β} {k : κ} {v : ν}
    (h : (sift p f ks (t, out)).1.lookup k = some (some v)) :
    t.lookup k = some (some v) ∧ (k ∈ ks → p k v = false) := by
  induction ks generalizing t out with
  | nil => exact ⟨h, nofun⟩
  | cons k' ks ih =>
    rcases sift_cons p f k' ks t out with ⟨v', hlookup, _, hsift⟩ | ⟨hfails, hsift⟩
    · rw [hsift] at h
      obtain ⟨hthere, hvisited⟩ := ih h
      obtain ⟨-, hnone⟩ | ⟨hne, hthere⟩ := lookup_insert_eq_some.mp hthere
      · cases hnone
      refine ⟨hthere, fun hmem => ?_⟩
      rcases mem_cons.mp hmem with heq | hmem
      · exact absurd heq hne
      · exact hvisited hmem
    · rw [hsift] at h
      obtain ⟨hthere, hvisited⟩ := ih h
      refine ⟨hthere, fun hmem => ?_⟩
      rcases mem_cons.mp hmem with rfl | hmem
      · exact hfails v hthere
      · exact hvisited hmem

/-- What is given out comes from a value that passes. -/
theorem exists_of_mem_sift {p : κ → ν → Bool} {out : List β} {b : β}
    (h : b ∈ (sift p f ks (t, out)).2) :
    b ∈ out ∨ ∃ k v, t.lookup k = some (some v) ∧ p k v = true ∧ b ∈ f v := by
  induction ks generalizing t out with
  | nil => exact .inl h
  | cons k' ks ih =>
    rcases sift_cons p f k' ks t out with ⟨v', hlookup, hp, hsift⟩ | ⟨_, hsift⟩
    · rw [hsift] at h
      rcases ih h with hb | ⟨k, v, hv, hpv, hb⟩
      · rcases mem_append.mp hb with hb | hb
        · exact .inl hb
        · exact .inr ⟨k', v', hlookup, hp, hb⟩
      · rcases lookup_insert_eq_some.mp hv with ⟨-, hnone⟩ | ⟨-, hv⟩
        · cases hnone
        · exact .inr ⟨k, v, hv, hpv, hb⟩
    · rw [hsift] at h
      exact ih h

/-- What was given out before stays in front. -/
theorem sift_eq (p : κ → ν → Bool) (f : ν → List β) (ks : List κ) (t : Stock κ ν)
    (out : List β) :
    sift p f ks (t, out) = ((sift p f ks (t, [])).1, out ++ (sift p f ks (t, [])).2) := by
  induction ks generalizing t out with
  | nil => rw [sift, sift, append_nil]
  | cons k ks ih =>
    rw [sift, sift]
    split
    · rename_i v _
      by_cases hp : p k v = true
      · rw [if_pos hp, if_pos hp, ih _ (out ++ f v), ih _ ([] ++ f v), nil_append,
          append_assoc]
      · rw [if_neg hp, if_neg hp, ih t out]
    · rw [ih t out]

/-! ## Several tests one after the other -/

/-- The table `whole` after the tests `ps`: what is left in it, and what was given out. -/
structure Sifted (f : ν → List β) (whole : Stock κ ν) (ps : List (κ → ν → Bool))
    (t : Stock κ ν) (out : Multiset β) : Prop where
  total : content f t + out = content f whole
  kept : ∀ k v, t.lookup k = some (some v) →
    whole.lookup k = some (some v) ∧ ∀ p ∈ ps, p k v = false
  gave : ∀ b ∈ out, ∃ k v, whole.lookup k = some (some v) ∧ b ∈ f v ∧ ∃ p ∈ ps, p k v = true

theorem Sifted.start (f : ν → List β) (whole : Stock κ ν) : Sifted f whole [] whole 0 where
  total := add_zero _
  kept _ _ h := ⟨h, nofun⟩
  gave := nofun

/-- One more test, with the keys visited in any order. -/
theorem Sifted.sift {whole : Stock κ ν} {ps : List (κ → ν → Bool)} {out : Multiset β}
    (h : Sifted f whole ps t out) (p : κ → ν → Bool) (hks : ks.Perm t.keys) :
    Sifted f whole (ps ++ [p]) (sift p f ks (t, [])).1 (out + (Table.sift p f ks (t, [])).2) := by
  have hmem : ∀ {k v}, t.lookup k = some (some v) → k ∈ ks := by
    intro k v hlookup
    rw [hks.mem_iff, ← AList.mem_keys, ← AList.lookup_isSome, hlookup]
    rfl
  constructor
  · have hcontent := content_sift p f ks t []
    rw [Multiset.coe_nil, add_zero] at hcontent
    rw [← h.total, ← hcontent]
    abel
  · intro k v hlookup
    obtain ⟨hthere, hfails⟩ := lookup_of_lookup_sift hlookup
    obtain ⟨hwhole, hbefore⟩ := h.kept k v hthere
    refine ⟨hwhole, fun q hq => ?_⟩
    rcases mem_append.mp hq with hq | hq
    · exact hbefore q hq
    · obtain rfl := mem_singleton.mp hq
      exact hfails (hmem hthere)
  · intro b hb
    rcases Multiset.mem_add.mp hb with hb | hb
    · obtain ⟨k, v, hwhole, hbv, q, hq, hpass⟩ := h.gave b hb
      exact ⟨k, v, hwhole, hbv, q, mem_append_left _ hq, hpass⟩
    · rcases exists_of_mem_sift hb with hb | ⟨k, v, hlookup, hpass, hbv⟩
      · nomatch hb
      · exact ⟨k, v, (h.kept k v hlookup).1, hbv, p,
          mem_append_right _ (mem_singleton.mpr rfl), hpass⟩

end XrayCore.Table
