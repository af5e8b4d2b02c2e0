/-
  XrayCore.Strmatcher.ACExact

  The automaton against its matchers one by one.

  On lower-case letters, digits, hyphens and dots the 39 letters tell all bytes apart, so
  what the automaton finds is what the matchers themselves accept (`exists_found_iff`).
-/

import XrayCore.Strmatcher.ACMatch

namespace XrayCore.Strmatcher

open List

/-! ## The charset -/

/-- Lower-case letters, digits, the hyphen and the dot. -/
def IsLdh (c : UInt8) : Prop :=
  (0x61 ≤ c ∧ c ≤ 0x7a) ∨ (0x30 ≤ c ∧ c ≤ 0x39) ∨ c = 0x2d ∨ c = 0x2e

instance : DecidablePred IsLdh := fun _ => inferInstanceAs (Decidable (_ ∨ _))

/-- A string over the charset. -/
def Ldh (s : Bytes) : Prop := ∀ c ∈ s, IsLdh c

instance : DecidablePred Ldh := fun s => inferInstanceAs (Decidable (∀ c ∈ s, IsLdh c))

/-- The byte of the charset that a letter stands for. -/
def charOf (a : Fin 39) : UInt8 :=
  if a.val ≤ 26 then UInt8.ofNat (a.val + 0x60)
  else if a.val = 27 then 0x2d
  else if a.val = 28 then 0x2e
  else UInt8.ofNat (a.val + 0x13)

theorem charOf_acCharset {c : UInt8} (h : IsLdh c) : charOf (acCharset c) = c := by
  rw [acCharset]
  rcases h with ⟨hlow, hhigh⟩ | ⟨hlow, hhigh⟩ | rfl | rfl
  · have hlow' : 0x61 ≤ c.toNat := UInt8.le_iff_toNat_le.mp hlow
    have hhigh' : c.toNat ≤ 0x7a := UInt8.le_iff_toNat_le.mp hhigh
    rw [dif_pos ⟨hlow, hhigh⟩, charOf]
    show (if c.toNat - 0x60 ≤ 26 then UInt8.ofNat (c.toNat - 0x60 + 0x60) else _) = c
    rw [if_pos (by omega), Nat.sub_add_cancel (by omega)]
    exact UInt8.ofNat_toNat
  · have hlow' : 0x30 ≤ c.toNat := UInt8.le_iff_toNat_le.mp hlow
    have hhigh' : c.toNat ≤ 0x39 := UInt8.le_iff_toNat_le.mp hhigh
    have hletter : ∀ low high : UInt8, 0x39 < low.toNat → ¬ (low ≤ c ∧ c ≤ high) := by
      rintro low high hlt ⟨hle, _⟩
      have := UInt8.le_iff_toNat_le.mp hle
      omega
    have hne : ∀ d : UInt8, d.toNat < 0x30 → c ≠ d := by
      rintro d hlt rfl
      omega
    rw [dif_neg (hletter _ _ (by decide)), dif_neg (hletter _ _ (by decide)),
      if_neg (hne _ (by decide)), if_neg (hne _ (by decide)), dif_pos ⟨hlow, hhigh⟩, charOf]
    show (if c.toNat - 0x13 ≤ 26 then _ else if c.toNat - 0x13 = 27 then _ else
      if c.toNat - 0x13 = 28 then _ else UInt8.ofNat (c.toNat - 0x13 + 0x13)) = c
    rw [if_neg (by omega), if_neg (by omega), if_neg (by omega), Nat.sub_add_cancel (by omega)]
    exact UInt8.ofNat_toNat
  · decide
  · decide

variable {s t : Bytes}

theorem Ldh.of_suffix (h : Ldh t) (hs : s <:+ t) : Ldh s :=
  fun c hc => h c (hs.subset hc)

theorem map_charOf_letters (h : Ldh s) : (letters s).map charOf = s.reverse := by
  rw [letters, map_map, map_congr_left (g := id), map_id]
  intro c hc
  exact charOf_acCharset (h c (mem_reverse.mp hc))

/-- No two strings over the charset have the same letters. -/
theorem letters_inj (hs : Ldh s) (ht : Ldh t) : letters s = letters t ↔ s = t := by
  constructor
  · intro heq
    have hmap := congrArg (map charOf) heq
    rw [map_charOf_letters hs, map_charOf_letters ht] at hmap
    exact reverse_inj.mp hmap
  · rintro rfl
    rfl

/-- The letters of a beginning end the letters. -/
theorem letters_suffix_iff (hs : Ldh s) (ht : Ldh t) : letters s <:+ letters t ↔ s <+: t := by
  constructor
  · intro hsuffix
    have hmap := hsuffix.map charOf
    rw [map_charOf_letters hs, map_charOf_letters ht] at hmap
    exact reverse_suffix.mp hmap
  · intro hbegin
    exact (reverse_suffix.mpr hbegin).map acCharset

theorem letters_ne_nil (h : s ≠ []) : letters s ≠ [] := by
  rw [letters, Ne, map_eq_nil_iff, reverse_eq_nil_iff]
  exact h

/-! ## What the matchers accept -/

/-- The matchers for which the automaton is exact. -/
structure Matcher.Plain (m : Matcher) : Prop where
  nonempty : m.pattern ≠ []
  ldh : Ldh m.pattern
  domain : m.type = .domain → m.pattern.head? ≠ some dot

instance (m : Matcher) : Decidable m.Plain :=
  decidable_of_iff (m.pattern ≠ [] ∧ Ldh m.pattern ∧
      (m.type = .domain → m.pattern.head? ≠ some dot))
    ⟨fun h => ⟨h.1, h.2.1, h.2.2⟩, fun h => ⟨h.nonempty, h.ldh, h.domain⟩⟩

namespace ACAutomaton

theorem value_of_mem_entriesOf {m : Matcher} {v : UInt32} {e : Entry} (he : e ∈ entriesOf m v) :
    e.value = v := by
  rw [entriesOf, mem_cons] at he
  rcases he with rfl | he
  · rfl
  · split at he
    · rw [mem_singleton.mp he]
    · cases he

theorem path_ne_nil_of_mem_entriesOf {m : Matcher} (hne : m.pattern ≠ []) {v : UInt32} {e : Entry}
    (he : e ∈ entriesOf m v) : e.path ≠ [] := by
  rw [entriesOf, mem_cons] at he
  rcases he with rfl | he
  · exact letters_ne_nil hne
  · split at he
    · rw [mem_singleton.mp he]
      exact concat_ne_nil _ _
    · cases he

theorem exists_mem_entriesOfAll {ms : List (Matcher × UInt32)} {P : Entry → Prop} :
    (∃ e ∈ entriesOfAll ms, P e) ↔ ∃ m ∈ ms, ∃ e ∈ entriesOf m.1 m.2, P e := by
  constructor
  · rintro ⟨e, he, hP⟩
    obtain ⟨m, hm, he⟩ := mem_flatMap.mp he
    exact ⟨m, hm, e, he, hP⟩
  · rintro ⟨m, hm, e, he, hP⟩
    exact ⟨e, mem_flatMap.mpr ⟨m, hm, he⟩, hP⟩

/-- The entries of a matcher are found where the matcher matches. -/
theorem exists_found_iff (entries : List Entry) {m : Matcher} (hm : m.Plain) (v : UInt32)
    {input : Bytes} (hinput : Ldh input) :
    (∃ e ∈ entriesOf m v, Found entries e input) ↔ m.isMatch input = true := by
  obtain ⟨t, pattern⟩ := m
  obtain ⟨hne, hldh, hdomain⟩ := hm
  have hdot : Ldh (dot :: pattern) := forall_mem_cons.mpr ⟨by decide, hldh⟩
  cases t with
  | full =>
    rw [Matcher.isMatch, beq_iff_eq]
    show (∃ e ∈ [⟨letters pattern, .full, v⟩], Found entries e input) ↔ _
    simp only [mem_singleton, exists_eq_left]
    exact letters_inj hldh hinput
  | domain =>
    rw [isMatch_domain_iff]
    show (∃ e ∈ [⟨letters pattern, .domain, v⟩, ⟨letters pattern ++ [acCharset dot], .domain, v⟩],
      Found entries e input) ↔ _
    simp only [mem_pair, exists_eq_or_imp, exists_eq_left, ← letters_cons, Found]
    constructor
    · rintro ((hwhole | ⟨t, ht, hpath⟩) | hwhole | ⟨t, ht, hpath⟩)
      · exact .inl ((letters_inj hldh hinput).mp hwhole).symm
      · -- the pattern does not start with a dot
        have heq := (letters_inj hldh (hinput.of_suffix ht)).mp hpath
        exact absurd (heq ▸ rfl) (hdomain rfl)
      · exact .inr ((letters_inj hdot hinput).mp hwhole ▸ suffix_rfl)
      · have heq := (letters_inj hdot (hinput.of_suffix ht)).mp hpath
        exact .inr (heq ▸ ht)
    · rintro (rfl | hsuffix)
      · exact .inl (.inl rfl)
      · exact .inr (.inr ⟨pattern, hsuffix, rfl⟩)
  | substr =>
    rw [Matcher.isMatch, contains_iff]
    show (∃ e ∈ [⟨letters pattern, .substr, v⟩], Found entries e input) ↔ _
    simp only [mem_singleton, exists_eq_left, Found, Ends]
    constructor
    · rintro ⟨t, _, ht, hsuffix, _⟩
      exact ⟨t, ht, (letters_suffix_iff hldh (hinput.of_suffix ht)).mp hsuffix⟩
    · rintro ⟨t, ht, hbegin⟩
      refine ⟨t, ?_, ht, ?_, fun hnil => absurd hnil (letters_ne_nil hne)⟩
      · rintro rfl
        exact hne (prefix_nil.mp hbegin)
      · exact (letters_suffix_iff hldh (hinput.of_suffix ht)).mpr hbegin

/-- On its charset the automaton answers as its matchers do. -/
theorem automaton_matches_exactly (ms : List (Matcher × UInt32)) (hms : ∀ m ∈ ms, m.1.Plain)
    (input : Bytes) (hinput : Ldh input) :
    ((ofMatchers ms).build.matchAny input = true ↔ ∃ m ∈ ms, m.1.isMatch input = true) ∧
      ∀ v, v ∈ (ofMatchers ms).build.matchValues input ↔
        ∃ m ∈ ms, m.2 = v ∧ m.1.isMatch input = true := by
  obtain ⟨label, hrep, hneeded⟩ := exists_ofMatchers ms
  have hbuilt := built_build hrep hneeded
  constructor
  · have hnone : ¬ ∃ e ∈ entriesOfAll ms, e.path = [] := by
      rw [exists_mem_entriesOfAll]
      rintro ⟨m, hm, e, he, hnil⟩
      exact path_ne_nil_of_mem_entriesOf (hms m hm).nonempty he hnil
    rw [matchAny_iff hbuilt, or_iff_left fun hroot => hnone hroot.2, exists_mem_entriesOfAll]
    constructor
    · rintro ⟨m, hm, hfound⟩
      exact ⟨m, hm, (exists_found_iff _ (hms m hm) m.2 hinput).mp hfound⟩
    · rintro ⟨m, hm, hmatch⟩
      exact ⟨m, hm, (exists_found_iff _ (hms m hm) m.2 hinput).mpr hmatch⟩
  · intro v
    rw [mem_matchValues hbuilt, exists_mem_entriesOfAll]
    constructor
    · rintro ⟨m, hm, e, he, rfl, hfound⟩
      exact ⟨m, hm, (value_of_mem_entriesOf he).symm,
        (exists_found_iff _ (hms m hm) m.2 hinput).mp ⟨e, he, hfound⟩⟩
    · rintro ⟨m, hm, rfl, hmatch⟩
      obtain ⟨e, he, hfound⟩ := (exists_found_iff _ (hms m hm) m.2 hinput).mpr hmatch
      exact ⟨m, hm, e, he, value_of_mem_entriesOf he, hfound⟩

/-- "a.b" whole, "b" with its subdomains, and a hyphen anywhere. -/
def oneOfEach : List (Matcher × UInt32) :=
  [(⟨.full, [0x61, dot, 0x62]⟩, 1), (⟨.domain, [0x62]⟩, 2), (⟨.substr, [0x2d]⟩, 3)]

theorem automaton_matches_exactly_oneOfEach :
    (ofMatchers oneOfEach).build.matchAny [0x2d, 0x61] = true ∧
      2 ∈ (ofMatchers oneOfEach).build.matchValues [0x61, dot, 0x62] := by
  have hplain : ∀ m ∈ oneOfEach, m.1.Plain := by decide +kernel
  constructor
  · refine (automaton_matches_exactly oneOfEach hplain [0x2d, 0x61] (by decide +kernel)).1.mpr ?_
    decide
  · refine ((automaton_matches_exactly oneOfEach hplain [0x61, dot, 0x62]
      (by decide +kernel)).2 2).mpr ?_
    decide

end ACAutomaton

end XrayCore.Strmatcher
