/-
  XrayCore.Strmatcher.ACOrder

  The order of the values of `Substr` matchers.

  `byPriority` is the order that the priority rules ask for: by position, and at one
  position as the matchers were added.  `Match` goes over the patterns at a position from
  the longest to the shorter ones, and over the shorter ones from the shortest on, all but
  the shortest twice; when that is the same list is the subject here.
-/

import XrayCore.Strmatcher.ACExact
import XrayCore.Words.Keyed

namespace XrayCore.Strmatcher

open Words List

/-- `Substr` matchers over the charset, no two with the same value. -/
structure SubstrGroup where
  matchers : List (Bytes × UInt32)
  distinct : (matchers.map Prod.snd).Nodup
  nonempty : ∀ m ∈ matchers, m.1 ≠ []
  ldh : ∀ m ∈ matchers, Ldh m.1

namespace SubstrGroup

variable (g : SubstrGroup)

/-- The group that they are added to. -/
def automaton : ACAutomaton :=
  (ACAutomaton.ofMatchers (g.matchers.map fun m => (⟨.substr, m.1⟩, m.2))).build

/-- The values by position, and at the same position in the order in which they were added. -/
def byPriority (input : Bytes) : List UInt32 :=
  input.tails.flatMap fun t => (g.matchers.filter fun m => m.1 <+: t).map Prod.snd

/-- The longest beginning of a string that some pattern ends with: the node of the automaton
    after it has read the string from the right. -/
def reached (t : Bytes) : Bytes :=
  (longest (fun w => w = [] ∨ ∃ m ∈ g.matchers, w <+: m.1.reverse) t.reverse).reverse

/-- At a position there is at most one pattern besides the one that is reached, and none of
    its matchers was added before one of that. -/
structure InOrder (t : Bytes) : Prop where
  single : ∀ m ∈ g.matchers, ∀ m' ∈ g.matchers, (m.1 <+: t ∧ m.1 ≠ g.reached t) →
    (m'.1 <+: t ∧ m'.1 ≠ g.reached t) → m.1 = m'.1
  last : g.matchers.Pairwise fun m m' => (m.1 <+: t ∧ m.1 ≠ g.reached t) → m'.1 ≠ g.reached t

instance (t : Bytes) : Decidable (g.InOrder t) :=
  decidable_of_iff ((∀ m ∈ g.matchers, ∀ m' ∈ g.matchers, (m.1 <+: t ∧ m.1 ≠ g.reached t) →
      (m'.1 <+: t ∧ m'.1 ≠ g.reached t) → m.1 = m'.1) ∧
    g.matchers.Pairwise fun m m' => (m.1 <+: t ∧ m.1 ≠ g.reached t) → m'.1 ≠ g.reached t)
    ⟨fun h => ⟨h.1, h.2⟩, fun h => ⟨h.single, h.last⟩⟩

/-! ## In the letters of the automaton -/

/-- The entries of the group. -/
def entries : List ACAutomaton.Entry := g.matchers.map fun m => ⟨letters m.1, .substr, m.2⟩

/-- The values by the letters of their patterns. -/
def keyed : List (List (Fin 39) × UInt32) := g.matchers.map fun m => (letters m.1, m.2)

open ACAutomaton

theorem entriesOfAll_eq :
    entriesOfAll (g.matchers.map fun m => (⟨.substr, m.1⟩, m.2)) = g.entries := by
  rw [entriesOfAll, flatMap_map]
  exact flatMap_pure_eq_map _ _

theorem valuesAt_substr (w : List (Fin 39)) :
    valuesAt g.entries w .substr = valuesOf g.keyed w := by
  rw [valuesAt, valuesOf, entries, keyed, filter_map, filter_map, map_map, map_map]
  simp only [Function.comp_def, and_true]

theorem valuesAt_of_ne_substr (w : List (Fin 39)) {t : MatcherType} (ht : t ≠ .substr) :
    valuesAt g.entries w t = [] := by
  rw [eq_nil_iff_forall_not_mem]
  intro v hv
  obtain ⟨e, he, _, htype, _⟩ := mem_valuesAt.mp hv
  obtain ⟨m, _, rfl⟩ := mem_map.mp he
  exact ht htype.symm

theorem reached_beginning (t : Bytes) : g.reached t <+: t := by
  rw [← reverse_suffix, reached, reverse_reverse]
  exact longest_suffix _

variable {t : Bytes}

theorem letters_reached (ht : Ldh t) :
    letters (g.reached t) = longest (IsWord g.entries) (letters t) := by
  rw [reached, letters, reverse_reverse, letters]
  refine (longest_map acCharset fun s hs => ?_).symm
  rw [IsWord, map_eq_nil_iff]
  refine or_congr Iff.rfl ⟨?_, ?_⟩
  · rintro ⟨e, he, hbegin⟩
    obtain ⟨m, hm, rfl⟩ := mem_map.mp he
    have hs' : Ldh s.reverse := fun c hc =>
      ht c (mem_reverse.mp (hs.subset (mem_reverse.mp hc)))
    have hmap := hbegin.map charOf
    rw [map_charOf_letters (g.ldh m hm), ← reverse_reverse s] at hmap
    have hspelled := map_charOf_letters hs'
    rw [letters] at hspelled
    rw [hspelled, reverse_reverse] at hmap
    exact ⟨m, hm, hmap⟩
  · rintro ⟨m, hm, hbegin⟩
    exact ⟨_, mem_map_of_mem hm, hbegin.map acCharset⟩

/-- The patterns besides the one that is reached, the longest first. -/
def shorter (t : Bytes) : List (List (Fin 39)) :=
  substrs g.entries (letters (g.reached t)).tail

theorem nodup_shorter (t : Bytes) : (letters (g.reached t) :: g.shorter t).Nodup := by
  rw [shorter]
  cases hu : letters (g.reached t) with
  | nil =>
    rw [tail_nil, substrs_nil]
    exact pairwise_singleton _ _
  | cons a u =>
    have htails : (a :: u).tails.Nodup := nodup_tails _
    rw [tails_cons] at htails
    exact htails.sublist (filter_sublist.cons_cons (a :: u))

variable {m : Bytes × UInt32}

/-- The patterns that occur at a position. -/
theorem mem_reached_or_shorter (ht : Ldh t) (hm : m ∈ g.matchers) :
    letters m.1 ∈ letters (g.reached t) :: g.shorter t ↔ m.1 <+: t := by
  have hne : valuesAt g.entries (letters m.1) .substr ≠ [] :=
    ne_nil_of_mem (mem_valuesAt.mpr ⟨_, mem_map_of_mem hm, rfl, rfl, rfl⟩)
  have hends := ends_iff hne (w := letters t)
  rw [← g.letters_reached ht] at hends
  rw [mem_cons, or_comm, shorter, ← hends, Ends,
    and_iff_left fun hnil => absurd hnil (letters_ne_nil (g.nonempty m hm)),
    letters_suffix_iff (g.ldh m hm) ht]

theorem letters_eq_reached_iff (ht : Ldh t) (hm : m ∈ g.matchers) :
    letters m.1 = letters (g.reached t) ↔ m.1 = g.reached t :=
  letters_inj (g.ldh m hm) fun c hc => ht c ((g.reached_beginning t).subset hc)

theorem mem_shorter_iff (ht : Ldh t) (hm : m ∈ g.matchers) :
    letters m.1 ∈ g.shorter t ↔ m.1 <+: t ∧ m.1 ≠ g.reached t := by
  rw [← g.mem_reached_or_shorter ht hm, Ne, ← g.letters_eq_reached_iff ht hm, mem_cons]
  constructor
  · intro hmem
    refine ⟨.inr hmem, fun heq => ?_⟩
    exact (nodup_cons.mp (g.nodup_shorter t)).1 (heq ▸ hmem)
  · rintro ⟨heq | hmem, hne⟩
    · exact absurd heq hne
    · exact hmem

theorem exists_of_mem_shorter {w : List (Fin 39)} (hw : w ∈ g.shorter t) :
    ∃ m ∈ g.matchers, letters m.1 = w := by
  obtain ⟨v, hv⟩ := exists_mem_of_ne_nil _ (mem_substrs.mp hw).2.2
  obtain ⟨e, he, hpath, _⟩ := mem_valuesAt.mp hv
  obtain ⟨m, hm, rfl⟩ := mem_map.mp he
  exact ⟨m, hm, hpath⟩

/-- The condition, in letters. -/
theorem inOrder_iff (ht : Ldh t) :
    g.InOrder t ↔ (∀ w ∈ g.shorter t, ∀ w' ∈ g.shorter t, w = w') ∧
      g.keyed.Pairwise fun m m' => m.1 ∈ g.shorter t → m'.1 ≠ letters (g.reached t) := by
  have hpairwise : (g.keyed.Pairwise fun m m' => m.1 ∈ g.shorter t → m'.1 ≠ letters (g.reached t)) ↔
      g.matchers.Pairwise fun m m' => (m.1 <+: t ∧ m.1 ≠ g.reached t) → m'.1 ≠ g.reached t := by
    rw [keyed, pairwise_map]
    refine List.Pairwise.iff_of_mem fun {m m'} hm hm' => ?_
    exact imp_congr (g.mem_shorter_iff ht hm) (not_congr (g.letters_eq_reached_iff ht hm'))
  rw [hpairwise]
  constructor
  · rintro ⟨hsingle, hlast⟩
    refine ⟨fun w hw w' hw' => ?_, hlast⟩
    obtain ⟨m, hm, rfl⟩ := g.exists_of_mem_shorter hw
    obtain ⟨m', hm', rfl⟩ := g.exists_of_mem_shorter hw'
    rw [hsingle m hm m' hm' ((g.mem_shorter_iff ht hm).mp hw) ((g.mem_shorter_iff ht hm').mp hw')]
  · rintro ⟨hsingle, hlast⟩
    refine ⟨fun m hm m' hm' h h' => ?_, hlast⟩
    have heq := hsingle _ ((g.mem_shorter_iff ht hm).mpr h) _ ((g.mem_shorter_iff ht hm').mpr h')
    exact (letters_inj (g.ldh m hm) (g.ldh m' hm')).mp heq

/-! ## The values at a position -/

/-- What `Match` finds at a position. -/
def foundAt (t : Bytes) : List UInt32 :=
  compositeMatchesReverse (substrAt g.entries (letters t))

theorem foundAt_eq (ht : Ldh t) :
    g.foundAt t = valuesOf g.keyed (letters (g.reached t)) ++
      (stutter (g.shorter t)).reverse.flatMap (valuesOf g.keyed) := by
  have hself : ∀ vs : List UInt32, (filter (· ≠ []) [vs]).reverse.flatten = vs := by
    intro vs
    by_cases hnil : vs = [] <;> simp [hnil]
  rw [foundAt, compositeMatchesReverse, substrAt, reverse_append, flatten_append, hself,
    ← g.letters_reached ht, ← map_reverse, g.valuesAt_substr]
  simp only [g.valuesAt_substr]
  rfl

theorem priorityAt_eq (ht : Ldh t) :
    (g.matchers.filter fun m => m.1 <+: t).map Prod.snd =
      valuesOfAll g.keyed (letters (g.reached t) :: g.shorter t) := by
  rw [valuesOfAll, keyed, filter_map, map_map]
  refine congrArg _ (filter_congr fun m hm => ?_)
  exact decide_eq_decide.mpr (g.mem_reached_or_shorter ht hm).symm

/-- At a position the two agree if the matchers are in order there. -/
theorem foundAt_eq_iff (ht : Ldh t) :
    g.foundAt t = (g.matchers.filter fun m => m.1 <+: t).map Prod.snd ↔ g.InOrder t := by
  have hdistinct : (g.keyed.map Prod.snd).Nodup := by
    rw [keyed, map_map]
    exact g.distinct
  have hne : ∀ w ∈ g.shorter t, valuesOf g.keyed w ≠ [] := by
    intro w hw
    rw [← g.valuesAt_substr]
    exact (mem_substrs.mp hw).2.2
  rw [g.foundAt_eq ht, g.priorityAt_eq ht, g.inOrder_iff ht]
  exact append_stutter_eq_iff hdistinct (g.nodup_shorter t) hne

/-- Nothing is left out. -/
theorem length_le_foundAt (ht : Ldh t) :
    ((g.matchers.filter fun m => m.1 <+: t).map Prod.snd).length ≤ (g.foundAt t).length := by
  rw [g.foundAt_eq ht, g.priorityAt_eq ht, length_append_stutter _ (g.nodup_shorter t)]
  exact Nat.le_add_right _ _

/-! ## The whole input -/

theorem exists_built : ∃ label, Built g.automaton label g.entries := by
  obtain ⟨label, hrep, hneeded⟩ := exists_ofMatchers (g.matchers.map fun m => (⟨.substr, m.1⟩, m.2))
  rw [entriesOfAll_eq] at hrep hneeded
  exact ⟨label, built_build hrep hneeded⟩

theorem foundAt_nil : g.foundAt [] = [] := by
  have hnone : valuesAt g.entries [] .substr = [] := by
    rw [eq_nil_iff_forall_not_mem]
    intro v hv
    obtain ⟨e, he, hpath, _⟩ := mem_valuesAt.mp hv
    obtain ⟨m, hm, rfl⟩ := mem_map.mp he
    exact letters_ne_nil (g.nonempty m hm) hpath
  show compositeMatchesReverse ((stutter (substrs g.entries [])).map _ ++
    [valuesAt g.entries [] .substr].filter (· ≠ [])) = []
  rw [substrs_nil, hnone]
  rfl

theorem compositeMatchesReverse_append (l l' : List (List UInt32)) :
    compositeMatchesReverse (l ++ l') =
      compositeMatchesReverse l' ++ compositeMatchesReverse l := by
  rw [compositeMatchesReverse, reverse_append, flatten_append]
  rfl

/-- `Match` goes over the positions from the first one. -/
theorem matchValues_eq (input : Bytes) :
    g.automaton.matchValues input = input.tails.flatMap g.foundAt := by
  obtain ⟨label, hbuilt⟩ := g.exists_built
  -- there are no other values
  have hsuffix : (g.automaton.scan input).suffixMatches = [] := by
    rw [eq_nil_iff_forall_not_mem]
    intro vs hvs
    obtain ⟨c, t, _, hvs⟩ := (mem_suffixMatches hbuilt input vs).mp hvs
    obtain ⟨hne, _, rfl⟩ := mem_suffixAt.mp hvs
    exact hne (g.valuesAt_of_ne_substr _ nofun)
  have hwhole : g.automaton.wholeMatches (g.automaton.scan input) = [] := by
    rw [eq_nil_iff_forall_not_mem]
    intro vs hvs
    obtain ⟨hne, t, ht, rfl⟩ := (mem_wholeMatches hbuilt input vs).mp hvs
    exact hne (g.valuesAt_of_ne_substr _ ht)
  rw [matchValues, hsuffix, hwhole, append_nil, append_nil]
  clear hsuffix hwhole
  induction input with
  | nil =>
    show [] = g.foundAt [] ++ []
    rw [foundAt_nil]
    rfl
  | cons c rest ih =>
    rw [substrMatches_scan hbuilt, compositeMatchesReverse_append, ih, tails_cons,
      flatMap_cons]
    rfl

/-- `Match` keeps to the priority rules exactly if at each position of the input the matchers
    are in order. -/
theorem match_by_priority_iff (input : Bytes) (hinput : Ldh input) :
    g.automaton.matchValues input = g.byPriority input ↔ ∀ t, t <:+ input → g.InOrder t := by
  have hldh : ∀ t ∈ input.tails, Ldh t := fun t ht => hinput.of_suffix ((mem_tails _ _).mp ht)
  rw [g.matchValues_eq, byPriority, flatMap_eq_iff fun t ht => g.length_le_foundAt (hldh t ht)]
  constructor
  · intro h t ht
    have hmem := (mem_tails t input).mpr ht
    exact (g.foundAt_eq_iff (hldh t hmem)).mp (h t hmem)
  · intro h t hmem
    exact (g.foundAt_eq_iff (hldh t hmem)).mpr (h t ((mem_tails t input).mp hmem))

/-- The patterns "ab" and "a", the longer one first. -/
def longerFirst : SubstrGroup :=
  ⟨[([0x61, 0x62], 1), ([0x61], 2)], by decide, by decide, by decide +kernel⟩

theorem match_by_priority_iff_longerFirst :
    (∀ t, t <:+ [0x61, 0x62] → longerFirst.InOrder t) ∧
      longerFirst.automaton.matchValues [0x61, 0x62] = longerFirst.byPriority [0x61, 0x62] := by
  have horder : ∀ t, t <:+ [0x61, 0x62] → longerFirst.InOrder t := by
    intro t ht
    have hall : ∀ t ∈ tails [0x61, 0x62], longerFirst.InOrder t := by decide
    exact hall t ((mem_tails _ _).mpr ht)
  exact ⟨horder, (match_by_priority_iff longerFirst [0x61, 0x62] (by decide +kernel)).mpr horder⟩

/-- The patterns "a", "ab" and "abc". -/
def nested : SubstrGroup :=
  ⟨[([0x61], 1), ([0x61, 0x62], 2), ([0x61, 0x62, 0x63], 3)],
    by decide, by decide, by decide +kernel⟩

/-- With patterns that begin with each other the longest comes first, and those between the
    longest and the shortest come twice. -/
theorem match_not_by_priority :
    nested.automaton.matchValues [0x61, 0x62, 0x63] = [3, 1, 2, 2] ∧
      nested.byPriority [0x61, 0x62, 0x63] = [1, 2, 3] := by
  decide +kernel

end SubstrGroup

end XrayCore.Strmatcher
