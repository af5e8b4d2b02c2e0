/-
  XrayCore.Strmatcher.ACMatch

  What the automaton answers.

  After some bytes the node at hand has the longest suffix of what was read that is a word
  of the trie, and no fail edge was taken as long as all of it is one (`scanned`).  The
  walk over the fail path passes all shorter patterns that end here, but it reads the
  values of all but the last one twice (`failWalk_eq`).
-/

import XrayCore.Strmatcher.ACBuild
import XrayCore.Words.Stutter

namespace XrayCore.Strmatcher.ACAutomaton

open Words List

variable {ac : ACAutomaton} {label : ℕ → List (Fin 39)} {entries : List Entry}

/-! ## The fail path -/

/-- The paths with `Substr` values among the suffixes of a word, the longest first. -/
def substrs (entries : List Entry) (w : List (Fin 39)) : List (List (Fin 39)) :=
  w.tails.filter (IsSubstr entries)

variable {w : List (Fin 39)}

theorem mem_substrs {x : List (Fin 39)} : x ∈ substrs entries w ↔ x <:+ w ∧ IsSubstr entries x := by
  rw [substrs, mem_filter, mem_tails, decide_eq_true_iff]

theorem substrs_nil (entries : List Entry) : substrs entries [] = [] := by
  rw [eq_nil_iff_forall_not_mem]
  intro x hx
  obtain ⟨hsuffix, hsubstr⟩ := mem_substrs.mp hx
  exact hsubstr.1 (suffix_nil.mp hsuffix)

theorem substrs_of_isSubstr (h : IsSubstr entries w) :
    substrs entries w = w :: substrs entries w.tail := by
  rw [substrs, filter_tails_of_ne_nil h.1, if_pos h]
  rfl

theorem firstSubstr_eq_nil_or (entries : List Entry) (w : List (Fin 39)) :
    firstSubstr entries w = [] ∨ IsSubstr entries (firstSubstr entries w) := by
  rw [firstSubstr]
  cases hhead : (w.tails.filter (IsSubstr entries)).head? with
  | none => exact .inl rfl
  | some f => exact .inr (mem_substrs.mp (mem_of_head? hhead)).2

/-- The first of them has the others among its suffixes. -/
theorem substrs_firstSubstr (entries : List Entry) (w : List (Fin 39)) :
    substrs entries (firstSubstr entries w) = substrs entries w := by
  rw [firstSubstr]
  cases hhead : (w.tails.filter (IsSubstr entries)).head? with
  | none =>
    have hnone : substrs entries w = [] := head?_eq_none_iff.mp hhead
    rw [hnone]
    exact substrs_nil entries
  | some f =>
    have hf : IsSubstr entries f := (mem_substrs.mp (mem_of_head? hhead)).2
    have hcons : substrs entries w = f :: substrs entries f.tail :=
      filter_tails_of_head? (fun hnil => hnil.1 rfl) hhead
    rw [hcons]
    exact substrs_of_isSubstr hf

theorem Trie.eq_zero_iff (h : Trie ac label) {i : ℕ} (hi : i < ac.size) : label i = [] ↔ i = 0 := by
  constructor
  · intro hnil
    exact h.inj i hi 0 h.pos (hnil.trans h.root.symm)
  · rintro rfl
    exact h.root

/-- A node is less deep than there are nodes. -/
theorem Trie.length_lt (h : Trie ac label) {i : ℕ} (hi : i < ac.size) :
    (label i).length < ac.size := by
  -- each beginning of the label has a node of its own
  have hbegin : ∀ k : Fin ((label i).length + 1), ∃ j : Fin ac.size,
      label j = (label i).take k := by
    intro k
    obtain ⟨j, hj, hlabel⟩ := h.exists_label_of_beginning _ i hi (List.take_prefix k.val (label i))
    exact ⟨⟨j, hj⟩, hlabel⟩
  choose f hf using hbegin
  have hinj : Function.Injective f := by
    intro k k' heq
    have hlen := congrArg length ((hf k).symm.trans (heq ▸ hf k'))
    rw [length_take, length_take] at hlen
    exact Fin.ext (by omega)
  have hcard := Fintype.card_le_of_injective f hinj
  rw [Fintype.card_fin, Fintype.card_fin] at hcard
  omega

section Built

variable (h : Built ac label entries)

include h

/-- The walk over the fail path from the root or from a node with values. -/
theorem failWalk_eq (n : ℕ) {j : ℕ} (hj : j < ac.size)
    (hsubstr : label j = [] ∨ IsSubstr entries (label j))
    (hn : 2 * (substrs entries (label j)).length ≤ n) :
    ac.failWalk n j j =
      (stutter (substrs entries (label j))).map fun w => valuesAt entries w .substr := by
  induction n using Nat.strong_induction_on generalizing j with
  | h n ih =>
    rcases hsubstr with hnil | hsubstr
    · -- the root ends the walk
      rw [(h.trie.eq_zero_iff hj).mp hnil, h.trie.root, substrs_nil]
      cases n with
      | zero => rfl
      | succ n => exact if_pos rfl
    · have hne : j ≠ 0 := fun hzero => hsubstr.1 ((h.trie.eq_zero_iff hj).mpr hzero)
      obtain ⟨hk, hlabel⟩ := h.fail j hj
      have hsubstrs : substrs entries (label j) =
          label j :: substrs entries (label (ac.node j).fail) := by
        rw [substrs_of_isSubstr hsubstr, hlabel, substrs_firstSubstr]
      rw [hsubstrs, length_cons] at hn
      obtain ⟨n, rfl⟩ : ∃ m, n = m + 2 := ⟨n - 2, by omega⟩
      -- the index goes ahead of the node, so the node is read once more unless the walk ends
      rw [hsubstrs, failWalk, if_neg hne, h.holds.values j hj, failWalk]
      split
      · next hzero =>
        rw [hzero, h.trie.root, substrs_nil]
        rfl
      · next hzero =>
        have hsubstr' : IsSubstr entries (label (ac.node j).fail) := by
          rw [hlabel]
          refine (firstSubstr_eq_nil_or entries _).resolve_left fun hnil => hzero ?_
          exact (h.trie.eq_zero_iff hk).mp (hlabel.trans hnil)
        rw [ih n (by omega) hk (.inr hsubstr') (by omega), h.holds.values j hj,
          substrs_of_isSubstr hsubstr']
        rfl

/-- The walk that is made for a node. -/
theorem failWalk_fail {i : ℕ} (hi : i < ac.size) :
    ac.failWalk (2 * ac.size) (ac.node i).fail (ac.node i).fail =
      (stutter (substrs entries (label i).tail)).map fun w => valuesAt entries w .substr := by
  obtain ⟨hk, hlabel⟩ := h.fail i hi
  have hsubstrs : substrs entries (label (ac.node i).fail) = substrs entries (label i).tail := by
    rw [hlabel, substrs_firstSubstr]
  rw [← hsubstrs]
  apply failWalk_eq h _ hk
  · rw [hlabel]
    exact firstSubstr_eq_nil_or entries _
  · have hlen : (substrs entries (label i).tail).length ≤ (label i).tail.tails.length :=
      length_filter_le ..
    have hlt := h.trie.length_lt hi
    have hpos := h.trie.pos
    rw [length_tails, length_tail] at hlen
    rw [hsubstrs]
    omega

end Built

/-! ## The loop over the input -/

theorem letters_cons (c : UInt8) (s : Bytes) : letters (c :: s) = letters s ++ [acCharset c] := by
  rw [letters, reverse_cons, map_append]
  rfl

theorem scan_cons (ac : ACAutomaton) (c : UInt8) (rest : Bytes) :
    ac.scan (c :: rest) = ac.scanByte (ac.scan rest) c := by
  rw [scan, reverse_cons, foldl_append]
  rfl

theorem node_scanByte (ac : ACAutomaton) (s : Scan) (c : UInt8) :
    (ac.scanByte s c).node = (ac.node s.node).next (acCharset c) := by
  rw [scanByte]
  split <;> rfl

theorem fullMatch_scanByte (ac : ACAutomaton) (s : Scan) (c : UInt8) :
    (ac.scanByte s c).fullMatch = (s.fullMatch && (ac.node s.node).edge (acCharset c)) := by
  rw [scanByte]
  split <;> rfl

/-- A node without an entry has no values, so it need not be told apart. -/
theorem substrMatches_scanByte (hzero : ∀ t, ac.value 0 t = []) (s : Scan) (c : UInt8) :
    (ac.scanByte s c).substrMatches = s.substrMatches ++
      (ac.failWalk (2 * ac.size) (ac.node (ac.scanByte s c).node).fail
          (ac.node (ac.scanByte s c).node).fail ++
        [ac.value (ac.node (ac.scanByte s c).node).entry .substr].filter (· ≠ [])) := by
  rw [node_scanByte, scanByte]
  generalize (ac.node s.node).next (acCharset c) = next
  by_cases hentry : (ac.node next).entry = 0
  · rw [if_neg (not_not.mpr hentry), hentry, hzero]
    simp
  · rw [if_pos hentry, ← append_assoc]
    by_cases hnil : ac.value (ac.node next).entry .substr = []
    · simp [hnil]
    · simp [hnil]

theorem suffixMatches_scanByte (hzero : ∀ t, ac.value 0 t = []) (s : Scan) (c : UInt8) :
    (ac.scanByte s c).suffixMatches = s.suffixMatches ++
      if (ac.scanByte s c).fullMatch = true ∧ c = dot then
        [ac.value (ac.node (ac.scanByte s c).node).entry .domain].filter (· ≠ [])
      else [] := by
  rw [node_scanByte, fullMatch_scanByte, scanByte]
  generalize (ac.node s.node).next (acCharset c) = next
  generalize (s.fullMatch && (ac.node s.node).edge (acCharset c)) = full
  by_cases hentry : (ac.node next).entry = 0
  · rw [if_neg (not_not.mpr hentry), hentry, hzero]
    simp
  · rw [if_pos hentry]
    by_cases hnil : ac.value (ac.node next).entry .domain = []
    · simp [hnil]
    · by_cases hdot : full = true ∧ c = dot
      · simp [hnil, hdot]
      · have hdot' : ¬ (full = true ∧ c = dot ∧ ac.value (ac.node next).entry .domain ≠ []) :=
          fun hall => hdot ⟨hall.1, hall.2.1⟩
        rw [if_neg hdot, append_nil]
        exact if_neg hdot'

/-- The `Substr` values that are found when a word has been read. -/
def substrAt (entries : List Entry) (w : List (Fin 39)) : List (List UInt32) :=
  let u := longest (IsWord entries) w
  (stutter (substrs entries u.tail)).map (fun x => valuesAt entries x .substr) ++
    [valuesAt entries u .substr].filter (· ≠ [])

/-- The `Domain` values that are found when a word has been read, `c` last. -/
def suffixAt (entries : List Entry) (c : UInt8) (w : List (Fin 39)) : List (List UInt32) :=
  if IsWord entries w ∧ c = dot then [valuesAt entries w .domain].filter (· ≠ []) else []

/-- The node after some input. -/
structure At (ac : ACAutomaton) (label : ℕ → List (Fin 39)) (entries : List Entry)
    (input : Bytes) (s : Scan) : Prop where
  lt : s.node < ac.size
  node : label s.node = longest (IsWord entries) (letters input)
  fullMatch : s.fullMatch = true ↔ IsWord entries (letters input)

/-- As long as no fail edge was taken the label is all of the input. -/
theorem At.node_of_fullMatch {input : Bytes} {s : Scan} (hs : At ac label entries input s)
    (hfull : s.fullMatch = true) : label s.node = letters input := by
  rw [hs.node, longest_of_mem (hs.fullMatch.mp hfull)]

section Built

variable (h : Built ac label entries)

include h

/-- A trie edge stands for a word. -/
theorem edge_iff {i : ℕ} (hi : i < ac.size) (a : Fin 39) :
    (ac.node i).edge a = true ↔ IsWord entries (label i ++ [a]) := by
  rw [h.words]
  constructor
  · intro hedge
    exact ⟨_, h.trie.child i hi a hedge⟩
  · rintro ⟨j, hj, hlabel⟩
    exact (h.trie.edge_of_label hi hj hlabel).1

/-- One more byte. -/
theorem At.scanByte {rest : Bytes} {s : Scan} (hs : At ac label entries rest s) (c : UInt8) :
    At ac label entries (c :: rest) (ac.scanByte s c) := by
  obtain ⟨hlt, hlabel⟩ := h.next s.node hs.lt (acCharset c)
  constructor
  · rw [node_scanByte]
    exact hlt
  · rw [node_scanByte, hlabel, hs.node, letters_cons]
    exact (longest_append (isWord_nil entries) (fun _ _ => isWord_of_append) _ _).symm
  · rw [fullMatch_scanByte, Bool.and_eq_true, edge_iff h hs.lt, letters_cons]
    constructor
    · rintro ⟨hfull, hedge⟩
      rwa [hs.node_of_fullMatch hfull] at hedge
    · intro hword
      have hfull := hs.fullMatch.mpr (isWord_of_append hword)
      rw [hs.node_of_fullMatch hfull]
      exact ⟨hfull, hword⟩

theorem at_scan (input : Bytes) : At ac label entries input (ac.scan input) := by
  induction input with
  | nil => exact ⟨h.trie.pos, h.trie.root, ⟨fun _ => isWord_nil entries, fun _ => rfl⟩⟩
  | cons c rest ih =>
    rw [scan_cons]
    exact ih.scanByte h c

/-- The `Substr` values of one more byte. -/
theorem substrMatches_scan (c : UInt8) (rest : Bytes) :
    (ac.scan (c :: rest)).substrMatches =
      (ac.scan rest).substrMatches ++ substrAt entries (letters (c :: rest)) := by
  have hat := at_scan h (c :: rest)
  have hwalk := failWalk_fail h hat.lt
  have hvalues := h.holds.values _ hat.lt .substr
  rw [hat.node] at hwalk hvalues
  rw [scan_cons] at hwalk hvalues
  rw [scan_cons, substrMatches_scanByte h.holds.zero, hwalk, hvalues]
  rfl

/-- The `Domain` values of one more byte. -/
theorem suffixMatches_scan (c : UInt8) (rest : Bytes) :
    (ac.scan (c :: rest)).suffixMatches =
      (ac.scan rest).suffixMatches ++ suffixAt entries c (letters (c :: rest)) := by
  have hat := at_scan h (c :: rest)
  have hvalues := h.holds.values _ hat.lt .domain
  rw [scan_cons, suffixMatches_scanByte h.holds.zero, suffixAt, ← scan_cons, hvalues]
  congr 1
  by_cases hfull : (ac.scan (c :: rest)).fullMatch = true
  · rw [hat.node_of_fullMatch hfull]
    simp only [hfull, hat.fullMatch.mp hfull, true_and]
  · have hword := fun hword => hfull (hat.fullMatch.mpr hword)
    rw [if_neg fun hall => hfull hall.1, if_neg fun hall => hword hall.1]

end Built

/-! ## The values that are found -/

theorem mem_valuesAt {t : MatcherType} {v : UInt32} :
    v ∈ valuesAt entries w t ↔ ∃ e ∈ entries, e.path = w ∧ e.type = t ∧ e.value = v := by
  rw [valuesAt, mem_map]
  simp only [mem_filter, decide_eq_true_iff, and_assoc]

/-- A path ends the word that was read; the empty one only counts at the root. -/
def Ends (entries : List Entry) (path w : List (Fin 39)) : Prop :=
  path <:+ w ∧ (path = [] → longest (IsWord entries) w = [])

/-- All that ends the word is its longest suffix in the trie or on the fail path of that. -/
theorem ends_iff {path : List (Fin 39)} (hsubstr : valuesAt entries path .substr ≠ []) :
    Ends entries path w ↔ path ∈ substrs entries (longest (IsWord entries) w).tail ∨
      path = longest (IsWord entries) w := by
  generalize hu : longest (IsWord entries) w = u
  by_cases hnil : path = []
  · subst hnil
    rw [mem_substrs, Ends, hu]
    constructor
    · rintro ⟨_, hroot⟩
      exact .inr (hroot rfl).symm
    · rintro (⟨_, hne⟩ | hroot)
      · exact absurd rfl hne.1
      · exact ⟨nil_suffix, fun _ => hroot.symm⟩
  · have hsub : IsSubstr entries path := ⟨hnil, hsubstr⟩
    have hmem : path <:+ w ↔ path <:+ u := by
      rw [← hu]
      constructor
      · intro hsuffix
        exact suffix_longest hsuffix (isWord_of_isSubstr hsub)
      · intro hsuffix
        exact hsuffix.trans (longest_suffix w)
    rw [mem_substrs, Ends, hmem]
    constructor
    · rintro ⟨hsuffix, _⟩
      cases u with
      | nil => exact .inr (suffix_nil.mp hsuffix)
      | cons a u =>
        rcases suffix_cons_iff.mp hsuffix with heq | htail
        · exact .inr heq
        · exact .inl ⟨htail, hsub⟩
    · rintro (⟨htail, _⟩ | rfl)
      · exact ⟨htail.trans (tail_suffix u), fun h => absurd h hnil⟩
      · exact ⟨suffix_rfl, fun h => absurd h hnil⟩

/-- The lists of values that are found are not empty. -/
theorem mem_substrAt {vs : List UInt32} :
    vs ∈ substrAt entries w ↔
      vs ≠ [] ∧ ∃ path, Ends entries path w ∧ valuesAt entries path .substr = vs := by
  rw [substrAt, mem_append, mem_map, mem_filter, mem_singleton,
    decide_eq_true_iff]
  constructor
  · rintro (⟨path, hpath, rfl⟩ | ⟨rfl, hne⟩)
    · rw [mem_stutter] at hpath
      have hne := (mem_substrs.mp hpath).2.2
      exact ⟨hne, path, (ends_iff hne).mpr (.inl hpath), rfl⟩
    · exact ⟨hne, _, (ends_iff hne).mpr (.inr rfl), rfl⟩
  · rintro ⟨hne, path, hends, rfl⟩
    rcases (ends_iff hne).mp hends with hpath | rfl
    · exact .inl ⟨path, (mem_stutter _).mpr hpath, rfl⟩
    · exact .inr ⟨rfl, hne⟩

theorem mem_suffixAt {c : UInt8} {vs : List UInt32} :
    vs ∈ suffixAt entries c w ↔ vs ≠ [] ∧ c = dot ∧ valuesAt entries w .domain = vs := by
  rw [suffixAt]
  constructor
  · intro hvs
    split at hvs
    · next hdot =>
      rw [mem_filter, mem_singleton, decide_eq_true_iff] at hvs
      exact ⟨hvs.2, hdot.2, hvs.1.symm⟩
    · nomatch hvs
  · rintro ⟨hne, rfl, rfl⟩
    -- where there are values there is a word
    obtain ⟨v, hv⟩ := exists_mem_of_ne_nil _ hne
    obtain ⟨e, he, rfl, _⟩ := mem_valuesAt.mp hv
    rw [if_pos ⟨.inr ⟨e, he, prefix_rfl⟩, rfl⟩, mem_filter, mem_singleton,
      decide_eq_true_iff]
    exact ⟨rfl, hne⟩

section Built

variable (h : Built ac label entries)

include h

theorem mem_substrMatches (input : Bytes) (vs : List UInt32) :
    vs ∈ (ac.scan input).substrMatches ↔
      ∃ t, t ≠ [] ∧ t <:+ input ∧ vs ∈ substrAt entries (letters t) := by
  induction input with
  | nil =>
    constructor
    · exact nofun
    · rintro ⟨t, hne, ht, _⟩
      exact absurd (suffix_nil.mp ht) hne
  | cons c rest ih =>
    rw [substrMatches_scan h, mem_append, ih]
    constructor
    · rintro (⟨t, hne, ht, hvs⟩ | hvs)
      · exact ⟨t, hne, ht.trans (suffix_cons c rest), hvs⟩
      · exact ⟨c :: rest, cons_ne_nil _ _, suffix_rfl, hvs⟩
    · rintro ⟨t, hne, ht, hvs⟩
      rcases suffix_cons_iff.mp ht with rfl | ht
      · exact .inr hvs
      · exact .inl ⟨t, hne, ht, hvs⟩

theorem mem_suffixMatches (input : Bytes) (vs : List UInt32) :
    vs ∈ (ac.scan input).suffixMatches ↔
      ∃ c t, c :: t <:+ input ∧ vs ∈ suffixAt entries c (letters (c :: t)) := by
  induction input with
  | nil =>
    constructor
    · exact nofun
    · rintro ⟨c, t, ht, _⟩
      exact absurd (suffix_nil.mp ht) (cons_ne_nil _ _)
  | cons c rest ih =>
    rw [suffixMatches_scan h, mem_append, ih]
    constructor
    · rintro (⟨c', t, ht, hvs⟩ | hvs)
      · exact ⟨c', t, ht.trans (suffix_cons c rest), hvs⟩
      · exact ⟨c, rest, suffix_rfl, hvs⟩
    · rintro ⟨c', t, ht, hvs⟩
      rcases suffix_cons_iff.mp ht with heq | ht
      · obtain ⟨rfl, rfl⟩ := cons.inj heq
        exact .inr hvs
      · exact .inl ⟨c', t, ht, hvs⟩

/-- A node with values has an entry. -/
theorem entry_ne_zero {e : Entry} (he : e ∈ entries) {i : ℕ} (hi : i < ac.size)
    (hpath : e.path = label i) : (ac.node i).entry ≠ 0 := by
  intro hzero
  have hmem : e.value ∈ valuesAt entries (label i) e.type :=
    mem_valuesAt.mpr ⟨e, he, hpath, rfl, rfl⟩
  rw [← h.holds.values i hi, hzero, h.holds.zero] at hmem
  nomatch hmem

theorem mem_wholeMatches (input : Bytes) (vs : List UInt32) :
    vs ∈ ac.wholeMatches (ac.scan input) ↔
      vs ≠ [] ∧ ∃ t, t ≠ .substr ∧ valuesAt entries (letters input) t = vs := by
  have hat := at_scan h input
  rw [wholeMatches]
  constructor
  · intro hvs
    split at hvs
    · next hfull =>
      rw [h.holds.values _ hat.lt, h.holds.values _ hat.lt, hat.node_of_fullMatch hfull.1,
        mem_filter, decide_eq_true_iff, mem_pair] at hvs
      rcases hvs with ⟨rfl | rfl, hne⟩
      · exact ⟨hne, .domain, nofun, rfl⟩
      · exact ⟨hne, .full, nofun, rfl⟩
    · nomatch hvs
  · rintro ⟨hne, t, ht, rfl⟩
    obtain ⟨v, hv⟩ := exists_mem_of_ne_nil _ hne
    obtain ⟨e, he, hpath, _⟩ := mem_valuesAt.mp hv
    have hfull : (ac.scan input).fullMatch = true :=
      hat.fullMatch.mpr (.inr ⟨e, he, hpath ▸ prefix_rfl⟩)
    have hlabel := hat.node_of_fullMatch hfull
    rw [if_pos ⟨hfull, entry_ne_zero h he hat.lt (hpath.trans hlabel.symm)⟩,
      h.holds.values _ hat.lt, h.holds.values _ hat.lt, hlabel, mem_filter,
      decide_eq_true_iff, mem_pair]
    refine ⟨?_, hne⟩
    cases t with
    | full => exact .inr rfl
    | domain => exact .inl rfl
    | substr => exact absurd rfl ht

end Built

/-! ## The answers -/

/-- The automaton finds an entry in an input. -/
def Found (entries : List Entry) (e : Entry) (input : Bytes) : Prop :=
  match e.type with
  | .full => e.path = letters input
  | .domain => e.path = letters input ∨ ∃ t, dot :: t <:+ input ∧ e.path = letters (dot :: t)
  | .substr => ∃ t, t ≠ [] ∧ t <:+ input ∧ Ends entries e.path (letters t)

section Built

variable (h : Built ac label entries)

include h

/-- The lists that `Match` collects are those of what is found. -/
theorem mem_matches (input : Bytes) (vs : List UInt32) :
    vs ∈ (ac.scan input).substrMatches ++
        ((ac.scan input).suffixMatches ++ ac.wholeMatches (ac.scan input)) ↔
      vs ≠ [] ∧ ∃ w t, valuesAt entries w t = vs ∧
        ∀ e ∈ entries, e.path = w → e.type = t → Found entries e input := by
  rw [mem_append, mem_append, mem_substrMatches h, mem_suffixMatches h,
    mem_wholeMatches h]
  constructor
  · rintro (⟨t, ht, hsuffix, hvs⟩ | ⟨c, t, hsuffix, hvs⟩ | ⟨hne, t, ht, rfl⟩)
    · obtain ⟨hne, w, hends, rfl⟩ := mem_substrAt.mp hvs
      refine ⟨hne, w, .substr, rfl, fun e _ hw htype => ?_⟩
      rw [Found, htype]
      exact ⟨t, ht, hsuffix, hw ▸ hends⟩
    · obtain ⟨hne, rfl, rfl⟩ := mem_suffixAt.mp hvs
      refine ⟨hne, _, .domain, rfl, fun e _ hw htype => ?_⟩
      rw [Found, htype]
      exact .inr ⟨t, hsuffix, hw⟩
    · refine ⟨hne, _, t, rfl, fun e _ hw htype => ?_⟩
      rw [Found, htype]
      cases t with
      | full => exact hw
      | domain => exact .inl hw
      | substr => exact absurd rfl ht
  · rintro ⟨hne, w, t, rfl, hfound⟩
    obtain ⟨v, hv⟩ := exists_mem_of_ne_nil _ hne
    obtain ⟨e, he, rfl, rfl, _⟩ := mem_valuesAt.mp hv
    have hfound := hfound e he rfl rfl
    rw [Found] at hfound
    cases htype : e.type with
    | full =>
      rw [htype] at hfound hne
      rw [hfound] at hne ⊢
      exact .inr (.inr ⟨hne, .full, nofun, rfl⟩)
    | domain =>
      rw [htype] at hfound hne
      rcases hfound with hwhole | ⟨t, hsuffix, hpath⟩
      · rw [hwhole] at hne ⊢
        exact .inr (.inr ⟨hne, .domain, nofun, rfl⟩)
      · rw [hpath] at hne ⊢
        exact .inr (.inl ⟨dot, t, hsuffix, mem_suffixAt.mpr ⟨hne, rfl, rfl⟩⟩)
    | substr =>
      rw [htype] at hfound hne
      obtain ⟨t, ht, hsuffix, hends⟩ := hfound
      exact .inl ⟨t, ht, hsuffix, mem_substrAt.mpr ⟨hne, e.path, hends, rfl⟩⟩

/-- The values that `Match` returns. -/
theorem mem_matchValues (input : Bytes) (v : UInt32) :
    v ∈ ac.matchValues input ↔ ∃ e ∈ entries, e.value = v ∧ Found entries e input := by
  rw [matchValues, compositeMatchesReverse, mem_flatten]
  simp only [mem_reverse, mem_matches h]
  constructor
  · rintro ⟨_, ⟨_, w, t, rfl, hfound⟩, hv⟩
    obtain ⟨e, he, hpath, htype, hvalue⟩ := mem_valuesAt.mp hv
    exact ⟨e, he, hvalue, hfound e he hpath htype⟩
  · rintro ⟨e, he, rfl, hfound⟩
    have hmem : e.value ∈ valuesAt entries e.path e.type := mem_valuesAt.mpr ⟨e, he, rfl, rfl, rfl⟩
    refine ⟨_, ⟨ne_nil_of_mem hmem, e.path, e.type, rfl, fun e' _ hpath htype => ?_⟩, hmem⟩
    rw [Found] at hfound ⊢
    rw [hpath, htype]
    exact hfound

end Built

/-! ## `MatchAny` -/

/-- Something was found before the end of the input. -/
def Hit (ac : ACAutomaton) (input : Bytes) : Prop :=
  (ac.scan input).substrMatches ≠ [] ∨ (ac.scan input).suffixMatches ≠ []

theorem failWalk_ne_nil_iff {n : ℕ} (hn : 0 < n) (i : ℕ) : ac.failWalk n i i ≠ [] ↔ i ≠ 0 := by
  obtain ⟨n, rfl⟩ := Nat.exists_eq_succ_of_ne_zero (Nat.ne_of_gt hn)
  rw [failWalk]
  split
  · next hzero => exact ⟨fun h => absurd rfl h, fun h => absurd hzero h⟩
  · next hzero => exact ⟨fun _ => hzero, fun _ => cons_ne_nil _ _⟩

theorem filter_ne_nil_singleton {α : Type} [DecidableEq α] (vs : List α) :
    [vs].filter (· ≠ []) ≠ [] ↔ vs ≠ [] := by
  by_cases hnil : vs = [] <;> simp [hnil]

/-- What one more byte finds. -/
theorem hit_cons (hpos : 0 < ac.size) (hzero : ∀ t, ac.value 0 t = []) (c : UInt8)
    (rest : Bytes) :
    ac.Hit (c :: rest) ↔ ac.Hit rest ∨
      ((ac.node (ac.scan (c :: rest)).node).fail ≠ 0 ∨
        ac.value (ac.node (ac.scan (c :: rest)).node).entry .substr ≠ [] ∨
        ((ac.scan (c :: rest)).fullMatch = true ∧ c = dot) ∧
          ac.value (ac.node (ac.scan (c :: rest)).node).entry .domain ≠ []) := by
  have hif : ∀ (p : Prop) [Decidable p] (l : List (List UInt32)),
      (if p then l else []) ≠ [] ↔ p ∧ l ≠ [] := by
    intro p _ l
    by_cases hp : p <;> simp [hp]
  have happend : ∀ l l' : List (List UInt32), l ++ l' ≠ [] ↔ l ≠ [] ∨ l' ≠ [] := by
    intro l l'
    rw [Ne, append_eq_nil_iff, not_and_or]
  rw [Hit, scan_cons, substrMatches_scanByte hzero, suffixMatches_scanByte hzero, happend,
    happend, happend, hif, failWalk_ne_nil_iff (by omega),
    filter_ne_nil_singleton, filter_ne_nil_singleton, Hit]
  constructor
  · rintro ((h | h | h) | h | h)
    · exact .inl (.inl h)
    · exact .inr (.inl h)
    · exact .inr (.inr (.inl h))
    · exact .inl (.inr h)
    · exact .inr (.inr (.inr h))
  · rintro ((h | h) | h | h | h)
    · exact .inl (.inl h)
    · exact .inr (.inl h)
    · exact .inl (.inr (.inl h))
    · exact .inl (.inr (.inr h))
    · exact .inr (.inr h)

theorem Hit.append (hpos : 0 < ac.size) (hzero : ∀ t, ac.value 0 t = []) (front : Bytes)
    {rest : Bytes} (h : ac.Hit rest) : ac.Hit (front ++ rest) := by
  induction front with
  | nil => exact h
  | cons c front ih => exact (hit_cons hpos hzero c _).mpr (.inl ih)

/-- The loop of `MatchAny` stops when something is found. -/
theorem matchAnyFrom_cons (hpos : 0 < ac.size) (hzero : ∀ t, ac.value 0 t = []) (c : UInt8)
    (rev : Bytes) {done : Bytes} (hdone : ¬ ac.Hit done) :
    ac.matchAnyFrom (ac.scan done).node (ac.scan done).fullMatch (c :: rev) = true ↔
      ac.Hit (c :: done) ∨ ac.matchAnyFrom (ac.scan (c :: done)).node
        (ac.scan (c :: done)).fullMatch rev = true := by
  have hhit := (hit_cons hpos hzero c done).trans (or_iff_right hdone)
  have hentry : ∀ (i : ℕ) (t : MatcherType), ac.value i t ≠ [] → i ≠ 0 := by
    rintro i t hne rfl
    exact hne (hzero t)
  rw [hhit, matchAnyFrom, scan_cons, node_scanByte, fullMatch_scanByte]
  generalize (ac.node (ac.scan done).node).next (acCharset c) = next
  generalize ((ac.scan done).fullMatch && (ac.node (ac.scan done).node).edge (acCharset c)) = full
  by_cases hfail : (ac.node next).fail ≠ 0
  · rw [if_pos hfail]
    exact ⟨fun _ => .inl (.inl hfail), fun _ => rfl⟩
  rw [if_neg hfail]
  by_cases hsubstr : ac.value (ac.node next).entry .substr ≠ []
  · rw [if_pos ⟨hentry _ _ hsubstr, hsubstr⟩]
    exact ⟨fun _ => .inl (.inr (.inl hsubstr)), fun _ => rfl⟩
  rw [if_neg fun hall => hsubstr hall.2]
  by_cases hdomain : (full = true ∧ c = dot) ∧ ac.value (ac.node next).entry .domain ≠ []
  · rw [if_pos ⟨hentry _ _ hdomain.2, hdomain.1.1, hdomain.1.2, hdomain.2⟩]
    exact ⟨fun _ => .inl (.inr (.inr hdomain)), fun _ => rfl⟩
  rw [if_neg fun hall => hdomain ⟨⟨hall.2.1, hall.2.2.1⟩, hall.2.2.2⟩]
  constructor
  · exact .inr
  · rintro ((h | h | h) | h)
    · exact absurd h hfail
    · exact absurd h hsubstr
    · exact absurd h hdomain
    · exact h

theorem matchAnyFrom_iff (hpos : 0 < ac.size) (hzero : ∀ t, ac.value 0 t = []) (rev : Bytes)
    {done : Bytes} (hdone : ¬ ac.Hit done) :
    ac.matchAnyFrom (ac.scan done).node (ac.scan done).fullMatch rev = true ↔
      ac.Hit (rev.reverse ++ done) ∨ (ac.scan (rev.reverse ++ done)).fullMatch = true ∧
        (ac.node (ac.scan (rev.reverse ++ done)).node).entry ≠ 0 := by
  induction rev generalizing done with
  | nil =>
    rw [reverse_nil, nil_append, or_iff_right hdone, matchAnyFrom, Bool.and_eq_true,
      decide_eq_true_iff]
  | cons c rev ih =>
    rw [matchAnyFrom_cons hpos hzero c rev hdone, reverse_cons, append_assoc,
      singleton_append]
    by_cases hhit : ac.Hit (c :: done)
    · exact ⟨fun _ => .inl (hhit.append hpos hzero _), fun _ => .inl hhit⟩
    · rw [or_iff_right hhit, ih hhit]

/-- `MatchAny` is true if there is a value for `Match`, or, for the empty input, if anything
    was added for the root. -/
theorem matchAny_iff (h : Built ac label entries) (input : Bytes) :
    ac.matchAny input = true ↔ (∃ e ∈ entries, Found entries e input) ∨
      input = [] ∧ ∃ e ∈ entries, e.path = [] := by
  have hat := at_scan h input
  have hstart : ¬ ac.Hit [] := by rintro (hne | hne) <;> exact hne rfl
  have hany := matchAnyFrom_iff h.trie.pos h.holds.zero input.reverse hstart
  rw [reverse_reverse, append_nil] at hany
  have hfound : ∀ vs, vs ∈ (ac.scan input).substrMatches ++
      ((ac.scan input).suffixMatches ++ ac.wholeMatches (ac.scan input)) →
      ∃ e ∈ entries, Found entries e input := by
    intro vs hvs
    obtain ⟨hne, w, t, rfl, hfound⟩ := (mem_matches h input vs).mp hvs
    obtain ⟨v, hv⟩ := exists_mem_of_ne_nil _ hne
    obtain ⟨e, he, hpath, htype, _⟩ := mem_valuesAt.mp hv
    exact ⟨e, he, hfound e he hpath htype⟩
  rw [matchAny]
  refine hany.trans ⟨?_, ?_⟩
  · rintro ((hne | hne) | ⟨hfull, hentry⟩)
    · obtain ⟨vs, hvs⟩ := exists_mem_of_ne_nil _ hne
      exact .inl (hfound vs (mem_append_left _ hvs))
    · obtain ⟨vs, hvs⟩ := exists_mem_of_ne_nil _ hne
      exact .inl (hfound vs (mem_append_right _ (mem_append_left _ hvs)))
    · -- whatever the entry is for is found, unless it is a part and there is no input
      obtain ⟨e, he, hpath⟩ := h.used _ hat.lt hentry
      rw [hat.node_of_fullMatch hfull] at hpath
      by_cases hempty : input = []
      · subst hempty
        exact .inr ⟨rfl, e, he, hpath⟩
      · refine .inl ⟨e, he, ?_⟩
        rw [Found]
        split
        · exact hpath
        · exact .inl hpath
        · refine ⟨input, hempty, suffix_rfl, hpath ▸ suffix_rfl, fun hnil => ?_⟩
          rw [← hpath, hnil]
          rfl
  · rintro (⟨e, he, hfound⟩ | ⟨rfl, e, he, hnil⟩)
    · have hmem : e.value ∈ ac.matchValues input :=
        (mem_matchValues h input e.value).mpr ⟨e, he, rfl, hfound⟩
      rw [matchValues, compositeMatchesReverse, mem_flatten] at hmem
      obtain ⟨vs, hvs, _⟩ := hmem
      rw [mem_reverse, mem_append, mem_append] at hvs
      rcases hvs with hvs | hvs | hvs
      · exact .inl (.inl (ne_nil_of_mem hvs))
      · exact .inl (.inr (ne_nil_of_mem hvs))
      · rw [wholeMatches] at hvs
        split at hvs
        · next hfull => exact .inr hfull
        · nomatch hvs
    · exact .inr ⟨rfl, entry_ne_zero h he h.trie.pos (hnil.trans h.trie.root.symm)⟩

end XrayCore.Strmatcher.ACAutomaton
