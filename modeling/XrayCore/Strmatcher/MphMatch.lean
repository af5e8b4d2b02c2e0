/-
  XrayCore.Strmatcher.MphMatch

  The hash table group against plain matching.

  Once `build` has succeeded a lookup gives the record of a pattern and nothing for any
  other string (`answers_lookup`), so `Match` is the list that the definition of the
  matchers gives.
-/

import XrayCore.Strmatcher.MphPlace

namespace XrayCore.Strmatcher

open Table Wire List

namespace MphMatcherGroup

variable {g : MphMatcherGroup} {added : List Added}

/-! ## Built groups -/

/-- A group that was built from these patterns. -/
structure Ready (g : MphMatcherGroup) (added : List Added) (recs : List UInt32)
    (keys : List Bytes) : Prop where
  records : Records g added recs keys
  arena : g.arena.length < 2 ^ 29
  placed : Placed g (recs.zip (keys.map fun k => mphMix (mphHash g.mul k)))

variable {g' : MphMatcherGroup}

/-- The records do not depend on the tables. -/
theorem Records.congr {recs : List UInt32} {keys : List Bytes}
    (h : Records g added recs keys) (harena : g'.arena = g.arena) (hmulti : g'.multi = g.multi)
    (hsingle : g'.single = g.single) : Records g' added recs keys := by
  refine ⟨h.nodup, h.mem, ?_, ?_, ?_, ?_⟩
  · rw [harena, hmulti]
    exact h.leads
  · rw [harena]
    exact h.length_lt
  · rw [harena, hmulti]
    exact h.first
  · rw [hmulti, hsingle]
    exact h.single

/-- The patterns are read back from the records. -/
theorem Records.recKeys {recs : List UInt32} {keys : List Bytes}
    (h : Records g added recs keys) (harena : g.arena.length < 2 ^ 29) :
    recs.map (fun rec => (g.recKey rec).getD []) = keys := by
  have hleads := h.leads
  clear h
  induction hleads with
  | nil => rfl
  | cons hhead _ ih =>
    obtain ⟨off, hword, hstored⟩ := hhead
    have hmask := recordWord_and_mask (Nat.lt_trans hstored.lt harena)
    rw [map_cons, ih, hword, hstored.recKey harena (hmask _)]
    rfl

theorem buildWith_spec {recs : List UInt32} {keys : List Bytes} {muls : List UInt64}
    (h : g.buildWith recs keys muls = .ok g') :
    ∃ mul, { g with mul := mul }.place recs (keys.map fun k => mphMix (mphHash mul k)) =
      .ok g' := by
  induction muls with
  | nil => nomatch h
  | cons mul muls ih =>
    rw [buildWith] at h
    split at h
    · next hplace =>
      obtain rfl := Except.ok.inj h
      exact ⟨mul, hplace⟩
    · split at h
      · exact ih h
      · nomatch h

/-- What `Build` leaves when it succeeds. -/
theorem build_spec (h : g.build = .ok g') : ∃ recs keys, Ready g' g.added recs keys := by
  obtain ⟨keys, hrecords⟩ := g.records_writeRecords
  rw [build] at h
  split at h
  · nomatch h
  split at h
  · nomatch h
  by_cases hlarge : g.writeRecords.1.arena.length > mphOffMask.toNat
  · rw [if_pos hlarge] at h
    nomatch h
  rw [if_neg hlarge] at h
  have harena : g.writeRecords.1.arena.length < 2 ^ 29 := Nat.lt_succ_of_le (Nat.not_lt.mp hlarge)
  rw [hrecords.recKeys harena] at h
  obtain ⟨mul, hplace⟩ := buildWith_spec h
  have hlen : g.writeRecords.2.length = (keys.map fun k => mphMix (mphHash mul k)).length := by
    rw [length_map, hrecords.leads.length_eq]
  obtain ⟨hplaced, harena', hmul, hmulti, hsingle⟩ := place_spec hlen
    (Nat.lt_trans hrecords.length_lt harena) hplace
  refine ⟨g.writeRecords.2, keys, hrecords.congr harena' hmulti hsingle, ?_, ?_⟩
  · rw [harena']
    exact harena
  · rw [hmul]
    exact hplaced

/-! ## Lookups -/

variable {e : UInt32} {k : Bytes}

/-- The record of a slot is compared with a string. -/
theorem Stored.compareRecord {vals : MphKind → List UInt32} {off : ℕ}
    (h : Stored g.multi g.arena k vals off) (harena : g.arena.length < 2 ^ 29)
    (he : (e &&& mphOffMask).toNat = off) (s : Bytes) :
    g.compareRecord e s = some (if k = s then e else 0) := by
  rw [MphMatcherGroup.compareRecord]
  by_cases hs : s.length < 255
  · obtain ⟨rest, hrest⟩ := h.drop
    rw [recordBytes_eq, append_assoc] at hrest
    rw [if_pos hs, he]
    by_cases hk : k.length < 255
    · have hbytes : lengthBytes k.length = [UInt8.ofNat k.length] := if_pos hk
      have htoNat : (UInt8.ofNat k.length).toNat = k.length := by
        rw [UInt8.toNat_ofNat']
        omega
      rw [hbytes] at hrest
      rw [getElem?_of_drop hrest, Option.bind_eq_bind, Option.bind_some, htoNat]
      by_cases hlen : k.length = s.length
      · have hdrop := drop_add_of_drop hrest
        rw [append_assoc] at hdrop
        rw [if_neg (not_not.mpr hlen), ← hlen]
        rw [show part g.arena (off + 1) k.length = some k from part_of_drop h.lt hdrop]
        rfl
      · rw [if_pos hlen, if_neg fun heq => hlen (congrArg length heq)]
        rfl
    · have hbytes : lengthBytes k.length = 255 :: Wire.uvarint k.length := if_neg hk
      rw [hbytes] at hrest
      have hne : (255 : UInt8).toNat ≠ s.length := Nat.ne_of_gt hs
      rw [getElem?_of_drop hrest, Option.bind_eq_bind, Option.bind_some, if_pos hne,
        if_neg fun heq : k = s => hk (heq ▸ hs)]
      rfl
  · rw [if_neg hs, h.recKey harena he]
    rfl

/-- A word answers for a string: it has the kinds under which the string was added, and their
    values. -/
structure Answers (g : MphMatcherGroup) (added : List Added) (s : Bytes) (e : UInt32) : Prop where
  has : ∀ t, Has e t ↔ valuesFor added s t ≠ []
  values : ∀ want, g.appendValues e want = some (wanted want (valuesFor added s) mphKinds)

theorem not_has_zero (t : MphKind) : ¬ Has 0 t := fun h => h (UInt32.zero_and ..)

variable {s : Bytes}

/-- No word answers for a string that was not added. -/
theorem answers_zero (h : ¬ ∃ a ∈ added, a.key = s) : Answers g added s 0 := by
  have hnone : ∀ t, valuesFor added s t = [] := by
    intro t
    have hfilter : (added.filter fun a => a.key = s ∧ a.kind = t) = [] := by
      rw [filter_eq_nil_iff]
      intro a ha hmatch
      exact h ⟨a, ha, (of_decide_eq_true hmatch).1⟩
    rw [valuesFor, hfilter]
    rfl
  constructor
  · intro t
    exact ⟨fun hhas => absurd hhas (not_has_zero t), fun hne => absurd (hnone t) hne⟩
  · intro want
    have hwanted : wanted want (valuesFor added s) mphKinds = [] := by
      rw [wanted, flatMap_eq_nil_iff]
      intro t _
      rw [hnone t, ite_self]
    have hfilter : (mphKinds.filter fun t => (0 : UInt32) &&& want &&& t.flag ≠ 0) = [] := by
      rw [filter_eq_nil_iff]
      intro t _ hmatch
      have hhas : Has (0 &&& want) t := of_decide_eq_true hmatch
      exact not_has_zero t (has_and.mp hhas).1
    rw [hwanted, appendValues, hfilter, UInt32.zero_and, if_pos rfl]
    split <;> rfl

theorem Stored.answers {off : ℕ} (h : Stored g.multi g.arena k (valuesFor added k) off)
    (harena : g.arena.length < 2 ^ 29)
    (hsingle : g.multi = false → ∀ k t, valuesFor added k t ≠ [] →
      valuesFor added k t = [g.single]) :
    Answers g added k (recordWord off (valuesFor added k)) :=
  ⟨recordWord_has (Nat.lt_trans h.lt harena) _,
    h.appendValues harena fun hmulti => hsingle hmulti k⟩

variable {recs : List UInt32} {keys : List Bytes}

/-- Every record is that of a pattern. -/
theorem Ready.stored_of_mem (h : Ready g added recs keys) {x : UInt32 × UInt64}
    (hx : x ∈ recs.zip (keys.map fun k => mphMix (mphHash g.mul k))) :
    ∃ k ∈ keys, ∃ off, x.1 = recordWord off (valuesFor added k) ∧
      Stored g.multi g.arena k (valuesFor added k) off := by
  rw [zip_map_right, mem_map] at hx
  obtain ⟨⟨rec, k⟩, hmem, rfl⟩ := hx
  obtain ⟨off, hword, hstored⟩ := (forall₂_iff_zip.mp h.records.leads).2 hmem
  exact ⟨k, (of_mem_zip hmem).2, off, hword, hstored⟩

/-- Every pattern has a record. -/
theorem Ready.exists_mem (h : Ready g added recs keys) (hk : k ∈ keys) :
    ∃ off, Stored g.multi g.arena k (valuesFor added k) off ∧
      (recordWord off (valuesFor added k), mphMix (mphHash g.mul k)) ∈
        recs.zip (keys.map fun k => mphMix (mphHash g.mul k)) := by
  have hlen := h.records.leads.length_eq
  obtain ⟨i, hi, rfl⟩ := mem_iff_getElem.mp hk
  have hmem : (recs[i], keys[i]) ∈ recs.zip keys := by
    rw [← getElem_zip (h := by rw [length_zip]; omega)]
    exact getElem_mem _
  obtain ⟨off, hword, hstored⟩ := (forall₂_iff_zip.mp h.records.leads).2 hmem
  refine ⟨off, hstored, ?_⟩
  rw [zip_map_right, mem_map]
  exact ⟨(recs[i], keys[i]), hmem, Prod.ext hword rfl⟩

/-- A slot that a string shares with a pattern is not mistaken for it. -/
theorem Ready.compareRecord_of_notMem (h : Ready g added recs keys) (hs : s ∉ keys)
    (he : e = 0 ∨ ∃ x ∈ recs.zip (keys.map fun k => mphMix (mphHash g.mul k)), x.1 = e) :
    g.compareRecord e s = some 0 := by
  rcases he with rfl | ⟨x, hx, rfl⟩
  · -- an empty slot leads to the first record
    obtain ⟨k, vals, hstored⟩ := h.records.first
    rw [hstored.compareRecord h.arena (by rfl), ite_self]
  · obtain ⟨k, hk, off, hword, hstored⟩ := h.stored_of_mem hx
    have hmask := recordWord_and_mask (Nat.lt_trans hstored.lt h.arena) (valuesFor added k)
    rw [hword, hstored.compareRecord h.arena hmask, if_neg fun heq : k = s => hs (heq ▸ hk)]

/-- A lookup finds exactly what was added. -/
theorem Ready.answers_lookup (h : Ready g added recs keys) (s : Bytes) :
    ∃ e, g.lookup (mphHash g.mul s) s = some e ∧ Answers g added s e := by
  by_cases hs : s ∈ keys
  · obtain ⟨off, hstored, hmem⟩ := h.exists_mem hs
    have hmask := recordWord_and_mask (Nat.lt_trans hstored.lt h.arena) (valuesFor added s)
    obtain ⟨seed, hseed, hfp, hrec⟩ := h.placed.found _ hmem
    refine ⟨_, ?_, hstored.answers h.arena h.records.single⟩
    rw [lookup, hseed, Option.bind_eq_bind, Option.bind_some, hfp, Option.bind_eq_bind,
      Option.bind_some, if_neg (not_not.mpr rfl), hrec]
    exact (hstored.compareRecord h.arena hmask s).trans (by rw [if_pos rfl])
  · have hnone : ¬ ∃ a ∈ added, a.key = s := fun hadded => hs ((h.records.mem s).mpr hadded)
    obtain ⟨seed, fp, e, hseed, hfp, hrec, he⟩ := h.placed.total (mphMix (mphHash g.mul s))
    refine ⟨0, ?_, answers_zero hnone⟩
    rw [lookup, hseed, Option.bind_eq_bind, Option.bind_some, hfp, Option.bind_eq_bind,
      Option.bind_some]
    by_cases hne : fp ≠ (mphMix (mphHash g.mul s)).toUInt8
    · rw [if_pos hne]
      rfl
    · rw [if_neg hne, hrec]
      exact h.compareRecord_of_notMem hs he

/-! ## Matching -/

/-- The parts of a string behind its dots, the longest first. -/
def afterDots : Bytes → List Bytes
  | [] => []
  | c :: rest => if c = dot then rest :: afterDots rest else afterDots rest

/-- The values for the string itself. -/
def exactValues (added : List Added) (s : Bytes) : List UInt32 :=
  valuesFor added s .full ++ valuesFor added s .domain

/-- The values for what stands before a string and a dot. -/
def parentValues (added : List Added) (s : Bytes) : List UInt32 :=
  valuesFor added s .parent ++ valuesFor added s .domain

theorem wanted_exactFlags (vals : MphKind → List UInt32) :
    wanted exactFlags vals mphKinds = vals .full ++ vals .domain := by
  have hfull : Has exactFlags .full := by decide
  have hparent : ¬ Has exactFlags .parent := by decide
  have hdomain : Has exactFlags .domain := by decide
  simp [wanted, mphKinds, hfull, hparent, hdomain]

theorem wanted_parentFlags (vals : MphKind → List UInt32) :
    wanted parentFlags vals mphKinds = vals .parent ++ vals .domain := by
  have hfull : ¬ Has parentFlags .full := by decide
  have hparent : Has parentFlags .parent := by decide
  have hdomain : Has parentFlags .domain := by decide
  simp [wanted, mphKinds, hfull, hparent, hdomain]

theorem Answers.and_exactFlags (h : Answers g added s e) :
    e &&& exactFlags ≠ 0 ↔ exactValues added s ≠ [] := by
  rw [exactFlags, and_flags_ne_zero_iff, h.has, h.has, exactValues, Ne, Ne, Ne,
    append_eq_nil_iff, not_and_or]

theorem Answers.and_parentFlags (h : Answers g added s e) :
    e &&& parentFlags ≠ 0 ↔ parentValues added s ≠ [] := by
  rw [parentFlags, and_flags_ne_zero_iff, h.has, h.has, parentValues, Ne, Ne, Ne,
    append_eq_nil_iff, not_and_or, or_comm]

/-- The loop of `Match` finds the words of the parents that have values. -/
theorem Ready.parents (h : Ready g added recs keys) (input : Bytes) :
    ∃ es, g.parents input = some (mphHash g.mul input, es) ∧
      List.Forall₂ (fun e s => Answers g added s e) es.reverse
        ((afterDots input).filter fun s => parentValues added s ≠ []) := by
  induction input with
  | nil => exact ⟨[], rfl, .nil⟩
  | cons c rest ih =>
    obtain ⟨es, hes, hanswers⟩ := ih
    rw [MphMatcherGroup.parents, hes, Option.bind_eq_bind, Option.bind_some]
    by_cases hdot : c = dot
    · obtain ⟨e, he, hans⟩ := h.answers_lookup rest
      rw [if_pos hdot, he, Option.bind_eq_bind, Option.bind_some, afterDots, if_pos hdot]
      by_cases hflags : e &&& parentFlags ≠ 0
      · refine ⟨es ++ [e], ?_, ?_⟩
        · rw [if_pos hflags]
          rfl
        · have hne := hans.and_parentFlags.mp hflags
          rw [filter_cons, if_pos (decide_eq_true hne), reverse_concat]
          exact .cons hans hanswers
      · refine ⟨es, ?_, ?_⟩
        · rw [if_neg hflags]
          rfl
        · have hnil := mt hans.and_parentFlags.mpr hflags
          rw [filter_cons, if_neg (mt of_decide_eq_true hnil)]
          exact hanswers
    · rw [if_neg hdot, afterDots, if_neg hdot]
      exact ⟨es, rfl, hanswers⟩

theorem Answers.mapM_appendValues {es : List UInt32} {suffixes : List Bytes}
    (h : List.Forall₂ (fun e s => Answers g added s e) es suffixes) :
    es.mapM (fun e => g.appendValues e parentFlags) = some (suffixes.map (parentValues added)) := by
  induction h with
  | nil => rfl
  | cons hhead _ ih =>
    rw [mapM_cons, hhead.values, wanted_parentFlags, ih]
    rfl

theorem flatMap_filter_ne_nil {α β : Type} (f : α → List β) [DecidableEq β] (l : List α) :
    (l.filter fun a => f a ≠ []).flatMap f = l.flatMap f := by
  induction l with
  | nil => rfl
  | cons a l ih =>
    by_cases hnil : f a = []
    · rw [filter_cons_of_neg (by simp [hnil]), flatMap_cons, hnil, ih, nil_append]
    · rw [filter_cons_of_pos (by simp [hnil]), flatMap_cons, flatMap_cons, ih]

/-- All values that a string is given. -/
def allValues (added : List Added) (input : Bytes) : List UInt32 :=
  exactValues added input ++ (afterDots input).flatMap (parentValues added)

theorem Ready.matchValues (h : Ready g added recs keys) (input : Bytes) :
    g.matchValues input = some (allValues added input) := by
  obtain ⟨es, hes, hanswers⟩ := h.parents input
  obtain ⟨e, he, hans⟩ := h.answers_lookup input
  rw [MphMatcherGroup.matchValues, hes, Option.bind_eq_bind, Option.bind_some, he,
    Option.bind_eq_bind, Option.bind_some, allValues, ← flatMap_filter_ne_nil]
  by_cases hnone : e &&& exactFlags = 0 ∧ es = []
  · -- nothing was found
    have hexact : exactValues added input = [] :=
      not_not.mp fun hne => hans.and_exactFlags.mpr hne hnone.1
    rw [hnone.2, reverse_nil, forall₂_nil_left_iff] at hanswers
    rw [if_pos hnone, hexact, hanswers]
    rfl
  · rw [if_neg hnone, hans.values, wanted_exactFlags, Option.bind_eq_bind, Option.bind_some,
      Answers.mapM_appendValues hanswers, Option.bind_eq_bind, Option.bind_some,
      ← flatMap_def]
    rfl

/-- The loop of `MatchAny` returns if a parent has values. -/
theorem Ready.anyParent (h : Ready g added recs keys) (input : Bytes) :
    g.anyParent input = some (if (afterDots input).flatMap (parentValues added) = []
      then some (mphHash g.mul input) else none) := by
  induction input with
  | nil => rfl
  | cons c rest ih =>
    obtain ⟨e, he, hans⟩ := h.answers_lookup rest
    rw [MphMatcherGroup.anyParent, ih, Option.bind_eq_bind, Option.bind_some, afterDots]
    by_cases hrest : (afterDots rest).flatMap (parentValues added) = []
    · rw [if_pos hrest]
      by_cases hdot : c = dot
      · rw [if_pos hdot, flatMap_cons, hrest, append_nil]
        by_cases hflags : e &&& parentFlags ≠ 0
        · rw [if_neg (hans.and_parentFlags.mp hflags)]
          simp [hdot, he, hflags]
        · rw [if_pos (not_not.mp fun hne => hflags (hans.and_parentFlags.mpr hne))]
          simp [hdot, he, not_not.mp hflags]
          rfl
      · rw [if_neg hdot, if_pos hrest]
        simp [hdot]
        rfl
    · have hmore : (if c = dot then rest :: afterDots rest else afterDots rest).flatMap
          (parentValues added) ≠ [] := by
        split
        · rw [flatMap_cons]
          exact append_ne_nil_of_right_ne_nil _ hrest
        · exact hrest
      rw [if_neg hrest, if_neg hmore]
      rfl

theorem Ready.matchAny (h : Ready g added recs keys) (input : Bytes) :
    g.matchAny input = some (decide (allValues added input ≠ [])) := by
  obtain ⟨e, he, hans⟩ := h.answers_lookup input
  rw [MphMatcherGroup.matchAny, h.anyParent, Option.bind_eq_bind, Option.bind_some, allValues]
  by_cases hparents : (afterDots input).flatMap (parentValues added) = []
  · rw [if_pos hparents, hparents, append_nil]
    simp only [he, Option.bind_eq_bind, Option.bind_some, decide_eq_decide.mpr hans.and_exactFlags]
    rfl
  · rw [if_neg hparents, decide_eq_true (append_ne_nil_of_right_ne_nil _ hparents)]
    rfl

/-! ## Calls -/

def Call.pattern : Call → Bytes
  | .full pattern _ => pattern
  | .domain pattern _ => pattern

def Call.value : Call → UInt32
  | .full _ value => value
  | .domain _ value => value

def Call.kind : Call → MphKind
  | .full .. => .full
  | .domain .. => .domain

variable {toLower : Bytes → Bytes}

/-- What a call adds. -/
def Call.adds (toLower : Bytes → Bytes) (c : Call) : List Added :=
  ⟨toLower c.pattern, c.kind, c.value⟩ ::
    if (toLower c.pattern).head? = some dot then [⟨(toLower c.pattern).tail, .parent, c.value⟩]
    else []

/-- A group before `Build`: its entries lie in what was written. -/
structure Open (g : MphMatcherGroup) (added : List Added) : Prop where
  arena : g.arena = []
  within : ∀ e ∈ g.entries, e.off + e.n ≤ g.buf.length
  holds : g.added = added

theorem open_new : Open new [] := ⟨rfl, nofun, rfl⟩

theorem call_eq (toLower : Bytes → Bytes) (g : MphMatcherGroup) (c : Call) :
    g.call toLower c = g.add toLower c.pattern c.kind c.value := by cases c <;> rfl

/-- Where an entry lies nothing changes. -/
theorem keyOf_append {e : MphEntry} (h : e.off + e.n ≤ g.buf.length) {more : Bytes}
    (hbuf : g'.buf = g.buf ++ more) : g'.keyOf e = g.keyOf e := by
  have hle : e.n ≤ (g.buf.drop e.off).length := by
    rw [length_drop]
    omega
  rw [keyOf, keyOf, hbuf, drop_append_of_le_length (by omega), take_append_of_le_length hle]

/-- The entries of a pattern that was just written. -/
theorem map_newEntries {buf : Bytes} {pattern : Bytes} (hbuf : g.buf = buf ++ pattern)
    (kind : MphKind) (value : UInt32) :
    (newEntries pattern kind value buf.length).map (fun e => Added.mk (g.keyOf e) e.kind e.value) =
      ⟨pattern, kind, value⟩ ::
        if pattern.head? = some dot then [⟨pattern.tail, .parent, value⟩] else [] := by
  have hwhole : (g.buf.drop buf.length).take pattern.length = pattern := by
    rw [hbuf, drop_left, take_length]
  have htail : (g.buf.drop (buf.length + 1)).take (pattern.length - 1) = pattern.tail := by
    rw [hbuf, ← drop_drop, drop_left, drop_one, ← length_tail, take_length]
  rw [newEntries, map_cons, keyOf, hwhole]
  split
  · rw [map_singleton, keyOf, htail]
  · rfl

theorem Open.call (h : Open g added) (c : Call) :
    ∃ g', g.call toLower c = some g' ∧ Open g' (added ++ c.adds toLower) := by
  have hlen : ∀ e ∈ newEntries (toLower c.pattern) c.kind c.value g.buf.length,
      g.buf.length ≤ e.off ∧ e.off + e.n ≤ g.buf.length + (toLower c.pattern).length := by
    intro e he
    rcases mem_cons.mp he with rfl | htail
    · exact ⟨Nat.le_refl _, Nat.le_refl _⟩
    · split at htail
      · next hhead =>
        obtain ⟨s, hs⟩ := head?_eq_some_iff.mp hhead
        obtain rfl := mem_singleton.mp htail
        have hpos := congrArg length hs
        rw [length_cons] at hpos
        exact ⟨Nat.le_add_right _ 1, by simp only; omega⟩
      · nomatch htail
  rw [call_eq, add, if_neg (not_not.mpr h.arena)]
  refine ⟨_, rfl, h.arena, ?_, ?_⟩
  · intro e he
    rw [length_append]
    rcases mem_append.mp he with hold | hnew
    · have hle := h.within e hold
      omega
    · exact (hlen e hnew).2
  · rw [MphMatcherGroup.added, map_append, ← h.holds, MphMatcherGroup.added]
    congr 1
    · apply map_congr_left
      intro e he
      rw [keyOf_append (h.within e he) rfl]
    · exact map_newEntries rfl c.kind c.value

theorem ofCalls_spec (toLower : Bytes → Bytes) (calls : List Call) :
    ∃ g, ofCalls toLower calls = some g ∧ Open g (calls.flatMap (Call.adds toLower)) := by
  have hrun : ∀ (g : MphMatcherGroup) (added : List Added), Open g added →
      ∃ g', calls.foldlM (MphMatcherGroup.call toLower) g = some g' ∧
        Open g' (added ++ calls.flatMap (Call.adds toLower)) := by
    induction calls with
    | nil =>
      intro g added h
      exact ⟨g, rfl, by rw [flatMap_nil, append_nil]; exact h⟩
    | cons c calls ih =>
      intro g added h
      obtain ⟨g', hcall, hopen⟩ := @h.call _ _ toLower c
      obtain ⟨g'', hfold, hopen'⟩ := ih g' _ hopen
      refine ⟨g'', ?_, ?_⟩
      · rw [foldlM_cons, hcall]
        exact hfold
      · rw [flatMap_cons, ← append_assoc]
        exact hopen'
  exact hrun new [] open_new

/-! ## The documented values -/

/-- The values of some of the calls, in their order, each once. -/
def valuesOf (calls : List Call) (p : Call → Bool) : List UInt32 :=
  ((calls.filter p).map Call.value).eraseDups

/-- What `Match` should report: the values of the `Full` and of the `Domain` entries that are
    the input, and for each part of it that follows a dot, the longest first, those of the
    entries that are that part with a dot before it and of the `Domain` entries that are it. -/
def documented (toLower : Bytes → Bytes) (calls : List Call) (input : Bytes) :
    List UInt32 :=
  valuesOf calls (fun c => c.kind = .full ∧ toLower c.pattern = input) ++
  valuesOf calls (fun c => c.kind = .domain ∧ toLower c.pattern = input) ++
  (afterDots input).flatMap fun s =>
    valuesOf calls (fun c => toLower c.pattern = dot :: s) ++
    valuesOf calls (fun c => c.kind = .domain ∧ toLower c.pattern = s)

theorem valuesFor_flatMap_adds (calls : List Call) (s : Bytes) (t : MphKind) (p : Call → Bool)
    (h : ∀ c : Call, ((c.adds toLower).filter fun a => a.key = s ∧ a.kind = t).map Added.value =
      if p c then [c.value] else []) :
    valuesFor (calls.flatMap (Call.adds toLower)) s t = valuesOf calls p := by
  rw [valuesFor, valuesOf]
  congr 1
  induction calls with
  | nil => rfl
  | cons c calls ih =>
    rw [flatMap_cons, filter_append, map_append, ih, h, filter_cons]
    split <;> rfl

theorem kind_ne_parent (c : Call) : c.kind ≠ .parent := by cases c <;> nofun

theorem valuesFor_adds (calls : List Call) (s : Bytes) {t : MphKind} (ht : t ≠ .parent) :
    valuesFor (calls.flatMap (Call.adds toLower)) s t =
      valuesOf calls fun c => c.kind = t ∧ toLower c.pattern = s := by
  apply valuesFor_flatMap_adds
  intro c
  have hparent : ((if (toLower c.pattern).head? = some dot
      then [Added.mk (toLower c.pattern).tail .parent c.value] else []).filter
        fun a => a.key = s ∧ a.kind = t) = [] := by
    split <;> simp [ht.symm]
  rw [Call.adds, filter_cons, hparent]
  by_cases hc : c.kind = t ∧ toLower c.pattern = s
  · simp [hc.1, hc.2]
  · rw [if_neg (by simpa [and_comm] using hc), if_neg (by simpa using hc)]
    rfl

theorem valuesFor_adds_parent (calls : List Call) (s : Bytes) :
    valuesFor (calls.flatMap (Call.adds toLower)) s .parent =
      valuesOf calls fun c => toLower c.pattern = dot :: s := by
  apply valuesFor_flatMap_adds
  intro c
  rw [Call.adds, filter_cons, if_neg (by simp [kind_ne_parent c])]
  cases toLower c.pattern with
  | nil => rfl
  | cons b rest =>
    by_cases hb : b = dot
    · by_cases hrest : rest = s <;> simp [hb, hrest]
    · simp [hb]

theorem allValues_adds (calls : List Call) (input : Bytes) :
    allValues (calls.flatMap (Call.adds toLower)) input = documented toLower calls input := by
  rw [allValues, documented, exactValues, valuesFor_adds calls input (by decide),
    valuesFor_adds calls input (by decide)]
  congr 2
  funext s
  rw [parentValues, valuesFor_adds_parent, valuesFor_adds calls s (by decide)]

/-- A group that was built reports the documented values, and `MatchAny` whether there are
    any. -/
theorem match_eq_documented (toLower : Bytes → Bytes) (calls : List Call)
    (g g' : MphMatcherGroup) (hcalls : ofCalls toLower calls = some g) (hbuild : g.build = .ok g')
    (input : Bytes) :
    g'.matchValues input = some (documented toLower calls input) ∧
      g'.matchAny input = some (decide (documented toLower calls input ≠ [])) := by
  obtain ⟨g₀, hsome, hopen⟩ := ofCalls_spec toLower calls
  obtain rfl := Option.some.inj (hsome.symm.trans hcalls)
  obtain ⟨recs, keys, hready⟩ := build_spec hbuild
  rw [hopen.holds] at hready
  rw [← allValues_adds]
  exact ⟨hready.matchValues input, hready.matchAny input⟩

/-- `full:a`, `domain:.a` and `domain:b`. -/
def threeCalls : List Call := [.full [97] 1, .domain [46, 97] 2, .domain [98] 1]

theorem match_eq_documented_threeCalls :
    ∃ g g', ofCalls id threeCalls = some g ∧ g.build = .ok g' ∧
      g'.matchValues [98, 46, 97] = some [2] ∧ g'.matchAny [98, 46, 97] = some true := by
  have hbuilt : ((ofCalls id threeCalls).bind fun g => g.build.toOption).isSome := by decide
  obtain ⟨g', hg'⟩ := Option.isSome_iff_exists.mp hbuilt
  obtain ⟨g, hg, hbuild⟩ := Option.bind_eq_some_iff.mp hg'
  have hok : g.build = .ok g' := by
    cases h : g.build with
    | error err =>
      rw [h] at hbuild
      nomatch hbuild
    | ok g'' =>
      rw [h] at hbuild
      rw [Option.some.inj hbuild]
  obtain ⟨hmatch, hany⟩ := match_eq_documented id threeCalls g g' hg hok [98, 46, 97]
  have hdoc : documented id threeCalls [98, 46, 97] = [2] := by decide
  rw [hdoc] at hmatch hany
  exact ⟨g, g', hg, hok, hmatch, hany⟩

end MphMatcherGroup

end XrayCore.Strmatcher
