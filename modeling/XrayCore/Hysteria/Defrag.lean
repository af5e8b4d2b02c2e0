/-
  XrayCore.Hysteria.Defrag

  Putting the fragments of UDP messages together again.

  The fragments of one message can come in any order and more than once: while some are
  missing nothing is returned, the last one that was missing gives the message, and after
  that nothing is returned again (`feedAll_frags`).  A message that was not cut is returned
  each time it comes.
-/

import XrayCore.Hysteria.Frag

namespace XrayCore.Hysteria

open List

/-- `Defragger`. -/
structure Defragger where
  pktID : UInt16
  frags : List (Option UDPMessage)
  count : UInt8
  size : ℕ

namespace Defragger

/-- The data of all fragments, copied into a slice of some size; `none` where one is nil. -/
def assemble (frags : List (Option UDPMessage)) (size : ℕ) : Option Bytes :=
  (frags.mapM id).map fun fs => (fs.flatMap UDPMessage.data ++ List.replicate size 0).take size

/-- `Feed`: what is returned, if it is not nil; `none` where the program stops. -/
def feed (d : Defragger) (m : UDPMessage) : Option (Option UDPMessage × Defragger) :=
  if m.fragCount ≤ 1 then some (some m, d)
  else if m.fragID ≥ m.fragCount then some (none, d)
  else if m.packetID ≠ d.pktID ∨ m.fragCount ≠ UInt8.ofNat d.frags.length then
    some (none, ⟨m.packetID,
      (List.replicate m.fragCount.toNat none).set m.fragID.toNat (some m), 1, m.data.length⟩)
  else match d.frags[m.fragID.toNat]? with
    | none => none
    | some (some _) => some (none, d)
    | some none =>
      let frags := d.frags.set m.fragID.toNat (some m)
      let count := d.count + 1
      let size := d.size + m.data.length
      if count.toNat = frags.length then
        (assemble frags size).map fun data =>
          let m' := { m with data, fragID := 0, fragCount := 1 }
          -- the message that is returned is still the one in the table
          (some m', ⟨d.pktID, frags.set m.fragID.toNat (some m'), count, size⟩)
      else some (none, ⟨d.pktID, frags, count, size⟩)

/-- All that is returned for some messages, one after the other. -/
def feedAll (d : Defragger) : List UDPMessage → Option (List UDPMessage × Defragger)
  | [] => some ([], d)
  | m :: ms => do
    let r ← d.feed m
    let rest ← feedAll r.2 ms
    return (r.1.toList ++ rest.1, rest.2)

theorem feedAll_cons {d d' d'' : Defragger} {m : UDPMessage} {ms rs : List UDPMessage}
    {r : Option UDPMessage} (hfeed : d.feed m = some (r, d'))
    (hrest : d'.feedAll ms = some (rs, d'')) :
    d.feedAll (m :: ms) = some (r.toList ++ rs, d'') := by
  rw [feedAll, hfeed]
  show (d'.feedAll ms).bind _ = _
  rw [hrest]
  rfl

/-! ## While fragments are missing -/

section

variable {m : UDPMessage} {p : ℕ} {d : Defragger}

/-- The message that comes of the fragments. -/
def whole (m : UDPMessage) : UDPMessage := { m with fragID := 0, fragCount := 1 }

/-- A table with the fragments that have come. -/
def table (m : UDPMessage) (p : ℕ) (come : Finset ℕ) : List (Option UDPMessage) :=
  (List.range (m.fragsNeeded p)).map fun i => if i ∈ come then some (m.frag p i) else none

variable {i : ℕ} {come : Finset ℕ}

theorem getElem_table (hi : i < m.fragsNeeded p) :
    (table m p come)[i]? = some (if i ∈ come then some (m.frag p i) else none) := by
  rw [table, getElem?_map, getElem?_range hi]
  rfl

@[simp] theorem length_table (m : UDPMessage) (p : ℕ) (come : Finset ℕ) :
    (table m p come).length = m.fragsNeeded p := by
  rw [table, length_map, length_range]

theorem set_table : (table m p come).set i (some (m.frag p i)) = table m p (insert i come) := by
  apply ext_getElem?
  intro j
  by_cases hj : j < m.fragsNeeded p
  · by_cases hij : i = j
    · subst hij
      rw [getElem?_set_self (by rw [length_table]; exact hj), getElem_table hj,
        if_pos (Finset.mem_insert_self i come)]
    · rw [getElem?_set_ne hij, getElem_table hj, getElem_table hj]
      simp only [Finset.mem_insert, Ne.symm hij, false_or]
  · rw [getElem?_eq_none (by rw [length_set, length_table]; omega),
      getElem?_eq_none (by rw [length_table]; omega)]

/-- Some fragments have come and some have not. -/
structure Collecting (m : UDPMessage) (p : ℕ) (come : Finset ℕ) (d : Defragger) : Prop where
  hcome : come ⊂ Finset.range (m.fragsNeeded p)
  hpkt : d.pktID = m.packetID
  hfrags : d.frags = table m p come
  hcount : d.count.toNat = come.card
  hsize : d.size = ∑ i ∈ come, (m.frag p i).data.length

/-- All fragments have come. -/
structure Complete (m : UDPMessage) (p : ℕ) (d : Defragger) : Prop where
  hpkt : d.pktID = m.packetID
  hlength : d.frags.length = m.fragsNeeded p
  hfrags : ∀ i < m.fragsNeeded p, ∃ f, d.frags[i]? = some (some f)

/-- All of them together give the data. -/
theorem assemble_table (hpos : 0 < p) :
    assemble (table m p (Finset.range (m.fragsNeeded p)))
      (∑ i ∈ Finset.range (m.fragsNeeded p), (m.frag p i).data.length) = some m.data := by
  have htable : table m p (Finset.range (m.fragsNeeded p)) =
      ((range (m.fragsNeeded p)).map (m.frag p)).map some := by
    rw [table, map_map]
    refine map_congr_left fun i hi => ?_
    rw [if_pos (Finset.mem_range.mpr (mem_range.mp hi))]
    rfl
  have hall : (((range (m.fragsNeeded p)).map (m.frag p)).map some).mapM id =
      some ((range (m.fragsNeeded p)).map (m.frag p)) := by
    induction (range (m.fragsNeeded p)).map (m.frag p) with
    | nil => rfl
    | cons f fs ih => rw [map_cons, mapM_cons, ih]; rfl
  have hdata := m.flatMap_frag hpos
  have hsize : ∑ i ∈ Finset.range (m.fragsNeeded p), (m.frag p i).data.length =
      m.data.length := by
    conv_rhs => rw [← hdata, length_flatMap]
    rfl
  rw [assemble, htable, hall, hsize, Option.map_some, flatMap_map, hdata,
    take_left']
  rfl

/-- What `Feed` looks at first, of a fragment. -/
theorem frag_guards (htwo : 1 < m.fragsNeeded p) (hmost : m.fragsNeeded p ≤ 255)
    (hi : i < m.fragsNeeded p) :
    ¬ (m.frag p i).fragCount ≤ 1 ∧ ¬ (m.frag p i).fragID ≥ (m.frag p i).fragCount ∧
      (m.frag p i).fragID.toNat = i ∧ (m.frag p i).fragCount.toNat = m.fragsNeeded p := by
  have hid : (m.frag p i).fragID.toNat = i := UDPMessage.toNat_ofNat_of_le (by omega)
  have hcount : (m.frag p i).fragCount.toNat = m.fragsNeeded p :=
    UDPMessage.toNat_ofNat_of_le hmost
  have hone : (1 : UInt8).toNat = 1 := rfl
  refine ⟨?_, ?_, hid, hcount⟩
  · rw [UInt8.le_iff_toNat_le, hcount, hone]
    omega
  · rw [ge_iff_le, UInt8.le_iff_toNat_le, hcount, hid]
    omega

/-- A fragment of the message at hand. -/
theorem not_other (hpkt : d.pktID = m.packetID) (hlength : d.frags.length = m.fragsNeeded p)
    (i : ℕ) : ¬ ((m.frag p i).packetID ≠ d.pktID ∨
      (m.frag p i).fragCount ≠ UInt8.ofNat d.frags.length) := by
  rw [hpkt, hlength]
  rintro (hne | hne)
  · exact hne rfl
  · exact hne rfl

/-- The first fragment replaces what was there. -/
theorem feed_first (htwo : 1 < m.fragsNeeded p) (hmost : m.fragsNeeded p ≤ 255)
    (hi : i < m.fragsNeeded p) (hd : d.pktID ≠ m.packetID) :
    ∃ d', d.feed (m.frag p i) = some (none, d') ∧ Collecting m p {i} d' := by
  obtain ⟨hcount, hid, hindex, hneeded⟩ := frag_guards htwo hmost hi
  rw [feed, if_neg hcount, if_neg hid, if_pos (.inl (Ne.symm hd))]
  refine ⟨_, rfl, ?_, rfl, ?_, rfl, ?_⟩
  · rw [Finset.ssubset_iff_subset_ne]
    refine ⟨Finset.singleton_subset_iff.mpr (Finset.mem_range.mpr hi), fun heq => ?_⟩
    have hcard := congrArg Finset.card heq
    rw [Finset.card_singleton, Finset.card_range] at hcard
    omega
  · have hempty : replicate (m.fragsNeeded p) none = table m p ∅ := by
      rw [table, map_congr_left fun j _ => if_neg (Finset.notMem_empty j), map_const',
        length_range]
    show set _ _ _ = _
    rw [hneeded, hindex, hempty, set_table]
    rfl
  · rw [Finset.sum_singleton]

/-- One that has come already changes nothing. -/
theorem Collecting.feed_again (hd : Collecting m p come d) (htwo : 1 < m.fragsNeeded p)
    (hmost : m.fragsNeeded p ≤ 255) (hi : i ∈ come) : d.feed (m.frag p i) = some (none, d) := by
  have hlt := Finset.mem_range.mp (hd.hcome.1 hi)
  obtain ⟨hcount, hid, hindex, -⟩ := frag_guards htwo hmost hlt
  have hsame := not_other hd.hpkt (by rw [hd.hfrags, length_table]) i
  rw [feed, if_neg hcount, if_neg hid, if_neg hsame, hindex, hd.hfrags, getElem_table hlt,
    if_pos hi]

/-- One that was missing is kept, and the last of them gives the message. -/
theorem Collecting.feed_missing (hd : Collecting m p come d) (hpos : 0 < p)
    (htwo : 1 < m.fragsNeeded p) (hmost : m.fragsNeeded p ≤ 255) (hlt : i < m.fragsNeeded p)
    (hi : i ∉ come) :
    (insert i come ≠ Finset.range (m.fragsNeeded p) ∧
      ∃ d', d.feed (m.frag p i) = some (none, d') ∧ Collecting m p (insert i come) d') ∨
    (insert i come = Finset.range (m.fragsNeeded p) ∧
      ∃ d', d.feed (m.frag p i) = some (some (whole m), d') ∧ Complete m p d') := by
  obtain ⟨hcount, hid, hindex, -⟩ := frag_guards htwo hmost hlt
  have hsame := not_other hd.hpkt (by rw [hd.hfrags, length_table]) i
  have hsub : insert i come ⊆ Finset.range (m.fragsNeeded p) :=
    Finset.insert_subset (Finset.mem_range.mpr hlt) hd.hcome.1
  have hcard := Finset.card_lt_card hd.hcome
  rw [Finset.card_range] at hcard
  have hnext : (d.count + 1).toNat = (insert i come).card := by
    rw [UInt8.toNat_add, hd.hcount, Finset.card_insert_of_notMem hi]
    exact Nat.mod_eq_of_lt (show come.card + 1 < 256 by omega)
  have hsize : d.size + (m.frag p i).data.length =
      ∑ j ∈ insert i come, (m.frag p j).data.length := by
    rw [Finset.sum_insert hi, hd.hsize, Nat.add_comm]
  have hfeed : d.feed (m.frag p i) =
      if (insert i come).card = m.fragsNeeded p then
        (assemble (table m p (insert i come))
          (∑ j ∈ insert i come, (m.frag p j).data.length)).map fun data =>
          (some { m.frag p i with data, fragID := 0, fragCount := 1 },
            ⟨d.pktID, (table m p (insert i come)).set i
              (some { m.frag p i with data, fragID := 0, fragCount := 1 }),
              d.count + 1, ∑ j ∈ insert i come, (m.frag p j).data.length⟩)
      else some (none, ⟨d.pktID, table m p (insert i come), d.count + 1,
        ∑ j ∈ insert i come, (m.frag p j).data.length⟩) := by
    rw [feed, if_neg hcount, if_neg hid, if_neg hsame, hindex, hd.hfrags, getElem_table hlt,
      if_neg hi]
    dsimp only
    rw [set_table, length_table, hnext, hsize]
  rw [hfeed]
  by_cases hall : insert i come = Finset.range (m.fragsNeeded p)
  · right
    refine ⟨hall, ?_⟩
    rw [hall, Finset.card_range, if_pos rfl, assemble_table hpos]
    refine ⟨_, rfl, hd.hpkt, by rw [length_set, length_table], fun j hj => ?_⟩
    by_cases hij : i = j
    · subst hij
      exact ⟨_, getElem?_set_self (by rw [length_table]; exact hj)⟩
    · refine ⟨m.frag p j, ?_⟩
      rw [getElem?_set_ne hij, getElem_table hj, if_pos (Finset.mem_range.mpr hj)]
  · left
    have hssub : insert i come ⊂ Finset.range (m.fragsNeeded p) :=
      Finset.ssubset_iff_subset_ne.mpr ⟨hsub, hall⟩
    have hless := Finset.card_lt_card hssub
    rw [Finset.card_range] at hless
    rw [if_neg (by omega)]
    exact ⟨hall, _, rfl, hssub, hd.hpkt, rfl, hnext, rfl⟩

theorem Complete.feed (hd : Complete m p d) (htwo : 1 < m.fragsNeeded p)
    (hmost : m.fragsNeeded p ≤ 255) (hlt : i < m.fragsNeeded p) :
    d.feed (m.frag p i) = some (none, d) := by
  obtain ⟨hcount, hid, hindex, -⟩ := frag_guards htwo hmost hlt
  have hsame := not_other hd.hpkt hd.hlength i
  obtain ⟨f, hf⟩ := hd.hfrags i hlt
  rw [Defragger.feed, if_neg hcount, if_neg hid, if_neg hsame, hindex, hf]

/-! ## Any number of them, in any order -/

theorem Complete.feedAll (hd : Complete m p d) (htwo : 1 < m.fragsNeeded p)
    (hmost : m.fragsNeeded p ≤ 255) {ids : List ℕ} (hids : ∀ i ∈ ids, i < m.fragsNeeded p) :
    d.feedAll (ids.map (m.frag p)) = some ([], d) := by
  induction ids with
  | nil => rfl
  | cons i ids ih =>
    obtain ⟨hi, hids⟩ := forall_mem_cons.mp hids
    exact feedAll_cons (hd.feed htwo hmost hi) (ih hids)

/-- The message comes once, if all that were missing come. -/
theorem Collecting.feedAll (hd : Collecting m p come d) (hpos : 0 < p) (htwo : 1 < m.fragsNeeded p)
    (hmost : m.fragsNeeded p ≤ 255) {ids : List ℕ} (hids : ∀ i ∈ ids, i < m.fragsNeeded p)
    (hall : ∀ i < m.fragsNeeded p, i ∈ come ∨ i ∈ ids) :
    ∃ d', d.feedAll (ids.map (m.frag p)) = some ([whole m], d') := by
  induction ids generalizing come d with
  | nil =>
    obtain ⟨i, hi, hnot⟩ := Finset.exists_of_ssubset hd.hcome
    exact absurd ((hall i (Finset.mem_range.mp hi)).resolve_left hnot) not_mem_nil
  | cons i ids ih =>
    obtain ⟨hi, hids⟩ := forall_mem_cons.mp hids
    have hrest : ∀ j < m.fragsNeeded p, j ∈ insert i come ∨ j ∈ ids := by
      intro j hj
      rcases hall j hj with hcome | hin
      · exact .inl (Finset.mem_insert_of_mem hcome)
      · rcases mem_cons.mp hin with rfl | hin
        · exact .inl (Finset.mem_insert_self j come)
        · exact .inr hin
    by_cases hcome : i ∈ come
    · rw [Finset.insert_eq_of_mem hcome] at hrest
      obtain ⟨d', hd'⟩ := ih hd hids hrest
      exact ⟨d', feedAll_cons (hd.feed_again htwo hmost hcome) hd'⟩
    · rcases hd.feed_missing hpos htwo hmost hi hcome with
        ⟨-, d', hfeed, hd'⟩ | ⟨-, d', hfeed, hd'⟩
      · obtain ⟨d'', hd''⟩ := ih hd' hids hrest
        exact ⟨d'', feedAll_cons hfeed hd''⟩
      · exact ⟨d', feedAll_cons hfeed (hd'.feedAll htwo hmost hids)⟩

/-- The fragments of a message, fed to a table of another one. -/
theorem feedAll_frags (hpos : 0 < p) (htwo : 1 < m.fragsNeeded p) (hmost : m.fragsNeeded p ≤ 255)
    (hd : d.pktID ≠ m.packetID) {fed : List UDPMessage} (hfed : ∀ f, f ∈ fed ↔ f ∈ m.frags p) :
    ∃ d', d.feedAll fed = some ([whole m], d') := by
  have hids : ∃ ids : List ℕ, fed = ids.map (m.frag p) ∧ ∀ i ∈ ids, i < m.fragsNeeded p := by
    have hall : ∀ f ∈ fed, ∃ i < m.fragsNeeded p, m.frag p i = f := by
      intro f hf
      obtain ⟨i, hi, heq⟩ := mem_map.mp ((hfed f).mp hf)
      exact ⟨i, mem_range.mp hi, heq⟩
    clear hfed
    induction fed with
    | nil => exact ⟨[], rfl, nofun⟩
    | cons f fed ih =>
      obtain ⟨⟨i, hi, rfl⟩, hrest⟩ := forall_mem_cons.mp hall
      obtain ⟨ids, rfl, hids⟩ := ih hrest
      exact ⟨i :: ids, rfl, forall_mem_cons.mpr ⟨hi, hids⟩⟩
  obtain ⟨ids, rfl, hids⟩ := hids
  have hall : ∀ i < m.fragsNeeded p, i ∈ ids := by
    intro i hi
    obtain ⟨j, hj, heq⟩ := mem_map.mp ((hfed (m.frag p i)).mpr
      (mem_map_of_mem (mem_range.mpr hi)))
    -- a fragment says which one it is
    have hid : (m.frag p j).fragID.toNat = (m.frag p i).fragID.toNat := by rw [heq]
    rw [(frag_guards htwo hmost hi).2.2.1, (frag_guards htwo hmost (hids j hj)).2.2.1] at hid
    exact hid ▸ hj
  cases ids with
  | nil => exact absurd (hall 0 (by omega)) not_mem_nil
  | cons i ids =>
    obtain ⟨hi, hids⟩ := forall_mem_cons.mp hids
    obtain ⟨d', hfeed, hd'⟩ := feed_first htwo hmost hi hd
    obtain ⟨d'', hd''⟩ := hd'.feedAll hpos htwo hmost hids fun j hj => by
      rcases mem_cons.mp (hall j hj) with rfl | hin
      · exact .inl (Finset.mem_singleton_self j)
      · exact .inr hin
    exact ⟨d'', feedAll_cons hfeed hd''⟩

/-! ## Messages that were not cut -/

theorem feedAll_replicate_of_le (h : m.fragCount ≤ 1) (k : ℕ) :
    d.feedAll (List.replicate k m) = some (List.replicate k m, d) := by
  induction k with
  | zero => rfl
  | succ k ih => exact feedAll_cons (if_pos h) ih

theorem feedAll_replicate_of_kept (h : d.feed m = some (none, d)) (k : ℕ) :
    d.feedAll (List.replicate k m) = some ([], d) := by
  induction k with
  | zero => rfl
  | succ k ih => exact feedAll_cons h ih

/-- One that says it is a fragment is never returned. -/
theorem feedAll_replicate_of_lt (h : ¬ m.fragCount ≤ 1) (hd : d.pktID ≠ m.packetID) (k : ℕ) :
    ∃ d', d.feedAll (List.replicate k m) = some ([], d') := by
  by_cases hid : m.fragID ≥ m.fragCount
  · have hkept : d.feed m = some (none, d) := by rw [feed, if_neg h, if_pos hid]
    exact ⟨d, feedAll_replicate_of_kept hkept k⟩
  · cases k with
    | zero => exact ⟨d, rfl⟩
    | succ k =>
      have hfirst : d.feed m = some (none, ⟨m.packetID,
          (replicate m.fragCount.toNat none).set m.fragID.toNat (some m), 1,
          m.data.length⟩) := by
        rw [feed, if_neg h, if_neg hid, if_pos (.inl (Ne.symm hd))]
      refine ⟨_, feedAll_cons hfirst (feedAll_replicate_of_kept ?_ k)⟩
      have hlt : m.fragID.toNat < m.fragCount.toNat :=
        UInt8.lt_iff_toNat_lt.mp (UInt8.not_le.mp hid)
      rw [feed, if_neg h, if_neg hid, if_neg, getElem?_set_self]
      · rw [length_replicate]
        exact hlt
      · rw [length_set, length_replicate, UInt8.ofNat_toNat]
        rintro (hne | hne)
        · exact hne rfl
        · exact hne rfl

end

end Defragger

section

variable [QuicVarint]

/-- Cutting a message does not stop the program, every fragment fits, and if there are any, what is
    fed gives the data exactly once. -/
def UDPMessage.Reversible (m : UDPMessage) (maxSize : ℕ) (d : Defragger)
    (fed : List UDPMessage) : Prop :=
  ∃ frags, m.fragUDPMessage maxSize = some frags ∧
    (∀ f ∈ frags, ∀ buf bytes, f.serialize buf = some bytes → bytes.length ≤ maxSize) ∧
    (frags = [] ∨ ∃ r d', d.feedAll fed = some ([r], d') ∧ r.data = m.data)

/-- For a message and its fragments in any order and number: exactly if a byte can count the
    fragments, and a message that was not cut comes once and does not say it is a fragment. -/
theorem UDPMessage.reversible_iff {m : UDPMessage} {maxSize : ℕ} {d : Defragger}
    {fed : List UDPMessage} (hd : d.pktID ≠ m.packetID)
    (hfed : ∀ frags, m.fragUDPMessage maxSize = some frags → ∀ f, f ∈ fed ↔ f ∈ frags) :
    m.Reversible maxSize d fed ↔
      if m.size ≤ maxSize then m.fragCount ≤ 1 ∧ fed.length = 1
      else maxSize ≤ m.headerSize ∨ m.fragsNeeded (maxSize - m.headerSize) ≤ 255 := by
  rcases m.fragUDPMessage_cases maxSize with ⟨hfits, hfrag⟩ | ⟨hlarge, hheader, hfrag⟩ |
    ⟨hlarge, hheader, hmost, hfrag⟩ | ⟨hlarge, hheader, hmany, hfrag⟩
  · -- no fragments: whatever comes is the message itself
    rw [if_pos hfits]
    have hone : fed = replicate fed.length m :=
      eq_replicate_iff.mpr ⟨rfl, fun f hf =>
        mem_singleton.mp ((hfed _ hfrag f).mp hf)⟩
    have hsome : 0 < fed.length :=
      length_pos_of_mem ((hfed _ hfrag m).mpr (mem_singleton_self m))
    constructor
    · rintro ⟨frags, hfrags, -, hfeed⟩
      obtain rfl := Option.some.inj (hfrag.symm.trans hfrags)
      obtain ⟨r, d', hfeed, -⟩ := hfeed.resolve_left (cons_ne_nil m [])
      by_cases hcount : m.fragCount ≤ 1
      · rw [hone, Defragger.feedAll_replicate_of_le hcount] at hfeed
        have hlen := congrArg (fun r => r.1.length) (Option.some.inj hfeed)
        rw [length_replicate] at hlen
        exact ⟨hcount, hlen⟩
      · obtain ⟨d'', hnone⟩ := Defragger.feedAll_replicate_of_lt hcount hd fed.length
        rw [hone, hnone] at hfeed
        nomatch hfeed
    · rintro ⟨hcount, hlen⟩
      refine ⟨[m], hfrag, fun f hf buf bytes hbytes => ?_, .inr ⟨m, d, ?_, rfl⟩⟩
      · rw [mem_singleton.mp hf] at hbytes
        rw [length_serialize hbytes]
        exact hfits
      · rw [hone, hlen]
        exact Defragger.feedAll_replicate_of_le hcount 1
  · rw [if_neg (by omega)]
    exact ⟨fun _ => .inl hheader, fun _ => ⟨[], hfrag, nofun, .inl rfl⟩⟩
  · rw [if_neg (by omega)]
    refine ⟨fun _ => .inr hmost, fun _ => ⟨_, hfrag, fun f hf buf bytes hbytes => ?_, .inr ?_⟩⟩
    · obtain ⟨i, -, rfl⟩ := mem_map.mp hf
      rw [length_serialize hbytes]
      exact size_frag_le hheader i
    · have hpos : 0 < maxSize - m.headerSize := by omega
      have htwo : 1 < m.fragsNeeded (maxSize - m.headerSize) := by
        rw [lt_fragsNeeded_iff m hpos]
        unfold size at hlarge
        omega
      obtain ⟨d', hfeed⟩ := Defragger.feedAll_frags hpos htwo hmost hd (hfed _ hfrag)
      exact ⟨_, d', hfeed, rfl⟩
  · rw [if_neg (by omega)]
    constructor
    · rintro ⟨frags, hfrags, -⟩
      rw [hfrag] at hfrags
      nomatch hfrags
    · rintro (h | h)
      · omega
      · omega

end

attribute [local instance] QuicVarint.plain

/-- A message of two bytes, in datagrams that have room for one. -/
theorem UDPMessage.reversible_two :
    (⟨0, 5, 0, 1, [1], [7, 8]⟩ : UDPMessage).Reversible 11 ⟨0, [], 0, 0⟩
      ((⟨0, 5, 0, 1, [1], [7, 8]⟩ : UDPMessage).frags 1) := by
  refine (reversible_iff (by decide) fun frags hfrags f => ?_).mpr ?_
  · rcases fragUDPMessage_cases ⟨0, 5, 0, 1, [1], [7, 8]⟩ 11 with
      ⟨h, -⟩ | ⟨-, h, -⟩ | ⟨-, -, -, h⟩ | ⟨-, -, h, -⟩
    · exact absurd h (by decide)
    · exact absurd h (by decide)
    · obtain rfl := Option.some.inj (h.symm.trans hfrags)
      exact Iff.rfl
    · exact absurd h (by decide)
  · rw [if_neg (by decide)]
    exact .inr (by decide)

/-- A message of 256 bytes, in datagrams that have room for one, stops the program. -/
theorem UDPMessage.frag_stops :
    (⟨0, 5, 0, 1, [1], List.replicate 256 0⟩ : UDPMessage).fragUDPMessage 11 = none := by
  rcases fragUDPMessage_cases ⟨0, 5, 0, 1, [1], replicate 256 0⟩ 11 with
    ⟨h, -⟩ | ⟨-, h, -⟩ | ⟨-, -, h, -⟩ | ⟨-, -, -, h⟩
  · exact absurd h (by decide +kernel)
  · exact absurd h (by decide)
  · exact absurd h (by decide +kernel)
  · exact h

end XrayCore.Hysteria
