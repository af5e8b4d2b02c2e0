/-
  XrayCore.Strmatcher.MphRecords

  The records of a hash table group and how they are read back.

  A word holds the offset of a record below its flags (`recordWord_and_mask`,
  `recordWord_has`).  `Stored` says that a word leads to a record; what `recKey` and
  `appendValues` then give is what was written.
-/

import XrayCore.Strmatcher.Mph

namespace XrayCore.Strmatcher

open Table Wire List Function

/-! ## Words -/

/-- The bit of a kind. -/
def MphKind.bit : MphKind → ℕ
  | .full => 30
  | .parent => 29
  | .domain => 31

theorem MphKind.toNat_flag (t : MphKind) : t.flag.toNat = 2 ^ t.bit := by cases t <;> rfl

/-- A word has a flag. -/
def Has (e : UInt32) (t : MphKind) : Prop := e &&& t.flag ≠ 0

instance (e : UInt32) (t : MphKind) : Decidable (Has e t) := inferInstanceAs (Decidable (_ ≠ _))

variable {e : UInt32}

theorem uint32_eq_zero_iff : e = 0 ↔ e.toNat = 0 := UInt32.toNat_inj.symm

theorem has_iff {t : MphKind} : Has e t ↔ e.toNat.testBit t.bit = true := by
  rw [Has, Ne, uint32_eq_zero_iff, UInt32.toNat_and, t.toNat_flag, Nat.and_two_pow,
    Nat.mul_eq_zero, not_or, and_iff_left (Nat.ne_of_gt (Nat.two_pow_pos _))]
  cases e.toNat.testBit t.bit <;> simp

theorem has_and {want : UInt32} {t : MphKind} : Has (e &&& want) t ↔ Has e t ∧ Has want t := by
  rw [has_iff, has_iff, has_iff, UInt32.toNat_and, Nat.testBit_and, Bool.and_eq_true]

/-- A word meets two flags if it has one of them. -/
theorem and_flags_ne_zero_iff {t t' : MphKind} :
    e &&& (t.flag ||| t'.flag) ≠ 0 ↔ Has e t ∨ Has e t' := by
  rw [Has, Has, Ne, Ne, Ne, uint32_eq_zero_iff, uint32_eq_zero_iff, uint32_eq_zero_iff,
    UInt32.toNat_and, UInt32.toNat_or, Nat.and_or_distrib_left, Nat.or_eq_zero_iff, not_and_or,
    UInt32.toNat_and, UInt32.toNat_and]

namespace MphMatcherGroup

/-- The flags of the kinds that have values. -/
def flagsOf (vals : MphKind → List UInt32) : UInt32 :=
  mphKinds.foldl (fun rec t => if vals t = [] then rec else rec ||| t.flag) 0

theorem recordWord_eq (off : ℕ) (vals : MphKind → List UInt32) :
    recordWord off vals = UInt32.ofNat off ||| flagsOf vals := by
  rw [recordWord, flagsOf, mphKinds]
  simp only [foldl_cons, foldl_nil]
  by_cases hfull : vals .full = [] <;> by_cases hparent : vals .parent = [] <;>
    by_cases hdomain : vals .domain = [] <;> simp [hfull, hparent, hdomain, UInt32.or_assoc]

theorem flagsOf_has (vals : MphKind → List UInt32) (t : MphKind) :
    Has (flagsOf vals) t ↔ vals t ≠ [] := by
  rw [flagsOf, mphKinds]
  simp only [foldl_cons, foldl_nil]
  by_cases hfull : vals .full = [] <;> by_cases hparent : vals .parent = [] <;>
    by_cases hdomain : vals .domain = [] <;> cases t <;> simp [hfull, hparent, hdomain] <;> decide

theorem flagsOf_and_mask (vals : MphKind → List UInt32) : flagsOf vals &&& mphOffMask = 0 := by
  rw [flagsOf, mphKinds]
  simp only [foldl_cons, foldl_nil]
  by_cases hfull : vals .full = [] <;> by_cases hparent : vals .parent = [] <;>
    by_cases hdomain : vals .domain = [] <;> simp [hfull, hparent, hdomain] <;> decide

variable {off : ℕ}

/-- An offset that fits is below the flags. -/
theorem recordWord_and_mask (hoff : off < 2 ^ 29) (vals : MphKind → List UInt32) :
    (recordWord off vals &&& mphOffMask).toNat = off := by
  have hflags := congrArg UInt32.toNat (flagsOf_and_mask vals)
  have hword : (UInt32.ofNat off).toNat = off := by
    rw [UInt32.toNat_ofNat']
    omega
  have hmask : mphOffMask.toNat = 2 ^ 29 - 1 := rfl
  rw [UInt32.toNat_and] at hflags
  rw [recordWord_eq, UInt32.toNat_and, UInt32.toNat_or, Nat.and_or_distrib_right, hflags, hword,
    hmask, Nat.and_two_pow_sub_one_eq_mod, Nat.mod_eq_of_lt hoff]
  exact Nat.or_zero off

theorem recordWord_has (hoff : off < 2 ^ 29) (vals : MphKind → List UInt32) (t : MphKind) :
    Has (recordWord off vals) t ↔ vals t ≠ [] := by
  have hword : (UInt32.ofNat off).toNat = off := by
    rw [UInt32.toNat_ofNat']
    omega
  have hlow : off.testBit t.bit = false := by
    apply Nat.testBit_lt_two_pow
    cases t <;> exact Nat.lt_of_lt_of_le hoff (by decide)
  rw [← flagsOf_has, has_iff, has_iff, recordWord_eq, UInt32.toNat_or, Nat.testBit_or, hword, hlow,
    Bool.false_or]

/-! ## Stored records -/

variable {g : MphMatcherGroup}

/-- A word leads to the record of a pattern with its values. -/
structure Stored (multi : Bool) (arena : Bytes) (k : Bytes) (vals : MphKind → List UInt32)
    (off : ℕ) : Prop where
  lt : off < arena.length
  drop : ∃ rest, arena.drop off = recordBytes multi k vals ++ rest

variable {vals : MphKind → List UInt32}

theorem Stored.append {multi : Bool} {arena k : Bytes} (h : Stored multi arena k vals off)
    (more : Bytes) : Stored multi (arena ++ more) k vals off := by
  obtain ⟨rest, hrest⟩ := h.drop
  refine ⟨?_, rest ++ more, ?_⟩
  · rw [length_append]
    exact Nat.lt_of_lt_of_le h.lt (Nat.le_add_right _ _)
  · rw [drop_append_of_le_length (Nat.le_of_lt h.lt), hrest, append_assoc]

variable {p : ℕ} {rest : Bytes}

theorem uvarint_of_drop {x : ℕ} (hx : x < 2 ^ 32) (h : g.arena.drop p = Wire.uvarint x ++ rest) :
    g.uvarint p = some (x, p + (Wire.uvarint x).length) := by
  rw [MphMatcherGroup.uvarint, h, readUvarint_uvarint hx]
  rfl

variable {s : Bytes}

/-- Where something begins, what comes behind it begins further on. -/
theorem drop_add_of_drop {front : Bytes} (h : s.drop p = front ++ rest) :
    s.drop (p + front.length) = rest := by
  rw [← drop_drop, h, drop_left]

theorem getElem?_of_drop {c : UInt8} (h : s.drop p = c :: rest) : s[p]? = some c := by
  rw [← head?_drop, h]
  rfl

theorem part_of_drop {front : Bytes} (hp : p ≤ s.length) (h : s.drop p = front ++ rest) :
    part s p front.length = some front := by
  have hlen := congrArg length h
  rw [length_drop, length_append] at hlen
  rw [part, if_pos (by omega), h, take_left]

theorem lengthBytes_ne_nil (n : ℕ) : lengthBytes n ≠ [] := by
  rw [lengthBytes]
  split <;> exact cons_ne_nil _ _

/-- The length of a pattern is found before it. -/
theorem recSpan_of_drop {n : ℕ} (hn : n < 2 ^ 32) (h : g.arena.drop off = lengthBytes n ++ rest) :
    g.recSpan off = some (off + (lengthBytes n).length, n) := by
  rw [recSpan]
  by_cases hshort : n < 255
  · have hbytes : lengthBytes n = [UInt8.ofNat n] := if_pos hshort
    have htoNat : (UInt8.ofNat n).toNat = n := by
      rw [UInt8.toNat_ofNat']
      omega
    have hne : UInt8.ofNat n ≠ 255 := by
      intro heq
      have := congrArg UInt8.toNat heq
      rw [htoNat] at this
      exact absurd this (Nat.ne_of_lt hshort)
    rw [hbytes] at h ⊢
    rw [getElem?_of_drop h, Option.bind_eq_bind, Option.bind_some, if_neg hne, htoNat]
    rfl
  · have hbytes : lengthBytes n = 255 :: Wire.uvarint n := if_neg hshort
    rw [hbytes] at h ⊢
    have hdrop : g.arena.drop (off + 1) = Wire.uvarint n ++ rest :=
      @drop_add_of_drop _ _ _ [255] h
    rw [getElem?_of_drop h, Option.bind_eq_bind, Option.bind_some, if_pos rfl,
      uvarint_of_drop hn hdrop, length_cons, Nat.add_right_comm, Nat.add_assoc]
    rfl

/-- What is written of a record besides its length. -/
def valuesBytes (multi : Bool) (vals : MphKind → List UInt32) : Bytes :=
  if multi then mphKinds.flatMap fun t => valueBytes (vals t) else []

theorem recordBytes_eq (multi : Bool) (k : Bytes) (vals : MphKind → List UInt32) :
    recordBytes multi k vals = lengthBytes k.length ++ (k ++ valuesBytes multi vals) :=
  append_assoc ..

namespace Stored

variable {multi : Bool} {k : Bytes}

theorem length_lt (h : Stored multi g.arena k vals off) (harena : g.arena.length < 2 ^ 29) :
    k.length < 2 ^ 29 := by
  obtain ⟨rest, hrest⟩ := h.drop
  have hlen := congrArg length hrest
  rw [length_drop, recordBytes_eq, length_append, length_append,
    length_append] at hlen
  omega

theorem recSpan (h : Stored multi g.arena k vals off) (harena : g.arena.length < 2 ^ 29) :
    g.recSpan off = some (off + (lengthBytes k.length).length, k.length) := by
  obtain ⟨rest, hrest⟩ := h.drop
  rw [recordBytes_eq, append_assoc] at hrest
  exact recSpan_of_drop (Nat.lt_trans (h.length_lt harena) (by decide)) hrest

/-- The pattern is read back. -/
theorem recKey (h : Stored multi g.arena k vals off) (harena : g.arena.length < 2 ^ 29) {w : UInt32}
    (hw : (w &&& mphOffMask).toNat = off) : g.recKey w = some k := by
  obtain ⟨rest, hrest⟩ := h.drop
  rw [recordBytes_eq, append_assoc] at hrest
  have hdrop := drop_add_of_drop hrest
  rw [append_assoc] at hdrop
  have hle : off + (lengthBytes k.length).length ≤ g.arena.length := by
    have hlen := congrArg length hrest
    have hlt := h.lt
    rw [length_drop, length_append] at hlen
    omega
  rw [MphMatcherGroup.recKey, hw, h.recSpan harena, Option.bind_eq_bind, Option.bind_some]
  exact part_of_drop hle hdrop

end Stored

/-! ## Values -/

theorem readValues_of_drop (vals : List UInt32)
    (h : g.arena.drop p = (vals.flatMap fun x => Wire.uvarint x.toNat) ++ rest) :
    g.readValues vals.length p =
      some (vals, p + (vals.flatMap fun x => Wire.uvarint x.toNat).length) := by
  induction vals generalizing p with
  | nil => rfl
  | cons v vals ih =>
    rw [flatMap_cons, append_assoc] at h
    rw [length_cons, readValues, uvarint_of_drop v.toNat_lt h, Option.bind_eq_bind,
      Option.bind_some, ih (drop_add_of_drop h), Option.bind_eq_bind, Option.bind_some,
      UInt32.ofNat_toNat, flatMap_cons, length_append, Nat.add_assoc]
    rfl

/-- The values of the kinds, where they are asked for. -/
def wanted (want : UInt32) (vals : MphKind → List UInt32) (kinds : List MphKind) : List UInt32 :=
  kinds.flatMap fun t => if Has want t then vals t else []

theorem readKinds_of_drop {e : UInt32} (want : UInt32) (hvals : ∀ t, Has e t ↔ vals t ≠ [])
    (hlen : ∀ t, (vals t).length < 2 ^ 32) (kinds : List MphKind)
    (h : g.arena.drop p = (kinds.flatMap fun t => valueBytes (vals t)) ++ rest) :
    g.readKinds e want kinds p = some (wanted want vals kinds) := by
  induction kinds generalizing p with
  | nil => rfl
  | cons t kinds ih =>
    rw [flatMap_cons, append_assoc] at h
    rw [readKinds, wanted, flatMap_cons]
    by_cases hnil : vals t = []
    · -- a kind without values is not there
      have hnone : e &&& t.flag = 0 := Classical.not_not.mp fun hhas => (hvals t).mp hhas hnil
      rw [hnil] at h ⊢
      rw [if_pos hnone, ih h, ite_self, nil_append]
      rfl
    · have hbytes : valueBytes (vals t) = Wire.uvarint (vals t).length ++
          (vals t).flatMap fun x => Wire.uvarint x.toNat := if_neg hnil
      rw [hbytes, append_assoc] at h
      have hdrop := drop_add_of_drop h
      rw [if_neg ((hvals t).mpr hnil), uvarint_of_drop (hlen t) h, Option.bind_eq_bind,
        Option.bind_some, readValues_of_drop _ hdrop, Option.bind_eq_bind, Option.bind_some,
        ih (drop_add_of_drop hdrop), Option.bind_eq_bind, Option.bind_some]
      show some (if Has want t then _ else _) = _
      split
      · rfl
      · rw [nil_append]
        rfl

theorem length_le_flatMap_uvarint (vals : List UInt32) :
    vals.length ≤ (vals.flatMap fun x => Wire.uvarint x.toNat).length := by
  induction vals with
  | nil => exact Nat.le_refl _
  | cons v vals ih =>
    have hpos : 0 < (Wire.uvarint v.toNat).length := by
      rw [Wire.uvarint, uvarintGroups]
      split <;> exact Nat.succ_pos _
    rw [flatMap_cons, length_append, length_cons]
    omega

theorem length_le_valuesBytes (vals : MphKind → List UInt32) (t : MphKind) :
    (vals t).length ≤ (valuesBytes true vals).length := by
  have hone : ∀ vs : List UInt32, vs.length ≤ (valueBytes vs).length := by
    intro vs
    rw [valueBytes]
    split
    · next hnil => simp [hnil]
    · have := length_le_flatMap_uvarint vs
      rw [length_append]
      omega
  have hkinds : valuesBytes true vals =
      valueBytes (vals .full) ++
        (valueBytes (vals .parent) ++ (valueBytes (vals .domain) ++ [])) := rfl
  rw [hkinds, length_append, length_append, length_append]
  have hfull := hone (vals .full)
  have hparent := hone (vals .parent)
  have hdomain := hone (vals .domain)
  cases t <;> omega

/-- The values of a record that are asked for. -/
theorem Stored.appendValues {k : Bytes} (h : Stored g.multi g.arena k vals off)
    (harena : g.arena.length < 2 ^ 29)
    (hsingle : g.multi = false → ∀ t, vals t ≠ [] → vals t = [g.single]) (want : UInt32) :
    g.appendValues (recordWord off vals) want = some (wanted want vals mphKinds) := by
  have hoff : off < 2 ^ 29 := Nat.lt_trans h.lt harena
  have hhas := recordWord_has hoff vals
  rw [MphMatcherGroup.appendValues]
  by_cases hmulti : g.multi = true
  · rw [if_neg (not_not.mpr hmulti)]
    by_cases hnone : recordWord off vals &&& want = 0
    · -- no kind is both there and asked for
      rw [if_pos hnone, wanted]
      refine congrArg some (flatMap_eq_nil_iff.mpr fun t _ => ?_).symm
      by_cases hwant : Has want t
      · rw [if_pos hwant]
        apply Classical.not_not.mp
        intro hne
        have hboth : Has (recordWord off vals &&& want) t := has_and.mpr ⟨(hhas t).mpr hne, hwant⟩
        rw [hnone] at hboth
        exact hboth (UInt32.zero_and ..)
      · exact if_neg hwant
    · obtain ⟨rest, hrest⟩ := h.drop
      rw [recordBytes_eq, hmulti, append_assoc, append_assoc] at hrest
      have hdrop := drop_add_of_drop (drop_add_of_drop hrest)
      have hlen : ∀ t, (vals t).length < 2 ^ 32 := by
        intro t
        have hle := length_le_valuesBytes vals t
        have hbytes := congrArg length hrest
        simp only [length_drop, length_append] at hbytes
        omega
      rw [if_neg hnone, recordWord_and_mask hoff, h.recSpan harena, Option.bind_eq_bind,
        Option.bind_some]
      exact readKinds_of_drop want hhas hlen mphKinds hdrop
  · rw [if_pos hmulti, wanted]
    have hsingle := hsingle (Bool.not_eq_true _ ▸ hmulti)
    refine congrArg some ?_
    induction mphKinds with
    | nil => rfl
    | cons t kinds ih =>
      rw [flatMap_cons, ← ih]
      by_cases hwant : Has want t
      · by_cases hnil : vals t = []
        · have hnot : ¬ Has (recordWord off vals &&& want) t := fun hboth =>
            (hhas t).mp (has_and.mp hboth).1 hnil
          rw [filter_cons_of_neg (by simpa [Has] using hnot), if_pos hwant, hnil]
          rfl
        · have hboth : Has (recordWord off vals &&& want) t :=
            has_and.mpr ⟨(hhas t).mpr hnil, hwant⟩
          rw [filter_cons_of_pos (by simpa [Has] using hboth), if_pos hwant, hsingle t hnil]
          rfl
      · have hnot : ¬ Has (recordWord off vals &&& want) t :=
          fun hboth => hwant (has_and.mp hboth).2
        rw [filter_cons_of_neg (by simpa [Has] using hnot), if_neg hwant]
        rfl

/-! ## Collecting values -/

theorem collect_append (entries : List MphEntry) (e : MphEntry) :
    collect (entries ++ [e]) =
      if e.value ∈ collect entries e.kind then collect entries
      else update (collect entries) e.kind (collect entries e.kind ++ [e.value]) := by
  rw [collect, foldl_append]
  rfl

theorem eraseDups_concat (vs : List UInt32) (v : UInt32) :
    (vs ++ [v]).eraseDups = if v ∈ vs.eraseDups then vs.eraseDups else vs.eraseDups ++ [v] := by
  rw [eraseDups_append, removeAll, filter_singleton]
  by_cases hmem : v ∈ vs
  · rw [if_pos (mem_eraseDups.mpr hmem)]
    simp [hmem]
  · rw [if_neg fun h => hmem (mem_eraseDups.mp h)]
    simp [hmem, eraseDups_cons]

/-- The values of a kind, in the order of the entries, each once. -/
theorem collect_eq (entries : List MphEntry) (t : MphKind) :
    collect entries t = ((entries.filter fun e => e.kind = t).map MphEntry.value).eraseDups := by
  induction entries using reverseRecOn generalizing t with
  | nil => rfl
  | append_singleton entries e ih =>
    rw [collect_append, filter_append, map_append, filter_singleton]
    by_cases hkind : e.kind = t
    · subst hkind
      rw [decide_eq_true rfl, cond_true, map_singleton, eraseDups_concat, ← ih]
      split
      · rfl
      · exact update_self ..
    · rw [decide_eq_false hkind, cond_false, map_nil, append_nil, ← ih]
      split
      · rfl
      · exact update_of_ne (Ne.symm hkind) ..

/-! ## Writing records -/

/-- The values of a group of equal patterns. -/
def groupValues (g : MphMatcherGroup) (group : Bytes × List ℕ) : MphKind → List UInt32 :=
  collect (group.2.filterMap (g.entries[·]?))

/-- The word of a group leads to its record. -/
def Leads (g : MphMatcherGroup) (arena : Bytes) (r : UInt32) (group : Bytes × List ℕ) :
    Prop :=
  ∃ off, r = recordWord off (g.groupValues group) ∧
    Stored g.multi arena group.1 (g.groupValues group) off

/-- The records up to here: each word leads to its record, and each has a byte of its own. -/
structure Laid (g : MphMatcherGroup) (groups : List (Bytes × List ℕ)) (w : Written) : Prop where
  leads : List.Forall₂ (g.Leads w.arena) w.recs groups
  length_le : w.recs.length ≤ w.arena.length
  first : w.recs = [] ∧ w.arena = [] ∨ ∃ k vals, Stored g.multi w.arena k vals 0

theorem recordBytes_pos (multi : Bool) (k : Bytes) (vals : MphKind → List UInt32) :
    0 < (recordBytes multi k vals).length := by
  rw [recordBytes_eq, length_append]
  exact Nat.add_pos_left (length_pos_iff.mpr (lengthBytes_ne_nil _)) _

variable {group : Bytes × List ℕ}

theorem Leads.append {arena : Bytes} {r : UInt32} (h : g.Leads arena r group)
    (more : Bytes) : g.Leads (arena ++ more) r group := by
  obtain ⟨off, hword, hstored⟩ := h
  exact ⟨off, hword, hstored.append more⟩

/-- One more record. -/
theorem Laid.writeRecord {groups : List (Bytes × List ℕ)} {w : Written} (h : Laid g groups w)
    (group : Bytes × List ℕ) : Laid g (groups ++ [group]) (g.writeRecord w group) := by
  have hpos := recordBytes_pos g.multi group.1 (g.groupValues group)
  have hnew : g.Leads (w.arena ++ recordBytes g.multi group.1 (g.groupValues group))
      (recordWord w.arena.length (g.groupValues group)) group := by
    refine ⟨w.arena.length, rfl, ?_, [], ?_⟩
    · rw [length_append]
      omega
    · rw [drop_left, append_nil]
  rw [MphMatcherGroup.writeRecord]
  constructor
  · exact rel_append (h.leads.imp fun _ _ hleads => hleads.append _) (.cons hnew .nil)
  · have hle := h.length_le
    show (w.recs ++ [_]).length ≤
      (w.arena ++ recordBytes g.multi group.1 (g.groupValues group)).length
    rw [length_append, length_append, length_singleton]
    omega
  · refine .inr ?_
    rcases h.first with ⟨_, harena⟩ | ⟨k, vals, hstored⟩
    · obtain ⟨off, _, hstored⟩ := hnew
      refine ⟨group.1, g.groupValues group, ?_, [], ?_⟩
      · exact Nat.lt_of_le_of_lt (Nat.zero_le off) hstored.lt
      · rw [harena, append_nil]
        rfl
    · exact ⟨k, vals, hstored.append _⟩

theorem Laid.foldl {done groups : List (Bytes × List ℕ)} {w : Written} (h : Laid g done w) :
    Laid g (done ++ groups) (groups.foldl g.writeRecord w) := by
  induction groups generalizing done w with
  | nil =>
    rw [append_nil]
    exact h
  | cons group groups ih =>
    have hnext := ih (h.writeRecord group)
    rwa [append_assoc] at hnext

/-! ## All records -/

/-- A pattern as it was added, under its kind. -/
structure Added where
  key : Bytes
  kind : MphKind
  value : UInt32

/-- What was added to a group that is not built. -/
def added (g : MphMatcherGroup) : List Added := g.entries.map fun e => ⟨g.keyOf e, e.kind, e.value⟩

/-- The values of a pattern under a kind, in the order in which they were added, each once. -/
def valuesFor (added : List Added) (k : Bytes) (t : MphKind) : List UInt32 :=
  ((added.filter fun a => a.key = k ∧ a.kind = t).map Added.value).eraseDups

theorem filterMap_filter_range {α : Type} (l : List α) (p : ℕ → Bool) (q : α → Bool)
    (h : ∀ i a, l[i]? = some a → p i = q a) :
    ((List.range l.length).filter p).filterMap (l[·]?) = l.filter q := by
  induction l using reverseRecOn generalizing p with
  | nil => rfl
  | append_singleton l a ih =>
    have hrange : range (l ++ [a]).length = range l.length ++ [l.length] := by
      rw [length_append, length_singleton, range_succ]
    have hfront : ∀ i, i < l.length → (l ++ [a])[i]? = l[i]? := fun i hi =>
      getElem?_append_left hi
    have hlast : (l ++ [a])[l.length]? = some a := getElem?_concat_length
    have ih := ih p fun i b hb => by
      apply h i b
      rw [hfront i (List.getElem?_eq_some_iff.mp hb).1, hb]
    rw [hrange, filter_append, filterMap_append, filter_append, ← ih]
    congr 1
    · apply filterMap_congr
      intro i hi
      exact hfront i (mem_range.mp (mem_filter.mp hi).1)
    · rw [filter_singleton, filter_singleton, h _ _ hlast]
      cases q a
      · rfl
      · simp

/-- The entries of a pattern. -/
theorem filterMap_entries (k : Bytes) :
    ((List.range g.entries.length).filter (g.key · = k)).filterMap (g.entries[·]?) =
      g.entries.filter fun e => g.keyOf e = k := by
  apply filterMap_filter_range
  intro i e he
  rw [key, he]
  rfl

theorem collect_entries (k : Bytes) :
    collect (g.entries.filter fun e => g.keyOf e = k) = valuesFor g.added k := by
  funext t
  rw [collect_eq, valuesFor, added, filter_map, map_map, filter_filter]
  congr 2
  apply filter_congr
  intro e _
  simp [and_comm]

theorem map_toNat_injective : Injective (List.map UInt8.toNat) :=
  map_injective_iff.mpr fun _ _ => UInt8.toNat_inj.mp

/-- The groups of equal patterns. -/
def groups (g : MphMatcherGroup) : List (Bytes × List ℕ) :=
  neighbours g.key g.entries.length g.order

theorem runs_groups (g : MphMatcherGroup) : Runs g.key g.order g.groups := by
  apply neighbours_spec map_toNat_injective
  · exact Nat.le_of_eq (length_sortedByKey ..)
  · exact pairwise_sortedByKey ..

theorem groupValues_eq (hgroup : group ∈ g.groups) :
    g.groupValues group = valuesFor g.added group.1 := by
  have hsort := filter_sortedByKey (fun i => (g.key i).map UInt8.toNat) g.entries.length
    (group.1.map UInt8.toNat)
  simp only [map_toNat_injective.eq_iff] at hsort
  rw [groupValues, (g.runs_groups.eq group hgroup).1, order, hsort, filterMap_entries,
    collect_entries]

theorem mem_keys_groups (k : Bytes) :
    k ∈ g.groups.map Prod.fst ↔ ∃ a ∈ g.added, a.key = k := by
  constructor
  · intro hk
    obtain ⟨group, hgroup, rfl⟩ := mem_map.mp hk
    obtain ⟨heq, hne⟩ := g.runs_groups.eq group hgroup
    obtain ⟨i, hi⟩ := exists_mem_of_ne_nil _ hne
    rw [heq, mem_filter, order, mem_sortedByKey] at hi
    have hkey := of_decide_eq_true hi.2
    rw [key, getElem?_eq_getElem hi.1] at hkey
    exact ⟨_, mem_map_of_mem (getElem_mem hi.1), hkey⟩
  · rintro ⟨a, ha, rfl⟩
    obtain ⟨e, he, rfl⟩ := mem_map.mp ha
    obtain ⟨i, hi, rfl⟩ := mem_iff_getElem.mp he
    have horder : i ∈ g.order := mem_sortedByKey.mpr hi
    obtain ⟨group, hgroup, hkey⟩ := g.runs_groups.found i horder
    rw [key, getElem?_eq_getElem hi] at hkey
    exact mem_map.mpr ⟨group, hgroup, hkey⟩

/-- The records of a group: the patterns that were added, each with its values. -/
structure Records (g : MphMatcherGroup) (added : List Added) (recs : List UInt32)
    (keys : List Bytes) : Prop where
  nodup : keys.Nodup
  mem : ∀ k, k ∈ keys ↔ ∃ a ∈ added, a.key = k
  leads : List.Forall₂ (fun r k => ∃ off, r = recordWord off (valuesFor added k) ∧
    Stored g.multi g.arena k (valuesFor added k) off) recs keys
  length_lt : recs.length < g.arena.length
  first : ∃ k vals, Stored g.multi g.arena k vals 0
  single : g.multi = false → ∀ k t, valuesFor added k t ≠ [] → valuesFor added k t = [g.single]

@[simp] theorem entries_setMulti (g : MphMatcherGroup) : g.setMulti.entries = g.entries := by
  rw [setMulti]
  split <;> rfl

@[simp] theorem buf_setMulti (g : MphMatcherGroup) : g.setMulti.buf = g.buf := by
  rw [setMulti]
  split <;> rfl

theorem added_setMulti (g : MphMatcherGroup) : g.setMulti.added = g.added := by
  rw [added, added, entries_setMulti]
  apply map_congr_left
  intro e _
  rw [keyOf, keyOf, buf_setMulti]

/-- Unless there are several values all are the same. -/
theorem value_of_not_multi (h : g.setMulti.multi = false) {a : Added} (ha : a ∈ g.added) :
    a.value = g.setMulti.single := by
  obtain ⟨e, he, rfl⟩ := mem_map.mp ha
  rw [setMulti] at h ⊢
  split at h
  · next hnil =>
    rw [hnil] at he
    nomatch he
  · next e' rest hentries =>
    rw [hentries] at he
    have hnone := any_eq_false.mp h e he
    simp only [ne_eq, decide_not, Bool.not_eq_true', decide_eq_false_iff_not, not_not] at hnone
    rw [hentries]
    exact hnone

theorem eraseDups_of_forall_eq {v : UInt32} {vs : List UInt32} (hne : vs ≠ [])
    (hall : ∀ x ∈ vs, x = v) : vs.eraseDups = [v] := by
  cases vs with
  | nil => exact absurd rfl hne
  | cons x vs =>
    obtain ⟨rfl, hall⟩ := forall_mem_cons.mp hall
    have hnone : vs.filter (fun b => !b == x) = [] :=
      filter_eq_nil_iff.mpr fun b hb => by simp [hall b hb]
    rw [eraseDups_cons, hnone]
    rfl

theorem valuesFor_of_not_multi {added : List Added} {v : UInt32} (h : ∀ a ∈ added, a.value = v)
    (k : Bytes) (t : MphKind) (hne : valuesFor added k t ≠ []) : valuesFor added k t = [v] := by
  rw [valuesFor] at hne ⊢
  apply eraseDups_of_forall_eq
  · intro hnil
    rw [hnil] at hne
    exact hne rfl
  · intro x hx
    obtain ⟨a, ha, rfl⟩ := mem_map.mp hx
    exact h a (mem_filter.mp ha).1

/-- What `writeRecords` leaves. -/
theorem records_writeRecords (g : MphMatcherGroup) :
    ∃ keys, Records g.writeRecords.1 g.added g.writeRecords.2 keys := by
  have hstart : Laid g.setMulti [] ⟨[], []⟩ := ⟨.nil, Nat.le_refl _, .inl ⟨rfl, rfl⟩⟩
  have hlaid := @Laid.foldl _ _ g.setMulti.groups _ hstart
  rw [nil_append] at hlaid
  rw [writeRecords]
  show ∃ keys, Records { g.setMulti with
    arena := (g.setMulti.groups.foldl g.setMulti.writeRecord ⟨[], []⟩).arena ++ [0] ++
      if (g.setMulti.groups.foldl g.setMulti.writeRecord ⟨[], []⟩).recs = [] then [0] else []
    buf := [], entries := [] } g.added
      (g.setMulti.groups.foldl g.setMulti.writeRecord ⟨[], []⟩).recs keys
  generalize g.setMulti.groups.foldl g.setMulti.writeRecord ⟨[], []⟩ = w at hlaid
  refine ⟨g.setMulti.groups.map Prod.fst, ?_⟩
  constructor
  · exact g.setMulti.runs_groups.nodup
  · intro k
    rw [mem_keys_groups, added_setMulti]
  · rw [forall₂_map_right_iff, forall₂_iff_zip]
    refine ⟨hlaid.leads.length_eq, fun {r group} hmem => ?_⟩
    obtain ⟨off, hword, hstored⟩ := forall₂_zip hlaid.leads hmem
    have hvalues := groupValues_eq (of_mem_zip hmem).2
    rw [added_setMulti] at hvalues
    rw [hvalues] at hword hstored
    refine ⟨off, hword, ?_⟩
    show Stored _ (w.arena ++ [0] ++ _) _ _ _
    rw [append_assoc]
    exact hstored.append _
  · have hle := hlaid.length_le
    show w.recs.length < (w.arena ++ [0] ++ _).length
    rw [append_assoc, length_append, singleton_append, length_cons]
    omega
  · rcases hlaid.first with ⟨hrecs, harena⟩ | ⟨k, vals, hstored⟩
    · refine ⟨[], fun _ => [], ?_, [0], ?_⟩
      · show 0 < (w.arena ++ [0] ++ _).length
        rw [harena]
        exact Nat.succ_pos _
      · show w.arena ++ [0] ++ (if w.recs = [] then [0] else []) = _
        rw [harena, if_pos hrecs]
        cases g.setMulti.multi <;> rfl
    · refine ⟨k, vals, ?_⟩
      show Stored _ (w.arena ++ [0] ++ _) k vals 0
      rw [append_assoc]
      exact hstored.append _
  · intro hmulti
    exact valuesFor_of_not_multi fun a ha => value_of_not_multi hmulti ha

end MphMatcherGroup

end XrayCore.Strmatcher
