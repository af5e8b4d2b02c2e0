/-
  XrayCore.Xdns.Frag

  The table that puts fragmented packets together.

  An entry carries what `Feed` keeps true of it: a slot for each fragment, the sum
  of what the slots hold, never above the size of a buffer, and how many are filled.
  So `Feed` never indexes past the slots, and what it hands back fits its buffer
  (`feed_spec`), whatever entries the table holds.
-/

import XrayCore.Bytes.Slice

namespace XrayCore.Xdns

open Bytes List

/-! ## Entries -/

/-- `fragTTL` is four seconds, in nanoseconds. -/
def fragTTL : ℤ := 4000000000
def fragSize : ℕ := 4096
def fragCount : ℕ := 4096

/-- `ClientID`: the eight bytes that a client draws for itself. -/
abbrev ClientID := Bytes

structure FragKey where
  clientID : ClientID
  fragID : UInt8
deriving DecidableEq

/-- The bytes in a slot: a slot that is not filled holds none. -/
def slotBytes (slot : Option Bytes) : Bytes := slot.getD []

structure FragEntry where
  data : List (Option Bytes)
  size : ℕ
  len : ℕ
  total : UInt8
  deadline : ℤ
  data_length : data.length = total.toNat
  size_eq : size = (data.map fun slot => (slotBytes slot).length).sum
  size_le : size ≤ fragSize
  len_eq : len = data.countP Option.isSome

/-- An entry without fragments. -/
def FragEntry.empty (total : UInt8) (deadline : ℤ) : FragEntry where
  data := List.replicate total.toNat none
  size := 0
  len := 0
  total := total
  deadline := deadline
  data_length := List.length_replicate
  size_eq := by simp [slotBytes]
  size_le := Nat.zero_le _
  len_eq := by simp [List.countP_replicate]

theorem sum_map_set {α : Type} (f : α → ℕ) (xs : List α) {i : ℕ} (x : α) (hi : i < xs.length) :
    ((xs.set i x).map f).sum + f xs[i] = (xs.map f).sum + f x := by
  -- both sums are cut at the place that changes
  have hcut : xs = xs.take i ++ xs[i] :: xs.drop (i + 1) := by
    rw [getElem_cons_drop, take_append_drop]
  have hset : xs.set i x = xs.take i ++ x :: xs.drop (i + 1) := by
    rw [set_eq_take_append_cons_drop, if_pos hi]
  have hsum : (xs.map f).sum =
      ((xs.take i).map f).sum + (f xs[i] + ((xs.drop (i + 1)).map f).sum) := by
    conv_lhs => rw [hcut]
    rw [map_append, sum_append, map_cons, sum_cons]
  rw [hset, hsum, map_append, sum_append, map_cons, sum_cons]
  omega

/-- The entry with an empty slot filled, if the bytes still fit. -/
def FragEntry.put (e : FragEntry) (i : ℕ) (bytes : Bytes) (deadline : ℤ)
    (hslot : index e.data i = some none) (hsize : e.size + bytes.length ≤ fragSize) :
    FragEntry where
  data := e.data.set i (some bytes)
  size := e.size + bytes.length
  len := e.len + 1
  total := e.total
  deadline := deadline
  data_length := by rw [List.length_set, e.data_length]
  size_eq := by
    obtain ⟨hi, hnone⟩ := List.getElem?_eq_some_iff.mp hslot
    have hsum := sum_map_set (fun slot => (slotBytes slot).length) e.data (some bytes) hi
    rw [hnone] at hsum
    rw [e.size_eq]
    exact hsum.symm
  size_le := hsize
  len_eq := by
    obtain ⟨hi, hnone⟩ := List.getElem?_eq_some_iff.mp hslot
    rw [List.countP_set hi, hnone, e.len_eq]
    rfl

/-- The fragments one after the other. -/
def FragEntry.joined (e : FragEntry) : Bytes := (e.data.map slotBytes).flatten

theorem FragEntry.length_joined (e : FragEntry) : e.joined.length = e.size := by
  rw [joined, length_flatten, map_map, e.size_eq]
  rfl

/-! ## The table -/

structure FragManager where
  m : AList fun _ : FragKey => FragEntry
  closed : Bool

def FragManager.remove (t : FragManager) (key : FragKey) : FragManager :=
  { t with m := t.m.erase key }

def FragManager.store (t : FragManager) (key : FragKey) (e : FragEntry) : FragManager :=
  { t with m := t.m.insert key e }

/-- The key whose deadline comes first.  Among equal ones it is the first that the map
    yields, in an order that no code may rely on: here that of the entries. -/
def FragManager.oldest (t : FragManager) : Option FragKey :=
  (t.m.entries.foldl
    (fun best (kv : Σ _ : FragKey, FragEntry) =>
      match best with
      | none => some kv
      | some b => if kv.2.deadline < b.2.deadline then some kv else some b) none).map Sigma.fst

def FragManager.tryRemove (t : FragManager) : FragManager :=
  if t.m.entries.length < fragCount then t
  else match t.oldest with
    | some key => t.remove key
    | none => t

/-- The entry of a key, a new one if there is none or its time is up. -/
def FragManager.entryFor (t : FragManager) (now : ℤ) (key : FragKey) (fragN : UInt8) :
    FragEntry × FragManager :=
  let fresh := FragEntry.empty fragN (now + fragTTL)
  match t.m.lookup key with
  | none => (fresh, t.tryRemove.store key fresh)
  | some e => if now > e.deadline then (fresh, (t.remove key).store key fresh) else (e, t)

/-- `Feed`: what it writes to `out`, and the table after it. -/
def FragManager.feed (t : FragManager) (now : ℤ) (key : FragKey) (fragIdx fragN : UInt8)
    (data : Bytes) : Option (Bytes × FragManager) :=
  if t.closed then some ([], t)
  else if fragN < 2 then some ([], t)
  else
    let (entry, t) := t.entryFor now key fragN
    if fragN ≠ entry.total then some ([], t)
    else if fragIdx ≥ entry.total then some ([], t)
    else
      match hslot : index entry.data fragIdx.toNat with
      | none => none
      | some (some _) => some ([], t)
      | some none =>
        if hsize : entry.size + data.length ≤ fragSize then
          let entry := entry.put fragIdx.toNat data (now + fragTTL) hslot hsize
          if entry.len < entry.total.toNat then some ([], t.store key entry)
          else some (entry.joined, t.remove key)
        else some ([], t)

/-- `Feed` never indexes out of range, and what it writes fits a buffer. -/
theorem FragManager.feed_spec (t : FragManager) (now : ℤ) (key : FragKey)
    (fragIdx fragN : UInt8) (data : Bytes) :
    ∃ out t', t.feed now key fragIdx fragN data = some (out, t') ∧ out.length ≤ fragSize := by
  have hnil : ([] : Bytes).length ≤ fragSize := Nat.zero_le _
  unfold feed
  by_cases hclosed : t.closed
  · exact ⟨[], t, if_pos hclosed, hnil⟩
  rw [if_neg hclosed]
  by_cases hn : fragN < 2
  · exact ⟨[], t, if_pos hn, hnil⟩
  rw [if_neg hn]
  generalize t.entryFor now key fragN = found
  obtain ⟨entry, t₁⟩ := found
  dsimp only
  by_cases htotal : fragN ≠ entry.total
  · exact ⟨[], t₁, if_pos htotal, hnil⟩
  rw [if_neg htotal]
  by_cases hidx : fragIdx ≥ entry.total
  · exact ⟨[], t₁, if_pos hidx, hnil⟩
  rw [if_neg hidx]
  split
  · -- the index is below the total, which is the number of slots
    rename_i hslot
    have hle := index_eq_none_iff.mp hslot
    rw [entry.data_length] at hle
    exact absurd hle (Nat.not_le.mpr (UInt8.lt_iff_toNat_lt.mp (UInt8.not_le.mp hidx)))
  · exact ⟨[], t₁, rfl, hnil⟩
  · split_ifs with hsize hlen
    · exact ⟨[], _, rfl, hnil⟩
    · refine ⟨_, _, rfl, ?_⟩
      rw [FragEntry.length_joined]
      exact hsize
    · exact ⟨[], t₁, rfl, hnil⟩

end XrayCore.Xdns
