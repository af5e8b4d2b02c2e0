/-
  XrayCore.Table.Buckets

  Sorting into buckets by counting.

  The keys of each bucket are counted, the counts are added up to where the buckets start,
  and the items are written from there on.  In the end the part of a bucket holds its items
  in their order (`part_bucketMembers`).  A list is a table of slots here, which is read
  with a default: a slot past the end reads like one that was just appended.
-/

import Mathlib

namespace XrayCore.Table

open List

/-! ## Slots -/

section Slots

variable {α : Type} (d : α)

/-- A slot that is not there reads like a new one. -/
theorem getD_append_default (xs : List α) (i : ℕ) : (xs ++ [d]).getD i d = xs.getD i d := by
  rcases Nat.lt_trichotomy i xs.length with h | rfl | h
  · exact getD_append _ _ _ _ h
  · rw [getD_append_right _ _ _ _ (Nat.le_refl _), Nat.sub_self,
      getD_eq_default _ _ (Nat.le_refl _)]
    rfl
  · rw [getD_eq_default _ _ (by rw [length_append]; exact h),
      getD_eq_default _ _ (Nat.le_of_lt h)]

theorem getD_modify_self {xs : List α} {i : ℕ} (h : i < xs.length) (f : α → α) :
    (xs.modify i f).getD i d = f (xs.getD i d) := by
  have h' : i < (xs.modify i f).length := by
    rw [length_modify]
    exact h
  rw [getD_eq_getElem _ _ h', getElem_modify, if_pos rfl, getD_eq_getElem _ _ h]

theorem getD_modify_of_ne (xs : List α) {i j : ℕ} (h : j ≠ i) (f : α → α) :
    (xs.modify i f).getD j d = xs.getD j d := by
  rw [getD_eq_getElem?_getD, getD_eq_getElem?_getD, getElem?_modify]
  cases xs[j]? with
  | none => rfl
  | some x => exact if_neg (Ne.symm h)

end Slots

/-! ## Buckets -/

/-- How many keys there are in each bucket, one place further on. -/
def bucketCounts (n : ℕ) (keys : List ℕ) : List ℕ :=
  keys.foldl (fun start b => start.modify (b + 1) (· + 1)) (List.replicate (n + 1) 0)

/-- Where the buckets start. -/
def bucketStarts (n : ℕ) (keys : List ℕ) : List ℕ :=
  (List.range n).foldl (fun start b => start.modify (b + 1) (· + start.getD b 0))
    (bucketCounts n keys)

/-- The items by bucket, and how far each bucket is filled. -/
structure Filling where
  members : List ℕ
  fill : List ℕ

/-- An item is written to its bucket. -/
def Filling.put (s : Filling) (b i : ℕ) : Filling where
  members := s.members.set (s.fill.getD b 0) i
  fill := s.fill.modify b (· + 1)

/-- The items bucket by bucket; an item is its position among the keys. -/
def bucketMembers (n : ℕ) (keys : List ℕ) : List ℕ :=
  (keys.zipIdx.foldl (fun (s : Filling) x => s.put x.1 x.2)
    ⟨List.replicate keys.length 0, (bucketStarts n keys).take n⟩).members

/-- The items of a bucket, in their order. -/
def itemsOf (xs : List (ℕ × ℕ)) (b : ℕ) : List ℕ := (xs.filter fun x => x.1 = b).map Prod.snd

/-! ## Counting -/

variable {n : ℕ}

theorem getD_counts_foldl (keys : List ℕ) (hkeys : ∀ k ∈ keys, k < n) {start : List ℕ}
    (hlen : start.length = n + 1) (j : ℕ) :
    (keys.foldl (fun start b => start.modify (b + 1) (· + 1)) start).getD j 0 =
      start.getD j 0 + keys.countP fun k => k + 1 = j := by
  induction keys generalizing start with
  | nil => rfl
  | cons k keys ih =>
    obtain ⟨hk, hkeys⟩ := forall_mem_cons.mp hkeys
    rw [foldl_cons, ih hkeys (by rw [length_modify, hlen]), countP_cons]
    by_cases hj : k + 1 = j
    · subst hj
      rw [getD_modify_self _ (by omega)]
      simp only [decide_true, if_true]
      omega
    · rw [getD_modify_of_ne _ _ (Ne.symm hj)]
      simp only [hj, decide_false, Bool.false_eq_true, if_false]
      omega

theorem length_bucketCounts (n : ℕ) (keys : List ℕ) : (bucketCounts n keys).length = n + 1 := by
  rw [bucketCounts]
  suffices hfold : ∀ start : List ℕ,
      (keys.foldl (fun start b => start.modify (b + 1) (· + 1)) start).length = start.length by
    rw [hfold, length_replicate]
  intro start
  induction keys generalizing start with
  | nil => rfl
  | cons k keys ih => rw [foldl_cons, ih, length_modify]

variable {keys : List ℕ}

theorem getD_bucketCounts (hkeys : ∀ k ∈ keys, k < n) (j : ℕ) :
    (bucketCounts n keys).getD j 0 = keys.countP fun k => k + 1 = j := by
  rw [bucketCounts, getD_counts_foldl keys hkeys (length_replicate ..)]
  simp

theorem countP_lt_succ (keys : List ℕ) (b : ℕ) :
    (keys.countP fun k => k < b + 1) =
      (keys.countP fun k => k < b) + keys.countP fun k => k = b := by
  induction keys with
  | nil => rfl
  | cons k keys ih =>
    rw [countP_cons, countP_cons, countP_cons, ih]
    simp only [decide_eq_true_eq]
    split <;> split <;> split <;> omega

/-- Up to where the counts were added up there are the starts, behind that the counts. -/
theorem getD_starts_foldl (hkeys : ∀ k ∈ keys, k < n) (m : ℕ) (hm : m ≤ n) :
    ((List.range m).foldl (fun start b => start.modify (b + 1) (· + start.getD b 0))
        (bucketCounts n keys)).length = n + 1 ∧
      ∀ j, ((List.range m).foldl (fun start b => start.modify (b + 1) (· + start.getD b 0))
          (bucketCounts n keys)).getD j 0 =
        if j ≤ m then keys.countP (fun k => k < j) else keys.countP fun k => k + 1 = j := by
  induction m with
  | zero =>
    refine ⟨length_bucketCounts n keys, fun j => ?_⟩
    rw [range_zero, foldl_nil, getD_bucketCounts hkeys]
    split
    · next hj =>
      rw [Nat.le_zero.mp hj, countP_eq_zero.mpr (by simp), countP_eq_zero.mpr (by simp)]
    · rfl
  | succ m ih =>
    obtain ⟨hlen, ih⟩ := ih (by omega)
    rw [range_succ, foldl_append, foldl_cons, foldl_nil]
    refine ⟨by rw [length_modify, hlen], fun j => ?_⟩
    by_cases hj : j = m + 1
    · subst hj
      rw [getD_modify_self _ (by omega), ih, ih, if_neg (by omega), if_pos (Nat.le_refl m),
        if_pos (Nat.le_refl _), countP_lt_succ]
      simp only [Nat.add_right_cancel_iff]
      exact Nat.add_comm _ _
    · rw [getD_modify_of_ne _ _ hj, ih]
      split
      · rw [if_pos (by omega)]
      · rw [if_neg (by omega)]

theorem length_bucketStarts (hkeys : ∀ k ∈ keys, k < n) :
    (bucketStarts n keys).length = n + 1 := (getD_starts_foldl hkeys n (Nat.le_refl n)).1

/-- A bucket starts behind all keys below it. -/
theorem getD_bucketStarts (hkeys : ∀ k ∈ keys, k < n) {b : ℕ} (hb : b ≤ n) :
    (bucketStarts n keys).getD b 0 = keys.countP fun k => k < b := by
  rw [bucketStarts, (getD_starts_foldl hkeys n (Nat.le_refl n)).2, if_pos hb]

/-! ## Filling -/

theorem itemsOf_append (xs : List (ℕ × ℕ)) (x : ℕ × ℕ) (b : ℕ) :
    itemsOf (xs ++ [x]) b = if x.1 = b then itemsOf xs b ++ [x.2] else itemsOf xs b := by
  rw [itemsOf, filter_append, map_append, filter_singleton]
  by_cases h : x.1 = b <;> simp [h, itemsOf]

/-- What holds after some of the items: the buckets are filled up to where they stand. -/
structure Filled (start : ℕ → ℕ) (n r : ℕ) (done : List (ℕ × ℕ)) (s : Filling) : Prop where
  length_members : s.members.length = r
  length_fill : s.fill.length = n
  fill : ∀ b < n, s.fill.getD b 0 = start b + (itemsOf done b).length
  members : ∀ b < n, ∀ t < (itemsOf done b).length,
    s.members.getD (start b + t) 0 = (itemsOf done b).getD t 0

/-- One more item, when there is room for it. -/
theorem Filled.put {start : ℕ → ℕ} {r : ℕ} {done : List (ℕ × ℕ)} {s : Filling}
    (h : Filled start n r done s) (x : ℕ × ℕ) (hx : x.1 < n)
    (hroom : start x.1 + (itemsOf done x.1).length < r)
    (hfree : ∀ b < n, ∀ t < (itemsOf done b).length,
      start b + t ≠ start x.1 + (itemsOf done x.1).length) :
    Filled start n r (done ++ [x]) (s.put x.1 x.2) := by
  have hpos := h.fill x.1 hx
  have hset : ∀ p, p ≠ start x.1 + (itemsOf done x.1).length →
      (s.put x.1 x.2).members.getD p 0 = s.members.getD p 0 := by
    intro p hp
    rw [Filling.put, hpos, getD_eq_getElem?_getD, getElem?_set_ne (Ne.symm hp),
      getD_eq_getElem?_getD]
  have hself : (s.put x.1 x.2).members.getD (start x.1 + (itemsOf done x.1).length) 0 = x.2 := by
    rw [Filling.put, hpos, getD_eq_getElem?_getD,
      getElem?_set_self (by rw [h.length_members]; exact hroom)]
    rfl
  constructor
  · rw [Filling.put, length_set, h.length_members]
  · rw [Filling.put, length_modify, h.length_fill]
  · intro b hb
    rw [Filling.put, itemsOf_append]
    by_cases hxb : x.1 = b
    · subst hxb
      rw [getD_modify_self _ (by rw [h.length_fill]; exact hx), hpos, if_pos rfl, length_append]
      rfl
    · rw [getD_modify_of_ne _ _ (Ne.symm hxb), h.fill b hb, if_neg hxb]
  · intro b hb t ht
    rw [itemsOf_append] at ht ⊢
    by_cases hxb : x.1 = b
    · subst hxb
      rw [if_pos rfl, length_append, length_singleton] at ht
      rw [if_pos rfl]
      by_cases hlast : t = (itemsOf done x.1).length
      · rw [hlast, hself, getD_append_right _ _ _ _ (Nat.le_refl _), Nat.sub_self]
        rfl
      · have ht : t < (itemsOf done x.1).length := by omega
        rw [hset _ (hfree _ hb t ht), h.members _ hb t ht, getD_append _ _ _ _ ht]
    · rw [if_neg hxb] at ht ⊢
      rw [hset _ (hfree b hb t ht), h.members b hb t ht]

theorem length_itemsOf (xs : List (ℕ × ℕ)) (b : ℕ) :
    (itemsOf xs b).length = (xs.map Prod.fst).countP fun k => k = b := by
  rw [itemsOf, length_map, ← countP_eq_length_filter, countP_map]
  rfl

/-- All items, when the buckets do not overlap. -/
theorem Filled.foldl {start : ℕ → ℕ} {r : ℕ} {done rest : List (ℕ × ℕ)} {s : Filling}
    (h : Filled start n r done s) (hkeys : ∀ x ∈ rest, x.1 < n)
    (hroom : ∀ b < n, start b + (itemsOf (done ++ rest) b).length ≤ r)
    (hapart : ∀ b b', b < b' → b' < n → start b + (itemsOf (done ++ rest) b).length ≤ start b') :
    Filled start n r (done ++ rest) (rest.foldl (fun (s : Filling) x => s.put x.1 x.2) s) := by
  induction rest generalizing done s with
  | nil =>
    rw [append_nil]
    exact h
  | cons x rest ih =>
    obtain ⟨hx, hkeys⟩ := forall_mem_cons.mp hkeys
    have hall : done ++ x :: rest = done ++ [x] ++ rest := by rw [append_assoc]; rfl
    -- a bucket has no more items now than in the end, and that of the item has one less
    have hle : ∀ b, (itemsOf done b).length ≤ (itemsOf (done ++ x :: rest) b).length := by
      intro b
      rw [length_itemsOf, length_itemsOf, map_append, countP_append]
      exact Nat.le_add_right _ _
    have hlt : (itemsOf done x.1).length < (itemsOf (done ++ x :: rest) x.1).length := by
      rw [length_itemsOf, length_itemsOf, map_append, countP_append, map_cons,
        countP_cons_of_pos (by simp)]
      omega
    rw [hall] at hroom hapart ⊢
    refine ih (h.put x hx ?_ ?_) hkeys hroom hapart
    · have := hroom x.1 hx
      rw [← hall] at this
      omega
    · intro b hb t ht
      have htb := hle b
      rw [hall] at hlt htb
      rcases Nat.lt_trichotomy b x.1 with hlower | rfl | hupper
      · have := hapart b x.1 hlower hx
        omega
      · omega
      · have := hapart x.1 b hupper hb
        omega

theorem countP_lt_le {b b' : ℕ} (h : b < b') :
    (keys.countP fun k => k < b) + (keys.countP fun k => k = b) ≤ keys.countP fun k => k < b' := by
  rw [← countP_lt_succ]
  apply countP_mono_left
  intro k _ hk
  rw [decide_eq_true_iff] at hk ⊢
  omega

/-- The part of a bucket holds its items. -/
theorem part_bucketMembers (hkeys : ∀ k ∈ keys, k < n) {b : ℕ} (hb : b < n) :
    ((bucketMembers n keys).drop ((bucketStarts n keys).getD b 0)).take
        ((bucketStarts n keys).getD (b + 1) 0 - (bucketStarts n keys).getD b 0) =
      itemsOf keys.zipIdx b := by
  have hmap : keys.zipIdx.map Prod.fst = keys := zipIdx_map_fst ..
  have hstart : Filled (fun b => keys.countP fun k => k < b) n keys.length []
      ⟨replicate keys.length 0, (bucketStarts n keys).take n⟩ := by
    constructor
    · exact length_replicate
    · rw [length_take, length_bucketStarts hkeys]
      omega
    · intro b hb
      rw [getD_eq_getElem?_getD, getElem?_take_of_lt hb, ← getD_eq_getElem?_getD,
        getD_bucketStarts hkeys (Nat.le_of_lt hb)]
      rfl
    · exact fun _ _ _ ht => absurd ht (Nat.not_lt_zero _)
  have hfilled := @Filled.foldl _ _ _ _ keys.zipIdx _ hstart
    (fun x hx => hkeys x.1 (hmap ▸ mem_map_of_mem hx))
    (fun b _ => by
      rw [nil_append, length_itemsOf, hmap, ← countP_lt_succ]
      exact countP_le_length)
    (fun b b' hlt _ => by
      rw [nil_append, length_itemsOf, hmap]
      exact countP_lt_le hlt)
  rw [nil_append] at hfilled
  have hlen : (itemsOf keys.zipIdx b).length = keys.countP fun k => k = b := by
    rw [length_itemsOf, hmap]
  rw [getD_bucketStarts hkeys hb, getD_bucketStarts hkeys (Nat.le_of_lt hb), countP_lt_succ,
    Nat.add_sub_cancel_left]
  have hfits : (keys.countP fun k => k < b) + (keys.countP fun k => k = b) ≤ keys.length := by
    rw [← countP_lt_succ]
    exact countP_le_length
  have hmembers := hfilled.length_members
  rw [← bucketMembers] at hmembers
  apply ext_getElem
  · rw [length_take, length_drop, hmembers, hlen]
    omega
  · intro t ht ht'
    have hmem := hfilled.members b hb t ht'
    rw [← bucketMembers, getD_eq_getElem _ _ (by omega), getD_eq_getElem _ _ ht'] at hmem
    rw [getElem_take, getElem_drop]
    exact hmem

end XrayCore.Table
