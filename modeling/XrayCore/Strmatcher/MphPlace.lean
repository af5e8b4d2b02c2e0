/-
  XrayCore.Strmatcher.MphPlace

  Placing the records of a hash table group.

  Buckets are gone through from the largest on, and each gets a seed that puts its records
  into free slots.  `Placing` is what holds in between: the records of the buckets so far
  are found under the seeds of their buckets, and a slot that is not taken holds nothing.
-/

import XrayCore.Strmatcher.MphRecords

namespace XrayCore.Strmatcher

open Table List

/-! ## Ranges -/

/-- A number of 32 bits, scaled down to below `n`. -/
theorem scale_lt {x : UInt64} (hx : x.toNat < 2 ^ 32) {n : UInt32} (hn : 0 < n.toNat) :
    ((x * n.toUInt64) >>> 32).toUInt32.toNat < n.toNat := by
  have hlt : n.toNat < 2 ^ 32 := n.toNat_lt
  have hprod : x.toNat * n.toNat < 2 ^ 32 * n.toNat := Nat.mul_lt_mul_of_pos_right hx hn
  have hfits : x.toNat * n.toNat < 2 ^ 64 :=
    Nat.lt_of_lt_of_le hprod (Nat.mul_le_mul_left (2 ^ 32) (Nat.le_of_lt hlt))
  have hmul : (x * n.toUInt64).toNat = x.toNat * n.toNat := by
    rw [UInt64.toNat_mul, UInt32.toNat_toUInt64, Nat.mod_eq_of_lt hfits]
  have hshift : ((x * n.toUInt64) >>> 32).toNat = x.toNat * n.toNat / 2 ^ 32 := by
    rw [UInt64.toNat_shiftRight, hmul, Nat.shiftRight_eq_div_pow]
    rfl
  have hdiv : x.toNat * n.toNat / 2 ^ 32 < n.toNat := by
    rw [Nat.div_lt_iff_lt_mul (by decide), Nat.mul_comm n.toNat]
    exact hprod
  rw [UInt64.toNat_toUInt32, hshift, Nat.mod_eq_of_lt (Nat.lt_trans hdiv hlt)]
  exact hdiv

theorem toNat_shiftRight_lt (x : UInt64) : (x >>> 32).toNat < 2 ^ 32 := by
  have hlt : x.toNat < 2 ^ 64 := x.toNat_lt
  rw [UInt64.toNat_shiftRight, Nat.shiftRight_eq_div_pow]
  show x.toNat / 2 ^ 32 < 2 ^ 32
  omega

theorem mphBucket_lt {n0 : UInt32} (hn : 0 < n0.toNat) (f : UInt64) : mphBucket n0 f < n0.toNat :=
  scale_lt (toNat_shiftRight_lt f) hn

theorem mphSlot_lt {n1 : UInt32} (hn : 0 < n1.toNat) (f : UInt64) (seed : UInt16) :
    mphSlot n1 f seed < n1.toNat :=
  scale_lt (toNat_shiftRight_lt _) hn

/-! ## Slots of a bucket -/

/-- The slots under a seed that fits. -/
theorem seedSlots_spec {n1 : UInt32} {occupied : List Bool} {seed : UInt16} {hashes : List UInt64}
    {slots slots' : List ℕ} (h : seedSlots n1 occupied seed hashes slots = some slots')
    (hnodup : slots.Nodup) (hfree : ∀ s ∈ slots, occupied.getD s false = false) :
    slots' = slots ++ hashes.map (mphSlot n1 · seed) ∧ slots'.Nodup ∧
      ∀ s ∈ slots', occupied.getD s false = false := by
  induction hashes generalizing slots with
  | nil =>
    obtain rfl := Option.some.inj h
    rw [map_nil, append_nil]
    exact ⟨rfl, hnodup, hfree⟩
  | cons f hashes ih =>
    rw [seedSlots] at h
    split at h
    · nomatch h
    · next hok =>
      rw [not_or, Bool.not_eq_true] at hok
      have hnodup' : (slots ++ [mphSlot n1 f seed]).Nodup :=
        nodup_append.mpr ⟨hnodup, pairwise_singleton _ _, fun s hs s' hs' heq =>
          hok.2 (mem_singleton.mp hs' ▸ heq ▸ hs)⟩
      have hfree' : ∀ s ∈ slots ++ [mphSlot n1 f seed], occupied.getD s false = false := by
        exact forall_mem_append.mpr ⟨hfree, forall_mem_singleton.mpr hok.1⟩
      obtain ⟨heq, hrest⟩ := ih h hnodup' hfree'
      rw [append_assoc] at heq
      exact ⟨heq, hrest⟩

theorem searchSeed_spec {n1 : UInt32} {occupied : List Bool} {hashes : List UInt64} {n start : ℕ}
    {seed : UInt16} {slots : List ℕ}
    (h : searchSeed n1 occupied hashes n start = some (seed, slots)) :
    slots = hashes.map (mphSlot n1 · seed) ∧ slots.Nodup ∧
      ∀ s ∈ slots, occupied.getD s false = false := by
  induction n generalizing start with
  | zero => nomatch h
  | succ n ih =>
    rw [searchSeed] at h
    split at h
    · next slots' hslots =>
      obtain ⟨rfl, rfl⟩ := Prod.mk.inj (Option.some.inj h)
      have hspec := seedSlots_spec hslots nodup_nil nofun
      rwa [nil_append] at hspec
    · exact ih h

/-! ## Filling slots -/

/-- A slot holds a record. -/
structure MphTables.At (t : MphTables) (s : ℕ) (x : UInt32 × UInt64) : Prop where
  level1 : t.level1[s]? = some x.1
  fp : t.fp[s]? = some x.2.toUInt8
  occupied : t.occupied[s]? = some true

/-- Two tables agree on a slot. -/
structure MphTables.Same (t t' : MphTables) (s : ℕ) : Prop where
  level1 : t'.level1[s]? = t.level1[s]?
  fp : t'.fp[s]? = t.fp[s]?
  occupied : t'.occupied[s]? = t.occupied[s]?

variable {t : MphTables}

theorem MphTables.Same.holds {t' : MphTables} {s : ℕ} {x : UInt32 × UInt64} (h : t.Same t' s)
    (hx : t.At s x) : t'.At s x :=
  ⟨h.level1.trans hx.level1, h.fp.trans hx.fp, h.occupied.trans hx.occupied⟩

/-- The tables of slots have `n` of them. -/
structure MphTables.Sized (t : MphTables) (n : ℕ) : Prop where
  level1 : t.level1.length = n
  fp : t.fp.length = n
  occupied : t.occupied.length = n

theorem MphTables.Sized.put {n : ℕ} (h : t.Sized n) (s : ℕ) (rec : UInt32) (hash : UInt64) :
    (t.put s rec hash).Sized n := by
  refine ⟨?_, ?_, ?_⟩
  · exact length_set.trans h.level1
  · exact length_set.trans h.fp
  · exact length_set.trans h.occupied

theorem MphTables.Sized.holds_put {n : ℕ} (h : t.Sized n) {s : ℕ} (hs : s < n)
    (x : UInt32 × UInt64) : (t.put s x.1 x.2).At s x := by
  refine ⟨?_, ?_, ?_⟩
  · exact getElem?_set_self (by rw [h.level1]; exact hs)
  · exact getElem?_set_self (by rw [h.fp]; exact hs)
  · exact getElem?_set_self (by rw [h.occupied]; exact hs)

theorem MphTables.same_put (t : MphTables) {s s' : ℕ} (hne : s' ≠ s) (rec : UInt32)
    (hash : UInt64) :
    t.Same (t.put s rec hash) s' :=
  ⟨getElem?_set_ne hne.symm, getElem?_set_ne hne.symm, getElem?_set_ne hne.symm⟩

/-- All records of a bucket. -/
structure MphTables.Filled (t t' : MphTables) (xs : List (ℕ × (UInt32 × UInt64))) : Prop where
  level0 : t'.level0 = t.level0
  holds : ∀ x ∈ xs, t'.At x.1 x.2
  same : ∀ s, s ∉ xs.map Prod.fst → t.Same t' s

theorem MphTables.Sized.filled {n : ℕ} (h : t.Sized n) (xs : List (ℕ × (UInt32 × UInt64)))
    (hlt : ∀ x ∈ xs, x.1 < n) (hnodup : (xs.map Prod.fst).Nodup) :
    (xs.foldl (fun (t : MphTables) x => t.put x.1 x.2.1 x.2.2) t).Sized n ∧
      t.Filled (xs.foldl (fun (t : MphTables) x => t.put x.1 x.2.1 x.2.2) t) xs := by
  induction xs generalizing t with
  | nil => exact ⟨h, rfl, nofun, fun _ _ => ⟨rfl, rfl, rfl⟩⟩
  | cons x xs ih =>
    obtain ⟨hx, hlt⟩ := forall_mem_cons.mp hlt
    obtain ⟨hnew, hnodup⟩ := nodup_cons.mp hnodup
    obtain ⟨hsized, hfilled⟩ := ih (h.put x.1 x.2.1 x.2.2) hlt hnodup
    refine ⟨hsized, hfilled.level0, ?_, ?_⟩
    · intro y hy
      rcases mem_cons.mp hy with rfl | hy
      · exact (hfilled.same _ hnew).holds (h.holds_put hx y.2)
      · exact hfilled.holds y hy
    · intro s hs
      rw [map_cons, mem_cons, not_or] at hs
      have hput := t.same_put hs.1 x.2.1 x.2.2
      have hrest := hfilled.same s hs.2
      exact ⟨hrest.level1.trans hput.level1, hrest.fp.trans hput.fp,
        hrest.occupied.trans hput.occupied⟩

/-! ## Buckets one after the other -/

section Placing

variable (n0 n1 : UInt32) (members : ℕ → List (UInt32 × UInt64))

/-- What holds when the buckets of `done` are placed. -/
structure Placing (done : List ℕ) (t : MphTables) : Prop where
  level0 : t.level0.length = n0.toNat
  sized : t.Sized n1.toNat
  found : ∀ b ∈ done, ∀ x ∈ members b, ∃ seed, t.level0[mphBucket n0 x.2]? = some seed ∧
    t.At (mphSlot n1 x.2 seed) x
  slots : ∀ s < n1.toNat, (t.occupied[s]? = some false ∧ t.level1[s]? = some 0) ∨
    ∃ b ∈ done, ∃ x ∈ members b, t.level1[s]? = some x.1

variable {n0 n1 members}

/-- A bucket is placed. -/
theorem Placing.bucket {done : List ℕ} {t : MphTables} (h : Placing n0 n1 members done t)
    (hn1 : 0 < n1.toNat) (hmembers : ∀ b, ∀ x ∈ members b, mphBucket n0 x.2 = b) {b : ℕ}
    (hb : b ∉ done) (hlt : b < n0.toNat) {seed : UInt16}
    {slots : List ℕ} (hslots : slots = (members b).map fun x => mphSlot n1 x.2 seed)
    (hnodup : slots.Nodup) (hfree : ∀ s ∈ slots, t.occupied.getD s false = false) :
    Placing n0 n1 members (b :: done)
      { t.putAll slots (members b) with
        level0 := (t.putAll slots (members b)).level0.set b seed } := by
  -- each record with its slot
  have hzip : slots.zip (members b) = (members b).map fun x => (mphSlot n1 x.2 seed, x) := by
    rw [hslots]
    generalize members b = xs
    induction xs with
    | nil => rfl
    | cons x xs ih => rw [map_cons, map_cons, zip_cons_cons, ih]
  have hmap : (slots.zip (members b)).map Prod.fst = slots := by
    apply map_fst_zip
    rw [hslots, length_map]
  have hrange : ∀ x ∈ slots.zip (members b), x.1 < n1.toNat := by
    intro x hx
    rw [hzip] at hx
    obtain ⟨y, _, rfl⟩ := mem_map.mp hx
    exact mphSlot_lt hn1 _ _
  obtain ⟨hsized, hfilled⟩ := h.sized.filled _ hrange (hmap.symm ▸ hnodup)
  rw [← MphTables.putAll] at hsized hfilled
  generalize t.putAll slots (members b) = t' at hsized hfilled
  have hholds : ∀ x ∈ members b, t'.At (mphSlot n1 x.2 seed) x := by
    intro x hx
    have hmem : (mphSlot n1 x.2 seed, x) ∈ slots.zip (members b) := by
      rw [hzip]
      exact mem_map_of_mem hx
    exact hfilled.holds _ hmem
  have hsame : ∀ s, s ∉ slots → t.Same t' s := by
    intro s hs
    exact hfilled.same s (hmap.symm ▸ hs)
  constructor
  · rw [length_set, hfilled.level0, h.level0]
  · exact ⟨hsized.level1, hsized.fp, hsized.occupied⟩
  · intro b' hb' x hx
    rcases mem_cons.mp hb' with rfl | hb'
    · refine ⟨seed, ?_, ?_⟩
      · rw [hmembers b' x hx]
        exact getElem?_set_self (by rw [hfilled.level0, h.level0]; exact hlt)
      · have hx := hholds x hx
        exact ⟨hx.level1, hx.fp, hx.occupied⟩
    · -- the slots of the records so far are taken
      obtain ⟨seed', hseed, hat⟩ := h.found b' hb' x hx
      have hother : mphSlot n1 x.2 seed' ∉ slots := by
        intro hmem
        have hfalse := hfree _ hmem
        rw [getD_eq_getElem?_getD, hat.occupied] at hfalse
        nomatch hfalse
      have hne : b ≠ b' := fun heq => hb (heq ▸ hb')
      have hx' := (hsame _ hother).holds hat
      refine ⟨seed', ?_, hx'.level1, hx'.fp, hx'.occupied⟩
      rw [hmembers b' x hx] at hseed ⊢
      rw [getElem?_set_ne hne, hfilled.level0, hseed]
  · intro s hs
    by_cases hmem : s ∈ slots
    · rw [hslots] at hmem
      obtain ⟨x, hx, rfl⟩ := mem_map.mp hmem
      exact .inr ⟨b, mem_cons_self .., x, hx, (hholds x hx).level1⟩
    · have hsame := hsame s hmem
      rcases h.slots s hs with ⟨hfalse, hzero⟩ | ⟨b', hb', x, hx, hlevel⟩
      · exact .inl ⟨hsame.occupied.trans hfalse, hsame.level1.trans hzero⟩
      · exact .inr ⟨b', mem_cons_of_mem _ hb', x, hx, hsame.level1.trans hlevel⟩

/-- The loop over the buckets places all records, also those of the buckets it leaves out. -/
theorem Placing.placeBuckets {buckets done : List ℕ} {t t' : MphTables}
    (h : Placing n0 n1 members done t) (hn1 : 0 < n1.toNat)
    (hmembers : ∀ b, ∀ x ∈ members b, mphBucket n0 x.2 = b)
    (hnodup : buckets.Nodup) (hother : ∀ b ∈ buckets, b ∉ done) (hlt : ∀ b ∈ buckets, b < n0.toNat)
    (hsorted : buckets.Pairwise fun a b => (members b).length ≤ (members a).length)
    (hplace : Strmatcher.placeBuckets n1 members buckets t = .ok t') :
    ∃ done', Placing n0 n1 members done' t' ∧
      ∀ b ∈ done ++ buckets, members b ≠ [] → b ∈ done' := by
  induction buckets generalizing done t with
  | nil =>
    obtain rfl := Except.ok.inj hplace
    refine ⟨done, h, fun b hb _ => ?_⟩
    rwa [append_nil] at hb
  | cons b buckets ih =>
    obtain ⟨hb, hnodup⟩ := nodup_cons.mp hnodup
    obtain ⟨hbdone, hother⟩ := forall_mem_cons.mp hother
    obtain ⟨hblt, hlt⟩ := forall_mem_cons.mp hlt
    obtain ⟨hlargest, hsorted⟩ := pairwise_cons.mp hsorted
    rw [Strmatcher.placeBuckets] at hplace
    split at hplace
    · next hempty =>
      -- no bucket is larger than an empty one
      obtain rfl := Except.ok.inj hplace
      refine ⟨done, h, fun b' hb' hne => ?_⟩
      rcases mem_append.mp hb' with hb' | hb'
      · exact hb'
      · refine absurd (length_eq_zero_iff.mp ?_) hne
        rcases mem_cons.mp hb' with rfl | hb'
        · rw [hempty]
          rfl
        · have hle := hlargest b' hb'
          rw [hempty] at hle
          exact Nat.le_zero.mp hle
    · split at hplace
      · nomatch hplace
      · split at hplace
        · nomatch hplace
        · next seed slots hsearch =>
          obtain ⟨hslots, hdistinct, hfree⟩ := searchSeed_spec hsearch
          rw [map_map] at hslots
          have hbucket := h.bucket hn1 hmembers hbdone hblt hslots hdistinct hfree
          have hother' : ∀ b' ∈ buckets, b' ∉ b :: done := by
            intro b' hb' hmem
            rcases mem_cons.mp hmem with rfl | hmem
            · exact hb hb'
            · exact hother b' hb' hmem
          obtain ⟨done', hplacing, hall⟩ := ih hbucket hnodup hother' hlt hsorted hplace
          refine ⟨done', hplacing, fun b' hb' hne => hall b' ?_ hne⟩
          rcases mem_append.mp hb' with hb' | hb'
          · exact mem_append_left _ (mem_cons_of_mem _ hb')
          · rcases mem_cons.mp hb' with rfl | hb'
            · exact mem_append_left _ (mem_cons_self ..)
            · exact mem_append_right _ hb'

end Placing

/-! ## Buckets and their records -/

theorem itemsOf_zipIdx (keys : List ℕ) (b : ℕ) :
    itemsOf keys.zipIdx b = (List.range keys.length).filter fun i => keys[i]? = some b := by
  induction keys using reverseRecOn with
  | nil => rfl
  | append_singleton keys k ih =>
    have hzip : (keys ++ [k]).zipIdx = keys.zipIdx ++ [(k, keys.length)] := by
      rw [zipIdx_append]
      simp
    have hrange : range (keys ++ [k]).length = range keys.length ++ [keys.length] := by
      rw [length_append, length_singleton, range_succ]
    have hfront : (range keys.length).filter (fun i => (keys ++ [k])[i]? = some b) =
        (range keys.length).filter fun i => keys[i]? = some b := by
      apply filter_congr
      intro i hi
      rw [getElem?_append_left (mem_range.mp hi)]
    rw [hzip, itemsOf_append, hrange, filter_append, hfront, ih, filter_singleton,
      getElem?_concat_length]
    by_cases hk : k = b <;> simp [hk]

section Records

variable {n0 : ℕ} {pairs : List (UInt32 × UInt64)} {f : UInt32 × UInt64 → ℕ}

theorem keys_lt (hf : ∀ x ∈ pairs, f x < n0) : ∀ k ∈ pairs.map f, k < n0 := by
  intro k hk
  obtain ⟨x, hx, rfl⟩ := mem_map.mp hk
  exact hf x hx

/-- The part of a bucket has the records with that key. -/
theorem bucketRecords_eq (hf : ∀ x ∈ pairs, f x < n0) {b : ℕ} (hb : b < n0) :
    bucketRecords n0 (pairs.map f) pairs b = pairs.filter fun x => f x = b := by
  have hkeys := keys_lt hf
  rw [bucketRecords, part_bucketMembers hkeys hb, itemsOf_zipIdx, length_map]
  apply MphMatcherGroup.filterMap_filter_range
  intro i x hx
  rw [getElem?_map, hx]
  simp

/-- Past the last bucket there is nothing. -/
theorem bucketRecords_of_le (hf : ∀ x ∈ pairs, f x < n0) {b : ℕ} (hb : n0 ≤ b) :
    bucketRecords n0 (pairs.map f) pairs b = [] := by
  have hkeys := keys_lt hf
  have hzero : (bucketStarts n0 (pairs.map f)).getD (b + 1) 0 = 0 :=
    getD_eq_default _ _ (by rw [length_bucketStarts hkeys]; omega)
  rw [bucketRecords, hzero, Nat.zero_sub, take_zero]
  rfl

/-- The buckets are sorted by how many records they have. -/
theorem pairwise_bucketOrder (hf : ∀ x ∈ pairs, f x < n0) :
    (bucketOrder n0 (pairs.map f)).Pairwise fun a b =>
      (bucketRecords n0 (pairs.map f) pairs b).length ≤
        (bucketRecords n0 (pairs.map f) pairs a).length := by
  have hkeys := keys_lt hf
  have hsize : ∀ b < n0, (bucketStarts n0 (pairs.map f)).getD (b + 1) 0 -
      (bucketStarts n0 (pairs.map f)).getD b 0 =
        (bucketRecords n0 (pairs.map f) pairs b).length := by
    intro b hb
    rw [getD_bucketStarts hkeys hb, getD_bucketStarts hkeys (Nat.le_of_lt hb), countP_lt_succ,
      Nat.add_sub_cancel_left, bucketRecords_eq hf hb, ← countP_eq_length_filter, countP_map]
    rfl
  rw [bucketOrder]
  refine (pairwise_insertionSort _ _).imp_of_mem ?_
  intro a b ha hb hle
  rw [mem_insertionSort, mem_range] at ha hb
  rw [← hsize a ha, ← hsize b hb]
  exact hle

end Records

/-! ## The tables of a group -/

namespace MphMatcherGroup

/-- The tables lead from each hash to its record, and from any other to one of the records or
    to nothing. -/
structure Placed (g : MphMatcherGroup) (pairs : List (UInt32 × UInt64)) : Prop where
  found : ∀ x ∈ pairs, ∃ seed, g.level0[mphBucket g.n0 x.2]? = some seed ∧
    g.fp[mphSlot g.n1 x.2 seed]? = some x.2.toUInt8 ∧
    g.level1[mphSlot g.n1 x.2 seed]? = some x.1
  total : ∀ f, ∃ seed fp e, g.level0[mphBucket g.n0 f]? = some seed ∧
    g.fp[mphSlot g.n1 f seed]? = some fp ∧ g.level1[mphSlot g.n1 f seed]? = some e ∧
    (e = 0 ∨ ∃ x ∈ pairs, x.1 = e)

/-- The tables at the start. -/
theorem placing_nil (n0 n1 : UInt32) (members : ℕ → List (UInt32 × UInt64)) :
    Placing n0 n1 members [] ⟨List.replicate n0.toNat 0, List.replicate n1.toNat 0,
      List.replicate n1.toNat 0, List.replicate n1.toNat false⟩ := by
  constructor
  · exact length_replicate
  · exact ⟨length_replicate, length_replicate, length_replicate⟩
  · exact nofun
  · intro s hs
    exact .inl ⟨getElem?_replicate_of_lt hs, getElem?_replicate_of_lt hs⟩

theorem toNat_ofNat_of_lt {n : ℕ} (h : n < 2 ^ 32) : (UInt32.ofNat n).toNat = n := by
  rw [UInt32.toNat_ofNat', Nat.mod_eq_of_lt h]

/-- What `place` leaves. -/
theorem place_spec {g g' : MphMatcherGroup} {recs : List UInt32} {hashes : List UInt64}
    (hlen : recs.length = hashes.length) (hsmall : recs.length < 2 ^ 29)
    (h : g.place recs hashes = .ok g') :
    g'.Placed (recs.zip hashes) ∧ g'.arena = g.arena ∧ g'.mul = g.mul ∧ g'.multi = g.multi ∧
      g'.single = g.single := by
  rw [place] at h
  have hn0 := @toNat_ofNat_of_lt (max 1 (recs.length / 3)) (by omega)
  have hn1 := @toNat_ofNat_of_lt (max 1 (recs.length + recs.length / 99)) (by omega)
  have hpos0 : 0 < max 1 (recs.length / 3) := by omega
  have hpos1 : 0 < max 1 (recs.length + recs.length / 99) := by omega
  generalize max 1 (recs.length / 3) = n0 at h hn0 hpos0
  generalize max 1 (recs.length + recs.length / 99) = n1 at h hn1 hpos1
  -- each record goes to the bucket of its hash
  set keys := (recs.zip hashes).map fun x => mphBucket (UInt32.ofNat n0) x.2
  have hkeys : hashes.map (mphBucket (UInt32.ofNat n0)) = keys := by
    have hsnd : (recs.zip hashes).map Prod.snd = hashes := map_snd_zip (Nat.le_of_eq hlen.symm)
    nth_rewrite 1 [← hsnd]
    rw [map_map]
    rfl
  have hf : ∀ x ∈ recs.zip hashes, mphBucket (UInt32.ofNat n0) x.2 < n0 := by
    intro x _
    have hlt := @mphBucket_lt (UInt32.ofNat n0) (by omega) x.2
    omega
  have hstart := placing_nil (UInt32.ofNat n0) (UInt32.ofNat n1)
    (bucketRecords n0 keys (recs.zip hashes))
  rw [hn0, hn1] at hstart
  simp only [hkeys] at h
  cases hplace : placeBuckets (UInt32.ofNat n1) (bucketRecords n0 keys (recs.zip hashes))
      (bucketOrder n0 keys)
      ⟨replicate n0 0, replicate n1 0, replicate n1 0, replicate n1 false⟩ with
  | error e =>
    rw [hplace] at h
    nomatch h
  | ok t =>
    rw [hplace] at h
    obtain rfl := Except.ok.inj h
    have hmembers : ∀ b, ∀ x ∈ bucketRecords n0 keys (recs.zip hashes) b,
        x ∈ recs.zip hashes ∧ mphBucket (UInt32.ofNat n0) x.2 = b := by
      intro b x hx
      by_cases hb : b < n0
      · rw [bucketRecords_eq hf hb] at hx
        exact (mem_filter.mp hx).imp_right of_decide_eq_true
      · rw [bucketRecords_of_le hf (Nat.not_lt.mp hb)] at hx
        nomatch hx
    have hnodup : (bucketOrder n0 keys).Nodup :=
      (perm_insertionSort _ _).nodup_iff.mpr nodup_range
    have hmem : ∀ b, b ∈ bucketOrder n0 keys ↔ b < n0 := by
      intro b
      rw [bucketOrder, mem_insertionSort, mem_range]
    obtain ⟨done, hplacing, hall⟩ := hstart.placeBuckets (by omega)
      (fun b x hx => (hmembers b x hx).2) hnodup (fun _ _ => nofun)
      (fun b hb => by rw [hn0]; exact (hmem b).mp hb) (pairwise_bucketOrder hf) hplace
    refine ⟨⟨?_, ?_⟩, rfl, rfl, rfl, rfl⟩
    · -- a record is found: its bucket is not empty, so it was placed
      intro x hx
      have hb := hf x hx
      have hrecord : x ∈ bucketRecords n0 keys (recs.zip hashes)
          (mphBucket (UInt32.ofNat n0) x.2) := by
        rw [bucketRecords_eq hf hb]
        exact mem_filter.mpr ⟨hx, decide_eq_true rfl⟩
      have hdone := hall _ ((hmem _).mpr hb) (ne_nil_of_mem hrecord)
      obtain ⟨seed, hseed, hat⟩ := hplacing.found _ hdone x hrecord
      exact ⟨seed, hseed, hat.fp, hat.level1⟩
    · -- any other hash leads to a slot that is free or has some record
      intro f
      have hb := @mphBucket_lt (UInt32.ofNat n0) (by omega) f
      rw [← hplacing.level0] at hb
      have hseed := getElem?_eq_getElem hb
      generalize t.level0[mphBucket (UInt32.ofNat n0) f] = seed at hseed
      have hs := @mphSlot_lt (UInt32.ofNat n1) (by omega) f seed
      have hlt := hs
      rw [← hplacing.sized.fp] at hlt
      have hfp := getElem?_eq_getElem hlt
      rcases hplacing.slots _ hs with ⟨_, hzero⟩ | ⟨b, _, x, hx, hlevel⟩
      · exact ⟨seed, _, 0, hseed, hfp, hzero, .inl rfl⟩
      · exact ⟨seed, _, x.1, hseed, hfp, hlevel, .inr ⟨x, (hmembers b x hx).1, rfl⟩⟩

end MphMatcherGroup

end XrayCore.Strmatcher
