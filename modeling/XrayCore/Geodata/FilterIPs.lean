/-
  XrayCore.Geodata.FilterIPs

  When `FilterIPs` of several matchers is a partition.

  All that the matchers take out of a view and all that stays in it is what the view was
  built with, whatever the order of the loops (`Table.Sifted`).  The buckets of a family
  are built with all its addresses, the table by address with one for each address.  So
  the result counts every address once exactly if, in each family, all matchers use the
  buckets, or all use the table and no address comes twice.  Otherwise more can be matched
  than was given, and then `FilterIPs` panics.
-/

import XrayCore.Geodata.IPMatcher

namespace XrayCore.Geodata

open Table List HeuristicIPMatcher

/-- A step that succeeds, and the one after it. -/
theorem exists_of_bind_eq_ok {α β : Type} {x : Except String α} {f : α → Except String β} {b : β}
    (h : x >>= f = .ok b) : ∃ a, x = .ok a ∧ f a = .ok b := by
  cases x with
  | error e => nomatch h
  | ok a => exact ⟨a, rfl, h⟩

/-- The account of two takes, one after the other. -/
theorem add_of_takes {matched mid out old4 old6 new4 new6 : Multiset NetIP}
    (h4 : mid + old4 = matched + new4) (h6 : out + old6 = mid + new6)
    (hmatched : matched = old4 + old6) : out = new4 + new6 := by
  apply add_right_cancel (b := old4 + old6)
  calc out + (old4 + old6) = (out + old6) + old4 := by abel
    _ = (mid + old4) + new6 := by
        rw [h6]
        abel
    _ = new4 + new6 + (old4 + old6) := by
        rw [h4, hmatched]
        abel

/-- Two sums agree if their parts do, when a test tells the parts apart. -/
theorem add_eq_add_iff_of_disjoint {α : Type} (p : α → Prop) [DecidablePred p]
    {a b c d : Multiset α} (ha : ∀ x ∈ a, p x) (hb : ∀ x ∈ b, ¬ p x) (hc : ∀ x ∈ c, p x)
    (hd : ∀ x ∈ d, ¬ p x) : a + b = c + d ↔ a = c ∧ b = d := by
  constructor
  · intro h
    have hac := congrArg (Multiset.filter p) h
    rw [Multiset.filter_add, Multiset.filter_add, Multiset.filter_eq_self.mpr ha,
      Multiset.filter_eq_nil.mpr hb, Multiset.filter_eq_self.mpr hc,
      Multiset.filter_eq_nil.mpr hd, add_zero, add_zero] at hac
    rw [hac] at h
    exact ⟨hac, add_left_cancel h⟩
  · rintro ⟨rfl, rfl⟩
    rfl

/-! ## The tables -/

/-- An address put into its bucket. -/
def putBucket (t : Stock Bytes IpBucket) (x : NetIP × Addr) :
    Stock Bytes IpBucket :=
  t.insert x.2.key <| some <|
    match t.lookup x.2.key with
    | some (some b) => { b with ips := b.ips ++ [x.1] }
    | _ => { rep := x.2, ips := [x.1] }

/-- An address put into the table by address, where it takes the place of an earlier one. -/
def putPrecise (t : Stock Addr NetIP) (x : NetIP × Addr) : Stock Addr NetIP :=
  t.insert x.2 (some x.1)

theorem content_putBucket (t : Stock Bytes IpBucket) (x : NetIP × Addr) :
    content IpBucket.ips (putBucket t x) = content IpBucket.ips t + {x.1} := by
  have h := content_insert IpBucket.ips t x.2.key <| some <|
    match t.lookup x.2.key with
    | some (some b) => { b with ips := b.ips ++ [x.1] }
    | _ => { rep := x.2, ips := [x.1] }
  rw [putBucket]
  revert h
  cases t.lookup x.2.key with
  | none => exact fun h => (add_zero _).symm.trans h
  | some b =>
    cases b with
    | none => exact fun h => (add_zero _).symm.trans h
    | some b =>
      intro h
      have hips : ((b.ips ++ [x.1] : List NetIP) : Multiset NetIP) = {x.1} + b.ips := by
        rw [← Multiset.coe_add, add_comm]
        rfl
      simp only [given, hips, ← add_assoc] at h
      exact add_right_cancel h

/-- The table by address has, under each address of the family, a slice of that address. -/
structure Precise (xs : List (NetIP × Addr)) (t : Stock Addr NetIP) : Prop where
  mem : ∀ a, a ∈ t ↔ a ∈ xs.map Prod.snd
  lookup : ∀ a v, t.lookup a = some v → ∃ ip, v = some ip ∧ (ip, a) ∈ xs

theorem Precise.put {xs : List (NetIP × Addr)} {t : Stock Addr NetIP} (h : Precise xs t)
    (x : NetIP × Addr) : Precise (xs ++ [x]) (putPrecise t x) := by
  constructor
  · intro a
    rw [putPrecise, AList.mem_insert, h.mem, map_append, mem_append]
    simp [or_comm]
  · intro a v hlookup
    rcases lookup_insert_eq_some.mp hlookup with ⟨rfl, hv⟩ | ⟨-, hlookup⟩
    · exact ⟨x.1, hv, mem_append_right _ (mem_singleton.mpr rfl)⟩
    · obtain ⟨ip, hv, hmem⟩ := h.lookup a v hlookup
      exact ⟨ip, hv, mem_append_left _ hmem⟩

section

variable [Netipx]

/-! ## Addresses of one bucket are matched alike -/

/-- A set as the factory makes them. -/
def IPSet.Made (s : IPSet) : Prop := ∃ yield, createFrom yield = .ok s

theorem IPSet.Made.max {s : IPSet} (h : s.Made) :
    s.max4 = maxBits (Netipx.prefixes s.ipv4) ∧ s.max6 = maxBits (Netipx.prefixes s.ipv6) := by
  obtain ⟨yield, hs⟩ := h
  obtain ⟨cidrs, _, hs⟩ := exists_of_bind_eq_ok hs
  obtain ⟨ipv4, _, hs⟩ := exists_of_bind_eq_ok hs
  obtain ⟨ipv6, _, hs⟩ := exists_of_bind_eq_ok hs
  obtain rfl := Except.ok.inj hs
  exact ⟨rfl, rfl⟩

variable {ms : List HeuristicIPMatcher}

theorem made_of_subMatcher {α : Type} {collected : List α}
    {yield : List α → Except String (List CIDR)} {reverse : Bool}
    (h : subMatcher collected yield reverse = .ok ms) : ∀ m ∈ ms, m.ipset.Made := by
  rw [subMatcher] at h
  by_cases hempty : collected.isEmpty = true
  · rw [if_pos hempty] at h
    obtain rfl := Except.ok.inj h
    exact nofun
  · rw [if_neg hempty] at h
    obtain ⟨ipset, hset, h⟩ := exists_of_bind_eq_ok h
    obtain rfl := Except.ok.inj h
    exact forall_mem_singleton.mpr ⟨_, hset⟩

/-- The matchers that are built of rules have such sets. -/
theorem made_of_build {loadIP : GeoIPRule → Except String (List CIDR)} {rules : List IPRule}
    (h : buildOptimizedIPMatcher loadIP rules = .ok ms) : ∀ m ∈ ms, m.ipset.Made := by
  obtain ⟨posCustom, hposCustom, h⟩ := exists_of_bind_eq_ok h
  obtain ⟨negCustom, hnegCustom, h⟩ := exists_of_bind_eq_ok h
  obtain ⟨posGeoip, hposGeoip, h⟩ := exists_of_bind_eq_ok h
  obtain ⟨negGeoip, hnegGeoip, h⟩ := exists_of_bind_eq_ok h
  simp only at h
  split at h
  · nomatch h
  · obtain rfl := Except.ok.inj h
    intro m hm
    simp only [mem_append] at hm
    rcases hm with ((hm | hm) | hm) | hm
    · exact made_of_subMatcher hposCustom m hm
    · exact made_of_subMatcher hnegCustom m hm
    · exact made_of_subMatcher hposGeoip m hm
    · exact made_of_subMatcher hnegGeoip m hm

variable {a : Addr}

/-- A set of short prefixes does not tell addresses apart that agree in their first bytes. -/
theorem contains_congr {s : Netipx.Set} {k : ℕ} (hbits : ∀ p ∈ Netipx.prefixes s, p.bits ≤ 8 * k)
    {b : Addr} (his4 : a.is4 = b.is4) (hbytes : a.bytes.take k = b.bytes.take k) :
    Netipx.contains s a = Netipx.contains s b := by
  rw [Netipx.contains_eq, Netipx.contains_eq, Bool.eq_iff_iff, any_eq_true, any_eq_true]
  constructor
  · rintro ⟨p, hp, hpa⟩
    exact ⟨p, hp, by rw [← Prefix.contains_congr (hbits p hp) his4 hbytes, hpa]⟩
  · rintro ⟨p, hp, hpb⟩
    exact ⟨p, hp, by rw [Prefix.contains_congr (hbits p hp) his4 hbytes, hpb]⟩

variable {f : Bool} {m : HeuristicIPMatcher}

/-- A matcher that uses the buckets of a family matches the addresses of a bucket alike. -/
theorem HeuristicIPMatcher.matchAddr_congr (hmade : m.ipset.Made) (hheur : m.heur f = true)
    {b : Addr} (ha : a.is4 = f) (hb : b.is4 = f) (hkey : a.key = b.key) :
    m.matchAddr a = m.matchAddr b := by
  have hmax := hmade.max
  rw [Addr.key, Addr.key, ha, hb] at hkey
  rw [matchAddr, matchAddr, ha, hb]
  cases f with
  | true =>
    -- the first three bytes, and prefixes of at most 24 bits
    have hbytes : a.bytes.take 3 = b.bytes.take 3 := by
      simpa using hkey
    have hbits := bits_le_of_maxBits (n := 24) (hmax.1 ▸ of_decide_eq_true hheur) (by decide)
    rw [if_pos rfl, if_pos rfl, contains_congr hbits (ha.trans hb.symm) hbytes]
  | false =>
    have hbytes : a.bytes.take 8 = b.bytes.take 8 := by
      simpa using hkey
    have hbits := bits_le_of_maxBits (n := 64) (hmax.2 ▸ of_decide_eq_true hheur) (by decide)
    show (if m.ipset.max6 = 0xff then false else _) = if m.ipset.max6 = 0xff then false else _
    rw [contains_congr hbits (ha.trans hb.symm) hbytes]

/-! ## What the views are built with -/

/-- The valid addresses of a family, each with its slice. -/
def family (f : Bool) (ips : List NetIP) : List (NetIP × Addr) :=
  ips.filterMap fun ip => (fromStdIP ip).bind fun a => if a.is4 = f then some (ip, a) else none

variable {ips : List NetIP}

theorem mem_family_iff {x : NetIP × Addr} :
    x ∈ family f ips ↔ x.1 ∈ ips ∧ fromStdIP x.1 = some x.2 ∧ x.2.is4 = f := by
  obtain ⟨ip, a⟩ := x
  rw [family, mem_filterMap]
  constructor
  · rintro ⟨ip', hip', hx⟩
    obtain ⟨a', ha', hif⟩ := Option.bind_eq_some_iff.mp hx
    by_cases hf : a'.is4 = f
    · rw [if_pos hf] at hif
      obtain ⟨rfl, rfl⟩ := Prod.mk.inj (Option.some.inj hif)
      exact ⟨hip', ha', hf⟩
    · rw [if_neg hf] at hif
      nomatch hif
  · rintro ⟨hip, ha, hf⟩
    refine ⟨ip, hip, ?_⟩
    rw [show fromStdIP ip = some a from ha, Option.bind_some, if_pos hf]

/-- The buckets of a family. -/
def bucketsOf (f : Bool) (ips : List NetIP) : Stock Bytes IpBucket :=
  (family f ips).foldl putBucket ∅

/-- The table by address of a family. -/
def preciseOf (f : Bool) (ips : List NetIP) : Stock Addr NetIP :=
  (family f ips).foldl putPrecise ∅

variable {ip : NetIP}

theorem addBucket_eq (ha : fromStdIP ip = some a) (t : Stock Bytes IpBucket) :
    addBucket a.key ip t = some (putBucket t (ip, a)) := by
  rw [addBucket, putBucket]
  cases t.lookup a.key with
  | none => simp [ha]
  | some b =>
    cases b with
    | none => simp [ha]
    | some b => rfl

/-- What is added to the views of one family. -/
theorem FamilyViews.add_eq (ha : fromStdIP ip = some a) (needHeur needPrec : Bool)
    (v : FamilyViews) :
    v.add needHeur needPrec a.key ip =
      { buckets := if needHeur then v.buckets.map (putBucket · (ip, a)) else v.buckets
        precise := if needPrec then v.precise.map (putPrecise · (ip, a)) else v.precise } := by
  obtain ⟨buckets, precise⟩ := v
  have hprec : ∀ b : Option (Stock Bytes IpBucket),
      FamilyViews.addPrecise needPrec ip ⟨b, precise⟩ =
        ⟨b, if needPrec then precise.map (putPrecise · (ip, a)) else precise⟩ := by
    intro b
    cases needPrec with
    | false => rfl
    | true =>
      cases precise with
      | none => rfl
      | some t => simp [addPrecise, ha, putPrecise]
  cases needHeur with
  | false => exact hprec buckets
  | true =>
    cases buckets with
    | none => exact hprec none
    | some t =>
      simp only [add, addBucket_eq ha]
      exact hprec _

/-- The views of a family (IPv4 for `true`). -/
def IpBucketViews.get (v : IpBucketViews) : Bool → FamilyViews
  | true => v.v4
  | false => v.v6

/-- An address goes into the views of its family. -/
theorem IpBucketViews.get_add (need : Bool → Bool × Bool) (v : IpBucketViews) (ip : NetIP)
    (f : Bool) :
    (v.add (need true) (need false) ip).get f =
      (family f [ip]).foldl (fun w x => w.add (need f).1 (need f).2 x.2.key x.1) (v.get f) := by
  rw [add, prefixKeyFromIP_eq, family]
  cases ha : fromStdIP ip with
  | none => simp [ha]
  | some a =>
    simp only [Option.map_some, Addr.head_key]
    cases h4 : a.is4 with
    | true => cases f <;> simp [ha, h4, get]
    | false => cases f <;> simp [ha, h4, get]

theorem IpBucketViews.get_foldl_add (need : Bool → Bool × Bool) (v : IpBucketViews)
    (ips : List NetIP) (f : Bool) :
    (ips.foldl (add (need true) (need false)) v).get f =
      (family f ips).foldl (fun w x => w.add (need f).1 (need f).2 x.2.key x.1) (v.get f) := by
  induction ips generalizing v with
  | nil => rfl
  | cons ip ips ih =>
    have hcons : family f (ip :: ips) = family f [ip] ++ family f ips := by
      rw [family, family, family, ← filterMap_append]
      rfl
    rw [foldl_cons, ih, IpBucketViews.get_add, hcons, foldl_append]

/-- The two views of a family are built side by side. -/
theorem FamilyViews.foldl_add (needHeur needPrec : Bool) {xs : List (NetIP × Addr)}
    (hxs : ∀ x ∈ xs, fromStdIP x.1 = some x.2) (v : FamilyViews) :
    xs.foldl (fun w x => w.add needHeur needPrec x.2.key x.1) v =
      { buckets := if needHeur then v.buckets.map (xs.foldl putBucket ·) else v.buckets
        precise := if needPrec then v.precise.map (xs.foldl putPrecise ·) else v.precise } := by
  induction xs generalizing v with
  | nil => simp
  | cons x xs ih =>
    have hx := hxs x mem_cons_self
    rw [foldl_cons, FamilyViews.add_eq hx,
      ih (fun y hy => hxs y (mem_cons_of_mem _ hy))]
    cases needHeur <;> cases needPrec <;> simp [Function.comp_def]

/-- The views after `ensureForMatcher`: those that the matcher needs are there, built of all
    the addresses, and the others are as they were. -/
theorem IpBucketViews.get_ensureForMatcher (v : IpBucketViews) (m : HeuristicIPMatcher)
    (ips : List NetIP) (f : Bool) :
    (v.ensureForMatcher m ips).get f =
      { buckets :=
          if m.heur f = true ∧ (v.get f).buckets = none then some (bucketsOf f ips)
          else (v.get f).buckets
        precise :=
          if m.heur f = false ∧ (v.get f).precise = none then some (preciseOf f ips)
          else (v.get f).precise } := by
  let need : Bool → Bool × Bool := fun f =>
    (m.heur f && (v.get f).buckets.isNone, !m.heur f && (v.get f).precise.isNone)
  have hensure : v.ensureForMatcher m ips =
      if !(need true).1 && !(need false).1 && !(need true).2 && !(need false).2 then v
      else ips.foldl (add (need true) (need false))
        { v4 := (v.get true).make (need true).1 (need true).2
          v6 := (v.get false).make (need false).1 (need false).2 } := rfl
  have hneed : (need f).1 = true ↔ m.heur f = true ∧ (v.get f).buckets = none := by
    simp [need]
  have hneed' : (need f).2 = true ↔ m.heur f = false ∧ (v.get f).precise = none := by
    simp [need]
  rw [hensure]
  by_cases hnone : (!(need true).1 && !(need false).1 && !(need true).2 && !(need false).2) = true
  · rw [if_pos hnone, if_neg, if_neg]
    · rw [← hneed']
      cases f <;> simp_all
    · rw [← hneed]
      cases f <;> simp_all
  · have hmake : (IpBucketViews.mk ((v.get true).make (need true).1 (need true).2)
        ((v.get false).make (need false).1 (need false).2)).get f =
        (v.get f).make (need f).1 (need f).2 := by
      cases f <;> rfl
    rw [if_neg hnone, get_foldl_add, hmake,
      FamilyViews.foldl_add _ _ fun x hx => (mem_family_iff.mp hx).2.1]
    congr 1
    · by_cases h : (need f).1 = true
      · rw [if_pos h, if_pos (hneed.mp h), FamilyViews.make, if_pos h]
        rfl
      · rw [if_neg h, if_neg (fun h' => h (hneed.mpr h')), FamilyViews.make, if_neg h]
    · by_cases h : (need f).2 = true
      · rw [if_pos h, if_pos (hneed'.mp h), FamilyViews.make, if_pos h]
        rfl
      · rw [if_neg h, if_neg (fun h' => h (hneed'.mpr h')), FamilyViews.make, if_neg h]

/-! ## What the views hold -/

/-- The slices of a family. -/
def slices (f : Bool) (ips : List NetIP) : Multiset NetIP := (family f ips).map Prod.fst

theorem mem_slices_iff : ip ∈ slices f ips ↔ ip ∈ ips ∧ ∃ a, fromStdIP ip = some a ∧ a.is4 = f := by
  rw [slices, Multiset.mem_coe, mem_map]
  constructor
  · rintro ⟨x, hx, rfl⟩
    obtain ⟨hips, ha, hf⟩ := mem_family_iff.mp hx
    exact ⟨hips, x.2, ha, hf⟩
  · rintro ⟨hips, a, ha, hf⟩
    exact ⟨(ip, a), mem_family_iff.mpr ⟨hips, ha, hf⟩, rfl⟩

/-- The buckets hold every address of the family. -/
theorem content_bucketsOf (f : Bool) (ips : List NetIP) :
    content IpBucket.ips (bucketsOf f ips) = slices f ips := by
  have hfold : ∀ (xs : List (NetIP × Addr)) (t : Stock Bytes IpBucket),
      content IpBucket.ips (xs.foldl putBucket t) =
        content IpBucket.ips t + (xs.map Prod.fst : List NetIP) := by
    intro xs
    induction xs with
    | nil => exact fun t => (add_zero _).symm
    | cons x xs ih =>
      intro t
      rw [foldl_cons, ih, content_putBucket, add_assoc]
      rfl
  rw [bucketsOf, hfold, content_empty, zero_add, slices]

/-- The addresses of a bucket have the key and a property of its representative. -/
def Bucketed (p : Addr → Prop) (t : Stock Bytes IpBucket) : Prop :=
  ∀ k b, t.lookup k = some (some b) → b.rep.key = k ∧ p b.rep ∧
    ∀ ip ∈ b.ips, ∃ a, fromStdIP ip = some a ∧ a.key = k ∧ p a

theorem Bucketed.put {p : Addr → Prop} {t : Stock Bytes IpBucket} (h : Bucketed p t)
    {x : NetIP × Addr} (ha : fromStdIP x.1 = some x.2) (hp : p x.2) :
    Bucketed p (putBucket t x) := by
  intro k b hlookup
  rw [putBucket] at hlookup
  rcases lookup_insert_eq_some.mp hlookup with ⟨rfl, hb⟩ | ⟨-, hlookup⟩
  · obtain rfl := Option.some.inj hb
    split
    · rename_i b hb
      obtain ⟨hrep, hprep, hips⟩ := h _ b hb
      exact ⟨hrep, hprep,
        forall_mem_append.mpr ⟨hips, forall_mem_singleton.mpr ⟨x.2, ha, rfl, hp⟩⟩⟩
    · exact ⟨rfl, hp, forall_mem_singleton.mpr ⟨x.2, ha, rfl, hp⟩⟩
  · exact h k b hlookup

theorem bucketed_bucketsOf (f : Bool) (ips : List NetIP) :
    Bucketed (·.is4 = f) (bucketsOf f ips) := by
  rw [bucketsOf]
  have hall : ∀ x ∈ family f ips, fromStdIP x.1 = some x.2 ∧ x.2.is4 = f :=
    fun x hx => (mem_family_iff.mp hx).2
  have hstart : Bucketed (·.is4 = f) ∅ := nofun
  generalize family f ips = xs at hall
  revert hstart
  generalize (∅ : Stock Bytes IpBucket) = t
  intro hstart
  induction xs generalizing t with
  | nil => exact hstart
  | cons x xs ih =>
    obtain ⟨ha, hf⟩ := hall x mem_cons_self
    exact ih (fun y hy => hall y (mem_cons_of_mem _ hy)) _ (hstart.put ha hf)

theorem precise_preciseOf (f : Bool) (ips : List NetIP) :
    Precise (family f ips) (preciseOf f ips) := by
  have hfold : ∀ (ys xs : List (NetIP × Addr)) (t : Stock Addr NetIP), Precise xs t →
      Precise (xs ++ ys) (ys.foldl putPrecise t) := by
    intro ys
    induction ys with
    | nil =>
      intro xs t h
      rw [append_nil]
      exact h
    | cons y ys ih =>
      intro xs t h
      have h' := ih _ _ (h.put y)
      rw [append_assoc] at h'
      exact h'
  exact hfold (family f ips) [] ∅ ⟨fun a => by simp, nofun⟩

/-- If no address comes twice, the table holds every address. -/
theorem content_preciseOf (hnodup : ((family f ips).map Prod.snd).Nodup) :
    content (fun ip => [ip]) (preciseOf f ips) = slices f ips := by
  have hfold : ∀ (xs : List (NetIP × Addr)) (t : Stock Addr NetIP), (xs.map Prod.snd).Nodup →
      (∀ x ∈ xs, x.2 ∉ t) →
      content (fun ip => [ip]) (xs.foldl putPrecise t) =
        content (fun ip => [ip]) t + (xs.map Prod.fst : List NetIP) := by
    intro xs
    induction xs with
    | nil => exact fun t _ _ => (add_zero _).symm
    | cons x xs ih =>
      intro t hxs hnew
      rw [map_cons, nodup_cons] at hxs
      have hput : content (fun ip => [ip]) (putPrecise t x) =
          content (fun ip => [ip]) t + {x.1} := by
        have h := content_insert (fun ip : NetIP => [ip]) t x.2 (some x.1)
        rw [AList.lookup_eq_none.mpr (hnew x mem_cons_self)] at h
        exact (add_zero _).symm.trans h
      rw [foldl_cons, ih _ hxs.2, hput, add_assoc]
      · rfl
      · intro y hy hmem
        rcases (AList.mem_insert _).mp hmem with heq | hmem
        · exact hxs.1 (mem_map.mpr ⟨y, hy, heq⟩)
        · exact hnew y (mem_cons_of_mem _ hy) hmem
  rw [preciseOf, hfold _ _ hnodup fun x _ h => absurd h (AList.notMem_empty _), content_empty,
    zero_add, slices]

/-- The table holds no address twice. -/
theorem nodup_content_preciseOf (f : Bool) (ips : List NetIP) :
    ((content (fun ip => [ip]) (preciseOf f ips)).map fromStdIP).Nodup := by
  have hprecise := precise_preciseOf f ips
  have hmap : (content (fun ip => [ip]) (preciseOf f ips)).map fromStdIP =
      ((preciseOf f ips).keys.map some : List (Option Addr)) := by
    rw [content, Multiset.map_coe, map_flatMap, AList.keys, keys, map_map]
    congr 1
    rw [← flatMap_pure_eq_map]
    refine flatMap_congr fun e he => ?_
    obtain ⟨ip, hv, hmem⟩ := hprecise.lookup e.1 e.2 (AList.mem_lookup_iff.mpr he)
    rw [hv]
    show [fromStdIP ip] = [some e.1]
    rw [(mem_family_iff.mp hmem).2.1]
  rw [hmap, Multiset.coe_nodup]
  exact (preciseOf f ips).nodupKeys.map (Option.some_injective _)

/-! ## The loop over the matchers -/

theorem HeuristicIPMatcher.matchIP_of_some (ha : fromStdIP ip = some a) :
    m.matchIP ip = m.matchAddr a := by
  rw [matchIP, ha]

/-- A view of a family as it is built: which matchers use it, and how they test an entry, which
    decides for all addresses of the entry. -/
structure View (f : Bool) (κ ν : Type) [DecidableEq κ] where
  whole : Stock κ ν
  ips : ν → List NetIP
  uses : HeuristicIPMatcher → Bool
  test : HeuristicIPMatcher → κ → ν → Bool
  entry : ∀ k b, whole.lookup k = some (some b) → ∀ ip ∈ ips b, ∃ a, fromStdIP ip = some a ∧
    a.is4 = f ∧ ∀ m, m.ipset.Made → uses m = true → m.matchAddr a = test m k b

/-- The representative of a bucket was looked up, and stands for its addresses. -/
theorem bucketsOf_entry (k : Bytes) (b : IpBucket)
    (h : (bucketsOf f ips).lookup k = some (some b)) : ∀ ip ∈ b.ips, ∃ a, fromStdIP ip = some a ∧
      a.is4 = f ∧ ∀ m : HeuristicIPMatcher, m.ipset.Made → m.heur f = true →
        m.matchAddr a = m.matchAddr b.rep := by
  obtain ⟨hrep, hrep4, hips⟩ := bucketed_bucketsOf f ips k b h
  intro ip hip
  obtain ⟨a, ha, hkey, ha4⟩ := hips ip hip
  exact ⟨a, ha, ha4, fun m hmade hheur =>
    matchAddr_congr hmade hheur ha4 hrep4 (hkey.trans hrep.symm)⟩

theorem preciseOf_entry (k : Addr) (b : NetIP) (h : (preciseOf f ips).lookup k = some (some b)) :
    ∀ ip ∈ [b], ∃ a, fromStdIP ip = some a ∧ a.is4 = f ∧
      ∀ m : HeuristicIPMatcher, m.ipset.Made → (!m.heur f) = true →
        m.matchAddr a = m.matchAddr k := by
  obtain ⟨ip, hsome, hfamily⟩ := (precise_preciseOf f ips).lookup k _ h
  obtain rfl := Option.some.inj hsome
  obtain ⟨-, hk, hf⟩ := mem_family_iff.mp hfamily
  exact forall_mem_singleton.mpr ⟨k, hk, hf, fun _ _ _ => rfl⟩

def bucketView (f : Bool) (ips : List NetIP) : View f Bytes IpBucket where
  whole := bucketsOf f ips
  ips := IpBucket.ips
  uses m := m.heur f
  test m _ b := m.matchAddr b.rep
  entry := bucketsOf_entry

def preciseView (f : Bool) (ips : List NetIP) : View f Addr NetIP where
  whole := preciseOf f ips
  ips ip := [ip]
  uses m := !m.heur f
  test m ipx _ := m.matchAddr ipx
  entry := preciseOf_entry

namespace View

variable {κ ν : Type} [DecidableEq κ] {V : View f κ ν}

/-- The tests that matchers make on a view. -/
def tests (V : View f κ ν) (ms : List HeuristicIPMatcher) : List (κ → ν → Bool) :=
  (ms.filter V.uses).map V.test

/-- A view after some matchers, with what they took out of it: it is there only if one of them
    used it. -/
def After (V : View f κ ν) (ms : List HeuristicIPMatcher) (v : Option (Stock κ ν))
    (out : Multiset NetIP) : Prop :=
  ((∀ m ∈ ms, V.uses m = false) ∧ v = none ∧ out = 0) ∨
    ((¬ ∀ m ∈ ms, V.uses m = false) ∧ ∃ t, v = some t ∧ Sifted V.ips V.whole (V.tests ms) t out)

/-- All that comes out of a view in the end. -/
def all (V : View f κ ν) (ms : List HeuristicIPMatcher) : Multiset NetIP :=
  if ∀ m ∈ ms, V.uses m = false then 0 else content V.ips V.whole

variable {v : Option (Stock κ ν)} {out : Multiset NetIP}

/-- A matcher that does not use the view. -/
theorem After.skip (h : V.After ms v out) (hm : V.uses m = false) : V.After (ms ++ [m]) v out := by
  have htests : V.tests (ms ++ [m]) = V.tests ms := by
    simp [tests, filter_append, hm]
  rw [After, htests, forall_mem_append, forall_mem_singleton, hm]
  simpa [After] using h

/-- A matcher that uses the view, after it was made sure that it is there. -/
theorem After.take (h : V.After ms v out) (hm : V.uses m = true) (order : Ranging) (n : ℕ)
    (matched : List NetIP) :
    ∃ t, (if v = none then some V.whole else v) = some t ∧ ∃ out',
      V.After (ms ++ [m])
        (some (sift (V.test m) V.ips (order.visit n t.keys) (t, matched)).1) out' ∧
      ((sift (V.test m) V.ips (order.visit n t.keys) (t, matched)).2 : Multiset NetIP) + out =
        matched + out' := by
  have htests : V.tests (ms ++ [m]) = V.tests ms ++ [V.test m] := by
    simp [tests, filter_append, hm]
  obtain ⟨t, ht, hsifted⟩ : ∃ t, (if v = none then some V.whole else v) = some t ∧
      Sifted V.ips V.whole (V.tests ms) t out := by
    rcases h with ⟨hnone, rfl, rfl⟩ | ⟨_, t, rfl, ht⟩
    · have hnil : V.tests ms = [] := by
        rw [tests, map_eq_nil_iff, filter_eq_nil_iff]
        simpa using hnone
      exact ⟨V.whole, if_pos rfl, hnil ▸ .start V.ips V.whole⟩
    · exact ⟨t, if_neg nofun, ht⟩
  have hnext := hsifted.sift (V.test m) (order.perm n t.keys)
  rw [← htests] at hnext
  refine ⟨t, ht, ?_⟩
  rw [sift_eq _ _ _ t matched]
  refine ⟨_, .inr ⟨fun hall => ?_, _, rfl, hnext⟩, ?_⟩
  · rw [(forall_mem_append.mp hall).2 m (mem_singleton.mpr rfl)] at hm
    nomatch hm
  · rw [← Multiset.coe_add]
    abel

/-- What is left, and what was taken out before. -/
theorem After.total (h : V.After ms v out) (order : Ranging) (n : ℕ) :
    (restOf V.ips order n v : Multiset NetIP) + out = V.all ms := by
  rcases h with ⟨hnone, rfl, rfl⟩ | ⟨hused, t, rfl, ht⟩
  · rw [all, if_pos hnone]
    rfl
  · rw [all, if_neg hused, restOf, coe_collect V.ips t (order.perm n _), ht.total]

/-- What was taken out of a view matches. -/
theorem After.gave (h : V.After ms v out) (hmade : ∀ m ∈ ms, m.ipset.Made) (hip : ip ∈ out) :
    ∃ m ∈ ms, m.matchIP ip = true := by
  rcases h with ⟨_, _, rfl⟩ | ⟨_, t, _, hsifted⟩
  · nomatch hip
  · obtain ⟨k, b, hlookup, hmem, test, htest, hpass⟩ := hsifted.gave ip hip
    obtain ⟨m, hm, rfl⟩ := mem_map.mp htest
    obtain ⟨hms, huses⟩ := mem_filter.mp hm
    obtain ⟨a, ha, -, hdecides⟩ := V.entry k b hlookup ip hmem
    refine ⟨m, hms, ?_⟩
    rw [matchIP_of_some ha, hdecides m (hmade m hms) huses, hpass]

/-- What is left in a view does not match, if all matchers use it. -/
theorem After.kept (h : V.After ms v out) (hmade : ∀ m ∈ ms, m.ipset.Made)
    (hkind : (∀ m ∈ ms, V.uses m = true) ∨ ∀ m ∈ ms, V.uses m = false) {order : Ranging} {n : ℕ}
    (hip : ip ∈ restOf V.ips order n v) : ∀ m ∈ ms, m.matchIP ip = false := by
  intro m hm
  rcases h with ⟨_, rfl, _⟩ | ⟨hused, t, rfl, hsifted⟩
  · nomatch hip
  · rw [restOf, ← Multiset.mem_coe, coe_collect V.ips t (order.perm n _)] at hip
    obtain ⟨k, b, hlookup, hmem⟩ := mem_content_iff.mp hip
    obtain ⟨hwhole, hfails⟩ := hsifted.kept k b hlookup
    obtain ⟨a, ha, -, hdecides⟩ := V.entry k b hwhole ip hmem
    have huses := hkind.resolve_right hused m hm
    rw [matchIP_of_some ha, hdecides m (hmade m hm) huses]
    exact hfails _ (mem_map.mpr ⟨m, mem_filter.mpr ⟨hm, huses⟩, rfl⟩)

/-- What comes out of a view belongs to its family. -/
theorem family_of_mem_all (h : ip ∈ V.all ms) : ∃ a, fromStdIP ip = some a ∧ a.is4 = f := by
  rw [all] at h
  split at h
  · nomatch h
  · obtain ⟨k, b, hlookup, hmem⟩ := mem_content_iff.mp h
    obtain ⟨a, ha, hf, -⟩ := V.entry k b hlookup ip hmem
    exact ⟨a, ha, hf⟩

end View

/-- The views of a family after some matchers, with what was taken out of each. -/
structure Looked (f : Bool) (ips : List NetIP) (ms : List HeuristicIPMatcher)
    (v : FamilyViews) (ofBuckets ofPrecise : Multiset NetIP) : Prop where
  buckets : (bucketView f ips).After ms v.buckets ofBuckets
  precise : (preciseView f ips).After ms v.precise ofPrecise

theorem Looked.start (f : Bool) (ips : List NetIP) : Looked f ips [] ⟨none, none⟩ 0 0 where
  buckets := .inl ⟨nofun, rfl, rfl⟩
  precise := .inl ⟨nofun, rfl, rfl⟩

variable {ofPrecise ofBuckets : Multiset NetIP} {v : FamilyViews}

/-- One matcher, in one family. -/
theorem Looked.take (h : Looked f ips ms v ofBuckets ofPrecise) (m : HeuristicIPMatcher)
    (order : Ranging) (n : ℕ) (matched : List NetIP) {w : FamilyViews}
    (hw : w =
      { buckets :=
          if m.heur f = true ∧ v.buckets = none then some (bucketsOf f ips) else v.buckets
        precise :=
          if m.heur f = false ∧ v.precise = none then some (preciseOf f ips) else v.precise }) :
    ∃ ofBuckets' ofPrecise',
      Looked f ips (ms ++ [m]) (w.take m (m.heur f) order n matched).1 ofBuckets' ofPrecise' ∧
      ((w.take m (m.heur f) order n matched).2 : Multiset NetIP) + (ofBuckets + ofPrecise) =
        matched + (ofBuckets' + ofPrecise') := by
  cases hheur : m.heur f with
  | true =>
    have hskip : (preciseView f ips).uses m = false := congrArg not hheur
    obtain ⟨t, ht, out, hafter, hsum⟩ := h.buckets.take hheur order n matched
    have hw' : w = { buckets := some t, precise := v.precise } := by
      rw [hw, hheur, ← ht]
      simp [bucketView]
    rw [hw', FamilyViews.take, if_pos rfl]
    refine ⟨out, ofPrecise, ⟨hafter, h.precise.skip hskip⟩, ?_⟩
    rw [← add_assoc, ← add_assoc]
    exact congrArg (· + ofPrecise) hsum
  | false =>
    have huses : (preciseView f ips).uses m = true := congrArg not hheur
    obtain ⟨t, ht, out, hafter, hsum⟩ := h.precise.take huses order n matched
    have hw' : w = { buckets := v.buckets, precise := some t } := by
      rw [hw, hheur, ← ht]
      simp [preciseView]
    rw [hw', FamilyViews.take, if_neg Bool.noConfusion]
    refine ⟨ofBuckets, out, ⟨h.buckets.skip hheur, hafter⟩, ?_⟩
    rw [add_left_comm, add_left_comm (matched : Multiset NetIP)]
    exact congrArg (ofBuckets + ·) hsum

/-- After the loop: what was matched was taken out of the four views. -/
theorem looked_takeAll (order : Ranging) (ips : List NetIP) (todo : List HeuristicIPMatcher)
    {n : ℕ} {views : IpBucketViews} {matched : List NetIP}
    {ofBuckets ofPrecise : Bool → Multiset NetIP}
    (h : ∀ f, Looked f ips ms (views.get f) (ofBuckets f) (ofPrecise f))
    (hmatched : (matched : Multiset NetIP) =
      ofBuckets true + ofPrecise true + (ofBuckets false + ofPrecise false)) :
    ∃ ofBuckets' ofPrecise' : Bool → Multiset NetIP,
      (∀ f, Looked f ips (ms ++ todo)
        ((takeAll order ips n todo (views, matched)).1.get f) (ofBuckets' f) (ofPrecise' f)) ∧
      ((takeAll order ips n todo (views, matched)).2 : Multiset NetIP) =
        ofBuckets' true + ofPrecise' true + (ofBuckets' false + ofPrecise' false) := by
  induction todo generalizing n ms views matched ofBuckets ofPrecise with
  | nil =>
    rw [append_nil]
    exact ⟨ofBuckets, ofPrecise, h, hmatched⟩
  | cons m todo ih =>
    obtain ⟨b4, p4, h4, hsum4⟩ := (h true).take m order n matched
      (views.get_ensureForMatcher m ips true)
    obtain ⟨b6, p6, h6, hsum6⟩ := (h false).take m order (n + 1)
      ((views.ensureForMatcher m ips).v4.take m (m.heur true) order n matched).2
      (views.get_ensureForMatcher m ips false)
    rw [takeAll, show ms ++ m :: todo = (ms ++ [m]) ++ todo by simp]
    refine @ih _ _ _ _ (fun f => if f then b4 else b6) (fun f => if f then p4 else p6) ?_ ?_
    · intro f
      cases f with
      | true => exact h4
      | false => exact h6
    · exact add_of_takes hsum4 hsum6 hmatched

/-! ## What is matched, and what is left -/

/-- The matcher can be used on the addresses of a family only through one of the views. -/
def OneKind (f : Bool) (ms : List HeuristicIPMatcher) : Prop :=
  (∀ m ∈ ms, m.heur f = true) ∨ ∀ m ∈ ms, m.heur f = false

/-- What was taken out of the views matches. -/
theorem Looked.gave (h : Looked f ips ms v ofBuckets ofPrecise) (hmade : ∀ m ∈ ms, m.ipset.Made)
    (hip : ip ∈ ofBuckets + ofPrecise) : ∃ m ∈ ms, m.matchIP ip = true := by
  rcases Multiset.mem_add.mp hip with hip | hip
  · exact h.buckets.gave hmade hip
  · exact h.precise.gave hmade hip

variable {order : Ranging}

/-- What is left does not match, if all matchers use the same view. -/
theorem Looked.kept (h : Looked f ips ms v ofBuckets ofPrecise) (hmade : ∀ m ∈ ms, m.ipset.Made)
    (hkind : OneKind f ms) {n : ℕ} (hip : ip ∈ v.rest order n) :
    ∀ m ∈ ms, m.matchIP ip = false := by
  rcases mem_append.mp hip with hip | hip
  · exact h.buckets.kept hmade hkind hip
  · exact h.precise.kept hmade (by simpa [preciseView] using hkind.symm) hip

/-- All that comes out of the views of a family. -/
def gathered (f : Bool) (ms : List HeuristicIPMatcher) (ips : List NetIP) : Multiset NetIP :=
  (bucketView f ips).all ms + (preciseView f ips).all ms

theorem Looked.total (h : Looked f ips ms v ofBuckets ofPrecise) (order : Ranging) (n : ℕ) :
    (v.rest order n : Multiset NetIP) + (ofBuckets + ofPrecise) = gathered f ms ips := by
  rw [gathered, ← h.buckets.total order n, ← h.precise.total order (n + 1), FamilyViews.rest,
    ← Multiset.coe_add]
  exact add_add_add_comm (_ : Multiset NetIP) _ _ _

/-! ## The partition -/

/-- Can the slice be read as an address? -/
def valid (ip : NetIP) : Bool := (fromStdIP ip).isSome

/-- The two lists are the valid addresses, sorted by whether some matcher matches. -/
structure Partition (ms : List HeuristicIPMatcher) (ips : List NetIP)
    (r : List NetIP × List NetIP) : Prop where
  perm : (r.1 ++ r.2).Perm (ips.filter valid)
  matched : ∀ ip ∈ ips, valid ip = true → (ip ∈ r.1 ↔ ∃ m ∈ ms, m.matchIP ip = true)
  unmatched : ∀ ip ∈ ips, valid ip = true → (ip ∈ r.2 ↔ ¬ ∃ m ∈ ms, m.matchIP ip = true)

/-- The views of a family give every address once: there are none, or all matchers use the
    buckets, or all use the table by address and no address comes twice. -/
def Sortable (f : Bool) (ms : List HeuristicIPMatcher) (ips : List NetIP) : Prop :=
  family f ips = [] ∨
    (ms ≠ [] ∧ ((∀ m ∈ ms, m.heur f = true) ∨
      ((∀ m ∈ ms, m.heur f = false) ∧ ((family f ips).map Prod.snd).Nodup)))

theorem slices_eq_zero_iff : slices f ips = 0 ↔ family f ips = [] := by
  rw [slices, Multiset.coe_eq_zero, map_eq_nil_iff]

/-- The table by address is empty only if the family is. -/
theorem content_preciseOf_eq_zero (h : content (fun ip => [ip]) (preciseOf f ips) = 0) :
    family f ips = [] := by
  cases hfamily : family f ips with
  | nil => rfl
  | cons x xs =>
    have hprecise := precise_preciseOf f ips
    have hmem : x.2 ∈ preciseOf f ips := by
      rw [hprecise.mem, hfamily]
      exact mem_cons_self
    obtain ⟨v, hv⟩ := Option.isSome_iff_exists.mp (AList.lookup_isSome.mpr hmem)
    obtain ⟨ip, rfl, _⟩ := hprecise.lookup x.2 v hv
    have hcontent : ip ∈ content (fun ip => [ip]) (preciseOf f ips) :=
      mem_content_iff.mpr ⟨x.2, ip, hv, mem_singleton.mpr rfl⟩
    rw [h] at hcontent
    nomatch hcontent

/-- A table with all slices has no address twice. -/
theorem nodup_of_content_preciseOf (h : content (fun ip => [ip]) (preciseOf f ips) = slices f ips) :
    ((family f ips).map Prod.snd).Nodup := by
  have hnodup := nodup_content_preciseOf f ips
  rw [h, slices, Multiset.map_coe, map_map, Multiset.coe_nodup] at hnodup
  refine List.Nodup.of_map some ?_
  rw [map_map]
  refine (map_congr_left fun x hx => ?_) ▸ hnodup
  exact (mem_family_iff.mp hx).2.1

theorem gathered_eq_iff : gathered f ms ips = slices f ips ↔ Sortable f ms ips := by
  have hbuckets : (bucketView f ips).all ms =
      if ∀ m ∈ ms, m.heur f = false then 0 else slices f ips := by
    rw [← content_bucketsOf]
    rfl
  have hprecise : (preciseView f ips).all ms =
      if ∀ m ∈ ms, m.heur f = true then 0 else content (fun ip => [ip]) (preciseOf f ips) := by
    simp [View.all, preciseView]
  rw [gathered, Sortable, hbuckets, hprecise]
  by_cases hnone : ∀ m ∈ ms, m.heur f = false
  · rw [if_pos hnone, zero_add]
    by_cases hall : ∀ m ∈ ms, m.heur f = true
    · -- no matchers at all
      obtain rfl : ms = [] := by
        cases ms with
        | nil => rfl
        | cons m ms =>
          have hm := hnone m mem_cons_self
          rw [hall m mem_cons_self] at hm
          nomatch hm
      rw [if_pos hall, eq_comm, slices_eq_zero_iff]
      simp
    · have hne : ms ≠ [] := by
        rintro rfl
        exact hall nofun
      rw [if_neg hall]
      constructor
      · intro h
        exact .inr ⟨hne, .inr ⟨hnone, nodup_of_content_preciseOf h⟩⟩
      · rintro (hfamily | ⟨_, hall' | ⟨_, hnodup⟩⟩)
        · exact content_preciseOf (by rw [hfamily]; exact nodup_nil)
        · exact absurd hall' hall
        · exact content_preciseOf hnodup
  · have hne : ms ≠ [] := by
      rintro rfl
      exact hnone nofun
    rw [if_neg hnone]
    by_cases hall : ∀ m ∈ ms, m.heur f = true
    · rw [if_pos hall, add_zero]
      exact iff_of_true rfl (.inr ⟨hne, .inl hall⟩)
    · rw [if_neg hall]
      constructor
      · -- both views give everything they hold
        intro h
        exact .inl (content_preciseOf_eq_zero (left_eq_add.mp h.symm))
      · rintro (hfamily | ⟨_, hall' | ⟨hnone', _⟩⟩)
        · have hslices := slices_eq_zero_iff.mpr hfamily
          rw [content_preciseOf (by rw [hfamily]; exact nodup_nil), hslices, add_zero]
        · exact absurd hall' hall
        · exact absurd hnone' hnone

/-- The valid addresses are those of the two families. -/
theorem coe_filter_valid (ips : List NetIP) :
    (ips.filter valid : Multiset NetIP) = slices true ips + slices false ips := by
  induction ips with
  | nil => rfl
  | cons ip ips ih =>
    rw [slices, slices, family, family, filterMap_cons, filterMap_cons,
      filter_cons, valid]
    rw [slices, slices, family, family] at ih
    cases ha : fromStdIP ip with
    | none => simpa using ih
    | some a =>
      cases h4 : a.is4 with
      | true =>
        simp only [Option.isSome_some, if_true, Option.bind_some, h4, ← Multiset.cons_coe, ih]
        simp [← Multiset.cons_coe]
      | false =>
        simp only [Option.isSome_some, if_true, Option.bind_some, h4, ← Multiset.cons_coe, ih]
        simp [← Multiset.cons_coe]

/-- What comes out of the views of a family belongs to it. -/
theorem family_of_mem_gathered (h : ip ∈ gathered f ms ips) :
    ∃ a, fromStdIP ip = some a ∧ a.is4 = f := by
  rcases Multiset.mem_add.mp h with h | h
  · exact View.family_of_mem_all h
  · exact View.family_of_mem_all h

/-- The addresses of IPv4. -/
def isV4 (ip : NetIP) : Prop := (fromStdIP ip).any Addr.is4 = true

instance : DecidablePred isV4 := fun _ => inferInstanceAs (Decidable (_ = true))

theorem isV4_iff (h : ∃ a, fromStdIP ip = some a ∧ a.is4 = f) : isV4 ip ↔ f = true := by
  obtain ⟨a, ha, rfl⟩ := h
  rw [isV4, ha]
  rfl

/-- The views give all addresses of both families exactly if they do in each. -/
theorem gathered_add_eq_iff :
    gathered true ms ips + gathered false ms ips = slices true ips + slices false ips ↔
      ∀ f, Sortable f ms ips := by
  have hfamily : ∀ {f ip}, ip ∈ slices f ips → ∃ a, fromStdIP ip = some a ∧ a.is4 = f :=
    fun h => (mem_slices_iff.mp h).2
  have hparts := add_eq_add_iff_of_disjoint isV4 (a := gathered true ms ips)
    (b := gathered false ms ips) (c := slices true ips) (d := slices false ips)
    (fun _ h => (isV4_iff (family_of_mem_gathered h)).mpr rfl)
    (fun _ h h4 => nomatch (isV4_iff (family_of_mem_gathered h)).mp h4)
    (fun _ h => (isV4_iff (hfamily h)).mpr rfl)
    (fun _ h h4 => nomatch (isV4_iff (hfamily h)).mp h4)
  rw [hparts, gathered_eq_iff, gathered_eq_iff]
  constructor
  · rintro ⟨h4, h6⟩ f
    cases f with
    | true => exact h4
    | false => exact h6
  · intro h
    exact ⟨h true, h false⟩

/-- What is left in the views of a family does not match, if every address comes out once. -/
theorem Looked.not_match_of_mem_rest (h : Looked f ips ms v ofBuckets ofPrecise)
    (hmade : ∀ m ∈ ms, m.ipset.Made) (hsort : Sortable f ms ips) {n : ℕ}
    (hip : ip ∈ v.rest order n) : ¬ ∃ m ∈ ms, m.matchIP ip = true := by
  have hgathered : ip ∈ gathered f ms ips := by
    rw [← h.total order n]
    exact Multiset.mem_add.mpr (.inl hip)
  have hkind : OneKind f ms := by
    rcases hsort with hempty | ⟨_, hall | ⟨hnone, _⟩⟩
    · rw [gathered_eq_iff.mpr (.inl hempty), slices_eq_zero_iff.mpr hempty] at hgathered
      nomatch hgathered
    · exact .inl hall
    · exact .inr hnone
  rintro ⟨m, hm, hmatch⟩
  rw [h.kept hmade hkind hip m hm] at hmatch
  nomatch hmatch

/-- A single address is looked up as it is. -/
theorem partition_singleton (order : Ranging) (ms : List HeuristicIPMatcher) (ip : NetIP) :
    ∃ r ∈ filterIPs order ms [ip], Partition ms [ip] r := by
  cases ha : fromStdIP ip with
  | none =>
    have hvalid : valid ip = false := by rw [valid, ha]; rfl
    refine ⟨([], []), by simp [filterIPs, ha], ?_, ?_, ?_⟩
    · simp [hvalid]
    · exact forall_mem_singleton.mpr fun hv => nomatch hvalid.symm.trans hv
    · exact forall_mem_singleton.mpr fun hv => nomatch hvalid.symm.trans hv
  | some a =>
    have hvalid : valid ip = true := by rw [valid, ha]; rfl
    have hany : (∃ m ∈ ms, m.matchIP ip = true) ↔ ms.any (·.matchAddr a) = true := by
      rw [any_eq_true]
      simp only [matchIP_of_some ha]
    by_cases h : ms.any (·.matchAddr a) = true
    · refine ⟨([ip], []), by simp only [filterIPs, ha, if_pos h, Option.mem_def], ?_, ?_, ?_⟩
      · simp [hvalid]
      · exact forall_mem_singleton.mpr fun _ => by simp [hany, h]
      · exact forall_mem_singleton.mpr fun _ => by simp [hany, h]
    · refine ⟨([], [ip]), by simp only [filterIPs, ha, if_neg h, Option.mem_def], ?_, ?_, ?_⟩
      · simp [hvalid]
      · exact forall_mem_singleton.mpr fun _ => by simp [hany, h]
      · exact forall_mem_singleton.mpr fun _ => by simp [hany, h]

/-- `FilterIPs` of several matchers returns a partition of the valid addresses exactly if there
    is at most one address, or in each family every address comes out of the views once. -/
theorem filterIPs_partition_iff (order : Ranging) (ms : List HeuristicIPMatcher)
    (hmade : ∀ m ∈ ms, m.ipset.Made) (ips : List NetIP) :
    (∃ r ∈ filterIPs order ms ips, Partition ms ips r) ↔
      ips.length ≤ 1 ∨ ∀ f, Sortable f ms ips := by
  match ips with
  | [] =>
    refine iff_of_true ⟨([], []), rfl, ?_, nofun, nofun⟩ (.inl (Nat.zero_le _))
    exact List.Perm.refl _
  | [ip] => exact iff_of_true (partition_singleton order ms ip) (.inl (le_refl _))
  | ip₁ :: ip₂ :: rest =>
    have hlong : ¬ (ip₁ :: ip₂ :: rest).length ≤ 1 := by simp
    rw [or_iff_right hlong]
    generalize hips : ip₁ :: ip₂ :: rest = ips
    obtain ⟨ofBuckets, ofPrecise, hlooked, hmatched⟩ := @looked_takeAll _ [] order ips ms 0
      ⟨⟨none, none⟩, ⟨none, none⟩⟩ [] (fun _ => 0) (fun _ => 0)
      (fun f => by cases f <;> exact Looked.start _ ips) rfl
    generalize htake : takeAll order ips 0 ms (⟨⟨none, none⟩, ⟨none, none⟩⟩, []) = r
      at hlooked hmatched
    rw [nil_append] at hlooked
    have hfilter : filterIPs order ms ips = if ips.length < r.2.length then none else
        some (r.2, r.1.v4.rest order (2 * ms.length) ++
          r.1.v6.rest order (2 * ms.length + 2)) := by
      rw [← htake, ← hips]
      rfl
    rw [hfilter]
    have hlooked4 : Looked true ips ms r.1.v4 _ _ := hlooked true
    have hlooked6 : Looked false ips ms r.1.v6 _ _ := hlooked false
    have hall : ((r.2 ++ (r.1.v4.rest order (2 * ms.length) ++
        r.1.v6.rest order (2 * ms.length + 2)) : List NetIP) : Multiset NetIP) =
        gathered true ms ips + gathered false ms ips := by
      rw [← hlooked4.total order (2 * ms.length), ← hlooked6.total order (2 * ms.length + 2),
        ← Multiset.coe_add, ← Multiset.coe_add, hmatched]
      abel
    have hperm := @gathered_add_eq_iff _ ms ips
    rw [← coe_filter_valid, ← hall, Multiset.coe_eq_coe] at hperm
    constructor
    · rintro ⟨out, hout, hpart⟩
      split at hout
      · nomatch hout
      · obtain rfl := Option.some.inj hout
        exact hperm.mp hpart.perm
    intro hsort
    have hroom : ¬ ips.length < r.2.length := by
      have hlength := (hperm.mpr hsort).length_eq
      have hle := length_filter_le valid ips
      rw [length_append] at hlength
      omega
    rw [if_neg hroom]
    -- matched is what matches, left is what does not, and everything is one of the two
    have hin : ∀ ip ∈ r.2, ∃ m ∈ ms, m.matchIP ip = true := by
      intro ip hip
      rw [← Multiset.mem_coe, hmatched] at hip
      rcases Multiset.mem_add.mp hip with hip | hip
      · exact hlooked4.gave hmade hip
      · exact hlooked6.gave hmade hip
    have hout : ∀ ip ∈ r.1.v4.rest order (2 * ms.length) ++
        r.1.v6.rest order (2 * ms.length + 2), ¬ ∃ m ∈ ms, m.matchIP ip = true := by
      intro ip hip
      rcases mem_append.mp hip with hip | hip
      · exact hlooked4.not_match_of_mem_rest hmade (hsort true) hip
      · exact hlooked6.not_match_of_mem_rest hmade (hsort false) hip
    have hone : ∀ ip ∈ ips, valid ip = true → ip ∈ r.2 ∨
        ip ∈ r.1.v4.rest order (2 * ms.length) ++ r.1.v6.rest order (2 * ms.length + 2) := by
      intro ip hip hvalid
      rw [← mem_append, (hperm.mpr hsort).mem_iff]
      exact mem_filter.mpr ⟨hip, hvalid⟩
    refine ⟨_, rfl, hperm.mpr hsort, ?_, ?_⟩
    · intro ip hip hvalid
      exact ⟨hin ip, fun hmatch => (hone ip hip hvalid).resolve_right fun h => hout ip h hmatch⟩
    · intro ip hip hvalid
      exact ⟨hout ip, fun hnot => (hone ip hip hvalid).resolve_left fun h => hnot (hin ip h)⟩

end

attribute [local instance] Netipx.plain

/-- Two ranges that both fit the buckets: the addresses, one of them twice, are sorted. -/
theorem filterIPs_partition_iff_buckets :
    ∃ ms : List HeuristicIPMatcher,
      buildOptimizedIPMatcher (fun _ => .error "no file")
        [.custom ⟨[10, 0, 0, 0], 8⟩ false, .custom ⟨[172, 16, 0, 0], 12⟩ true] = .ok ms ∧
      ∃ r ∈ filterIPs .inOrder ms [[10, 0, 0, 1], [172, 16, 1, 1], [172, 16, 1, 1]],
        Partition ms [[10, 0, 0, 1], [172, 16, 1, 1], [172, 16, 1, 1]] r := by
  obtain ⟨ms, hms, hne, hheur⟩ : ∃ ms : List HeuristicIPMatcher,
      buildOptimizedIPMatcher (fun _ => .error "no file")
        [.custom ⟨[10, 0, 0, 0], 8⟩ false, .custom ⟨[172, 16, 0, 0], 12⟩ true] = .ok ms ∧
      ms ≠ [] ∧ ∀ m ∈ ms, m.heur true = true :=
    ⟨_, rfl, nofun, by decide⟩
  refine ⟨ms, hms, (filterIPs_partition_iff .inOrder ms (made_of_build hms) _).mpr ?_⟩
  refine .inr fun f => ?_
  cases f with
  | true => exact .inr ⟨hne, .inl hheur⟩
  | false => exact .inl (by decide)

/-- A range that fits the buckets and a single address that does not: all addresses are in
    both views, and come out twice.  If all match, that is more than there were. -/
theorem filterIPs_repeats_addresses :
    ∃ ms : List HeuristicIPMatcher,
      buildOptimizedIPMatcher (fun _ => .error "no file")
        [.custom ⟨[10, 0, 0, 0], 8⟩ false, .custom ⟨[192, 168, 1, 1], 32⟩ true] = .ok ms ∧
      filterIPs .inOrder ms [[10, 0, 0, 1], [192, 168, 1, 1]] =
        some ([[10, 0, 0, 1], [10, 0, 0, 1]], [[192, 168, 1, 1], [192, 168, 1, 1]]) ∧
      filterIPs .inOrder ms [[10, 0, 0, 1], [10, 0, 0, 2]] = none :=
  ⟨_, rfl, by decide, by decide⟩

end XrayCore.Geodata
