/-
  XrayCore.Geodata.BulkMatch

  Whether one matcher matches some or all of a list of addresses, and how it sorts them
  (`common/geodata/ip_matcher.go`).

  Addresses of one /24 or /64 are in one bucket.  A matcher whose prefixes are not longer
  matches them alike, so it looks up one of them for all.
-/

import XrayCore.Geodata.FilterIPs

namespace XrayCore.Geodata

open Table List

section

variable [Netipx]

namespace HeuristicIPMatcher

/-! ## The functions -/

/-- Does the matcher use the bucket with this key? -/
def heurKey (m : HeuristicIPMatcher) (key : Bytes) : Bool :=
  key.head? == some 4 && m.heur true || key.head? == some 6 && m.heur false

/-- The loop of `AnyMatch`, with the buckets that do not match. -/
def anyLoop (m : HeuristicIPMatcher) : List Bytes → List NetIP → Bool
  | _, [] => false
  | buckets, ip :: ips =>
    match prefixKeyFromIP ip with
    | none => m.anyLoop buckets ips
    | some key =>
      if m.heurKey key && key ∈ buckets then m.anyLoop buckets ips
      else
        match fromStdIP ip with
        | none => m.anyLoop buckets ips
        | some ipx =>
          if m.matchAddr ipx then true
          else m.anyLoop (if m.heurKey key then key :: buckets else buckets) ips

/-- `AnyMatch`. -/
def anyMatch (m : HeuristicIPMatcher) : List NetIP → Bool
  | [] => false
  | [ip] => m.matchIP ip
  | ips => if !m.heur true && !m.heur false then ips.any m.matchIP else m.anyLoop [] ips

/-- The loop of `Matches`: the representatives of the buckets and the addresses that are in
    none, or `none` for a slice that is no address. -/
def allLoop (m : HeuristicIPMatcher) :
    List (Bytes × Addr) × List Addr → List NetIP → Option (List (Bytes × Addr) × List Addr)
  | st, [] => some st
  | (buckets, precise), ip :: ips =>
    match prefixKeyFromIP ip with
    | none => none
    | some key =>
      if m.heurKey key && buckets.any (·.1 == key) then m.allLoop (buckets, precise) ips
      else
        match fromStdIP ip with
        | none => none
        | some ipx =>
          m.allLoop (if m.heurKey key then (buckets ++ [(key, ipx)], precise)
            else (buckets, precise ++ [ipx])) ips

/-- `Matches`. -/
def matchesAll (m : HeuristicIPMatcher) : List NetIP → Bool
  | [] => false
  | [ip] => m.matchIP ip
  | ips =>
    if !m.heur true && !m.heur false then ips.all m.matchIP
    else
      match m.allLoop ([], []) ips with
      | none => false
      | some (buckets, precise) => buckets.all (m.matchAddr ·.2) && precise.all m.matchAddr

/-- The loop of `FilterIPs` that puts a slice into its bucket, or with those that are in none. -/
def putIP (m : HeuristicIPMatcher) (st : Stock Bytes IpBucket × List NetIP) (ip : NetIP) :
    Stock Bytes IpBucket × List NetIP :=
  match prefixKeyFromIP ip with
  | none => st
  | some key =>
    if m.heurKey key then ((addBucket key ip st.1).getD st.1, st.2) else (st.1, st.2 ++ [ip])

/-- The loops of `FilterIPs` over the buckets and over the rest. -/
def sortOut (m : HeuristicIPMatcher) (buckets : List IpBucket) (precise : List NetIP) :
    List NetIP × List NetIP :=
  ((buckets.filter fun b => m.matchAddr b.rep).flatMap IpBucket.ips ++ precise.filter m.matchIP,
    (buckets.filter fun b => !m.matchAddr b.rep).flatMap IpBucket.ips ++
      precise.filter fun ip => valid ip && !m.matchIP ip)

/-- `FilterIPs`. -/
def filterIPs (m : HeuristicIPMatcher) (order : Ranging) (ips : List NetIP) :
    List NetIP × List NetIP :=
  if ips.length ≤ 1 || !m.heur true && !m.heur false then m.sortOut [] ips
  else
    let st := ips.foldl m.putIP (∅, [])
    m.sortOut ((order.visit 0 st.1.keys).filterMap fun key => (st.1.lookup key).join) st.2

end HeuristicIPMatcher

/-! ## One for all of a bucket -/

variable {m : HeuristicIPMatcher}

theorem HeuristicIPMatcher.heurKey_key (m : HeuristicIPMatcher) (a : Addr) :
    m.heurKey a.key = m.heur a.is4 := by
  rw [heurKey, a.head_key]
  cases a.is4 <;> simp

omit [Netipx] in
theorem Addr.is4_eq_of_key {a b : Addr} (h : a.key = b.key) : a.is4 = b.is4 := by
  have hhead := a.head_key.symm.trans (h ▸ b.head_key)
  revert hhead
  cases a.is4 <;> cases b.is4 <;> decide

theorem HeuristicIPMatcher.matchAddr_of_key (hmade : m.ipset.Made) {a b : Addr}
    (hheur : m.heurKey a.key = true) (hkey : b.key = a.key) : m.matchAddr b = m.matchAddr a :=
  matchAddr_congr hmade (m.heurKey_key a ▸ hheur) (Addr.is4_eq_of_key hkey) rfl hkey

theorem HeuristicIPMatcher.matchIP_of_none {ip : NetIP} (h : fromStdIP ip = none) :
    m.matchIP ip = false := by
  rw [matchIP, h]

theorem HeuristicIPMatcher.anyLoop_eq (hmade : m.ipset.Made) (ips : List NetIP)
    (buckets : List Bytes)
    (hbuckets : ∀ a : Addr, a.key ∈ buckets → m.matchAddr a = false) :
    m.anyLoop buckets ips = ips.any m.matchIP := by
  induction ips generalizing buckets with
  | nil => rfl
  | cons ip ips ih =>
    rw [anyLoop, prefixKeyFromIP_eq, any_cons]
    cases ha : fromStdIP ip with
    | none => rw [matchIP_of_none ha, Bool.false_or]; exact ih buckets hbuckets
    | some a =>
      rw [matchIP_of_some ha, Option.map_some]
      by_cases hskip : (m.heurKey a.key && decide (a.key ∈ buckets)) = true
      · simp only [hskip, if_true]
        rw [Bool.and_eq_true, decide_eq_true_eq] at hskip
        rw [hbuckets a hskip.2, Bool.false_or, ih buckets hbuckets]
      · simp only [hskip, if_false, Bool.false_eq_true]
        cases hmatch : m.matchAddr a with
        | true => rfl
        | false =>
          refine ih _ fun b hb => ?_
          split at hb
          · rename_i hheur
            rcases mem_cons.mp hb with hkey | hb
            · rw [matchAddr_of_key hmade hheur hkey, hmatch]
            · exact hbuckets b hb
          · exact hbuckets b hb

/-- What `Matches` finds of the two lists. -/
def HeuristicIPMatcher.allOf (m : HeuristicIPMatcher)
    (st : List (Bytes × Addr) × List Addr) : Bool :=
  st.1.all (m.matchAddr ·.2) && st.2.all m.matchAddr

theorem HeuristicIPMatcher.allLoop_eq (hmade : m.ipset.Made) (ips : List NetIP)
    (st : List (Bytes × Addr) × List Addr) (hst : ∀ x ∈ st.1, x.2.key = x.1) :
    (m.allLoop st ips).any m.allOf = (m.allOf st && ips.all m.matchIP) := by
  induction ips generalizing st with
  | nil => rw [allLoop, Option.any_some, all_nil, Bool.and_true]
  | cons ip ips ih =>
    obtain ⟨buckets, precise⟩ := st
    rw [allLoop, prefixKeyFromIP_eq, all_cons]
    cases ha : fromStdIP ip with
    | none => rw [matchIP_of_none ha, Bool.false_and, Bool.and_false]; rfl
    | some a =>
      rw [matchIP_of_some ha, Option.map_some]
      by_cases hskip : (m.heurKey a.key && buckets.any (·.1 == a.key)) = true
      · -- the representative is asked for this one too
        simp only [hskip, if_true]
        rw [Bool.and_eq_true, any_eq_true] at hskip
        obtain ⟨hheur, x, hx, hkey⟩ := hskip
        have hrep : m.matchAddr x.2 = m.matchAddr a :=
          matchAddr_of_key hmade hheur ((hst x hx).trans (eq_of_beq hkey))
        rw [ih _ hst]
        cases hmatch : m.matchAddr a with
        | true => rw [Bool.true_and]
        | false =>
          have hall : m.allOf (buckets, precise) = false := by
            rw [allOf, all_eq_false.mpr ⟨x, hx, by rw [hrep, hmatch]; exact Bool.noConfusion⟩,
              Bool.false_and]
          rw [hall, Bool.false_and, Bool.false_and]
      · simp only [hskip, if_false, Bool.false_eq_true]
        split
        · rw [ih _ (forall_mem_append.mpr ⟨hst, by simp⟩)]
          simp [allOf, Bool.and_assoc, Bool.and_comm, Bool.and_left_comm]
        · rw [ih (buckets, precise ++ [a]) hst]
          simp [allOf, Bool.and_assoc]

/-! ## Sorting -/

/-- All valid slices are in a bucket or with the rest. -/
theorem HeuristicIPMatcher.foldl_putIP (ips : List NetIP)
    (st : Stock Bytes IpBucket × List NetIP)
    (h : Bucketed (m.heurKey ·.key = true) st.1) :
    let r := ips.foldl m.putIP st
    Bucketed (m.heurKey ·.key = true) r.1 ∧ content IpBucket.ips r.1 + (r.2 : Multiset NetIP) =
      content IpBucket.ips st.1 + (st.2 : Multiset NetIP) + (ips.filter valid : List NetIP) := by
  induction ips generalizing st with
  | nil => exact ⟨h, (add_zero _).symm⟩
  | cons ip ips ih =>
    rw [foldl_cons]
    cases ha : fromStdIP ip with
    | none =>
      rw [putIP, prefixKeyFromIP_eq, ha, filter_cons_of_neg (by simp [valid, ha])]
      exact ih st h
    | some a =>
      rw [putIP, prefixKeyFromIP_eq, ha, filter_cons_of_pos (by simp [valid, ha]),
        ← Multiset.cons_coe, ← Multiset.singleton_add]
      by_cases hheur : m.heurKey a.key = true
      · simp only [Option.map_some, hheur, if_true, addBucket_eq ha, Option.getD_some]
        obtain ⟨halike, hsum⟩ := ih (putBucket st.1 (ip, a), st.2) (h.put ha hheur)
        refine ⟨halike, hsum.trans ?_⟩
        rw [content_putBucket]
        abel
      · simp only [Option.map_some, hheur, if_false, Bool.false_eq_true]
        obtain ⟨halike, hsum⟩ := ih (st.1, st.2 ++ [ip]) h
        refine ⟨halike, hsum.trans ?_⟩
        rw [← Multiset.coe_add, Multiset.coe_singleton]
        abel

/-- A bucket goes where its slices go. -/
theorem HeuristicIPMatcher.filter_flatMap {buckets : List IpBucket} (p : Bool → Bool)
    (h : ∀ b ∈ buckets, ∀ ip ∈ b.ips, m.matchIP ip = m.matchAddr b.rep) :
    (buckets.filter fun b => p (m.matchAddr b.rep)).flatMap IpBucket.ips =
      (buckets.flatMap IpBucket.ips).filter fun ip => p (m.matchIP ip) := by
  induction buckets with
  | nil => rfl
  | cons b buckets ih =>
    rw [forall_mem_cons] at h
    have hb : b.ips.filter (fun ip => p (m.matchIP ip)) =
        if p (m.matchAddr b.rep) then b.ips else [] := by
      split
      · rename_i hp
        exact filter_eq_self.mpr fun ip hip => by rw [h.1 ip hip, hp]
      · rename_i hp
        exact filter_eq_nil_iff.mpr fun ip hip => by rwa [h.1 ip hip]
    rw [flatMap_cons, filter_append, hb, ← ih h.2, filter_cons]
    split <;> rfl

theorem HeuristicIPMatcher.valid_of_matchIP {ip : NetIP} (h : m.matchIP ip = true) :
    valid ip = true := by
  cases ha : fromStdIP ip with
  | none => rw [matchIP_of_none ha] at h; nomatch h
  | some a => rw [valid, ha, Option.isSome_some]

/-- The buckets and the rest, sorted out, are all valid slices, sorted out. -/
theorem HeuristicIPMatcher.sortOut_perm (hmade : m.ipset.Made) (order : Ranging)
    {t : Stock Bytes IpBucket} {precise ips : List NetIP}
    (halike : Bucketed (m.heurKey ·.key = true) t)
    (hsum : content IpBucket.ips t + (precise : Multiset NetIP) = (ips.filter valid : List NetIP)) :
    let r := m.sortOut ((order.visit 0 t.keys).filterMap fun key => (t.lookup key).join) precise
    r.1.Perm (ips.filter m.matchIP) ∧
      r.2.Perm (ips.filter fun ip => valid ip && !m.matchIP ip) := by
  set bs := (order.visit 0 t.keys).filterMap fun key => (t.lookup key).join with hbs
  have hcollect : bs.flatMap IpBucket.ips = collect IpBucket.ips t (order.visit 0 t.keys) := by
    rw [hbs, filterMap_eq_flatMap_toList, flatMap_assoc, collect]
    refine flatMap_congr fun k _ => ?_
    rcases t.lookup k with _ | _ | b
    · rfl
    · rfl
    · exact append_nil _
  have hall : (bs.flatMap IpBucket.ips ++ precise).Perm (ips.filter valid) := by
    rw [← Multiset.coe_eq_coe, ← hsum, ← Multiset.coe_add, hcollect,
      coe_collect _ _ (order.perm 0 t.keys)]
  have hrep : ∀ b ∈ bs, ∀ ip ∈ b.ips, valid ip = true ∧ m.matchIP ip = m.matchAddr b.rep := by
    intro b hb ip hip
    obtain ⟨k, -, hk⟩ := mem_filterMap.mp hb
    obtain ⟨hkey, hheur, hips⟩ := halike k b (Option.join_eq_some_iff.mp hk)
    obtain ⟨a, ha, hak, -⟩ := hips ip hip
    rw [matchIP_of_some ha, valid, ha]
    exact ⟨rfl, matchAddr_of_key hmade hheur (hak.trans hkey.symm)⟩
  have hsame := fun b hb ip hip => (hrep b hb ip hip).2
  constructor
  · rw [sortOut, filter_flatMap (fun x => x) hsame, ← filter_append]
    refine (hall.filter _).trans (List.Perm.of_eq ?_)
    rw [filter_filter]
    exact filter_congr fun ip _ => by
      cases hm : m.matchIP ip with
      | true => rw [valid_of_matchIP hm, Bool.and_true]
      | false => rw [Bool.false_and]
  · have hvalid : (bs.flatMap IpBucket.ips).filter (fun ip => !m.matchIP ip) =
        (bs.flatMap IpBucket.ips).filter fun ip => valid ip && !m.matchIP ip := by
      refine filter_congr fun ip hip => ?_
      obtain ⟨b, hb, hip⟩ := mem_flatMap.mp hip
      rw [(hrep b hb ip hip).1, Bool.true_and]
    rw [sortOut, filter_flatMap (fun x => !x) hsame, hvalid, ← filter_append]
    refine (hall.filter _).trans (List.Perm.of_eq ?_)
    rw [filter_filter]
    exact filter_congr fun ip _ => by cases valid ip <;> simp

/-- All functions over lists of addresses do what the one for an address says. -/
theorem bulk_agrees (m : HeuristicIPMatcher) (hmade : m.ipset.Made) (order : Ranging)
    (ips : List NetIP) :
    (m.anyMatch ips = true ↔ ∃ ip ∈ ips, m.matchIP ip = true) ∧
      (m.matchesAll ips = true ↔ ips ≠ [] ∧ ∀ ip ∈ ips, m.matchIP ip = true) ∧
      (m.filterIPs order ips).1.Perm (ips.filter m.matchIP) ∧
      (m.filterIPs order ips).2.Perm (ips.filter fun ip => valid ip && !m.matchIP ip) := by
  refine ⟨?_, ?_, ?_⟩
  · rw [← any_eq_true]
    match ips with
    | [] => exact Iff.rfl
    | [ip] => simp [HeuristicIPMatcher.anyMatch]
    | ip :: ip' :: ips =>
      rw [HeuristicIPMatcher.anyMatch.eq_3 _ _ (by simp) (by simp),
        HeuristicIPMatcher.anyLoop_eq hmade _ [] (by simp), ite_self]
  · rw [← all_eq_true]
    match ips with
    | [] => simp [HeuristicIPMatcher.matchesAll]
    | [ip] => simp [HeuristicIPMatcher.matchesAll]
    | ip :: ip' :: ips =>
      have hloop := HeuristicIPMatcher.allLoop_eq hmade (ip :: ip' :: ips) ([], []) (by simp)
      rw [HeuristicIPMatcher.matchesAll.eq_3 _ _ (by simp) (by simp)]
      split
      · simp
      · cases hres : m.allLoop ([], []) (ip :: ip' :: ips) <;> rw [hres] at hloop <;>
          simp_all [HeuristicIPMatcher.allOf]
  · unfold HeuristicIPMatcher.filterIPs
    split
    · exact ⟨List.Perm.refl _, List.Perm.refl _⟩
    · obtain ⟨halike, hsum⟩ := HeuristicIPMatcher.foldl_putIP (m := m) ips (∅, [])
        fun k b h => by simp at h
      rw [content_empty, Multiset.coe_nil, zero_add, zero_add] at hsum
      exact HeuristicIPMatcher.sortOut_perm hmade order halike hsum

end

attribute [local instance] Netipx.plain

/-- A set of one short prefix: two addresses of a bucket, in both forms. -/
theorem bulk_agrees_short : ∃ s, createFrom (.ok [⟨[10, 0, 0, 0], 8⟩]) = .ok s ∧
    (⟨s, false⟩ : HeuristicIPMatcher).matchesAll
      [[10, 1, 2, 3], v4InV6 ++ [10, 1, 2, 4]] = true := by
  obtain ⟨s, hs, hall⟩ : ∃ s, createFrom (.ok [⟨[10, 0, 0, 0], 8⟩]) = .ok s ∧
      ∀ ip ∈ [[10, 1, 2, 3], v4InV6 ++ [10, 1, 2, 4]],
        (⟨s, false⟩ : HeuristicIPMatcher).matchIP ip = true :=
    ⟨_, rfl, by decide⟩
  exact ⟨s, hs, (bulk_agrees _ ⟨_, hs⟩ .inOrder _).2.1.mpr ⟨nofun, hall⟩⟩

end XrayCore.Geodata
