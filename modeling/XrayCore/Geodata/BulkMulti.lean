/-
  XrayCore.Geodata.BulkMulti

  Whether one of several matchers matches some or all of a list of addresses
  (`common/geodata/ip_matcher.go`).

  `AnyMatch` marks the bucket of every address that was looked up, and a matcher skips an
  address in a marked bucket if it uses the buckets of that family: it was asked for the
  address that marked it.  `Matches` builds the lists that a matcher needs when the first
  one needs them.
-/

import XrayCore.Bytes.Slice
import XrayCore.Geodata.BulkMatch

namespace XrayCore.Geodata

open Bytes List Function HeuristicIPMatcher

section

variable [Netipx]

/-! ## Some address -/

/-- `HeuristicMultiIPMatcher.Match`. -/
def multiMatch (ms : List HeuristicIPMatcher) (ip : NetIP) : Bool :=
  match fromStdIP ip with
  | none => false
  | some ipx => ms.any (·.matchAddr ipx)

/-- The state of an address and the marks, after a matcher of which it may be the first to
    use buckets; `none` if the slice is no address. -/
def markBucket (m : HeuristicIPMatcher) (ip : NetIP) (state : UInt8)
    (buckets : List Bytes) : Option (UInt8 × List Bytes) :=
  if state = 0 && (m.heur true || m.heur false) then
    (prefixKeyFromIP ip).map fun key =>
      if key ∈ buckets then (key.headD 0, buckets) else (1, key :: buckets)
  else some (state, buckets)

/-- May the matcher skip an address in this state? -/
def skips (m : HeuristicIPMatcher) (state : UInt8) : Bool :=
  m.heur true && state = 4 || m.heur false && state = 6

/-- The loop of `AnyMatch` over the matchers, for one address. -/
def anyMatcher (ip : NetIP) : UInt8 → List Bytes → List HeuristicIPMatcher →
    Bool × List Bytes
  | _, buckets, [] => (false, buckets)
  | state, buckets, m :: ms =>
    match markBucket m ip state buckets with
    | none => (false, buckets)
    | some (state, buckets) =>
      if skips m state then anyMatcher ip state buckets ms
      else
        match fromStdIP ip with
        | none => (false, buckets)
        | some ipx => if m.matchAddr ipx then (true, buckets) else anyMatcher ip state buckets ms

/-- The loop of `AnyMatch` over the addresses. -/
def anyAddress (ms : List HeuristicIPMatcher) : List Bytes → List NetIP → Bool
  | _, [] => false
  | buckets, ip :: ips =>
    let r := anyMatcher ip 0 buckets ms
    if r.1 then true else anyAddress ms r.2 ips

/-- `HeuristicMultiIPMatcher.AnyMatch`. -/
def multiAnyMatch (ms : List HeuristicIPMatcher) : List NetIP → Bool
  | [] => false
  | [ip] => multiMatch ms ip
  | ips => anyAddress ms [] ips

/-! ## All addresses -/

/-- What `ipViews` has of one family. -/
structure FamilyView where
  buckets : Option (List (Bytes × Addr))
  precise : Option (List Addr)

/-- `ipViews`: that of IPv4 under `true`. -/
abbrev IpViews := Bool → FamilyView

/-- An address goes into the lists that are being built, as `need` says. -/
def FamilyView.add (need : Bool × Bool) (key : Bytes) (ip : NetIP) (v : FamilyView) :
    Option FamilyView := do
  let buckets ← match need.1, v.buckets with
    | true, some bs =>
      if bs.any (·.1 == key) then some (some bs)
      else (fromStdIP ip).map fun ipx => some (bs ++ [(key, ipx)])
    | _, bs => some bs
  let precise ← match need.2, v.precise with
    | true, some ps => (fromStdIP ip).map fun ipx => some (ps ++ [ipx])
    | _, ps => some ps
  return { buckets, precise }

/-- The loop of `ensureForMatcher` over the addresses; `none` is false. -/
def IpViews.add (need : Bool → Bool × Bool) (v : IpViews) (ip : NetIP) : Option IpViews :=
  match prefixKeyFromIP ip with
  | none => none
  | some key =>
    match key.head? with
    | some 4 => ((v true).add (need true) key ip).map (update v true)
    | some 6 => ((v false).add (need false) key ip).map (update v false)
    | _ => none

/-- The lists of a family that a matcher needs and that are not there yet. -/
def needed (m : HeuristicIPMatcher) (v : IpViews) (f : Bool) : Bool × Bool :=
  (m.heur f && (v f).buckets.isNone, !m.heur f && (v f).precise.isNone)

/-- `ensureForMatcher`. -/
def IpViews.ensureForMatcher (v : IpViews) (m : HeuristicIPMatcher) (ips : List NetIP) :
    Option IpViews :=
  let need := needed m v
  if !(need true).1 && !(need false).1 && !(need true).2 && !(need false).2 then some v
  else
    ips.foldlM (IpViews.add need) fun f =>
      { buckets := if (need f).1 then some [] else (v f).buckets
        precise := if (need f).2 then some [] else (v f).precise }

/-- Does the matcher match all that it looks up of a family?  A list that is nil is empty. -/
def FamilyView.allMatch (m : HeuristicIPMatcher) (heur : Bool) (v : FamilyView) : Bool :=
  if heur then (v.buckets.getD []).all (m.matchAddr ·.2) else (v.precise.getD []).all m.matchAddr

/-- The loop of `Matches` over the matchers. -/
def matchesLoop (ips : List NetIP) : IpViews → List HeuristicIPMatcher → Bool
  | _, [] => false
  | v, m :: ms =>
    match v.ensureForMatcher m ips with
    | none => false
    | some v =>
      if (v true).allMatch m (m.heur true) && (v false).allMatch m (m.heur false) then true
      else matchesLoop ips v ms

/-- `HeuristicMultiIPMatcher.Matches`. -/
def multiMatches (ms : List HeuristicIPMatcher) : List NetIP → Bool
  | [] => false
  | [ip] => multiMatch ms ip
  | ips => matchesLoop ips (fun _ => ⟨none, none⟩) ms

/-! ## What `AnyMatch` finds -/

variable {ms : List HeuristicIPMatcher} {ip : NetIP} {a : Addr}

theorem multiMatch_eq (ms : List HeuristicIPMatcher) (ip : NetIP) :
    multiMatch ms ip = ms.any (·.matchIP ip) := by
  unfold multiMatch matchIP
  cases fromStdIP ip with
  | none => simp
  | some a => rfl

theorem anyMatcher_of_none (h : fromStdIP ip = none) (buckets : List Bytes) :
    anyMatcher ip 0 buckets ms = (false, buckets) := by
  cases ms with
  | nil => rfl
  | cons m ms =>
    rw [anyMatcher, markBucket, prefixKeyFromIP_eq, h]
    by_cases hheur : (m.heur true || m.heur false) = true
    · simp [hheur]
    · simp [hheur, skips]

theorem markBucket_of_state (m : HeuristicIPMatcher) (ip : NetIP) {state : UInt8}
    (hstate : state ≠ 0) (buckets : List Bytes) :
    markBucket m ip state buckets = some (state, buckets) := by
  simp [markBucket, hstate]

/-- Once the state is set it stays, and only what does not match is skipped. -/
theorem anyMatcher_of_state (ha : fromStdIP ip = some a) {state : UInt8} (hstate : state ≠ 0)
    (buckets : List Bytes)
    (hskip : ∀ m ∈ ms, skips m state = true → m.matchAddr a = false) :
    anyMatcher ip state buckets ms = (ms.any (·.matchAddr a), buckets) := by
  induction ms with
  | nil => rfl
  | cons m ms ih =>
    rw [forall_mem_cons] at hskip
    simp only [anyMatcher, markBucket_of_state m ip hstate, any_cons, ha, ih hskip.2]
    by_cases hs : skips m state = true
    · rw [if_pos hs, hskip.1 hs, Bool.false_or]
    · rw [if_neg hs]
      cases m.matchAddr a <;> rfl

variable {m : HeuristicIPMatcher}

theorem skips_head (h : skips m (a.key.headD 0) = true) : m.heurKey a.key = true := by
  rw [m.heurKey_key]
  rw [headD_eq_head?_getD, a.head_key] at h
  revert h
  cases a.is4 <;> simp [skips]

/-- The loop over the matchers tells whether one of them matches, and may mark the bucket. -/
theorem anyMatcher_eq (ha : fromStdIP ip = some a) (buckets : List Bytes)
    (hmarked : a.key ∈ buckets → ∀ m ∈ ms, m.heurKey a.key = true → m.matchAddr a = false) :
    (anyMatcher ip 0 buckets ms).1 = ms.any (·.matchAddr a) ∧
      ∀ key ∈ (anyMatcher ip 0 buckets ms).2, key ∈ buckets ∨ key = a.key := by
  induction ms with
  | nil => exact ⟨rfl, fun _ h => .inl h⟩
  | cons m ms ih =>
    by_cases hheur : (m.heur true || m.heur false) = true
    · -- from here on the state is set
      have hset : ∃ state buckets', state ≠ 0 ∧
          markBucket m ip 0 buckets = some (state, buckets') ∧
          (∀ key ∈ buckets', key ∈ buckets ∨ key = a.key) ∧
          ∀ m' ∈ m :: ms, skips m' state = true → m'.matchAddr a = false := by
        simp only [markBucket, hheur, prefixKeyFromIP_eq, ha, Option.map_some, decide_true,
          Bool.and_self, if_true]
        by_cases hin : a.key ∈ buckets
        · have hstate : a.key.headD 0 ≠ 0 := by
            rw [headD_eq_head?_getD, a.head_key]
            cases a.is4 <;> decide
          exact ⟨_, buckets, hstate, by rw [if_pos hin], fun _ h => .inl h,
            fun m' hm' hs => hmarked hin m' hm' (skips_head hs)⟩
        · exact ⟨1, a.key :: buckets, by decide, by rw [if_neg hin],
            fun key hkey => (mem_cons.mp hkey).symm, fun _ _ hs => by simp [skips] at hs⟩
      obtain ⟨state, buckets', hstate, hmark, hmarks, hskip⟩ := hset
      have heq : anyMatcher ip 0 buckets (m :: ms) = anyMatcher ip state buckets' (m :: ms) := by
        rw [anyMatcher, anyMatcher, hmark, markBucket_of_state m ip hstate]
      rw [heq, anyMatcher_of_state ha hstate buckets' hskip]
      exact ⟨rfl, hmarks⟩
    · rw [any_cons, anyMatcher]
      have hmark : markBucket m ip 0 buckets = some (0, buckets) := by
        simp [markBucket, hheur]
      have hno : skips m 0 = false := by simp [skips]
      simp only [hmark, hno, ha, if_false, Bool.false_eq_true]
      cases hm : m.matchAddr a with
      | true => exact ⟨rfl, fun _ h => .inl h⟩
      | false => exact ih fun hin m' hm' => hmarked hin m' (mem_cons_of_mem _ hm')

theorem anyAddress_eq (hmade : ∀ m ∈ ms, m.ipset.Made) (ips : List NetIP)
    (buckets : List Bytes) (hmarked : ∀ a : Addr, a.key ∈ buckets →
      ∀ m ∈ ms, m.heurKey a.key = true → m.matchAddr a = false) :
    anyAddress ms buckets ips = ips.any fun ip => ms.any (·.matchIP ip) := by
  induction ips generalizing buckets with
  | nil => rfl
  | cons ip ips ih =>
    rw [any_cons, ← multiMatch_eq, anyAddress, multiMatch]
    cases ha : fromStdIP ip with
    | none => simp only [anyMatcher_of_none ha, ih buckets hmarked, Bool.false_or, if_false,
        Bool.false_eq_true]
    | some a =>
      obtain ⟨hone, hmarks⟩ := anyMatcher_eq ha buckets (hmarked a)
      simp only [hone]
      cases hany : ms.any (·.matchAddr a) with
      | true => rfl
      | false =>
        refine ih _ fun b hb m hm hheur => ?_
        rcases hmarks b.key hb with hold | hkey
        · exact hmarked b hold m hm hheur
        · rw [matchAddr_of_key (hmade m hm) (hkey ▸ hheur) hkey]
          simpa using any_eq_false.mp hany m hm

/-! ## What the lists are built with -/

/-- The first address of a bucket is its representative. -/
def putRep (bs : List (Bytes × Addr)) (a : Addr) : List (Bytes × Addr) :=
  if bs.any (·.1 == a.key) then bs else bs ++ [(a.key, a)]

/-- The addresses of a family. -/
def addrsOf (f : Bool) (ips : List NetIP) : List Addr := (family f ips).map Prod.snd

/-- The representatives of the buckets of a family. -/
def repsOf (f : Bool) (ips : List NetIP) : List (Bytes × Addr) :=
  (addrsOf f ips).foldl putRep []

def FamilyView.addAddr (need : Bool × Bool) (v : FamilyView) (a : Addr) : FamilyView :=
  { buckets := if need.1 then v.buckets.map (putRep · a) else v.buckets
    precise := if need.2 then v.precise.map (· ++ [a]) else v.precise }

theorem FamilyView.add_eq (ha : fromStdIP ip = some a) (need : Bool × Bool) (v : FamilyView) :
    v.add need a.key ip = some (v.addAddr need a) := by
  obtain ⟨needHeur, needPrec⟩ := need
  obtain ⟨_ | bs, precise⟩ := v
  · cases needHeur <;> cases needPrec <;> cases precise <;>
      simp [FamilyView.add, FamilyView.addAddr, ha]
  · by_cases hany : (bs.any fun x => x.1 == a.key) = true <;> cases needHeur <;> cases needPrec <;>
      cases precise <;> simp [FamilyView.add, FamilyView.addAddr, putRep, ha, hany]

omit [Netipx] in
theorem FamilyView.foldl_addAddr (need : Bool × Bool) (as : List Addr) (v : FamilyView) :
    as.foldl (FamilyView.addAddr need) v =
      { buckets := if need.1 then v.buckets.map (as.foldl putRep ·) else v.buckets
        precise := if need.2 then v.precise.map (· ++ as) else v.precise } := by
  induction as generalizing v with
  | nil => simp
  | cons a as ih =>
    rw [foldl_cons, ih, FamilyView.addAddr]
    cases need.1 <;> cases need.2 <;> simp [comp_def]

theorem IpViews.add_eq (ha : fromStdIP ip = some a) (need : Bool → Bool × Bool) (v : IpViews) :
    IpViews.add need v ip = some (update v a.is4 ((v a.is4).addAddr (need a.is4) a)) := by
  rw [IpViews.add, prefixKeyFromIP_eq, ha, Option.map_some]
  simp only [a.head_key]
  cases a.is4 <;> simp [FamilyView.add_eq ha]

theorem addrsOf_cons (ha : fromStdIP ip = some a) (f : Bool) (ips : List NetIP) :
    addrsOf f (ip :: ips) = if a.is4 = f then a :: addrsOf f ips else addrsOf f ips := by
  by_cases hf : a.is4 = f <;> simp [addrsOf, family, ha, hf]

/-- The loop over the addresses fills the lists, unless one is no address. -/
theorem IpViews.foldlM_add (need : Bool → Bool × Bool) (ips : List NetIP) (v : IpViews) :
    ips.foldlM (IpViews.add need) v = if ips.all valid then
      some fun f => (addrsOf f ips).foldl (FamilyView.addAddr (need f)) (v f) else none := by
  induction ips generalizing v with
  | nil => rfl
  | cons ip ips ih =>
    rw [foldlM_cons, all_cons, valid]
    cases ha : fromStdIP ip with
    | none => rw [IpViews.add, prefixKeyFromIP_eq, ha]; rfl
    | some a =>
      rw [IpViews.add_eq ha, Option.bind_eq_bind, Option.bind_some, ih, Option.isSome_some,
        Bool.true_and]
      congr 2
      funext f
      rw [addrsOf_cons ha]
      by_cases hf : a.is4 = f
      · subst hf
        rw [update_self, if_pos rfl, foldl_cons]
      · rw [update_of_ne (Ne.symm hf), if_neg hf]

/-- The lists that are there are those of all addresses. -/
def Filled (ips : List NetIP) (v : IpViews) : Prop :=
  ∀ f, (∀ bs, (v f).buckets = some bs → bs = repsOf f ips) ∧
    ∀ ps, (v f).precise = some ps → ps = addrsOf f ips

variable {ips : List NetIP}

/-- The lists that a matcher needs are there when it looks. -/
theorem IpViews.ensureForMatcher_eq (hvalid : ips.all valid = true) {v : IpViews} (h : Filled ips v)
    (m : HeuristicIPMatcher) :
    ∃ v', v.ensureForMatcher m ips = some v' ∧ Filled ips v' ∧
      ∀ f, (v' f).allMatch m (m.heur f) =
        if m.heur f then (repsOf f ips).all (m.matchAddr ·.2)
        else (addrsOf f ips).all m.matchAddr := by
  have hensured : v.ensureForMatcher m ips = some fun f =>
      { buckets := if (needed m v f).1 then some (repsOf f ips) else (v f).buckets
        precise := if (needed m v f).2 then some (addrsOf f ips) else (v f).precise } := by
    rw [IpViews.ensureForMatcher]
    split
    · rename_i hno
      simp only [Bool.and_eq_true, Bool.not_eq_true'] at hno
      congr 1
      funext f
      cases f <;> simp [hno]
    · rw [IpViews.foldlM_add, if_pos hvalid]
      congr 1
      funext f
      rw [FamilyView.foldl_addAddr]
      cases (needed m v f).1 <;> cases (needed m v f).2 <;> simp [repsOf]
  refine ⟨_, hensured, fun f => ⟨fun bs hbs => ?_, fun ps hps => ?_⟩, fun f => ?_⟩
  · dsimp only at hbs
    split at hbs
    · exact (Option.some.inj hbs).symm
    · exact (h f).1 bs hbs
  · dsimp only at hps
    split at hps
    · exact (Option.some.inj hps).symm
    · exact (h f).2 ps hps
  · simp only [FamilyView.allMatch, needed]
    by_cases hheur : m.heur f = true
    · rcases Option.eq_none_or_eq_some (v f).buckets with hb | ⟨bs, hb⟩
      · simp [hheur, hb]
      · simp [hheur, hb, (h f).1 bs hb]
    · rcases Option.eq_none_or_eq_some (v f).precise with hp | ⟨ps, hp⟩
      · simp [hheur, hp]
      · simp [hheur, hp, (h f).2 ps hp]

/-! ## What `Matches` finds -/

omit [Netipx] in
/-- Every address has a representative, which is one of the addresses. -/
theorem foldl_putRep (as : List Addr) (bs : List (Bytes × Addr)) :
    (∀ x ∈ as.foldl putRep bs, x ∈ bs ∨ x.2 ∈ as ∧ x.1 = x.2.key) ∧
      (∀ x ∈ bs, x ∈ as.foldl putRep bs) ∧ ∀ a ∈ as, ∃ x ∈ as.foldl putRep bs, x.1 = a.key := by
  induction as generalizing bs with
  | nil => exact ⟨fun _ h => .inl h, fun _ h => h, nofun⟩
  | cons a as ih =>
    obtain ⟨h1, h2, h3⟩ := ih (putRep bs a)
    have hput : ∀ x ∈ putRep bs a, x ∈ bs ∨ x = (a.key, a) := by
      unfold putRep
      split <;> simp +contextual
    have hkeep : ∀ x ∈ bs, x ∈ putRep bs a := by
      unfold putRep
      split <;> simp +contextual
    have hnew : ∃ x ∈ putRep bs a, x.1 = a.key := by
      unfold putRep
      split
      · rename_i hany
        simpa using hany
      · exact ⟨(a.key, a), by simp⟩
    rw [foldl_cons]
    refine ⟨fun x hx => ?_, fun x hx => h2 x (hkeep x hx), forall_mem_cons.mpr ⟨?_, h3⟩⟩
    · rcases h1 x hx with hx | hx
      · rcases hput x hx with hx | rfl
        · exact .inl hx
        · exact .inr ⟨mem_cons_self, rfl⟩
      · exact .inr ⟨mem_cons_of_mem _ hx.1, hx.2⟩
    · exact hnew.imp fun x hx => ⟨h2 x hx.1, hx.2⟩

theorem all_repsOf (hmade : m.ipset.Made) {f : Bool} (hheur : m.heur f = true) (ips : List NetIP) :
    (repsOf f ips).all (m.matchAddr ·.2) = (addrsOf f ips).all m.matchAddr := by
  have hf : ∀ a ∈ addrsOf f ips, a.is4 = f := by
    intro a ha
    obtain ⟨x, hx, rfl⟩ := mem_map.mp ha
    exact (mem_family_iff.mp hx).2.2
  obtain ⟨hrep, -, hall⟩ := foldl_putRep (addrsOf f ips) []
  rw [Bool.eq_iff_iff, all_eq_true, all_eq_true]
  refine ⟨fun h a ha => ?_, fun h x hx => ?_⟩
  · obtain ⟨x, hx, hkey⟩ := hall a ha
    obtain ⟨hin, hx1⟩ := (hrep x hx).resolve_left nofun
    rw [← matchAddr_congr hmade hheur (hf x.2 hin) (hf a ha) (hx1 ▸ hkey)]
    exact h x hx
  · exact h x.2 ((hrep x hx).resolve_left nofun).1

theorem all_matchIP_eq (hvalid : ips.all valid = true) :
    ips.all m.matchIP =
      ((addrsOf true ips).all m.matchAddr && (addrsOf false ips).all m.matchAddr) := by
  induction ips with
  | nil => rfl
  | cons ip ips ih =>
    rw [all_cons, Bool.and_eq_true] at hvalid
    obtain ⟨a, ha⟩ := Option.isSome_iff_exists.mp hvalid.1
    rw [all_cons, ih hvalid.2, matchIP_of_some ha, addrsOf_cons ha,
      addrsOf_cons ha]
    cases a.is4 <;> simp [Bool.and_left_comm, Bool.and_assoc]

theorem matchesLoop_eq (hvalid : ips.all valid = true) (ms : List HeuristicIPMatcher)
    (hmade : ∀ m ∈ ms, m.ipset.Made) {v : IpViews} (h : Filled ips v) :
    matchesLoop ips v ms = ms.any fun m => ips.all m.matchIP := by
  induction ms generalizing v with
  | nil => rfl
  | cons m ms ih =>
    rw [forall_mem_cons] at hmade
    obtain ⟨v', hv', hviewed, hmatch⟩ := IpViews.ensureForMatcher_eq hvalid h m
    have hall : ∀ f, (v' f).allMatch m (m.heur f) = (addrsOf f ips).all m.matchAddr := by
      intro f
      rw [hmatch f]
      split
      · rename_i hheur
        exact all_repsOf hmade.1 hheur ips
      · rfl
    simp only [matchesLoop, hv', hall, ← all_matchIP_eq hvalid, ih hmade.2 hviewed, any_cons]
    cases ips.all m.matchIP <;> rfl

/-- A slice that is no address makes the first matcher give up. -/
theorem matchesLoop_of_invalid (hvalid : ips.all valid = false)
    (ms : List HeuristicIPMatcher) : matchesLoop ips (fun _ => ⟨none, none⟩) ms = false := by
  cases ms with
  | nil => rfl
  | cons m ms =>
    have hnone : IpViews.ensureForMatcher (fun _ => ⟨none, none⟩) m ips = none := by
      rw [IpViews.ensureForMatcher, IpViews.foldlM_add, hvalid]
      cases hheur : m.heur true <;> simp [needed, hheur]
    rw [matchesLoop, hnone]

/-- Several matchers over a list of addresses do what each says of each address. -/
theorem bulkMulti_agrees (ms : List HeuristicIPMatcher) (hmade : ∀ m ∈ ms, m.ipset.Made)
    (ips : List NetIP) :
    (multiAnyMatch ms ips = true ↔ ∃ m ∈ ms, ∃ ip ∈ ips, m.matchIP ip = true) ∧
      (multiMatches ms ips = true ↔ ips ≠ [] ∧ (∀ ip ∈ ips, valid ip = true) ∧
        ∃ m ∈ ms, ∀ ip ∈ ips, m.matchIP ip = true) := by
  constructor
  · have hany : multiAnyMatch ms ips = ips.any fun ip => ms.any (·.matchIP ip) := by
      match ips with
      | [] => rfl
      | [ip] => simp [multiAnyMatch, multiMatch_eq]
      | ip :: ip' :: ips => exact anyAddress_eq hmade _ [] (by simp)
    rw [hany, any_eq_true]
    simp only [any_eq_true]
    exact ⟨fun ⟨ip, hip, m, hm, h⟩ => ⟨m, hm, ip, hip, h⟩,
      fun ⟨m, hm, ip, hip, h⟩ => ⟨ip, hip, m, hm, h⟩⟩
  · match ips with
    | [] => simp [multiMatches]
    | [ip] =>
      simp only [multiMatches, multiMatch_eq, any_eq_true, forall_mem_singleton]
      exact ⟨fun ⟨m, hm, h⟩ => ⟨by simp, valid_of_matchIP h, m, hm, h⟩, fun h => h.2.2⟩
    | ip :: ip' :: ips =>
      rw [multiMatches.eq_3 _ _ (by simp) (by simp), ← all_eq_true]
      cases hvalid : (ip :: ip' :: ips).all valid with
      | false => rw [matchesLoop_of_invalid hvalid]; simp
      | true =>
        have hstart : Filled (ip :: ip' :: ips) fun _ => ⟨none, none⟩ :=
          fun _ => ⟨fun _ h => (nomatch h), fun _ h => (nomatch h)⟩
        rw [matchesLoop_eq hvalid ms hmade hstart, any_eq_true]
        simp only [all_eq_true, ne_eq, reduceCtorEq, not_false_eq_true, true_and]

end

attribute [local instance] Netipx.plain

/-- A range that fits the buckets reversed, and the range itself: two addresses of a bucket. -/
theorem bulkMulti_agrees_two : ∃ s, createFrom (.ok [⟨[10, 0, 0, 0], 8⟩]) = .ok s ∧
    multiMatches [⟨s, true⟩, ⟨s, false⟩] [[10, 1, 2, 3], v4InV6 ++ [10, 1, 2, 4]] = true := by
  obtain ⟨s, hs, hall⟩ : ∃ s, createFrom (.ok [⟨[10, 0, 0, 0], 8⟩]) = .ok s ∧
      ∀ ip ∈ [[10, 1, 2, 3], v4InV6 ++ [10, 1, 2, 4]],
        (⟨s, false⟩ : HeuristicIPMatcher).matchIP ip = true :=
    ⟨_, rfl, by decide⟩
  have hmade : ∀ m ∈ [(⟨s, true⟩ : HeuristicIPMatcher), ⟨s, false⟩], m.ipset.Made :=
    forall_mem_cons.mpr ⟨⟨_, hs⟩, forall_mem_singleton.mpr ⟨_, hs⟩⟩
  exact ⟨s, hs, (bulkMulti_agrees _ hmade _).2.mpr ⟨nofun, by decide, _, by simp, hall⟩⟩

end XrayCore.Geodata
