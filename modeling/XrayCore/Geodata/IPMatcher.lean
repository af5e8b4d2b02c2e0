/-
  XrayCore.Geodata.IPMatcher

  Matchers of addresses, and how the one made of several sorts a list of addresses.

  `FilterIPs` of several matchers looks the addresses up in views that the matchers
  share: buckets of a common /24 or /64, of which one representative is looked up, and a
  table by address for the matchers with longer prefixes.  A view is built when the
  first matcher needs it, and what was matched is taken out of it.

  Go visits the keys of a map in an order of its own in every loop: `Ranging` is any such
  choice.
-/

import XrayCore.Geodata.IPSet
import XrayCore.Table.Sift

namespace XrayCore.Geodata

open Table

variable [Netipx]

/-! ## One matcher -/

/-- `HeuristicIPMatcher`. -/
structure HeuristicIPMatcher where
  ipset : IPSet
  reverse : Bool

namespace HeuristicIPMatcher

/-- `matchAddr`. -/
def matchAddr (m : HeuristicIPMatcher) (ipx : Addr) : Bool :=
  if ipx.is4 then
    if m.ipset.max4 = 0xff then false else Netipx.contains m.ipset.ipv4 ipx != m.reverse
  else
    if m.ipset.max6 = 0xff then false else Netipx.contains m.ipset.ipv6 ipx != m.reverse

/-- `Match`. -/
def matchIP (m : HeuristicIPMatcher) (ip : NetIP) : Bool :=
  match fromStdIP ip with
  | none => false
  | some ipx => m.matchAddr ipx

/-- Are the prefixes of a family (IPv4 for `true`) short enough for the buckets? -/
def heur (m : HeuristicIPMatcher) : Bool → Bool
  | true => m.ipset.max4 ≤ 24
  | false => m.ipset.max6 ≤ 64

end HeuristicIPMatcher

/-! ## Building the matchers -/

/-- `GeoIPRule`: a file, and a code in it. -/
structure GeoIPRule where
  file : String
  code : String

/-- `IPRule`: a range of addresses, or those of a file, each of them maybe reversed. -/
inductive IPRule where
  | custom (cidr : CIDR) (reverseMatch : Bool)
  | geoip (rule : GeoIPRule) (reverseMatch : Bool)

/-- The ranges of the rules that are, or are not, reversed. -/
def customs (rules : List IPRule) (reverse : Bool) : List CIDR :=
  rules.filterMap fun
    | .custom cidr r => if r = reverse then some cidr else none
    | .geoip _ _ => none

/-- The files of the rules that are, or are not, reversed. -/
def geoips (rules : List IPRule) (reverse : Bool) : List GeoIPRule :=
  rules.filterMap fun
    | .geoip rule r => if r = reverse then some rule else none
    | .custom _ _ => none

/-- A matcher for what was collected, if anything was. -/
def subMatcher {α : Type} (collected : List α)
    (yield : List α → Except String (List CIDR)) (reverse : Bool) :
    Except String (List HeuristicIPMatcher) :=
  if collected.isEmpty then .ok []
  else do
    let ipset ← createFrom (yield collected)
    return [{ ipset, reverse }]

/-- `buildOptimizedIPMatcher`, up to the choice between one matcher and several; `loadIP` reads
    the ranges of a file.  A set that another rule has made already of the same files is the
    same set. -/
def buildOptimizedIPMatcher (loadIP : GeoIPRule → Except String (List CIDR))
    (rules : List IPRule) : Except String (List HeuristicIPMatcher) := do
  let files : List GeoIPRule → Except String (List CIDR) :=
    fun rules => return (← rules.mapM loadIP).flatten
  let posCustom ← subMatcher (customs rules false) .ok false
  let negCustom ← subMatcher (customs rules true) .ok true
  let posGeoip ← subMatcher (geoips rules false) files false
  let negGeoip ← subMatcher (geoips rules true) files true
  let subs := posCustom ++ negCustom ++ posGeoip ++ negGeoip
  if subs.isEmpty then throw "no valid ip matcher" else return subs

/-! ## The views -/

/-- `ipBucket`. -/
structure IpBucket where
  rep : Addr
  ips : List NetIP

/-- The two views of one family. -/
structure FamilyViews where
  buckets : Option (Stock Bytes IpBucket)
  precise : Option (Stock Addr NetIP)

/-- `ipBucketViews`: those of IPv4 and those of IPv6. -/
structure IpBucketViews where
  v4 : FamilyViews
  v6 : FamilyViews

/-- An address goes into the bucket of its key, which is made if there is none; `none` for an
    address that cannot be read. -/
def addBucket (key : Bytes) (ip : NetIP) (t : Stock Bytes IpBucket) :
    Option (Stock Bytes IpBucket) :=
  match t.lookup key with
  | some (some b) => some (t.insert key (some { b with ips := b.ips ++ [ip] }))
  | _ =>
    match fromStdIP ip with
    | none => none
    | some ipx => some (t.insert key (some { rep := ipx, ips := [ip] }))

namespace FamilyViews

/-- New maps for the views that are needed. -/
def make (v : FamilyViews) (needHeur needPrec : Bool) : FamilyViews where
  buckets := if needHeur then some ∅ else v.buckets
  precise := if needPrec then some ∅ else v.precise

def addPrecise (needPrec : Bool) (ip : NetIP) (v : FamilyViews) : FamilyViews :=
  match needPrec, v.precise with
  | true, some t =>
    match fromStdIP ip with
    | none => v
    | some ipx => { v with precise := some (t.insert ipx (some ip)) }
  | _, _ => v

/-- An address goes into the views that are being built. -/
def add (needHeur needPrec : Bool) (key : Bytes) (ip : NetIP) (v : FamilyViews) :
    FamilyViews :=
  match needHeur, v.buckets with
  | true, some t =>
    match addBucket key ip t with
    | none => v
    | some t => { v with buckets := some t }.addPrecise needPrec ip
  | _, _ => v.addPrecise needPrec ip

end FamilyViews

namespace IpBucketViews

/-- The loop of `ensureForMatcher` over the addresses. -/
def add (need4 need6 : Bool × Bool) (v : IpBucketViews) (ip : NetIP) : IpBucketViews :=
  match prefixKeyFromIP ip with
  | none => v
  | some key =>
    match key.head? with
    | some 4 => { v with v4 := v.v4.add need4.1 need4.2 key ip }
    | some 6 => { v with v6 := v.v6.add need6.1 need6.2 key ip }
    | _ => v

/-- `ensureForMatcher`. -/
def ensureForMatcher (v : IpBucketViews) (m : HeuristicIPMatcher) (ips : List NetIP) :
    IpBucketViews :=
  let needHeur4 := m.heur true && v.v4.buckets.isNone
  let needHeur6 := m.heur false && v.v6.buckets.isNone
  let needPrec4 := !m.heur true && v.v4.precise.isNone
  let needPrec6 := !m.heur false && v.v6.precise.isNone
  if !needHeur4 && !needHeur6 && !needPrec4 && !needPrec6 then v
  else
    ips.foldl (add (needHeur4, needPrec4) (needHeur6, needPrec6))
      { v4 := v.v4.make needHeur4 needPrec4, v6 := v.v6.make needHeur6 needPrec6 }

end IpBucketViews

/-! ## Sorting -/

/-- An order of the keys of a map, in each of the loops. -/
structure Ranging where
  visit : ℕ → ∀ {κ : Type}, List κ → List κ
  perm : ∀ (n : ℕ) {κ : Type} (l : List κ), (visit n l).Perm l

/-- Every loop in the order of insertion. -/
def Ranging.inOrder : Ranging where
  visit _ _ l := l
  perm _ _ l := List.Perm.refl l

/-- What a matcher finds in the view it uses, of one family; a map that is `nil` has no
    keys. -/
def FamilyViews.take (m : HeuristicIPMatcher) (heur : Bool) (order : Ranging) (n : ℕ)
    (v : FamilyViews) (matched : List NetIP) : FamilyViews × List NetIP :=
  if heur then
    match v.buckets with
    | none => (v, matched)
    | some t =>
      let r := sift (fun _ b => m.matchAddr b.rep) IpBucket.ips (order.visit n t.keys) (t, matched)
      ({ v with buckets := some r.1 }, r.2)
  else
    match v.precise with
    | none => (v, matched)
    | some t =>
      let r := sift (fun ipx _ => m.matchAddr ipx) (fun ip => [ip]) (order.visit n t.keys)
        (t, matched)
      ({ v with precise := some r.1 }, r.2)

/-- The loop of `FilterIPs` over the matchers. -/
def takeAll (order : Ranging) (ips : List NetIP) :
    ℕ → List HeuristicIPMatcher → IpBucketViews × List NetIP → IpBucketViews × List NetIP
  | _, [], st => st
  | n, m :: ms, (views, matched) =>
    let views := views.ensureForMatcher m ips
    let r4 := views.v4.take m (m.heur true) order n matched
    let r6 := views.v6.take m (m.heur false) order (n + 1) r4.2
    takeAll order ips (n + 2) ms ({ v4 := r4.1, v6 := r6.1 }, r6.2)

/-- What is left in a view. -/
def restOf {κ ν : Type} [DecidableEq κ] (g : ν → List NetIP) (order : Ranging) (n : ℕ) :
    Option (Stock κ ν) → List NetIP
  | none => []
  | some t => collect g t (order.visit n t.keys)

/-- What is left in the views of one family. -/
def FamilyViews.rest (order : Ranging) (n : ℕ) (v : FamilyViews) : List NetIP :=
  restOf IpBucket.ips order n v.buckets ++ restOf (fun ip => [ip]) order (n + 1) v.precise

/-- `HeuristicMultiIPMatcher.FilterIPs`: the addresses that match, and those that do not;
    `none` where the capacity of the second list is negative. -/
def filterIPs (order : Ranging) (matchers : List HeuristicIPMatcher) (ips : List NetIP) :
    Option (List NetIP × List NetIP) :=
  match ips with
  | [] => some ([], [])
  | [ip] =>
    match fromStdIP ip with
    | none => some ([], [])
    | some ipx => some (if matchers.any (·.matchAddr ipx) then ([ip], []) else ([], [ip]))
  | ips =>
    let r := takeAll order ips 0 matchers ({ v4 := ⟨none, none⟩, v6 := ⟨none, none⟩ }, [])
    let n := 2 * matchers.length
    if ips.length < r.2.length then none
    else some (r.2, r.1.v4.rest order n ++ r.1.v6.rest order (n + 2))

end XrayCore.Geodata
