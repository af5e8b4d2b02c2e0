/-
  XrayCore.Xdns.Domain

  The domains a tunnel runs under, and the data that the names below them carry.

  A name below a domain holds base32 text in front of the domain, cut into labels.
  `isDomain` and `decode` follow the source with every index and slice checked;
  `Covers` and `payload` say what they compute, and `isDomain_eq` and `decode_eq`
  that they always compute it.
-/

import XrayCore.Bytes.Base32
import XrayCore.Bytes.Slice
import XrayCore.Xdns.Message

namespace XrayCore.Xdns

open Bytes List

/-! ## Letters -/

def lower (c : UInt8) : UInt8 := if 65 ≤ c ∧ c ≤ 90 then c + 32 else c

def toUpper (bs : Bytes) : Bytes :=
  bs.map fun c => if 97 ≤ c ∧ c ≤ 122 then c - 32 else c

/-- The letters of base32 that `n` bytes need, and the bytes that `n` letters give. -/
def encodedLen (n : ℕ) : ℕ := n / 5 * 8 + (n % 5 * 8 + 4) / 5
def decodedLen (n : ℕ) : ℕ := n / 8 * 5 + n % 8 * 5 / 8

/-! ## Domains -/

/-- `Domain`.  `cap` is how many bytes a name may carry and `lenMax` how long such a
    name gets. -/
structure Domain where
  name : Name
  lenLimit : ℕ
  labelLimit : ℕ
  types : List UInt16
  edns0 : UInt16
  cap : ℕ
  lenMax : ℕ
deriving DecidableEq

/-- `typeMap'` is `TypeMap_`: the type that the two lowest bits of a payload name. -/
def typeMap' (b : UInt8) : UInt16 :=
  if b = 0 then typeA else if b = 1 then typeCNAME else if b = 2 then typeTXT
  else if b = 3 then typeAAAA else 0

/-- `strings.Contains(domain, "..")`. -/
def hasEmptyLabel : List Char → Bool
  | '.' :: '.' :: _ => true
  | _ :: rest => hasEmptyLabel rest
  | [] => false

/-- How many letters fit in front of a name of `length` bytes. -/
def letterRoom (length lenLimit labelLimit : ℕ) : ℕ :=
  let n := (lenLimit - length - 1) / (labelLimit + 1)
  let left := (lenLimit - length - 1) % (labelLimit + 1)
  if left > 1 then n * labelLimit + (left - 1) else n * labelLimit

/-- `NewDomain`.  `toASCII` and `newName` are the libraries' and only their errors and
    the name count: the ASCII form itself goes unused. -/
def newDomain (toASCII : String → Except String String) (newName : String → Except String Name)
    (domain : String) (lenLimit labelLimit : ℤ) (types : List UInt16) (edns0 : UInt16) :
    Except String Domain :=
  if hasEmptyLabel domain.toList then throw "invalid domain"
  else if lenLimit < 0 ∨ 255 < lenLimit then throw "lenLimit < 0 || lenLimit > 255"
  else if labelLimit < 0 ∨ 63 < labelLimit then throw "labelLimit < 0 || labelLimit > 63"
  else if types = [] then throw "empty types"
  else if !types.all [typeA, typeCNAME, typeTXT, typeAAAA].contains then throw "unknown types"
  else if edns0 ≠ 0 ∧ (edns0 < 512 ∨ 4096 < edns0) then
    throw "edns0 != 0 && (edns0 < 512 || edns0 > 4096)"
  else
    match toASCII domain, newName (domain ++ ".") with
    | .error err, _ => throw err
    | .ok _, .error err => throw err
    | .ok _, .ok name =>
      if lenLimit < name.length + 1 then throw "lenLimit < int(name.Length)+1"
      else
        let cap := decodedLen (letterRoom name.length lenLimit.toNat labelLimit.toNat)
        if cap < 17 then throw "cap < 17"
        else
          let total := encodedLen cap
          -- a label limit of zero leaves no room at all, so the divisions are safe here
          let dots := total / labelLimit.toNat + if total % labelLimit.toNat > 0 then 1 else 0
          return {
            name, lenLimit := lenLimit.toNat, labelLimit := labelLimit.toNat, types, edns0, cap,
            lenMax := name.length + 1 + total + dots }

/-- The name of an ASCII string, as the library makes it. -/
def asciiName (s : String) : Except String Name :=
  let data := s.toList.map fun c => c.toNat.toUInt8
  if h : data.length ≤ 255 then .ok ⟨data, h⟩ else .error "resource length too long"

/-- The domain `t` for names of up to 253 bytes, as `NewDomain` makes it. -/
def domainT (types : List UInt16) : Domain where
  name := ⟨[116, 46], by decide⟩
  lenLimit := 253
  labelLimit := 63
  types := types
  edns0 := 0
  cap := 153
  lenMax := 252

example : newDomain .ok asciiName "t" 253 63 [typeTXT] 0 = .ok (domainT [typeTXT]) := by
  decide

/-! ## Names below a domain -/

/-- The loop of `IsDomain`: do the `i` bytes before `i` and before `j` agree? -/
def sameTail (domain name : Bytes) : ℕ → ℕ → Option Bool
  | 0, _ => some true
  | i + 1, j =>
    match index domain i, index name (j - 1) with
    | some x, some y => if lower x ≠ lower y then some false else sameTail domain name i (j - 1)
    | _, _ => none

def Domain.isDomain (d : Domain) (name : Name) : Option Bool :=
  if d.name.length ≥ name.length then some false
  else sameTail d.name.data name.data d.name.length name.length

def Domain.hasType (d : Domain) (qtype : UInt16) : Bool := d.types.contains qtype

/-- The letters of a name in front of the domain, as `Decode` gives them to base32. -/
def letters (bs : Bytes) : Bytes := toUpper (bs.filter fun c => c ≠ 46)

/-- `Decode`: the first bytes of its array that it fills; none if there is an error. -/
def Domain.decode (d : Domain) (name : Name) : Option Bytes :=
  match d.isDomain name with
  | none => none
  | some false => some []
  | some true =>
    (slice name.data 0 (name.length - d.name.length)).map fun b =>
      (decodeBase32 (letters b)).getD []

/-- The loop over the domains: the first that a name is below. -/
def findDomain : List Domain → Name → Option (Option Domain)
  | [], _ => some none
  | d :: ds, name =>
    match d.isDomain name with
    | none => none
    | some true => some (some d)
    | some false => findDomain ds name

/-! ## What they compute -/

/-- The name is longer than the domain's and ends in it, letter case aside. -/
def Domain.Covers (d : Domain) (name : Name) : Prop :=
  d.name.length < name.length ∧
    (name.data.drop (name.length - d.name.length)).map lower = d.name.data.map lower

instance (d : Domain) (name : Name) : Decidable (d.Covers name) :=
  inferInstanceAs (Decidable (_ ∧ _))

/-- The bytes that a name carries below a domain. -/
def Domain.payload (d : Domain) (name : Name) : Bytes :=
  if d.Covers name then
    (decodeBase32 (letters (name.data.take (name.length - d.name.length)))).getD []
  else []

/-- The bytes at `i` and `j` being in range, the loop compares what lies before them. -/
theorem sameTail_eq (xs ys : Bytes) {i j : ℕ} (hi : i ≤ xs.length) (hij : i ≤ j)
    (hj : j ≤ ys.length) :
    sameTail xs ys i j =
      some (decide (((ys.take j).drop (j - i)).map lower = (xs.take i).map lower)) := by
  induction i generalizing j with
  | zero => simp [sameTail]
  | succ i ih =>
    -- the last bytes compared are split off both sides
    obtain ⟨k, rfl⟩ : ∃ k, j = k + 1 := ⟨j - 1, by omega⟩
    have hx : index xs i = some xs[i] := getElem?_eq_getElem (by omega)
    have hy : index ys k = some ys[k] := getElem?_eq_getElem (by omega)
    have htail : (ys.take (k + 1)).drop (k + 1 - (i + 1)) =
        (ys.take k).drop (k - i) ++ [ys[k]] := by
      rw [take_succ_eq_append_getElem (by omega), drop_append_of_le_length]
      · congr 2
        omega
      · rw [length_take]
        omega
    rw [htail, take_succ_eq_append_getElem (by omega), map_append, map_append]
    simp only [sameTail, hx, Nat.add_sub_cancel, hy]
    have hlen : (((ys.take k).drop (k - i)).map lower).length = ((xs.take i).map lower).length := by
      simp only [length_map, length_drop, length_take]
      omega
    by_cases h : lower xs[i] = lower ys[k]
    · rw [if_neg (not_not_intro h), ih (by omega) (by omega) (by omega)]
      simp only [map_cons, h, append_left_inj]
    · rw [if_pos h, eq_comm, Option.some.injEq, decide_eq_false_iff_not]
      intro heq
      exact h (cons.inj (append_inj heq hlen).2).1.symm

theorem Domain.isDomain_eq (d : Domain) (name : Name) :
    d.isDomain name = some (decide (d.Covers name)) := by
  unfold isDomain
  by_cases h : d.name.length ≥ name.length
  · rw [if_pos h, decide_eq_false fun hcovers => Nat.not_le.mpr hcovers.1 h]
  · have hlt := Nat.not_le.mp h
    have hsame := sameTail_eq d.name.data name.data (Nat.le_refl d.name.length)
      (Nat.le_of_lt hlt) (Nat.le_refl name.length)
    rw [Name.take_length, Name.take_length] at hsame
    rw [if_neg h]
    simp only [Covers, hlt, true_and]
    exact hsame

theorem Domain.decode_eq (d : Domain) (name : Name) : d.decode name = some (d.payload name) := by
  unfold decode payload
  rw [isDomain_eq]
  by_cases h : d.Covers name
  · simp only [h, decide_true, if_true]
    have hslice : slice name.data 0 (name.length - d.name.length) = some _ :=
      slice_of_le (Nat.zero_le _) (Nat.sub_le _ _)
    rw [hslice]
    rfl
  · simp only [h, decide_false, if_false]

theorem findDomain_eq (ds : List Domain) (name : Name) :
    findDomain ds name = some (ds.find? fun d => decide (d.Covers name)) := by
  induction ds with
  | nil => rfl
  | cons d ds ih =>
    rw [findDomain, Domain.isDomain_eq, find?_cons]
    cases h : decide (d.Covers name) with
    | true => rfl
    | false => exact ih

/-- A payload is shorter than the name that carries it. -/
theorem Domain.length_payload_le (d : Domain) (name : Name) :
    8 * (d.payload name).length ≤ 5 * name.length := by
  unfold payload
  split_ifs with h
  · cases hd : decodeBase32 (letters (name.data.take (name.length - d.name.length))) with
    | none => simp
    | some out =>
      have hout := length_decodeBase32_le hd
      have hletters : (letters (name.data.take (name.length - d.name.length))).length
          ≤ (name.data.take (name.length - d.name.length)).length := by
        rw [letters, toUpper, length_map]
        exact length_filter_le _ _
      have htake := length_take_le' (name.length - d.name.length) name.data
      simp only [Option.getD_some, Name.length] at *
      omega
  · simp

end XrayCore.Xdns
