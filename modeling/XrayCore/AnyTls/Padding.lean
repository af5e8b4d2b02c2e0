/-
  XrayCore.AnyTls.Padding

  Padding schemes: which sizes the first packets of a session are cut to and filled up to.

  A scheme that is accepted draws only sizes that a record can have, and no more of them
  for one packet than its budget (`PaddingFactory.Sound`).
-/

import XrayCore.AnyTls.Frame
import XrayCore.Bytes.BigInt
import XrayCore.Machine.Result

namespace XrayCore.AnyTls

open Bytes Machine List Option

/-! ## Schemes -/

def paddingCheckMark : ℤ := -1

def maxPaddingSchemeBytes : ℕ := 8192
def maxPaddingRecords : ℕ := 256
def maxPaddingRanges : ℕ := 16
def maxPaddingSize : ℤ := 65535
def maxPaddingPacketBytes : ℤ := 128 * 1024
def maxPaddingSchemeBudget : ℤ := 1024 * 1024

/-- The sizes of a record; a check mark has no upper bound. -/
structure PaddingRange where
  minSize : ℤ
  maxSize : ℤ
deriving DecidableEq

/-- `paddingFactory`, without the text that it was made from. -/
structure PaddingFactory where
  stop : ℕ
  records : ℕ → List PaddingRange

/-- `ErrPaddingScheme`. -/
def errPaddingScheme : String := "anytls: invalid padding scheme"

def defaultPaddingScheme : Bytes :=
  ("stop=8\n0=30-30\n1=100-400\n2=400-500,c,500-1000,c,500-1000,c,500-1000,c,500-1000\n" ++
    "3=9-9,500-1000\n4=500-1000\n5=500-1000\n6=500-1000\n7=500-1000").toUTF8.toList

/-- `strings.Cut`: what is before the first separator and what is behind it. -/
def cutText (sep : UInt8) : Bytes → Option (Bytes × Bytes)
  | [] => none
  | c :: cs => if c = sep then some ([], cs) else (cutText sep cs).map fun p => (c :: p.1, p.2)

/-- The lines of a scheme as keys and values; no key may come twice. -/
def schemeLines : List Bytes → List (Bytes × Bytes) →
    Option (List (Bytes × Bytes))
  | [], scheme => some scheme
  | line :: lines, scheme =>
    (cutText 61 line).bind fun kv =>
      if kv.1 ∈ scheme.map Prod.fst then none else schemeLines lines (scheme ++ [kv])

/-- One size of a record. -/
def parseRange (item : Bytes) : Option PaddingRange :=
  if item = [99] then some ⟨paddingCheckMark, 0⟩
  else
    (cutText 45 item).bind fun texts =>
      (parseInt 64 texts.1).bind fun minSize =>
        (parseInt 64 texts.2).bind fun maxSize =>
          if minSize ≤ 0 ∨ maxSize < minSize ∨ maxSize > maxPaddingSize then none
          else some ⟨minSize, maxSize⟩

/-- What a size takes of the budgets. -/
def PaddingRange.cost (r : PaddingRange) : ℤ :=
  if r.minSize = paddingCheckMark then 0 else r.maxSize

/-- The sizes of a packet, with the budget of the scheme before and after it. -/
def parseRanges : List Bytes → List PaddingRange → ℤ → ℤ → Option (List PaddingRange × ℤ)
  | [], ranges, _, total => some (ranges, total)
  | item :: items, ranges, packet, total =>
    (parseRange item).bind fun r =>
      if packet + r.cost > maxPaddingPacketBytes ∨ total + r.cost > maxPaddingSchemeBudget then none
      else parseRanges items (ranges ++ [r]) (packet + r.cost) (total + r.cost)

/-- The records of a scheme.  The source goes through them in no order; which one fails makes no
    difference. -/
def parseRecords : List (Bytes × Bytes) → (ℕ → List PaddingRange) → ℤ →
    Option (ℕ → List PaddingRange)
  | [], records, _ => some records
  | (key, value) :: scheme, records, total =>
    if key = "stop".toUTF8.toList then parseRecords scheme records total
    else
      (parseUint 32 key).bind fun packet =>
        if packet ≥ maxPaddingRecords ∨ formatUint packet ≠ key then none
        else if value.count 44 ≥ maxPaddingRanges then none
        else
          (parseRanges (value.splitOn 44) [] 0 total).bind fun parsed =>
            parseRecords scheme (fun p => if p = packet then parsed.1 else records p) parsed.2

/-- `newPaddingFactory`. -/
def newPaddingFactory (rawScheme : Bytes) : Except String PaddingFactory :=
  if rawScheme.length = 0 ∨ rawScheme.length > maxPaddingSchemeBytes then .error errPaddingScheme
  else
    match schemeLines (rawScheme.splitOn 10) [] with
    | none => .error errPaddingScheme
    | some scheme =>
      let stopText := (scheme.lookup "stop".toUTF8.toList).getD []
      match parseUint 32 stopText with
      | none => .error errPaddingScheme
      | some stop =>
        if stop < 1 ∨ stop > maxPaddingRecords then .error errPaddingScheme
        else
          match parseRecords scheme (fun _ => []) 0 with
          | none => .error errPaddingScheme
          | some records => .ok ⟨stop, records⟩

/-! ## Sizes -/

/-- `paddingRecordSize`. -/
def paddingRecordSize (size : ℤ) : Result ℕ := do
  reject (size < 1 ∨ size > maxPaddingSize) "anytls: padding size out of bounds"
  pure (size.toNat + (1 + (size.toNat - 1) / maxFrameSize) * frameOverhead)

/-- The size that is drawn for a record. -/
def PaddingRange.draw (r : PaddingRange) (random : ℕ) : ℤ :=
  if r.minSize = paddingCheckMark then paddingCheckMark
  else if r.maxSize > r.minSize then r.minSize + (random % (r.maxSize - r.minSize).toNat : ℕ)
  else r.minSize

/-- `GenerateRecordPayloadSizes`; `random` is what the generator gives for each record. -/
def PaddingFactory.generateRecordPayloadSizes (f : PaddingFactory) (packet : ℕ) (random : ℕ → ℕ) :
    List ℤ :=
  (f.records packet).mapIdx fun i r => r.draw (random i)

/-! ## What a scheme that is accepted draws -/

/-- A size that a record can have, or a check mark. -/
def PaddingRange.Ok (r : PaddingRange) : Prop :=
  r.minSize = paddingCheckMark ∨ 1 ≤ r.minSize ∧ r.minSize ≤ r.maxSize ∧ r.maxSize ≤ maxPaddingSize

/-- The sizes of a packet keep to its budget. -/
structure RangesOk (ranges : List PaddingRange) : Prop where
  ok : ∀ r ∈ ranges, r.Ok
  budget : (ranges.map PaddingRange.cost).sum ≤ maxPaddingPacketBytes

/-- What is true of the factory of a scheme that is accepted. -/
def PaddingFactory.Sound (f : PaddingFactory) : Prop := ∀ packet, RangesOk (f.records packet)

theorem rangesOk_nil : RangesOk [] := by
  refine ⟨?_, by decide⟩
  intro r hr
  cases hr

theorem parseRange_ok {item : Bytes} {r : PaddingRange} (h : parseRange item = some r) :
    r.Ok := by
  rw [parseRange] at h
  split at h
  · rw [← some.inj h]
    exact .inl rfl
  · obtain ⟨texts, -, h⟩ := bind_eq_some_iff.mp h
    obtain ⟨minSize, -, h⟩ := bind_eq_some_iff.mp h
    obtain ⟨maxSize, -, h⟩ := bind_eq_some_iff.mp h
    split at h
    · cases h
    · rw [← some.inj h]
      refine .inr ⟨?_, ?_, ?_⟩
      · simp only
        omega
      · simp only
        omega
      · simp only
        omega

theorem parseRanges_ok {items : List Bytes} {ranges : List PaddingRange} {packet total : ℤ}
    {parsed : List PaddingRange × ℤ} (hranges : RangesOk ranges)
    (hpacket : packet = (ranges.map PaddingRange.cost).sum)
    (h : parseRanges items ranges packet total = some parsed) : RangesOk parsed.1 := by
  induction items generalizing ranges packet total with
  | nil =>
    rw [← some.inj h]
    exact hranges
  | cons item items ih =>
    rw [parseRanges] at h
    obtain ⟨r, hr, h⟩ := bind_eq_some_iff.mp h
    split at h
    · cases h
    case isFalse hbudget =>
      have hsum : packet + r.cost = ((ranges ++ [r]).map PaddingRange.cost).sum := by
        rw [map_append, sum_append, hpacket, map_singleton, sum_singleton]
      refine ih ⟨fun r' hr' => ?_, by omega⟩ hsum h
      rcases mem_append.mp hr' with hr' | hr'
      · exact hranges.ok r' hr'
      · rw [mem_singleton.mp hr']
        exact parseRange_ok hr

theorem parseRecords_ok {scheme : List (Bytes × Bytes)} {records : ℕ → List PaddingRange}
    {total : ℤ} {parsed : ℕ → List PaddingRange} (hrecords : ∀ p, RangesOk (records p))
    (h : parseRecords scheme records total = some parsed) : ∀ p, RangesOk (parsed p) := by
  induction scheme generalizing records total with
  | nil =>
    rw [← some.inj h]
    exact hrecords
  | cons kv scheme ih =>
    obtain ⟨key, value⟩ := kv
    rw [parseRecords] at h
    split at h
    · exact ih hrecords h
    obtain ⟨packet, -, h⟩ := bind_eq_some_iff.mp h
    split at h
    · cases h
    split at h
    · cases h
    obtain ⟨ranges, hranges, h⟩ := bind_eq_some_iff.mp h
    refine ih (fun p => ?_) h
    split
    · exact parseRanges_ok rangesOk_nil rfl hranges
    · exact hrecords p

theorem newPaddingFactory_sound {rawScheme : Bytes} {f : PaddingFactory}
    (h : newPaddingFactory rawScheme = .ok f) : f.Sound := by
  rw [newPaddingFactory] at h
  split at h
  · cases h
  split at h
  · cases h
  simp only at h
  split at h
  · cases h
  split at h
  · cases h
  split at h
  · cases h
  case h_2 records hrecords =>
    obtain rfl := Except.ok.inj h
    exact parseRecords_ok (fun _ => rangesOk_nil) hrecords

/-- What a size takes of the budget of its packet. -/
def sizeCost (size : ℤ) : ℤ := if size = paddingCheckMark then 0 else size

/-- Sizes that records can have, and that keep to what is left of the budget. -/
structure SizesOk (sizes : List ℤ) (budget : ℤ) : Prop where
  ok : ∀ size ∈ sizes, size = paddingCheckMark ∨ 1 ≤ size ∧ size ≤ maxPaddingSize
  budget : budget + (sizes.map sizeCost).sum ≤ maxPaddingPacketBytes

theorem PaddingRange.Ok.draw {r : PaddingRange} (h : r.Ok) (random : ℕ) :
    (r.draw random = paddingCheckMark ∨ 1 ≤ r.draw random ∧ r.draw random ≤ maxPaddingSize) ∧
      sizeCost (r.draw random) ≤ r.cost := by
  rw [PaddingRange.draw, PaddingRange.cost]
  by_cases hmark : r.minSize = paddingCheckMark
  · rw [if_pos hmark, if_pos hmark]
    exact ⟨.inl rfl, le_refl _⟩
  rw [if_neg hmark, if_neg hmark]
  obtain hmark' | ⟨hmin, hle, hmax⟩ := h
  · exact absurd hmark' hmark
  -- Without a mark the draw is between the two bounds, so it is no mark either.
  have hdraw : ∀ n : ℤ, r.minSize ≤ n → n ≤ r.maxSize →
      (n = paddingCheckMark ∨ 1 ≤ n ∧ n ≤ maxPaddingSize) ∧ sizeCost n ≤ r.maxSize := by
    intro n hn hn'
    rw [sizeCost, paddingCheckMark, if_neg (by omega)]
    exact ⟨.inr ⟨by omega, by omega⟩, hn'⟩
  split
  case isTrue hlt =>
    have hmod := Nat.mod_lt random (show 0 < (r.maxSize - r.minSize).toNat by omega)
    apply hdraw
    · omega
    · omega
  case isFalse => exact hdraw _ (le_refl _) hle

theorem draws_ok (ranges : List PaddingRange) (hok : ∀ r ∈ ranges, r.Ok) (random : ℕ → ℕ) :
    (∀ size ∈ ranges.mapIdx fun i r => r.draw (random i),
        size = paddingCheckMark ∨ 1 ≤ size ∧ size ≤ maxPaddingSize) ∧
      ((ranges.mapIdx fun i r => r.draw (random i)).map sizeCost).sum ≤
        (ranges.map PaddingRange.cost).sum := by
  induction ranges generalizing random with
  | nil => exact ⟨fun _ h => (nomatch h), le_refl _⟩
  | cons r ranges ih =>
    obtain ⟨hsize, hcost⟩ := (hok r mem_cons_self).draw (random 0)
    obtain ⟨hsizes, hcosts⟩ := ih (fun r' hr' => hok r' (mem_cons_of_mem _ hr'))
      fun i => random (i + 1)
    rw [mapIdx_cons, map_cons, map_cons, sum_cons, sum_cons]
    constructor
    · exact forall_mem_cons.mpr ⟨hsize, hsizes⟩
    · omega

/-- The sizes that are drawn for a packet pass the checks that are made on them. -/
theorem PaddingFactory.Sound.sizes {f : PaddingFactory} (h : f.Sound) (packet : ℕ)
    (random : ℕ → ℕ) : SizesOk (f.generateRecordPayloadSizes packet random) 0 := by
  obtain ⟨hsizes, hcosts⟩ := draws_ok (f.records packet) (h packet).ok random
  have hbudget := (h packet).budget
  exact ⟨hsizes, by rw [PaddingFactory.generateRecordPayloadSizes]; omega⟩

end XrayCore.AnyTls
