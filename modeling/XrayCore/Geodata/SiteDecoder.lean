/-
  XrayCore.Geodata.SiteDecoder

  The decoder of a geosite entry (`common/geodata/geodat_loader.go`).

  `loadSite` decodes the entry while it reads the file: it looks at as much as its buffer
  holds, decodes the whole fields of that and goes on behind them.  `loadSite_streams`: it
  finds what decoding the whole entry finds.  The functions of `protowire` are given; what
  is asked of them is that they are framed.
-/

import XrayCore.Wire.Windows

namespace XrayCore.Geodata

open Wire

/-! ## Fields -/

inductive SiteErr where
  | unexpectedEOF
  /-- What `protowire.ParseError` makes of another code. -/
  | parse (code : ℤ)
  | fieldNumber (num : ℤ)
  | invalidUTF8
deriving DecidableEq

def bytesType : ℤ := 2

def varintType : ℤ := 0

def maxValidNumber : ℤ := 2 ^ 29 - 1

/-- The functions of `protowire` that the decoder calls. -/
structure Protowire where
  consumeTag : Parser SiteErr (ℤ × ℤ)
  consumeBytes : Parser SiteErr Bytes
  consumeVarint : Parser SiteErr ℕ
  consumeFieldValue : ℤ → ℤ → Parser SiteErr Unit

/-- They depend on what they accept and on nothing else, and find less of it truncated; a tag has
    a byte. -/
structure Protowire.Lawful (pw : Protowire) : Prop where
  tag : Framed pw.consumeTag
  tag_consumes : Consumes pw.consumeTag
  bytes : Framed pw.consumeBytes
  varint : Framed pw.consumeVarint
  value : ∀ num typ, Framed (pw.consumeFieldValue num typ)

structure ProtoField where
  num : ℤ
  typ : ℤ
  v : Bytes
  x : ℕ

variable (pw : Protowire)

/-- The value of a field behind its tag. -/
def consumeValue (num typ : ℤ) : Parser SiteErr ProtoField :=
  if num > maxValidNumber then Parser.fail (.fieldNumber num)
  else if typ = bytesType then do
    let v ← pw.consumeBytes
    return ⟨num, typ, v, 0⟩
  else if typ = varintType then do
    let x ← pw.consumeVarint
    return ⟨num, typ, [], x⟩
  else do
    pw.consumeFieldValue num typ
    return ⟨num, typ, [], 0⟩

/-- `consumeField`. -/
def consumeField : Parser SiteErr ProtoField := do
  let tag ← pw.consumeTag
  consumeValue pw tag.1 tag.2

variable {pw} in
theorem Protowire.Lawful.framed (h : pw.Lawful) (num typ : ℤ) :
    Framed (consumeValue pw num typ) := by
  unfold consumeValue
  split
  · exact framed_fail _
  split
  · exact h.bytes.bind fun _ => framed_pure _
  split
  · exact h.varint.bind fun _ => framed_pure _
  · exact (h.value num typ).bind fun _ => framed_pure _

/-! ## Entries -/

/-- `utf8.Valid`. -/
def validUTF8 (b : Bytes) : Bool := (ByteArray.mk b.toArray).validateUTF8

/-- What a decoder found, if it went through. -/
def found {σ : Type} (r : σ × Bytes × Option SiteErr) : Except SiteErr σ :=
  match r.2.2 with
  | some e => .error e
  | none => .ok r.1

/-- `decodeAttributeKey`. -/
def decodeAttributeKey (b : Bytes) : Except SiteErr Bytes :=
  let onField (key : Bytes) (f : ProtoField) : Bytes × Option SiteErr :=
    if f.num = 1 ∧ f.typ = bytesType then
      if validUTF8 f.v then (f.v, none) else (key, some .invalidUTF8)
    else (key, none)
  found (walk (consumeField pw) onField .unexpectedEOF false [] b)

/-- A domain as far as it is decoded: `has` says which of the wanted attributes it has. -/
structure SiteDomain where
  /-- `Domain_Type` is an `int32`. -/
  t : ℤ
  value : Bytes
  has : List Bool

/-- `decodeDomain`. -/
def decodeDomain (want : List Bytes) (b : Bytes) : Except SiteErr SiteDomain :=
  let onField (d : SiteDomain) (f : ProtoField) : SiteDomain × Option SiteErr :=
    if f.num = 1 ∧ f.typ = varintType then ({ d with t := (BitVec.ofNat 32 f.x).toInt }, none)
    else if f.num = 2 ∧ f.typ = bytesType then
      if validUTF8 f.v then ({ d with value := f.v }, none) else (d, some .invalidUTF8)
    else if f.num = 3 ∧ f.typ = bytesType then
      match decodeAttributeKey pw f.v with
      | .error e => (d, some e)
      | .ok key => ({ d with has := d.has.zipWith (fun h w => h || key == w) want }, none)
    else (d, none)
  found (walk (consumeField pw) onField .unexpectedEOF false
    ⟨0, [], List.replicate want.length false⟩ b)

/-- What `decode` does with a field; `calls` are those of `fn` so far. -/
def onSiteField (want : List Bytes) (calls : List (ℤ × Bytes)) (f : ProtoField) :
    List (ℤ × Bytes) × Option SiteErr :=
  if f.typ ≠ bytesType then (calls, none)
  else if f.num = 1 then (calls, if validUTF8 f.v then none else some .invalidUTF8)
  else if f.num = 2 then
    match decodeDomain pw want f.v with
    | .error e => (calls, some e)
    | .ok d => (if false ∈ d.has then calls else calls ++ [(d.t, d.value)], none)
  else (calls, none)

/-- The attributes that `newSiteDecoder` wants. -/
def wanted (attrs : Bytes) : List Bytes := if attrs = [] then [] else attrs.splitOn 64

/-- `decode` of a fresh decoder: the calls of `fn`, the bytes it did not use and the error. -/
def decodeSite (attrs b : Bytes) (more : Bool) :
    List (ℤ × Bytes) × Bytes × Option SiteErr :=
  walk (consumeField pw) (onSiteField pw (wanted attrs)) .unexpectedEOF more [] b

/-- The loop of `loadSite` over an entry, with a buffer of `size` bytes: the calls of `fn` and the
    error. -/
def loadSite (attrs : Bytes) (size : ℕ) (body : Bytes) :
    List (ℤ × Bytes) × Option SiteErr :=
  windowed (consumeField pw) (onSiteField pw (wanted attrs)) .unexpectedEOF size [] body

/-- Decoding through a buffer of any size makes the calls of decoding all at once, and fails
    exactly when that does. -/
theorem loadSite_streams (hpw : pw.Lawful) (attrs : Bytes) (size : ℕ) (body : Bytes) :
    (loadSite pw attrs size body).1 = (decodeSite pw attrs body false).1 ∧
      (loadSite pw attrs size body).2.isSome = (decodeSite pw attrs body false).2.2.isSome :=
  have hframed : Framed (consumeField pw) := hpw.tag.bind fun tag => hpw.framed tag.1 tag.2
  have hconsumes : Consumes (consumeField pw) :=
    hpw.tag_consumes.bind fun tag => hpw.framed tag.1 tag.2
  windowed_eq_walk hframed hconsumes size

/-- Numbers of one byte and fields of bytes. -/
def shortFields : Protowire :=
  let varint : Parser SiteErr ℕ := do
    let b ← Parser.take 1
    match b with
    | [c] => if c < 128 then return c.toNat else Parser.fail (.parse (-2))
    | _ => Parser.fail (.parse (-2))
  { consumeTag := do
      let v ← varint
      if v < 8 then Parser.fail (.parse (-2)) else return ((v / 8 : ℕ), (v % 8 : ℕ))
    consumeBytes := do
      let n ← varint
      Parser.take n
    consumeVarint := varint
    consumeFieldValue := fun _ _ => Parser.fail (.parse (-2)) }

theorem shortFields_lawful : shortFields.Lawful := by
  have hone : ∀ b : Bytes, Framed (match b with
      | [c] => if c < 128 then pure c.toNat else Parser.fail (.parse (-2))
      | _ => Parser.fail (.parse (-2)) : Parser SiteErr ℕ) := by
    intro b
    split
    · split
      · exact framed_pure _
      · exact framed_fail _
    · exact framed_fail _
  have hvarint : Framed shortFields.consumeVarint := (framed_take 1).bind hone
  have hconsumes : Consumes shortFields.consumeVarint := (consumes_take Nat.one_pos).bind hone
  have hrest : ∀ v : ℕ, Framed (if v < 8 then Parser.fail (.parse (-2)) else
      pure (((v / 8 : ℕ) : ℤ), ((v % 8 : ℕ) : ℤ)) : Parser SiteErr (ℤ × ℤ)) := by
    intro v
    split
    · exact framed_fail _
    · exact framed_pure _
  exact ⟨hvarint.bind hrest, hconsumes.bind hrest, hvarint.bind framed_take, hvarint,
    fun _ _ => framed_fail _⟩

/-- An entry `CN` with one domain, through a buffer that holds neither. -/
theorem loadSite_streams_short :
    let body := [0x0a, 2, 67, 78, 0x12, 7, 8, 2, 0x12, 3, 97, 46, 98]
    (loadSite shortFields [] 3 body).1 = (decodeSite shortFields [] body false).1 ∧
      (loadSite shortFields [] 3 body).2.isSome =
        (decodeSite shortFields [] body false).2.2.isSome :=
  loadSite_streams shortFields shortFields_lawful [] 3 _

end XrayCore.Geodata
