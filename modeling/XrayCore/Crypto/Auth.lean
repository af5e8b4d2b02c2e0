/-
  XrayCore.Crypto.Auth

  Sealed chunks on a byte stream: the writer and the reader of `auth.go`.

  Both sides are given an authenticator, a parser of sizes and a generator of padding.
  These may share state (the size masks and the padding lengths come from one stream),
  so the three are one `Link` here, whose operations move one state.
-/

import XrayCore.Buf.Buffer
import XrayCore.Buf.BufferedReader

namespace XrayCore.Crypto

open Buf

/-- `PaddingLengthGenerator`. -/
structure PaddingLengthGenerator (σ : Type) where
  maxPaddingLen : ℕ
  nextPaddingLen : σ → ℕ × σ

/-- The authenticator, the size parser and the padding of one side. -/
structure Link (σ : Type) where
  overhead : ℕ
  sizeBytes : ℕ
  padding : Option (PaddingLengthGenerator σ)
  /-- `Encode` -/
  encodeSize : σ → ℕ → Bytes × σ
  /-- `Decode` -/
  decodeSize : σ → Bytes → Except String ℕ × σ
  /-- `Seal` -/
  sealText : σ → Bytes → Except String Bytes × σ
  /-- `Open` -/
  openText : σ → Bytes → Except String Bytes × σ

namespace Link

variable {σ : Type} (l : Link σ)

/-- The length of the next padding, none without a generator. -/
def paddingLen (s : σ) : ℕ × σ :=
  match l.padding with
  | none => (0, s)
  | some p => p.nextPaddingLen s

def maxPadding : ℕ := (l.padding.map PaddingLengthGenerator.maxPaddingLen).getD 0

end Link

variable {σ : Type}

/-! ## The writer -/

/-- `AuthenticationWriter`: the state of its link, and the random bytes it has not used. -/
structure AuthenticationWriter (σ : Type) where
  state : σ
  random : ℕ → UInt8

/-- `TransferType`. -/
inductive TransferType where
  | stream
  | packet
  deriving DecidableEq, Repr

namespace AuthenticationWriter

/-- `rand.Read` of `n` bytes. -/
def randomBytes (w : AuthenticationWriter σ) (n : ℕ) : Bytes := (List.range n).map w.random

def errTooLarge (totalSize : ℕ) : String := "size too large: " ++ toString totalSize

/-- `seal`. -/
def sealChunk (l : Link σ) (w : AuthenticationWriter σ) (b : Bytes) :
    Except String Bytes × AuthenticationWriter σ :=
  let encryptedSize := b.length + l.overhead
  let pad := l.paddingLen w.state
  let totalSize := l.sizeBytes + encryptedSize + pad.1
  if totalSize > size then (.error (errTooLarge totalSize), { w with state := pad.2 })
  else
    let encoded := l.encodeSize pad.2 ((encryptedSize + pad.1) % 65536)
    match l.sealText encoded.2 b with
    | (.error e, s) => (.error e, { w with state := s })
    | (.ok text, s) =>
      (.ok (encoded.1 ++ text ++ w.randomBytes pad.1), ⟨s, fun i => w.random (pad.1 + i)⟩)

/-- The loop of `writeStream`, of at most `fuel` rounds, over the bytes of the buffers. -/
def writeChunks (l : Link σ) (payloadSize : ℕ) :
    ℕ → AuthenticationWriter σ → Bytes → Except String Bytes × AuthenticationWriter σ
  | 0, w, _ => (.ok [], w)
  | fuel + 1, w, data =>
    match sealChunk l w (data.take payloadSize) with
    | (.error e, w') => (.error e, w')
    | (.ok chunk, w') =>
      if data.drop payloadSize = [] then (.ok chunk, w')
      else
        match writeChunks l payloadSize fuel w' (data.drop payloadSize) with
        | (.error e, w'') => (.error e, w'')
        | (.ok chunks, w'') => (.ok (chunk ++ chunks), w'')

/-- `writeStream`: what is given to the transport. -/
def writeStream (l : Link σ) (w : AuthenticationWriter σ) (mb : List Bytes) :
    Except String Bytes × AuthenticationWriter σ :=
  let payloadSize := size - l.overhead - l.sizeBytes - l.maxPadding
  -- a round takes at least one byte
  writeChunks l payloadSize (mb.flatten.length + 1) w mb.flatten

/-- `writePacket`: a packet that can not be sealed is left out. -/
def writePacket (l : Link σ) : AuthenticationWriter σ → List Bytes →
    Bytes × AuthenticationWriter σ
  | w, [] => ([], w)
  | w, b :: mb =>
    if b = [] then writePacket l w mb
    else
      match sealChunk l w b with
      | (.error _, w') => writePacket l w' mb
      | (.ok chunk, w') => (chunk ++ (writePacket l w' mb).1, (writePacket l w' mb).2)

/-- `WriteMultiBuffer`: what is given to the transport; nothing when it panics. -/
def writeMultiBuffer (l : Link σ) (transferType : TransferType) (w : AuthenticationWriter σ)
    (mb : List Bytes) : Option (Except String Bytes × AuthenticationWriter σ) :=
  if mb.flatten = [] then
    match sealChunk l w [] with
    | (.error _, _) => none
    | (.ok chunk, w') => some (.ok chunk, w')
  else
    match transferType with
    | .stream => some (writeStream l w mb)
    | .packet => some (.ok (writePacket l w mb).1, (writePacket l w mb).2)

/-- One call of `WriteMultiBuffer` after the other, until one fails: what the transport got. -/
def writeAll (l : Link σ) (transferType : TransferType) :
    AuthenticationWriter σ → List (List Bytes) → Option (Except String Bytes)
  | _, [] => some (.ok [])
  | w, mb :: calls =>
    match writeMultiBuffer l transferType w mb with
    | none => none
    | some (.error e, _) => some (.error e)
    | some (.ok bytes, w') => (writeAll l transferType w' calls).map (Except.map (bytes ++ ·))

end AuthenticationWriter

/-! ## The reader -/

/-- `AuthenticationReader`. -/
structure AuthenticationReader (σ : Type) where
  state : σ
  reader : BufferedReader
  size : ℕ
  paddingLen : ℕ
  hasSize : Bool
  done : Bool

/-- How `readInternal` ends: with no error, with `errSoft`, or with another error. -/
inductive Outcome where
  | read
  | soft
  | failed (e : ReadError)
  deriving DecidableEq, Repr

def errSoft : ReadError := .other "waiting for more data"

namespace AuthenticationReader

/-- `NewAuthenticationReader`. -/
def new (s : σ) (reader : BufferedReader) : AuthenticationReader σ :=
  ⟨s, reader, 0, 0, false, false⟩

/-- `readSize`: the size and the padding. -/
def readSize (l : Link σ) (r : AuthenticationReader σ) :
    Except ReadError (ℕ × ℕ) × AuthenticationReader σ :=
  if r.hasSize then (.ok (r.size, r.paddingLen), { r with hasSize := false })
  else
    match r.reader.readFull l.sizeBytes with
    | (.error e, reader) => (.error e, { r with reader := reader })
    | (.ok sizeBytes, reader) =>
      let pad := l.paddingLen r.state
      match l.decodeSize pad.2 sizeBytes with
      | (.error e, s) => (.error (.other e), { r with reader := reader, state := s })
      | (.ok size, s) => (.ok (size, pad.1), { r with reader := reader, state := s })

/-- `BytesTo` of a buffer: positions below zero count from the end. -/
def bytesTo (b : Bytes) (upTo : ℤ) : Bytes :=
  b.take (if upTo < 0 then upTo + b.length else upTo).toNat

/-- The bytes cut into buffers of the regular size. -/
def cutBuffers : ℕ → Bytes → List Bytes
  | 0, _ => []
  | fuel + 1, src =>
    if src = [] then [] else src.take Buf.size :: cutBuffers fuel (src.drop Buf.size)

/-- `MergeBytes`. -/
def mergeBytes (dest : List Bytes) (src : Bytes) : List Bytes :=
  match dest.getLast? with
  | none => cutBuffers src.length src
  | some b =>
    let n := Buf.size - b.length
    dest.dropLast ++ [b ++ src.take n] ++ cutBuffers src.length (src.drop n)

/-- The chunk behind its size: `readBuffer`, or what stands in its place for large chunks, where
    the size is above every padding. -/
def readChunk (l : Link σ) (r : AuthenticationReader σ) (size padding : ℕ)
    (mb : List Bytes) : Outcome × AuthenticationReader σ × List Bytes :=
  match r.reader.readFull size with
  | (.error e, reader) => (.failed e, { r with reader := reader }, mb)
  | (.ok payload, reader) =>
    match l.openText r.state (bytesTo payload (size - padding)) with
    | (.error e, s) => (.failed (.other e), { r with reader := reader, state := s }, mb)
    | (.ok b, s) =>
      (.read, { r with reader := reader, state := s },
        if size ≤ Buf.size then mb ++ [b] else mergeBytes mb b)

/-- `readInternal`. -/
def readInternal (l : Link σ) (soft : Bool) (r : AuthenticationReader σ)
    (mb : List Bytes) : Outcome × AuthenticationReader σ × List Bytes :=
  if soft && decide (r.reader.bufferedBytes < l.sizeBytes) then (.soft, r, mb)
  else if r.done then (.failed .eof, r, mb)
  else
    match readSize l r with
    | (.error e, r') => (.failed e, r', mb)
    | (.ok (size, padding), r') =>
      if size = (l.overhead + padding) % 65536 then (.failed .eof, { r' with done := true }, mb)
      else if soft && decide (size > r'.reader.bufferedBytes) then
        (.soft, { r' with size := size, paddingLen := padding, hasSize := true }, mb)
      else readChunk l r' size padding mb

/-- The soft reads of `ReadMultiBuffer`. -/
def readSoft (l : Link σ) : ℕ → AuthenticationReader σ → List Bytes →
    Except ReadError (List Bytes) × AuthenticationReader σ
  | 0, r, mb => (.ok mb, r)
  | n + 1, r, mb =>
    match readInternal l true r mb with
    | (.read, r', mb') => readSoft l n r' mb'
    | (.soft, r', mb') => (.ok mb', r')
    | (.failed .eof, r', mb') => (.ok mb', r')
    | (.failed e, r', _) => (.error e, r')

/-- `ReadMultiBuffer`. -/
def readMultiBuffer (l : Link σ) (r : AuthenticationReader σ) :
    Except ReadError (List Bytes) × AuthenticationReader σ :=
  match readInternal l false r [] with
  | (.read, r', mb) => readSoft l 15 r' mb
  | (.soft, r', _) => (.error errSoft, r')
  | (.failed e, r', _) => (.error e, r')

/-- At most `fuel` calls of `ReadMultiBuffer`, until one gives an error. -/
def readAll (l : Link σ) : ℕ → AuthenticationReader σ → List (List Bytes) × Option ReadError
  | 0, _ => ([], none)
  | fuel + 1, r =>
    match readMultiBuffer l r with
    | (.error e, _) => ([], some e)
    | (.ok mb, r') => (mb :: (readAll l fuel r').1, (readAll l fuel r').2)

end AuthenticationReader

end XrayCore.Crypto
