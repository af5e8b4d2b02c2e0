/-
  XrayCore.Vless.CommonConn

  The connection of VLESS encryption: data is cut into records of at most 8192 bytes, each
  sealed under the next nonce.

  The record that was sealed under the last nonce of a key is the context of the next key,
  on both sides.  `sealRecord` says what a record does to the cipher; the reader takes the
  same steps (`readRecord_ok`).
-/

import XrayCore.Buf.BufferedReader
import XrayCore.Vless.Aead

namespace XrayCore.Vless

open Buf

/-! ## Writing -/

/-- The side of a connection that writes. -/
structure WriteSide where
  preWrite : Option Bytes
  aead : AEAD

/-- A record that was sealed: under which key and nonce, and whether it was the last of its key. -/
structure Sealing where
  key : Bytes
  nonce : Bytes
  record : Bytes
  last : Bool

/-- What the two directions of a connection share, and the ciphers. -/
structure CommonConn where
  ciphers : Ciphers
  useAES : Bool
  unitedKey : Bytes

/-- The key of a context. -/
def CommonConn.deriveKey (c : CommonConn) (ctx : Bytes) : Bytes :=
  c.ciphers.deriveKey ctx c.unitedKey

/-- `NewAEAD` for a context. -/
def CommonConn.newAEAD (c : CommonConn) (ctx : Bytes) : AEAD :=
  Vless.newAEAD c.ciphers ctx c.unitedKey c.useAES

section

variable (c : CommonConn)

/-- A record of some data, and the cipher after it. -/
def sealRecord (a : AEAD) (b : Bytes) : Sealing × AEAD :=
  let header := encodeHeader (b.length + 16)
  let max := a.nonce = maxNonce
  let (ciphertext, a') := a.sealNext c.ciphers none b header
  let headerAndData := header ++ ciphertext
  (⟨a.key, a'.nonce, headerAndData, max⟩,
    if max then c.newAEAD headerAndData else a')

/-- The loop of `Write`: what each turn gives to the connection, and what it sealed. -/
def write (w : WriteSide) (b : Bytes) : List (Bytes × Sealing) × WriteSide :=
  if b = [] then ([], w)
  else
    let (s, a) := sealRecord c w.aead (b.take 8192)
    let (rest, w') := write ⟨none, a⟩ (b.drop 8192)
    ((w.preWrite.getD [] ++ s.record, s) :: rest, w')
termination_by b.length
decreasing_by
  have hpos := List.length_pos_of_ne_nil ‹¬ b = []›
  rw [List.length_drop]
  omega

/-! ## Reading -/

/-- The side of a connection that reads.  What is left of a record lies in the memory of `rawInput`,
    from `inputFrom` to `inputTo`; `client` if it is one that may need a new handshake. -/
structure ReadSide where
  client : Bool
  peerAEAD : Option AEAD
  peerPadding : Option ℕ
  rawInput : Bytes
  inputFrom : ℕ
  inputTo : ℕ

/-- What is left of a record. -/
def ReadSide.input (r : ReadSide) : Bytes := (r.rawInput.take r.inputTo).drop r.inputFrom

/-- What a read comes to, with the reader and the carrier after it.  Of the carrier itself
    `io.ReadFull` takes bytes that come with an error too: they count as a read before it. -/
abbrev ReadResult := Except ReadError Bytes × ReadSide × BufferedReader

/-- The end of `Read`, which takes a record; `n` is the size of the slice. -/
def readRecord (r : ReadSide) (a : AEAD) (n : ℕ) (conn : BufferedReader) : ReadResult :=
  match conn.readFull 5 with
  | (.error err, conn) => (.error err, r, conn)
  | (.ok peerHeader, conn) =>
    match decodeHeader peerHeader with
    | .error text =>
      (.error (.other (if r.client then "new handshake needed" else text)), r, conn)
    | .ok l =>
      let r := { r with client := false }
      match conn.readFull l with
      | (.error err, conn) => (.error err, r, conn)
      | (.ok peerData, conn) =>
        let r := { r with rawInput := peerData ++ r.rawInput.drop l }
        -- The context of the next key is taken before the data is opened in place.
        let context := peerHeader ++ r.rawInput.take l
        let (plaintext, a') := a.openNext c.ciphers none peerData peerHeader
        let r := { r with
          peerAEAD := some (if a.nonce = maxNonce then c.newAEAD context else a') }
        match plaintext with
        | .error text => (.error (.other text), r, conn)
        | .ok plaintext =>
          if l - 16 ≤ n then (.ok plaintext, r, conn)
          else
            let r := { r with
              rawInput := plaintext ++ r.rawInput.drop (l - 16), inputFrom := n, inputTo := l - 16 }
            (.ok (plaintext.take n), r, conn)

/-- `Read` once the cipher is there: the padding of a handshake, what is left, or a record. -/
def readWith (r : ReadSide) (a : AEAD) (n : ℕ) (conn : BufferedReader) : ReadResult :=
  match r.peerPadding with
  | some length =>
    match conn.readFull length with
    | (.error err, conn) => (.error err, r, conn)
    | (.ok padding, conn) =>
      let (opened, a) := a.openNext c.ciphers none padding []
      let r := { r with peerAEAD := some a }
      match opened with
      | .error text => (.error (.other text), r, conn)
      | .ok _ => readInput { r with peerPadding := none } a conn
  | none => readInput r a conn
where
  /-- What is left of a record comes before the next one. -/
  readInput (r : ReadSide) (a : AEAD) (conn : BufferedReader) : ReadResult :=
    if r.input.length > 0 then
      (.ok (r.input.take n), { r with inputFrom := r.inputFrom + min n r.input.length }, conn)
    else readRecord c r a n conn

/-- `Read` into a slice of `n` bytes. -/
def read (r : ReadSide) (n : ℕ) (conn : BufferedReader) : ReadResult :=
  if n = 0 then (.ok [], r, conn)
  else
    match r.peerAEAD with
    | some a => readWith c r a n conn
    | none =>
      match conn.readFull 16 with
      | (.error err, conn) => (.error err, r, conn)
      | (.ok serverRandom, conn) =>
        let a := c.newAEAD serverRandom
        readWith c { r with peerAEAD := some a } a n conn

end

end XrayCore.Vless
