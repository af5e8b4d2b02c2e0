/-
  XrayCore.Shadowsocks2022.Packet

  Decoding the packets of clients, and the sessions that know which of them were seen.

  `DecodePacket` holds the lock of the session manager while it looks up a session, decodes
  under the lock of the session, and publishes the session.  A session can be closed between
  these, by a timer or by whoever uses it, and what it has seen goes with it.
-/

import XrayCore.Shadowsocks2022.Stream
import XrayCore.Shadowsocks2022.Window

namespace XrayCore.Shadowsocks2022

open Bytes Machine Protocol Wire Function

/-! ## Packets -/

/-- `DecodedUDPPacket`. -/
structure DecodedUDPPacket where
  sessionID : ℕ
  packetID : ℕ
  headerType : UInt8
  timestamp : ℕ
  clientSessionID : ℕ
  destination : Destination
  payload : Bytes
deriving DecidableEq

/-- `parsePlainUDPPacket`. -/
def parsePlainUDPPacket (outOfRange now : ℤ) (sessionID packetID : ℕ) (bodyPlain : Bytes) :
    Result DecodedUDPPacket := do
  reject (bodyPlain.length < 1 + 8 + 2) errPacketTooShort
  let headerType ← checked (index bodyPlain 0)
  reject (headerType ≠ headerTypeClient ∧ headerType ≠ headerTypeServer) errBadHeaderType
  let epoch := bigEndian (← checked (slice bodyPlain 1 9))
  reject (timestampDiff outOfRange now epoch > 30) errBadTimestamp
  let (clientSessionID, offset) ←
    if headerType = headerTypeServer then do
      reject (bodyPlain.length < 9 + 8 + 2) errPacketTooShort
      let id ← checked (slice bodyPlain 9 17)
      pure (bigEndian id, 17)
    else pure (0, 9)
  let paddingLen := bigEndian (← checked (slice bodyPlain offset (offset + 2)))
  reject (bodyPlain.length < offset + 2 + paddingLen) errNoPadding
  let (destination, addrLen) ← parseAddressPort (bodyPlain.drop (offset + 2 + paddingLen))
  return {
    sessionID, packetID, headerType, timestamp := epoch, clientSessionID, destination
    payload := bodyPlain.drop (offset + 2 + paddingLen + addrLen) }

/-- `UDPCodec` of a server: its keys, and the ciphers of packets and of their headers. -/
structure UDPCodec where
  isChaCha : Bool
  keys : Keys
  chachaCipher : Opening
  blockDecrypt : Bytes → Bytes

/-- What `DecodePacket` knows of a packet before it asks for its session: for ChaCha all of
    it. -/
structure Prepared where
  sessionID : ℕ
  packetID : ℕ
  rawHeader : Bytes
  decoded : Option DecodedUDPPacket

namespace UDPCodec

/-- The start of `DecodePacket`. -/
def prepare (c : UDPCodec) (now : ℤ) (data : Bytes) : Result Prepared := do
  reject (data.length < 30) errPacketTooShort
  if c.isChaCha then
    reject (data.length < 24 + aeadTagSize) errPacketTooShort
    let plain ← found (c.chachaCipher (data.take 24) (data.drop 24))
      "failed to decrypt chacha udp packet"
    reject (plain.length < 16 + 1 + 8 + 2) errPacketTooShort
    let sessionID := bigEndian (plain.take 8)
    let packetID := bigEndian ((plain.take 16).drop 8)
    let decoded ← parsePlainUDPPacket c.keys.outOfRange now sessionID packetID (plain.drop 16)
    reject (decoded.headerType ≠ headerTypeClient) errBadHeaderType
    return ⟨sessionID, packetID, [], some decoded⟩
  else
    let rawHeader := c.blockDecrypt (data.take 16)
    let session ← checked (slice rawHeader 0 8)
    let packet ← checked (slice rawHeader 8 16)
    return ⟨bigEndian session, bigEndian packet, rawHeader, none⟩

end UDPCodec

/-! ## Sessions -/

/-- `ServerUDPSession`, as far as decoding goes. -/
structure ServerUDPSession where
  window : Option SlidingWindow
  closed : Bool
  lastActive : ℤ
  clientBodyCipher : Option Opening

/-- A session that `authenticate` makes. -/
def ServerUDPSession.new : ServerUDPSession := ⟨none, false, 0, none⟩

/-- `touch`. -/
def ServerUDPSession.touch (s : ServerUDPSession) (now : ℤ) : ServerUDPSession :=
  if s.closed then s else { s with lastActive := now }

/-- The cipher that a session has, or a new one. -/
def ServerUDPSession.bodyAead (s : ServerUDPSession) (aead : Except String Opening) :
    Result Opening :=
  match s.clientBodyCipher with
  | some aead => pure aead
  | none => ExceptT.mk (some aead)

namespace UDPCodec

/-- The cipher of the bodies of a session. -/
def bodyCipher (c : UDPCodec) (rawHeader : Bytes) : Except String Opening :=
  c.keys.newAEAD (c.keys.deriveSessionSubKey c.keys.psk (rawHeader.take 8) c.keys.keySaltLength)

/-- `DecryptAESPayload`: the packet, and the session after it. -/
def decryptAESPayload (c : UDPCodec) (s : ServerUDPSession) (now : ℤ) (pre : Prepared)
    (bodyCipher : Bytes) : Result (DecodedUDPPacket × ServerUDPSession) := do
  reject (s.closed = true) errInvalidRequest
  reject (s.window.any fun w => !w.check pre.packetID) "packet id not unique"
  let bodyAead ← s.bodyAead (c.bodyCipher pre.rawHeader)
  let bodyPlain ← found (bodyAead ((pre.rawHeader.take 16).drop 4) bodyCipher)
    "failed to decrypt aes udp body"
  let decoded ← parsePlainUDPPacket c.keys.outOfRange now pre.sessionID pre.packetID bodyPlain
  reject (decoded.headerType ≠ headerTypeClient) errBadHeaderType
  return (decoded, { s with
    window := some ((s.window.getD .empty).add pre.packetID)
    clientBodyCipher := some bodyAead })

/-- What `authenticate` is given for ChaCha; it does not ask whether the session was closed. -/
def checkChaCha (s : ServerUDPSession) (pre : Prepared) (decoded : DecodedUDPPacket) :
    Result (DecodedUDPPacket × ServerUDPSession) :=
  let checked := (s.window.getD .empty).checkAndAdd pre.packetID
  if checked.1 then return (decoded, { s with window := some checked.2 })
  else throw "packet id not unique"

/-- The packet under the lock of its session. -/
def decodeIn (c : UDPCodec) (s : ServerUDPSession) (now : ℤ) (data : Bytes) (pre : Prepared) :
    Result (DecodedUDPPacket × ServerUDPSession) :=
  match pre.decoded with
  | some decoded => checkChaCha s pre decoded
  | none => c.decryptAESPayload s now pre (data.drop 16)

end UDPCodec

/-! ## Runs -/

/-- A call of `DecodePacket` that holds the lock of the manager: when it was prepared, its session,
    whether that is in the table, and the packet once it is decoded. -/
structure InFlight where
  data : Bytes
  prepareTime : ℤ
  pre : Prepared
  session : ServerUDPSession
  published : Bool
  decoded : Option DecodedUDPPacket

/-- `UDPSessionManager` with the call that locks it, the clock, and what was decoded. -/
structure UDPSessionManager where
  sessions : ℕ → Option ServerUDPSession
  closed : Bool
  inFlight : Option InFlight
  clock : ℤ
  accepted : List (Bytes × DecodedUDPPacket)

/-- The steps, each at a time of the clock: a call gets the lock and finds its session, decodes,
    and publishes; a session is closed; all of them are.  What a call does before it has the
    lock is at an earlier time. -/
inductive Action where
  | lock (data : Bytes) (prepareTime now : ℤ)
  | decode (now : ℤ)
  | publish (now : ℤ)
  | close (sessionID : ℕ) (now : ℤ)
  | closeAll (now : ℤ)

namespace UDPSessionManager

/-- `NewUDPSessionManager`. -/
def new (now : ℤ) : UDPSessionManager := ⟨fun _ => none, false, none, now, []⟩

/-- The start of `authenticate`; a session that is closed is not in the table. -/
def lock (c : UDPCodec) (m : UDPSessionManager) (data : Bytes) (prepareTime : ℤ) :
    Option UDPSessionManager :=
  match (c.prepare prepareTime data).run with
  | none => none
  | some (.error _) => some m
  | some (.ok pre) =>
    if m.closed then some m
    else
      let session := m.sessions pre.sessionID
      let inFlight := ⟨data, prepareTime, pre, session.getD .new, session.isSome, none⟩
      some { m with inFlight := some inFlight }

/-- `decode` of `authenticate`; the session may have been closed since. -/
def decode (c : UDPCodec) (m : UDPSessionManager) (f : InFlight) (now : ℤ) :
    Option UDPSessionManager :=
  match (c.decodeIn f.session now f.data f.pre).run with
  | none => none
  | some (.error _) => some { m with inFlight := none }
  | some (.ok (p, session)) =>
    some { m with
      inFlight := some { f with session, decoded := some p }
      sessions := if f.published ∧ ¬ f.session.closed
        then update m.sessions f.pre.sessionID (some session) else m.sessions }

/-- The end of `authenticate`, with `touch`. -/
def publish (m : UDPSessionManager) (f : InFlight) (p : DecodedUDPPacket) (now : ℤ) :
    UDPSessionManager :=
  { m with
    inFlight := none
    sessions := if f.session.closed then m.sessions
      else update m.sessions f.pre.sessionID (some (f.session.touch now))
    accepted := (f.data, p) :: m.accepted }

/-- `Close` of the session in the table. -/
def close (m : UDPSessionManager) (sessionID : ℕ) : UDPSessionManager :=
  { m with
    sessions := update m.sessions sessionID none
    inFlight := m.inFlight.map fun f =>
      if f.published ∧ f.pre.sessionID = sessionID
      then { f with session := { f.session with closed := true } } else f }

/-- A step; the clock does not go back. -/
def step (c : UDPCodec) (m : UDPSessionManager) : Action → Option UDPSessionManager
  | .lock data prepareTime now =>
    if m.clock ≤ now ∧ prepareTime ≤ now ∧ m.inFlight.isNone then
      { m with clock := now }.lock c data prepareTime
    else none
  | .decode now =>
    match m.inFlight with
    | some f =>
      if m.clock ≤ now ∧ f.decoded.isNone then { m with clock := now }.decode c f now else none
    | none => none
  | .publish now =>
    match m.inFlight with
    | some f =>
      match f.decoded with
      | some p => if m.clock ≤ now then some ({ m with clock := now }.publish f p now) else none
      | none => none
    | none => none
  | .close sessionID now =>
    if m.clock ≤ now then some ({ m with clock := now }.close sessionID) else none
  | .closeAll now =>
    if m.clock ≤ now ∧ m.inFlight.isNone then
      some { m with clock := now, closed := true, sessions := fun _ => none }
    else none

end UDPSessionManager

end XrayCore.Shadowsocks2022
