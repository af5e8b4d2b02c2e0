/-
  XrayCore.Vmess.Request

  The header of a VMess request, as the server decodes it.

  The AuthID names the user and the time; the rest is opened with the key of the user.
  What the ciphers do is left open (`Crypto`).
-/

import XrayCore.Antireplay.ReplayFilter
import XrayCore.Bytes.Slice
import XrayCore.Machine.Result
import XrayCore.Protocol.Address

namespace XrayCore.Vmess

open Antireplay Bytes Machine Protocol Wire List Result

/-! ## The AuthID -/

/-- The ciphers and hashes that are used. -/
structure Crypto where
  /-- `CmdKey` of an id -/
  cmdKey : Bytes → Bytes
  /-- one block under the key that `NewCipherFromKey` derives -/
  decryptAuthID : Bytes → Bytes → Bytes
  /-- `crc32.ChecksumIEEE` -/
  crc32 : Bytes → ℕ
  /-- `KDF`, of a key and a path -/
  kdf : Bytes → List Bytes → Bytes
  /-- `Open` of AES-GCM: key, nonce, ciphertext and additional data -/
  openAesGcm : Bytes → Bytes → Bytes → Bytes → Option Bytes
  /-- `net.ParseAddress` -/
  parseAddress : Bytes → Address

/-- A number as `float64`. -/
def float64 (x : ℤ) : ℤ := x.sign * round53 x.natAbs

/-- `math.Abs(math.Abs(float64(t)) - float64(now))`. -/
def timeDistance (t now : ℤ) : ℕ := round53 (|float64 t| - float64 now).natAbs

/-- The time in an AuthID, as `Decode` reads it. -/
def authTime (c : Crypto) (key authID : Bytes) : ℤ :=
  wrap64 (bigEndian ((c.decryptAuthID key authID).take 8))

/-- The checksum in an AuthID is right. -/
def authValid (c : Crypto) (key authID : Bytes) : Bool :=
  bigEndian (((c.decryptAuthID key authID).take 16).drop 12) ==
    c.crc32 ((c.decryptAuthID key authID).take 12)

section Match

variable {K : Type} [Field K] [LinearOrder K] [FloorRing K]

/-- `Match`, for the ids of the users in the order in which they are looked at: the one that is
    found, and the filter after it. -/
def matchAuthID (c : Crypto) (now filterTime : K) (authID : Bytes) :
    List Bytes → ReplayFilter Bytes K →
      Except String Bytes × ReplayFilter Bytes K
  | [], filter => (.error "user do not exist", filter)
  | id :: users, filter =>
    let t := authTime c (c.cmdKey id) authID
    if ¬ authValid c (c.cmdKey id) authID then matchAuthID c now filterTime authID users filter
    else if t < 0 then (.error "timestamp is negative", filter)
    else if timeDistance t ⌊now⌋ > 120 then
      (.error "invalid timestamp, perhaps unsynchronized time", filter)
    else
      let checked := filter.check filterTime authID
      if checked.1 then (.ok id, checked.2) else (.error "replayed request", checked.2)

end Match

/-! ## The header -/

/-- `KDFSaltConstVMessHeaderPayloadLengthAEADKey` and the other three. -/
def lengthKeySalt : Bytes := "VMess Header AEAD Key_Length".toUTF8.toList

def lengthIVSalt : Bytes := "VMess Header AEAD Nonce_Length".toUTF8.toList

def payloadKeySalt : Bytes := "VMess Header AEAD Key".toUTF8.toList

def payloadIVSalt : Bytes := "VMess Header AEAD Nonce".toUTF8.toList

/-- `OpenVMessAEADHeader`, of what a connection holds behind the AuthID. -/
def openVMessAEADHeader (c : Crypto) (key authID data : Bytes) : Result Bytes := do
  reject (data.length < 18) "unexpected EOF"
  let data' := data.drop 18
  reject (data'.length < 8) "unexpected EOF"
  let nonce := data'.take 8
  let derive (salt : Bytes) := c.kdf key [salt, authID, nonce]
  let lengthPlain ← found
    (c.openAesGcm ((derive lengthKeySalt).take 16) ((derive lengthIVSalt).take 12)
      (data.take 18) authID)
    "cipher: message authentication failed"
  let length ← checked (slice lengthPlain 0 2)
  -- in 16 bits
  let needed := (bigEndian length + 16) % 65536
  let data'' := data'.drop 8
  reject (data''.length < needed) "unexpected EOF"
  found
    (c.openAesGcm ((derive payloadKeySalt).take 16) ((derive payloadIVSalt).take 12)
      (data''.take needed) authID)
    "cipher: message authentication failed"

/-- What follows a header is not read. -/
theorem openVMessAEADHeader_append {c : Crypto} {key authID data plain : Bytes}
    (h : (openVMessAEADHeader c key authID data).run = some (.ok plain)) (more : Bytes) :
    (openVMessAEADHeader c key authID (data ++ more)).run = some (.ok plain) := by
  unfold openVMessAEADHeader at h ⊢
  obtain ⟨_, hlen, h⟩ := bind_ok h
  obtain ⟨_, hnonce, h⟩ := bind_ok h
  obtain ⟨lengthPlain, hopen, h⟩ := bind_ok h
  obtain ⟨length, hlength, h⟩ := bind_ok h
  obtain ⟨_, hneeded, h⟩ := bind_ok h
  have hlen' := reject_ok hlen
  have hnonce' := reject_ok hnonce
  have hneeded' := reject_ok hneeded
  rw [length_drop] at hnonce' hneeded'
  rw [length_drop] at hneeded'
  -- the three parts are where they were
  have htake : (data ++ more).take 18 = data.take 18 := take_append_of_le_length (by omega)
  have hdrop : (data ++ more).drop 18 = data.drop 18 ++ more :=
    drop_append_of_le_length (by omega)
  have htake' : (data.drop 18 ++ more).take 8 = (data.drop 18).take 8 :=
    take_append_of_le_length (by rw [length_drop]; omega)
  have hdrop' : (data.drop 18 ++ more).drop 8 = (data.drop 18).drop 8 ++ more :=
    drop_append_of_le_length (by rw [length_drop]; omega)
  have hrest : ((data.drop 18).drop 8 ++ more).take ((bigEndian length + 16) % 65536) =
      ((data.drop 18).drop 8).take ((bigEndian length + 16) % 65536) :=
    take_append_of_le_length (by rw [length_drop, length_drop]; omega)
  simp only [htake, hdrop, htake', hdrop']
  rw [run_bind_of_ok (run_reject (by rw [length_append]; omega) _),
    run_bind_of_ok (run_reject (by rw [length_append, length_drop]; omega) _),
    run_bind_of_ok hopen, run_bind_of_ok hlength,
    run_bind_of_ok (run_reject
      (by rw [length_append, length_drop, length_drop]; omega) _), hrest]
  exact h

/-- `SecurityType`. -/
inductive SecurityType where
  | unknown
  | auto
  | aes128Gcm
  | chacha20Poly1305
deriving DecidableEq

/-- `parseSecurityType`. -/
def parseSecurityType (b : UInt8) : SecurityType :=
  if b = 0 ∨ b = 2 then .auto
  else if b = 3 then .aes128Gcm
  else if b = 4 then .chacha20Poly1305
  else .unknown

/-- `protocol.RequestHeader`. -/
structure RequestHeader where
  version : UInt8
  option : UInt8
  security : SecurityType
  command : UInt8
  address : Address
  port : UInt16
deriving DecidableEq

/-- `sessionID`. -/
structure SessionID where
  user : Bytes
  key : Bytes
  nonce : Bytes
deriving DecidableEq

theorem families_nodup : [(1 : UInt8), 2, 3].Nodup := by decide

/-- `addrParser`. -/
def addrParser : AddressParser := ⟨1, 2, 3, families_nodup⟩

/-- The address of a request, and what is left behind it; `none` where there is none.  The bytes
    before it are in the same buffer. -/
def readTarget (c : Crypto) (command : UInt8) (buffer rest : Bytes) :
    Option ((Address × UInt16) × Bytes) :=
  if command = 3 then some ((.domain "v1.mux.cool".toUTF8.toList, 0), rest)
  else if command = 1 ∨ command = 2 then
    match rest with
    | hi :: lo :: rest =>
      match addrParser.readAddress c.parseAddress (buffer ++ [hi, lo]) rest with
      | .ok addr rest => some ((addr, uint16 hi lo), rest)
      | _ => none
    | _ => none
  else none

/-- `fnv.New32a`. -/
def fnv1a (bs : Bytes) : ℕ :=
  bs.foldl (fun h b => ((h ^^^ b.toNat) * 16777619) % 2 ^ 32) 2166136261

/-- The end of `DecodeRequestHeader`, behind the session history. -/
def decodeRest (c : Crypto) (buffer rest : Bytes) : Except String RequestHeader :=
  let paddingLen := (buffer.getD 35 0).toNat / 16
  -- without an address there is an error in the end, whatever else is read
  match readTarget c (buffer.getD 37 0) buffer rest with
  | none => .error "invalid remote address"
  | some (target, rest') =>
    if rest'.length < paddingLen then .error "failed to read padding"
    else if (rest'.drop paddingLen).length < 4 then .error "failed to read checksum"
    else
      let read := rest.length - rest'.length + paddingLen
      if fnv1a (buffer ++ rest.take read) ≠ bigEndian ((rest'.drop paddingLen).take 4) then
        .error "invalid auth, but this is a AEAD request"
      else
        let security := parseSecurityType (buffer.getD 35 0 &&& 0x0f)
        if security = .unknown ∨ security = .auto then .error "unknown security type: "
        else .ok ⟨buffer.getD 0 0, buffer.getD 34 0, security, buffer.getD 37 0, target.1, target.2⟩

end XrayCore.Vmess
