/-
  XrayCore.Vmess.Body

  The body of a VMess request: what the options of the request make of it.

  The masks of the sizes and the lengths of the paddings come from one stream, which the
  writer and the reader draw from in step.  The ciphers are left open; that they open
  what they sealed is a hypothesis (`Aead.Correct`).
-/

import XrayCore.Crypto.AuthSync
import XrayCore.Vmess.Request

namespace XrayCore.Vmess

open Buf XrayCore.Crypto Wire List AuthenticationWriter

/-! ## Ciphers -/

/-- A `cipher.AEAD`, of a key: nonce, text and additional data.  Both that are used have nonces of
    12 bytes and an overhead of 16. -/
structure Aead where
  sealText : Bytes → Bytes → Bytes → Bytes → Bytes
  openText : Bytes → Bytes → Bytes → Bytes → Option Bytes

/-- It opens what it sealed. -/
structure Aead.Correct (a : Aead) : Prop where
  length_sealText : ∀ key nonce text ad, (a.sealText key nonce text ad).length = text.length + 16
  openText_sealText : ∀ key nonce text ad,
    a.openText key nonce (a.sealText key nonce text ad) ad = some text

/-- The ciphers and hashes of a body. -/
structure BodyCrypto where
  aesGcm : Aead
  chacha20Poly1305 : Aead
  md5 : Bytes → Bytes
  /-- `KDF16`, of a key and a path -/
  kdf16 : Bytes → Bytes → Bytes
  /-- what SHAKE128 gives after a nonce was written, byte by byte -/
  shake128 : Bytes → ℕ → UInt8

structure BodyCrypto.Correct (c : BodyCrypto) : Prop where
  aesGcm : c.aesGcm.Correct
  chacha20Poly1305 : c.chacha20Poly1305.Correct

/-- `GenerateChacha20Poly1305Key`. -/
def generateChacha20Poly1305Key (c : BodyCrypto) (b : Bytes) : Bytes :=
  c.md5 b ++ c.md5 (c.md5 b)

/-- The key and the IV of the body, which both sides have from the header. -/
structure BodySession where
  requestBodyKey : Bytes
  requestBodyIV : Bytes
  length_iv : requestBodyIV.length = 16

/-- What `GenerateChunkNonce` gives for a count. -/
def chunkNonce (session : BodySession) (count : UInt16) : Bytes :=
  (putUint16 count ++ session.requestBodyIV.drop 2).take 12

theorem length_chunkNonce (session : BodySession) (count : UInt16) :
    (chunkNonce session count).length = 12 := by
  rw [chunkNonce, length_take, length_append, length_putUint16, length_drop,
    session.length_iv]
  rfl

/-- `AEADAuthenticator`, with a `GenerateChunkNonce` and no additional data. -/
structure AEADAuthenticator where
  aead : Aead
  key : Bytes
  session : BodySession

namespace AEADAuthenticator

def errNonce (nonce : Bytes) : String := "invalid AEAD nonce size: " ++ toString nonce.length

/-- `Seal`, with the count that its nonces are at. -/
def sealText (a : AEADAuthenticator) (count : UInt16) (text : Bytes) :
    Except String Bytes :=
  let nonce := chunkNonce a.session count
  if nonce.length ≠ 12 then .error (errNonce nonce)
  else .ok (a.aead.sealText a.key nonce text [])

/-- `Open`. -/
def openText (a : AEADAuthenticator) (count : UInt16) (text : Bytes) :
    Except String Bytes :=
  let nonce := chunkNonce a.session count
  if nonce.length ≠ 12 then .error (errNonce nonce)
  else
    match a.aead.openText a.key nonce text [] with
    | none => .error "message authentication failed"
    | some plain => .ok plain

theorem sealText_eq (a : AEADAuthenticator) (count : UInt16) (text : Bytes) :
    a.sealText count text = .ok (a.aead.sealText a.key (chunkNonce a.session count) text []) := by
  simp only [sealText]
  rw [if_neg (not_not.mpr (length_chunkNonce a.session count))]

theorem openText_sealText {a : AEADAuthenticator} (ha : a.aead.Correct) (count : UInt16)
    (text : Bytes) :
    a.openText count (a.aead.sealText a.key (chunkNonce a.session count) text []) = .ok text := by
  simp only [openText]
  rw [if_neg (not_not.mpr (length_chunkNonce a.session count)), ha.openText_sealText]

end AEADAuthenticator

/-! ## Sizes and paddings -/

/-- How far one side is: numbers drawn from the stream, texts and lengths sealed. -/
structure BodyState where
  drawn : ℕ
  count : UInt16
  lengthCount : UInt16

/-- `ChunkSizeEncoder` and `ChunkSizeDecoder`: `PlainChunkSizeParser`, `ShakeSizeParser` and
    `AEADSizeParser`. -/
inductive SizeParser where
  | plain
  | shake
  | aead (auth : AEADAuthenticator)

/-- `next` of the `ShakeSizeParser`. -/
def next (shake : ℕ → UInt8) (s : BodyState) : UInt16 × BodyState :=
  (uint16 (shake (2 * s.drawn)) (shake (2 * s.drawn + 1)), { s with drawn := s.drawn + 1 })

/-- `NextPaddingLen` and `MaxPaddingLen`. -/
def shakePadding (shake : ℕ → UInt8) : PaddingLengthGenerator BodyState where
  maxPaddingLen := 64
  nextPaddingLen s := (((next shake s).1 % 64).toNat, (next shake s).2)

/-- `binary.BigEndian.Uint16`. -/
def readUint16 : Bytes → Except String UInt16
  | hi :: lo :: _ => .ok (uint16 hi lo)
  | _ => .error "index out of range"

theorem readUint16_putUint16 (n : UInt16) : readUint16 (putUint16 n) = .ok n :=
  congrArg Except.ok (uint16_putUint16 n)

namespace SizeParser

/-- `SizeBytes`. -/
def sizeBytes : SizeParser → ℕ
  | plain => 2
  | shake => 2
  | aead _ => 2 + 16

/-- `Encode`. -/
def encode (stream : ℕ → UInt8) : SizeParser → BodyState → ℕ → Bytes × BodyState
  | plain, s, size => (putUint16 (UInt16.ofNat size), s)
  | shake, s, size =>
    (putUint16 ((next stream s).1 ^^^ UInt16.ofNat size), (next stream s).2)
  | aead auth, s, size =>
    -- sealing fails for other nonces only
    ((auth.sealText s.lengthCount (putUint16 (UInt16.ofNat size - 16))).toOption.getD [],
      { s with lengthCount := s.lengthCount + 1 })

/-- `Decode`. -/
def decode (stream : ℕ → UInt8) : SizeParser → BodyState → Bytes → Except String ℕ × BodyState
  | plain, s, b => ((readUint16 b).map UInt16.toNat, s)
  | shake, s, b =>
    ((readUint16 b).map fun size => ((next stream s).1 ^^^ size).toNat, (next stream s).2)
  | aead auth, s, b =>
    ((auth.openText s.lengthCount b >>= readUint16).map fun size => (size + 16).toNat,
      { s with lengthCount := s.lengthCount + 1 })

/-- The cipher of the lengths opens what it sealed. -/
def Correct : SizeParser → Prop
  | plain => True
  | shake => True
  | aead auth => auth.aead.Correct

theorem length_encode {p : SizeParser} (hp : p.Correct) (stream : ℕ → UInt8) (s : BodyState)
    (size : ℕ) : (p.encode stream s size).1.length = p.sizeBytes := by
  cases p with
  | plain => rfl
  | shake => rfl
  | aead auth =>
    simp only [encode, auth.sealText_eq]
    exact hp.length_sealText _ _ _ _

theorem decode_encode {p : SizeParser} (hp : p.Correct) (stream : ℕ → UInt8) (s : BodyState)
    {size : ℕ} (hsize : size < 65536) :
    p.decode stream s (p.encode stream s size).1 = (.ok size, (p.encode stream s size).2) := by
  have hof : (UInt16.ofNat size).toNat = size := UInt16.toNat_ofNat_of_lt' hsize
  cases p with
  | plain =>
    simp only [encode, decode, readUint16_putUint16, Except.map, hof]
  | shake =>
    -- the mask cancels
    have hmask : (next stream s).1 ^^^ ((next stream s).1 ^^^ UInt16.ofNat size) =
        UInt16.ofNat size := by
      rw [← UInt16.xor_assoc, UInt16.xor_self, UInt16.zero_xor]
    simp only [encode, decode, readUint16_putUint16, Except.map, hmask, hof]
  | aead auth =>
    simp only [encode, decode, auth.sealText_eq, Except.toOption, Option.getD_some,
      AEADAuthenticator.openText_sealText hp, bind, Except.bind, readUint16_putUint16, Except.map,
      UInt16.sub_add_cancel, hof]

end SizeParser

/-- What a writer and a reader of a body are given. -/
def bodyLink (stream : ℕ → UInt8) (auth : AEADAuthenticator) (p : SizeParser) (padding : Bool) :
    Link BodyState where
  overhead := 16
  sizeBytes := p.sizeBytes
  padding := if padding then some (shakePadding stream) else none
  encodeSize := p.encode stream
  decodeSize := p.decode stream
  sealText s text := (auth.sealText s.count text, { s with count := s.count + 1 })
  openText s text := (auth.openText s.count text, { s with count := s.count + 1 })

section Link

variable {stream : ℕ → UInt8} {auth : AEADAuthenticator} {p : SizeParser} {padding : Bool}

theorem bodyLink_paddingLen_le (s : BodyState) :
    ((bodyLink stream auth p padding).paddingLen s).1 ≤
      (bodyLink stream auth p padding).maxPadding := by
  cases padding with
  | false => exact Nat.le_refl 0
  | true =>
    show ((next stream s).1 % 64).toNat ≤ 64
    rw [UInt16.toNat_mod]
    have hlt := Nat.mod_lt (next stream s).1.toNat (show 0 < 64 by decide)
    exact Nat.le_of_lt hlt

/-- The two sides of a body agree. -/
theorem bodyLink_lawful (hauth : auth.aead.Correct) (hp : p.Correct) :
    Lawful (bodyLink stream auth p padding) where
  sizeBytes_pos := by cases p <;> exact Nat.succ_pos _
  paddingLen_le := bodyLink_paddingLen_le
  length_encodeSize := p.length_encode hp stream
  decodeSize_encodeSize s _ _ hlt := p.decode_encode hp stream s hlt
  openText_sealText s x := by
    refine ⟨auth.aead.sealText auth.key (chunkNonce auth.session s.count) x [],
      { s with count := s.count + 1 }, ?_, hauth.length_sealText _ _ _ _, ?_⟩
    · exact Prod.ext (auth.sealText_eq s.count x) rfl
    · exact Prod.ext (AEADAuthenticator.openText_sealText hauth s.count x) rfl

/-- Sizes, overhead and padding leave room in a buffer. -/
theorem bodyLink_roomy : AuthenticationWriter.Roomy (bodyLink stream auth p padding) := by
  have hbytes : p.sizeBytes ≤ 18 := by cases p <;> simp only [SizeParser.sizeBytes] <;> omega
  have hmax : (bodyLink stream auth p padding).maxPadding ≤ 64 := by
    cases padding with
    | false => exact Nat.zero_le 64
    | true => exact Nat.le_refl 64
  show p.sizeBytes + 16 + (bodyLink stream auth p padding).maxPadding < 8192
  omega

end Link

/-! ## The options of a request -/

def optionChunkMasking : UInt8 := 0x04

def optionGlobalPadding : UInt8 := 0x08

def optionAuthenticatedLength : UInt8 := 0x10

/-- `Has` of a bit mask. -/
def RequestHeader.has (request : RequestHeader) (bit : UInt8) : Bool := request.option &&& bit != 0

/-- `TransferType` of the command: packets for UDP only. -/
def RequestHeader.transferType (request : RequestHeader) : TransferType :=
  if request.command = 2 then .packet else .stream

def authLenPath : Bytes := "auth_len".toUTF8.toList

/-- What `EncodeRequestBody` and `DecodeRequestBody` make of the options. -/
def requestBodyLink (c : BodyCrypto) (session : BodySession) (request : RequestHeader) :
    Except String (Link BodyState) :=
  let masked := request.has optionChunkMasking
  let padding := request.has optionGlobalPadding
  -- `PlainChunkSizeParser` generates no paddings
  if padding && !masked then .error "invalid option: RequestOptionGlobalPadding"
  else
    let sized (aead : Aead) (key lengthKey : Bytes) : Link BodyState :=
      let sizeParser :=
        if request.has optionAuthenticatedLength then .aead ⟨aead, lengthKey, session⟩
        else if masked then .shake
        else .plain
      bodyLink (c.shake128 session.requestBodyIV) ⟨aead, key, session⟩ sizeParser padding
    let lengthKey := c.kdf16 session.requestBodyKey authLenPath
    match request.security with
    | .aes128Gcm => .ok (sized c.aesGcm session.requestBodyKey lengthKey)
    | .chacha20Poly1305 =>
      .ok (sized c.chacha20Poly1305 (generateChacha20Poly1305Key c session.requestBodyKey)
        (generateChacha20Poly1305Key c lengthKey))
    | _ => .error "invalid option: Security"

/-- Where both sides start. -/
def BodyState.start : BodyState := ⟨0, 0, 0⟩

/-- `EncodeRequestBody`. -/
def encodeRequestBody (c : BodyCrypto) (session : BodySession) (request : RequestHeader)
    (random : ℕ → UInt8) : Except String (Link BodyState × AuthenticationWriter BodyState) :=
  (requestBodyLink c session request).map fun l => (l, ⟨.start, random⟩)

/-- `DecodeRequestBody`. -/
def decodeRequestBody (c : BodyCrypto) (session : BodySession) (request : RequestHeader)
    (reader : BufferedReader) : Except String (Link BodyState × AuthenticationReader BodyState) :=
  (requestBodyLink c session request).map fun l => (l, .new .start reader)

/-- Options that are accepted give a link whose two sides agree. -/
theorem requestBodyLink_spec {c : BodyCrypto} (hc : c.Correct) {session : BodySession}
    {request : RequestHeader} {l : Link BodyState} (h : requestBodyLink c session request = .ok l) :
    Lawful l ∧ AuthenticationWriter.Roomy l := by
  have hparser : ∀ {aead : Aead} {key : Bytes}, aead.Correct →
      SizeParser.Correct
        (if request.has optionAuthenticatedLength then .aead ⟨aead, key, session⟩
        else if request.has optionChunkMasking then .shake
        else .plain) := by
    intro aead key haead
    cases request.has optionAuthenticatedLength
    · cases request.has optionChunkMasking <;> exact trivial
    · exact haead
  simp only [requestBodyLink] at h
  split at h
  · cases h
  · cases hsecurity : request.security with
    | unknown => rw [hsecurity] at h; cases h
    | auto => rw [hsecurity] at h; cases h
    | aes128Gcm =>
      rw [hsecurity] at h
      cases h
      exact ⟨bodyLink_lawful hc.aesGcm (hparser hc.aesGcm), bodyLink_roomy⟩
    | chacha20Poly1305 =>
      rw [hsecurity] at h
      cases h
      exact ⟨bodyLink_lawful hc.chacha20Poly1305 (hparser hc.chacha20Poly1305), bodyLink_roomy⟩

/-- Both sides are given the same link. -/
theorem encodeRequestBody_ok {c : BodyCrypto} {session : BodySession} {request : RequestHeader}
    {random : ℕ → UInt8} {l : Link BodyState} {w : AuthenticationWriter BodyState}
    (h : encodeRequestBody c session request random = .ok (l, w)) :
    requestBodyLink c session request = .ok l ∧ w.state = .start ∧
      ∀ reader, decodeRequestBody c session request reader = .ok (l, .new .start reader) := by
  rw [encodeRequestBody] at h
  cases hlink : requestBodyLink c session request with
  | error e => rw [hlink] at h; cases h
  | ok l' =>
    rw [hlink] at h
    cases h
    exact ⟨rfl, rfl, fun reader => by rw [decodeRequestBody, hlink]; rfl⟩

/-! ## Streams -/

/-- A cipher that puts a tag of zeros behind the text. -/
def zeroTag : Aead where
  sealText _ _ text _ := text ++ List.replicate 16 0
  openText _ _ text _ := if 16 ≤ text.length then some (text.take (text.length - 16)) else none

theorem zeroTag_correct : zeroTag.Correct where
  length_sealText _ _ text _ := by
    rw [zeroTag, length_append, length_replicate]
  openText_sealText _ _ text _ := by
    have hlen : (text ++ replicate 16 (0 : UInt8)).length = text.length + 16 := by
      rw [length_append, length_replicate]
    simp only [zeroTag, hlen]
    rw [if_pos (Nat.le_add_left 16 _), Nat.add_sub_cancel, take_left' rfl]

/-- Ciphers for runs on fixed inputs; the numbers drawn are 0, 256, 512 and so on. -/
def zeroTagCrypto : BodyCrypto where
  aesGcm := zeroTag
  chacha20Poly1305 := zeroTag
  md5 _ := []
  kdf16 _ _ := []
  shake128 _ i := if i % 2 = 0 then UInt8.ofNat (i / 2) else 0

theorem zeroTagCrypto_correct : zeroTagCrypto.Correct := ⟨zeroTag_correct, zeroTag_correct⟩

def zeroSession : BodySession := ⟨[], List.replicate 16 0, rfl⟩

def zeroRequest (option command : UInt8) : RequestHeader :=
  ⟨1, option, .aes128Gcm, command, .domain [], 0⟩

/-- The peer of a writer of packets reads the packets whose chunk fits, one buffer each, in every
    run in which no packet is too large while there is padding. -/
theorem packets_in_step {c : BodyCrypto} (hc : c.Correct) {session : BodySession}
    {request : RequestHeader} (hpacket : request.transferType = .packet) {random : ℕ → UInt8}
    {l : Link BodyState} {w : AuthenticationWriter BodyState}
    (hencode : encodeRequestBody c session request random = .ok (l, w))
    (calls : List (List Bytes)) (hne : ∀ mb ∈ calls, mb.flatten ≠ [])
    (hsteady : w.Steady l calls.flatten) :
    ∃ bytes, w.writeAll l request.transferType calls = some (.ok bytes) ∧
      ∀ reader : BufferedReader, reader.available = bytes →
        ∃ r outs, decodeRequestBody c session request reader = .ok (l, r) ∧
          outs.flatten = w.fitting l calls.flatten ∧
          ∀ fuel, outs.length < fuel → r.readAll l fuel = (outs, some .eof) := by
  obtain ⟨hlink, hstart, hdecode⟩ := encodeRequestBody_ok hencode
  obtain ⟨hlawful, -⟩ := requestBodyLink_spec hc hlink
  obtain ⟨bytes, hwrite, hwire⟩ := writeAll_packet hlawful w hne hsteady
  refine ⟨bytes, by rw [hpacket]; exact hwrite, fun reader havailable => ?_⟩
  rw [hstart, ← havailable] at hwire
  obtain ⟨outs, houts, hread⟩ := AuthenticationReader.readAll_wire hlawful hwire
  exact ⟨_, outs, hdecode reader, houts, hread⟩

/-- The link of packets with masks and padding. -/
def zeroLink : Link BodyState :=
  bodyLink (zeroTagCrypto.shake128 zeroSession.requestBodyIV) ⟨zeroTag, [], zeroSession⟩ .shake true

def zeroWriter (drawn : ℕ) : AuthenticationWriter BodyState := ⟨⟨drawn, 0, 0⟩, fun _ => 7⟩

theorem packets_in_step_threePackets :
    ∃ bytes, (zeroWriter 0).writeAll zeroLink .packet [[[1]], [[2], [3, 4]]] = some (.ok bytes) ∧
      ∀ reader : BufferedReader, reader.available = bytes →
        ∃ r outs,
          decodeRequestBody zeroTagCrypto zeroSession (zeroRequest 0x0c 2) reader =
            .ok (zeroLink, r) ∧
          outs.flatten = (zeroWriter 0).fitting zeroLink [[1], [2], [3, 4]] ∧
          ∀ fuel, outs.length < fuel → r.readAll zeroLink fuel = (outs, some .eof) :=
  packets_in_step zeroTagCrypto_correct (show (zeroRequest 0x0c 2).transferType = .packet from rfl)
    (show encodeRequestBody zeroTagCrypto zeroSession (zeroRequest 0x0c 2) (fun _ => 7) =
      .ok (zeroLink, zeroWriter 0) from rfl)
    [[[1]], [[2], [3, 4]]] (by decide)
    ⟨.inr (by decide), .inr (by decide), .inr (by decide), trivial⟩

/-- A packet of 8192 bytes takes the first number that is drawn. -/
theorem sealChunk_large : ∃ e,
    (zeroWriter 0).sealChunk zeroLink (List.replicate 8192 0) = (.error e, zeroWriter 1) := by
  refine ⟨_, sealChunk_too_large _ _ ?_⟩
  rw [length_replicate]
  decide

/-- With masks and padding, a packet of 8192 bytes that is left out makes the next one, which fits,
    unreadable: the writer has drawn one number more than the reader. -/
theorem packet_lost :
    encodeRequestBody zeroTagCrypto zeroSession (zeroRequest 0x0c 2) (fun _ => 7) =
        .ok (zeroLink, zeroWriter 0) ∧
      (zeroRequest 0x0c 2).transferType = .packet ∧
      (zeroWriter 0).fitting zeroLink [List.replicate 8192 0, [1]] = [[1]] ∧
      ∃ bytes r, (zeroWriter 0).writeAll zeroLink .packet [[List.replicate 8192 0], [[1]]] =
          some (.ok bytes) ∧
        decodeRequestBody zeroTagCrypto zeroSession (zeroRequest 0x0c 2) ⟨[], [bytes], []⟩ =
          .ok (zeroLink, r) ∧
        r.readAll zeroLink 2 = ([], some errUnexpectedEOF) := by
  obtain ⟨e, hseal⟩ := sealChunk_large
  have hne : replicate 8192 (0 : UInt8) ≠ [] := by
    intro h
    have hlen := congrArg length h
    rw [length_replicate] at hlen
    exact absurd hlen (by decide)
  have hlarge : ¬ AuthenticationWriter.Fits zeroLink (zeroWriter 0).state (replicate 8192 0) := by
    rw [AuthenticationWriter.Fits, length_replicate]
    decide
  have hwrite : (zeroWriter 0).writeMultiBuffer zeroLink .packet [replicate 8192 0] =
      some (.ok [], zeroWriter 1) := by
    rw [writeMultiBuffer, if_neg (by rw [flatten_singleton]; exact hne),
      writePacket, if_neg hne, hseal]
    rfl
  refine ⟨rfl, rfl, ?_, [2, 17, 1] ++ replicate 16 0, _, ?_, rfl, ?_⟩
  · rw [fitting, if_neg hne, if_neg hlarge, hseal]
    show (zeroWriter 1).fitting zeroLink [[1]] = [[1]]
    decide
  · rw [writeAll_cons hwrite]
    rfl
  · decide

end XrayCore.Vmess
