/-
  XrayCore.FinalMask.Layer

  The header-type UDP masks, each a layer of a stack.

  A layer works in place, on a slice of an array that has room behind the slice: `WriteTo`
  finds its payload behind the room for its header and may grow the tail, `ReadFrom` leaves
  what it unmasked behind the header. A call to `append` that needs more than the capacity of
  the slice works on a copy, and the array keeps what it had.

  `encode` and `decode` are what a layer does to bytes; `writeTo_encode` and `readFrom_decode`
  say that the calls do so to the array where there is room for it.
-/

import XrayCore.Bytes.Memory
import XrayCore.FinalMask.Original

namespace XrayCore.FinalMask

open Bytes Wire

/-! ## Fixed headers -/

/-- `Header`: the kinds of fixed headers with their counters. -/
inductive Header
  | dns (header : Bytes) (h : 2 ≤ header.length)
  | dtls (epoch length : UInt16) (sequence : UInt32)
  | srtp (header number : UInt16)
  | utp (header extension : UInt8) (connectionID : UInt16)
  | wechat (sn : UInt32)
  | wireguard

namespace Header

/-- `Size`. -/
def size : Header → ℕ
  | dns header _ => header.length
  | dtls .. => 1 + 2 + 2 + 6 + 2
  | srtp .. => 4
  | utp .. => 4
  | wechat .. => 13
  | wireguard => 4

/-- `Serialize`, with the number that `dice.RollUint16` gives: the bytes written, and the header
    after it. -/
def serialize (roll : UInt16) : Header → Bytes × Header
  | dns header h => (putUint16 roll ++ header.drop 2, dns header h)
  | dtls epoch length sequence =>
    let next := length + 17
    ([23, 254, 253] ++ putUint16 epoch ++ [0, 0] ++ putUint32 sequence ++ putUint16 length,
      dtls epoch (if next > 100 then next - 50 else next) (sequence + 1))
  | srtp header number => (putUint16 header ++ putUint16 (number + 1), srtp header (number + 1))
  | utp header extension connectionID =>
    (putUint16 connectionID ++ [header, extension], utp header extension connectionID)
  | wechat sn =>
    ([0xa1, 0x08] ++ putUint32 (sn + 1) ++ [0x00, 0x10, 0x11, 0x18, 0x30, 0x22, 0x30],
      wechat (sn + 1))
  | wireguard => ([0x04, 0x00, 0x00, 0x00], wireguard)

/-- A header is written into the room there is for it. -/
theorem length_serialize (h : Header) (roll : UInt16) :
    (h.serialize roll).1.length = h.size := by
  cases h with
  | dns header hlength =>
    simp only [serialize, size, List.length_append, length_putUint16, List.length_drop]
    omega
  | _ => rfl

theorem size_serialize (h : Header) (roll : UInt16) : (h.serialize roll).2.size = h.size := by
  cases h <;> rfl

end Header

/-! ## Layers -/

/-- `crypto.NewAesGcm` of the hash of a password, and the key that `keyLocked` hashes from a
    pre-shared key and a salt. -/
structure MaskCiphers where
  aeadSeal : Bytes → Bytes → Bytes → Bytes
  aeadOpen : Bytes → Bytes → Bytes → Option Bytes
  salamanderKey : Bytes → Bytes → Bytes

/-- `Open` inverts `Seal`, which adds a tag of sixteen bytes. -/
structure MaskCiphers.Lawful (c : MaskCiphers) : Prop where
  hopen : ∀ password nonce plain, c.aeadOpen password nonce (c.aeadSeal password nonce plain)
    = some plain
  hlength : ∀ password nonce plain, (c.aeadSeal password nonce plain).length = plain.length + 16

inductive Layer
  | original
  | aes128gcm (password : Bytes)
  | salamander (psk : Bytes)
  | header (h : Header)

/-- The random numbers of one `WriteTo`. -/
structure Draw where
  nonce : Vector UInt8 12
  salt : Vector UInt8 8
  roll : UInt16

/-- The loops of `Obfuscate` and `Deobfuscate`. -/
def xorKey (key xs : Bytes) : Bytes := xs.mapIdx fun i c => c ^^^ key.getD (i % 32) 0

@[simp] theorem length_xorKey (key xs : Bytes) : (xorKey key xs).length = xs.length :=
  List.length_mapIdx

theorem xorKey_xorKey (key xs : Bytes) : xorKey key (xorKey key xs) = xs := by
  apply List.ext_getElem
  · rw [length_xorKey, length_xorKey]
  · intro i _ _
    simp [xorKey]

namespace Layer

/-- `Size`. -/
def size : Layer → ℕ
  | original => 6
  | aes128gcm _ => 12
  | salamander _ => 8
  | header h => h.size

/-- By how much a layer grows the tail. -/
def overhead : Layer → ℕ
  | aes128gcm _ => 16
  | _ => 0

/-- How far `ReadFrom` appends behind its slice. -/
def fillsTo (l : Layer) (len : ℕ) : ℕ :=
  match l with
  | original => (fill len).length
  | _ => 0

/-- Two ends of a connection have the same layer, their counters apart. -/
def Matches : Layer → Layer → Prop
  | original, original => True
  | aes128gcm password, aes128gcm password' => password = password'
  | salamander psk, salamander psk' => psk = psk'
  | header h, header h' => h.size = h'.size
  | _, _ => False

variable (c : MaskCiphers)

/-- What a layer makes of its payload. -/
def encode (l : Layer) (draw : Draw) (content : Bytes) : Bytes :=
  match l with
  | original => xorfwd (plainFrame content)
  | aes128gcm password => draw.nonce.toList ++ c.aeadSeal password draw.nonce.toList content
  | salamander psk => draw.salt.toList ++ xorKey (c.salamanderKey psk draw.salt.toList) content
  | header h => (h.serialize draw.roll).1 ++ content

/-- What a layer finds in a packet. -/
def decode (l : Layer) (packet : Bytes) : Option Bytes :=
  match l with
  | original =>
    if checkFrame (xorbkd packet) = some (.ok ()) then some ((xorbkd packet).drop 6) else none
  | aes128gcm password => c.aeadOpen password (packet.take 12) (packet.drop 12)
  | salamander psk => some (xorKey (c.salamanderKey psk (packet.take 8)) (packet.drop 8))
  | header h => some (packet.drop h.size)

/-- `WriteTo` on the slice of the array at `start`: what it returns, the array and the layer after
    it. -/
def writeTo (l : Layer) (draw : Draw) (mem : Bytes) (start len : ℕ) : ℕ × Bytes × Layer :=
  match l with
  | original =>
    let frame := plainFrame (sub mem (start + 6) (len - 6))
    let mem := blit mem start frame
    if start + len + (fill len).length ≤ mem.length then
      (len, blit mem start (xorfwd (frame ++ fill len)), original)
    else (len, mem, original)
  | aes128gcm password =>
    let nonce := draw.nonce.toList
    let mem := blit mem start nonce
    let ciphertext := c.aeadSeal password nonce (sub mem (start + 12) (len - 12))
    if start + len + 16 ≤ mem.length then
      (len + 16, blit mem (start + 12) ciphertext, aes128gcm password)
    else (len + 16, mem, aes128gcm password)
  | salamander psk =>
    let salt := draw.salt.toList
    let mem := blit mem start salt
    let masked := xorKey (c.salamanderKey psk salt) (sub mem (start + 8) (len - 8))
    (len, blit mem (start + 8) masked, salamander psk)
  | header h =>
    let (bytes, h) := h.serialize draw.roll
    (len, blit mem start bytes, header h)

/-- `ReadFrom` on the slice of the array at `start`: what it returns and the array after it, or an
    error; `none` where it panics. -/
def readFrom (l : Layer) (mem : Bytes) (start len : ℕ) :
    Option (Except String (ℕ × Bytes)) :=
  match l with
  | original =>
    let dst := xorbkd (sub mem start len ++ fill len)
    let mem := if start + len + (fill len).length ≤ mem.length then blit mem start dst else mem
    match checkFrame (dst.take len) with
    | none => none
    | some (.error e) => some (.error e)
    | some (.ok ()) => some (.ok (len - 6, mem))
  | aes128gcm password =>
    if len < 12 then none
    else match c.aeadOpen password (sub mem start 12) (sub mem (start + 12) (len - 12)) with
      | none => some (.error "cipher: message authentication failed")
      | some plain => some (.ok (len - 12 - 16, blit mem (start + 12) plain))
  | salamander psk =>
    if len < 8 then none
    else
      let key := c.salamanderKey psk (sub mem start 8)
      some (.ok (len - 8, blit mem (start + 8) (xorKey key (sub mem (start + 8) (len - 8)))))
  | header h => if len < h.size then none else some (.ok (len - h.size, mem))

/-! ## Bytes -/

variable {c}

theorem length_encode (hc : c.Lawful) (l : Layer) (draw : Draw) (content : Bytes) :
    (l.encode c draw content).length = l.size + content.length + l.overhead := by
  cases l with
  | original => simp [encode, size, overhead, Nat.add_comm]
  | aes128gcm password =>
    simp only [encode, size, overhead, List.length_append, hc.hlength, Vector.length_toList]
    omega
  | salamander psk => simp [encode, size, overhead]
  | header h => simp [encode, size, overhead, Header.length_serialize]

/-- A layer finds what the layer of the other end was given. -/
theorem decode_encode (hc : c.Lawful) {l peer : Layer} (hpeer : l.Matches peer) (draw : Draw)
    {content : Bytes} (hlength : content.length < 65536) :
    peer.decode c (l.encode c draw content) = some content := by
  cases l with
  | original =>
    obtain rfl : peer = original := by cases peer <;> first | rfl | exact hpeer.elim
    rw [encode, decode, xorbkd_xorfwd, if_pos (checkFrame_plainFrame hlength), drop_plainFrame]
  | aes128gcm password =>
    obtain rfl : peer = aes128gcm password := by
      cases peer <;> first | exact hpeer.elim | exact congrArg aes128gcm (Eq.symm hpeer)
    rw [encode, decode, List.take_left' Vector.length_toList,
      List.drop_left' Vector.length_toList, hc.hopen]
  | salamander psk =>
    obtain rfl : peer = salamander psk := by
      cases peer <;> first | exact hpeer.elim | exact congrArg salamander (Eq.symm hpeer)
    rw [encode, decode, List.take_left' Vector.length_toList,
      List.drop_left' Vector.length_toList, xorKey_xorKey]
  | header h =>
    cases peer with
    | header h' =>
      have hsize : (h.serialize draw.roll).1.length = h'.size :=
        (h.length_serialize draw.roll).trans hpeer
      rw [encode, decode, List.drop_left' hsize]
    | _ => exact hpeer.elim

theorem matches_size {l peer : Layer} (h : l.Matches peer) :
    l.size = peer.size ∧ l.overhead = peer.overhead ∧ l.fillsTo = peer.fillsTo := by
  cases l with
  | header h' =>
    cases peer with
    | header h'' => exact ⟨h, rfl, rfl⟩
    | _ => exact h.elim
  | _ => cases peer <;> first | exact h.elim | exact ⟨rfl, rfl, rfl⟩

theorem fillsTo_le (l : Layer) (len : ℕ) : l.fillsTo len ≤ 3 := by
  cases l with
  | original =>
    simp only [fillsTo, fill, List.length_replicate]
    omega
  | _ => exact Nat.zero_le 3

/-! ## In the array -/

/-- `WriteTo` counts the tail of the layer. -/
theorem writeTo_fst (l : Layer) (draw : Draw) (mem : Bytes) (start len : ℕ) :
    (l.writeTo c draw mem start len).1 = len + l.overhead := by
  cases l with
  | original =>
    rw [writeTo]
    split <;> rfl
  | aes128gcm password =>
    rw [writeTo]
    split <;> rfl
  | _ => rfl

/-- The layer after a `WriteTo` is the same up to its counters. -/
theorem writeTo_matches {l peer : Layer} (h : l.Matches peer) (draw : Draw) (mem : Bytes)
    (start len : ℕ) : (l.writeTo c draw mem start len).2.2.Matches peer := by
  cases l with
  | original =>
    rw [writeTo]
    split <;> exact h
  | aes128gcm password =>
    rw [writeTo]
    split <;> exact h
  | salamander psk => exact h
  | header h' =>
    cases peer with
    | header h'' => exact (h'.size_serialize draw.roll).trans h
    | _ => exact h.elim

theorem length_writeTo (hc : c.Lawful) (l : Layer) (draw : Draw) {mem : Bytes}
    {start len : ℕ} (hsize : l.size ≤ len) (hlen : start + len ≤ mem.length) :
    (l.writeTo c draw mem start len).2.1.length = mem.length := by
  cases l with
  | original =>
    have hcontent : (sub mem (start + 6) (len - 6)).length + 6 = len := by
      simp only [size] at hsize
      rw [length_sub (by omega)]
      omega
    have hframe : (blit mem start (plainFrame (sub mem (start + 6) (len - 6)))).length
        = mem.length := length_blit (by rw [length_plainFrame]; omega)
    rw [writeTo]
    split
    · next hroom =>
      dsimp only
      rw [length_blit, hframe]
      rw [length_xorfwd, List.length_append, length_plainFrame]
      omega
    · exact hframe
  | aes128gcm password =>
    simp only [size] at hsize
    have hnonce : (blit mem start draw.nonce.toList).length = mem.length :=
      length_blit (by rw [Vector.length_toList]; omega)
    rw [writeTo]
    split
    · next hroom =>
      dsimp only
      rw [length_blit, hnonce]
      rw [hc.hlength, length_sub (by omega)]
      omega
    · exact hnonce
  | salamander psk =>
    simp only [size] at hsize
    have hsalt : (blit mem start draw.salt.toList).length = mem.length :=
      length_blit (by rw [Vector.length_toList]; omega)
    rw [writeTo]
    dsimp only
    rw [length_blit, hsalt]
    rw [length_xorKey, length_sub (by omega)]
    omega
  | header h =>
    simp only [size] at hsize
    have hbytes := h.length_serialize draw.roll
    rw [writeTo]
    exact length_blit (by omega)

/-- `WriteTo` puts into the array what the layer makes of its payload. -/
theorem writeTo_encode (hc : c.Lawful) (l : Layer) (draw : Draw) {mem content : Bytes}
    {start : ℕ} (hcontent : sub mem (start + l.size) content.length = content)
    (hroom : start + l.size + content.length + l.overhead + 3 ≤ mem.length) :
    sub (l.writeTo c draw mem start (content.length + l.size)).2.1 start
      (l.encode c draw content).length = l.encode c draw content := by
  have hlength := length_encode hc l draw content
  cases l with
  | original =>
    simp only [size, overhead] at hcontent hroom
    have hfill := fillsTo_le original (content.length + 6)
    simp only [fillsTo] at hfill
    have hframe : (blit mem start (plainFrame content)).length = mem.length :=
      length_blit (by rw [length_plainFrame]; omega)
    have hmasked : (xorfwd (plainFrame content ++ fill (content.length + 6))).length
        = content.length + 6 + (fill (content.length + 6)).length := by
      rw [length_xorfwd, List.length_append, length_plainFrame]
    simp only [writeTo, size, Nat.add_sub_cancel, hcontent]
    rw [if_pos (by omega)]
    -- the bytes that fill the last word stand behind the packet
    have hfront : (xorfwd (plainFrame content ++ fill (content.length + 6))).take
        (content.length + 6) = xorfwd (plainFrame content) := by
      rw [← length_plainFrame, take_xorfwd]
    rw [encode, length_xorfwd, length_plainFrame, ← hfront]
    exact sub_front (sub_blit (by omega)) (by omega)
  | aes128gcm password =>
    simp only [size, overhead] at hcontent hroom
    have hnonce : draw.nonce.toList.length = 12 := Vector.length_toList
    have hkept : sub (blit mem start draw.nonce.toList) (start + 12) content.length = content :=
      (sub_blit_after (by omega) (by omega)).trans hcontent
    have hmem : (blit mem start draw.nonce.toList).length = mem.length := length_blit (by omega)
    have hsealed := hc.hlength password draw.nonce.toList content
    simp only [writeTo, size, Nat.add_sub_cancel, hkept]
    rw [if_pos (by omega), encode, List.length_append, sub_append,
      sub_blit_before (by omega) (by omega), sub_blit (by omega), hnonce, sub_blit (by omega)]
  | salamander psk =>
    simp only [size, overhead] at hcontent hroom
    have hsalt : draw.salt.toList.length = 8 := Vector.length_toList
    have hkept : sub (blit mem start draw.salt.toList) (start + 8) content.length = content :=
      (sub_blit_after (by omega) (by omega)).trans hcontent
    have hmem : (blit mem start draw.salt.toList).length = mem.length := length_blit (by omega)
    have hmasked := length_xorKey (c.salamanderKey psk draw.salt.toList) content
    simp only [writeTo, size, Nat.add_sub_cancel, hkept]
    rw [encode, List.length_append, sub_append, sub_blit_before (by omega) (by omega),
      sub_blit (by omega), hsalt, sub_blit (by omega)]
  | header h =>
    simp only [size, overhead] at hcontent hroom
    have hbytes := h.length_serialize draw.roll
    simp only [writeTo]
    rw [encode, List.length_append, sub_append, sub_blit (by omega),
      sub_blit_after (by omega) (by omega), hbytes, hcontent]

/-- `ReadFrom` leaves in the array what the layer finds in the packet, where the array has room
    for what it appends. -/
theorem readFrom_decode {l : Layer} {mem packet content : Bytes} {start : ℕ}
    (hpacket : sub mem start packet.length = packet)
    (hdecode : l.decode c packet = some content)
    (hlength : packet.length = l.size + content.length + l.overhead)
    (hroom : start + packet.length + l.fillsTo packet.length ≤ mem.length) :
    ∃ mem', l.readFrom c mem start packet.length = some (.ok (content.length, mem')) ∧
      mem'.length = mem.length ∧ sub mem' (start + l.size) content.length = content := by
  cases l with
  | original =>
    simp only [size, overhead, fillsTo] at hlength hroom
    rw [decode] at hdecode
    split at hdecode
    · next hcheck =>
      obtain rfl : (xorbkd packet).drop 6 = content := Option.some.inj hdecode
      have hunmasked : (xorbkd (packet ++ fill packet.length)).length
          = packet.length + (fill packet.length).length := by
        rw [length_xorbkd, List.length_append]
      -- what was filled up stays behind the packet
      have hdrop : ((xorbkd (packet ++ fill packet.length)).drop 6).take (packet.length - 6)
          = (xorbkd packet).drop 6 := by
        rw [← List.drop_take, take_xorbkd]
      have hcontent : ((xorbkd packet).drop 6).length = packet.length - 6 := by
        rw [List.length_drop, length_xorbkd]
      refine ⟨blit mem start (xorbkd (packet ++ fill packet.length)), ?_, ?_, ?_⟩
      · simp only [readFrom, hpacket]
        rw [take_xorbkd, hcheck, if_pos hroom, hcontent]
      · exact length_blit (by omega)
      · rw [hcontent, size, ← hdrop]
        exact sub_blit_inner (by omega) (by omega)
    · cases hdecode
  | aes128gcm password =>
    simp only [size, overhead, fillsTo] at hlength hroom
    have hnonce : sub mem start 12 = packet.take 12 := sub_front hpacket (by omega)
    have hsealed : sub mem (start + 12) (packet.length - 12) = packet.drop 12 :=
      sub_rest hpacket (by omega)
    rw [decode] at hdecode
    refine ⟨blit mem (start + 12) content, ?_, length_blit (by omega), sub_blit (by omega)⟩
    rw [readFrom, if_neg (by omega), hnonce, hsealed, hdecode]
    dsimp only
    congr 3
    omega
  | salamander psk =>
    simp only [size, overhead, fillsTo] at hlength hroom
    have hsalt : sub mem start 8 = packet.take 8 := sub_front hpacket (by omega)
    have hmasked : sub mem (start + 8) (packet.length - 8) = packet.drop 8 :=
      sub_rest hpacket (by omega)
    rw [decode] at hdecode
    refine ⟨blit mem (start + 8) content, ?_, length_blit (by omega), sub_blit (by omega)⟩
    rw [readFrom, if_neg (by omega)]
    dsimp only
    rw [hsalt, hmasked, Option.some.inj hdecode]
    congr 3
    omega
  | header h =>
    simp only [size, overhead, fillsTo] at hlength hroom
    obtain rfl : packet.drop h.size = content := Option.some.inj hdecode
    have hcontent : (packet.drop h.size).length = packet.length - h.size := List.length_drop
    refine ⟨mem, ?_, rfl, ?_⟩
    · rw [readFrom, if_neg (by omega), hcontent]
    · rw [hcontent, size]
      exact sub_rest hpacket (by omega)

end Layer

end XrayCore.FinalMask
