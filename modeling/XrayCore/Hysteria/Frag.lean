/-
  XrayCore.Hysteria.Frag

  UDP messages of Hysteria that are cut to the size of a datagram.

  The number of fragments is kept in a byte, and the loop that fills them runs over the
  whole payload: it leaves the slice of fragments exactly if more than 255 are needed
  (`fragUDPMessage_cases`).  Otherwise every fragment fits, and together they have the data.
-/

import XrayCore.Wire.Parser

namespace XrayCore.Hysteria

open Wire List

/-- `UDPMessage`. -/
structure UDPMessage where
  sessionID : UInt32
  packetID : UInt16
  fragID : UInt8
  fragCount : UInt8
  addr : Bytes
  data : Bytes
deriving DecidableEq

namespace UDPMessage

/-- The zero value. -/
def zero : UDPMessage := ⟨0, 0, 0, 0, [], []⟩

variable (m : UDPMessage)

/-- How many fragments are needed. -/
def fragsNeeded (maxPayload : ℕ) : ℕ := (m.data.length + maxPayload - 1) / maxPayload

/-- The loop of `FragUDPMessage` over the rest of the payload, `none` where an index is out of
    range. -/
def fragLoop (maxPayload : ℕ) (hpos : 0 < maxPayload) (fragCount : UInt8) (rest : Bytes)
    (fragID : UInt8) (frags : List UDPMessage) : Option (List UDPMessage) :=
  if hrest : rest = [] then some frags
  else if fragID.toNat < frags.length then
    fragLoop maxPayload hpos fragCount (rest.drop maxPayload) (fragID + 1)
      (frags.set fragID.toNat { m with fragID, fragCount, data := rest.take maxPayload })
  else none
termination_by rest.length
decreasing_by
  have := List.length_pos_iff.mpr hrest
  rw [List.length_drop]
  omega

/-- A fragment, of so many bytes. -/
def frag (maxPayload i : ℕ) : UDPMessage :=
  { m with
    fragID := UInt8.ofNat i
    fragCount := UInt8.ofNat (m.fragsNeeded maxPayload)
    data := (m.data.drop (i * maxPayload)).take maxPayload }

/-- All fragments. -/
def frags (maxPayload : ℕ) : List UDPMessage :=
  (List.range (m.fragsNeeded maxPayload)).map (m.frag maxPayload)

/-! ## The loop -/

variable {m} {p : ℕ}

theorem toNat_ofNat_of_le {j : ℕ} (h : j ≤ 255) : (UInt8.ofNat j).toNat = j := by
  rw [UInt8.toNat_ofNat']
  exact Nat.mod_eq_of_lt (by omega)

theorem ofNat_add_one (j : ℕ) : UInt8.ofNat j + 1 = UInt8.ofNat (j + 1) := by
  rw [UInt8.ofNat_add]
  rfl

theorem lt_fragsNeeded_iff (m : UDPMessage) (hpos : 0 < p) (i : ℕ) :
    i < m.fragsNeeded p ↔ i * p < m.data.length := by
  rw [fragsNeeded, ← Nat.succ_le_iff, Nat.le_div_iff_mul_le hpos, Nat.succ_mul]
  omega

theorem drop_ne_nil (hpos : 0 < p) {i : ℕ} (hi : i < m.fragsNeeded p) :
    m.data.drop (i * p) ≠ [] := by
  have := (lt_fragsNeeded_iff m hpos i).mp hi
  exact fun h => absurd (drop_eq_nil_iff.mp h) (by omega)

/-- From some fragment on, with those before it in their places. -/
theorem fragLoop_of_le (hpos : 0 < p) (hmost : m.fragsNeeded p ≤ 255) (k : ℕ) :
    ∀ j, j + k = m.fragsNeeded p →
      m.fragLoop p hpos (UInt8.ofNat (m.fragsNeeded p)) (m.data.drop (j * p)) (UInt8.ofNat j)
        ((List.range j).map (m.frag p) ++ List.replicate k zero) = some (m.frags p) := by
  induction k with
  | zero =>
    intro j hj
    have hend : m.data.drop (j * p) = [] := by
      have := (lt_fragsNeeded_iff m hpos j).not.mp (by omega)
      exact drop_eq_nil_of_le (by omega)
    rw [fragLoop, dif_pos hend, replicate_zero, append_nil, frags, ← hj, Nat.add_zero]
  | succ k ih =>
    intro j hj
    have hindex : (UInt8.ofNat j).toNat = j := toNat_ofNat_of_le (by omega)
    have hset : ∀ x : UDPMessage, ((range j).map (m.frag p) ++
        replicate (k + 1) zero).set j x =
          (range j).map (m.frag p) ++ x :: replicate k zero := by
      intro x
      have hlen : ((range j).map (m.frag p)).length = j := by
        rw [length_map, length_range]
      rw [set_append_right _ _ (by omega), hlen, Nat.sub_self]
      rfl
    rw [fragLoop, dif_neg (drop_ne_nil hpos (by omega)), hindex, if_pos, ofNat_add_one, hset,
      drop_drop, ← Nat.succ_mul]
    · have hstep := ih (j + 1) (by omega)
      rw [range_succ, map_append, append_assoc] at hstep
      exact hstep
    · rw [length_append, length_map, length_range, length_replicate]
      omega

/-- With fewer places than fragments the loop runs out of them. -/
theorem fragLoop_of_lt (hpos : 0 < p) (fragCount : UInt8) (k : ℕ) :
    ∀ j (places : List UDPMessage), places.length = j + k → j + k < m.fragsNeeded p → j + k ≤ 255 →
      m.fragLoop p hpos fragCount (m.data.drop (j * p)) (UInt8.ofNat j) places = none := by
  induction k with
  | zero =>
    intro j places hlen hlt hbyte
    have hindex : (UInt8.ofNat j).toNat = j := toNat_ofNat_of_le (by omega)
    rw [fragLoop, dif_neg (drop_ne_nil hpos (by omega)), if_neg (by omega)]
  | succ k ih =>
    intro j places hlen hlt hbyte
    have hindex : (UInt8.ofNat j).toNat = j := toNat_ofNat_of_le (by omega)
    rw [fragLoop, dif_neg (drop_ne_nil hpos (by omega)), if_pos (by omega), ofNat_add_one,
      drop_drop, ← Nat.succ_mul]
    exact ih (j + 1) _ (by rw [length_set]; omega) (by omega) (by omega)

/-- One after the other the fragments have the data. -/
theorem flatMap_frag (hpos : 0 < p) :
    (List.range (m.fragsNeeded p)).flatMap (fun i => (m.frag p i).data) = m.data := by
  have hbegin : ∀ n, (range n).flatMap (fun i => (m.frag p i).data) = m.data.take (n * p) := by
    intro n
    induction n with
    | zero =>
      rw [Nat.zero_mul]
      rfl
    | succ n ih =>
      rw [range_succ, flatMap_append, ih, flatMap_singleton, Nat.succ_mul,
        take_add]
      rfl
  rw [hbegin]
  have := (lt_fragsNeeded_iff m hpos (m.fragsNeeded p)).not.mp (by omega)
  exact take_of_length_le (by omega)

end UDPMessage

/-! ## Cutting -/

/-- `varintPut` of the length of a slice. -/
def varintPut (i : ℕ) : Bytes :=
  if i ≤ 63 then [UInt8.ofNat i]
  else if i ≤ 16383 then (UInt8.ofNat (i >>> 8) ||| 0x40) :: putBigEndian 1 i
  else if i ≤ 1073741823 then (UInt8.ofNat (i >>> 24) ||| 0x80) :: putBigEndian 3 i
  else (UInt8.ofNat (i >>> 56) ||| 0xc0) :: putBigEndian 7 i

/-- `quicvarint.Len` of the length of a slice: a library function that counts what is put. -/
class QuicVarint where
  len : ℕ → ℕ
  len_eq : ∀ i, len i = (varintPut i).length

/-- It is that number. -/
abbrev QuicVarint.plain : QuicVarint := ⟨fun i => (varintPut i).length, fun _ => rfl⟩

namespace UDPMessage

variable [QuicVarint] (m : UDPMessage)

/-- `HeaderSize`. -/
def headerSize : ℕ := 4 + 2 + 1 + 1 + QuicVarint.len m.addr.length + m.addr.length

/-- `Size`. -/
def size : ℕ := m.headerSize + m.data.length

/-- `Serialize`: what stands in a buffer then, of which the first bytes are left as they are;
    `none` for -1. -/
def serialize (buf : Bytes) : Option Bytes :=
  if buf.length < m.size then none
  else some (buf.take 4 ++ (putUint16 m.packetID ++ (m.fragID :: m.fragCount ::
    (varintPut m.addr.length ++ (m.addr ++ m.data)))))

theorem length_serialize {m : UDPMessage} {buf bytes : Bytes}
    (h : m.serialize buf = some bytes) : bytes.length = m.size := by
  unfold serialize at h
  split at h
  · nomatch h
  · next hlen =>
    have hfour : 4 ≤ buf.length := by
      unfold size headerSize at hlen
      omega
    rw [← Option.some.inj h]
    simp only [length_append, length_cons, length_take_of_le hfour,
      length_putUint16, ← QuicVarint.len_eq, size, headerSize]
    omega

/-- `FragUDPMessage`. -/
def fragUDPMessage (maxSize : ℕ) : Option (List UDPMessage) :=
  if m.size ≤ maxSize then some [m]
  else if hpos : 0 < maxSize - m.headerSize then
    let fragCount := UInt8.ofNat (m.fragsNeeded (maxSize - m.headerSize))
    m.fragLoop (maxSize - m.headerSize) hpos fragCount m.data 0
      (List.replicate fragCount.toNat zero)
  else some []

/-- What comes of it: the message itself if it fits; nothing if the header does not; the fragments,
    if a byte can count them; and otherwise the program stops. -/
theorem fragUDPMessage_cases (maxSize : ℕ) :
    m.size ≤ maxSize ∧ m.fragUDPMessage maxSize = some [m] ∨
    maxSize < m.size ∧ maxSize ≤ m.headerSize ∧ m.fragUDPMessage maxSize = some [] ∨
    maxSize < m.size ∧ m.headerSize < maxSize ∧ m.fragsNeeded (maxSize - m.headerSize) ≤ 255 ∧
      m.fragUDPMessage maxSize = some (m.frags (maxSize - m.headerSize)) ∨
    maxSize < m.size ∧ m.headerSize < maxSize ∧ 255 < m.fragsNeeded (maxSize - m.headerSize) ∧
      m.fragUDPMessage maxSize = none := by
  unfold fragUDPMessage
  by_cases hfits : m.size ≤ maxSize
  · exact .inl ⟨hfits, if_pos hfits⟩
  · rw [if_neg hfits]
    by_cases hpos : 0 < maxSize - m.headerSize
    · rw [dif_pos hpos]
      by_cases hmost : m.fragsNeeded (maxSize - m.headerSize) ≤ 255
      · have hloop := fragLoop_of_le hpos hmost _ 0 (Nat.zero_add _)
        rw [Nat.zero_mul, drop_zero] at hloop
        have hcount : (UInt8.ofNat (m.fragsNeeded (maxSize - m.headerSize))).toNat =
            m.fragsNeeded (maxSize - m.headerSize) := toNat_ofNat_of_le hmost
        refine .inr (.inr (.inl ⟨by omega, by omega, hmost, ?_⟩))
        dsimp only
        rw [hcount]
        exact hloop
      · have hcount : (UInt8.ofNat (m.fragsNeeded (maxSize - m.headerSize))).toNat ≤ 255 := by
          have := (UInt8.ofNat (m.fragsNeeded (maxSize - m.headerSize))).toNat_lt
          omega
        generalize UInt8.ofNat (m.fragsNeeded (maxSize - m.headerSize)) = fragCount at hcount ⊢
        have hloop := fragLoop_of_lt (m := m) hpos fragCount fragCount.toNat 0
          (replicate fragCount.toNat zero) (by rw [length_replicate, Nat.zero_add])
          (by omega) (by omega)
        rw [Nat.zero_mul, drop_zero] at hloop
        exact .inr (.inr (.inr ⟨by omega, by omega, by omega, hloop⟩))
    · exact .inr (.inl ⟨by omega, by omega, dif_neg hpos⟩)

variable {m}

theorem size_frag_le {maxSize : ℕ} (h : m.headerSize < maxSize) (i : ℕ) :
    (m.frag (maxSize - m.headerSize) i).size ≤ maxSize := by
  have hlen := length_take_le (maxSize - m.headerSize)
    (m.data.drop (i * (maxSize - m.headerSize)))
  show m.headerSize + (take _ _).length ≤ maxSize
  omega

end UDPMessage

end XrayCore.Hysteria
