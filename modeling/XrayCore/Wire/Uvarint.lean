/-
  XrayCore.Wire.Uvarint

  Unsigned numbers in groups of seven bits, the lowest first, all bytes but the last with
  the high bit set.  The reader ors the groups together in 32 bits; what was written comes
  back, whatever stands behind it (`readUvarint_uvarint`).
-/

import XrayCore.Bytes.Slice

namespace XrayCore.Wire

/-- The groups of a number, at most `n + 1` of them. -/
def uvarintGroups : ℕ → ℕ → Bytes
  | 0, x => [UInt8.ofNat x]
  | n + 1, x =>
    if x < 0x80 then [UInt8.ofNat x]
    else UInt8.ofNat (x % 0x80 + 0x80) :: uvarintGroups n (x / 0x80)

/-- `binary.AppendUvarint`: 64 bits have at most ten groups. -/
def uvarint (x : ℕ) : Bytes := uvarintGroups 9 x

/-- Reads a number of 32 bits; also how many bytes it took.  There is none if the bytes end
    within a number. -/
def readUvarint : Bytes → ℕ → ℕ → Option (ℕ × ℕ)
  | [], _, _ => none
  | c :: rest, shift, x =>
    let x := (x ||| (c.toNat % 0x80) <<< shift) % 2 ^ 32
    if c < 0x80 then some (x, 1)
    else (readUvarint rest (shift + 7) x).map fun r => (r.1, r.2 + 1)

/-- A group is put above those that were read. -/
theorem or_shiftLeft_eq {x shift : ℕ} (hx : x < 2 ^ shift) (c : ℕ) :
    x ||| c <<< shift = x + c * 2 ^ shift := by
  rw [Nat.or_comm, ← Nat.shiftLeft_add_eq_or_of_lt hx, Nat.shiftLeft_eq, Nat.add_comm]

/-- The last group. -/
theorem readUvarint_last {v x shift : ℕ} (hv : v < 0x80) (hx : x < 2 ^ shift)
    (hfits : x + v * 2 ^ shift < 2 ^ 32) (rest : Bytes) :
    readUvarint (UInt8.ofNat v :: rest) shift x = some (x + v * 2 ^ shift, 1) := by
  have htoNat : (UInt8.ofNat v).toNat = v := by
    rw [UInt8.toNat_ofNat']
    omega
  have hlast : UInt8.ofNat v < 0x80 := by
    rw [UInt8.lt_iff_toNat_lt, htoNat]
    exact hv
  rw [readUvarint, if_pos hlast, htoNat, Nat.mod_eq_of_lt hv, or_shiftLeft_eq hx,
    Nat.mod_eq_of_lt hfits]

/-- A group with others behind it. -/
theorem readUvarint_more {v x shift : ℕ} (hx : x < 2 ^ shift)
    (hfits : x + v % 0x80 * 2 ^ shift < 2 ^ 32) (rest : Bytes) :
    readUvarint (UInt8.ofNat (v % 0x80 + 0x80) :: rest) shift x =
      (readUvarint rest (shift + 7) (x + v % 0x80 * 2 ^ shift)).map fun r => (r.1, r.2 + 1) := by
  have htoNat : (UInt8.ofNat (v % 0x80 + 0x80)).toNat = v % 0x80 + 0x80 := by
    rw [UInt8.toNat_ofNat']
    omega
  have hmore : ¬ UInt8.ofNat (v % 0x80 + 0x80) < 0x80 := by
    rw [UInt8.lt_iff_toNat_lt, htoNat]
    exact Nat.not_lt.mpr (Nat.le_add_left _ _)
  have hgroup : (v % 0x80 + 0x80) % 0x80 = v % 0x80 := by omega
  rw [readUvarint, if_neg hmore, htoNat, hgroup, or_shiftLeft_eq hx, Nat.mod_eq_of_lt hfits]

theorem readUvarint_groups (n : ℕ) {v x shift : ℕ} (hv : v < 0x80 ^ (n + 1)) (hx : x < 2 ^ shift)
    (hfits : x + v * 2 ^ shift < 2 ^ 32) (rest : Bytes) :
    readUvarint (uvarintGroups n v ++ rest) shift x =
      some (x + v * 2 ^ shift, (uvarintGroups n v).length) := by
  induction n generalizing v x shift with
  | zero => exact readUvarint_last (by omega) hx hfits rest
  | succ n ih =>
    rw [uvarintGroups]
    by_cases hlast : v < 0x80
    · rw [if_pos hlast]
      exact readUvarint_last hlast hx hfits rest
    rw [if_neg hlast, List.cons_append]
    -- the group and those behind it make up the number
    have hpow : 2 ^ (shift + 7) = 0x80 * 2 ^ shift := by
      rw [Nat.pow_add, Nat.mul_comm]
    have hsplit : v * 2 ^ shift = v % 0x80 * 2 ^ shift + v / 0x80 * 2 ^ (shift + 7) := by
      rw [hpow, ← Nat.mul_assoc, ← Nat.add_mul]
      congr 1
      omega
    have hrest : v / 0x80 < 0x80 ^ (n + 1) := by
      rw [Nat.div_lt_iff_lt_mul (by decide), ← Nat.pow_succ]
      exact hv
    have hbelow : x + v % 0x80 * 2 ^ shift < 2 ^ (shift + 7) := by
      have hle : v % 0x80 * 2 ^ shift ≤ 0x7f * 2 ^ shift := Nat.mul_le_mul_right _ (by omega)
      rw [hpow]
      omega
    rw [readUvarint_more hx (by omega), ih hrest hbelow (by omega), Option.map_some,
      List.length_cons]
    rw [Nat.add_assoc, ← hsplit]

/-- What was written is read. -/
theorem readUvarint_uvarint {x : ℕ} (hx : x < 2 ^ 32) (rest : Bytes) :
    readUvarint (uvarint x ++ rest) 0 0 = some (x, (uvarint x).length) := by
  have h := @readUvarint_groups 9 x 0 0
    (Nat.lt_trans hx (by decide)) (by decide) (by omega) rest
  rwa [Nat.pow_zero, Nat.mul_one, Nat.zero_add] at h

example : readUvarint (uvarint 300 ++ [7]) 0 0 = some (300, 2) := by decide

end XrayCore.Wire
