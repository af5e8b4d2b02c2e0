/-
  XrayCore.Bytes.Counter

  A counter of a fixed number of bytes, the highest first.

  `increase` adds one and carries; only the highest value goes back to zero.
-/

import XrayCore.Bytes.Slice

namespace XrayCore.Bytes

open List

/-- The number that the bits of the bytes are, those of the first byte on top. -/
def value : Bytes → ℕ
  | [] => 0
  | b :: bs => b.toNat * 2 ^ (8 * bs.length) + value bs

theorem value_lt (bs : Bytes) : value bs < 2 ^ (8 * bs.length) := by
  induction bs with
  | nil => exact Nat.one_pos
  | cons b bs ih =>
    have hb : b.toNat + 1 ≤ 2 ^ 8 := b.toNat_lt
    calc value (b :: bs) < b.toNat * 2 ^ (8 * bs.length) + 2 ^ (8 * bs.length) :=
          Nat.add_lt_add_left ih _
      _ = (b.toNat + 1) * 2 ^ (8 * bs.length) := (Nat.succ_mul _ _).symm
      _ ≤ 2 ^ 8 * 2 ^ (8 * bs.length) := Nat.mul_le_mul_right _ hb
      _ = 2 ^ (8 * (b :: bs).length) := by rw [← Nat.pow_add, length_cons]; congr 1; omega

/-- One more, from the last byte on: whether all of the bytes went back to zero, and the bytes. -/
def carry : Bytes → Bool × Bytes
  | [] => (true, [])
  | b :: bs =>
    let rest := carry bs
    if rest.1 then (b + 1 == 0, (b + 1) :: rest.2) else (false, b :: rest.2)

/-- One more. -/
def increase (bs : Bytes) : Bytes := (carry bs).2

theorem length_carry (bs : Bytes) : (carry bs).2.length = bs.length := by
  induction bs with
  | nil => rfl
  | cons b bs ih =>
    rw [carry]
    split
    · rw [length_cons, length_cons, ih]
    · rw [length_cons, length_cons, ih]

@[simp] theorem length_increase (bs : Bytes) : (increase bs).length = bs.length :=
  length_carry bs

/-- The value after one more, and whether it went past the highest. -/
theorem value_carry (bs : Bytes) :
    value (carry bs).2 + (if (carry bs).1 then 2 ^ (8 * bs.length) else 0) = value bs + 1 := by
  induction bs with
  | nil => rfl
  | cons b bs ih =>
    have hlt := value_lt bs
    have hbyte := b.toNat_lt
    have hpow : 2 ^ (8 * (b :: bs).length) = 256 * 2 ^ (8 * bs.length) := by
      rw [length_cons, Nat.mul_succ, Nat.pow_add, Nat.mul_comm]
    rw [carry]
    cases hrest : (carry bs).1 with
    | false =>
      rw [hrest] at ih
      simp only [Bool.false_eq_true, if_false, Nat.add_zero, value, length_carry] at ih ⊢
      omega
    | true =>
      rw [hrest] at ih
      simp only [if_true] at ih ⊢
      -- The bytes behind went back to zero; so does this one if it is the highest.
      by_cases hmax : b + 1 = 0
      · have hb : b.toNat = 255 := by
          have hzero := congrArg UInt8.toNat hmax
          rw [UInt8.toNat_add] at hzero
          change (b.toNat + 1) % 256 = 0 at hzero
          omega
        simp only [hmax, beq_self_eq_true, if_true, value, length_carry, hb, UInt8.toNat_zero, hpow]
        omega
      · have hb : (b + 1).toNat = b.toNat + 1 := by
          rw [UInt8.toNat_add]
          apply Nat.mod_eq_of_lt
          apply Nat.lt_of_not_ge
          intro hge
          apply hmax
          apply UInt8.toNat_inj.mp
          rw [UInt8.toNat_add]
          change (b.toNat + 1) % 256 = 0
          change 256 ≤ b.toNat + 1 at hge
          omega
        simp only [beq_iff_eq, hmax, if_false, value, length_carry, hb, Nat.add_zero]
        rw [Nat.add_mul, Nat.one_mul]
        omega

/-- Below the highest value, one more is one more. -/
theorem value_increase {bs : Bytes} (h : value bs + 1 < 2 ^ (8 * bs.length)) :
    value (increase bs) = value bs + 1 := by
  have hcarry := value_carry bs
  rw [increase]
  split at hcarry
  · omega
  · omega

/-- The highest value goes back to zero. -/
theorem value_increase_max {bs : Bytes} (h : value bs + 1 = 2 ^ (8 * bs.length)) :
    value (increase bs) = 0 := by
  have hcarry := value_carry bs
  have hlt := value_lt (increase bs)
  rw [length_increase] at hlt
  rw [increase] at hlt ⊢
  split at hcarry
  · omega
  · omega

/-- Counters of one length with one value are one. -/
theorem value_injective {as bs : Bytes} (hlength : as.length = bs.length)
    (h : value as = value bs) : as = bs := by
  induction as generalizing bs with
  | nil => exact (eq_nil_of_length_eq_zero hlength.symm).symm
  | cons a as ih =>
    cases bs with
    | nil => cases hlength
    | cons b bs =>
      have hlen : as.length = bs.length := Nat.succ.inj hlength
      have ha := value_lt as
      have hb := value_lt bs
      rw [value, value, hlen] at h
      rw [hlen] at ha
      have hhigh : a.toNat = b.toNat := by
        rcases Nat.lt_trichotomy a.toNat b.toNat with hlt | heq | hgt
        · have hmul := Nat.mul_le_mul_right (2 ^ (8 * bs.length)) (Nat.succ_le_of_lt hlt)
          rw [Nat.succ_mul] at hmul
          omega
        · exact heq
        · have hmul := Nat.mul_le_mul_right (2 ^ (8 * bs.length)) (Nat.succ_le_of_lt hgt)
          rw [Nat.succ_mul] at hmul
          omega
      rw [hhigh] at h
      rw [UInt8.toNat_inj.mp hhigh, ih hlen (by omega)]

theorem value_replicate_max (n : ℕ) : value (List.replicate n 255) + 1 = 2 ^ (8 * n) := by
  induction n with
  | zero => rfl
  | succ n ih =>
    rw [replicate_succ, value, length_replicate, Nat.mul_succ, Nat.pow_add]
    change 255 * 2 ^ (8 * n) + value (replicate n 255) + 1 = 2 ^ (8 * n) * 256
    omega

end XrayCore.Bytes
