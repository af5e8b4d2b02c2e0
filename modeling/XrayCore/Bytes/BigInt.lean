/-
  XrayCore.Bytes.BigInt

  Numbers of any size: their bytes, the highest first and without zeros in front, and their
  decimal text, the way the package strconv reads and writes it.
-/

import XrayCore.Wire.Parser

namespace XrayCore.Bytes

open Wire List

/-- The bytes of a number; none for zero. -/
def bytesOf (x : ℕ) : Bytes := ((Nat.digits 256 x).map UInt8.ofNat).reverse

theorem bigEndian_cons (b : UInt8) (bs : Bytes) :
    bigEndian (b :: bs) = b.toNat * 256 ^ bs.length + bigEndian bs := by
  induction bs using reverseRecOn with
  | nil => simp [bigEndian]
  | append_singleton bs c ih =>
    rw [← cons_append, bigEndian_concat, bigEndian_concat, ih, length_append,
      length_singleton, Nat.pow_succ]
    ring

theorem bigEndian_bytesOf (x : ℕ) : bigEndian (bytesOf x) = x := by
  have hdigits : ∀ ds : List ℕ, (∀ d ∈ ds, d < 256) →
      bigEndian (ds.map UInt8.ofNat).reverse = Nat.ofDigits 256 ds := by
    intro ds
    induction ds with
    | nil => simp [bigEndian]
    | cons d ds ih =>
      intro hlt
      rw [map_cons, reverse_cons, bigEndian_concat,
        ih fun x hx => hlt x (mem_cons_of_mem _ hx), Nat.ofDigits_cons,
        UInt8.toNat_ofNat_of_lt' (hlt d (mem_cons_self ..))]
      omega
  unfold bytesOf
  rw [hdigits _ fun d hd => Nat.digits_lt_base (by decide) hd, Nat.ofDigits_digits]

theorem bytesOf_inj {x y : ℕ} (h : bytesOf x = bytesOf y) : x = y := by
  rw [← bigEndian_bytesOf x, h, bigEndian_bytesOf]

theorem lt_length_bytesOf_iff (x k : ℕ) : k < (bytesOf x).length ↔ 256 ^ k ≤ x := by
  rw [bytesOf, length_reverse, length_map]
  exact Nat.lt_digits_length_iff (by decide) x

/-- The number of bytes of a number between two powers. -/
theorem length_bytesOf {x n : ℕ} (hlow : 256 ^ n ≤ x) (hhigh : x < 256 ^ (n + 1)) :
    (bytesOf x).length = n + 1 := by
  have hmore := (lt_length_bytesOf_iff x n).mpr hlow
  have hless : ¬ n + 1 < (bytesOf x).length := fun h =>
    Nat.not_le_of_lt hhigh ((lt_length_bytesOf_iff x (n + 1)).mp h)
  omega

/-! ## Decimal text -/

/-- The value of a digit. -/
def digit (c : UInt8) : Option ℕ := if 48 ≤ c ∧ c ≤ 57 then some (c.toNat - 48) else none

/-- The digits behind a number. -/
def digitsFrom (n : ℕ) : Bytes → Option ℕ
  | [] => some n
  | c :: cs => (digit c).bind fun d => digitsFrom (n * 10 + d) cs

/-- `ParseUint` with base ten. -/
def parseUint (bits : ℕ) (s : Bytes) : Option ℕ :=
  if s = [] then none else (digitsFrom 0 s).filter (· < 2 ^ bits)

/-- `ParseInt` with base ten; `Atoi` is that with 64 bits. -/
def parseInt (bits : ℕ) (s : Bytes) : Option ℤ :=
  match s with
  | [] => none
  | c :: cs =>
    if c = 45 then ((parseUint bits cs).filter (· ≤ 2 ^ (bits - 1))).map fun n => -(n : ℤ)
    else
      let digits := if c = 43 then cs else c :: cs
      ((parseUint bits digits).filter (· < 2 ^ (bits - 1))).map fun n => (n : ℤ)

/-- `FormatUint` with base ten. -/
def formatUint (n : ℕ) : Bytes := (Nat.toDigits 10 n).map fun c => UInt8.ofNat c.toNat

example : parseInt 64 (formatUint 9072) = some 9072 := by decide

end XrayCore.Bytes
