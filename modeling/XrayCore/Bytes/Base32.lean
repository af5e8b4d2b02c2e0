/-
  XrayCore.Bytes.Base32

  Base32 with the standard alphabet and without padding: eight letters for five
  bytes.

  Decoding skips line breaks and refuses every other byte that is no letter.  Of a
  last group that is not full, 7, 5, 4 or 2 letters give 4, 3, 2 or 1 bytes; 1, 3
  or 6 letters stand for no whole number of bytes and give none.
-/

import XrayCore.Bytes.Slice

namespace XrayCore.Bytes

open List

/-! ## Decoding -/

/-- The five bits of a letter. -/
def letterValue (c : UInt8) : Option UInt8 :=
  if 65 ≤ c ∧ c ≤ 90 then some (c - 65)
  else if 50 ≤ c ∧ c ≤ 55 then some (c - 24)
  else none

/-- The five bytes of a full group, each from the letters that share its bits. -/
def byte0 (a b : UInt8) : UInt8 := a <<< 3 ||| b >>> 2
def byte1 (b c d : UInt8) : UInt8 := b <<< 6 ||| c <<< 1 ||| d >>> 4
def byte2 (d e : UInt8) : UInt8 := d <<< 4 ||| e >>> 1
def byte3 (e f g : UInt8) : UInt8 := e <<< 7 ||| f <<< 2 ||| g >>> 3
def byte4 (g h : UInt8) : UInt8 := g <<< 5 ||| h

/-- The bytes of a list of letter values. -/
def pack : Bytes → Bytes
  | a :: b :: c :: d :: e :: f :: g :: h :: rest =>
    byte0 a b :: byte1 b c d :: byte2 d e :: byte3 e f g :: byte4 g h :: pack rest
  | [a, b, c, d, e, f, g] => [byte0 a b, byte1 b c d, byte2 d e, byte3 e f g]
  | [a, b, c, d, e] => [byte0 a b, byte1 b c d, byte2 d e]
  | [a, b, c, d] => [byte0 a b, byte1 b c d]
  | [a, b] => [byte0 a b]
  | _ => []

/-- `Decode`: `none` is an error.  Where eight letters are filled up with bytes 0xFF at the end, Go
    takes these for padding; here they are an error like other bytes. -/
def decodeBase32 (src : Bytes) : Option Bytes :=
  ((src.filter fun c => decide (c ≠ 10 ∧ c ≠ 13)).mapM letterValue).map pack

/-! ## Its length -/

theorem length_pack_le (vs : Bytes) : 8 * (pack vs).length ≤ 5 * vs.length := by
  fun_induction pack vs with
  | case1 a b c d e f g h rest ih =>
    simp only [length_cons]
    omega
  | _ => simp

theorem length_of_mapM_eq_some {α β : Type} {f : α → Option β} {xs : List α} {ys : List β}
    (h : xs.mapM f = some ys) : ys.length = xs.length := by
  induction xs generalizing ys with
  | nil =>
    obtain rfl : ys = [] := by simpa using h.symm
    rfl
  | cons x xs ih =>
    simp only [mapM_cons, Option.pure_def, Option.bind_eq_bind, Option.bind_eq_some_iff,
      Option.some.injEq] at h
    obtain ⟨y, -, zs, hzs, rfl⟩ := h
    rw [length_cons, length_cons, ih hzs]

/-- At most five bytes for eight letters. -/
theorem length_decodeBase32_le {src out : Bytes} (h : decodeBase32 src = some out) :
    8 * out.length ≤ 5 * src.length := by
  unfold decodeBase32 at h
  obtain ⟨vs, hvs, rfl⟩ := Option.map_eq_some_iff.mp h
  have hlen := length_of_mapM_eq_some hvs
  have hfilter := length_filter_le (fun c : UInt8 => decide (c ≠ 10 ∧ c ≠ 13)) src
  have hpack := length_pack_le vs
  omega

/-! ## Encoding -/

/-- The values of the letters of a full group, each from the bytes that share its bits. -/
def value0 (a : UInt8) : UInt8 := a >>> 3
def value1 (a b : UInt8) : UInt8 := (a <<< 2 ||| b >>> 6) &&& 31
def value2 (b : UInt8) : UInt8 := (b >>> 1) &&& 31
def value3 (b c : UInt8) : UInt8 := (b <<< 4 ||| c >>> 4) &&& 31
def value4 (c d : UInt8) : UInt8 := (c <<< 1 ||| d >>> 7) &&& 31
def value5 (d : UInt8) : UInt8 := (d >>> 2) &&& 31
def value6 (d e : UInt8) : UInt8 := (d <<< 3 ||| e >>> 5) &&& 31
def value7 (e : UInt8) : UInt8 := e &&& 31

/-- The letter values of a list of bytes; bits that a last group lacks are zero. -/
def letterValues : Bytes → Bytes
  | a :: b :: c :: d :: e :: rest =>
    value0 a :: value1 a b :: value2 b :: value3 b c :: value4 c d :: value5 d :: value6 d e ::
      value7 e :: letterValues rest
  | [a, b, c, d] =>
    [value0 a, value1 a b, value2 b, value3 b c, value4 c d, value5 d, value6 d 0]
  | [a, b, c] => [value0 a, value1 a b, value2 b, value3 b c, value4 c 0]
  | [a, b] => [value0 a, value1 a b, value2 b, value3 b 0]
  | [a] => [value0 a, value1 a 0]
  | [] => []

/-- The letter of a value below 32. -/
def letter (v : UInt8) : UInt8 := if v < 26 then v + 65 else v + 24

/-- `Encode`. -/
def encodeBase32 (bs : Bytes) : Bytes := (letterValues bs).map letter

/-! ## Decoding what was encoded -/

theorem byte0_values (a b : UInt8) : byte0 (value0 a) (value1 a b) = a := by
  apply UInt8.eq_of_toBitVec_eq
  ext i hi
  interval_cases i <;> simp [byte0, value0, value1]

theorem byte1_values (a b c : UInt8) : byte1 (value1 a b) (value2 b) (value3 b c) = b := by
  apply UInt8.eq_of_toBitVec_eq
  ext i hi
  interval_cases i <;> simp [byte1, value1, value2, value3]

theorem byte2_values (b c d : UInt8) : byte2 (value3 b c) (value4 c d) = c := by
  apply UInt8.eq_of_toBitVec_eq
  ext i hi
  interval_cases i <;> simp [byte2, value3, value4]

theorem byte3_values (c d e : UInt8) : byte3 (value4 c d) (value5 d) (value6 d e) = d := by
  apply UInt8.eq_of_toBitVec_eq
  ext i hi
  interval_cases i <;> simp [byte3, value4, value5, value6]

theorem byte4_values (d e : UInt8) : byte4 (value6 d e) (value7 e) = e := by
  apply UInt8.eq_of_toBitVec_eq
  ext i hi
  interval_cases i <;> simp [byte4, value6, value7]

theorem pack_letterValues (bs : Bytes) : pack (letterValues bs) = bs := by
  fun_induction letterValues bs with
  | case1 a b c d e rest ih =>
    rw [pack, byte0_values, byte1_values, byte2_values, byte3_values, byte4_values, ih]
  | case2 a b c d => rw [pack, byte0_values, byte1_values, byte2_values, byte3_values]
  | case3 a b c => rw [pack, byte0_values, byte1_values, byte2_values]
  | case4 a b => rw [pack, byte0_values, byte1_values]
  | case5 a => rw [pack, byte0_values]
  | case6 => rfl

theorem letterValues_lt (bs : Bytes) : ∀ v ∈ letterValues bs, v < 32 := by
  have hand : ∀ v : UInt8, v &&& 31 < 32 := fun v => by
    rw [UInt8.lt_iff_toNat_lt, UInt8.toNat_and]
    exact Nat.lt_of_le_of_lt Nat.and_le_right (by decide)
  have hzero : ∀ a, value0 a < 32 := fun a => by
    have ha := a.toNat_lt
    rw [UInt8.lt_iff_toNat_lt, value0, UInt8.toNat_shiftRight, Nat.shiftRight_eq_div_pow]
    exact Nat.div_lt_of_lt_mul ha
  fun_induction letterValues bs with
  | case1 a b c d e rest ih =>
    simp only [forall_mem_cons]
    exact ⟨hzero a, hand _, hand _, hand _, hand _, hand _, hand _, hand _, ih⟩
  | case2 a b c d =>
    simp only [forall_mem_cons]
    exact ⟨hzero a, hand _, hand _, hand _, hand _, hand _, hand _, fun _ h => nomatch h⟩
  | case3 a b c =>
    simp only [forall_mem_cons]
    exact ⟨hzero a, hand _, hand _, hand _, hand _, fun _ h => nomatch h⟩
  | case4 a b =>
    simp only [forall_mem_cons]
    exact ⟨hzero a, hand _, hand _, hand _, fun _ h => nomatch h⟩
  | case5 a =>
    simp only [forall_mem_cons]
    exact ⟨hzero a, hand _, fun _ h => nomatch h⟩
  | case6 => exact fun _ h => nomatch h

/-- A letter is read back. -/
theorem letterValue_letter {v : UInt8} (hv : v < 32) : letterValue (letter v) = some v := by
  have hall : ∀ n < 32, letterValue (letter (UInt8.ofNat n)) = some (UInt8.ofNat n) := by decide
  have hletter := hall v.toNat (UInt8.lt_iff_toNat_lt.mp hv)
  rwa [UInt8.ofNat_toNat] at hletter

theorem mapM_letter {vs : Bytes} (h : ∀ v ∈ vs, v < 32) :
    (vs.map letter).mapM letterValue = some vs := by
  induction vs with
  | nil => rfl
  | cons v vs ih =>
    obtain ⟨hv, hvs⟩ := forall_mem_cons.mp h
    rw [map_cons, mapM_cons, letterValue_letter hv, ih hvs]
    rfl

/-- What holds of the 32 letters holds of all that is encoded. -/
theorem forall_mem_encodeBase32 {P : UInt8 → Prop} (h : ∀ n < 32, P (letter (UInt8.ofNat n)))
    (bs : Bytes) : ∀ c ∈ encodeBase32 bs, P c := by
  intro c hc
  obtain ⟨v, hv, rfl⟩ := mem_map.mp hc
  have hlt := UInt8.lt_iff_toNat_lt.mp (letterValues_lt bs v hv)
  have hletter := h v.toNat hlt
  rwa [UInt8.ofNat_toNat] at hletter

theorem decodeBase32_encodeBase32 (bs : Bytes) : decodeBase32 (encodeBase32 bs) = some bs := by
  have hfilter : (encodeBase32 bs).filter (fun c => decide (c ≠ 10 ∧ c ≠ 13)) =
      encodeBase32 bs := by
    rw [filter_eq_self]
    exact forall_mem_encodeBase32 (by decide) bs
  rw [decodeBase32, hfilter, encodeBase32, mapM_letter (letterValues_lt bs), Option.map_some,
    pack_letterValues]

end XrayCore.Bytes
