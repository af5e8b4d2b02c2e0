/-
  XrayCore.FinalMask.Original

  The original mKCP mask: a hash, a length and the payload, each byte xored with the byte
  four places before it.

  `xorfwd` xors with what is already masked, from the front, and `xorbkd` with what is still
  masked, from the back, so that one undoes the other; both only look at bytes in front, so
  that zeros appended to fill a word change nothing of what stands before them.
-/

import XrayCore.Wire.Parser

namespace XrayCore.FinalMask

open Wire List

/-! ## The two xors -/

/-- `xorfwd` behind four bytes that are masked already. -/
def xorfwdFrom (a b c d : UInt8) : Bytes → Bytes
  | [] => []
  | x :: xs => (x ^^^ a) :: xorfwdFrom b c d (x ^^^ a) xs

/-- `xorbkd` behind four bytes that are masked still. -/
def xorbkdFrom (a b c d : UInt8) : Bytes → Bytes
  | [] => []
  | x :: xs => (x ^^^ a) :: xorbkdFrom b c d x xs

/-- `xorfwd`; the first four bytes have nothing four places before them. -/
def xorfwd (x : Bytes) : Bytes := xorfwdFrom 0 0 0 0 x

/-- `xorbkd`. -/
def xorbkd (x : Bytes) : Bytes := xorbkdFrom 0 0 0 0 x

theorem length_xorfwdFrom (a b c d : UInt8) (xs : Bytes) :
    (xorfwdFrom a b c d xs).length = xs.length := by
  induction xs generalizing a b c d with
  | nil => rfl
  | cons x xs ih => rw [xorfwdFrom, length_cons, ih, length_cons]

theorem length_xorbkdFrom (a b c d : UInt8) (xs : Bytes) :
    (xorbkdFrom a b c d xs).length = xs.length := by
  induction xs generalizing a b c d with
  | nil => rfl
  | cons x xs ih => rw [xorbkdFrom, length_cons, ih, length_cons]

@[simp] theorem length_xorfwd (xs : Bytes) : (xorfwd xs).length = xs.length :=
  length_xorfwdFrom ..

@[simp] theorem length_xorbkd (xs : Bytes) : (xorbkd xs).length = xs.length :=
  length_xorbkdFrom ..

theorem xorbkdFrom_xorfwdFrom (a b c d : UInt8) (xs : Bytes) :
    xorbkdFrom a b c d (xorfwdFrom a b c d xs) = xs := by
  induction xs generalizing a b c d with
  | nil => rfl
  | cons x xs ih =>
    rw [xorfwdFrom, xorbkdFrom, ih, UInt8.xor_assoc, UInt8.xor_self, UInt8.xor_zero]

theorem xorbkd_xorfwd (xs : Bytes) : xorbkd (xorfwd xs) = xs := xorbkdFrom_xorfwdFrom ..

theorem take_xorfwdFrom (a b c d : UInt8) (xs ys : Bytes) :
    (xorfwdFrom a b c d (xs ++ ys)).take xs.length = xorfwdFrom a b c d xs := by
  induction xs generalizing a b c d with
  | nil => simp [xorfwdFrom]
  | cons x xs ih =>
    rw [cons_append, xorfwdFrom, length_cons, take_succ_cons, ih, xorfwdFrom]

theorem take_xorbkdFrom (a b c d : UInt8) (xs ys : Bytes) :
    (xorbkdFrom a b c d (xs ++ ys)).take xs.length = xorbkdFrom a b c d xs := by
  induction xs generalizing a b c d with
  | nil => simp [xorbkdFrom]
  | cons x xs ih =>
    rw [cons_append, xorbkdFrom, length_cons, take_succ_cons, ih, xorbkdFrom]

/-- Zeros behind the bytes do not change what they become. -/
theorem take_xorfwd (xs ys : Bytes) : (xorfwd (xs ++ ys)).take xs.length = xorfwd xs :=
  take_xorfwdFrom ..

theorem take_xorbkd (xs ys : Bytes) : (xorbkd (xs ++ ys)).take xs.length = xorbkd xs :=
  take_xorbkdFrom ..

/-! ## Header -/

/-- `fnv.New32a`. -/
def fnv32a (bs : Bytes) : UInt32 :=
  bs.foldl (fun h b => (h ^^^ UInt32.ofNat b.toNat) * 16777619) 2166136261

/-- The bytes that `Seal` fills a word with, as many as `xtra`. -/
def fill (len : ℕ) : Bytes := List.replicate ((4 - len % 4) % 4) 0

/-- The bytes before they are masked: the hash of what follows it, the length, the payload. -/
def plainFrame (plain : Bytes) : Bytes :=
  let rest := putUint16 (UInt16.ofNat plain.length) ++ plain
  putUint32 (fnv32a rest) ++ rest

/-- The checks of `Open` on the unmasked bytes: `none` where it slices too far. -/
def checkFrame (dst : Bytes) : Option (Except String Unit) :=
  match dst with
  | a :: b :: c :: d :: rest =>
    if uint32 a b c d ≠ fnv32a rest then some (.error "invalid auth")
    else match rest with
      | hi :: lo :: payload =>
        if payload.length ≠ (uint16 hi lo).toNat then some (.error "invalid auth")
        else some (.ok ())
      | _ => some (.error "invalid auth")
  | _ => none

@[simp] theorem length_plainFrame (plain : Bytes) :
    (plainFrame plain).length = plain.length + 6 := by
  simp [plainFrame, putUint32]
  omega

theorem drop_plainFrame (plain : Bytes) : (plainFrame plain).drop 6 = plain := rfl

/-- A frame whose length fits two bytes passes the checks. -/
theorem checkFrame_plainFrame {plain : Bytes} (h : plain.length < 65536) :
    checkFrame (plainFrame plain) = some (.ok ()) := by
  have hlength : (UInt16.ofNat plain.length).toNat = plain.length :=
    UInt16.toNat_ofNat_of_lt' h
  have hround := uint16_putUint16 (UInt16.ofNat plain.length)
  rw [hlength] at hround
  simp only [plainFrame, putUint32, putUint16, cons_append, nil_append, checkFrame,
    uint32_putUint32, hlength, hround, ne_eq, not_true_eq_false, if_false]

end XrayCore.FinalMask
