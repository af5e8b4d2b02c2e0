/-
  XrayCore.Wire.Parser

  Parsers that take bytes off the front of a stream.

  A parser gives a value and what is left, or fails, or finds the stream too short to
  tell.  `Reads p front a` is what makes formats compose: whatever follows, `p` takes
  exactly `front` and gives `a`.
-/

import XrayCore.Bytes.Slice

namespace XrayCore.Wire

open List

/-- What a parser gives. -/
inductive Parsed (ε α : Type) where
  | ok (a : α) (rest : Bytes)
  | short
  | bad (e : ε)

/-- A parser of bytes, with errors of `ε`. -/
def Parser (ε α : Type) := Bytes → Parsed ε α

variable {ε δ α β : Type}

namespace Parser

def pure (a : α) : Parser ε α := fun bytes => .ok a bytes

def fail (e : ε) : Parser ε α := fun _ => .bad e

def bind (p : Parser ε α) (f : α → Parser ε β) : Parser ε β := fun bytes =>
  match p bytes with
  | .ok a rest => f a rest
  | .short => .short
  | .bad e => .bad e

instance : Monad (Parser ε) where
  pure := Parser.pure
  bind := Parser.bind

/-- The next `n` bytes. -/
def take (n : ℕ) : Parser ε Bytes := fun bytes =>
  if n ≤ bytes.length then .ok (bytes.take n) (bytes.drop n) else .short

/-- The next byte. -/
def byte : Parser ε UInt8
  | [] => .short
  | b :: rest => .ok b rest

end Parser

/-! ## What a parser takes -/

/-- Whatever follows, `p` takes exactly `front` and gives `a`. -/
def Reads (p : Parser ε α) (front : Bytes) (a : α) : Prop :=
  ∀ rest, p (front ++ rest) = .ok a rest

theorem reads_pure (a : α) : Reads (pure a : Parser ε α) [] a := fun _ => rfl

variable {x : Bytes} {p : Parser ε α}

/-- What follows these bytes is left to what comes next. -/
theorem Reads.bind_apply {a : α} (hp : Reads p x a) (f : α → Parser ε β) (rest : Bytes) :
    (p >>= f) (x ++ rest) = f a rest := by
  show (match p (x ++ rest) with
    | .ok a rest => f a rest
    | .short => .short
    | .bad e => .bad e) = _
  rw [hp]

/-- One after the other. -/
theorem Reads.bind {f : α → Parser ε β} {y : Bytes} {a : α} {b : β} (hp : Reads p x a)
    (hf : Reads (f a) y b) : Reads (p >>= f) (x ++ y) b := by
  intro rest
  rw [append_assoc, hp.bind_apply]
  exact hf rest

/-- The last one, after which nothing more is taken. -/
theorem Reads.last {f : α → Parser ε β} {a : α} {b : β} (hp : Reads p x a) (hf : Reads (f a) [] b) :
    Reads (p >>= f) x b := by
  have h := hp.bind hf
  rw [append_nil] at h
  exact h

theorem reads_take {front : Bytes} {n : ℕ} (h : front.length = n) :
    Reads (Parser.take n : Parser ε _) front front := by
  intro rest
  rw [Parser.take, if_pos (by rw [length_append]; omega), take_left' h,
    drop_left' h]

theorem reads_byte (b : UInt8) : Reads (Parser.byte : Parser ε _) [b] b := fun _ => rfl

/-! ## Numbers of two bytes -/

/-- `binary.BigEndian.PutUint16`. -/
def putUint16 (n : UInt16) : Bytes := [UInt8.ofNat (n.toNat / 256), UInt8.ofNat n.toNat]

/-- `binary.BigEndian.Uint16`. -/
def uint16 (hi lo : UInt8) : UInt16 := UInt16.ofNat (hi.toNat * 256 + lo.toNat)

/-- A number of two bytes, the high one first. -/
def Parser.uint16 : Parser ε UInt16 := do
  let hi ← Parser.byte
  let lo ← Parser.byte
  return Wire.uint16 hi lo

@[simp] theorem length_putUint16 (n : UInt16) : (putUint16 n).length = 2 := rfl

theorem uint16_putUint16 (n : UInt16) :
    uint16 (UInt8.ofNat (n.toNat / 256)) (UInt8.ofNat n.toNat) = n := by
  have hn : n.toNat < 65536 := n.toNat_lt
  rw [uint16, UInt8.toNat_ofNat', UInt8.toNat_ofNat']
  have hsum : n.toNat / 256 % 2 ^ 8 * 256 + n.toNat % 2 ^ 8 = n.toNat := by omega
  rw [hsum, UInt16.ofNat_toNat]

theorem reads_uint16 (n : UInt16) : Reads (Parser.uint16 : Parser ε _) (putUint16 n) n := by
  have h : Reads (Parser.uint16 : Parser ε _)
      ([UInt8.ofNat (n.toNat / 256)] ++ [UInt8.ofNat n.toNat])
      (uint16 (UInt8.ofNat (n.toNat / 256)) (UInt8.ofNat n.toNat)) :=
    (reads_byte _).bind ((reads_byte _).last (reads_pure _))
  rw [uint16_putUint16] at h
  exact h

/-! ## Numbers of four bytes -/

/-- `binary.BigEndian.PutUint32`. -/
def putUint32 (n : UInt32) : Bytes :=
  [UInt8.ofNat (n.toNat / 2 ^ 24), UInt8.ofNat (n.toNat / 2 ^ 16), UInt8.ofNat (n.toNat / 2 ^ 8),
    UInt8.ofNat n.toNat]

/-- `binary.BigEndian.Uint32`. -/
def uint32 (a b c d : UInt8) : UInt32 :=
  UInt32.ofNat (((a.toNat * 256 + b.toNat) * 256 + c.toNat) * 256 + d.toNat)

theorem uint32_putUint32 (n : UInt32) :
    uint32 (UInt8.ofNat (n.toNat / 2 ^ 24)) (UInt8.ofNat (n.toNat / 2 ^ 16))
      (UInt8.ofNat (n.toNat / 2 ^ 8)) (UInt8.ofNat n.toNat) = n := by
  have hn : n.toNat < 2 ^ 32 := n.toNat_lt
  simp only [uint32, UInt8.toNat_ofNat']
  have hsum : ((n.toNat / 2 ^ 24 % 2 ^ 8 * 256 + n.toNat / 2 ^ 16 % 2 ^ 8) * 256 +
      n.toNat / 2 ^ 8 % 2 ^ 8) * 256 + n.toNat % 2 ^ 8 = n.toNat := by omega
  rw [hsum, UInt32.ofNat_toNat]

/-! ## Numbers at the front of a slice -/

/-- `binary.BigEndian.Uint16` of a slice of two bytes or more. -/
def front16 : Bytes → UInt16
  | hi :: lo :: _ => uint16 hi lo
  | _ => 0

/-- `binary.BigEndian.Uint32` of a slice of four bytes or more. -/
def front32 : Bytes → UInt32
  | a :: b :: c :: d :: _ => uint32 a b c d
  | _ => 0

@[simp] theorem front16_putUint16 (n : UInt16) (rest : Bytes) :
    front16 (putUint16 n ++ rest) = n :=
  uint16_putUint16 n

@[simp] theorem front32_putUint32 (n : UInt32) (rest : Bytes) :
    front32 (putUint32 n ++ rest) = n :=
  uint32_putUint32 n

@[simp] theorem drop_putUint16 (n : UInt16) (rest : Bytes) :
    (putUint16 n ++ rest).drop 2 = rest := rfl

@[simp] theorem drop_putUint32 (n : UInt32) (rest : Bytes) :
    (putUint32 n ++ rest).drop 4 = rest := rfl

@[simp] theorem length_putUint32 (n : UInt32) : (putUint32 n).length = 4 := rfl

theorem putUint16_uint16 (hi lo : UInt8) : putUint16 (uint16 hi lo) = [hi, lo] := by
  have hhi := hi.toNat_lt
  have hlo := lo.toNat_lt
  simp only [putUint16, uint16, UInt16.toNat_ofNat', cons.injEq, and_true]
  refine ⟨UInt8.toNat_inj.mp ?_, UInt8.toNat_inj.mp ?_⟩ <;>
  · rw [UInt8.toNat_ofNat']
    omega

theorem putUint32_uint32 (a b c d : UInt8) : putUint32 (uint32 a b c d) = [a, b, c, d] := by
  have ha := a.toNat_lt
  have hb := b.toNat_lt
  have hc := c.toNat_lt
  have hd := d.toNat_lt
  simp only [putUint32, uint32, UInt32.toNat_ofNat', cons.injEq, and_true]
  refine ⟨UInt8.toNat_inj.mp ?_, UInt8.toNat_inj.mp ?_, UInt8.toNat_inj.mp ?_,
    UInt8.toNat_inj.mp ?_⟩ <;>
  · rw [UInt8.toNat_ofNat']
    omega

theorem putUint16_front16 {bytes : Bytes} (h : 2 ≤ bytes.length) :
    putUint16 (front16 bytes) ++ bytes.drop 2 = bytes := by
  match bytes, h with
  | hi :: lo :: rest, _ => rw [front16, putUint16_uint16]; rfl

theorem putUint32_front32 {bytes : Bytes} (h : 4 ≤ bytes.length) :
    putUint32 (front32 bytes) ++ bytes.drop 4 = bytes := by
  match bytes, h with
  | a :: b :: c :: d :: rest, _ => rw [front32, putUint32_uint32]; rfl

/-! ## Numbers of any length -/

/-- `binary.BigEndian` of a slice. -/
def bigEndian (bs : Bytes) : ℕ := bs.foldl (fun n b => n * 256 + b.toNat) 0

theorem bigEndian_concat (bs : Bytes) (b : UInt8) :
    bigEndian (bs ++ [b]) = bigEndian bs * 256 + b.toNat := by
  rw [bigEndian, foldl_append]
  rfl

theorem bigEndian_lt (bs : Bytes) : bigEndian bs < 256 ^ bs.length := by
  induction bs using reverseRecOn with
  | nil => exact Nat.one_pos
  | append_singleton bs b ih =>
    rw [bigEndian_concat, length_append, length_singleton, Nat.pow_succ]
    have := b.toNat_lt
    omega

/-- The low bytes of a number, as many as asked for, the high one first. -/
def putBigEndian : ℕ → ℕ → Bytes
  | 0, _ => []
  | w + 1, n => putBigEndian w (n / 256) ++ [UInt8.ofNat n]

@[simp] theorem length_putBigEndian (w n : ℕ) : (putBigEndian w n).length = w := by
  induction w generalizing n with
  | zero => rfl
  | succ w ih => rw [putBigEndian, length_append, ih, length_singleton]

@[simp] theorem bigEndian_putBigEndian (w n : ℕ) : bigEndian (putBigEndian w n) = n % 256 ^ w := by
  induction w generalizing n with
  | zero =>
    show 0 = n % 1
    omega
  | succ w ih =>
    have hsplit : n % 256 ^ (w + 1) = n % 256 + 256 * (n / 256 % 256 ^ w) := by
      rw [Nat.pow_succ', Nat.mod_mul]
    rw [putBigEndian, bigEndian_concat, ih, UInt8.toNat_ofNat', hsplit, Nat.add_comm, Nat.mul_comm]

@[simp] theorem bigEndian_putUint16 (n : UInt16) : bigEndian (putUint16 n) = n.toNat := by
  show bigEndian (putBigEndian 2 n.toNat) = n.toNat
  rw [bigEndian_putBigEndian]
  exact Nat.mod_eq_of_lt n.toNat_lt

/-- Of slices of one length the numbers tell them apart. -/
theorem bigEndian_inj {xs ys : Bytes} (hlen : xs.length = ys.length)
    (h : bigEndian xs = bigEndian ys) : xs = ys := by
  induction xs using reverseRecOn generalizing ys with
  | nil => exact (length_eq_zero_iff.mp hlen.symm).symm
  | append_singleton xs x ih =>
    rcases eq_nil_or_concat ys with rfl | ⟨ys, y, rfl⟩
    · rw [length_append] at hlen
      nomatch hlen
    · rw [concat_eq_append] at h hlen ⊢
      rw [bigEndian_concat, bigEndian_concat] at h
      rw [length_append, length_append] at hlen
      have hx := x.toNat_lt
      have hy := y.toNat_lt
      rw [ih (Nat.add_right_cancel hlen) (by omega),
        UInt8.toNat_inj.mp (show x.toNat = y.toNat by omega)]

end XrayCore.Wire
