/-
  XrayCore.Vless.Aead

  The ciphers of VLESS encryption with their nonces, and the headers of records.

  The ciphers and the derivation of keys are given.  A nonce is counted up before it is
  used, so the first one under a key is 1 and the last one is 0.
-/

import XrayCore.Bytes.Counter

namespace XrayCore.Vless

open Bytes

/-- `DeriveKey` of blake3, with the context first, and the two ciphers. -/
structure Ciphers where
  deriveKey : Bytes → Bytes → Bytes
  sealText : Bool → Bytes → Bytes → Bytes → Bytes → Bytes
  openText : Bool → Bytes → Bytes → Bytes → Bytes → Except String Bytes

/-- What is assumed of the ciphers: `Open` inverts `Seal`, and a tag has sixteen bytes. -/
structure Ciphers.Lawful (c : Ciphers) : Prop where
  open_seal : ∀ useAES key nonce plaintext additionalData,
    c.openText useAES key nonce (c.sealText useAES key nonce plaintext additionalData)
      additionalData = .ok plaintext
  length_seal : ∀ useAES key nonce plaintext additionalData,
    (c.sealText useAES key nonce plaintext additionalData).length = plaintext.length + 16

/-! ## Nonces -/

/-- `IncreaseNonce`. -/
def increaseNonce (nonce : Bytes) : Bytes := increase nonce

def maxNonce : Bytes := List.replicate 12 255

/-- `AEAD`: the cipher with its key, and the nonce that was used last. -/
structure AEAD where
  useAES : Bool
  key : Bytes
  nonce : Bytes
  length_nonce : nonce.length = 12
deriving DecidableEq

variable (c : Ciphers)

/-- `NewAEAD`. -/
def newAEAD (ctx key : Bytes) (useAES : Bool) : AEAD :=
  ⟨useAES, c.deriveKey ctx key, List.replicate 12 0, rfl⟩

namespace AEAD

/-- The nonce counts up. -/
def step (a : AEAD) : AEAD :=
  { a with
    nonce := increaseNonce a.nonce
    length_nonce := (length_increase a.nonce).trans a.length_nonce }

/-- `Seal`, with a nonce of its own or the next one. -/
def sealNext (a : AEAD) (nonce : Option Bytes) (plaintext additionalData : Bytes) :
    Bytes × AEAD :=
  match nonce with
  | some nonce => (c.sealText a.useAES a.key nonce plaintext additionalData, a)
  | none => (c.sealText a.useAES a.key a.step.nonce plaintext additionalData, a.step)

/-- `Open`, likewise. -/
def openNext (a : AEAD) (nonce : Option Bytes) (ciphertext additionalData : Bytes) :
    Except String Bytes × AEAD :=
  match nonce with
  | some nonce => (c.openText a.useAES a.key nonce ciphertext additionalData, a)
  | none => (c.openText a.useAES a.key a.step.nonce ciphertext additionalData, a.step)

theorem openNext_sealNext (hc : c.Lawful) (a : AEAD) (plaintext additionalData : Bytes) :
    a.openNext c none (a.sealNext c none plaintext additionalData).1 additionalData =
      (.ok plaintext, a.step) := by
  rw [openNext, sealNext, hc.open_seal]

theorem nonce_eq_max_iff (a : AEAD) : a.nonce = maxNonce ↔ value a.nonce + 1 = 2 ^ 96 := by
  have hmax : value maxNonce + 1 = 2 ^ 96 := value_replicate_max 12
  constructor
  · intro h
    rw [h, hmax]
  · intro h
    apply value_injective
    · rw [a.length_nonce]
      rfl
    · omega

theorem value_nonce_lt (a : AEAD) : value a.nonce < 2 ^ 96 := by
  have hlt := value_lt a.nonce
  rwa [a.length_nonce] at hlt

/-- Below the highest nonce the next one is one more. -/
theorem value_step {a : AEAD} (h : a.nonce ≠ maxNonce) :
    value a.step.nonce = value a.nonce + 1 := by
  apply value_increase
  rw [a.length_nonce]
  have hlt := a.value_nonce_lt
  have hne := mt a.nonce_eq_max_iff.mpr h
  omega

/-- After the highest nonce comes zero. -/
theorem value_step_max {a : AEAD} (h : a.nonce = maxNonce) : value a.step.nonce = 0 := by
  apply value_increase_max
  rw [a.length_nonce]
  exact a.nonce_eq_max_iff.mp h

end AEAD

/-! ## Headers -/

/-- `EncodeHeader`. -/
def encodeHeader (l : ℕ) : Bytes := [23, 3, 3, UInt8.ofNat (l >>> 8), UInt8.ofNat l]

/-- The header as `%v` prints it. -/
def printHeader (h : Bytes) : String :=
  "[" ++ " ".intercalate (h.map fun b => toString b.toNat) ++ "]"

/-- `DecodeHeader` of five bytes. -/
def decodeHeader (h : Bytes) : Except String ℕ :=
  let l := (h.getD 3 0).toNat <<< 8 ||| (h.getD 4 0).toNat
  let l := if h.getD 0 0 ≠ 23 ∨ h.getD 1 0 ≠ 3 ∨ h.getD 2 0 ≠ 3 then 0 else l
  if l < 17 ∨ l > 16640 then .error ("invalid header: " ++ printHeader h) else .ok l

theorem decodeHeader_encodeHeader {l : ℕ} (hmin : 17 ≤ l) (hmax : l ≤ 16640) :
    decodeHeader (encodeHeader l) = .ok l := by
  have hlow : (UInt8.ofNat l).toNat = l % 256 := UInt8.toNat_ofNat'
  have hhigh : (UInt8.ofNat (l >>> 8)).toNat = l / 256 := by
    rw [UInt8.toNat_ofNat', Nat.shiftRight_eq_div_pow]
    exact Nat.mod_eq_of_lt (by omega)
  have hl : (UInt8.ofNat (l >>> 8)).toNat <<< 8 ||| (UInt8.ofNat l).toNat = l := by
    rw [hlow, hhigh, ← Nat.shiftLeft_add_eq_or_of_lt (Nat.mod_lt l (by decide)),
      Nat.shiftLeft_eq]
    exact Nat.div_add_mod' l 256
  have hnum : ((encodeHeader l).getD 3 0).toNat <<< 8 ||| ((encodeHeader l).getD 4 0).toNat =
      l := hl
  have hmark : ¬ ((encodeHeader l).getD 0 0 ≠ 23 ∨ (encodeHeader l).getD 1 0 ≠ 3 ∨
      (encodeHeader l).getD 2 0 ≠ 3) := by
    rintro (h | h | h)
    · exact h rfl
    · exact h rfl
    · exact h rfl
  have hrange : ¬ (l < 17 ∨ l > 16640) := by omega
  simp only [decodeHeader, hnum, if_neg hmark, if_neg hrange]

end XrayCore.Vless
