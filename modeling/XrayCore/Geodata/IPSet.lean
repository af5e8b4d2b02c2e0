/-
  XrayCore.Geodata.IPSet

  Addresses, prefixes and the sets a matcher looks into.

  `net.IP` is a slice of any length, `netip.Addr` an address of one of the two families;
  an address of the first family can come in two forms and has one `netip.Addr`.  The
  sets themselves are those of a library that is not part of the repository: `Netipx`
  names what is used of it and the laws that are needed.
-/

import XrayCore.Bytes.Slice

namespace XrayCore.Geodata

open List

/-! ## Addresses -/

/-- `net.IP`. -/
abbrev NetIP := Bytes

/-- `netip.Addr` of one of the two families. -/
structure Addr where
  is4 : Bool
  bytes : Bytes
  length_eq : bytes.length = if is4 then 4 else 16
deriving DecidableEq

/-- `BitLen`. -/
def Addr.bitLen (a : Addr) : ℕ := 8 * a.bytes.length

/-- What stands before an IPv4 address in its IPv6 form. -/
def v4InV6 : Bytes := List.replicate 10 0 ++ [0xff, 0xff]

/-- `net.IP.To4`. -/
def to4 (ip : NetIP) : Option Bytes :=
  if ip.length = 4 then some ip
  else if ip.length = 16 ∧ ip.take 12 = v4InV6 then some (ip.drop 12)
  else none

/-- `net.IP.To16`. -/
def to16 (ip : NetIP) : Option Bytes :=
  if ip.length = 4 then some (v4InV6 ++ ip)
  else if ip.length = 16 then some ip
  else none

/-- `netip.AddrFromSlice`. -/
def addrFromSlice (b : Bytes) : Option Addr :=
  if h : b.length = 4 then some ⟨true, b, h⟩
  else if h : b.length = 16 then some ⟨false, b, h⟩
  else none

/-- `netip.Addr.Unmap`. -/
def Addr.unmap (a : Addr) : Addr :=
  if h : a.is4 = false ∧ a.bytes.take 12 = v4InV6 then
    ⟨true, a.bytes.drop 12, by rw [List.length_drop, a.length_eq, h.1]; rfl⟩
  else a

/-- The key of an address: its family, and its /24 or /64. -/
def Addr.key (a : Addr) : Bytes :=
  if a.is4 then 4 :: (a.bytes.take 3 ++ List.replicate 5 0) else 6 :: a.bytes.take 8

/-- `prefixKeyFromIP`. -/
def prefixKeyFromIP (ip : NetIP) : Option Bytes :=
  match to4 ip with
  | some ip4 => some (4 :: (ip4.take 3 ++ List.replicate 5 0))
  | none =>
    match to16 ip with
    | some ip16 => some (6 :: ip16.take 8)
    | none => none

/-- The first byte of a key tells the family. -/
theorem Addr.head_key (a : Addr) : a.key.head? = some (if a.is4 then 4 else 6) := by
  rw [Addr.key]
  cases a.is4 <;> rfl

/-! ## Prefixes -/

/-- The bits of an address, the first one first. -/
def bitsOf (bytes : Bytes) : List Bool :=
  bytes.flatMap fun b => (List.range 8).map fun i => b.toNat.testBit (7 - i)

/-- `netip.Prefix`, of a length that its address has. -/
structure Prefix where
  addr : Addr
  bits : ℕ
  bits_le : bits ≤ addr.bitLen

/-- `netip.Prefix.Contains`. -/
def Prefix.contains (p : Prefix) (a : Addr) : Bool :=
  p.addr.is4 == a.is4 && (bitsOf p.addr.bytes).take p.bits == (bitsOf a.bytes).take p.bits

/-- The first bits are those of the first bytes. -/
theorem take_bitsOf (bytes : Bytes) {k n : ℕ} (h : n ≤ 8 * k) :
    (bitsOf bytes).take n = (bitsOf (bytes.take k)).take n := by
  induction bytes generalizing k n with
  | nil => rw [take_nil]
  | cons b bytes ih =>
    cases k with
    | zero =>
      obtain rfl : n = 0 := by omega
      rfl
    | succ k =>
      rw [take_succ_cons, bitsOf, bitsOf, flatMap_cons, flatMap_cons,
        take_append, take_append]
      congr 1
      refine ih ?_
      rw [length_map, length_range]
      omega

/-- A prefix does not tell addresses apart that agree in their first `k` bytes, if it is not
    longer than these. -/
theorem Prefix.contains_congr {p : Prefix} {a b : Addr} {k : ℕ} (hbits : p.bits ≤ 8 * k)
    (his4 : a.is4 = b.is4) (hbytes : a.bytes.take k = b.bytes.take k) :
    p.contains a = p.contains b := by
  rw [Prefix.contains, Prefix.contains, take_bitsOf a.bytes hbits, take_bitsOf b.bytes hbits,
    hbytes, his4]

/-! ## The longest prefix -/

/-- The loop over the prefixes for the longest. -/
def longest (max : ℕ) (ps : List Prefix) : ℕ :=
  ps.foldl (fun max p => if p.bits > max then p.bits else max) max

/-- The longest of the prefixes, `0xff` for none at all and `0xfe` for the whole family. -/
def maxBits (ps : List Prefix) : UInt8 :=
  if ps.isEmpty then 0xff
  else if longest 0 ps = 0 then 0xfe
  else UInt8.ofNat (longest 0 ps)

/-- The longest prefix so far only grows. -/
theorem le_longest (ps : List Prefix) (m : ℕ) :
    m ≤ longest m ps ∧ ∀ p ∈ ps, p.bits ≤ longest m ps := by
  induction ps generalizing m with
  | nil => exact ⟨Nat.le_refl m, nofun⟩
  | cons q ps ih =>
    obtain ⟨hstart, hall⟩ := ih (if q.bits > m then q.bits else m)
    rw [longest, foldl_cons]
    have hboth : m ≤ (if q.bits > m then q.bits else m) ∧
        q.bits ≤ (if q.bits > m then q.bits else m) := by
      split <;> omega
    refine ⟨Nat.le_trans hboth.1 hstart, fun p hp => ?_⟩
    rcases mem_cons.mp hp with rfl | hp
    · exact Nat.le_trans hboth.2 hstart
    · exact hall p hp

/-- What bounds all prefixes bounds the longest. -/
theorem longest_le {ps : List Prefix} {m n : ℕ} (hm : m ≤ n) (hps : ∀ p ∈ ps, p.bits ≤ n) :
    longest m ps ≤ n := by
  induction ps generalizing m with
  | nil => exact hm
  | cons q ps ih =>
    rw [longest, foldl_cons]
    refine ih ?_ fun p hp => hps p (mem_cons_of_mem _ hp)
    have hq := hps q mem_cons_self
    split <;> omega

theorem Addr.bitLen_le (a : Addr) : a.bitLen ≤ 128 := by
  rw [Addr.bitLen, a.length_eq]
  split <;> omega

/-- A small maximum bounds all prefixes. -/
theorem bits_le_of_maxBits {ps : List Prefix} {n : UInt8} (hmax : maxBits ps ≤ n)
    (hn : n < 0xfe) : ∀ p ∈ ps, p.bits ≤ n.toNat := by
  intro p hp
  have hle : (maxBits ps).toNat ≤ n.toNat := UInt8.le_iff_toNat_le.mp hmax
  have hlt : n.toNat < 0xfe := UInt8.lt_iff_toNat_lt.mp hn
  have hne : ps.isEmpty = false := by
    cases ps with
    | nil => nomatch hp
    | cons => rfl
  rw [maxBits, hne, if_neg Bool.noConfusion] at hle
  by_cases hzero : longest 0 ps = 0
  · rw [if_pos hzero] at hle
    have hfe : (0xfe : UInt8).toNat = 0xfe := rfl
    omega
  · rw [if_neg hzero] at hle
    -- no prefix is long enough to wrap around
    have hall : longest 0 ps ≤ 128 :=
      longest_le (Nat.zero_le _) fun q _ => Nat.le_trans q.bits_le q.addr.bitLen_le
    have hsize : longest 0 ps < 2 ^ 8 := by omega
    rw [UInt8.toNat_ofNat_of_lt' hsize] at hle
    exact Nat.le_trans ((le_longest ps 0).2 p hp) hle

/-! ## Sets -/

/-- What is used of the library of address sets: how a slice is read as an address, with an
    IPv4 address in its own family; a builder that takes prefixes, the prefixes that cover a
    set, and whether an address is in it.  An address is in a set if one of its prefixes
    contains it. -/
class Netipx where
  fromStdIP : NetIP → Option Addr
  fromStdIP_eq : ∀ ip, fromStdIP ip = (addrFromSlice ip).map Addr.unmap
  Set : Type
  build : List Prefix → Except String Set
  prefixes : Set → List Prefix
  contains : Set → Addr → Bool
  contains_eq : ∀ s a, contains s a = (prefixes s).any fun p => p.contains a

export Netipx (fromStdIP fromStdIP_eq)

/-- The sets that are just what was added. -/
abbrev Netipx.plain : Netipx where
  fromStdIP ip := (addrFromSlice ip).map Addr.unmap
  fromStdIP_eq _ := rfl
  Set := List Prefix
  build ps := .ok ps
  prefixes ps := ps
  contains ps a := ps.any fun p => p.contains a
  contains_eq _ _ := rfl

/-- `CIDR`. -/
structure CIDR where
  ip : Bytes
  len : UInt32

/-- The prefix of a `CIDR`, if its address and its length are valid. -/
def CIDR.prefixFrom (c : CIDR) : Option Prefix :=
  match addrFromSlice c.ip with
  | none => none
  | some addr => if h : c.len.toNat ≤ addr.bitLen then some ⟨addr, c.len.toNat, h⟩ else none

variable [Netipx]

/-- The key of a slice is that of its address. -/
theorem prefixKeyFromIP_eq (ip : NetIP) : prefixKeyFromIP ip = (fromStdIP ip).map Addr.key := by
  by_cases h4 : ip.length = 4
  · simp [prefixKeyFromIP, to4, fromStdIP_eq, addrFromSlice, h4, Addr.unmap, Addr.key]
  · by_cases h16 : ip.length = 16
    · by_cases hmapped : ip.take 12 = v4InV6
      · simp [prefixKeyFromIP, to4, fromStdIP_eq, addrFromSlice, h16, hmapped, Addr.unmap, Addr.key]
      · simp [prefixKeyFromIP, to4, to16, fromStdIP_eq, addrFromSlice, h16, hmapped, Addr.unmap,
          Addr.key]
    · simp [prefixKeyFromIP, to4, to16, fromStdIP_eq, addrFromSlice, h4, h16]

/-- `IPSet`. -/
structure IPSet where
  ipv4 : Netipx.Set
  ipv6 : Netipx.Set
  max4 : UInt8
  max6 : UInt8

/-- `IPSetFactory.createFrom`, of what the yield adds or of its error. -/
def createFrom (yield : Except String (List CIDR)) : Except String IPSet := do
  let cidrs ← yield
  let ps := cidrs.filterMap CIDR.prefixFrom
  let ipv4 ← Netipx.build (ps.filter fun p => p.addr.is4)
  let ipv6 ← Netipx.build (ps.filter fun p => !p.addr.is4)
  return {
    ipv4, ipv6
    max4 := maxBits (Netipx.prefixes ipv4)
    max6 := maxBits (Netipx.prefixes ipv6) }

end XrayCore.Geodata
