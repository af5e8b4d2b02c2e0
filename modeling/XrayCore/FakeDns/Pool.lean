/-
  XrayCore.FakeDns.Pool

  The network of a fake DNS pool, and the search for an address that is not in use.

  The search counts in numbers and turns each of them into bytes by `big.Int.Bytes`, which
  leaves out zeros in front: a pool whose first byte is zero gets addresses of too few bytes.
  Where the first byte is not zero, `IPNet.address` numbers the addresses of the pool, and
  `probe_eq_none` says that a search without an end would have met all of them in use.
-/

import XrayCore.Bytes.BigInt
import XrayCore.Protocol.Address

namespace XrayCore.FakeDns

open Bytes Protocol Wire List

/-! ## Networks -/

/-- `net.IPNet`, as `net.ParseCIDR` makes it: the address of the network has four or sixteen
    bytes, and is zero behind its mask of `ones` bits. -/
structure IPNet where
  ip : Bytes
  ones : ℕ
  hlength : ip.length = 4 ∨ ip.length = 16
  hones : ones ≤ 8 * ip.length
  hmasked : 2 ^ (8 * ip.length - ones) ∣ bigEndian ip

/-- `To4`. -/
def to4 (ip : Bytes) : Option Bytes :=
  if ip.length = 4 then some ip
  else if ip.length = 16 ∧ ip.take 12 = List.replicate 10 0 ++ [0xff, 0xff] then some (ip.drop 12)
  else none

/-- `IP()` of an address that is not a domain. -/
def addressIP : Address → Option Bytes
  | .ipv4 ip => some ip.toList
  | .ipv6 ip => some ip.toList
  | .domain _ => none

namespace IPNet

/-- `rooms`, the bits behind the mask. -/
def rooms (n : IPNet) : ℕ := 8 * n.ip.length - n.ones

/-- `Contains`: as many bytes as the network, and the same bits under the mask. -/
def contains (n : IPNet) (ip : Bytes) : Bool :=
  let nn := (to4 n.ip).getD n.ip
  let ip := (to4 ip).getD ip
  ip.length == nn.length && bigEndian ip / 2 ^ n.rooms == bigEndian nn / 2 ^ n.rooms

/-- The loop of `GetFakeIPForDomain`, for as many rounds as there is fuel; `none` of an address is
    the `nil` of `net.IPAddress`. -/
def probe (n : IPNet) (inUse : Option Address → Bool) : ℕ → ℕ → Option (Option Address)
  | 0, _ => none
  | fuel + 1, bigIntIP =>
    let ip := ipAddress (bytesOf bigIntIP)
    if inUse ip then
      let bigIntIP := bigIntIP + 1
      n.probe inUse fuel
        (if n.contains (bytesOf bigIntIP) then bigIntIP else bigEndian n.ip)
    else some ip

/-- The address is an IP of the network. -/
def Holds (n : IPNet) (ip : Address) : Prop :=
  ∃ bytes, addressIP ip = some bytes ∧ n.contains bytes = true

/-! ## Networks whose first byte is not zero -/

/-- The first byte of the network is not zero. -/
def Leads (n : IPNet) : Prop := n.ip.head? ≠ some 0

section Leads

variable {n : IPNet}

/-- The network has a first byte. -/
theorem exists_cons (n : IPNet) : ∃ b bs, n.ip = b :: bs := by
  cases hip : n.ip with
  | nil =>
    have := n.hlength
    rw [hip] at this
    simp at this
  | cons b bs => exact ⟨b, bs, rfl⟩

theorem Leads.le_base (h : n.Leads) : 256 ^ (n.ip.length - 1) ≤ bigEndian n.ip := by
  obtain ⟨b, bs, hip⟩ := n.exists_cons
  have hb : 1 ≤ b.toNat := by
    unfold Leads at h
    rw [hip, head?_cons] at h
    have hne : b.toNat ≠ 0 := fun hzero => h (congrArg some (UInt8.toNat_inj.mp hzero))
    omega
  rw [hip, bigEndian_cons, length_cons, Nat.add_sub_cancel]
  have := Nat.mul_le_mul_right (256 ^ bs.length) hb
  omega

theorem pow_rooms_dvd (n : IPNet) : 2 ^ n.rooms ∣ 256 ^ n.ip.length := by
  have hpow : 256 ^ n.ip.length = 2 ^ (8 * n.ip.length) := by
    rw [Nat.pow_mul]
  rw [hpow]
  exact Nat.pow_dvd_pow 2 (Nat.sub_le _ _)

variable {k : ℕ}

/-- The last address of the network has no more bytes than the first. -/
theorem base_add_lt (n : IPNet) (hk : k < 2 ^ n.rooms) :
    bigEndian n.ip + k < 256 ^ n.ip.length := by
  obtain ⟨q, hq⟩ := n.hmasked
  obtain ⟨r, hr⟩ := n.pow_rooms_dvd
  have hlt := bigEndian_lt n.ip
  have hrooms : 2 ^ (8 * n.ip.length - n.ones) = 2 ^ n.rooms := rfl
  rw [hrooms] at hq
  rw [hq, hr] at hlt ⊢
  have hqr : q + 1 ≤ r := Nat.lt_of_mul_lt_mul_left hlt
  have hle := Nat.mul_le_mul_left (2 ^ n.rooms) hqr
  rw [Nat.mul_add, Nat.mul_one] at hle
  omega

theorem Leads.length_bytesOf (h : n.Leads) (hk : k < 2 ^ n.rooms) :
    (bytesOf (bigEndian n.ip + k)).length = n.ip.length := by
  have hlow := h.le_base
  have hhigh := n.base_add_lt hk
  obtain ⟨b, bs, hip⟩ := n.exists_cons
  have hlength : n.ip.length = bs.length + 1 := by rw [hip, length_cons]
  rw [hlength] at hlow hhigh ⊢
  exact Bytes.length_bytesOf (by rw [Nat.add_sub_cancel] at hlow; omega) hhigh

/-- Bytes of a number that is large enough are not an IPv4 address in sixteen bytes. -/
theorem to4_getD_of_le {bytes : Bytes} (hlow : 256 ^ (bytes.length - 1) ≤ bigEndian bytes) :
    (to4 bytes).getD bytes = bytes := by
  unfold to4
  split
  · rfl
  split
  · next hlong hmapped =>
    -- twelve known bytes in front leave a small number
    obtain ⟨hlength, htake⟩ := hmapped
    have hbytes : bytes = 0 :: bytes.drop 1 := by
      have hsplit := take_append_drop 12 bytes
      rw [htake] at hsplit
      rw [← hsplit]
      rfl
    rw [hbytes, bigEndian_cons] at hlow
    have hlt := bigEndian_lt (bytes.drop 1)
    simp only [length_cons, length_drop, hlength, UInt8.toNat_zero, Nat.zero_mul,
      Nat.zero_add, Nat.add_sub_cancel] at hlow hlt
    omega
  · rfl

theorem bytesOf_low {x : ℕ} (hpos : 0 < x) :
    256 ^ ((bytesOf x).length - 1) ≤ bigEndian (bytesOf x) := by
  have hlength : 0 < (bytesOf x).length := (lt_length_bytesOf_iff x 0).mpr hpos
  rw [bigEndian_bytesOf]
  exact (lt_length_bytesOf_iff x _).mp (by omega)

/-- In such a network numbers are addresses of it exactly for as far as it goes. -/
theorem Leads.contains_iff (h : n.Leads) (k : ℕ) :
    n.contains (bytesOf (bigEndian n.ip + k)) = true ↔ k < 2 ^ n.rooms := by
  have hbase := h.le_base
  have hpos : 0 < bigEndian n.ip + k := by
    have := Nat.pow_pos (n := n.ip.length - 1) (show 0 < 256 by decide)
    omega
  have hbytes := to4_getD_of_le (bytesOf_low hpos)
  unfold contains
  rw [hbytes, to4_getD_of_le hbase]
  simp only [Bool.and_eq_true, beq_iff_eq, bigEndian_bytesOf]
  obtain ⟨q, hq⟩ : 2 ^ n.rooms ∣ bigEndian n.ip := n.hmasked
  have hrooms := Nat.two_pow_pos n.rooms
  rw [hq, Nat.mul_add_div hrooms, Nat.mul_div_cancel_left _ hrooms]
  constructor
  · rintro ⟨-, hdiv⟩
    have hzero : k / 2 ^ n.rooms = 0 := by omega
    exact (Nat.div_eq_zero_iff_lt hrooms).mp hzero
  · intro hk
    rw [← hq]
    refine ⟨h.length_bytesOf hk, ?_⟩
    rw [Nat.div_eq_of_lt hk, Nat.add_zero]

/-- The bytes of an address that is not an IPv4 address in sixteen bytes. -/
theorem ipAddress_of_to4 {bytes : Bytes} (hlength : bytes.length = 4 ∨ bytes.length = 16)
    (hto4 : (to4 bytes).getD bytes = bytes) :
    ∃ ip, ipAddress bytes = some ip ∧ addressIP ip = some bytes := by
  unfold ipAddress
  split
  · exact ⟨_, rfl, rfl⟩
  next hshort =>
  rw [dif_pos (hlength.resolve_left hshort)]
  split
  · next hmapped =>
    have hlong := hlength.resolve_left hshort
    rw [to4, if_neg hshort, if_pos ⟨hlong, hmapped⟩, Option.getD_some] at hto4
    have := congrArg length hto4
    rw [length_drop, hlong] at this
    omega
  · exact ⟨_, rfl, rfl⟩

/-- Address number `k` of the network. -/
theorem Leads.exists_address (h : n.Leads) (hk : k < 2 ^ n.rooms) :
    ∃ ip, ipAddress (bytesOf (bigEndian n.ip + k)) = some ip ∧
      addressIP ip = some (bytesOf (bigEndian n.ip + k)) := by
  have hbase := h.le_base
  have hpos : 0 < bigEndian n.ip + k := by
    have := Nat.pow_pos (n := n.ip.length - 1) (show 0 < 256 by decide)
    omega
  refine ipAddress_of_to4 ?_ (to4_getD_of_le (bytesOf_low hpos))
  rw [h.length_bytesOf hk]
  exact n.hlength

theorem Leads.holds (h : n.Leads) (hk : k < 2 ^ n.rooms) {ip : Address}
    (hip : ipAddress (bytesOf (bigEndian n.ip + k)) = some ip) : n.Holds ip := by
  obtain ⟨a, ha, hbytes⟩ := h.exists_address hk
  rw [ha] at hip
  cases hip
  exact ⟨_, hbytes, (h.contains_iff k).mpr hk⟩

theorem Leads.address_inj (h : n.Leads) {j : ℕ} (hj : j < 2 ^ n.rooms) (hk : k < 2 ^ n.rooms)
    (hsame : ipAddress (bytesOf (bigEndian n.ip + j)) = ipAddress (bytesOf (bigEndian n.ip + k))) :
    j = k := by
  obtain ⟨a, ha, hbytes⟩ := h.exists_address hj
  obtain ⟨b, hb, hbytes'⟩ := h.exists_address hk
  rw [ha, hb, Option.some.injEq] at hsame
  rw [hsame, hbytes', Option.some.injEq] at hbytes
  have := bytesOf_inj hbytes
  omega

/-- One more round of the search goes to the next address, behind the last to the first. -/
theorem Leads.next (h : n.Leads) (hk : k < 2 ^ n.rooms) :
    (if n.contains (bytesOf (bigEndian n.ip + k + 1)) then bigEndian n.ip + k + 1
      else bigEndian n.ip) = bigEndian n.ip + (k + 1) % 2 ^ n.rooms := by
  rw [Nat.add_assoc]
  by_cases hlast : k + 1 < 2 ^ n.rooms
  · rw [if_pos ((h.contains_iff _).mpr hlast), Nat.mod_eq_of_lt hlast]
  · have hend : k + 1 = 2 ^ n.rooms := by omega
    rw [if_neg (fun hin => hlast ((h.contains_iff _).mp hin)), hend, Nat.mod_self, Nat.add_zero]

variable {inUse : Option Address → Bool}

/-- What the search finds is an address of the network that is not in use. -/
theorem Leads.probe_some (h : n.Leads) {fuel : ℕ} {ip : Option Address} (hk : k < 2 ^ n.rooms)
    (hprobe : n.probe inUse fuel (bigEndian n.ip + k) = some ip) :
    inUse ip = false ∧ ∃ j < 2 ^ n.rooms, ip = ipAddress (bytesOf (bigEndian n.ip + j)) := by
  induction fuel generalizing k with
  | zero => cases hprobe
  | succ fuel ih =>
    rw [probe] at hprobe
    dsimp only at hprobe
    split at hprobe
    · rw [h.next hk] at hprobe
      exact ih (Nat.mod_lt _ (Nat.two_pow_pos _)) hprobe
    · next hfree =>
      cases hprobe
      exact ⟨by simpa using hfree, k, hk, rfl⟩

/-- A search that does not end in some rounds has met as many addresses in use, one after the
    other. -/
theorem Leads.probe_eq_none (h : n.Leads) {fuel : ℕ} (hk : k < 2 ^ n.rooms)
    (hprobe : n.probe inUse fuel (bigEndian n.ip + k) = none) :
    ∀ j < fuel, inUse (ipAddress (bytesOf (bigEndian n.ip + (k + j) % 2 ^ n.rooms))) = true := by
  induction fuel generalizing k with
  | zero => exact fun j hj => absurd hj (Nat.not_lt_zero j)
  | succ fuel ih =>
    intro j hj
    rw [probe] at hprobe
    dsimp only at hprobe
    split at hprobe
    · next hused =>
      rw [h.next hk] at hprobe
      cases j with
      | zero => rw [Nat.add_zero, Nat.mod_eq_of_lt hk, hused]
      | succ j =>
        have hrest := ih (Nat.mod_lt _ (Nat.two_pow_pos _)) hprobe j (by omega)
        rwa [Nat.mod_add_mod, Nat.add_assoc, Nat.add_comm 1 j] at hrest
    · cases hprobe

/-- A search finds an address if fewer are in use than the network has. -/
theorem Leads.probe_isSome (h : n.Leads) (hk : k < 2 ^ n.rooms) (used : List (Option Address))
    (hused : ∀ ip, inUse ip = true → ip ∈ used) (hroom : used.length < 2 ^ n.rooms) :
    (n.probe inUse (2 ^ n.rooms) (bigEndian n.ip + k)).isSome := by
  cases hprobe : n.probe inUse (2 ^ n.rooms) (bigEndian n.ip + k) with
  | some ip => rfl
  | none =>
    -- the addresses it met are all of the network, and are different
    have hall : ∀ i < 2 ^ n.rooms, ipAddress (bytesOf (bigEndian n.ip + i)) ∈ used := by
      intro i hi
      have hmet := h.probe_eq_none hk hprobe ((i + 2 ^ n.rooms - k) % 2 ^ n.rooms)
        (Nat.mod_lt _ (Nat.two_pow_pos _))
      rw [Nat.add_mod_mod, show k + (i + 2 ^ n.rooms - k) = i + 2 ^ n.rooms by omega,
        Nat.add_mod_right, Nat.mod_eq_of_lt hi] at hmet
      exact hused _ hmet
    have hnodup : ((range (2 ^ n.rooms)).map
        fun i => ipAddress (bytesOf (bigEndian n.ip + i))).Nodup := by
      refine List.Nodup.map_on ?_ nodup_range
      intro i hi j hj hsame
      exact h.address_inj (mem_range.mp hi) (mem_range.mp hj) hsame
    have hsub : ((range (2 ^ n.rooms)).map
        fun i => ipAddress (bytesOf (bigEndian n.ip + i))) ⊆ used := by
      intro ip hip
      obtain ⟨i, hi, rfl⟩ := mem_map.mp hip
      exact hall i (mem_range.mp hi)
    have hle := (subperm_of_subset hnodup hsub).length_le
    rw [length_map, length_range] at hle
    omega

end Leads

/-! ## Networks whose first byte is zero -/

/-- The first number of a network with a zero in front has too few bytes. -/
theorem length_bytesOf_lt {n : IPNet} (h : ¬ n.Leads) :
    (bytesOf (bigEndian n.ip)).length < n.ip.length := by
  obtain ⟨b, bs, hip⟩ := n.exists_cons
  have hb : b = 0 := by simpa [Leads, hip] using h
  have hsmall : bigEndian n.ip < 256 ^ bs.length := by
    rw [hip, bigEndian_cons, hb, UInt8.toNat_zero, Nat.zero_mul, Nat.zero_add]
    exact bigEndian_lt bs
  have hnot : ¬ bs.length < (bytesOf (bigEndian n.ip)).length := fun hlt =>
    Nat.not_le_of_lt hsmall ((lt_length_bytesOf_iff _ _).mp hlt)
  rw [hip, length_cons, ← hip]
  omega

/-- An IPv4 address in sixteen bytes is a number of more than four. -/
theorem le_bigEndian_of_mapped {ip : Bytes} (hlength : ip.length = 16)
    (hmapped : ip.take 12 = List.replicate 10 0 ++ [0xff, 0xff]) : 256 ^ 4 ≤ bigEndian ip := by
  have hsplit := take_append_drop 12 ip
  rw [hmapped] at hsplit
  have hrest : (ip.drop 12).length = 4 := by rw [length_drop, hlength]
  rw [← hsplit]
  generalize ip.drop 12 = rest at hrest
  simp only [replicate, cons_append, nil_append, bigEndian_cons, length_cons,
    hrest, UInt8.toNat_zero, Nat.zero_mul, Nat.zero_add]
  have hff : (0xff : UInt8).toNat = 255 := rfl
  rw [hff]
  omega

/-- No address comes of it, or one of another family. -/
theorem not_holds_first {n : IPNet} (h : ¬ n.Leads) {ip : Address}
    (hip : ipAddress (bytesOf (bigEndian n.ip)) = some ip) : ¬ n.Holds ip := by
  have hshort := length_bytesOf_lt h
  unfold ipAddress at hip
  split at hip
  · next hfour =>
    cases hip
    rintro ⟨bytes, hbytes, hcontains⟩
    obtain rfl := Option.some.inj hbytes
    have hlong : n.ip.length = 16 := n.hlength.resolve_left (by omega)
    have hnet : (to4 n.ip).getD n.ip = n.ip := by
      unfold to4
      rw [if_neg (by omega)]
      split
      · next hmapped =>
        have hlow := (lt_length_bytesOf_iff _ 4).mpr (le_bigEndian_of_mapped hmapped.1 hmapped.2)
        omega
      · rfl
    unfold contains at hcontains
    rw [hnet] at hcontains
    simp [to4, hfour, hlong] at hcontains
  · next hnot =>
    rw [dif_neg (by have := n.hlength; omega)] at hip
    cases hip

end IPNet

end XrayCore.FakeDns
