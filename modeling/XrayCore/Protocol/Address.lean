/-
  XrayCore.Protocol.Address

  Destinations, and the parser of addresses that the protocols share.

  The writer takes any domain of up to 256 bytes, and gives its length in one byte; the
  reader only takes domains of letters, digits and three signs.  What is written for
  other domains is not read back: `Address.Readable` are the addresses for which it is.
-/

import XrayCore.Wire.Parser

namespace XrayCore.Protocol

open Wire

/-! ## Destinations -/

/-- `net.Network`. -/
inductive Network where
  | unknown
  | tcp
  | udp
  | unix
deriving DecidableEq

/-- `net.Address`. -/
inductive Address where
  | ipv4 (ip : Vector UInt8 4)
  | ipv6 (ip : Vector UInt8 16)
  | domain (d : Bytes)
deriving DecidableEq

/-- `net.Destination`. -/
structure Destination where
  network : Network
  address : Address
  port : UInt16
deriving DecidableEq

/-- `net.IPAddress`, of four bytes, or of sixteen that can be an IPv4 address. -/
def ipAddress (ip : Bytes) : Option Address :=
  if h : ip.length = 4 then some (.ipv4 ⟨ip.toArray, by simpa using h⟩)
  else if h : ip.length = 16 then
    if ip.take 12 = List.replicate 10 0 ++ [0xff, 0xff] then
      some (.ipv4 ⟨(ip.drop 12).toArray, by simp [h]⟩)
    else some (.ipv6 ⟨ip.toArray, by simpa using h⟩)
  else none

/-! ## The parser -/

/-- The bytes of the families in an `addressParser`. -/
structure AddressParser where
  ipv4 : UInt8
  domain : UInt8
  ipv6 : UInt8
  nodup : [ipv4, domain, ipv6].Nodup

/-- `isDomainTooLong`. -/
def isDomainTooLong (domain : Bytes) : Bool := domain.length > 256

/-- `maybeIPPrefix`. -/
def maybeIP (b : UInt8) : Bool := b == '['.toUInt8 || ('0'.toUInt8 ≤ b && b ≤ '9'.toUInt8)

/-- The signs of `isValidDomain`. -/
def validInDomain (c : UInt8) : Bool :=
  ('0'.toUInt8 ≤ c && c ≤ '9'.toUInt8) || ('a'.toUInt8 ≤ c && c ≤ 'z'.toUInt8) ||
    ('A'.toUInt8 ≤ c && c ≤ 'Z'.toUInt8) || c == '-'.toUInt8 || c == '.'.toUInt8 ||
    c == '_'.toUInt8

/-- `isValidDomain`. -/
def isValidDomain (d : Bytes) : Bool := d.all validInDomain

namespace AddressParser

/-- `writeAddress`. -/
def writeAddress (p : AddressParser) : Address → Except String Bytes
  | .ipv4 ip => .ok (p.ipv4 :: ip.toList)
  | .ipv6 ip => .ok (p.ipv6 :: ip.toList)
  | .domain d =>
    if isDomainTooLong d then .error "Super long domain is not supported: "
    else .ok (p.domain :: UInt8.ofNat d.length :: d)

/-- `WriteAddressPort` with the port first: what was written, and the error. -/
def writeAddressPort (p : AddressParser) (addr : Address) (port : UInt16) :
    Bytes × Option String :=
  match p.writeAddress addr with
  | .ok bytes => (putUint16 port ++ bytes, none)
  | .error e => (putUint16 port, some e)

/-- What `readAddress` makes of a domain; `parseAddress` is `net.ParseAddress`. -/
def readDomain (parseAddress : Bytes → Address) (domain : Bytes) :
    Parser String Address :=
  let named : Parser String Address :=
    if isValidDomain domain then return .domain domain else .fail "invalid domain name: "
  if domain.head?.any maybeIP then
    match parseAddress domain with
    | .domain _ => named
    | ip => return ip
  else named

/-- `readAddress`, into a buffer that holds the bytes of the port. -/
def readAddress (p : AddressParser) (parseAddress : Bytes → Address) (port : Bytes) :
    Parser String Address := do
  let addrType ← Parser.byte
  if addrType = p.ipv4 then
    let ip ← Parser.take 4
    match ipAddress ip with
    | some addr => return addr
    | none => .fail "invalid IP format: "
  else if addrType = p.domain then
    let domainLength ← Parser.byte
    let d ← Parser.take domainLength.toNat
    -- for no bytes at all, `BytesFrom(-0)` is the whole buffer
    readDomain parseAddress (if domainLength = 0 then port ++ [addrType, 0] else d)
  else if addrType = p.ipv6 then
    let ip ← Parser.take 16
    match ipAddress ip with
    | some addr => return addr
    | none => .fail "invalid IP format: "
  else .fail "unknown address type: "

/-- `ReadAddressPort` with the port first. -/
def readAddressPort (p : AddressParser) (parseAddress : Bytes → Address) :
    Parser String (Address × UInt16) := do
  let hi ← Parser.byte
  let lo ← Parser.byte
  let addr ← p.readAddress parseAddress [hi, lo]
  return (addr, Wire.uint16 hi lo)

end AddressParser

/-! ## What is read back -/

/-- The addresses whose form on the wire is read without an error. -/
def Address.Readable : Address → Prop
  | .ipv4 _ => True
  | .ipv6 _ => True
  | .domain d => d ≠ [] ∧ d.length ≤ 255 ∧ isValidDomain d = true

instance : (a : Address) → Decidable a.Readable
  | .ipv4 _ => inferInstanceAs (Decidable True)
  | .ipv6 _ => inferInstanceAs (Decidable True)
  | .domain _ => inferInstanceAs (Decidable (_ ∧ _ ∧ _))

/-- The addresses that are read back as they are: an IPv6 address that is not an IPv4 one, a
    readable domain that is not the text of an IP address. -/
def Address.Plain (parseAddress : Bytes → Address) : Address → Prop
  | .ipv4 _ => True
  | .ipv6 ip => ip.toList.take 12 ≠ List.replicate 10 0 ++ [0xff, 0xff]
  | .domain d => (Address.domain d).Readable ∧ ∃ d', parseAddress d = .domain d'

variable {a : Address}

theorem Address.Plain.readable {parseAddress : Bytes → Address} (h : a.Plain parseAddress) :
    a.Readable := by
  cases a with
  | ipv4 ip => trivial
  | ipv6 ip => trivial
  | domain d => exact h.1

/-- The length of an address on the wire, with its port. -/
def Address.size : Address → ℕ
  | .ipv4 _ => 7
  | .ipv6 _ => 19
  | .domain d => 4 + d.length

theorem ipAddress_ipv4 (ip : Vector UInt8 4) : ipAddress ip.toList = some (.ipv4 ip) := by
  have hlen : ip.toList.length = 4 := Vector.length_toList
  rw [ipAddress, dif_pos hlen]
  rfl

theorem exists_ipAddress_ipv6 (parseAddress : Bytes → Address) (ip : Vector UInt8 16) :
    ∃ addr, ipAddress ip.toList = some addr ∧
      ((Address.ipv6 ip).Plain parseAddress → addr = .ipv6 ip) := by
  have hlen : ip.toList.length = 16 := Vector.length_toList
  rw [ipAddress, dif_neg (by omega), dif_pos hlen]
  split
  · next hmapped => exact ⟨_, rfl, fun hplain => absurd hmapped hplain⟩
  · exact ⟨_, rfl, fun _ => rfl⟩

theorem reads_readDomain (parseAddress : Bytes → Address) {d : Bytes}
    (h : isValidDomain d = true) :
    ∃ addr, Reads (AddressParser.readDomain parseAddress d) [] addr ∧
      ((Address.domain d).Plain parseAddress → addr = .domain d) := by
  rw [AddressParser.readDomain, if_pos h]
  split
  · split
    · exact ⟨_, reads_pure _, fun _ => rfl⟩
    · next hip =>
      -- a plain domain is not the text of an IP address
      refine ⟨_, reads_pure _, fun hplain => ?_⟩
      obtain ⟨d', hd'⟩ := hplain.2
      exact absurd hd' (hip d')
  · exact ⟨_, reads_pure _, fun _ => rfl⟩

/-- A readable address is read, up to the last byte that was written for it, and a plain one
    as it is. -/
theorem reads_readAddress (p : AddressParser) (parseAddress : Bytes → Address)
    (port : Bytes) (ha : a.Readable) :
    ∃ bytes, p.writeAddress a = .ok bytes ∧ bytes.length + 2 = a.size ∧
      ∃ addr, Reads (p.readAddress parseAddress port) bytes addr ∧
        (a.Plain parseAddress → addr = a) := by
  obtain ⟨ipv4, domain, ipv6, hnodup⟩ := p
  have hne : ipv4 ≠ domain ∧ ipv4 ≠ ipv6 ∧ domain ≠ ipv6 := by
    simpa [and_assoc] using hnodup
  cases a with
  | ipv4 ip =>
    refine ⟨_, rfl, by simp [Address.size], ?_⟩
    have hlen : ip.toList.length = 4 := Vector.length_toList
    refine ⟨.ipv4 ip, ?_, fun _ => rfl⟩
    show Reads _ ([ipv4] ++ ip.toList) (Address.ipv4 ip)
    refine (reads_byte ipv4).bind ?_
    rw [if_pos rfl]
    refine (reads_take hlen).last ?_
    rw [ipAddress_ipv4]
    exact reads_pure _
  | ipv6 ip =>
    refine ⟨_, rfl, by simp [Address.size], ?_⟩
    have hlen : ip.toList.length = 16 := Vector.length_toList
    obtain ⟨addr, haddr, hplain⟩ := exists_ipAddress_ipv6 parseAddress ip
    refine ⟨addr, ?_, hplain⟩
    show Reads _ ([ipv6] ++ ip.toList) addr
    refine (reads_byte ipv6).bind ?_
    rw [if_neg hne.2.1.symm, if_neg hne.2.2.symm, if_pos rfl]
    refine (reads_take hlen).last ?_
    rw [haddr]
    exact reads_pure addr
  | domain d =>
    obtain ⟨hne0, hle, hvalid⟩ := ha
    have hlong : isDomainTooLong d = false := by
      rw [isDomainTooLong, decide_eq_false_iff_not]
      omega
    have hlen : (UInt8.ofNat d.length).toNat = d.length := by
      rw [UInt8.toNat_ofNat']
      omega
    have hpos : 0 < d.length := List.length_pos_of_ne_nil hne0
    have hzero : UInt8.ofNat d.length ≠ 0 := by
      intro h
      rw [h] at hlen
      have : (0 : UInt8).toNat = 0 := rfl
      omega
    refine ⟨domain :: UInt8.ofNat d.length :: d, ?_, ?_, ?_⟩
    · rw [AddressParser.writeAddress, hlong, if_neg Bool.noConfusion]
    · simp only [List.length_cons, Address.size]
      omega
    · obtain ⟨addr, haddr, hplain⟩ := reads_readDomain parseAddress hvalid
      refine ⟨addr, ?_, hplain⟩
      show Reads _ ([domain] ++ ([UInt8.ofNat d.length] ++ d)) addr
      refine (reads_byte domain).bind ?_
      rw [if_neg hne.1.symm, if_pos rfl]
      refine (reads_byte _).bind ((reads_take hlen.symm).last ?_)
      rw [if_neg hzero]
      exact haddr

theorem reads_readAddressPort (p : AddressParser) (parseAddress : Bytes → Address)
    (ha : a.Readable) (port : UInt16) :
    ∃ bytes, p.writeAddressPort a port = (bytes, none) ∧ bytes.length = a.size ∧
      ∃ addr, Reads (p.readAddressPort parseAddress) bytes (addr, port) ∧
        (a.Plain parseAddress → addr = a) := by
  obtain ⟨bytes, hwrite, hlen, addr, hreads, hplain⟩ :=
    reads_readAddress p parseAddress (putUint16 port) ha
  refine ⟨putUint16 port ++ bytes, ?_, ?_, addr, ?_, hplain⟩
  · rw [AddressParser.writeAddressPort, hwrite]
  · rw [List.length_append, length_putUint16]
    omega
  · have h : Reads (p.readAddressPort parseAddress)
        ([UInt8.ofNat (port.toNat / 256)] ++ ([UInt8.ofNat port.toNat] ++ bytes))
        (addr, Wire.uint16 (UInt8.ofNat (port.toNat / 256)) (UInt8.ofNat port.toNat)) :=
      (reads_byte _).bind ((reads_byte _).bind (hreads.last (reads_pure _)))
    rw [uint16_putUint16] at h
    exact h

end XrayCore.Protocol
