/-
  XrayCore.Protocol.AddressSerializer

  `AddressSerializer`: addresses and ports read into a buffer and off its end.

  Every field is read into the buffer first and looked up there, from the end.  With room in
  the buffer an address is read back as it was written, and nothing behind it is read; a
  domain of no bytes is looked up as the whole buffer, which is never empty then.
-/

import XrayCore.Buf.Buffer
import XrayCore.Protocol.Address

namespace XrayCore.Protocol

open Bytes Wire Machine Buf

/-- What `NewAddressParser` makes of the options: the bytes of the families, where the port is
    and whether the low four bits of a byte are its type. -/
structure AddressSerializer extends AddressParser where
  lt_16 : ∀ b ∈ [ipv4, domain, ipv6], b < 16
  portFirst : Bool
  lowBits : Bool

/-- The end of `readAddress` for a domain. -/
def namedDomain (domain : Bytes) : Result Address :=
  if isValidDomain domain then pure (.domain domain) else throw "invalid domain name: "

/-- What a domain on the wire is taken as; `parseAddress` is `net.ParseAddress`. -/
def domainOrIP (parseAddress : Bytes → Address) (domain : Bytes) : Result Address := do
  let first ← checked (index domain 0)
  if maybeIP first then
    match parseAddress domain with
    | .domain _ => namedDomain domain
    | ip => pure ip
  else namedDomain domain

/-- `PortFromBytes`. -/
def portFromBytes (port : Bytes) : Option UInt16 :=
  match port with
  | hi :: lo :: _ => some (uint16 hi lo)
  | _ => none

/-- `readPort`. -/
def readPort : Reading UInt16 := do
  let port ← readTail 2
  checked (portFromBytes port)

namespace AddressSerializer

variable (p : AddressSerializer) (parseAddress : Bytes → Address)

def typeParser (b : UInt8) : UInt8 := if p.lowBits then b &&& 0x0F else b

/-- `readAddress`.  No address at all, for an IP of a wrong length, counts as a stop. -/
def readAddress : Reading Address := do
  let b ← readByte
  let addrType := p.typeParser b
  if addrType ≥ 16 then throw "unknown address type: "
  else if addrType = p.ipv4 then
    let ip ← readTail 4
    checked (ipAddress ip)
  else if addrType = p.ipv6 then
    let ip ← readTail 16
    checked (ipAddress ip)
  else if addrType = p.domain then
    let domainLength ← readByte
    let domain ← readTail domainLength.toNat
    domainOrIP parseAddress domain
  else throw "unknown address type: "

/-- `ReadAddressPort`. -/
def readAddressPort : Reading (Address × UInt16) :=
  if p.portFirst then do
    let port ← readPort
    let addr ← p.readAddress parseAddress
    return (addr, port)
  else do
    let addr ← p.readAddress parseAddress
    let port ← readPort
    return (addr, port)

/-- `WriteAddressPort`: what was written, and the error. -/
def writeAddressPort (addr : Address) (port : UInt16) : Bytes × Option String :=
  if p.portFirst then p.toAddressParser.writeAddressPort addr port
  else
    match p.writeAddress addr with
    | .ok bytes => (bytes ++ putUint16 port, none)
    | .error e => ([], some e)

end AddressSerializer

/-! ## What is read back -/

/-- An IP, or a domain that has a name. -/
def Address.Proper : Address → Prop
  | .ipv4 _ => True
  | .ipv6 _ => True
  | .domain d => d ≠ [] ∧ isValidDomain d = true

theorem takes_checked {α : Type} {x : Option α} {a : α} (h : x = some a) :
    Takes (liftM (checked x) : Reading α) [] a := by
  rw [h]
  exact takes_pure a

theorem takes_readPort (port : UInt16) : Takes readPort (putUint16 port) port := by
  refine (takes_readTail (length_putUint16 port) (List.cons_ne_nil _ _) (by decide)).last ?_
  exact takes_checked (congrArg some (uint16_putUint16 port))

/-- For some bytes there is an error, or an IP or the domain; for a plain domain the latter. -/
theorem domainOrIP_cases (parseAddress : Bytes → Address) {d : Bytes} (hd : d ≠ []) :
    ((∃ err, domainOrIP parseAddress d = throw err) ∨
      ∃ addr, domainOrIP parseAddress d = pure addr ∧ addr.Proper) ∧
    ((Address.domain d).Plain parseAddress → domainOrIP parseAddress d = pure (.domain d)) := by
  obtain ⟨first, rest, rfl⟩ := List.exists_cons_of_ne_nil hd
  have hnamed : (∃ err, namedDomain (first :: rest) = throw err) ∨
      ∃ addr, namedDomain (first :: rest) = pure addr ∧ addr.Proper := by
    rw [namedDomain]
    split
    · next hvalid => exact .inr ⟨_, rfl, hd, hvalid⟩
    · exact .inl ⟨_, rfl⟩
  have hplain : (Address.domain (first :: rest)).Plain parseAddress →
      namedDomain (first :: rest) = pure (.domain (first :: rest)) :=
    fun h => if_pos h.1.2.2
  have hrun : domainOrIP parseAddress (first :: rest) =
      if maybeIP first then
        match parseAddress (first :: rest) with
        | .domain _ => namedDomain (first :: rest)
        | ip => pure ip
      else namedDomain (first :: rest) := rfl
  rw [hrun]
  split
  · split
    · exact ⟨hnamed, hplain⟩
    · next hip =>
      -- a plain domain is not the text of an IP address
      have hproper : (parseAddress (first :: rest)).Proper := by
        cases haddr : parseAddress (first :: rest) with
        | ipv4 ip => trivial
        | ipv6 ip => trivial
        | domain d' => exact absurd haddr (hip d')
      refine ⟨.inr ⟨_, rfl, hproper⟩, fun h => ?_⟩
      obtain ⟨d', hd'⟩ := h.2
      exact absurd hd' (hip d')
  · exact ⟨hnamed, hplain⟩

theorem takes_domainOrIP {parseAddress : Bytes → Address} {d : Bytes}
    (h : (Address.domain d).Plain parseAddress) :
    Takes (liftM (domainOrIP parseAddress d) : Reading Address) [] (.domain d) := by
  rw [(domainOrIP_cases parseAddress h.1.1).2 h]
  exact takes_pure _

namespace AddressSerializer

variable {p : AddressSerializer} {parseAddress : Bytes → Address}

theorem typeParser_of_lt {b : UInt8} (h : b < 16) : p.typeParser b = b := by
  rw [typeParser]
  split
  · apply UInt8.toNat_inj.mp
    have hlt : b.toNat < 16 := UInt8.lt_iff_toNat_lt.mp h
    rw [UInt8.toNat_and, show (0x0F : UInt8).toNat = 2 ^ 4 - 1 from rfl,
      Nat.and_two_pow_sub_one_eq_mod, Nat.mod_eq_of_lt hlt]
  · rfl

/-- A plain address is read back as it is, as by the parser that has no buffer. -/
theorem takes_readAddress {a : Address} (ha : a.Plain parseAddress) :
    ∃ bytes, p.writeAddress a = .ok bytes ∧ bytes.length + 2 = a.size ∧
      Reads (p.toAddressParser.readAddress parseAddress []) bytes a ∧
      Takes (p.readAddress parseAddress) bytes a := by
  have hlt := p.lt_16
  have htype : ∀ b ∈ [p.ipv4, p.domain, p.ipv6], p.typeParser b = b ∧ ¬ b ≥ 16 :=
    fun b hb => ⟨typeParser_of_lt (hlt b hb), UInt8.not_le.mpr (hlt b hb)⟩
  have hne : p.ipv4 ≠ p.domain ∧ p.ipv4 ≠ p.ipv6 ∧ p.domain ≠ p.ipv6 := by
    simpa [and_assoc] using p.nodup
  obtain ⟨bytes, hwrite, hsize, addr, hreads, hplain⟩ :=
    reads_readAddress p.toAddressParser parseAddress [] ha.readable
  refine ⟨bytes, hwrite, hsize, hplain ha ▸ hreads, ?_⟩
  cases a with
  | ipv4 ip =>
    obtain ⟨hparse, hbyte⟩ := htype p.ipv4 (by simp)
    obtain rfl := Except.ok.inj hwrite
    show Takes _ ([p.ipv4] ++ ip.toList) _
    refine (takes_readByte p.ipv4).bind ?_
    dsimp only
    rw [hparse, if_neg hbyte, if_pos rfl]
    have hlen : ip.toList.length = 4 := Vector.length_toList
    refine (takes_readTail hlen (List.ne_nil_of_length_pos (by omega)) (by decide)).last ?_
    exact takes_checked (ipAddress_ipv4 ip)
  | ipv6 ip =>
    obtain ⟨hparse, hbyte⟩ := htype p.ipv6 (by simp)
    obtain rfl := Except.ok.inj hwrite
    show Takes _ ([p.ipv6] ++ ip.toList) _
    refine (takes_readByte p.ipv6).bind ?_
    dsimp only
    rw [hparse, if_neg hbyte, if_neg hne.2.1.symm, if_pos rfl]
    have hlen : ip.toList.length = 16 := Vector.length_toList
    refine (takes_readTail hlen (List.ne_nil_of_length_pos (by omega)) (by decide)).last ?_
    -- an address of sixteen bytes that is plain is not an IPv4 one
    obtain ⟨addr, haddr, hplain⟩ := exists_ipAddress_ipv6 parseAddress ip
    rw [hplain ha] at haddr
    exact takes_checked haddr
  | domain d =>
    obtain ⟨hparse, hbyte⟩ := htype p.domain (by simp)
    obtain ⟨hne0, hle, -⟩ := ha.1
    have hlong : isDomainTooLong d = false := by
      rw [isDomainTooLong, decide_eq_false_iff_not]
      omega
    rw [AddressParser.writeAddress, hlong, if_neg Bool.noConfusion] at hwrite
    obtain rfl := Except.ok.inj hwrite
    have hlen : d.length = (UInt8.ofNat d.length).toNat := by
      rw [UInt8.toNat_ofNat']
      omega
    show Takes _ ([p.domain] ++ ([UInt8.ofNat d.length] ++ d)) _
    refine (takes_readByte p.domain).bind ?_
    dsimp only
    rw [hparse, if_neg hbyte, if_neg hne.1.symm, if_neg hne.2.2, if_pos rfl]
    refine (takes_readByte _).bind ?_
    refine (takes_readTail hlen hne0 (by omega)).last ?_
    exact takes_domainOrIP ha

/-- So is one with its port, before or behind it. -/
theorem takes_readAddressPort {a : Address} (ha : a.Plain parseAddress) (port : UInt16) :
    ∃ bytes, p.writeAddressPort a port = (bytes, none) ∧ bytes.length = a.size ∧
      Takes (p.readAddressPort parseAddress) bytes (a, port) := by
  obtain ⟨bytes, hwrite, hsize, -, htakes⟩ := takes_readAddress (p := p) ha
  have hport := length_putUint16 port
  rw [readAddressPort, writeAddressPort]
  cases p.portFirst with
  | true =>
    rw [if_pos rfl, if_pos rfl, AddressParser.writeAddressPort, hwrite]
    refine ⟨putUint16 port ++ bytes, rfl, by rw [List.length_append]; omega, ?_⟩
    exact (takes_readPort port).bind (htakes.last (takes_pure _))
  | false =>
    rw [if_neg Bool.noConfusion, if_neg Bool.noConfusion, hwrite]
    refine ⟨bytes ++ putUint16 port, rfl, by rw [List.length_append]; omega, ?_⟩
    exact htakes.bind ((takes_readPort port).last (takes_pure _))

end AddressSerializer

/-! ## What is read at all -/

theorem safe_checked {α : Type} {P : Buffer → Prop} {Q : α → Buffer → Prop} {x : Option α} {a : α}
    (h : x = some a) (hQ : ∀ b, P b → Q a b) : Safe P (liftM (checked x) : Reading α) Q := by
  rw [h]
  exact safe_pure hQ

theorem exists_ipAddress {ip : Bytes} (h : ip.length = 4 ∨ ip.length = 16) :
    ∃ addr, ipAddress ip = some addr ∧ addr.Proper := by
  rw [ipAddress]
  split
  · exact ⟨_, rfl, trivial⟩
  · split
    · split
      · exact ⟨_, rfl, trivial⟩
      · exact ⟨_, rfl, trivial⟩
    · omega

theorem safe_readIP {n : ℕ} (hn : n = 4 ∨ n = 16) :
    Safe (fun b => b.bytes ≠ []) (do let ip ← readTail n; checked (ipAddress ip))
      fun addr _ => addr.Proper := by
  have hread := (safe_readTail (show n ≤ 255 by omega)).weaken fun b (hne : b.bytes ≠ []) _ => hne
  refine hread.bind fun ip => Safe.of_fact fun hip => ?_
  have hlen := hip.2 (by omega)
  obtain ⟨addr, haddr, hproper⟩ := exists_ipAddress (show ip.length = 4 ∨ ip.length = 16 by omega)
  exact safe_checked haddr fun _ _ => hproper

theorem safe_readPort : Safe (fun _ => True) readPort fun _ _ => True := by
  have hread := (safe_readTail (show 2 ≤ 255 by omega)).weaken
    fun _ (_ : True) (h : 2 = 0) => absurd h (by omega)
  refine hread.bind fun port => Safe.of_fact fun hport => ?_
  obtain ⟨hi, lo, rfl⟩ := List.length_eq_two.mp (hport.2 (by omega))
  exact safe_checked rfl fun _ _ => trivial

theorem safe_domainOrIP (parseAddress : Bytes → Address) (domain : Bytes) :
    Safe (fun _ => domain ≠ []) (liftM (domainOrIP parseAddress domain) : Reading Address)
      fun addr _ => addr.Proper := by
  intro b input hb hne
  obtain ⟨err, h⟩ | ⟨addr, h, hproper⟩ := (domainOrIP_cases parseAddress hne).1
  · rw [h]
    exact .inl ⟨err, rfl⟩
  · rw [h]
    exact .inr ⟨addr, b, input, rfl, hb, hproper⟩

namespace AddressSerializer

variable (p : AddressSerializer) (parseAddress : Bytes → Address)

theorem safe_readAddress :
    Safe (fun _ => True) (p.readAddress parseAddress) fun addr _ => addr.Proper := by
  refine safe_readByte.bind fun b => ?_
  dsimp only
  split
  · exact safe_throw _
  split
  · exact safe_readIP (.inl rfl)
  split
  · exact safe_readIP (.inr rfl)
  split
  · -- the length byte is in the buffer, so no bytes at all are still some
    refine safe_readByte.bind fun domainLength => ?_
    have hlt := domainLength.toNat_lt
    have hread := (safe_readTail (show domainLength.toNat ≤ 255 by omega)).weaken
      fun b (hne : b.bytes ≠ []) _ => hne
    exact hread.bind fun domain => (safe_domainOrIP parseAddress domain).weaken fun _ h => h.1
  · exact safe_throw _

theorem safe_readAddressPort :
    Safe (fun _ => True) (p.readAddressPort parseAddress) fun x _ => x.1.Proper := by
  rw [readAddressPort]
  split
  · refine safe_readPort.bind fun port => ?_
    exact (p.safe_readAddress parseAddress).bind fun addr => safe_pure fun _ h => h
  · refine (p.safe_readAddress parseAddress).bind fun addr => Safe.of_fact fun hproper => ?_
    exact safe_readPort.bind fun port => safe_pure fun _ _ => hproper

/-- Into a buffer with room for it, an address that was written is read back with its port, and
    just what follows is left; without there is an error.  Whatever bytes there are, a read gives
    an error or an IP or a valid domain, and does not stop the program. -/
theorem readAddressPort_exact {b : Buffer} (hb : b.Small) :
    (∀ (a : Address) (port : UInt16), a.Plain parseAddress →
      ∃ bytes, p.writeAddressPort a port = (bytes, none) ∧ bytes.length = a.size ∧
        ∀ rest,
          (b.stop + a.size ≤ b.v.length → ∃ b', b.Grown bytes b' ∧
            (p.readAddressPort parseAddress (b, bytes ++ rest)).run =
              some (.ok ((a, port), b', rest))) ∧
          (b.v.length < b.stop + a.size →
            ∃ err, (p.readAddressPort parseAddress (b, bytes ++ rest)).run =
              some (.error err))) ∧
    ∀ input,
      (∃ err, (p.readAddressPort parseAddress (b, input)).run = some (.error err)) ∨
      ∃ addr port b' rest, addr.Proper ∧
        (p.readAddressPort parseAddress (b, input)).run = some (.ok ((addr, port), b', rest)) := by
  refine ⟨fun a port ha => ?_, fun input => ?_⟩
  · obtain ⟨bytes, hwrite, hsize, htakes⟩ := takes_readAddressPort (p := p) ha port
    refine ⟨bytes, hwrite, hsize, fun rest => ?_⟩
    rw [← hsize]
    exact htakes b rest hb
  · obtain hfail | ⟨⟨addr, port⟩, b', rest, hrun, -, hproper⟩ :=
      p.safe_readAddressPort parseAddress b input hb trivial
    · exact .inl hfail
    · exact .inr ⟨addr, port, b', rest, hproper, hrun⟩

/-- The parser of VLESS, into an empty buffer of the usual size. -/
theorem readAddressPort_vless : ∃ p : AddressSerializer, p.portFirst = true ∧
    ∃ (b : Buffer) (bytes : Bytes), b.v.length = size ∧
      p.writeAddressPort (.domain "a.b".toUTF8.toList) 80 = (bytes, none) ∧
      ∀ rest, ∃ b', (p.readAddressPort Address.domain (b, bytes ++ rest)).run =
        some (.ok ((.domain "a.b".toUTF8.toList, 80), b', rest)) := by
  let p : AddressSerializer := ⟨⟨1, 2, 3, by decide⟩, by decide +kernel, true, false⟩
  let b : Buffer := ⟨List.replicate size 0, 0, 0, Nat.le_refl 0, Nat.zero_le _⟩
  have hlen : b.v.length = size := List.length_replicate
  have hsmall : b.Small := by
    rw [Buffer.Small, hlen]
    decide
  have hplain : (Address.domain "a.b".toUTF8.toList).Plain Address.domain :=
    ⟨by decide +kernel, _, rfl⟩
  obtain ⟨bytes, hwrite, -, hread⟩ :=
    (p.readAddressPort_exact Address.domain hsmall).1 _ 80 hplain
  refine ⟨p, rfl, b, bytes, hlen, hwrite, fun rest => ?_⟩
  obtain ⟨b', -, hrun⟩ := (hread rest).1 (by rw [hlen]; decide +kernel)
  exact ⟨b', hrun⟩

/-- A buffer of the usual size in which two bytes are free has no room for any address. -/
theorem no_room_left : ∃ b : Buffer, b.v.length = size ∧ b.stop = size - 2 ∧
    ∀ (p : AddressSerializer) (ip : Vector UInt8 4) (port : UInt16),
      ∃ bytes, p.writeAddressPort (.ipv4 ip) port = (bytes, none) ∧
        ∀ rest, ∃ err, (p.readAddressPort Address.domain (b, bytes ++ rest)).run =
          some (.error err) := by
  have hlen : (List.replicate size (0 : UInt8)).length = size := List.length_replicate
  let b : Buffer := ⟨List.replicate size 0, 0, size - 2, Nat.zero_le _, by rw [hlen]; decide⟩
  have hsmall : b.Small := by
    rw [Buffer.Small, show b.v.length = size from hlen]
    decide
  refine ⟨b, hlen, rfl, fun p ip port => ?_⟩
  have hplain : (Address.ipv4 ip).Plain Address.domain := trivial
  obtain ⟨bytes, hwrite, hsize, htakes⟩ := takes_readAddressPort (p := p) hplain port
  refine ⟨bytes, hwrite, fun rest => (htakes b rest hsmall).2 ?_⟩
  rw [hsize, show b.v.length = size from hlen]
  show size < size - 2 + 7
  decide

end AddressSerializer

end XrayCore.Protocol
