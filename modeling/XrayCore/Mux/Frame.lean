/-
  XrayCore.Mux.Frame

  The metadata in front of every frame of a mux connection: what a writer puts on the
  carrier, and what the other end makes of it.

  The length comes first, then the id of the session, the status and the options.  A
  frame that opens a session names its target, and maybe where the request came from or
  a global id; one that goes on with a session can name the destination of its packet.
-/

import XrayCore.Protocol.Address

namespace XrayCore.Mux

open Wire Protocol Option

/-! ## The format -/

/-- `SessionStatus`. -/
inductive SessionStatus where
  | new
  | keep
  | ended
  | keepAlive
deriving DecidableEq

def SessionStatus.toByte : SessionStatus → UInt8
  | .new => 1
  | .keep => 2
  | .ended => 3
  | .keepAlive => 4

/-- `OptionData`. -/
def optionData : UInt8 := 0x01

/-- `bitmask.Byte.Has`. -/
def has (option bit : UInt8) : Bool := option &&& bit != 0

/-- `TargetNetwork` of a network, if there is one; for an inbound it is the number of the
    network less one, which is the same. -/
def targetNetwork : Network → Option UInt8
  | .tcp => some 0x01
  | .udp => some 0x02
  | _ => none

/-- `addrParser`. -/
def addrParser : AddressParser where
  ipv4 := 1
  domain := 2
  ipv6 := 3
  nodup := by decide

/-- `session.Inbound`: where a request came from, and where it arrived. -/
structure Inbound where
  source : Destination
  arrival : Destination

/-- `FrameMetadata`, as it is written. -/
structure FrameMetadata where
  target : Destination
  sessionID : UInt16
  option : UInt8
  sessionStatus : SessionStatus
  globalID : Vector UInt8 8
  inbound : Option Inbound

/-! ## Writing -/

/-- An address of an inbound, and what follows it, if its network has a number. -/
def writeInbound (d : Destination) (more : Except String Bytes) :
    Except String Bytes :=
  match targetNetwork d.network with
  | none => .ok []
  | some network =>
    match addrParser.writeAddressPort d.address d.port with
    | (_, some e) => .error e
    | (bytes, none) => do return network :: bytes ++ (← more)

namespace FrameMetadata

/-- What follows the target of a new session; `udp` is the destination of the packet. -/
def more (f : FrameMetadata) (udp : Option Destination) : Except String Bytes :=
  match f.inbound, udp with
  | some inbound, _ => writeInbound inbound.source (writeInbound inbound.arrival (.ok []))
  -- only a request of the user's own has a packet here
  | none, some _ => .ok f.globalID.toList
  | none, none => .ok []

/-- What `WriteTo` puts after the options. -/
def tail (f : FrameMetadata) (udp : Option Destination) : Except String Bytes :=
  if f.sessionStatus = .new then
    match addrParser.writeAddressPort f.target.address f.target.port with
    | (_, some e) => .error e
    | (bytes, none) => do
      return (targetNetwork f.target.network).toList ++ bytes ++ (← f.more udp)
  else
    match udp with
    | none => .ok []
    -- whether the address can be written is not asked here
    | some d => .ok (0x02 :: (addrParser.writeAddressPort d.address d.port).1)

/-- `WriteTo`. -/
def writeTo (f : FrameMetadata) (udp : Option Destination) : Except String Bytes := do
  let tail ← f.tail udp
  let body := putUint16 f.sessionID ++ [f.sessionStatus.toByte, f.option] ++ tail
  return putUint16 (UInt16.ofNat body.length) ++ body

end FrameMetadata

/-! ## Reading -/

/-- `FrameMetadata`, as it is read. -/
structure Metadata where
  sessionID : UInt16
  sessionStatus : UInt8
  option : UInt8
  target : Option Destination
  globalID : Bytes
  source : Option Destination
  arrival : Option Destination

/-- A frame that names nothing. -/
def Metadata.bare (sessionID : UInt16) (sessionStatus option : UInt8) : Metadata where
  sessionID := sessionID
  sessionStatus := sessionStatus
  option := option
  target := none
  globalID := List.replicate 8 0
  source := none
  arrival := none

/-- A parser on a buffer, which has an end. -/
def inBuffer {α : Type} (p : Parser String α) (b : Bytes) : Except String (α × Bytes) :=
  match p b with
  | .ok a rest => .ok (a, rest)
  | .short => .error "EOF"
  | .bad e => .error e

/-- An address and a port, of a network that is known already. -/
def readDestination (parseAddress : Bytes → Address) (network : UInt8) :
    Parser String Destination := do
  let (addr, port) ← addrParser.readAddressPort parseAddress
  if network = 0x01 then return ⟨.tcp, addr, port⟩
  else if network = 0x02 then return ⟨.udp, addr, port⟩
  else .fail "unknown network type: "

/-- Where the request came from, and where it arrived; zeros may be padding. -/
def readInbound (parseAddress : Bytes → Address) (b : Bytes) :
    Except String (Option Destination × Option Destination) :=
  match b with
  | [] => .ok (none, none)
  | network :: b =>
    if network = 0 then .ok (none, none)
    else do
      let (source, b) ← inBuffer (readDestination parseAddress network) b
      match b with
      | [] => return (some source, none)
      | network :: b =>
        if network = 0 then return (some source, none)
        else
          let (arrival, _) ← inBuffer (readDestination parseAddress network) b
          return (some source, some arrival)

/-- `UnmarshalFromBuffer`. -/
def unmarshalFromBuffer (parseAddress : Bytes → Address) (readSourceAndLocal : Bool)
    (b : Bytes) : Except String Metadata :=
  match b with
  | hi :: lo :: status :: option :: rest => do
    let bare := Metadata.bare (Wire.uint16 hi lo) status option
    -- only a new session, or a packet with an address of its own, has a target
    if status = 1 ∨ (status = 2 ∧ rest.head? = some 0x02) then
      match rest with
      | network :: rest =>
        if rest.length < 3 then .error "insufficient buffer: "
        else
          let (target, rest) ← inBuffer (readDestination parseAddress network) rest
          if status = 1 ∧ readSourceAndLocal then
            let (source, arrival) ← readInbound parseAddress rest
            return { bare with target := some target, source, arrival }
          else if status = 1 ∧ has option optionData ∧ target.network = .udp ∧ 8 ≤ rest.length then
            return { bare with target := some target, globalID := rest.take 8 }
          else return { bare with target := some target }
      | [] => .error "insufficient buffer: "
    else return bare
  | _ => .error "insufficient buffer: "

/-- `Unmarshal`. -/
def unmarshal (parseAddress : Bytes → Address) (readSourceAndLocal : Bool) :
    Parser String Metadata := do
  let metaLen ← Parser.uint16
  if metaLen.toNat > 512 then .fail "invalid metalen "
  else
    let b ← Parser.take metaLen.toNat
    match unmarshalFromBuffer parseAddress readSourceAndLocal b with
    | .ok m => return m
    | .error e => .fail e

/-! ## What is read back -/

/-- A destination of a network with a number and an address that is read back. -/
def Readable (d : Destination) : Prop :=
  (targetNetwork d.network).isSome = true ∧ d.address.Readable

/-- What is written for an inbound is read back. -/
def Inbound.Readable (inbound : Inbound) : Prop :=
  (targetNetwork inbound.source.network).isSome = true → inbound.source.address.Readable ∧
    ((targetNetwork inbound.arrival.network).isSome = true → inbound.arrival.address.Readable)

/-- The condition on what a frame names: its target and its inbound, or the destination of its
    packet, are read back, the metadata is not too long, and the other end does not take a
    global id for an inbound. -/
def FrameMetadata.Readable (f : FrameMetadata) (udp : Option Destination) (reverse : Bool) :
    Prop :=
  match f.sessionStatus, f.inbound with
  | .new, some inbound => Mux.Readable f.target ∧ inbound.Readable ∧
      7 + f.target.address.size + inbound.source.address.size + inbound.arrival.address.size ≤ 512
  | .new, none => Mux.Readable f.target ∧
      (reverse = true → udp = none ∨ f.globalID.toList.head? = some 0)
  | _, _ => ∀ d, udp = some d → d.address.Readable

variable (parseAddress : Bytes → Address)

theorem inBuffer_of_reads {α : Type} {p : Parser String α} {front : Bytes} {a : α}
    (h : Reads p front a) (rest : Bytes) : inBuffer p (front ++ rest) = .ok (a, rest) := by
  rw [inBuffer, h]

variable {d : Destination}

/-- A readable destination is written, and read with its network. -/
theorem reads_readDestination (h : Readable d) :
    ∃ network bytes, targetNetwork d.network = some network ∧ network ≠ 0 ∧
      addrParser.writeAddressPort d.address d.port = (bytes, none) ∧
      bytes.length = d.address.size ∧
      ∃ d', Reads (readDestination parseAddress network) bytes d' ∧ d'.network = d.network ∧
        (d.address.Plain parseAddress → d' = d) := by
  obtain ⟨hnetwork, haddress⟩ := h
  obtain ⟨bytes, hwrite, hlen, addr, hreads, hplain⟩ :=
    reads_readAddressPort addrParser parseAddress haddress d.port
  -- with its own network, a plain destination is itself again
  have hsame (network : Network) (hn : d.network = network)
      (h : d.address.Plain parseAddress) : ⟨network, addr, d.port⟩ = d := by
    rw [hplain h, ← hn]
  cases hn : d.network with
  | unknown =>
    rw [hn] at hnetwork
    nomatch hnetwork
  | unix =>
    rw [hn] at hnetwork
    nomatch hnetwork
  | tcp =>
    refine ⟨0x01, bytes, rfl, by decide, hwrite, hlen, ⟨.tcp, addr, d.port⟩, ?_, rfl, hsame _ hn⟩
    refine hreads.last ?_
    exact reads_pure _
  | udp =>
    refine ⟨0x02, bytes, rfl, by decide, hwrite, hlen, ⟨.udp, addr, d.port⟩, ?_, rfl, hsame _ hn⟩
    refine hreads.last ?_
    exact reads_pure _

theorem three_le_size (a : Address) : 3 ≤ a.size := by
  cases a with
  | ipv4 => exact (by decide : 3 ≤ 7)
  | ipv6 => exact (by decide : 3 ≤ 19)
  | domain d =>
    show 3 ≤ 4 + d.length
    omega

theorem Readable.size_le (h : Readable d) : d.address.size ≤ 259 := by
  have haddress := h.2
  cases ha : d.address with
  | ipv4 => exact (by decide : 7 ≤ 259)
  | ipv6 => exact (by decide : 19 ≤ 259)
  | domain domain =>
    rw [ha] at haddress
    have hle : domain.length ≤ 255 := haddress.2.1
    show 4 + domain.length ≤ 259
    omega

/-- An inbound that is read back as it is. -/
structure Inbound.Plain (inbound : Inbound) : Prop where
  sourceNetwork : (targetNetwork inbound.source.network).isSome = true
  source : inbound.source.address.Plain parseAddress
  arrivalNetwork : (targetNetwork inbound.arrival.network).isSome = true
  arrival : inbound.arrival.address.Plain parseAddress

/-- What is written for an inbound is read without an error, and a plain one as it is. -/
theorem exists_readInbound {inbound : Inbound} (h : inbound.Readable) :
    ∃ bytes, writeInbound inbound.source (writeInbound inbound.arrival (.ok [])) = .ok bytes ∧
      bytes.length ≤ 2 + inbound.source.address.size + inbound.arrival.address.size ∧
      ∃ r, readInbound parseAddress bytes = .ok r ∧
        (inbound.Plain parseAddress → r = (some inbound.source, some inbound.arrival)) := by
  cases hsource : targetNetwork inbound.source.network with
  | none =>
    refine ⟨[], ?_, Nat.zero_le _, (none, none), rfl, fun hplain => ?_⟩
    · rw [writeInbound, hsource]
    · have hnetwork := hplain.sourceNetwork
      rw [hsource] at hnetwork
      nomatch hnetwork
  | some network =>
    have hreadable := h (by rw [hsource]; rfl)
    obtain ⟨n, bytes, hn, hne, hwrite, hlen, d, hreads, _, hd⟩ :=
      reads_readDestination parseAddress (d := inbound.source) ⟨by rw [hsource]; rfl, hreadable.1⟩
    obtain rfl : network = n := some.inj (hsource.symm.trans hn)
    cases harrival : targetNetwork inbound.arrival.network with
    | none =>
      refine ⟨network :: bytes ++ [], ?_, ?_, (some d, none), ?_, fun hplain => ?_⟩
      · rw [writeInbound, hsource, hwrite, writeInbound, harrival]
        rfl
      · rw [List.append_nil, List.length_cons]
        omega
      · show readInbound parseAddress (network :: (bytes ++ [])) = _
        rw [readInbound, if_neg hne, inBuffer_of_reads hreads]
        rfl
      · have hnetwork := hplain.arrivalNetwork
        rw [harrival] at hnetwork
        nomatch hnetwork
    | some network' =>
      obtain ⟨n', bytes', hn', hne', hwrite', hlen', d', hreads', _, hd'⟩ :=
        reads_readDestination parseAddress (d := inbound.arrival)
          ⟨by rw [harrival]; rfl, hreadable.2 (by rw [harrival]; rfl)⟩
      obtain rfl : network' = n' := some.inj (harrival.symm.trans hn')
      refine ⟨network :: bytes ++ (network' :: bytes' ++ []), ?_, ?_, (some d, some d'), ?_,
        fun hplain => by rw [hd hplain.source, hd' hplain.arrival]⟩
      · rw [writeInbound, hsource, hwrite, writeInbound, harrival, hwrite']
        rfl
      · simp only [List.length_append, List.length_cons, List.length_nil]
        omega
      · show readInbound parseAddress (network :: (bytes ++ (network' :: (bytes' ++ [])))) = _
        rw [readInbound, if_neg hne, inBuffer_of_reads hreads]
        show (if network' = 0 then _ else _) = _
        rw [if_neg hne', inBuffer_of_reads hreads']
        rfl

variable {reverse : Bool}

/-- A buffer of metadata, with its length in front. -/
theorem reads_unmarshal_of_buffer {b : Bytes} {m : Metadata}
    (h : unmarshalFromBuffer parseAddress reverse b = .ok m) (hlen : b.length ≤ 512) :
    Reads (unmarshal parseAddress reverse) (putUint16 (UInt16.ofNat b.length) ++ b) m := by
  have htoNat : (UInt16.ofNat b.length).toNat = b.length := by
    rw [UInt16.toNat_ofNat']
    omega
  refine (reads_uint16 _).bind ?_
  rw [htoNat, if_neg (by omega)]
  refine (reads_take rfl).last ?_
  rw [h]
  exact reads_pure m

/-- What the other end has to know of a frame. -/
structure Heard (f : FrameMetadata) (m : Metadata) : Prop where
  sessionID : m.sessionID = f.sessionID
  sessionStatus : m.sessionStatus = f.sessionStatus.toByte
  option : m.option = f.option
  target : f.sessionStatus = .new → ∃ t, m.target = some t ∧ t.network = f.target.network
  globalID : m.globalID ≠ List.replicate 8 0 →
    f.sessionStatus = .new ∧ has f.option optionData = true ∧ f.target.network = .udp

/-- The head of the buffer: the id, the status and the option. -/
def FrameMetadata.head (f : FrameMetadata) : Bytes :=
  putUint16 f.sessionID ++ [f.sessionStatus.toByte, f.option]

theorem FrameMetadata.length_head (f : FrameMetadata) : f.head.length = 4 := rfl

/-- What follows the target of a frame, in its own words: a plain inbound for an end that asks
    for one, or a global id. -/
structure Follows (f : FrameMetadata) (udp : Option Destination) (more : Bytes) : Prop where
  inbound : ∀ inbound, f.inbound = some inbound → inbound.Plain parseAddress →
    readInbound parseAddress more = .ok (some inbound.source, some inbound.arrival)
  globalID : f.inbound = none → udp ≠ none → more = f.globalID.toList

variable {udp : Option Destination} {f : FrameMetadata}

/-- What follows the target is written, is not too long, and is not mistaken for something
    else. -/
theorem exists_more (hnew : f.sessionStatus = .new) (h : f.Readable udp reverse) :
    Mux.Readable f.target ∧ ∃ more, f.more udp = .ok more ∧
      1 + f.target.address.size + more.length ≤ 508 ∧
      (reverse = true → ∃ r, readInbound parseAddress more = .ok r) ∧
      Follows parseAddress f udp more := by
  rw [FrameMetadata.Readable, hnew] at h
  unfold FrameMetadata.more
  cases hinbound : f.inbound with
  | some inbound =>
    rw [hinbound] at h
    obtain ⟨htarget, hreadable, hlen⟩ := h
    obtain ⟨more, hwrite, hle, r, hread, hplain⟩ := exists_readInbound parseAddress hreadable
    refine ⟨htarget, more, hwrite, by omega, fun _ => ⟨r, hread⟩, fun i hi hi' => ?_,
      fun hnone => absurd (hinbound.symm.trans hnone) nofun⟩
    obtain rfl : inbound = i := some.inj (hinbound.symm.trans hi)
    rw [hread, hplain hi']
  | none =>
    rw [hinbound] at h
    obtain ⟨htarget, hglobal⟩ := h
    have hsize := htarget.size_le
    cases udp with
    | none =>
      refine ⟨htarget, [], rfl, ?_, fun _ => ⟨_, rfl⟩, ?_, fun _ h => absurd rfl h⟩
      · rw [List.length_nil]
        omega
      · intro inbound hsome
        exact absurd (hinbound.symm.trans hsome) nofun
    | some d =>
      have hlen : f.globalID.toList.length = 8 := Vector.length_toList
      refine ⟨htarget, f.globalID.toList, rfl, by omega, fun hreverse => ?_,
        fun inbound hsome => absurd (hinbound.symm.trans hsome) nofun, fun _ _ => rfl⟩
      -- a global id that begins with zero passes for padding
      have hzero := (hglobal hreverse).resolve_left (some_ne_none d)
      obtain ⟨tail, htail⟩ := List.head?_eq_some_iff.mp hzero
      rw [htail, readInbound, if_pos rfl]
      exact ⟨_, rfl⟩

/-- A frame that opens a session: its target is read, and what follows is either an inbound
    or maybe a global id. -/
theorem exists_heard_new (hnew : f.sessionStatus = .new) {network : UInt8} {bytes more : Bytes}
    {t : Destination} (hreads : Reads (readDestination parseAddress network) bytes t)
    (hlen : 3 ≤ bytes.length) (ht : t.network = f.target.network)
    (hmore : reverse = true → ∃ r, readInbound parseAddress more = .ok r) :
    ∃ m, unmarshalFromBuffer parseAddress reverse (f.head ++ (network :: (bytes ++ more))) = .ok m ∧
      Heard f m ∧ m.target = some t ∧
      (reverse = true → readInbound parseAddress more = .ok (m.source, m.arrival)) ∧
      (reverse = false → has f.option optionData = true → t.network = .udp → 8 ≤ more.length →
        m.globalID = more.take 8) := by
  have hid := uint16_putUint16 f.sessionID
  have hstatus : f.sessionStatus.toByte = 1 := by rw [hnew]; rfl
  have hlong : ¬ (bytes ++ more).length < 3 := by
    rw [List.length_append]
    omega
  have hbuffer := inBuffer_of_reads hreads more
  show ∃ m, unmarshalFromBuffer parseAddress reverse
    (UInt8.ofNat (f.sessionID.toNat / 256) :: UInt8.ofNat f.sessionID.toNat ::
      f.sessionStatus.toByte :: f.option :: network :: (bytes ++ more)) = .ok m ∧ _
  rw [hstatus, unmarshalFromBuffer, hid, if_pos (.inl rfl)]
  dsimp only
  rw [if_neg hlong, hbuffer]
  dsimp only [bind, Except.bind]
  -- what follows the target is an inbound for a reverse worker, and else maybe a global id
  cases reverse with
  | true =>
    obtain ⟨r, hr⟩ := hmore rfl
    rw [if_pos ⟨rfl, rfl⟩, hr]
    exact ⟨_, rfl, ⟨rfl, hstatus.symm, rfl, fun _ => ⟨t, rfl, ht⟩, fun h => absurd rfl h⟩, rfl,
      fun _ => rfl, nofun⟩
  | false =>
    rw [if_neg fun h => Bool.noConfusion h.2]
    split
    · next hglobal =>
      refine ⟨_, rfl, ⟨rfl, hstatus.symm, rfl, fun _ => ⟨t, rfl, ht⟩, fun _ => ?_⟩, rfl, nofun,
        fun _ _ _ _ => rfl⟩
      exact ⟨hnew, hglobal.2.1, ht.symm.trans hglobal.2.2.1⟩
    · next hglobal =>
      exact ⟨_, rfl, ⟨rfl, hstatus.symm, rfl, fun _ => ⟨t, rfl, ht⟩, fun h => absurd rfl h⟩, rfl,
        nofun, fun _ hdata hudp hlong => absurd ⟨rfl, hdata, hudp, hlong⟩ hglobal⟩

/-- A frame that opens no session: it names nothing, or the destination of its packet. -/
theorem exists_heard_other (hnew : f.sessionStatus ≠ .new)
    (hudp : ∀ d, udp = some d → d.address.Readable) (reverse : Bool) :
    ∃ tail m, f.tail udp = .ok tail ∧ tail.length ≤ 260 ∧
      unmarshalFromBuffer parseAddress reverse (f.head ++ tail) = .ok m ∧ Heard f m ∧
      (f.sessionStatus = .keep → ∀ d, udp = some d → d.address.Plain parseAddress →
        m.target = some ⟨.udp, d.address, d.port⟩) := by
  have hid := uint16_putUint16 f.sessionID
  have hone : f.sessionStatus.toByte ≠ 1 := by
    intro h
    apply hnew
    revert h
    cases f.sessionStatus <;> decide
  -- whatever the target, such a frame is heard
  have heard : ∀ t, Heard f { Metadata.bare f.sessionID f.sessionStatus.toByte f.option with
      target := t } := fun t =>
    ⟨rfl, rfl, rfl, fun h => absurd h hnew, fun h => absurd rfl h⟩
  have hread : ∀ tail, unmarshalFromBuffer parseAddress reverse (f.head ++ tail) =
      unmarshalFromBuffer parseAddress reverse (UInt8.ofNat (f.sessionID.toNat / 256) ::
        UInt8.ofNat f.sessionID.toNat :: f.sessionStatus.toByte :: f.option :: tail) := fun _ => rfl
  cases udp with
  | none =>
    refine ⟨[], _, ?_, Nat.zero_le _, ?_, heard none, fun _ _ => nofun⟩
    · rw [FrameMetadata.tail, if_neg hnew]
    · rw [hread, unmarshalFromBuffer, hid, if_neg (by simp [hone])]
      rfl
  | some d =>
    have hd : Readable ⟨.udp, d.address, d.port⟩ := ⟨rfl, hudp d rfl⟩
    obtain ⟨network, bytes, hn, _, hwrite, hlen, t, hreads, _, hplain⟩ :=
      reads_readDestination parseAddress hd
    obtain rfl : 0x02 = network := some.inj hn
    have hthree : 3 ≤ bytes.length := hlen ▸ three_le_size d.address
    have hsize : bytes.length ≤ 259 := hlen ▸ hd.size_le
    have hbuffer := inBuffer_of_reads hreads []
    rw [List.append_nil] at hbuffer
    have htail : f.tail (some d) = .ok (0x02 :: bytes) := by
      rw [FrameMetadata.tail, if_neg hnew]
      show Except.ok (0x02 :: (addrParser.writeAddressPort d.address d.port).1) = _
      rw [hwrite]
    have hle : (0x02 :: bytes).length ≤ 260 := by
      rw [List.length_cons]
      omega
    -- only one that goes on with a session has its packet's destination read
    by_cases hkeep : f.sessionStatus.toByte = 2
    · refine ⟨0x02 :: bytes, _, htail, hle, ?_, heard (some t), fun _ d' hd' hd'' => ?_⟩
      · rw [hread, unmarshalFromBuffer, hid, if_pos (.inr ⟨hkeep, rfl⟩)]
        show (if _ then _ else _) = _
        rw [if_neg (by omega), hbuffer]
        show (if _ then _ else _) = _
        rw [if_neg fun h => hone h.1, if_neg fun h => hone h.1]
        rfl
      · obtain rfl : d = d' := some.inj hd'
        exact congrArg some (hplain hd'')
    · refine ⟨0x02 :: bytes, _, htail, hle, ?_, heard none, fun hstatus => ?_⟩
      · rw [hread, unmarshalFromBuffer, hid, if_neg (by simp [hone, hkeep])]
        rfl
      · rw [hstatus] at hkeep
        exact absurd rfl hkeep

/-- What the other end is to make of a frame: the target of one that opens a session with the
    inbound, or the global id of its packet; the destination of a packet that goes on. -/
structure ReadBack (f : FrameMetadata) (udp : Option Destination) (m : Metadata) : Prop where
  target : f.sessionStatus = .new → m.target = some f.target
  packet : f.sessionStatus = .keep → ∀ d, udp = some d →
    m.target = some ⟨.udp, d.address, d.port⟩
  inbound : f.sessionStatus = .new → ∀ inbound, f.inbound = some inbound →
    m.source = some inbound.source ∧ m.arrival = some inbound.arrival
  globalID : f.sessionStatus = .new → f.inbound = none → f.target.network = .udp →
    has f.option optionData = true → udp ≠ none → m.globalID = f.globalID.toList

/-- A frame that names only what is read back as it is. -/
structure FrameMetadata.Plain (f : FrameMetadata) (udp : Option Destination) : Prop where
  target : f.sessionStatus = .new → f.target.address.Plain parseAddress
  inbound : f.sessionStatus = .new → ∀ inbound, f.inbound = some inbound →
    inbound.Plain parseAddress
  packet : f.sessionStatus ≠ .new → ∀ d, udp = some d → d.address.Plain parseAddress

/-- The metadata of a readable frame is written, and the other end takes exactly that and
    hears the frame; one that reads an inbound if there is one reads back a plain frame. -/
theorem exists_heard (h : f.Readable udp reverse) :
    ∃ bytes m, f.writeTo udp = .ok bytes ∧ Reads (unmarshal parseAddress reverse) bytes m ∧
      Heard f m ∧ (f.Plain parseAddress udp → reverse = f.inbound.isSome → ReadBack f udp m) := by
  -- it is enough to know what follows the options
  suffices htail : ∃ tail m, f.tail udp = .ok tail ∧ tail.length ≤ 508 ∧
      unmarshalFromBuffer parseAddress reverse (f.head ++ tail) = .ok m ∧ Heard f m ∧
      (f.Plain parseAddress udp → reverse = f.inbound.isSome → ReadBack f udp m) by
    obtain ⟨tail, m, htail, hlen, hread, hheard⟩ := htail
    refine ⟨_, m, ?_, reads_unmarshal_of_buffer parseAddress hread ?_, hheard⟩
    · rw [FrameMetadata.writeTo, htail]
      rfl
    · rw [List.length_append, f.length_head]
      omega
  by_cases hnew : f.sessionStatus = .new
  · obtain ⟨htarget, more, hmore, hlen, hinbound, hfollows⟩ := exists_more parseAddress hnew h
    obtain ⟨network, bytes, hn, _, hwrite, hsize, t, hreads, ht, hplain⟩ :=
      reads_readDestination parseAddress htarget
    obtain ⟨m, hread, hheard, hmt, hmi, hmg⟩ := exists_heard_new parseAddress hnew hreads
      (hsize ▸ three_le_size f.target.address) ht hinbound
    refine ⟨network :: (bytes ++ more), m, ?_, ?_, hread, hheard, fun hf hreverse => ?_⟩
    · unfold FrameMetadata.tail
      rw [if_pos hnew, hwrite]
      dsimp only
      rw [hmore, hn]
      rfl
    · rw [List.length_cons, List.length_append]
      omega
    · have hkeep : f.sessionStatus ≠ .keep := hnew ▸ nofun
      refine ⟨fun _ => ?_, fun hstatus => absurd hstatus hkeep, fun _ inbound hi => ?_, ?_⟩
      · rw [hmt, hplain (hf.target hnew)]
      · have hr := hmi (by rw [hreverse, hi]; rfl)
        rw [hfollows.inbound inbound hi (hf.inbound hnew inbound hi)] at hr
        obtain ⟨hsource, harrival⟩ := Prod.mk.inj (Except.ok.inj hr)
        exact ⟨hsource.symm, harrival.symm⟩
      · intro _ hnone hudp hdata hpacket
        have hid : more = f.globalID.toList := hfollows.globalID hnone hpacket
        have height : more.length = 8 := hid ▸ Vector.length_toList
        rw [hmg (by rw [hreverse, hnone]; rfl) hdata (ht.trans hudp) (by omega),
          List.take_of_length_le (by omega), hid]
  · have hudp : ∀ d, udp = some d → d.address.Readable := by
      rw [FrameMetadata.Readable] at h
      split at h
      · contradiction
      · contradiction
      · exact h
    obtain ⟨tail, m, htail, hlen, hread, hheard, hpacket⟩ :=
      exists_heard_other parseAddress hnew hudp reverse
    refine ⟨tail, m, htail, by omega, hread, hheard, fun hf _ => ?_⟩
    exact ⟨fun hstatus => absurd hstatus hnew,
      fun hstatus d hd => hpacket hstatus d hd (hf.packet hnew d hd),
      fun hstatus => absurd hstatus hnew, fun hstatus => absurd hstatus hnew⟩

/-! ## The round trip -/

/-- A destination with a plain IP address. -/
structure IsIP (d : Destination) : Prop where
  network : d.network = .tcp ∨ d.network = .udp
  address : d.address.Plain parseAddress
  size : d.address.size ≤ 19

theorem isSome_targetNetwork (h : d.network = .tcp ∨ d.network = .udp) :
    (targetNetwork d.network).isSome = true := by
  rcases h with h | h <;> rw [h] <;> rfl

/-- With a readable target, and an inbound of IP addresses, there is room for the metadata. -/
theorem FrameMetadata.readable_of_plain
    (htarget : f.sessionStatus = .new →
      (f.target.network = .tcp ∨ f.target.network = .udp) ∧ f.target.address.Plain parseAddress)
    (hinbound : ∀ inbound, f.inbound = some inbound →
      IsIP parseAddress inbound.source ∧ IsIP parseAddress inbound.arrival)
    (hudp : ∀ d, udp = some d → d.address.Plain parseAddress) :
    f.Readable udp f.inbound.isSome := by
  have hreadable : f.sessionStatus = .new → Mux.Readable f.target := fun hnew =>
    ⟨isSome_targetNetwork (htarget hnew).1, (htarget hnew).2.readable⟩
  rw [FrameMetadata.Readable]
  split
  · next inbound hnew hi =>
    obtain ⟨hsource, harrival⟩ := hinbound inbound hi
    have hsize := (hreadable hnew).size_le
    have hsource' := hsource.size
    have harrival' := harrival.size
    refine ⟨hreadable hnew, fun _ => ⟨hsource.address.readable, fun _ => ?_⟩, by omega⟩
    exact harrival.address.readable
  · next hnew hi =>
    refine ⟨hreadable hnew, fun hreverse => ?_⟩
    rw [hi] at hreverse
    nomatch hreverse
  · exact fun d hd => (hudp d hd).readable

/-- What is written for a frame is read to its last byte, whatever follows, and gives the
    frame back: its id, status and option, and what `ReadBack` says. -/
theorem unmarshal_writeTo {f : FrameMetadata} {udp : Option Destination}
    (htarget : f.sessionStatus = .new →
      (f.target.network = .tcp ∨ f.target.network = .udp) ∧ f.target.address.Plain parseAddress)
    (hinbound : ∀ inbound, f.inbound = some inbound →
      IsIP parseAddress inbound.source ∧ IsIP parseAddress inbound.arrival)
    (hudp : ∀ d, udp = some d → d.address.Plain parseAddress) :
    ∃ bytes m, f.writeTo udp = .ok bytes ∧
      Reads (unmarshal parseAddress f.inbound.isSome) bytes m ∧ m.sessionID = f.sessionID ∧
      m.sessionStatus = f.sessionStatus.toByte ∧ m.option = f.option ∧ ReadBack f udp m := by
  obtain ⟨bytes, m, hwrite, hreads, hheard, hback⟩ := exists_heard parseAddress
    (FrameMetadata.readable_of_plain parseAddress htarget hinbound hudp)
  have hplain : f.Plain parseAddress udp := by
    refine ⟨fun hnew => (htarget hnew).2, fun _ inbound hi => ?_, fun _ => hudp⟩
    obtain ⟨hsource, harrival⟩ := hinbound inbound hi
    exact ⟨isSome_targetNetwork hsource.network, hsource.address,
      isSome_targetNetwork harrival.network, harrival.address⟩
  exact ⟨bytes, m, hwrite, hreads, hheard.sessionID, hheard.sessionStatus, hheard.option,
    hback hplain rfl⟩

/-- The first packet to a DNS server, with where it came from. -/
def firstPacket : FrameMetadata where
  target := ⟨.udp, .ipv4 #v[8, 8, 8, 8], 53⟩
  sessionID := 7
  option := optionData
  sessionStatus := .new
  globalID := #v[1, 2, 3, 4, 5, 6, 7, 8]
  inbound := some ⟨⟨.udp, .ipv4 #v[10, 0, 0, 1], 1000⟩, ⟨.tcp, .ipv4 #v[10, 0, 0, 2], 443⟩⟩

theorem unmarshal_writeTo_firstPacket :
    ∃ bytes m, firstPacket.writeTo (some firstPacket.target) = .ok bytes ∧
      Reads (unmarshal Address.domain true) bytes m ∧ m.target = some firstPacket.target ∧
      m.source = some ⟨.udp, .ipv4 #v[10, 0, 0, 1], 1000⟩ ∧
      m.arrival = some ⟨.tcp, .ipv4 #v[10, 0, 0, 2], 443⟩ := by
  obtain ⟨bytes, m, hwrite, hreads, -, -, -, hback⟩ :=
    @unmarshal_writeTo Address.domain firstPacket (some firstPacket.target)
      (fun _ => ⟨.inr rfl, trivial⟩)
      (fun inbound hi => by
        cases hi
        exact ⟨⟨.inr rfl, trivial, by decide⟩, ⟨.inl rfl, trivial, by decide⟩⟩)
      (fun d hd => by cases hd; trivial)
  exact ⟨bytes, m, hwrite, hreads, hback.target rfl, hback.inbound rfl _ rfl⟩

/-- A frame that goes on with a session carries no inbound: what the writer still has of it is
    not written, and the other end reads none. -/
theorem keep_without_inbound :
    ∃ bytes m, { firstPacket with sessionStatus := .keep }.writeTo none = .ok bytes ∧
      unmarshal Address.domain true bytes = .ok m [] ∧ m.source = none ∧ m.arrival = none :=
  ⟨[0, 4, 0, 7, 2, 1], Metadata.bare 7 2 1, rfl, rfl, rfl, rfl⟩

end XrayCore.Mux
