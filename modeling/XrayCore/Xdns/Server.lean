/-
  XrayCore.Xdns.Server

  What the server does with a datagram.

  `read` follows the source: it refuses what is no query for the tunnel, notes the
  query for a response, and hands on the packet it carries, or feeds the fragment
  table.  Every index and slice is checked and `none` is a panic.
-/

import XrayCore.Xdns.Frag
import XrayCore.Xdns.Resp

namespace XrayCore.Xdns

open Bytes List Option

/-! ## The server -/

/-- `Rec`: a response that waits for data. -/
structure Rec where
  resp : Resp
  clientID : ClientID

/-- `xdnsServer`, with whether the queue of responses is full. -/
structure Server where
  domains : List Domain
  fragManager : FragManager
  recFull : Bool

/-- What a call of `read` does: the message it gives to `decref`, the response it
    queues, the packet it hands to the reader, and the fragment table it leaves. -/
structure ReadResult where
  reply : Option Message
  queued : Option Rec
  packet : Option (Bytes × ClientID)
  fragManager : FragManager

/-- A call that does nothing but give a message to `decref`. -/
def Server.replied (s : Server) (reply : Option Message) : ReadResult :=
  { reply, queued := none, packet := none, fragManager := s.fragManager }

/-- The query turned into a response with a code. -/
def Message.withRCode (msg : Message) (rCode : UInt16) : Message :=
  { msg with header := { msg.header with response := true, rCode } }

/-- The query turned into a response of the domain without answers. -/
def Message.withoutData (msg : Message) : Message :=
  { msg with header := { msg.header with
      response := true, authoritative := true, rCode := rCodeSuccess } }

/-! ## EDNS -/

/-- The end of the loop over the additional records: a second OPT record, one of
    another version at a place, or the class of the OPT record if there is one. -/
inductive OptScan where
  | duplicate
  | version (i : ℕ)
  | done (edns0 : Option UInt16)
deriving DecidableEq

def Resource.version (r : Resource) : UInt32 := r.ttl >>> 16 &&& 0xFF

/-- The loop, from the record at `i` on. -/
def scanOpt : List Resource → ℕ → Option UInt16 → OptScan
  | [], _, opt => .done opt
  | r :: rs, i, opt =>
    if r.type = typeOPT then
      if opt.isSome then .duplicate
      else if r.version ≠ 0 then .version i
      else scanOpt rs (i + 1) (some r.class')
    else scanOpt rs (i + 1) opt

/-- The size that the query asks for, forced into the range of the protocol; zero
    without an OPT record. -/
def ednsSize : Option UInt16 → UInt16
  | none => 0
  | some size => if size < 512 then 512 else if 4096 < size then 4096 else size

/-- `msg.Additionals[i].Header.TTL = 1 << 24`. -/
def Message.withBadVersion (msg : Message) (i : ℕ) : Message :=
  { msg with
    header := { msg.header with rCode := rCodeSuccess }
    additionals := msg.additionals.modify i fun r => { r with ttl := (1 : UInt32) <<< 24 } }

/-! ## A query's payload -/

/-- `decoded`: an array of 255 bytes that starts with the payload. -/
def decodedArray (payload : Bytes) : Bytes :=
  payload ++ List.replicate (255 - payload.length) 0

/-- `ClientIDFromRaw`: the two lowest bits of the first byte name a type. -/
def clientIDFromRaw : Bytes → ClientID
  | b :: rest => (b &&& 0xFC) :: rest
  | [] => []

/-- The guard over the payload's first byte, its kind and its length. -/
def badKind (b0 b8 : UInt8) (n : ℕ) (qtype : UInt16) : Bool :=
  typeMap' (b0 &&& 3) ≠ qtype ∨ (b8 &&& 0x3F ≠ 3 ∧ b8 &&& 0x3F ≠ 8) ∨
    (b8 &&& 0x3F = 3 ∧ n < 9 + 3 + 1) ∨ (b8 &&& 0x3F = 8 ∧ n ≠ 9 + 8)

/-- `read` from the client's id on. -/
def Server.deliver (s : Server) (now : ℤ) (msg : Message) (domain : Domain) (edns0 : UInt16)
    (decoded : Bytes) (n : ℕ) : Option ReadResult := do
  let raw ← slice decoded 0 8
  let clientID := clientIDFromRaw raw
  -- the source also asks whether this is nil, which it never is
  let r ← newResp msg domain edns0
  let result : ReadResult :=
    if s.recFull then s.replied (some msg.withoutData)
    else { s.replied none with queued := some { resp := r, clientID } }
  let b8 ← index decoded 8
  if b8 &&& 0x3F = 8 then
    return result
  if b8 &&& 0xC0 = 0xC0 then
    let fragID ← index decoded 12
    let fragIdx ← index decoded 13
    let fragN ← index decoded 14
    let data ← slice decoded 15 n
    let (out, fragManager) ← s.fragManager.feed now { clientID, fragID } fragIdx fragN data
    if out.length > 0 then
      let p ← pooled out
      return { result with packet := some (p, clientID), fragManager }
    else
      return { result with fragManager }
  else
    let p ← slice decoded 12 n
    return { result with packet := some (p, clientID) }

/-- `read` from the search for the domain on. -/
def Server.readQuestion (s : Server) (now : ℤ) (msg : Message) (edns0 : UInt16) :
    Option ReadResult := do
  let q ← index msg.questions 0
  match ← findDomain s.domains q.name with
  | none => return s.replied (some (msg.withRCode rCodeNameError))
  | some domain =>
    if !domain.hasType q.type then
      return s.replied (some msg.withoutData)
    let payload ← domain.decode q.name
    if payload.length < 9 then
      return s.replied (some msg.withoutData)
    let decoded := decodedArray payload
    let b0 ← index decoded 0
    let b8 ← index decoded 8
    if badKind b0 b8 payload.length q.type then
      return s.replied (some msg.withoutData)
    s.deliver now msg domain edns0 decoded payload.length

/-- `xdnsServer.read`. -/
def Server.read (unpack : Bytes → Option Message) (s : Server) (now : ℤ)
    (buf : Bytes) : Option ReadResult :=
  match unpack buf with
  | none => some (s.replied none)
  | some msg =>
    if msg.header.response then some (s.replied none)
    else if msg.header.opCode ≠ 0 then some (s.replied (some (msg.withRCode rCodeNotImplemented)))
    else if msg.questions.length ≠ 1 then
      some (s.replied (some (msg.withRCode rCodeFormatError)))
    else
      match scanOpt msg.additionals 0 none with
      -- the header still says that this is a query
      | .duplicate =>
        some (s.replied (some { msg with header := { msg.header with rCode := rCodeFormatError } }))
      | .version i => some (s.replied (some (msg.withBadVersion i)))
      | .done opt => s.readQuestion now msg (ednsSize opt)

/-! ## When it panics -/

/-- At most one OPT record, and that of version zero. -/
structure OptsOk (rs : List Resource) : Prop where
  one : rs.countP (fun r => r.type = typeOPT) ≤ 1
  version : ∀ r ∈ rs, r.type = typeOPT → r.version = 0

/-- The loop comes to its end if the records left have no further OPT record than they
    may, and none of another version. -/
theorem scanOpt_done_iff (rs : List Resource) (i : ℕ) (opt : Option UInt16) :
    (∃ edns0, scanOpt rs i opt = .done edns0) ↔
      rs.countP (fun r => r.type = typeOPT) ≤ (if opt.isSome then 0 else 1) ∧
        ∀ r ∈ rs, r.type = typeOPT → r.version = 0 := by
  induction rs generalizing i opt with
  | nil => simp [scanOpt]
  | cons r rs ih =>
    unfold scanOpt
    by_cases htype : r.type = typeOPT
    · cases opt with
      | some c => simp [htype]
      | none =>
        by_cases hversion : r.version = 0
        · simp only [htype, hversion, if_true, isSome_none, Bool.false_eq_true, if_false,
            ne_eq, not_true, ih, isSome_some, countP_cons_of_pos, decide_true,
            forall_mem_cons]
          simp
        · simp [htype, hversion]
    · simp [htype, ih]

/-- A fragment that ends before its header does: two bytes or one of it are missing. -/
structure ShortFragment (payload : Bytes) (qtype : UInt16) : Prop where
  length : payload.length = 13 ∨ payload.length = 14
  type : ∃ b, payload[0]? = some b ∧ typeMap' (b &&& 3) = qtype
  kind : payload[8]? = some 0xC3

theorem kind_and_flag_iff (b : UInt8) : (b &&& 0x3F = 3 ∧ b &&& 0xC0 = 0xC0) ↔ b = 0xC3 := by
  obtain ⟨b⟩ := b
  revert b
  simp only [← UInt8.toBitVec_inj]
  decide

variable {payload : Bytes}

theorem shortFragment_iff {qtype : UInt16} {b0 b8 : UInt8} (hb0 : payload[0]? = some b0)
    (hb8 : payload[8]? = some b8) :
    ShortFragment payload qtype ↔
      (payload.length = 13 ∨ payload.length = 14) ∧ typeMap' (b0 &&& 3) = qtype ∧
        b8 &&& 0x3F = 3 ∧ b8 &&& 0xC0 = 0xC0 := by
  rw [kind_and_flag_iff]
  constructor
  · rintro ⟨hlength, ⟨b, hb, htype⟩, hkind⟩
    obtain rfl := some.inj (hb0.symm.trans hb)
    exact ⟨hlength, htype, some.inj (hb8.symm.trans hkind)⟩
  · rintro ⟨hlength, htype, rfl⟩
    exact ⟨hlength, ⟨b0, hb0, htype⟩, hb8⟩

theorem length_decodedArray (hlen : payload.length ≤ 255) :
    (decodedArray payload).length = 255 := by
  rw [decodedArray, length_append, length_replicate]
  omega

theorem exists_index_decodedArray (hlen : payload.length ≤ 255) {i : ℕ} (hi : i < 255) :
    ∃ b, index (decodedArray payload) i = some b :=
  ⟨_, getElem?_eq_getElem (by rw [length_decodedArray hlen]; exact hi)⟩

theorem index_decodedArray_of_lt {i : ℕ} (hi : i < payload.length) :
    index (decodedArray payload) i = payload[i]? :=
  getElem?_append_left hi

variable {q : Question} {msg : Message}

/-- Past the guards, only the slice behind a fragment's header can be out of range. -/
theorem Server.deliver_eq_none_iff (s : Server) (now : ℤ) (hq : msg.questions = [q])
    (domain : Domain) (edns0 : UInt16) (hlen : payload.length ≤ 255) {b8 : UInt8}
    (hb8 : payload[8]? = some b8) (h12 : 12 ≤ payload.length) :
    s.deliver now msg domain edns0 (decodedArray payload) payload.length = none ↔
      b8 &&& 0x3F ≠ 8 ∧ b8 &&& 0xC0 = 0xC0 ∧ payload.length < 15 := by
  have harray := length_decodedArray hlen
  obtain ⟨raw, hraw⟩ := exists_slice (decodedArray payload) (i := 0) (j := 8) (by omega) (by omega)
  obtain ⟨r, hr⟩ := exists_newResp hq domain edns0
  have h8 : index (decodedArray payload) 8 = some b8 := by
    rw [index_decodedArray_of_lt (by omega), hb8]
  obtain ⟨fragID, hfragID⟩ := exists_index_decodedArray hlen (i := 12) (by omega)
  obtain ⟨fragIdx, hfragIdx⟩ := exists_index_decodedArray hlen (i := 13) (by omega)
  obtain ⟨fragN, hfragN⟩ := exists_index_decodedArray hlen (i := 14) (by omega)
  simp only [deliver, hraw, hr, h8, hfragID, hfragIdx, hfragN, bind_eq_bind,
    Option.bind_some, Option.pure_def]
  by_cases hping : b8 &&& 0x3F = 8
  · simp only [hping, if_true, reduceCtorEq, ne_eq, not_true, false_and]
  rw [if_neg hping]
  by_cases hflag : b8 &&& 0xC0 = 0xC0
  · rw [if_pos hflag]
    by_cases hshort : payload.length < 15
    · rw [slice_eq_none_iff.mpr (Or.inl hshort)]
      simp only [bind_none, hping, hflag, hshort, ne_eq, not_false_eq_true, and_self]
    · -- whole fragments reach the table, whose packets fit a buffer
      obtain ⟨data, hdata⟩ := exists_slice (decodedArray payload) (i := 15)
        (Nat.not_lt.mp hshort) (by omega)
      obtain ⟨out, frags, hfeed, hout⟩ := s.fragManager.feed_spec now
        { clientID := clientIDFromRaw raw, fragID } fragIdx fragN data
      have hpooled : pooled out = some out := if_pos hout
      simp only [hdata, hfeed, hpooled, bind_some]
      split_ifs <;> simp only [hshort, and_false]
  · rw [if_neg hflag]
    obtain ⟨data, hdata⟩ := exists_slice (decodedArray payload) (i := 12) h12 (by omega)
    simp only [hdata, bind_some, reduceCtorEq, hflag, false_and, and_false]

theorem badKind_eq_false_iff {b0 b8 : UInt8} {n : ℕ} {qtype : UInt16} :
    badKind b0 b8 n qtype = false ↔
      typeMap' (b0 &&& 3) = qtype ∧
        ((b8 &&& 0x3F = 3 ∧ 13 ≤ n) ∨ (b8 &&& 0x3F = 8 ∧ n = 17)) := by
  unfold badKind
  rw [decide_eq_false_iff_not]
  constructor
  · intro h
    push Not at h
    obtain ⟨htype, hkind, h3, h8⟩ := h
    refine ⟨htype, ?_⟩
    by_cases hk : b8 &&& 0x3F = 3
    · exact Or.inl ⟨hk, h3 hk⟩
    · exact Or.inr ⟨hkind hk, h8 (hkind hk)⟩
  · rintro ⟨htype, ⟨hk, hn⟩ | ⟨hk, hn⟩⟩ (h | h | h | h)
    · exact h htype
    · exact h.1 hk
    · omega
    · exact absurd (hk.symm.trans h.1) (by decide)
    · exact h htype
    · exact h.2 hk
    · exact absurd (hk.symm.trans h.1) (by decide)
    · exact h.2 hn

/-- A question makes the server panic if a domain takes it and its payload is a fragment
    that ends before its header does. -/
theorem Server.readQuestion_eq_none_iff (s : Server) (now : ℤ) (hq : msg.questions = [q])
    (edns0 : UInt16) :
    s.readQuestion now msg edns0 = none ↔
      ∃ d, s.domains.find? (fun d => decide (d.Covers q.name)) = some d ∧
        d.hasType q.type = true ∧ ShortFragment (d.payload q.name) q.type := by
  have hindex : index msg.questions 0 = some q := by rw [hq]; rfl
  simp only [readQuestion, hindex, findDomain_eq, bind_eq_bind, bind_some,
    Option.pure_def]
  cases hd : s.domains.find? fun d => decide (d.Covers q.name) with
  | none => simp only [reduceCtorEq, false_and, exists_false]
  | some d =>
    simp only [some.injEq, exists_eq_left']
    by_cases htype : d.hasType q.type = true
    swap
    · simp [htype]
    have hname := q.name.length_le
    have hpayload := d.length_payload_le q.name
    simp only [htype, Bool.not_true, Bool.false_eq_true, if_false, Domain.decode_eq,
      bind_some, true_and]
    generalize d.payload q.name = payload at hpayload ⊢
    have hlen : payload.length ≤ 255 := by
      unfold Name.length at hpayload
      omega
    by_cases hshort : payload.length < 9
    · rw [if_pos hshort]
      simp only [reduceCtorEq, false_iff]
      intro h
      have := h.length
      omega
    obtain ⟨b0, hb0⟩ : ∃ b, payload[0]? = some b := ⟨_, getElem?_eq_getElem (by omega)⟩
    obtain ⟨b8, hb8⟩ : ∃ b, payload[8]? = some b := ⟨_, getElem?_eq_getElem (by omega)⟩
    rw [if_neg hshort, index_decodedArray_of_lt (by omega), index_decodedArray_of_lt (by omega),
      hb0, hb8, shortFragment_iff hb0 hb8]
    simp only [bind_some]
    cases hbad : badKind b0 b8 payload.length q.type with
    | true =>
      simp only [if_true, reduceCtorEq, false_iff]
      rintro ⟨hlength, htype, hkind, -⟩
      have hgood : badKind b0 b8 payload.length q.type = false :=
        badKind_eq_false_iff.mpr ⟨htype, Or.inl ⟨hkind, by omega⟩⟩
      rw [hgood] at hbad
      exact absurd hbad Bool.false_ne_true
    | false =>
      obtain ⟨htype, hkind⟩ := badKind_eq_false_iff.mp hbad
      rw [if_neg (by decide), s.deliver_eq_none_iff now hq d edns0 hlen hb8 (by omega)]
      constructor
      · rintro ⟨hping, hflag, hlt⟩
        obtain ⟨hk, hn⟩ := hkind.resolve_right fun h => hping h.1
        exact ⟨by omega, htype, hk, hflag⟩
      · rintro ⟨hlength, -, hk, hflag⟩
        exact ⟨by rw [hk]; decide, hflag, by omega⟩

theorem optsOk_iff (rs : List Resource) : OptsOk rs ↔ ∃ opt, scanOpt rs 0 none = .done opt := by
  rw [scanOpt_done_iff]
  exact ⟨fun h => ⟨h.one, h.version⟩, fun h => ⟨h.1, h.2⟩⟩

variable {unpack : Bytes → Option Message}

/-- A query of one question gets to its name. -/
theorem Server.read_eq_readQuestion (s : Server) (now : ℤ) {buf : Bytes}
    (hunpack : unpack buf = some msg) (hquery : msg.header.response = false)
    (hop : msg.header.opCode = 0) (hq : msg.questions = [q]) (hopts : OptsOk msg.additionals) :
    ∃ edns0, s.read unpack now buf = s.readQuestion now msg edns0 := by
  obtain ⟨opt, hscan⟩ := (optsOk_iff _).mp hopts
  refine ⟨ednsSize opt, ?_⟩
  simp [read, hunpack, hquery, hop, hq, hscan]

/-- Nothing panics before that. -/
theorem Server.reached_of_read_eq_none (s : Server) {now : ℤ} {buf : Bytes}
    (h : s.read unpack now buf = none) :
    ∃ msg q edns0, unpack buf = some msg ∧ msg.header.response = false ∧ msg.header.opCode = 0 ∧
      msg.questions = [q] ∧ OptsOk msg.additionals ∧ s.readQuestion now msg edns0 = none := by
  unfold read at h
  cases hunpack : unpack buf with
  | none => simp [hunpack] at h
  | some msg =>
    simp only [hunpack] at h
    split_ifs at h with hresponse hop hone
    obtain ⟨q, hq⟩ := length_eq_one_iff.mp (not_not.mp hone)
    cases hscan : scanOpt msg.additionals 0 none with
    | duplicate => simp [hscan] at h
    | version i => simp [hscan] at h
    | done opt =>
      simp only [hscan] at h
      exact ⟨msg, q, ednsSize opt, rfl, Bool.eq_false_iff.mpr hresponse, not_not.mp hop, hq,
        (optsOk_iff _).mpr ⟨opt, hscan⟩, h⟩

/-- A datagram that `read` takes for a query of the tunnel: a query of one question, for a
    name below a domain, which is the first such, and of a type that it has. -/
structure Tunnelled (unpack : Bytes → Option Message) (domains : List Domain)
    (buf : Bytes) (q : Question) (d : Domain) : Prop where
  unpacked : ∃ msg, unpack buf = some msg ∧ msg.header.response = false ∧
    msg.header.opCode = 0 ∧ msg.questions = [q] ∧ OptsOk msg.additionals
  domain : domains.find? (fun d => decide (d.Covers q.name)) = some d
  type : d.hasType q.type = true

/-- The datagrams that crash the server are exactly the queries of the tunnel whose
    payload is a fragment of thirteen or fourteen bytes: long enough for a packet, but
    not for the three bytes of a fragment's header. -/
theorem Server.read_panics_iff (unpack : Bytes → Option Message) (s : Server) (now : ℤ)
    (buf : Bytes) :
    s.read unpack now buf = none ↔
      ∃ q d, Tunnelled unpack s.domains buf q d ∧ ShortFragment (d.payload q.name) q.type := by
  constructor
  · intro h
    obtain ⟨msg, q, edns0, hunpack, hquery, hop, hq, hopts, hread⟩ := s.reached_of_read_eq_none h
    obtain ⟨d, hd, htype, hshort⟩ := (s.readQuestion_eq_none_iff now hq edns0).mp hread
    exact ⟨q, d, ⟨⟨msg, hunpack, hquery, hop, hq, hopts⟩, hd, htype⟩, hshort⟩
  · rintro ⟨q, d, ⟨⟨msg, hunpack, hquery, hop, hq, hopts⟩, hd, htype⟩, hshort⟩
    obtain ⟨edns0, hread⟩ := s.read_eq_readQuestion now hunpack hquery hop hq hopts
    rw [hread, s.readQuestion_eq_none_iff now hq]
    exact ⟨d, hd, htype, hshort⟩

/-! A query for the address of `aaaaaaaaaaaabqyaaaaaa.t.`, whose 21 letters are 13 bytes. -/

def shortFragmentName : Name :=
  ⟨[97, 97, 97, 97, 97, 97, 97, 97, 97, 97, 97, 97, 98, 113, 121, 97, 97, 97, 97, 97, 97, 46,
    116, 46], by decide⟩

def shortFragmentDatagram : Bytes :=
  [0, 1, 1, 0, 0, 1, 0, 0, 0, 0, 0, 0,
    21, 97, 97, 97, 97, 97, 97, 97, 97, 97, 97, 97, 97, 98, 113, 121, 97, 97, 97, 97, 97, 97,
    1, 116, 0, 0, 1, 0, 1]

def shortFragmentMessage : Message where
  header :=
    { id := 1, response := false, opCode := 0, authoritative := false, truncated := false,
      rCode := rCodeSuccess }
  questions := [{ name := shortFragmentName, type := typeA, class' := 1 }]
  answers := []
  additionals := []

def allTypes : List UInt16 := [typeA, typeCNAME, typeTXT, typeAAAA]

/-- The server of the domain `t` with an empty fragment table. -/
def shortFragmentServer : Server where
  domains := [domainT allTypes]
  fragManager := { m := ∅, closed := false }
  recFull := false

/-- That query of 41 bytes crashes a server of the domain `t`. -/
theorem read_panics_short_fragment :
    newDomain .ok asciiName "t" 253 63 allTypes 0 = .ok (domainT allTypes) ∧
      shortFragmentDatagram.length ≤ 512 ∧
      shortFragmentServer.read
        (fun buf => if buf = shortFragmentDatagram then some shortFragmentMessage else none) 0
        shortFragmentDatagram = none := by
  refine ⟨by decide, by decide, isNone_iff_eq_none.mp ?_⟩
  decide +kernel

end XrayCore.Xdns
