/-
  XrayCore.Xdns.Client

  What the client does with a response.

  `read` follows the source: it refuses what is no response for the tunnel, decodes
  the answers into a pooled buffer, and cuts the packets out of it.  Every index and
  slice is checked and `none` is a panic.
-/

import XrayCore.Xdns.Resp

namespace XrayCore.Xdns

open Bytes List Option

/-! ## The client -/

/-- The loop that cuts the packets out of the data, each behind two bytes with its length
    and a mark on the last.  Data that ends too early gives no packets at all. -/
def splitPackets (b : Bytes) (bs : List Bytes) : Option (List Bytes) :=
  match b with
  | b0 :: b1 :: b =>
    let length := (b0 &&& 0x3F).toNat <<< 8 ||| b1.toNat
    if length > b.length then some []
    else
      let bs := bs ++ [b.take length]
      if b0 &&& 0xC0 = 0xC0 then some bs
      else
        match _hb : slice b length b.length with
        | none => none
        | some b => if b.length < 2 then some [] else splitPackets b bs
  | _ => some bs
termination_by b.length
decreasing_by
  have hlength := length_of_slice_eq_some _hb
  simp only [List.length_cons]
  omega

/-- `xdnsClient.read`: the packets that it hands to the reader, of which it tells the
    caller whether there are any. -/
def clientRead (unpack : Bytes → Option Message) (domains : List Domain)
    (buf : Bytes) : Option (List Bytes) :=
  match unpack buf with
  | none => some []
  | some msg =>
    if msg.header.response = false ∨ msg.header.truncated ∨ msg.header.rCode ≠ rCodeSuccess ∨
        msg.questions.length ≠ 1 then some []
    else do
      let q ← index msg.questions 0
      match ← findDomain domains q.name with
      | none => return []
      | some domain =>
        if !domain.hasType q.type then
          return []
        let resp ← newResp msg domain 0
        let decoded ← resp.decode
        let p ← pooled decoded
        splitPackets p []

/-! ## When it panics -/

theorem exists_splitPackets (b : Bytes) (bs : List Bytes) :
    ∃ out, splitPackets b bs = some out := by
  fun_induction splitPackets b bs with
  | case3 bs b0 b1 b length hlength hlast hb =>
    rcases slice_eq_none_iff.mp hb with h | h <;> omega
  | case5 bs b0 b1 b length hlength bs' hlast b' hb hshort ih => exact ih
  | _ => exact ⟨_, rfl⟩

/-- The strings of a TXT record lie in the message, each behind its length. -/
def TextFits (unpack : Bytes → Option Message) : Prop :=
  ∀ buf msg, unpack buf = some msg → ∀ a ∈ msg.answers, ∀ strings, a.body = .txt strings →
    strings.flatten.length ≤ buf.length

/-- A message that `read` takes for a response of the tunnel: a whole one without error,
    to one question, for a name below a domain, which is the first such, and of a type
    that it has. -/
structure Answered (domains : List Domain) (msg : Message) (q : Question) (d : Domain) :
    Prop where
  response : msg.header.response = true
  whole : msg.header.truncated = false
  success : msg.header.rCode = rCodeSuccess
  questions : msg.questions = [q]
  domain : domains.find? (fun d => decide (d.Covers q.name)) = some d
  type : d.hasType q.type = true

variable {buf : Bytes} {unpack : Bytes → Option Message}

/-- Past the checks, `read` panics if what it decodes does not fit the buffer. -/
theorem Answered.clientRead_eq {domains : List Domain} {msg : Message} {q : Question} {d : Domain}
    (h : Answered domains msg q d) (hunpack : unpack buf = some msg) :
    clientRead unpack domains buf =
      ((Resp.mk msg d 0 0).decode.bind pooled).bind fun p => splitPackets p [] := by
  have hindex : index msg.questions 0 = some q := by rw [h.questions]; rfl
  have hresp : newResp msg d 0 = some (Resp.mk msg d 0 0) := if_pos h.response
  have hguard : ¬ (msg.header.response = false ∨ msg.header.truncated = true ∨
      msg.header.rCode ≠ rCodeSuccess ∨ msg.questions.length ≠ 1) := by
    simp [h.response, h.whole, h.success, h.questions]
  simp only [clientRead, hunpack, if_neg hguard, hindex, findDomain_eq, h.domain, h.type, hresp,
    Option.bind_eq_bind, Option.bind_some, Option.pure_def, Bool.not_true, Bool.false_eq_true,
    if_false, Option.bind_assoc]

/-- Everything that `read` does not take for such a response it drops. -/
theorem answered_of_clientRead_eq_none {domains : List Domain}
    (h : clientRead unpack domains buf = none) :
    ∃ msg q d, unpack buf = some msg ∧ Answered domains msg q d := by
  unfold clientRead at h
  cases hunpack : unpack buf with
  | none => simp [hunpack] at h
  | some msg =>
    simp only [hunpack] at h
    split_ifs at h with hguard
    push Not at hguard
    obtain ⟨hresponse, hwhole, hsuccess, hone⟩ := hguard
    obtain ⟨q, hq⟩ := length_eq_one_iff.mp hone
    have hindex : index msg.questions 0 = some q := by rw [hq]; rfl
    simp only [hindex, findDomain_eq, Option.bind_eq_bind, Option.bind_some, Option.pure_def] at h
    cases hd : domains.find? fun d => decide (d.Covers q.name) with
    | none => simp [hd] at h
    | some d =>
      cases htype : d.hasType q.type with
      | false => simp [hd, htype] at h
      | true =>
        exact ⟨msg, q, d, rfl, by simpa using hresponse, by simpa using hwhole, hsuccess, hq, hd,
          htype⟩

/-- What does not fit the buffer is the names of more answers than it can hold. -/
theorem Resp.decode_overflows_iff (hfits : TextFits unpack) (hbuf : buf.length ≤ 4096)
    {msg : Message} (hunpack : unpack buf = some msg) {q : Question} (hq : msg.questions = [q])
    (d : Domain) :
    (Resp.mk msg d 0 0).decode.bind pooled = none ↔
      q.type = typeCNAME ∧ Overlong (msg.answers.filterMap (d.fragmentOf typeCNAME)) := by
  have hindex : index msg.questions 0 = some q := by rw [hq]; rfl
  simp only [decode, hindex]
  by_cases htext : q.type = typeTXT
  · -- text comes out of the message as it stands there
    have hcname : ¬ q.type = typeCNAME := by rw [htext]; decide
    obtain ⟨bs, hbs, hlength⟩ := d.exists_text (n := buf.length) fun a ha strings hbody =>
      hfits buf msg hunpack a ha strings hbody
    have hpooled : pooled bs = some bs := if_pos (hlength.trans hbuf)
    simp only [htext, if_true, hbs, bind_some, hpooled, reduceCtorEq, false_iff, not_and]
    exact fun h => absurd (htext.trans h) hcname
  · rw [if_neg htext, Domain.fragments_eq, map_some, bind_some,
      pooled_eq_none_iff, assemble_overflows_iff]
    by_cases hcname : q.type = typeCNAME
    · simp only [hcname, true_and]
    · simp only [hcname, false_and, iff_false]
      apply not_overlong_of_short
      intro f hf
      obtain ⟨a, -, ha⟩ := mem_filterMap.mp hf
      exact Domain.length_fragmentOf_le hcname ha

/-- The responses that crash the client are exactly those whose answers are names that
    together carry more than a buffer of 4096 bytes: compression lets a short message
    hold many long names. -/
theorem client_read_panics_iff {unpack : Bytes → Option Message} (hfits : TextFits unpack)
    (domains : List Domain) {buf : Bytes} (hbuf : buf.length ≤ 4096) :
    clientRead unpack domains buf = none ↔
      ∃ msg q d, unpack buf = some msg ∧ Answered domains msg q d ∧ q.type = typeCNAME ∧
        Overlong (msg.answers.filterMap (d.fragmentOf typeCNAME)) := by
  constructor
  · intro h
    obtain ⟨msg, q, d, hunpack, hanswered⟩ := answered_of_clientRead_eq_none h
    refine ⟨msg, q, d, hunpack, hanswered, ?_⟩
    rw [← Resp.decode_overflows_iff hfits hbuf hunpack hanswered.questions d]
    rw [hanswered.clientRead_eq hunpack] at h
    -- the packets are always cut out, so it was the buffer
    cases hp : (Resp.mk msg d 0 0).decode.bind pooled with
    | none => rfl
    | some p =>
      obtain ⟨out, hout⟩ := exists_splitPackets p []
      rw [hp, bind_some, hout] at h
      exact absurd h (some_ne_none out)
  · rintro ⟨msg, q, d, hunpack, hanswered, hoverlong⟩
    rw [hanswered.clientRead_eq hunpack,
      (Resp.decode_overflows_iff hfits hbuf hunpack hanswered.questions d).mpr hoverlong]
    rfl

/-! A response of 730 bytes with 27 names of 154 bytes each: of 247 letters the last 245 are
    written once, and every name but the first points to them. -/

/-- The letters behind the first two, in labels as long as they may be, and the domain. -/
def longSuffix : Bytes :=
  List.replicate 63 97 ++ 46 :: List.replicate 63 97 ++ 46 :: List.replicate 63 97 ++
    46 :: List.replicate 56 97 ++ [46, 116, 46]

/-- The two letters that start with the byte `i`. -/
def numberLetters (i : ℕ) : UInt8 × UInt8 :=
  (Nat.toUInt8 (97 + i / 8),
    Nat.toUInt8 (if i % 8 * 4 < 26 then 97 + i % 8 * 4 else 24 + i % 8 * 4))

theorem length_longSuffix : longSuffix.length = 251 := by decide +kernel

def longName (i : ℕ) : Name :=
  ⟨(numberLetters i).1 :: (numberLetters i).2 :: 46 :: longSuffix,
    by simp only [List.length_cons, length_longSuffix]; decide⟩

/-- `a.t.`, the name asked for. -/
def askedName : Name := ⟨[97, 46, 116, 46], by decide⟩

def longNamesMessage : Message where
  header :=
    { id := 1, response := true, opCode := 0, authoritative := true, truncated := false,
      rCode := rCodeSuccess }
  questions := [{ name := askedName, type := typeCNAME, class' := 1 }]
  answers := (List.range 27).map fun i =>
    { name := askedName, class' := 1, ttl := 60, body := .cname (longName i) }
  additionals := []

/-- The head of an answer: the name asked for, CNAME, IN, 60 seconds, and its length. -/
def answerHead (length : UInt8) : Bytes := [192, 12, 0, 5, 0, 1, 0, 0, 0, 60, 0, length]

def longNamesDatagram : Bytes :=
  [0, 1, 132, 0, 0, 1, 0, 27, 0, 0, 0, 0, 1, 97, 1, 116, 0, 0, 5, 0, 1] ++
    answerHead 255 ++ [2, (numberLetters 0).1, (numberLetters 0).2] ++
    63 :: List.replicate 63 97 ++ 63 :: List.replicate 63 97 ++ 63 :: List.replicate 63 97 ++
    56 :: List.replicate 56 97 ++ [1, 116, 0] ++
    ((List.range 26).map fun i =>
      answerHead 5 ++ [2, (numberLetters (i + 1)).1, (numberLetters (i + 1)).2, 192, 36]).flatten

/-- Unpacking, on that response. -/
def unpackLongNames (buf : Bytes) : Option Message :=
  if buf = longNamesDatagram then some longNamesMessage else none

theorem textFits_unpackLongNames : TextFits unpackLongNames := by
  intro buf msg hunpack a ha strings hbody
  unfold unpackLongNames at hunpack
  split_ifs at hunpack
  obtain rfl := some.inj hunpack
  obtain ⟨i, -, rfl⟩ := mem_map.mp ha
  exact absurd hbody (by simp)

theorem length_longNamesDatagram : longNamesDatagram.length ≤ 4096 := by decide +kernel

/-- That response crashes a client of the domain `t`. -/
theorem client_read_panics_long_names :
    newDomain .ok asciiName "t" 253 63 [typeCNAME] 0 = .ok (domainT [typeCNAME]) ∧
      longNamesDatagram.length ≤ 4096 ∧
      clientRead unpackLongNames [domainT [typeCNAME]] longNamesDatagram = none := by
  refine ⟨by decide, length_longNamesDatagram, isNone_iff_eq_none.mp ?_⟩
  decide +kernel

theorem answered_longNamesMessage :
    Answered [domainT [typeCNAME]] longNamesMessage
      { name := askedName, type := typeCNAME, class' := 1 } (domainT [typeCNAME]) :=
  ⟨rfl, rfl, rfl, rfl, by decide, by decide⟩

theorem overlong_longNamesMessage :
    Overlong (longNamesMessage.answers.filterMap ((domainT [typeCNAME]).fragmentOf typeCNAME)) where
  distinct := by decide +kernel
  counted := by
    refine ⟨{ number := 0, rest := replicate 153 0 }, ?_, ?_, 0, ?_, ?_⟩ <;> decide +kernel
  long := by decide +kernel

theorem client_read_panics_iff_long_names :
    TextFits unpackLongNames ∧ longNamesDatagram.length ≤ 4096 ∧
      clientRead unpackLongNames [domainT [typeCNAME]] longNamesDatagram = none := by
  refine ⟨textFits_unpackLongNames, length_longNamesDatagram, ?_⟩
  exact (client_read_panics_iff textFits_unpackLongNames [domainT [typeCNAME]]
      length_longNamesDatagram).mpr
    ⟨longNamesMessage, _, domainT [typeCNAME], if_pos rfl, answered_longNamesMessage, rfl,
      overlong_longNamesMessage⟩

end XrayCore.Xdns
