/-
  XrayCore.Kcp.Segment

  The segments of mKCP: data, acknowledgements and commands, one after the other in a
  packet.

  Each kind has its guard against a packet that is too short.  What `Serialize` writes is
  read back (`readSegment_serialize`), if a command has a number of its own; and what is
  read was written just so (`serialize_of_readSegment`), but for data that did not fit the
  buffer.
-/

import XrayCore.Buf.Buffer
import XrayCore.Wire.Parser

namespace XrayCore.Kcp

open Wire List Option

/-! ## The segments -/

/-- `CommandACK`. -/
def commandACK : UInt8 := 0

/-- `CommandData`. -/
def commandData : UInt8 := 1

/-- `DataSegment`, as far as it is sent. -/
structure DataSegment where
  conv : UInt16
  option : UInt8
  timestamp : UInt32
  number : UInt32
  sendingNext : UInt32
  payload : Bytes
deriving DecidableEq

/-- `AckSegment`, as far as it is sent. -/
structure AckSegment where
  conv : UInt16
  option : UInt8
  receivingWindow : UInt32
  receivingNext : UInt32
  timestamp : UInt32
  numberList : List UInt32
deriving DecidableEq

/-- `CmdOnlySegment`. -/
structure CmdOnlySegment where
  conv : UInt16
  cmd : UInt8
  option : UInt8
  sendingNext : UInt32
  receivingNext : UInt32
  peerRTO : UInt32
deriving DecidableEq

/-- `Segment`. -/
inductive Segment where
  | data (s : DataSegment)
  | ack (s : AckSegment)
  | cmdOnly (s : CmdOnlySegment)
deriving DecidableEq

/-! ## Writing -/

/-- The numbers of an `AckSegment`. -/
def putNumbers (numbers : List UInt32) : Bytes := numbers.flatMap putUint32

/-- `Serialize`, into a slice of `ByteSize`. -/
def Segment.serialize : Segment → Bytes
  | .data s =>
    putUint16 s.conv ++ commandData :: s.option :: (putUint32 s.timestamp ++
      (putUint32 s.number ++ (putUint32 s.sendingNext ++
        (putUint16 (UInt16.ofNat s.payload.length) ++ s.payload))))
  | .ack s =>
    putUint16 s.conv ++ commandACK :: s.option :: (putUint32 s.receivingWindow ++
      (putUint32 s.receivingNext ++ (putUint32 s.timestamp ++
        UInt8.ofNat s.numberList.length :: putNumbers s.numberList)))
  | .cmdOnly s =>
    putUint16 s.conv ++ s.cmd :: s.option :: (putUint32 s.sendingNext ++
      (putUint32 s.receivingNext ++ putUint32 s.peerRTO))

/-! ## Reading -/

/-- `DataSegment.parse`. -/
def DataSegment.parse (conv : UInt16) (opt : UInt8) (buf : Bytes) :
    Option (DataSegment × Bytes) :=
  if buf.length < 15 then none
  else
    let timestamp := front32 buf
    let buf := buf.drop 4
    let number := front32 buf
    let buf := buf.drop 4
    let sendingNext := front32 buf
    let buf := buf.drop 4
    let dataLen := (front16 buf).toNat
    let buf := buf.drop 2
    if buf.length < dataLen then none
    -- what does not fit the payload's buffer is lost
    else some (⟨conv, opt, timestamp, number, sendingNext, (buf.take dataLen).take Buf.size⟩,
      buf.drop dataLen)

/-- The loop of `AckSegment.parse`: the numbers, and what follows them. -/
def takeNumbers : ℕ → Bytes → List UInt32 × Bytes
  | 0, buf => ([], buf)
  | count + 1, buf =>
    let more := takeNumbers count (buf.drop 4)
    (front32 buf :: more.1, more.2)

/-- `AckSegment.parse`. -/
def AckSegment.parse (conv : UInt16) (opt : UInt8) (buf : Bytes) :
    Option (AckSegment × Bytes) :=
  if buf.length < 13 then none
  else
    let receivingWindow := front32 buf
    let buf := buf.drop 4
    let receivingNext := front32 buf
    let buf := buf.drop 4
    let timestamp := front32 buf
    let buf := buf.drop 4
    let count := (buf.headD 0).toNat
    let buf := buf.drop 1
    if buf.length < count * 4 then none
    else
      let numbers := takeNumbers count buf
      some (⟨conv, opt, receivingWindow, receivingNext, timestamp, numbers.1⟩, numbers.2)

/-- `CmdOnlySegment.parse`. -/
def CmdOnlySegment.parse (conv : UInt16) (cmd opt : UInt8) (buf : Bytes) :
    Option (CmdOnlySegment × Bytes) :=
  if buf.length < 12 then none
  else
    let sendingNext := front32 buf
    let buf := buf.drop 4
    let receivingNext := front32 buf
    let buf := buf.drop 4
    let peerRTO := front32 buf
    some (⟨conv, cmd, opt, sendingNext, receivingNext, peerRTO⟩, buf.drop 4)

/-- `ReadSegment`. -/
def readSegment (buf : Bytes) : Option (Segment × Bytes) :=
  match buf with
  | hi :: lo :: cmd :: opt :: buf =>
    let conv := uint16 hi lo
    if cmd = commandData then
      (DataSegment.parse conv opt buf).map fun r => (.data r.1, r.2)
    else if cmd = commandACK then
      (AckSegment.parse conv opt buf).map fun r => (.ack r.1, r.2)
    else (CmdOnlySegment.parse conv cmd opt buf).map fun r => (.cmdOnly r.1, r.2)
  | _ => none

/-! ## What was written is read -/

/-- A segment that is read back: data that fits a buffer, numbers that can be counted, and a
    command that is not one of the other two. -/
def Segment.Sendable : Segment → Prop
  | .data s => 0 < s.payload.length ∧ s.payload.length ≤ Buf.size
  | .ack s => s.numberList.length ≤ 255
  | .cmdOnly s => s.cmd ≠ commandACK ∧ s.cmd ≠ commandData

instance : (seg : Segment) → Decidable seg.Sendable
  | .data _ => inferInstanceAs (Decidable (_ ∧ _))
  | .ack _ => inferInstanceAs (Decidable (_ ≤ _))
  | .cmdOnly _ => inferInstanceAs (Decidable (_ ∧ _))

theorem length_putNumbers (numbers : List UInt32) :
    (putNumbers numbers).length = numbers.length * 4 := by
  induction numbers with
  | nil => rfl
  | cons number numbers ih =>
    rw [putNumbers, flatMap_cons, length_append, length_putUint32, length_cons]
    rw [putNumbers] at ih
    omega

theorem takeNumbers_putNumbers (numbers : List UInt32) (rest : Bytes) :
    takeNumbers numbers.length (putNumbers numbers ++ rest) = (numbers, rest) := by
  induction numbers with
  | nil => rfl
  | cons number numbers ih =>
    have hcut : putNumbers (number :: numbers) ++ rest =
        putUint32 number ++ (putNumbers numbers ++ rest) := by
      rw [putNumbers, flatMap_cons, append_assoc]
      rfl
    rw [hcut, length_cons, takeNumbers, drop_putUint32, ih, front32_putUint32]

theorem DataSegment.parse_serialize (s : DataSegment) (rest : Bytes)
    (hpos : 0 < s.payload.length) (hsize : s.payload.length ≤ Buf.size) :
    DataSegment.parse s.conv s.option (putUint32 s.timestamp ++ (putUint32 s.number ++
      (putUint32 s.sendingNext ++ (putUint16 (UInt16.ofNat s.payload.length) ++
        (s.payload ++ rest))))) = some (s, rest) := by
  have hlen : (UInt16.ofNat s.payload.length).toNat = s.payload.length := by
    rw [UInt16.toNat_ofNat']
    have : Buf.size = 8192 := rfl
    omega
  unfold parse
  rw [if_neg (by simp only [length_append, length_putUint32, length_putUint16]; omega)]
  simp only [front32_putUint32, drop_putUint32, front16_putUint16, drop_putUint16, hlen]
  rw [if_neg (by rw [length_append]; omega), take_left, drop_left,
    take_of_length_le hsize]

theorem AckSegment.parse_serialize (s : AckSegment) (rest : Bytes)
    (hcount : s.numberList.length ≤ 255) :
    AckSegment.parse s.conv s.option (putUint32 s.receivingWindow ++
      (putUint32 s.receivingNext ++ (putUint32 s.timestamp ++
        (UInt8.ofNat s.numberList.length :: (putNumbers s.numberList ++ rest))))) =
      some (s, rest) := by
  have hlen : (UInt8.ofNat s.numberList.length).toNat = s.numberList.length := by
    rw [UInt8.toNat_ofNat']
    omega
  unfold parse
  rw [if_neg (by simp only [length_append, length_cons, length_putUint32]; omega)]
  simp only [front32_putUint32, drop_putUint32, headD_cons, drop_one, tail_cons,
    hlen]
  rw [if_neg (by rw [length_append, length_putNumbers]; omega), takeNumbers_putNumbers]

theorem CmdOnlySegment.parse_serialize (s : CmdOnlySegment) (rest : Bytes) :
    CmdOnlySegment.parse s.conv s.cmd s.option (putUint32 s.sendingNext ++
      (putUint32 s.receivingNext ++ (putUint32 s.peerRTO ++ rest))) = some (s, rest) := by
  unfold parse
  rw [if_neg (by simp only [length_append, length_putUint32]; omega)]
  simp only [front32_putUint32, drop_putUint32]

/-- The head of a segment decides how the rest is read. -/
theorem readSegment_putUint16 (conv : UInt16) (cmd opt : UInt8) (buf : Bytes) :
    readSegment (putUint16 conv ++ cmd :: opt :: buf) =
      if cmd = commandData then
        (DataSegment.parse conv opt buf).map fun r => (.data r.1, r.2)
      else if cmd = commandACK then
        (AckSegment.parse conv opt buf).map fun r => (.ack r.1, r.2)
      else (CmdOnlySegment.parse conv cmd opt buf).map fun r => (.cmdOnly r.1, r.2) := by
  show readSegment
    (UInt8.ofNat (conv.toNat / 256) :: UInt8.ofNat conv.toNat :: cmd :: opt :: buf) = _
  rw [readSegment, uint16_putUint16]

variable {seg : Segment}

/-- A segment is read, up to its last byte. -/
theorem readSegment_serialize (h : seg.Sendable) (rest : Bytes) :
    readSegment (seg.serialize ++ rest) = some (seg, rest) := by
  cases seg with
  | data s =>
    have hcut : (Segment.data s).serialize ++ rest = putUint16 s.conv ++ commandData :: s.option ::
        (putUint32 s.timestamp ++ (putUint32 s.number ++ (putUint32 s.sendingNext ++
          (putUint16 (UInt16.ofNat s.payload.length) ++ (s.payload ++ rest))))) := by
      simp only [Segment.serialize, append_assoc, cons_append]
    rw [hcut, readSegment_putUint16, if_pos rfl, s.parse_serialize rest h.1 h.2]
    rfl
  | ack s =>
    have hcut : (Segment.ack s).serialize ++ rest = putUint16 s.conv ++ commandACK :: s.option ::
        (putUint32 s.receivingWindow ++ (putUint32 s.receivingNext ++ (putUint32 s.timestamp ++
          (UInt8.ofNat s.numberList.length :: (putNumbers s.numberList ++ rest))))) := by
      simp only [Segment.serialize, append_assoc, cons_append]
    rw [hcut, readSegment_putUint16, if_neg (by decide), if_pos rfl, s.parse_serialize rest h]
    rfl
  | cmdOnly s =>
    have hcut : (Segment.cmdOnly s).serialize ++ rest = putUint16 s.conv ++ s.cmd :: s.option ::
        (putUint32 s.sendingNext ++ (putUint32 s.receivingNext ++
          (putUint32 s.peerRTO ++ rest))) := by
      simp only [Segment.serialize, append_assoc, cons_append]
    rw [hcut, readSegment_putUint16, if_neg h.2, if_neg h.1, s.parse_serialize rest]
    rfl

/-! ## What is read was written -/

theorem putNumbers_takeNumbers (count : ℕ) (buf : Bytes) (h : count * 4 ≤ buf.length) :
    putNumbers (takeNumbers count buf).1 ++ (takeNumbers count buf).2 = buf ∧
      (takeNumbers count buf).1.length = count := by
  induction count generalizing buf with
  | zero => exact ⟨rfl, rfl⟩
  | succ count ih =>
    obtain ⟨hput, hlen⟩ := ih (buf.drop 4) (by rw [length_drop]; omega)
    refine ⟨?_, congrArg (· + 1) hlen⟩
    rw [takeNumbers, putNumbers, flatMap_cons, append_assoc]
    show putUint32 (front32 buf) ++ (putNumbers (takeNumbers count (buf.drop 4)).1 ++
      (takeNumbers count (buf.drop 4)).2) = buf
    rw [hput, putUint32_front32 (by omega)]

variable {buf : Bytes}

/-- Every kind of segment has three numbers first. -/
theorem putUint32_three (h : 12 ≤ buf.length) :
    putUint32 (front32 buf) ++ (putUint32 (front32 (buf.drop 4)) ++
      (putUint32 (front32 ((buf.drop 4).drop 4)) ++ ((buf.drop 4).drop 4).drop 4)) = buf := by
  have hsecond : 4 ≤ (buf.drop 4).length := by
    rw [length_drop]
    omega
  have hthird : 4 ≤ ((buf.drop 4).drop 4).length := by
    rw [length_drop, length_drop]
    omega
  rw [putUint32_front32 hthird, putUint32_front32 hsecond, putUint32_front32 (by omega)]

variable {rest : Bytes} {conv : UInt16}

theorem DataSegment.serialize_parse {opt : UInt8} {s : DataSegment}
    (h : DataSegment.parse conv opt buf = some (s, rest)) :
    s.conv = conv ∧ s.option = opt ∧ ∃ payload, s.payload = payload.take Buf.size ∧
      payload.length < 2 ^ 16 ∧ buf = putUint32 s.timestamp ++ (putUint32 s.number ++
        (putUint32 s.sendingNext ++ (putUint16 (UInt16.ofNat payload.length) ++
          (payload ++ rest)))) := by
  unfold parse at h
  dsimp only at h
  split at h
  · nomatch h
  · next hlong =>
    split at h
    · nomatch h
    · next hdata =>
      obtain ⟨rfl, rfl⟩ := Prod.mk.inj (some.inj h)
      refine ⟨rfl, rfl, _, rfl, lt_of_le_of_lt (length_take_le _ _) (UInt16.toNat_lt _), ?_⟩
      -- the length is the one that was read
      have htwo : 2 ≤ (((buf.drop 4).drop 4).drop 4).length := by
        simp only [length_drop]
        omega
      rw [length_take, Nat.min_eq_left (Nat.not_lt.mp hdata), UInt16.ofNat_toNat,
        take_append_drop, putUint16_front16 htwo, putUint32_three (by omega)]

theorem AckSegment.serialize_parse {opt : UInt8} {s : AckSegment}
    (h : AckSegment.parse conv opt buf = some (s, rest)) :
    s.conv = conv ∧ s.option = opt ∧
      buf = putUint32 s.receivingWindow ++ (putUint32 s.receivingNext ++
        (putUint32 s.timestamp ++ (UInt8.ofNat s.numberList.length ::
          (putNumbers s.numberList ++ rest)))) := by
  unfold parse at h
  dsimp only at h
  split at h
  · nomatch h
  · next hlong =>
    split at h
    · nomatch h
    · next hcount =>
      obtain ⟨rfl, rfl⟩ := Prod.mk.inj (some.inj h)
      obtain ⟨hput, hlen⟩ := putNumbers_takeNumbers _ _ (Nat.not_lt.mp hcount)
      obtain ⟨count, numbers, hcut⟩ : ∃ count numbers,
          ((buf.drop 4).drop 4).drop 4 = count :: numbers := by
        apply exists_cons_of_length_pos
        simp only [length_drop]
        omega
      have hlength : 12 ≤ buf.length := by omega
      have hthree := putUint32_three hlength
      rw [hcut] at hput hlen hthree
      refine ⟨rfl, rfl, ?_⟩
      dsimp only
      rw [hcut, hput, hlen, headD_cons, UInt8.ofNat_toNat]
      exact hthree.symm

theorem CmdOnlySegment.serialize_parse {cmd opt : UInt8} {s : CmdOnlySegment}
    (h : CmdOnlySegment.parse conv cmd opt buf = some (s, rest)) :
    s.conv = conv ∧ s.cmd = cmd ∧ s.option = opt ∧
      buf = putUint32 s.sendingNext ++ (putUint32 s.receivingNext ++
        (putUint32 s.peerRTO ++ rest)) := by
  unfold parse at h
  dsimp only at h
  split at h
  · nomatch h
  · next hlong =>
    obtain ⟨rfl, rfl⟩ := Prod.mk.inj (some.inj h)
    refine ⟨rfl, rfl, rfl, ?_⟩
    exact (putUint32_three (by omega)).symm

/-- What a segment was read from: what `Serialize` writes, of data with the whole payload, of
    which the segment has what fits the buffer. -/
def Segment.From : Segment → Bytes → Prop
  | .data s, piece => ∃ payload, payload.length < 2 ^ 16 ∧ s.payload = payload.take Buf.size ∧
      (Segment.data { s with payload }).serialize = piece
  | seg, piece => seg.serialize = piece

theorem Segment.serialize_ne_nil (seg : Segment) : seg.serialize ≠ [] := by
  cases seg <;> exact cons_ne_nil _ _

theorem Segment.From.ne_nil {seg : Segment} {piece : Bytes} (h : seg.From piece) :
    piece ≠ [] := by
  cases seg with
  | data s =>
    obtain ⟨payload, -, -, rfl⟩ := h
    exact serialize_ne_nil _
  | _ => exact h ▸ serialize_ne_nil _

/-- A segment is read from the front of a packet. -/
theorem serialize_of_readSegment (h : readSegment buf = some (seg, rest)) :
    ∃ piece, buf = piece ++ rest ∧ seg.From piece := by
  unfold readSegment at h
  split at h
  · next hi lo cmd opt buf =>
    have hhead : ∀ bytes : Bytes, hi :: lo :: cmd :: opt :: bytes =
        putUint16 (uint16 hi lo) ++ cmd :: opt :: bytes := fun bytes => by
      rw [putUint16_uint16]
      rfl
    dsimp only at h
    split at h
    · next hcmd =>
      obtain ⟨⟨s, rest'⟩, hparse, hseg⟩ := map_eq_some_iff.mp h
      obtain ⟨rfl, rfl⟩ := Prod.mk.inj hseg
      obtain ⟨hconv, hopt, payload, hpayload, hlen, hbuf⟩ := DataSegment.serialize_parse hparse
      refine ⟨_, ?_, payload, hlen, hpayload, rfl⟩
      rw [hbuf, hhead, Segment.serialize, hconv, hopt, hcmd]
      simp only [append_assoc, cons_append]
    · split at h
      · next hcmd =>
        obtain ⟨⟨s, rest'⟩, hparse, hseg⟩ := map_eq_some_iff.mp h
        obtain ⟨rfl, rfl⟩ := Prod.mk.inj hseg
        obtain ⟨hconv, hopt, hbuf⟩ := AckSegment.serialize_parse hparse
        refine ⟨(Segment.ack s).serialize, ?_, rfl⟩
        rw [hbuf, hhead, Segment.serialize, hconv, hopt, hcmd]
        simp only [append_assoc, cons_append]
      · obtain ⟨⟨s, rest'⟩, hparse, hseg⟩ := map_eq_some_iff.mp h
        obtain ⟨rfl, rfl⟩ := Prod.mk.inj hseg
        obtain ⟨hconv, hcmd, hopt, hbuf⟩ := CmdOnlySegment.serialize_parse hparse
        refine ⟨(Segment.cmdOnly s).serialize, ?_, rfl⟩
        rw [hbuf, hhead, Segment.serialize, hconv, hopt, hcmd]
        simp only [append_assoc, cons_append]
  · nomatch h

/-! ## Packets -/

theorem length_lt_of_readSegment (h : readSegment buf = some (seg, rest)) :
    rest.length < buf.length := by
  obtain ⟨piece, rfl, hfrom⟩ := serialize_of_readSegment h
  rw [length_append]
  exact Nat.lt_add_of_pos_left (length_pos_of_ne_nil hfrom.ne_nil)

/-- `KCPPacketReader.Read`. -/
def read (b : Bytes) : List Segment :=
  match _h : readSegment b with
  | none => []
  | some (seg, x) => seg :: read x
termination_by b.length
decreasing_by exact length_lt_of_readSegment _h

theorem read_of_none {b : Bytes} (h : readSegment b = none) : read b = [] := by
  rw [read]
  split
  · rfl
  · next hsome => rw [h] at hsome; nomatch hsome

theorem read_of_some {b x : Bytes} (h : readSegment b = some (seg, x)) :
    read b = seg :: read x := by
  rw [read]
  split
  · next hnone => rw [h] at hnone; nomatch hnone
  · next hsome =>
    obtain ⟨rfl, rfl⟩ := Prod.mk.inj (some.inj (h.symm.trans hsome))
    rfl

/-- The segments of a packet are read as they were written. -/
theorem read_serialized {segs : List Segment} (h : ∀ seg ∈ segs, seg.Sendable) :
    read (segs.flatMap Segment.serialize) = segs := by
  induction segs with
  | nil => exact read_of_none rfl
  | cons seg segs ih =>
    obtain ⟨hseg, hsegs⟩ := forall_mem_cons.mp h
    rw [flatMap_cons, read_of_some (readSegment_serialize hseg _), ih hsegs]

/-- Of any bytes, the segments that are read come from the pieces of a front part, one after
    the other. -/
theorem exists_pieces (b : Bytes) :
    ∃ pieces rest, b = List.flatten pieces ++ rest ∧ List.Forall₂ Segment.From (read b) pieces := by
  induction hn : b.length using Nat.strongRecOn generalizing b with
  | ind n ih =>
    cases hread : readSegment b with
    | none => exact ⟨[], b, rfl, by rw [read_of_none hread]; exact .nil⟩
    | some r =>
      obtain ⟨seg, x⟩ := r
      obtain ⟨piece, hb, hfrom⟩ := serialize_of_readSegment hread
      obtain ⟨pieces, rest, hx, hpieces⟩ :=
        ih x.length (hn ▸ length_lt_of_readSegment hread) x rfl
      refine ⟨piece :: pieces, rest, ?_, ?_⟩
      · rw [hb, hx, flatten_cons, append_assoc]
      · rw [read_of_some hread]
        exact .cons hfrom hpieces

/-- Packets and segments: what is written is read back, if the commands are commands; and what
    is read from any bytes stands, as it would be written, in pieces at their front. -/
theorem segments_round_trip :
    (∀ segs : List Segment, (∀ seg ∈ segs, seg.Sendable) →
      read (segs.flatMap Segment.serialize) = segs) ∧
    ∀ b : Bytes, ∃ pieces rest, b = List.flatten pieces ++ rest ∧
      List.Forall₂ Segment.From (read b) pieces :=
  ⟨fun _ h => read_serialized h, exists_pieces⟩

/-- Data, two acknowledged numbers and a ping in one packet. -/
theorem segments_round_trip_three :
    let segs : List Segment := [.data ⟨7, 0, 100, 1, 1, [104, 105]⟩, .ack ⟨7, 0, 32, 4, 90, [2, 3]⟩,
      .cmdOnly ⟨7, 3, 0, 1, 4, 200⟩]
    read (segs.flatMap Segment.serialize) = segs :=
  segments_round_trip.1 _ (by decide)

/-- A command with the number of an acknowledgement is taken for one, and is too short. -/
theorem command_zero_not_read :
    let command : CmdOnlySegment := ⟨7, commandACK, 0, 1, 2, 3⟩
    read (Segment.cmdOnly command).serialize = [] :=
  read_of_none (by decide)

end XrayCore.Kcp
