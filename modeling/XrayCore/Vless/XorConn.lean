/-
  XrayCore.Vless.XorConn

  The connection that hides the headers of records, and leaves what follows them as it is.

  Both ends look for headers in what they were given, so that a header or the bytes to skip
  can begin in one call and end in another.  Byte by byte the two ends do the same
  (`Side.walk_eq`), and the reading end undoes the writing end whatever is written and
  however it arrives (`Channel.transparent`).
-/

import XrayCore.Machine.Transcribe
import XrayCore.Vless.Aead

namespace XrayCore.Vless

open Machine List

/-- The length that `DecodeHeader` gives, also where it gives an error. -/
def headerLength (h : Bytes) : ℕ :=
  if h.getD 0 0 ≠ 23 ∨ h.getD 1 0 ≠ 3 ∨ h.getD 2 0 ≠ 3 then 0
  else (h.getD 3 0).toNat <<< 8 ||| (h.getD 4 0).toNat

/-- `XORKeyStream`, from a position of the key stream on. -/
def xorKeyStream (keys : ℕ → UInt8) : ℕ → Bytes → Bytes
  | _, [] => []
  | n, b :: bs => (b ^^^ keys n) :: xorKeyStream keys (n + 1) bs

@[simp] theorem length_xorKeyStream (keys : ℕ → UInt8) (n : ℕ) (p : Bytes) :
    (xorKeyStream keys n p).length = p.length := by
  induction p generalizing n with
  | nil => rfl
  | cons b p ih => rw [xorKeyStream, length_cons, length_cons, ih]

/-- One direction of a `XorConn`: the key stream and how much of it was used, the bytes to skip,
    and a header that is not complete. -/
@[ext] structure Side where
  keys : ℕ → UInt8
  used : ℕ
  skip : ℕ
  header : Bytes
  hheader : header.length < 5

namespace Side

/-- The bytes that a header is made of: those before they are changed, or after. -/
def seen (writing : Bool) (p x : Bytes) : Bytes := if writing then p else x

@[simp] theorem length_seen (writing : Bool) (keys : ℕ → UInt8) (n : ℕ) (p : Bytes) :
    (seen writing p (xorKeyStream keys n p)).length = p.length := by
  cases writing with
  | true => rfl
  | false => exact length_xorKeyStream keys n p

/-- The loop of `Write`, which looks at the bytes it is given, and of `Read`, which looks at those
    it makes of them. -/
def walk (writing : Bool) (s : Side) (p : Bytes) : Side × Bytes :=
  if p.length ≤ s.skip then ({ s with skip := s.skip - p.length }, p)
  else
    let q := p.drop s.skip
    let need := 5 - s.header.length
    if hneed : q.length < need then
      let x := xorKeyStream s.keys s.used q
      (⟨s.keys, s.used + q.length, 0, s.header ++ seen writing q x, by
          rw [List.length_append, length_seen]
          omega⟩, p.take s.skip ++ x)
    else
      let x := xorKeyStream s.keys s.used (q.take need)
      let skip := headerLength (s.header ++ seen writing (q.take need) x)
      let rest := walk writing ⟨s.keys, s.used + need, skip, [], by decide⟩ (q.drop need)
      (rest.1, p.take s.skip ++ (x ++ rest.2))
termination_by p.length
decreasing_by
  have := s.hheader
  rw [List.length_drop, List.length_drop]
  omega

/-! ## Byte by byte -/

/-- The state with a header, which may be complete. -/
def fill (keys : ℕ → UInt8) (used : ℕ) (header : Bytes) : Side :=
  if h : header.length < 5 then ⟨keys, used, 0, header, h⟩
  else ⟨keys, used, headerLength header, [], by decide⟩

/-- What is done with one byte. -/
def step (writing : Bool) (s : Side) (b : UInt8) : Side × UInt8 :=
  if 0 < s.skip then ({ s with skip := s.skip - 1 }, b)
  else
    let x := b ^^^ s.keys s.used
    (fill s.keys (s.used + 1) (s.header ++ seen writing [b] [x]), x)

theorem step_inverse (s : Side) (b : UInt8) :
    step false s (step true s b).2 = ((step true s b).1, b) := by
  unfold step
  by_cases hskip : 0 < s.skip
  · rw [if_pos hskip, if_pos hskip]
  · rw [if_neg hskip, if_neg hskip]
    show (fill _ _ (s.header ++ [b ^^^ s.keys s.used ^^^ s.keys s.used]), _) =
      (fill _ _ (s.header ++ [b]), b)
    rw [UInt8.xor_assoc, UInt8.xor_self, UInt8.xor_zero]

theorem transcribe_skip {writing : Bool} {s : Side} {p : Bytes} (h : p.length ≤ s.skip) :
    transcribe (step writing) s p = ({ s with skip := s.skip - p.length }, p) := by
  induction p generalizing s with
  | nil => rfl
  | cons b p ih =>
    rw [length_cons] at h
    have hstep : step writing s b = ({ s with skip := s.skip - 1 }, b) := if_pos (by omega)
    rw [transcribe, hstep, ih (s := { s with skip := s.skip - 1 }) (show _ ≤ s.skip - 1 by omega)]
    simp only [length_cons, Nat.sub_sub, Nat.add_comm]

theorem fill_self {s : Side} (hskip : s.skip = 0) : fill s.keys s.used s.header = s := by
  rw [fill, dif_pos s.hheader]
  ext1
  · rfl
  · rfl
  · exact hskip.symm
  · rfl

theorem seen_cons (writing : Bool) (b x : UInt8) (p xs : Bytes) :
    seen writing (b :: p) (x :: xs) = seen writing [b] [x] ++ seen writing p xs := by
  cases writing with
  | true => rfl
  | false => rfl

theorem transcribe_fill (writing : Bool) {s : Side} {p : Bytes} (hskip : s.skip = 0)
    (hle : s.header.length + p.length ≤ 5) :
    transcribe (step writing) s p = (fill s.keys (s.used + p.length)
      (s.header ++ seen writing p (xorKeyStream s.keys s.used p)),
      xorKeyStream s.keys s.used p) := by
  induction p generalizing s with
  | nil =>
    have hnil : seen writing [] [] = [] := ite_self _
    show (s, []) = (fill s.keys s.used (s.header ++ seen writing [] []), [])
    rw [hnil, append_nil, fill_self hskip]
  | cons b p ih =>
    have hstep : step writing s b =
        (fill s.keys (s.used + 1) (s.header ++ seen writing [b] [b ^^^ s.keys s.used]),
          b ^^^ s.keys s.used) := if_neg (by omega)
    have hone : (seen writing [b] [b ^^^ s.keys s.used]).length = 1 :=
      length_seen writing s.keys s.used [b]
    rw [transcribe, hstep, xorKeyStream,
      seen_cons writing b (b ^^^ s.keys s.used) p (xorKeyStream s.keys (s.used + 1) p),
      length_cons, ← append_assoc]
    rw [length_cons] at hle
    by_cases hlast : p = []
    · subst hlast
      have hnil : seen writing [] (xorKeyStream s.keys (s.used + 1) []) = [] := ite_self _
      rw [hnil, append_nil]
      rfl
    · -- there is a byte after this one, so the header is not complete
      have hmore : 0 < p.length := length_pos_iff.mpr hlast
      have hshort : (s.header ++ seen writing [b] [b ^^^ s.keys s.used]).length < 5 := by
        rw [length_append, hone]
        omega
      rw [fill, dif_pos hshort]
      dsimp only
      rw [ih rfl (by rw [length_append, hone]; omega), Nat.add_assoc, Nat.add_comm 1]

/-- The loop does what is done byte by byte. -/
theorem walk_eq (writing : Bool) (s : Side) (p : Bytes) :
    s.walk writing p = transcribe (step writing) s p := by
  rw [walk]
  split
  · next hskip => rw [transcribe_skip hskip]
  · next hskip =>
    have htake : (p.take s.skip).length = s.skip := length_take_of_le (by omega)
    have hpass : transcribe (step writing) s (p.take s.skip) =
        (⟨s.keys, s.used, 0, s.header, s.hheader⟩, p.take s.skip) := by
      rw [transcribe_skip (by omega), htake, Nat.sub_self]
    have hsplit : transcribe (step writing) s p =
        transcribe (step writing) s (p.take s.skip ++ p.drop s.skip) := by
      rw [take_append_drop]
    rw [hsplit]
    have hheader := s.hheader
    dsimp only
    split
    · next hneed =>
      rw [transcribe_append_eq hpass (transcribe_fill writing rfl (by dsimp only; omega)), fill,
        dif_pos]
    · next hneed =>
      have hlen : ((p.drop s.skip).take (5 - s.header.length)).length = 5 - s.header.length :=
        length_take_of_le (by omega)
      -- the header is complete, and the rest is a shorter piece
      have hhead := transcribe_fill writing
        (s := ⟨s.keys, s.used, 0, s.header, s.hheader⟩)
        (p := (p.drop s.skip).take (5 - s.header.length)) rfl (by dsimp only; omega)
      rw [fill, dif_neg (by rw [length_append, length_seen]; dsimp only; omega), hlen] at hhead
      have hrest := transcribe_append_eq hhead (rfl : transcribe (step writing) _
        ((p.drop s.skip).drop (5 - s.header.length)) = (Prod.fst _, Prod.snd _))
      rw [take_append_drop] at hrest
      rw [transcribe_append_eq hpass hrest, walk_eq]
termination_by p.length
decreasing_by
  rw [length_drop, length_drop]
  omega

end Side

/-! ## Connections -/

/-- `XorConn`: what it writes and what it reads. -/
structure XorConn where
  output : Side
  input : Side

namespace XorConn

/-- `NewXorConn`, with two key streams. -/
def new (ctr peerCTR : ℕ → UInt8) (outSkip inSkip : ℕ) : XorConn :=
  ⟨⟨ctr, 0, outSkip, [], by decide⟩, ⟨peerCTR, 0, inSkip, [], by decide⟩⟩

/-- `Write`: what goes to the carrier. -/
def write (c : XorConn) (b : Bytes) : XorConn × Bytes :=
  if b.length = 0 then (c, [])
  else
    let r := c.output.walk true b
    ({ c with output := r.1 }, r.2)

/-- `Read` into a slice of some length: what comes from the carrier, and what is returned. -/
def read (c : XorConn) (length : ℕ) (arrived : Bytes) : XorConn × Bytes :=
  if length = 0 then (c, [])
  else
    let r := c.input.walk false arrived
    ({ c with input := r.1 }, r.2)

end XorConn

/-- Two connections and the bytes on the way from one to the other; with all that was written, and
    all that was returned. -/
structure Channel where
  writer : XorConn
  reader : XorConn
  carrier : Bytes
  written : Bytes
  returned : Bytes

namespace Channel

/-- What can happen: one end writes; the other reads into a slice of some length and gets so many
    bytes, if they have come; or the ends are used in the other direction. -/
inductive Action where
  | write (b : Bytes)
  | read (length count : ℕ)
  | writerReads (length : ℕ) (arrived : Bytes)
  | readerWrites (b : Bytes)

/-- The state after an action. -/
def act (s : Channel) : Action → Channel
  | .write b =>
    let r := s.writer.write b
    { s with writer := r.1, carrier := s.carrier ++ r.2, written := s.written ++ b }
  | .read length count =>
    let n := min length count
    let r := s.reader.read length (s.carrier.take n)
    { s with reader := r.1, carrier := s.carrier.drop n, returned := s.returned ++ r.2 }
  | .writerReads length arrived => { s with writer := (s.writer.read length arrived).1 }
  | .readerWrites b => { s with reader := (s.reader.write b).1 }

/-- What is on the way is what the writing end made of the bytes that were not returned yet, from
    the state in which the reading end is. -/
structure Invariant (s : Channel) (rest : Bytes) : Prop where
  hwritten : s.written = s.returned ++ rest
  hcarrier : transcribe (Side.step true) s.reader.input rest = (s.writer.output, s.carrier)

variable {rest : Bytes} {s : Channel}

theorem Invariant.write (hs : s.Invariant rest) (b : Bytes) :
    (s.act (.write b)).Invariant (rest ++ b) := by
  by_cases hb : b = []
  · subst hb
    show Invariant ⟨s.writer, s.reader, s.carrier ++ [], s.written ++ [], s.returned⟩ _
    rw [append_nil, append_nil, append_nil]
    exact hs
  · have hlen : b.length ≠ 0 := fun h => hb (length_eq_zero_iff.mp h)
    constructor
    · show s.written ++ b = s.returned ++ (rest ++ b)
      rw [hs.hwritten, append_assoc]
    · show transcribe _ s.reader.input (rest ++ b) = _
      simp only [act, XorConn.write, if_neg hlen, Side.walk_eq]
      exact transcribe_append_eq hs.hcarrier rfl

theorem Invariant.read (hs : s.Invariant rest) (length count : ℕ) :
    (s.act (.read length count)).Invariant (rest.drop (min length count)) := by
  by_cases hlen : length = 0
  · subst hlen
    simp only [act, XorConn.read, if_true, Nat.zero_min, drop_zero, append_nil]
    exact hs
  · generalize hn : min length count = n
    -- the bytes that come are what the writing end made of the first bytes of the rest
    obtain ⟨htake, hdrop⟩ := transcribe_take_drop (Side.step true) s.reader.input rest n
    rw [hs.hcarrier] at htake hdrop
    have hread := transcribe_inverse Side.step_inverse s.reader.input (rest.take n)
    rw [htake] at hread
    constructor
    · simp only [act, XorConn.read, if_neg hlen, Side.walk_eq, hn, hread]
      rw [append_assoc, take_append_drop, hs.hwritten]
    · simp only [act, XorConn.read, if_neg hlen, Side.walk_eq, hn, hread]
      exact hdrop

theorem Invariant.act (hs : s.Invariant rest) (a : Action) :
    ∃ rest', (s.act a).Invariant rest' := by
  cases a with
  | write b => exact ⟨_, hs.write b⟩
  | read length count => exact ⟨_, hs.read length count⟩
  | writerReads length arrived =>
    refine ⟨rest, hs.hwritten, hs.hcarrier.trans ?_⟩
    simp only [Channel.act, XorConn.read]
    split
    · rfl
    · rfl
  | readerWrites b =>
    refine ⟨rest, hs.hwritten, Eq.trans ?_ hs.hcarrier⟩
    simp only [Channel.act, XorConn.write]
    split
    · rfl
    · rfl

theorem Invariant.foldl (hs : s.Invariant rest) (actions : List Action) :
    ∃ rest', (actions.foldl Channel.act s).Invariant rest' := by
  induction actions generalizing s rest with
  | nil => exact ⟨rest, hs⟩
  | cons a actions ih =>
    obtain ⟨rest', hrest'⟩ := hs.act a
    exact ih hrest'

/-- Between two new connections that share a key stream and the bytes to skip, whatever was written
    and read, in any pieces: what was returned is the beginning of what was written, up to as
    many bytes as are still on the way. -/
theorem transparent (ctr peer ctr' : ℕ → UInt8) (skip inSkip outSkip : ℕ)
    (actions : List Action) :
    let s := actions.foldl Channel.act
      ⟨.new ctr peer skip inSkip, .new ctr' ctr outSkip skip, [], [], []⟩
    ∃ rest, s.written = s.returned ++ rest ∧ rest.length = s.carrier.length := by
  have hstart : Invariant ⟨.new ctr peer skip inSkip, .new ctr' ctr outSkip skip, [], [], []⟩ [] :=
    ⟨rfl, rfl⟩
  obtain ⟨rest, hrest⟩ := hstart.foldl actions
  refine ⟨rest, hrest.hwritten, ?_⟩
  have hlen := length_transcribe (Side.step true) (actions.foldl Channel.act
    ⟨.new ctr peer skip inSkip, .new ctr' ctr outSkip skip, [], [], []⟩).reader.input rest
  rw [hrest.hcarrier] at hlen
  exact hlen.symm

end Channel

end XrayCore.Vless
