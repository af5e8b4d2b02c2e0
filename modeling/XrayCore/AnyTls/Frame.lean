/-
  XrayCore.AnyTls.Frame

  Frames of an AnyTLS session: a command, a stream and up to 65535 bytes.

  The loop of the reader takes seven bytes and then as many as they say, whatever the
  command is; so frames one after the other are read back one by one.
-/

import XrayCore.Wire.Parser

namespace XrayCore.AnyTls

open Wire List

def commandWaste : UInt8 := 0
def frameOverhead : ℕ := 7
def maxFrameSize : ℕ := 0xffff

/-- A frame, whose length fits its header. -/
structure Frame where
  command : UInt8
  streamID : UInt32
  data : Bytes
  length_le : data.length ≤ maxFrameSize

/-- `putFrameHeader`. -/
def frameHeader (command : UInt8) (streamID : UInt32) (length : ℕ) : Bytes :=
  command :: putUint32 streamID ++ putUint16 (UInt16.ofNat length)

/-- A frame as it is written. -/
def Frame.bytes (f : Frame) : Bytes := frameHeader f.command f.streamID f.data.length ++ f.data

/-- Frames one after the other. -/
def framesBytes (fs : List Frame) : Bytes := fs.flatMap Frame.bytes

@[simp] theorem length_frameHeader (command : UInt8) (streamID : UInt32) (length : ℕ) :
    (frameHeader command streamID length).length = frameOverhead := rfl

theorem framesBytes_append (fs gs : List Frame) :
    framesBytes (fs ++ gs) = framesBytes fs ++ framesBytes gs := flatMap_append

/-! ## The loop of the reader -/

/-- The loop of `readLoop`: the frames that are complete, and what is left. -/
def readFrames : Bytes → List Frame × Bytes
  | c :: s0 :: s1 :: s2 :: s3 :: l0 :: l1 :: rest =>
    let length := (uint16 l0 l1).toNat
    if length ≤ rest.length then
      let frame : Frame := ⟨c, uint32 s0 s1 s2 s3, rest.take length, by
        have hlt := (uint16 l0 l1).toNat_lt
        rw [List.length_take, maxFrameSize]
        omega⟩
      let more := readFrames (rest.drop length)
      (frame :: more.1, more.2)
    else ([], c :: s0 :: s1 :: s2 :: s3 :: l0 :: l1 :: rest)
  | rest => ([], rest)
termination_by bytes => bytes.length
decreasing_by
  simp only [List.length_cons, List.length_drop]
  omega

theorem readFrames_frame (f : Frame) (rest : Bytes) :
    readFrames (f.bytes ++ rest) = (f :: (readFrames rest).1, (readFrames rest).2) := by
  obtain ⟨command, streamID, data, hlength⟩ := f
  have hlen : (UInt16.ofNat data.length).toNat = data.length :=
    UInt16.toNat_ofNat_of_lt' (Nat.lt_succ_of_le hlength)
  have hle : data.length ≤ (data ++ rest).length := by
    rw [length_append]
    omega
  have hlen' := congrArg UInt16.toNat (uint16_putUint16 (UInt16.ofNat data.length))
  rw [hlen] at hlen'
  simp only [Frame.bytes, frameHeader, putUint32, putUint16, cons_append, nil_append, hlen]
  rw [readFrames]
  simp only [uint32_putUint32, hlen', if_pos hle, take_left, drop_left]

/-- Frames that were written are read, whatever follows them. -/
theorem readFrames_framesBytes (fs : List Frame) (rest : Bytes) :
    readFrames (framesBytes fs ++ rest) = (fs ++ (readFrames rest).1, (readFrames rest).2) := by
  induction fs with
  | nil => rfl
  | cons f fs ih =>
    rw [framesBytes, flatMap_cons, append_assoc, readFrames_frame]
    rw [framesBytes] at ih
    rw [ih, cons_append]

end XrayCore.AnyTls
