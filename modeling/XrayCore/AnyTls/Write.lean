/-
  XrayCore.AnyTls.Write

  Writing frames to the connection of an AnyTLS session.

  The first packets of a session are cut where the padding scheme says, with no regard to
  frames, and filled up with waste frames.  Waste is only put behind the last byte of a
  packet; so the loop of the reader sees the frames of each write, and then waste.
-/

import XrayCore.AnyTls.Padding

namespace XrayCore.AnyTls

open Machine List Result

/-! ## Records -/

/-- What is used of the buffers of a library that is not part of the repository: `buf.NewSize`, and
    `Write`, `Extend` and `WriteZeroN`, which append where there is room. -/
class SingBuf where
  Record : Type
  capacity : Record → ℕ
  content : Record → Bytes
  newSize : ℕ → Record
  newSize_eq : ∀ n, capacity (newSize n) = n ∧ content (newSize n) = []
  write : Record → Bytes → Result Record
  write_ok : ∀ r bytes, (content r).length + bytes.length ≤ capacity r →
    ∃ r', (write r bytes).run = some (.ok r') ∧ capacity r' = capacity r ∧
      content r' = content r ++ bytes

/-- A buffer as the bytes in it. -/
abbrev SingBuf.plain : SingBuf where
  Record := ℕ × Bytes
  capacity := Prod.fst
  content := Prod.snd
  newSize n := (n, [])
  newSize_eq _ := ⟨rfl, rfl⟩
  write r bytes :=
    if (r.2 ++ bytes).length ≤ r.1 then pure (r.1, r.2 ++ bytes) else checked none
  write_ok r bytes h :=
    ⟨(r.1, r.2 ++ bytes), by rw [if_pos (length_append.trans_le h)]; rfl, rfl, rfl⟩

section

open SingBuf

variable [SingBuf]

/-- A waste frame: the header, and then zeros. -/
def writeWaste (r : Record) (wasteLen : ℕ) : Result Record := do
  let r ← write r (frameHeader commandWaste 0 wasteLen)
  write r (List.replicate wasteLen 0)

/-- The waste behind data. -/
def fillBehind (r : Record) (remaining : ℕ) : Result Record :=
  if frameOverhead < remaining then do
    let wasteLen := min (remaining - frameOverhead) maxFrameSize
    let r ← writeWaste r wasteLen
    fillBehind r (remaining - (frameOverhead + wasteLen))
  else pure r
termination_by remaining
decreasing_by
  simp only [frameOverhead] at *
  omega

/-- The waste of a record without data. -/
def fill (r : Record) (remaining : ℕ) : Result Record :=
  if 0 < remaining then do
    let wasteLen := min remaining maxFrameSize
    let r ← writeWaste r wasteLen
    fill r (remaining - wasteLen)
  else pure r
termination_by remaining
decreasing_by
  simp only [maxFrameSize] at *
  omega

/-! ## Packets -/

/-- What a session keeps for its writes. -/
structure Writer where
  pending : Option Bytes
  sendPadding : Bool
  packetCount : UInt32

/-- The checks that come before the first byte of a packet. -/
def checkSizes : List ℤ → ℤ → Result Unit
  | [], _ => pure ()
  | size :: sizes, budget =>
    if size = paddingCheckMark then checkSizes sizes budget
    else do
      let _ ← paddingRecordSize size
      reject (size > maxPaddingPacketBytes - budget) errPaddingScheme
      checkSizes sizes (budget + size)

/-- The record of a size that all of the data fits in. -/
def writeRecord (size : ℤ) (data : Bytes) : Result Bytes := do
  let capacity ← paddingRecordSize size
  if data.length > 0 then
    let record ← write (newSize capacity) data
    let record ← fillBehind record (size.toNat - (content record).length)
    pure (content record)
  else
    let record ← fill (newSize capacity) size.toNat
    pure (content record)

/-- What is written to the connection for a packet, one list for each call of `Write`. -/
def writeSizes : List ℤ → Bytes → Result (List Bytes)
  | [], data => pure (if data.length = 0 then [] else [data])
  | size :: sizes, data =>
    if size = paddingCheckMark then
      if data.length = 0 then pure [] else writeSizes sizes data
    else if (data.length : ℤ) > size then do
      let written ← writeSizes sizes (data.drop size.toNat)
      pure (data.take size.toNat :: written)
    else do
      let record ← writeRecord size data
      let written ← writeSizes sizes []
      pure (record :: written)

/-- `writePacketLocked`. -/
def Writer.writePacketLocked (s : Writer) (factory : PaddingFactory) (random : ℕ → ℕ)
    (data : Bytes) : Result (List Bytes × Writer) :=
  if s.sendPadding = false then pure ([data], s)
  else
    let s := { s with packetCount := s.packetCount + 1 }
    if s.packetCount.toNat ≥ factory.stop then pure ([data], { s with sendPadding := false })
    else do
      let sizes := factory.generateRecordPayloadSizes s.packetCount.toNat random
      checkSizes sizes 0
      let written ← writeSizes sizes data
      pure (written, s)

/-- `writeLocked`: the pending settings go in front of the first packet. -/
def Writer.writeLocked (s : Writer) (factory : PaddingFactory) (random : ℕ → ℕ)
    (buffer : Bytes) : Result (List Bytes × Writer) :=
  { s with pending := none }.writePacketLocked factory random (s.pending.getD [] ++ buffer)

/-- A call of `writeLocked` with whole frames, under the scheme of that moment and the numbers
    that are drawn for it. -/
structure Write where
  frames : List Frame
  factory : PaddingFactory
  random : ℕ → ℕ

/-- Calls one after the other. -/
def Writer.writeAll (s : Writer) : List Write → Result (List Bytes × Writer)
  | [] => pure ([], s)
  | w :: writes => do
    let first ← s.writeLocked w.factory w.random (framesBytes w.frames)
    let rest ← first.2.writeAll writes
    pure (first.1 ++ rest.1, rest.2)

/-! ## Waste -/

/-- A frame that the reader passes over. -/
def Frame.IsWaste (f : Frame) : Prop := f.command = commandWaste ∧ f.streamID = 0

def wasteFrame (n : ℕ) (h : n ≤ maxFrameSize) : Frame :=
  ⟨commandWaste, 0, List.replicate n 0, by rwa [List.length_replicate]⟩

/-- The computation gives the bytes with waste behind them. -/
def Wastes (x : Result Record) (bytes : Bytes) : Prop :=
  ∃ r fs, x.run = some (.ok r) ∧ (∀ f ∈ fs, Frame.IsWaste f) ∧ content r = bytes ++ framesBytes fs

theorem writeWaste_ok (r : Record) (n : ℕ) (hn : n ≤ maxFrameSize)
    (h : (content r).length + (frameOverhead + n) ≤ capacity r) :
    ∃ r', (writeWaste r n).run = some (.ok r') ∧ capacity r' = capacity r ∧
      content r' = content r ++ (wasteFrame n hn).bytes := by
  obtain ⟨r₁, hr₁, hcapacity₁, hbytes₁⟩ := write_ok r (frameHeader commandWaste 0 n) (by
    rw [length_frameHeader]
    omega)
  obtain ⟨r₂, hr₂, hcapacity₂, hbytes₂⟩ := write_ok r₁ (replicate n 0) (by
    rw [hbytes₁, hcapacity₁, length_append, length_frameHeader, length_replicate]
    omega)
  refine ⟨r₂, ?_, hcapacity₂.trans hcapacity₁, ?_⟩
  · rw [writeWaste, run_bind_of_ok hr₁, hr₂]
  · rw [hbytes₂, hbytes₁, append_assoc, Frame.bytes, wasteFrame, length_replicate]

/-- One more waste frame in front of the others. -/
theorem Wastes.cons {r r' : Record} {n : ℕ} (hn : n ≤ maxFrameSize) {f : Record → Result Record}
    (hr : (writeWaste r n).run = some (.ok r'))
    (hbytes : content r' = content r ++ (wasteFrame n hn).bytes)
    (h : Wastes (f r') (content r')) : Wastes (writeWaste r n >>= f) (content r) := by
  obtain ⟨r₂, fs, hr₂, hfs, hbytes₂⟩ := h
  refine ⟨r₂, wasteFrame n hn :: fs, ?_, ?_, ?_⟩
  · rw [run_bind_of_ok hr, hr₂]
  · exact forall_mem_cons.mpr ⟨⟨rfl, rfl⟩, hfs⟩
  · rw [hbytes₂, hbytes, append_assoc, framesBytes, framesBytes, flatMap_cons]

theorem Wastes.nil (r : Record) : Wastes (pure r) (content r) := by
  refine ⟨r, [], rfl, ?_, (append_nil _).symm⟩
  intro f hf
  cases hf

theorem fillBehind_wastes (r : Record) (remaining : ℕ)
    (h : (content r).length + remaining ≤ capacity r) :
    Wastes (fillBehind r remaining) (content r) := by
  induction hcount : remaining using Nat.strongRecOn generalizing r remaining with
  | ind count ih =>
    subst hcount
    rw [fillBehind]
    split
    case isTrue hlt =>
      have hn : min (remaining - frameOverhead) maxFrameSize ≤ maxFrameSize := Nat.min_le_right _ _
      obtain ⟨r', hr', hcapacity, hbytes⟩ := writeWaste_ok r _ hn (by omega)
      apply Wastes.cons hn hr' hbytes
      refine ih _ (by simp only [frameOverhead] at *; omega) r' _ ?_ rfl
      have hlength := congrArg length hbytes
      simp only [length_append, Frame.bytes, length_frameHeader, wasteFrame,
        length_replicate] at hlength
      omega
    case isFalse => exact Wastes.nil r

/-- What a record without data takes in all. -/
theorem fill_wastes (r : Record) (remaining : ℕ)
    (h : (content r).length + remaining +
      (remaining + (maxFrameSize - 1)) / maxFrameSize * frameOverhead ≤ capacity r) :
    Wastes (fill r remaining) (content r) := by
  induction hcount : remaining using Nat.strongRecOn generalizing r remaining with
  | ind count ih =>
    subst hcount
    rw [fill]
    split
    case isTrue hlt =>
      have hn : min remaining maxFrameSize ≤ maxFrameSize := Nat.min_le_right _ _
      have hroom :
          (content r).length + (frameOverhead + min remaining maxFrameSize) ≤ capacity r := by
        simp only [frameOverhead, maxFrameSize] at *
        omega
      obtain ⟨r', hr', hcapacity, hbytes⟩ := writeWaste_ok r _ hn hroom
      apply Wastes.cons hn hr' hbytes
      refine ih _ (by simp only [maxFrameSize] at *; omega) r' _ ?_ rfl
      have hlength := congrArg length hbytes
      simp only [length_append, Frame.bytes, length_frameHeader, wasteFrame,
        length_replicate] at hlength
      simp only [frameOverhead, maxFrameSize] at *
      omega
    case isFalse => exact Wastes.nil r

/-! ## The frames of a packet come before its waste -/

omit [SingBuf] in
theorem paddingRecordSize_ok {size : ℤ} (h : 1 ≤ size ∧ size ≤ maxPaddingSize) :
    (paddingRecordSize size).run =
      some (.ok (size.toNat + (1 + (size.toNat - 1) / maxFrameSize) * frameOverhead)) := by
  rw [paddingRecordSize, run_bind_of_ok (run_reject (by omega) _)]
  rfl

omit [SingBuf] in
theorem checkSizes_ok {sizes : List ℤ} {budget : ℤ} (h : SizesOk sizes budget) :
    (checkSizes sizes budget).run = some (.ok ()) := by
  induction sizes generalizing budget with
  | nil => rfl
  | cons size sizes ih =>
    have hbudget := h.budget
    have htail : ∀ n ∈ sizes, n = paddingCheckMark ∨ 1 ≤ n ∧ n ≤ maxPaddingSize :=
      fun n hn => h.ok n (mem_cons_of_mem _ hn)
    -- What is left of the budget is enough for the sizes that follow, and they are no less than 0.
    have hrest : 0 ≤ (sizes.map sizeCost).sum := by
      apply sum_nonneg
      intro cost hcost
      obtain ⟨n, hn, rfl⟩ := mem_map.mp hcost
      rw [sizeCost]
      split
      · exact le_refl _
      · rcases htail n hn with hmark | hpos
        · contradiction
        · omega
    rw [map_cons, sum_cons, sizeCost] at hbudget
    rw [checkSizes]
    split
    case isTrue hmark =>
      rw [if_pos hmark] at hbudget
      exact ih ⟨htail, by omega⟩
    case isFalse hmark =>
      rw [if_neg hmark] at hbudget
      have hsize := (h.ok size mem_cons_self).resolve_left hmark
      rw [run_bind_of_ok (paddingRecordSize_ok hsize),
        run_bind_of_ok (run_reject (by omega) _)]
      exact ih ⟨htail, by omega⟩

theorem writeRecord_ok {size : ℤ} {data : Bytes} (hsize : 1 ≤ size ∧ size ≤ maxPaddingSize)
    (hdata : (data.length : ℤ) ≤ size) :
    ∃ fs, (writeRecord size data).run = some (.ok (data ++ framesBytes fs)) ∧
      ∀ f ∈ fs, Frame.IsWaste f := by
  rw [writeRecord, run_bind_of_ok (paddingRecordSize_ok hsize)]
  obtain ⟨hsized, hempty⟩ := newSize_eq
    (size.toNat + (1 + (size.toNat - 1) / maxFrameSize) * frameOverhead)
  split
  case isTrue hlen =>
    obtain ⟨r, hr, hcapacity, hbytes⟩ := write_ok _ data (by
      rw [hempty, hsized, length_nil]
      omega)
    rw [run_bind_of_ok hr]
    have hroom : (content r).length + (size.toNat - (content r).length) ≤ capacity r := by
      rw [hcapacity, hbytes, hempty, hsized, nil_append]
      omega
    obtain ⟨r', fs, hr', hfs, hbytes'⟩ := fillBehind_wastes r _ hroom
    refine ⟨fs, ?_, hfs⟩
    rw [run_bind_of_ok hr', hbytes', hbytes, hempty]
    rfl
  case isFalse hlen =>
    obtain rfl := eq_nil_of_length_eq_zero (Nat.eq_zero_of_not_pos hlen)
    obtain ⟨r', fs, hr', hfs, hbytes'⟩ := fill_wastes _ size.toNat (by
      rw [hempty, hsized, length_nil]
      simp only [maxFrameSize, frameOverhead]
      omega)
    refine ⟨fs, ?_, hfs⟩
    rw [run_bind_of_ok hr', hbytes', hempty]
    rfl

theorem writeSizes_ok {sizes : List ℤ} (data : Bytes)
    (h : ∀ n ∈ sizes, n = paddingCheckMark ∨ 1 ≤ n ∧ n ≤ maxPaddingSize) :
    ∃ written fs, (writeSizes sizes data).run = some (.ok written) ∧
      (∀ f ∈ fs, Frame.IsWaste f) ∧ written.flatten = data ++ framesBytes fs := by
  induction sizes generalizing data with
  | nil =>
    refine ⟨_, [], rfl, fun _ hf => (nomatch hf), ?_⟩
    split
    case isTrue hlen =>
      rw [eq_nil_of_length_eq_zero hlen]
      rfl
    case isFalse => rw [flatten_singleton, framesBytes, flatMap_nil, append_nil]
  | cons size sizes ih =>
    have htail := fun n hn => h n (mem_cons_of_mem size hn)
    rw [writeSizes]
    split
    case isTrue =>
      split
      case isTrue hlen =>
        rw [eq_nil_of_length_eq_zero hlen]
        exact ⟨[], [], rfl, fun _ hf => (nomatch hf), rfl⟩
      case isFalse => exact ih data htail
    case isFalse hmark =>
      have hsize := (h size mem_cons_self).resolve_left hmark
      split
      case isTrue =>
        obtain ⟨written, fs, hwritten, hfs, hflat⟩ := ih (data.drop size.toNat) htail
        refine ⟨data.take size.toNat :: written, fs, ?_, hfs, ?_⟩
        · rw [run_bind_of_ok hwritten]
          rfl
        · rw [flatten_cons, hflat, ← append_assoc, take_append_drop]
      case isFalse hlen =>
        obtain ⟨fs, hrecord, hfs⟩ := writeRecord_ok hsize (Int.not_lt.mp hlen)
        obtain ⟨written, gs, hwritten, hgs, hflat⟩ := ih [] htail
        refine ⟨(data ++ framesBytes fs) :: written, fs ++ gs, ?_, ?_, ?_⟩
        · rw [run_bind_of_ok hrecord, run_bind_of_ok hwritten]
          rfl
        · exact forall_mem_append.mpr ⟨hfs, hgs⟩
        · rw [flatten_cons, hflat, nil_append, framesBytes_append, append_assoc]

/-- A packet goes out whole, and only waste behind it. -/
theorem Writer.writePacketLocked_ok (s : Writer) {factory : PaddingFactory} (hsound : factory.Sound)
    (random : ℕ → ℕ) (data : Bytes) :
    ∃ written fs s', (s.writePacketLocked factory random data).run = some (.ok (written, s')) ∧
      s'.pending = s.pending ∧ (∀ f ∈ fs, Frame.IsWaste f) ∧
      written.flatten = data ++ framesBytes fs := by
  have hwhole : [data].flatten = data ++ framesBytes [] := by
    rw [flatten_singleton, framesBytes, flatMap_nil, append_nil]
  rw [Writer.writePacketLocked]
  split
  · exact ⟨[data], [], s, rfl, rfl, fun _ hf => absurd hf not_mem_nil, hwhole⟩
  simp only
  split
  · exact ⟨[data], [], _, rfl, rfl, fun _ hf => absurd hf not_mem_nil, hwhole⟩
  have hsizes := hsound.sizes (s.packetCount + 1).toNat random
  obtain ⟨written, fs, hwritten, hfs, hflat⟩ := writeSizes_ok data hsizes.ok
  refine ⟨written, fs, { s with packetCount := s.packetCount + 1 }, ?_, rfl, hfs, hflat⟩
  rw [run_bind_of_ok (checkSizes_ok hsizes), run_bind_of_ok hwritten]
  rfl

/-! ## Writes one after the other -/

/-- The frames of each write, with waste behind it. -/
inductive Padded : List (List Frame) → List Frame → Prop
  | nil : Padded [] []
  | cons {frames fs got : List Frame} {writes : List (List Frame)} (hfs : ∀ f ∈ fs, Frame.IsWaste f)
      (hgot : Padded writes got) : Padded (frames :: writes) (frames ++ fs ++ got)

/-- The frames that each write puts out: the first one takes along those that are pending. -/
def framesOf (pending : List Frame) : List Write → List (List Frame)
  | [] => []
  | w :: writes => (pending ++ w.frames) :: framesOf [] writes

theorem Writer.writeAll_ok (s : Writer) (pending : List Frame)
    (hpending : s.pending.getD [] = framesBytes pending) (writes : List Write)
    (hsound : ∀ w ∈ writes, w.factory.Sound) :
    ∃ written s' got, (s.writeAll writes).run = some (.ok (written, s')) ∧
      Padded (framesOf pending writes) got ∧ written.flatten = framesBytes got := by
  induction writes generalizing s pending with
  | nil => exact ⟨[], s, [], rfl, .nil, rfl⟩
  | cons w writes ih =>
    obtain ⟨written, fs, s₁, hs₁, hpending₁, hfs, hflat⟩ :=
      { s with pending := none }.writePacketLocked_ok (hsound w mem_cons_self) w.random
        (s.pending.getD [] ++ framesBytes w.frames)
    have hnone : s₁.pending.getD [] = framesBytes [] := by
      rw [hpending₁]
      rfl
    obtain ⟨rest, s₂, got, hs₂, hgot, hrest⟩ :=
      ih s₁ [] hnone fun w' hw' => hsound w' (mem_cons_of_mem _ hw')
    refine ⟨written ++ rest, s₂, pending ++ w.frames ++ fs ++ got, ?_, .cons hfs hgot, ?_⟩
    · rw [Writer.writeAll, Writer.writeLocked, run_bind_of_ok hs₁, run_bind_of_ok hs₂]
      rfl
    · rw [flatten_append, hflat, hrest, hpending]
      simp only [framesBytes_append, append_assoc]

/-- Padding is transparent: whatever schemes are accepted along the way and whatever is drawn,
    every write goes through, and the loop of the reader sees the frames of each write in order,
    with nothing but waste between one write and the next. -/
theorem padding_transparent (s : Writer) (pending : List Frame)
    (hpending : s.pending.getD [] = framesBytes pending) (writes : List Write)
    (haccepted : ∀ w ∈ writes, ∃ rawScheme, newPaddingFactory rawScheme = .ok w.factory) :
    ∃ written s' got, (s.writeAll writes).run = some (.ok (written, s')) ∧
      Padded (framesOf pending writes) got ∧ readFrames written.flatten = (got, []) := by
  have hsound : ∀ w ∈ writes, w.factory.Sound := by
    intro w hw
    obtain ⟨rawScheme, hscheme⟩ := haccepted w hw
    exact newPaddingFactory_sound hscheme
  obtain ⟨written, s', got, hwritten, hgot, hflat⟩ := s.writeAll_ok pending hpending writes hsound
  refine ⟨written, s', got, hwritten, hgot, ?_⟩
  have hread := readFrames_framesBytes got []
  rw [append_nil, ← hflat] at hread
  rw [hread, readFrames, append_nil]
  simp

end

/-- Another scheme, whose first record is smaller than a frame. -/
def shortScheme : Bytes := "stop=9\n2=3-3,c,700-900".toUTF8.toList

attribute [local instance] SingBuf.plain

/-- A session with pending settings, whose scheme is replaced after the first write. -/
theorem padding_transparent_replaced :
    ∃ f g, newPaddingFactory defaultPaddingScheme = .ok f ∧ newPaddingFactory shortScheme = .ok g ∧
      ∃ written s' got,
        (Writer.writeAll ⟨some (framesBytes [⟨4, 0, [118], by decide⟩]), true, 0⟩
            [⟨[⟨1, 1, [], by decide⟩], f, fun _ => 7⟩,
              ⟨[⟨2, 1, [5, 6], by decide⟩], g, fun _ => 9⟩]).run = some (.ok (written, s')) ∧
          Padded [[⟨4, 0, [118], by decide⟩, ⟨1, 1, [], by decide⟩],
            [⟨2, 1, [5, 6], by decide⟩]] got ∧
          readFrames written.flatten = (got, []) := by
  have hok : ∀ raw, (newPaddingFactory raw).toOption.isSome →
      ∃ f, newPaddingFactory raw = .ok f := by
    intro raw h
    cases hf : newPaddingFactory raw with
    | error err =>
      rw [hf] at h
      cases h
    | ok f => exact ⟨f, rfl⟩
  obtain ⟨f, hf⟩ := hok defaultPaddingScheme (by decide +kernel)
  obtain ⟨g, hg⟩ := hok shortScheme (by decide +kernel)
  refine ⟨f, g, hf, hg, padding_transparent _ [⟨4, 0, [118], by decide⟩] rfl _ ?_⟩
  exact forall_mem_cons.mpr ⟨⟨_, hf⟩, forall_mem_singleton.mpr ⟨_, hg⟩⟩

end XrayCore.AnyTls
