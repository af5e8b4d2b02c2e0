/-
  XrayCore.Kcp.Receiving

  What the receiving side of mKCP hands out.

  Segments come in any order and more than once, and their numbers wrap around at 32 bits.  The
  window takes those that are less than its size ahead of the next one; a read hands out what
  has come without a gap, and keeps what the caller has no room for.  `Known` says which segment
  of the sender an entry is, so what is read is the beginning of the stream, in order and once
  (`receives_in_order`).
-/

import XrayCore.Kcp.Segment
import XrayCore.Table.Sift
import XrayCore.Transport.Pipe

namespace XrayCore.Kcp

open Machine List
open Transport (MultiBuffer)

/-- `ReceivingWindow`. -/
abbrev ReceivingWindow := AList fun _ : UInt32 => DataSegment

/-- `ReceivingWorker`; `leftOver` is `none` where it is nil. -/
structure ReceivingWorker where
  leftOver : Option MultiBuffer
  window : ReceivingWindow
  nextNumber : UInt32
  windowSize : UInt32

/-- `buf.SplitBytes`: what is left, and what was copied to a slice of some length. -/
def splitBytes : MultiBuffer → ℕ → MultiBuffer × Bytes
  | [], _ => ([], [])
  | b :: mb, n =>
    if n < b.length then (b.drop n :: mb, b.take n)
    else ((splitBytes mb (n - b.length)).1, b ++ (splitBytes mb (n - b.length)).2)

/-- The loop of `readMultiBufferLocked`. -/
def readLoop (window : ReceivingWindow) (next : UInt32) : MultiBuffer × ReceivingWindow × UInt32 :=
  match h : window.lookup next with
  | none => ([], window, next)
  | some seg => (readLoop (window.erase next) (next + 1)).map (seg.payload :: ·) id
termination_by window.keys.length
decreasing_by
  have hmem := AList.mem_keys.mpr (AList.lookup_isSome.mp (Option.isSome_of_eq_some h))
  rw [AList.keys_erase, length_erase_of_mem hmem]
  exact Nat.sub_one_lt_of_lt (length_pos_of_mem hmem)

namespace ReceivingWorker

variable (w : ReceivingWorker)

/-- `ProcessSegment`. -/
def processSegment (seg : DataSegment) : ReceivingWorker :=
  if seg.number - w.nextNumber ≥ w.windowSize then w
  -- a copy is released
  else if seg.number ∈ w.window then w
  else { w with window := w.window.insert seg.number seg }

/-- `readMultiBufferLocked`. -/
def readMultiBufferLocked : MultiBuffer × ReceivingWorker :=
  match w.leftOver with
  | some mb => (mb, { w with leftOver := none })
  | none =>
    let r := readLoop w.window w.nextNumber
    (r.1, { w with window := r.2.1, nextNumber := r.2.2 })

/-- `Read`, into a slice of some length. -/
def read (n : ℕ) : Bytes × ReceivingWorker :=
  let r := w.readMultiBufferLocked
  if MultiBuffer.isEmpty r.1 then ([], r.2)
  else
    let split := splitBytes r.1 n
    (split.2, if MultiBuffer.isEmpty split.1 then r.2 else { r.2 with leftOver := some split.1 })

/-- `IsDataAvailable`. -/
def isDataAvailable : Bool := w.nextNumber ∈ w.window

end ReceivingWorker

theorem flatten_splitBytes (mb : MultiBuffer) (n : ℕ) :
    (splitBytes mb n).2 ++ (splitBytes mb n).1.flatten = mb.flatten := by
  induction mb generalizing n with
  | nil => rfl
  | cons b mb ih =>
    rw [splitBytes]
    split
    · rw [flatten_cons, ← append_assoc, take_append_drop, flatten_cons]
    · rw [append_assoc, ih, flatten_cons]

theorem flatten_of_isEmpty {mb : MultiBuffer} (h : MultiBuffer.isEmpty mb = true) :
    mb.flatten = [] :=
  flatten_eq_nil_iff.mpr fun b hb => isEmpty_iff.mp (all_eq_true.mp h b hb)

/-! ## What is in the window -/

section Window

variable {stream : ℕ → Bytes} {window : ReceivingWindow} {t : ℕ}

/-- When `t` segments have left the window, its entries are the sender's segments as far ahead of
    the next one as their numbers are. -/
def Known (stream : ℕ → Bytes) (t : ℕ) (window : ReceivingWindow) : Prop :=
  ∀ n seg, window.lookup n = some seg → seg.payload = stream (t + (n - .ofNat t).toNat)

theorem Known.erase (h : Known stream t window) :
    Known stream (t + 1) (window.erase (.ofNat t)) := by
  intro n seg hseg
  obtain ⟨hn, hseg⟩ := Table.lookup_erase_eq_some.mp hseg
  have hne : n.toNat ≠ t % 2 ^ 32 := fun heq =>
    hn (UInt32.toNat.inj (heq.trans (UInt32.toNat_ofNat' ..).symm))
  have hlt := n.toNat_lt
  rw [h n seg hseg, UInt32.toNat_sub, UInt32.toNat_sub, UInt32.toNat_ofNat', UInt32.toNat_ofNat']
  congr 1
  omega

/-- What the loop gives and leaves. -/
structure Reads (stream : ℕ → Bytes) (t : ℕ) (r : MultiBuffer × ReceivingWindow × UInt32) :
    Prop where
  payloads : r.1 = (range' t r.1.length).map stream
  next : r.2.2 = .ofNat (t + r.1.length)
  known : Known stream (t + r.1.length) r.2.1

theorem reads_readLoop (h : Known stream t window) {next : UInt32} (hnext : next = .ofNat t) :
    Reads stream t (readLoop window next) := by
  fun_induction readLoop generalizing t with
  | case1 => exact ⟨rfl, hnext, h⟩
  | case2 window next seg hseg ih =>
    subst hnext
    have hpayload := h _ seg hseg
    rw [UInt32.sub_self] at hpayload
    have hr := ih h.erase (UInt32.ofNat_add ..).symm
    generalize readLoop (window.erase (.ofNat t)) (.ofNat t + 1) = r at hr
    obtain ⟨mb, rest⟩ := r
    have hcount : t + 1 + mb.length = t + (seg.payload :: mb).length := by
      rw [length_cons]
      omega
    refine ⟨?_, hcount ▸ hr.next, hcount ▸ hr.known⟩
    show seg.payload :: mb = (range' t (mb.length + 1)).map stream
    rw [range'_succ, map_cons, ← hr.payloads, hpayload]
    rfl

/-- The loop ends where the next segment is missing. -/
theorem lookup_readLoop (window : ReceivingWindow) (next : UInt32) :
    (readLoop window next).2.1.lookup (readLoop window next).2.2 = none := by
  fun_induction readLoop with
  | case1 _ _ hnone => exact hnone
  | case2 _ _ _ _ ih => exact ih

end Window

/-! ## Runs -/

/-- A worker, how many segments have left its window, and what was read. -/
structure Receiver where
  worker : ReceivingWorker
  taken : ℕ
  output : Bytes

namespace Receiver

/-- `NewReceivingWorker`. -/
def new (windowSize : UInt32) : Receiver := ⟨⟨none, ∅, 0, windowSize⟩, 0, []⟩

/-- The critical sections that change what is handed out. -/
inductive Action where
  | processSegment (seg : DataSegment)
  | readMultiBuffer
  | read (n : ℕ)

/-- A read gave some bytes. -/
def gave (s : Receiver) (r : Bytes × ReceivingWorker) : Receiver where
  worker := r.2
  -- what was left over has been counted
  taken := s.taken + if s.worker.leftOver.isNone then s.worker.readMultiBufferLocked.1.length else 0
  output := s.output ++ r.1

def step (s : Receiver) : Action → Option Receiver
  | .processSegment seg => some { s with worker := s.worker.processSegment seg }
  | .readMultiBuffer => some (s.gave (s.worker.readMultiBufferLocked.map flatten id))
  | .read n => some (s.gave (s.worker.read n))

/-- A segment that comes is one of the sender's, so near to the next one that 32 bits tell whether
    it is ahead. -/
def Sent (stream : ℕ → Bytes) (s : Receiver) : Action → Prop
  | .processSegment seg => ∃ k, seg.number = .ofNat k ∧ seg.payload = stream k ∧
      s.taken + s.worker.windowSize.toNat ≤ k + 2 ^ 32 ∧ k < s.taken + 2 ^ 32
  | _ => True

structure Inv (stream : ℕ → Bytes) (s : Receiver) : Prop where
  next : s.worker.nextNumber = .ofNat s.taken
  known : Known stream s.taken s.worker.window
  output : s.output ++ (s.worker.leftOver.getD []).flatten = (range s.taken).flatMap stream

namespace Inv

variable {stream : ℕ → Bytes} {s s' : Receiver}

theorem processSegment (h : Inv stream s) {seg : DataSegment}
    (hsent : Sent stream s (.processSegment seg)) :
    Inv stream { s with worker := s.worker.processSegment seg } := by
  obtain ⟨k, hnumber, hpayload, hold, hahead⟩ := hsent
  unfold ReceivingWorker.processSegment
  split_ifs with hinside hcopy
  · exact h
  · exact h
  · -- what is inside the window is not behind it, so it is as far ahead as its number is
    have hindex : s.taken + (seg.number - .ofNat s.taken).toNat = k := by
      rw [h.next, ge_iff_le, UInt32.le_iff_toNat_le] at hinside
      rw [hnumber, UInt32.toNat_sub, UInt32.toNat_ofNat', UInt32.toNat_ofNat'] at hinside ⊢
      omega
    refine ⟨h.next, fun n seg' hseg' => ?_, h.output⟩
    rcases Table.lookup_insert_eq_some.mp hseg' with ⟨rfl, rfl⟩ | ⟨-, hseg'⟩
    · rw [hindex, hpayload]
    · exact h.known n seg' hseg'

/-- A read gives what came without a gap, and may keep some of it. -/
theorem gave (h : Inv stream s) {r : Bytes × ReceivingWorker} {leftOver : Option MultiBuffer}
    (hworker : r.2 = { s.worker.readMultiBufferLocked.2 with leftOver })
    (hbytes : r.1 ++ (leftOver.getD []).flatten = s.worker.readMultiBufferLocked.1.flatten) :
    Inv stream (s.gave r) := by
  obtain ⟨out, w⟩ := r
  obtain rfl := hworker
  have houtput := h.output
  cases hleft : s.worker.leftOver with
  | some mb =>
    simp only [Receiver.gave, ReceivingWorker.readMultiBufferLocked, hleft] at hbytes ⊢
    rw [hleft] at houtput
    refine ⟨h.next, h.known, ?_⟩
    rw [append_assoc, hbytes]
    exact houtput
  | none =>
    have hr := reads_readLoop h.known h.next
    simp only [Receiver.gave, ReceivingWorker.readMultiBufferLocked, hleft] at hbytes ⊢
    rw [hleft, Option.getD_none, flatten_nil, append_nil] at houtput
    refine ⟨hr.next, hr.known, ?_⟩
    show s.output ++ out ++ _ = (range (s.taken + _)).flatMap stream
    rw [append_assoc, hbytes, houtput, range_eq_range', range_eq_range', ← range'_append_1,
      flatMap_append, Nat.zero_add]
    conv_lhs => rw [hr.payloads]
    rfl

theorem step (h : Inv stream s) {a : Action} (hsent : Sent stream s a)
    (hstep : s.step a = some s') :
    Inv stream s' := by
  have hnone : s.worker.readMultiBufferLocked.2 =
      { s.worker.readMultiBufferLocked.2 with leftOver := none } := by
    unfold ReceivingWorker.readMultiBufferLocked
    split
    · rfl
    · next hleft => exact congrArg (ReceivingWorker.mk · _ _ _) hleft
  cases a with
  | processSegment seg => exact Option.some.inj hstep ▸ h.processSegment hsent
  | readMultiBuffer => exact Option.some.inj hstep ▸ h.gave hnone (append_nil _)
  | read n =>
    obtain rfl := Option.some.inj hstep
    have hsplit := flatten_splitBytes s.worker.readMultiBufferLocked.1 n
    unfold ReceivingWorker.read
    dsimp only
    split
    · next hempty => exact h.gave hnone (flatten_of_isEmpty hempty).symm
    · split
      · next hempty =>
        rw [flatten_of_isEmpty hempty] at hsplit
        exact h.gave hnone hsplit
      · exact h.gave rfl hsplit

end Inv

/-- What was read and what is left over of it are the sender's first segments, and a read that has
    nothing left over stops only at one that has not come. -/
theorem receives_in_order {stream : ℕ → Bytes} {windowSize : UInt32} {actions : List Action}
    {s : Receiver} (hsent : Along step (Sent stream) actions (new windowSize))
    (hrun : run step actions (new windowSize) = some s) :
    s.output ++ (s.worker.leftOver.getD []).flatten = (range s.taken).flatMap stream ∧
      (s.worker.leftOver = none → s.worker.readMultiBufferLocked.2.isDataAvailable = false) := by
  have hnew : Inv stream (new windowSize) := ⟨rfl, nofun, rfl⟩
  refine ⟨(hsent.run_closed (fun _ _ _ h => h.step) hnew hrun).output, fun hleft => ?_⟩
  unfold ReceivingWorker.readMultiBufferLocked
  rw [hleft]
  exact decide_eq_false (AList.lookup_eq_none.mp (lookup_readLoop ..))

/-- The second segment comes before the first, and the read has room for one byte. -/
theorem receives_in_order_swapped :
    ∃ s, run step [.processSegment ⟨0, 0, 0, 1, 0, [3]⟩, .processSegment ⟨0, 0, 0, 0, 0, [1, 2]⟩,
        .read 1] (new 8) = some s ∧ s.output = [1] ∧
      s.output ++ (s.worker.leftOver.getD []).flatten = [1, 2, 3] := by
  have hsent : Along step (Sent fun k => [[1, 2], [3]].getD k [])
      [.processSegment ⟨0, 0, 0, 1, 0, [3]⟩, .processSegment ⟨0, 0, 0, 0, 0, [1, 2]⟩, .read 1]
      (new 8) :=
    ⟨⟨1, rfl, rfl, by decide, by decide⟩, fun _ h => Option.some.inj h ▸
      ⟨⟨0, rfl, rfl, by decide, by decide⟩, fun _ _ => ⟨trivial, fun _ _ => trivial⟩⟩⟩
  refine ⟨_, rfl, by decide +kernel, (receives_in_order hsent rfl).1.trans ?_⟩
  decide +kernel

end Receiver

end XrayCore.Kcp
