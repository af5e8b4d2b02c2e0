/-
  XrayCore.Buf.BufferedReader

  A reader that keeps what it has read but not given out, over the reads of a transport.

  What `ReadFull` gives does not depend on how the transport cuts its bytes
  (`readFull_available`); how much of it is in the buffer does.  The last read of the
  transport may give bytes and the end at once: these bytes are lost.
-/

import XrayCore.Bytes.Slice

namespace XrayCore.Buf

open List

/-- The errors of readers: `io.EOF`, which is told apart, and others by their text. -/
inductive ReadError where
  | eof
  | other (text : String)
  deriving DecidableEq, Repr

def errUnexpectedEOF : ReadError := .other "unexpected EOF"

/-- `BufferedReader`: what it has, what the reads of the transport will give without an error,
    and what the one after them gives together with `io.EOF`. -/
structure BufferedReader where
  buffer : Bytes
  reads : List Bytes
  last : Bytes

namespace BufferedReader

/-- `BufferedBytes`. -/
def bufferedBytes (r : BufferedReader) : ℕ := r.buffer.length

/-- All that is still to come without an error. -/
def available (r : BufferedReader) : Bytes := r.buffer ++ r.reads.flatten

/-- The loop of `io.ReadFull` when `done` was read and `n` more are asked for: what is buffered,
    then one read of the transport after the other. -/
def readMore (last done : Bytes) (n : ℕ) (buffer : Bytes) :
    List Bytes → Except ReadError Bytes × BufferedReader
  | [] =>
    if n ≤ buffer.length then (.ok (done ++ buffer.take n), ⟨buffer.drop n, [], last⟩)
    -- `Read` returns the error and throws the bytes away
    else (.error (if done ++ buffer = [] then .eof else errUnexpectedEOF), ⟨[], [], []⟩)
  | next :: reads =>
    if n ≤ buffer.length then (.ok (done ++ buffer.take n), ⟨buffer.drop n, next :: reads, last⟩)
    else readMore last (done ++ buffer) (n - buffer.length) next reads

/-- `io.ReadFull` of `n` bytes. -/
def readFull (r : BufferedReader) (n : ℕ) : Except ReadError Bytes × BufferedReader :=
  readMore r.last [] n r.buffer r.reads

theorem readMore_available (last done : Bytes) (n : ℕ) (buffer : Bytes)
    (reads : List Bytes) (h : n ≤ (buffer ++ reads.flatten).length) :
    ∃ r, readMore last done n buffer reads = (.ok (done ++ (buffer ++ reads.flatten).take n), r) ∧
      r.available = (buffer ++ reads.flatten).drop n := by
  induction reads generalizing done n buffer with
  | nil =>
    rw [flatten_nil, append_nil] at h ⊢
    exact ⟨_, by rw [readMore, if_pos h], by rw [available, flatten_nil, append_nil]⟩
  | cons next reads ih =>
    rw [readMore]
    by_cases hn : n ≤ buffer.length
    · refine ⟨_, by rw [if_pos hn, take_append_of_le_length hn], ?_⟩
      rw [drop_append_of_le_length hn]
      rfl
    · have hlen : n - buffer.length ≤ (next ++ reads.flatten).length := by
        rw [length_append, flatten_cons] at h
        omega
      obtain ⟨r, hr, havailable⟩ := ih (done ++ buffer) (n - buffer.length) next hlen
      have hlt : buffer.length ≤ n := Nat.le_of_not_le hn
      refine ⟨r, ?_, ?_⟩
      · have htake : (buffer ++ (next ++ reads.flatten)).take n =
            buffer ++ (next ++ reads.flatten).take (n - buffer.length) := by
          rw [take_append, take_of_length_le hlt]
        rw [if_neg hn, hr, flatten_cons, htake, append_assoc]
      · have hdrop : (buffer ++ (next ++ reads.flatten)).drop n =
            (next ++ reads.flatten).drop (n - buffer.length) := by
          rw [drop_append, drop_of_length_le hlt, nil_append]
        rw [havailable, flatten_cons, hdrop]

/-- Bytes that are to come are read, however they are cut. -/
theorem readFull_available {r : BufferedReader} {n : ℕ} (h : n ≤ r.available.length) :
    ∃ r', r.readFull n = (.ok (r.available.take n), r') ∧ r'.available = r.available.drop n :=
  readMore_available r.last [] n r.buffer r.reads h

theorem readMore_nil (last : Bytes) {n : ℕ} (hn : 0 < n) (reads : List Bytes)
    (h : reads.flatten = []) : readMore last [] n [] reads = (.error .eof, ⟨[], [], []⟩) := by
  have hshort : ¬ n ≤ ([] : Bytes).length := Nat.not_le.mpr hn
  induction reads with
  | nil =>
    rw [readMore, if_neg hshort]
    rfl
  | cons next reads ih =>
    rw [flatten_cons, append_eq_nil_iff] at h
    rw [readMore, if_neg hshort, h.1]
    exact ih h.2

/-- The end of the transport. -/
theorem readFull_nil {r : BufferedReader} {n : ℕ} (hn : 0 < n) (h : r.available = []) :
    r.readFull n = (.error .eof, ⟨[], [], []⟩) := by
  rw [available, append_eq_nil_iff] at h
  rw [readFull, h.1]
  exact readMore_nil r.last hn r.reads h.2

end BufferedReader

end XrayCore.Buf
