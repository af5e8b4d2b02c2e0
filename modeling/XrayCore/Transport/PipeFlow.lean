/-
  XrayCore.Transport.PipeFlow

  What the pipe hands over, along every interleaving of its parties.

    * `Link.Flow`: what the reader was handed and what is buffered are what was accepted,
      until an interrupt throws the rest away, after which nothing is handed over any
      more; EOF comes with a close and with nothing left.
    * `Link.Awake`: a reader that waits in front of data has a signal coming.
    * `Link.Bounded`: the buffered size, as long as the sizes do not leave `int32`.

  All three come from one list of what a step can do, `Link.Moves`.
-/

import XrayCore.Transport.Pipe

namespace XrayCore.Transport

open Relation List Option
open Machine

variable {ε : Type}

/-! ## Buffers -/

namespace MultiBuffer

/-- The bytes of the buffers, one after the other. -/
def bytes (mb : MultiBuffer) : Bytes := mb.flatten

theorem foldl_len (mb : MultiBuffer) (n : ℕ) :
    mb.foldl (fun size b => size + Int32.ofNat b.length) (Int32.ofNat n) =
      Int32.ofNat (n + (bytes mb).length) := by
  induction mb generalizing n with
  | nil => rfl
  | cons b mb ih =>
    rw [foldl_cons, ← Int32.ofNat_add, ih, bytes, bytes, flatten_cons,
      length_append, Nat.add_assoc]

/-- `Len` is the number of bytes modulo the range of `int32`. -/
theorem len_eq (mb : MultiBuffer) : len mb = Int32.ofNat (bytes mb).length := by
  have h := foldl_len mb 0
  rw [Nat.zero_add] at h
  exact h

theorem isEmpty_append (a b : MultiBuffer) : isEmpty (a ++ b) = (isEmpty a && isEmpty b) :=
  all_append

end MultiBuffer

/-- While the bytes fit into `int32`, a pipe that is not full holds at most its limit. -/
theorem PipeOption.length_le_of_not_full {o : PipeOption} {mb : MultiBuffer}
    (hlimit : 0 ≤ o.limit) (hfits : (MultiBuffer.bytes mb).length < 2 ^ 31)
    (hfull : o.isFull (MultiBuffer.len mb) = false) :
    ((MultiBuffer.bytes mb).length : ℤ) ≤ o.limit.toInt := by
  rw [PipeOption.isFull, decide_eq_true hlimit, Bool.true_and, decide_eq_false_iff_not,
    Int32.lt_iff_toInt_lt, MultiBuffer.len_eq, Int32.toInt_ofNat_of_lt hfits] at hfull
  omega

/-- Writing goes on only in an open pipe that is not full. -/
theorem Pipe.open_of_getState {p : Pipe ε} (h : p.getState false = none) :
    p.state = .opened ∧ p.option.isFull (MultiBuffer.len p.data) = false := by
  rw [Pipe.getState] at h
  cases hstate : p.state with
  | opened =>
    refine ⟨rfl, ?_⟩
    cases hfull : p.option.isFull (MultiBuffer.len p.data) with
    | false => rfl
    | true => simp [hstate, hfull] at h
  | closed => simp [hstate] at h
  | errord => simp [hstate] at h

/-- EOF is the answer of a closed pipe with nothing left. -/
theorem Pipe.ended_of_getState {p : Pipe ε} (h : p.getState true = some .eof) :
    p.state = .closed ∧ MultiBuffer.isEmpty p.data = true := by
  rw [Pipe.getState] at h
  cases hstate : p.state with
  | opened => simp [hstate] at h
  | closed =>
    refine ⟨rfl, ?_⟩
    cases hempty : MultiBuffer.isEmpty p.data with
    | true => rfl
    | false => simp [hstate, hempty] at h
  | errord => simp [hstate] at h

/-! ## What a step can do -/

/-- What a writer still has to write. -/
def Writer.buffer : Writer ε → Option MultiBuffer
  | .writing mb => some mb
  | .full mb => some mb
  | _ => none

/-- What the reader has taken and will return. -/
def Reader.held : Reader ε → List (MultiBuffer × Option (Err ε))
  | .signalling data err => [(data, err)]
  | _ => []

/-- Is the reader at its select? -/
def Reader.Waits (r : Reader ε) : Prop :=
  ∃ timed, r = .waiting timed

namespace Link

/-- What the calls of the reader have returned, with what the one in progress will. -/
def outcomes (s : Link ε) : List (MultiBuffer × Option (Err ε)) :=
  s.returned ++ s.reader.held

/-- What a step can do: the guards that matter later, and what changes. -/
inductive Moves (s : Link ε) : Action ε → Link ε → Prop where
  | call (mb : MultiBuffer) (w : Writer ε)
      (hbuffer : ∀ mb', w.buffer = some mb' → mb' = mb ∧ MultiBuffer.isEmpty mb = false) :
      Moves s (.call mb) { s with writers := s.writers ++ [w] }
  | accept (i : ℕ) (mb : MultiBuffer) (hi : s.writers[i]? = some (.writing mb))
      (hopen : s.pipe.state = .opened)
      (hroom : s.pipe.option.isFull (MultiBuffer.len s.pipe.data) = false) :
      Moves s (.append i)
        { s with
          pipe := { s.pipe with data := s.pipe.data ++ mb }
          accepted := s.accepted ++ [mb]
          writers := s.writers.set i .appended }
  | pass (a : Action ε) (i : ℕ) (w w' : Writer ε) (signal : Bool)
      (hi : s.writers[i]? = some w) (hw : w ≠ .appended)
      (hbuffer : ∀ mb, w'.buffer = some mb → w.buffer = some mb) :
      Moves s a
        { s with
          pipe := { s.pipe with writeSignal := signal }
          writers := s.writers.set i w' }
  | signalRead (i : ℕ) (err : Option (Err ε)) :
      Moves s (.signalRead i)
        { s with
          pipe := { s.pipe with readSignal := true }
          writers := s.writers.set i (.returned err) }
  | await (timed : Bool) (hreader : s.reader = .reading timed) (hdata : s.pipe.data = []) :
      Moves s .take { s with reader := .waiting timed }
  | taken (timed : Bool) (hreader : s.reader = .reading timed)
      (hstate : s.pipe.state ≠ .errord) :
      Moves s .take
        { s with pipe := { s.pipe with data := [] }, reader := .signalling s.pipe.data none }
  | failed (timed : Bool) (err : Err ε) (hreader : s.reader = .reading timed)
      (heof : err = .eof → s.pipe.state = .closed ∧ MultiBuffer.isEmpty s.pipe.data = true) :
      Moves s .take { s with reader := .signalling [] (some err) }
  | report (data : MultiBuffer) (err : Option (Err ε))
      (hreader : s.reader = .signalling data err) :
      Moves s .signalWrite
        { s with
          pipe := { s.pipe with writeSignal := true }
          reader := .idle
          returned := s.returned ++ [(data, err)] }
  -- the reader begins, is woken, or leaves its select with an error of another kind
  | stir (a : Action ε) (signal : Bool) (errChan : Option ε) (reader : Reader ε)
      (errs : List (Err ε)) (hheld : s.reader.held = []) (hheld' : reader.held = [])
      (hreader : ¬ reader.Waits) (heof : .eof ∉ errs) :
      Moves s a
        { s with
          pipe := { s.pipe with readSignal := signal, errChan }
          reader
          returned := s.returned ++ errs.map fun e => ([], some e) }
  | close : Moves s .close { s with pipe := s.pipe.close, closeCalled := true }
  | interrupt : Moves s .interrupt { s with pipe := s.pipe.interrupt }
  | errChan (a : Action ε) (errChan : Option ε) :
      Moves s a { s with pipe := { s.pipe with errChan } }

variable {s : Link ε}

/-- The critical section of a writer: accepted, discarded, sent to the select, or refused. -/
theorem moves_append {i : ℕ} {mb : MultiBuffer} (hi : s.writers[i]? = some (.writing mb)) :
    s.Moves (.append i) (s.append i mb) := by
  rw [append, Pipe.writeMultiBufferInternal]
  cases hget : s.pipe.getState false with
  | none =>
    obtain ⟨hopen, hroom⟩ := Pipe.open_of_getState hget
    exact .accept i mb hi hopen hroom
  | some err =>
    cases err with
    | bufferFull =>
      show s.Moves _ (if s.pipe.option.discardOverflow = true then _ else _)
      by_cases hdiscard : s.pipe.option.discardOverflow = true
      · rw [if_pos hdiscard]
        exact .pass _ i _ (.returned none) s.pipe.writeSignal hi nofun nofun
      · rw [if_neg hdiscard]
        exact .pass _ i _ (.full mb) s.pipe.writeSignal hi nofun fun mb' h => h
    | closedPipe => exact .pass _ i _ (.refused _) s.pipe.writeSignal hi nofun nofun
    | eof => exact .pass _ i _ (.refused _) s.pipe.writeSignal hi nofun nofun
    | readTimeout => exact .pass _ i _ (.refused _) s.pipe.writeSignal hi nofun nofun
    | given e => exact .pass _ i _ (.refused _) s.pipe.writeSignal hi nofun nofun

/-- The critical section of the reader: it waits, or leaves with data or with an error. -/
theorem moves_take {timed : Bool} (hreader : s.reader = .reading timed) :
    s.Moves .take (s.take timed) := by
  rw [take, Pipe.readMultiBufferInternal]
  cases hget : s.pipe.getState true with
  | some err =>
    refine .failed timed err hreader fun heof => ?_
    rw [heof] at hget
    exact Pipe.ended_of_getState hget
  | none =>
    cases hdata : s.pipe.data with
    | nil =>
      -- with nothing taken the pipe is as it was
      have hsame : { s.pipe with data := [] } = s.pipe := by
        rw [← hdata]
      show s.Moves .take { s with pipe := { s.pipe with data := [] }, reader := .waiting timed }
      rw [hsame]
      exact .await timed hreader hdata
    | cons b mb =>
      have hstate : s.pipe.state ≠ .errord := by
        intro hstate
        rw [Pipe.getState, hstate] at hget
        nomatch hget
      have h := Moves.taken timed hreader hstate
      rw [hdata] at h
      exact h

/-- The reader begins or is woken. -/
theorem moves_reading (a : Action ε) (signal timed : Bool) (hheld : s.reader.held = []) :
    s.Moves a
      { s with pipe := { s.pipe with readSignal := signal }, reader := .reading timed } := by
  have hmove := Moves.stir a signal s.pipe.errChan (.reading timed) [] hheld rfl nofun
    not_mem_nil
  rw [map_nil, append_nil] at hmove
  exact hmove

variable {s' : Link ε}

theorem moves_of_step {a : Action ε} (h : s.step a = some s') : s.Moves a s' := by
  cases a with
  | call mb =>
    rw [step] at h
    by_cases hempty : MultiBuffer.isEmpty mb = true
    · rw [if_pos hempty] at h
      obtain rfl := some.inj h
      exact .call mb (.returned none) nofun
    · rw [if_neg hempty] at h
      obtain rfl := some.inj h
      refine .call mb (.writing mb) fun mb' hmb' => ?_
      exact ⟨(some.inj hmb').symm, Bool.not_eq_true _ ▸ hempty⟩
  | append i =>
    rw [step] at h
    split at h
    · rename_i mb hi
      obtain rfl := some.inj h
      exact moves_append hi
    · nomatch h
  | signalRead i =>
    rw [step] at h
    split at h
    · obtain rfl := some.inj h
      exact .signalRead i none
    · rename_i err _
      obtain rfl := some.inj h
      exact .signalRead i (some err)
    · nomatch h
  | retry i =>
    rw [step] at h
    split at h
    · rename_i mb hi _
      obtain rfl := some.inj h
      exact .pass _ i _ (.writing mb) false hi nofun fun mb' hmb' => hmb'
    · nomatch h
  | giveUp i =>
    rw [step] at h
    split at h
    · rename_i hi _
      obtain rfl := some.inj h
      exact .pass _ i _ (.returned _) s.pipe.writeSignal hi nofun nofun
    · nomatch h
  | read timed =>
    rw [step] at h
    split at h
    · rename_i hreader
      obtain rfl := some.inj h
      exact moves_reading (.read timed) s.pipe.readSignal timed (by rw [hreader]; rfl)
    · nomatch h
  | take =>
    rw [step] at h
    split at h
    · rename_i timed hreader
      obtain rfl := some.inj h
      exact moves_take hreader
    · nomatch h
  | signalWrite =>
    rw [step] at h
    split at h
    · rename_i data err hreader
      obtain rfl := some.inj h
      exact .report data err hreader
    · nomatch h
  | wake =>
    rw [step] at h
    split at h
    · rename_i timed hreader _
      obtain rfl := some.inj h
      exact moves_reading .wake false timed (by rw [hreader]; rfl)
    · nomatch h
  | wakeDone =>
    rw [step] at h
    split at h
    · rename_i timed hreader _
      obtain rfl := some.inj h
      exact moves_reading .wakeDone s.pipe.readSignal timed (by rw [hreader]; rfl)
    · nomatch h
  | takeError =>
    rw [step] at h
    split at h
    · rename_i e hreader _
      obtain rfl := some.inj h
      exact .stir _ s.pipe.readSignal none .idle [.given e] (by rw [hreader]; rfl) rfl nofun
        (by simp)
    · nomatch h
  | timeout =>
    rw [step] at h
    split at h
    · rename_i hreader
      obtain rfl := some.inj h
      exact .stir _ s.pipe.readSignal s.pipe.errChan .idle [.readTimeout] (by rw [hreader]; rfl)
        rfl nofun (by simp)
    · nomatch h
  | close =>
    obtain rfl := some.inj h
    exact .close
  | interrupt =>
    obtain rfl := some.inj h
    exact .interrupt
  | returnAnError e =>
    rw [step] at h
    split at h
    · obtain rfl := some.inj h
      exact .errChan _ (some e)
    · nomatch h
  | recover =>
    obtain rfl := some.inj h
    exact .errChan _ none

/-! ## Nothing lost, nothing out of order -/

/-- What is read so far, one buffer after the other. -/
def handed (s : Link ε) : MultiBuffer := (s.outcomes.map Prod.fst).flatten

/-- A property of the buffers of all pending writes. -/
def Pending (P : MultiBuffer → Prop) (s : Link ε) : Prop :=
  ∀ w ∈ s.writers, ∀ mb, w.buffer = some mb → P mb

/-- A step brings no pending write but that of a call. -/
theorem Pending.move {P : MultiBuffer → Prop} {a : Action ε} (h : s.Pending P)
    (hmove : s.Moves a s') (hcall : ∀ mb, a = .call mb → MultiBuffer.isEmpty mb = false → P mb) :
    s'.Pending P := by
  cases hmove with
  | call mb w hbuffer =>
    intro w' hw' mb' hmb'
    rcases mem_append.mp hw' with hw' | hw'
    · exact h w' hw' mb' hmb'
    · obtain rfl := mem_singleton.mp hw'
      obtain ⟨rfl, hfilled⟩ := hbuffer mb' hmb'
      exact hcall mb' rfl hfilled
  | accept i mb hi hopen hroom =>
    intro w hw mb' hmb'
    rcases mem_or_eq_of_mem_set hw with hw | rfl
    · exact h w hw mb' hmb'
    · nomatch hmb'
  | pass a i w w' signal hi hw hbuffer =>
    intro w'' hw'' mb hmb
    rcases mem_or_eq_of_mem_set hw'' with hw'' | rfl
    · exact h w'' hw'' mb hmb
    · exact h w (mem_of_getElem? hi) mb (hbuffer mb hmb)
  | signalRead i err =>
    intro w hw mb hmb
    rcases mem_or_eq_of_mem_set hw with hw | rfl
    · exact h w hw mb hmb
    · nomatch hmb
  | await | taken | failed | report | stir | close | interrupt | errChan => exact h

/-- What was handed over and what is buffered are what was accepted, until an interrupt; and
    EOF comes after a close, with nothing left. -/
structure Flow (s : Link ε) : Prop where
  filled : s.pipe.data ≠ [] → MultiBuffer.isEmpty s.pipe.data = false
  flow : s.pipe.state ≠ .errord → s.accepted.flatten = s.handed ++ s.pipe.data
  handed : s.handed <+: s.accepted.flatten
  ended : (∃ o ∈ s.outcomes, o.2 = some .eof) → s.pipe.state = .closed ∧ s.pipe.data = []
  closed : s.pipe.state = .closed → s.closeCalled = true

theorem Flow.start (option : PipeOption) : (start option : Link ε).Flow where
  filled h := absurd rfl h
  flow _ := rfl
  handed := prefix_refl _
  ended h := by
    obtain ⟨o, ho, _⟩ := h
    nomatch ho
  closed := nofun

/-- With nothing buffered that counts, there is nothing buffered. -/
theorem Flow.data_eq_nil (h : s.Flow) (hempty : MultiBuffer.isEmpty s.pipe.data = true) :
    s.pipe.data = [] := by
  by_contra hdata
  rw [h.filled hdata] at hempty
  nomatch hempty

theorem Flow.accept (h : s.Flow) (hopen : s.pipe.state = .opened) {mb : MultiBuffer}
    (hmb : MultiBuffer.isEmpty mb = false) (writers : List (Writer ε)) :
    Flow { s with
      pipe := { s.pipe with data := s.pipe.data ++ mb }
      accepted := s.accepted ++ [mb]
      writers } := by
  have hflow := h.flow (by rw [hopen]; nofun)
  have hall : (s.accepted ++ [mb]).flatten = s.handed ++ (s.pipe.data ++ mb) := by
    rw [flatten_append, flatten_singleton, hflow, append_assoc]
  constructor
  · intro _
    show MultiBuffer.isEmpty (s.pipe.data ++ mb) = false
    rw [MultiBuffer.isEmpty_append, hmb, Bool.and_false]
  · intro _
    exact hall
  · exact ⟨s.pipe.data ++ mb, hall.symm⟩
  · intro hended
    -- EOF was never given by a pipe that is open
    have hclosed := (h.ended hended).1
    rw [hopen] at hclosed
    nomatch hclosed
  · exact h.closed

/-- What the reader takes moves from the buffer into its hands. -/
theorem Flow.taken (h : s.Flow) (hheld : s.reader.held = []) (hstate : s.pipe.state ≠ .errord) :
    Flow { s with pipe := { s.pipe with data := [] }, reader := .signalling s.pipe.data none } := by
  have houtcomes : s.outcomes = s.returned := by
    rw [outcomes, hheld, append_nil]
  have hhanded : (((s.returned ++ [(s.pipe.data, none)]).map Prod.fst).flatten : MultiBuffer) =
      s.handed ++ s.pipe.data := by
    rw [map_append, flatten_append, Link.handed, houtcomes]
    show _ ++ [s.pipe.data].flatten = _
    rw [flatten_singleton]
  have hflow := h.flow hstate
  constructor
  · intro hdata
    exact absurd rfl hdata
  · intro _
    show s.accepted.flatten = ((s.returned ++ [(s.pipe.data, none)]).map Prod.fst).flatten ++ []
    rw [hhanded, append_nil, hflow]
  · show ((s.returned ++ [(s.pipe.data, none)]).map Prod.fst).flatten <+: s.accepted.flatten
    rw [hhanded, hflow]
  · rintro ⟨o, ho, heof⟩
    rcases mem_append.mp ho with ho | ho
    · have hend := h.ended ⟨o, by rw [houtcomes]; exact ho, heof⟩
      exact ⟨hend.1, rfl⟩
    · obtain rfl := mem_singleton.mp ho
      nomatch heof
  · exact h.closed

/-- Outcomes without data, EOF among them only where it is due. -/
theorem Flow.answer (h : s.Flow) (errs : List (Err ε)) (hpipe : s'.pipe.data = s.pipe.data)
    (hstate : s'.pipe.state = s.pipe.state) (haccepted : s'.accepted = s.accepted)
    (hclose : s'.closeCalled = s.closeCalled)
    (houtcomes : s'.outcomes = s.outcomes ++ errs.map fun e => ([], some e))
    (heof : .eof ∈ errs → s.pipe.state = .closed ∧ s.pipe.data = []) : s'.Flow := by
  have hhanded : s'.handed = s.handed := by
    rw [Link.handed, houtcomes, List.map_append, List.flatten_append, Link.handed, List.map_map]
    have hnil : (errs.map (Prod.fst ∘ fun e => (([] : MultiBuffer), some e))).flatten = [] := by
      rw [flatten_eq_nil_iff]
      intro mb hmb
      obtain ⟨e, _, rfl⟩ := mem_map.mp hmb
      rfl
    rw [hnil, append_nil]
  constructor
  · rw [hpipe]
    exact h.filled
  · rw [hpipe, hstate, haccepted, hhanded]
    exact h.flow
  · rw [haccepted, hhanded]
    exact h.handed
  · rw [hpipe, hstate, houtcomes]
    rintro ⟨o, ho, hsome⟩
    rcases mem_append.mp ho with ho | ho
    · exact h.ended ⟨o, ho, hsome⟩
    · obtain ⟨e, he, rfl⟩ := mem_map.mp ho
      obtain rfl := some.inj hsome
      exact heof he
  · rw [hstate, hclose]
    exact h.closed

/-- Only the pipe and the records are looked at. -/
theorem Flow.of_same (h : s.Flow) (hdata : s'.pipe.data = s.pipe.data)
    (hstate : s'.pipe.state = s.pipe.state) (haccepted : s'.accepted = s.accepted)
    (hclose : s'.closeCalled = s.closeCalled) (houtcomes : s'.outcomes = s.outcomes) : s'.Flow := by
  apply h.answer [] hdata hstate haccepted hclose
  · rw [houtcomes, map_nil, append_nil]
  · intro hmem
    nomatch hmem

theorem Flow.close (h : s.Flow) : Flow { s with pipe := s.pipe.close, closeCalled := true } := by
  rw [Pipe.close]
  cases hstate : s.pipe.state with
  | opened =>
    constructor
    · exact h.filled
    · intro _
      exact h.flow (by rw [hstate]; nofun)
    · exact h.handed
    · intro hended
      exact ⟨rfl, (h.ended hended).2⟩
    · intro _
      rfl
  | closed => exact { h with closed := fun _ => rfl }
  | errord => exact { h with closed := fun _ => rfl }

end Link

/-- `Interrupt` changes nothing in a pipe that has ended with nothing left, and else leaves
    one that takes and gives nothing any more. -/
theorem Pipe.interrupt_spec (p : Pipe ε) :
    (MultiBuffer.isEmpty p.data = true ∧ p.interrupt = p) ∨
      (p.interrupt.state = .errord ∧ p.state ≠ .closed ∧ MultiBuffer.isEmpty p.data = true ∧
        p.interrupt.data = p.data) ∨
      (p.interrupt.state = .errord ∧ MultiBuffer.isEmpty p.data = false ∧
        p.interrupt.data = []) := by
  rw [Pipe.interrupt, Pipe.drop]
  cases hempty : MultiBuffer.isEmpty p.data with
  | true =>
    rw [if_pos rfl]
    cases hstate : p.state with
    | opened => exact .inr (.inl ⟨rfl, nofun, rfl, rfl⟩)
    | closed => exact .inl ⟨rfl, rfl⟩
    | errord => exact .inl ⟨rfl, rfl⟩
  | false =>
    rw [if_neg Bool.noConfusion]
    refine .inr (.inr ?_)
    cases hstate : p.state with
    | opened => simp
    | closed => simp
    | errord => simp

/-- `Interrupt` touches neither the signals nor the option. -/
theorem Pipe.interrupt_same (p : Pipe ε) :
    p.interrupt.readSignal = p.readSignal ∧ p.interrupt.option = p.option := by
  have hdrop : p.drop.readSignal = p.readSignal ∧ p.drop.option = p.option := by
    rw [Pipe.drop]
    split
    · exact ⟨rfl, rfl⟩
    · split <;> exact ⟨rfl, rfl⟩
  rw [Pipe.interrupt]
  split
  · exact hdrop
  · exact hdrop

namespace Link

variable {s : Link ε}

theorem Flow.interrupt (h : s.Flow) : Flow { s with pipe := s.pipe.interrupt } := by
  rcases s.pipe.interrupt_spec with
    ⟨_, hsame⟩ | ⟨hstate, hnot, hempty, hdata⟩ | ⟨hstate, hfull, hdata⟩
  · rw [hsame]
    exact h
  · have hnil := h.data_eq_nil hempty
    constructor
    · intro hne
      exact absurd (hdata.trans hnil) hne
    · intro hne
      exact absurd hstate hne
    · exact h.handed
    · intro hended
      exact absurd (h.ended hended).1 hnot
    · intro hclosed
      rw [hstate] at hclosed
      nomatch hclosed
  · constructor
    · intro hne
      exact absurd hdata hne
    · intro hne
      exact absurd hstate hne
    · exact h.handed
    · intro hended
      -- after EOF there is nothing that could be dropped
      rw [(h.ended hended).2] at hfull
      nomatch hfull
    · intro hclosed
      rw [hstate] at hclosed
      nomatch hclosed

variable {a : Action ε}

theorem Flow.move {s' : Link ε} (h : s.Flow)
    (hpending : s.Pending fun mb => MultiBuffer.isEmpty mb = false) (hmove : s.Moves a s') :
    s'.Flow := by
  cases hmove with
  | call | pass | signalRead | errChan => exact h.of_same rfl rfl rfl rfl rfl
  | accept i mb hi hopen hroom =>
    have hmb := hpending _ (mem_of_getElem? hi) mb rfl
    exact h.accept hopen hmb _
  | await timed hreader hdata =>
    refine h.of_same rfl rfl rfl rfl ?_
    rw [outcomes, outcomes, hreader]
    rfl
  | taken timed hreader hstate =>
    apply h.taken _ hstate
    rw [hreader]
    rfl
  | failed timed err hreader heof =>
    refine h.answer [err] rfl rfl rfl rfl ?_ ?_
    · rw [outcomes, outcomes, hreader]
      show s.returned ++ [([], some err)] = s.returned ++ [] ++ [([], some err)]
      rw [append_nil]
    · intro hmem
      obtain ⟨hclosed, hempty⟩ := heof (mem_singleton.mp hmem).symm
      exact ⟨hclosed, h.data_eq_nil hempty⟩
  | report data err hreader =>
    refine h.of_same rfl rfl rfl rfl ?_
    rw [outcomes, outcomes, hreader]
    show s.returned ++ [(data, err)] ++ [] = s.returned ++ [(data, err)]
    rw [append_nil]
  | stir a signal errChan reader errs hheld hheld' hreader heof =>
    refine h.answer errs rfl rfl rfl rfl ?_ ?_
    · rw [outcomes, outcomes, hheld, hheld', append_nil, append_nil]
    · intro hmem
      exact absurd hmem heof
  | close => exact h.close
  | interrupt => exact h.interrupt

/-- A call of the reader has returned EOF. -/
def ReturnedEof (s : Link ε) : Prop := ∃ o ∈ s.returned, o.2 = some .eof

/-- After EOF no call has data in its hands. -/
def Late (s : Link ε) : Prop := s.ReturnedEof → ∀ o ∈ s.reader.held, o.1 = []

theorem Late.move {s' : Link ε} (h : s.Late) (hflow : s.Flow) (hmove : s.Moves a s') : s'.Late := by
  cases hmove with
  | call | accept | pass | signalRead | close | interrupt | errChan => exact h
  | await => exact fun _ o ho => nomatch ho
  | taken timed hreader hstate =>
    rintro ⟨o, ho, heof⟩ held hheld
    obtain rfl := mem_singleton.mp hheld
    exact (hflow.ended ⟨o, mem_append_left _ ho, heof⟩).2
  | failed =>
    intro _ held hheld
    obtain rfl := mem_singleton.mp hheld
    rfl
  | report => exact fun _ o ho => nomatch ho
  | stir a signal errChan reader errs hheld hheld' hreader heof =>
    intro _ held hmem
    rw [show reader.held = [] from hheld'] at hmem
    nomatch hmem

/-! ## Nobody left asleep -/

/-- A reader that waits in front of data has its signal there already, or a writer about to
    give it. -/
def Awake (s : Link ε) : Prop :=
  s.reader.Waits → s.pipe.data ≠ [] → s.pipe.readSignal = true ∨ .appended ∈ s.writers

/-- A writer that is not about to signal can go on without harm. -/
theorem mem_set_of_ne {w w' : Writer ε} {writers : List (Writer ε)} {i : ℕ}
    (hi : writers[i]? = some w) (hw : w ≠ .appended) (hmem : .appended ∈ writers) :
    .appended ∈ writers.set i w' := by
  obtain ⟨j, hj⟩ := mem_iff_getElem?.mp hmem
  have hne : i ≠ j := by
    rintro rfl
    rw [hi] at hj
    exact hw (some.inj hj)
  rw [mem_iff_getElem?]
  exact ⟨j, by rw [getElem?_set_ne hne, hj]⟩

theorem Awake.move {s' : Link ε} (h : s.Awake) (hmove : s.Moves a s') : s'.Awake := by
  cases hmove with
  | call mb w hbuffer =>
    intro hwaits hdata
    exact (h hwaits hdata).imp_right (mem_append_left _)
  | accept i mb hi hopen hroom =>
    intro _ _
    have hlt : i < s.writers.length := (List.getElem?_eq_some_iff.mp hi).1
    exact .inr (mem_set hlt _)
  | pass a i w w' signal hi hw hbuffer =>
    intro hwaits hdata
    exact (h hwaits hdata).imp_right (mem_set_of_ne hi hw)
  | signalRead i err =>
    intro _ _
    exact .inl rfl
  | await timed hreader hdata =>
    intro _ hne
    exact absurd hdata hne
  | taken | failed | report =>
    rintro ⟨timed, hwaits⟩
    nomatch hwaits
  | stir a signal errChan reader errs hheld hheld' hreader heof =>
    intro hwaits
    exact absurd hwaits hreader
  | close =>
    rw [Awake, Pipe.close]
    cases s.pipe.state <;> exact h
  | interrupt =>
    intro hwaits hdata
    rw [s.pipe.interrupt_same.1]
    apply h hwaits
    rcases s.pipe.interrupt_spec with ⟨_, hsame⟩ | ⟨_, _, _, hsame⟩ | ⟨_, _, hnil⟩
    · rwa [← hsame]
    · rwa [← hsame]
    · exact absurd hnil hdata
  | errChan => exact h

/-! ## The size -/

end Link

/-- The limit and a write of this size stay within `int32`. -/
def PipeOption.Fits (o : PipeOption) (mb : MultiBuffer) : Prop :=
  0 ≤ o.limit → o.limit.toInt + (MultiBuffer.bytes mb).length < 2 ^ 31

/-- The writes are of sizes that fit. -/
def Action.Fits (o : PipeOption) : Action ε → Prop
  | .call mb => o.Fits mb
  | _ => True

instance (o : PipeOption) (mb : MultiBuffer) : Decidable (o.Fits mb) :=
  inferInstanceAs (Decidable (_ → _))

instance (o : PipeOption) : (a : Action ε) → Decidable (a.Fits o)
  | .call mb => inferInstanceAs (Decidable (o.Fits mb))
  | .append _ | .signalRead _ | .retry _ | .giveUp _ | .read _ | .take | .signalWrite | .wake
  | .wakeDone | .takeError | .timeout | .close | .interrupt | .returnAnError _ | .recover =>
    inferInstanceAs (Decidable True)

namespace Link

/-- At most the limit and the size of one write are buffered. -/
def Bounded (s : Link ε) : Prop :=
  0 ≤ s.pipe.option.limit →
    ((MultiBuffer.bytes s.pipe.data).length : ℤ) ≤ s.pipe.option.limit.toInt ∨
      ∃ mb ∈ s.accepted, ((MultiBuffer.bytes s.pipe.data).length : ℤ) ≤
        s.pipe.option.limit.toInt + (MultiBuffer.bytes mb).length

/-- The bound, with what keeps it: all writes fit. -/
structure Fitting (s : Link ε) : Prop where
  pending : s.Pending s.pipe.option.Fits
  accepted : ∀ mb ∈ s.accepted, s.pipe.option.Fits mb
  bounded : s.Bounded

theorem Fitting.start (option : PipeOption) : (start option : Link ε).Fitting where
  pending := nofun
  accepted := nofun
  bounded hlimit := by
    rw [Int32.le_iff_toInt_le] at hlimit
    exact .inl hlimit

variable {s : Link ε}

/-- What is buffered is within `int32`. -/
theorem Fitting.length_lt (h : s.Fitting) (hlimit : 0 ≤ s.pipe.option.limit) :
    (MultiBuffer.bytes s.pipe.data).length < 2 ^ 31 := by
  have hmax := Int32.toInt_lt s.pipe.option.limit
  rcases h.bounded hlimit with hle | ⟨mb, hmb, hle⟩
  · omega
  · have hfits := h.accepted mb hmb hlimit
    omega

variable {s' : Link ε}

/-- Only the option, the buffer and the accepted writes are looked at. -/
theorem Fitting.of_less (h : s.Fitting) (hpending : s'.Pending s.pipe.option.Fits)
    (hoption : s'.pipe.option = s.pipe.option) (haccepted : s'.accepted = s.accepted)
    (hdata : s'.pipe.data = s.pipe.data ∨ s'.pipe.data = []) : s'.Fitting := by
  constructor
  · rw [hoption]
    exact hpending
  · rw [hoption, haccepted]
    exact h.accepted
  · rw [Bounded, hoption, haccepted]
    intro hlimit
    rcases hdata with hdata | hdata
    · rw [hdata]
      exact h.bounded hlimit
    · rw [hdata]
      exact .inl (Int32.le_iff_toInt_le.mp hlimit)

theorem Fitting.move {a : Action ε} (h : s.Fitting) (hfits : a.Fits s.pipe.option)
    (hmove : s.Moves a s') : s'.Fitting := by
  have hpending : s'.Pending s.pipe.option.Fits := by
    refine h.pending.move hmove fun mb hcall _ => ?_
    rw [hcall] at hfits
    exact hfits
  cases hmove with
  | accept i mb hi hopen hroom =>
    constructor
    · exact hpending
    · exact forall_mem_append.mpr ⟨h.accepted,
        forall_mem_singleton.mpr (h.pending _ (mem_of_getElem? hi) mb rfl)⟩
    · intro hlimit
      refine .inr ⟨mb, mem_append_right _ (mem_singleton.mpr rfl), ?_⟩
      have hle : ((MultiBuffer.bytes s.pipe.data).length : ℤ) ≤ s.pipe.option.limit.toInt :=
        PipeOption.length_le_of_not_full hlimit (h.length_lt hlimit) hroom
      show ((MultiBuffer.bytes (s.pipe.data ++ mb)).length : ℤ) ≤
        s.pipe.option.limit.toInt + (MultiBuffer.bytes mb).length
      rw [MultiBuffer.bytes, flatten_append, length_append]
      rw [MultiBuffer.bytes] at hle ⊢
      omega
  | taken => exact h.of_less hpending rfl rfl (.inr rfl)
  | close =>
    refine h.of_less hpending ?_ rfl (.inl ?_)
    · rw [Pipe.close]
      cases s.pipe.state <;> rfl
    · rw [Pipe.close]
      cases s.pipe.state <;> rfl
  | interrupt =>
    refine h.of_less hpending s.pipe.interrupt_same.2 rfl ?_
    rcases s.pipe.interrupt_spec with ⟨_, hsame⟩ | ⟨_, _, _, hsame⟩ | ⟨_, _, hnil⟩
    · exact .inl (congrArg Pipe.data hsame)
    · exact .inl hsame
    · exact .inr hnil
  | call | pass | signalRead | await | failed | report | stir | errChan =>
    exact h.of_less hpending rfl rfl (.inl rfl)

/-! ## All runs -/

/-- A step of some party. -/
def Steps (s s' : Link ε) : Prop := ∃ a, s.step a = some s'

/-- A step in which no write begins that would take the sizes out of `int32`. -/
def FitSteps (s s' : Link ε) : Prop := ∃ a : Action ε, a.Fits s.pipe.option ∧ s.step a = some s'

/-- The bytes that calls of the reader have returned. -/
def bytesRead (s : Link ε) : Bytes :=
  MultiBuffer.bytes (s.returned.map Prod.fst).flatten

/-- The bytes of the accepted writes, in their order. -/
def bytesAccepted (s : Link ε) : Bytes := MultiBuffer.bytes s.accepted.flatten

/-- The reader waits in front of data, and no signal is on its way. -/
def Stranded (s : Link ε) : Prop :=
  s.reader.Waits ∧ s.pipe.data ≠ [] ∧ s.pipe.readSignal = false ∧ .appended ∉ s.writers

/-- What holds in every state reached. -/
structure Inv (s : Link ε) : Prop where
  pending : s.Pending fun mb => MultiBuffer.isEmpty mb = false
  flow : s.Flow
  late : s.Late
  awake : s.Awake

theorem Inv.start (option : PipeOption) : (start option : Link ε).Inv where
  pending := nofun
  flow := .start option
  late := fun _ o ho => nomatch ho
  awake := by
    rintro ⟨timed, hwaits⟩
    nomatch hwaits

theorem Inv.step (h : s.Inv) (hstep : s.Steps s') : s'.Inv := by
  obtain ⟨a, ha⟩ := hstep
  have hmove := moves_of_step ha
  exact {
    pending := h.pending.move hmove fun mb _ hfilled => hfilled
    flow := h.flow.move h.pending hmove
    late := h.late.move h.flow hmove
    awake := h.awake.move hmove }

theorem Inv.bytesRead_le (h : s.Inv) : s.bytesRead <+: s.bytesAccepted := by
  have hreturned : (s.returned.map Prod.fst).flatten <+: s.handed := by
    rw [handed, outcomes, map_append, flatten_append]
    exact prefix_append _ _
  exact (hreturned.trans h.flow.handed).flatten

theorem Inv.all_read (h : s.Inv) (heof : s.ReturnedEof) :
    s.closeCalled = true ∧ s.bytesRead = s.bytesAccepted := by
  obtain ⟨o, ho, hsome⟩ := heof
  obtain ⟨hclosed, hdata⟩ := h.flow.ended ⟨o, mem_append_left _ ho, hsome⟩
  refine ⟨h.flow.closed hclosed, ?_⟩
  -- nothing is in the buffer, and nothing is in the hands of the reader
  have hflow := h.flow.flow (by rw [hclosed]; nofun)
  have hheld : (s.reader.held.map Prod.fst).flatten = [] := by
    rw [flatten_eq_nil_iff]
    intro mb hmb
    obtain ⟨o', ho', rfl⟩ := mem_map.mp hmb
    exact h.late ⟨o, ho, hsome⟩ o' ho'
  rw [hdata, append_nil, handed, outcomes, map_append, flatten_append, hheld,
    append_nil] at hflow
  rw [bytesRead, bytesAccepted, hflow]

theorem Inv.not_stranded (h : s.Inv) : ¬ s.Stranded := by
  rintro ⟨hwaits, hdata, hsignal, hnone⟩
  rcases h.awake hwaits hdata with hsignal' | hmem
  · rw [hsignal] at hsignal'
    nomatch hsignal'
  · exact hnone hmem

theorem Fitting.step (h : s.Fitting) (hstep : s.FitSteps s') : s'.Fitting := by
  obtain ⟨a, hfits, ha⟩ := hstep
  exact h.move hfits (moves_of_step ha)

/-- In every run, what is read is the beginning of what was accepted, EOF comes only after
    `Close` and after everything, and no reader is left asleep in front of data; and as
    long as the sizes fit into `int32`, at most the limit and one write are buffered. -/
theorem pipe_keeps_the_stream {option : PipeOption} {s : Link ε}
    (hrun : ReflTransGen Steps (start option) s) :
    s.bytesRead <+: s.bytesAccepted ∧
      (s.ReturnedEof → s.closeCalled = true ∧ s.bytesRead = s.bytesAccepted) ∧
      ¬ s.Stranded ∧
      (ReflTransGen FitSteps (start option) s → s.Bounded) := by
  have hinv : s.Inv := reach_closed (fun _ h _ hstep => h.step hstep) (Inv.start option) hrun
  refine ⟨hinv.bytesRead_le, hinv.all_read, hinv.not_stranded, fun hfits => ?_⟩
  have hfitting : s.Fitting :=
    reach_closed (fun _ h _ hstep => h.step hstep) (Fitting.start option) hfits
  exact hfitting.bounded

/-- A step whose writes fit, as a function. -/
def fitStep (s : Link ε) (a : Action ε) : Option (Link ε) :=
  if a.Fits s.pipe.option then s.step a else none

theorem fitSteps_of_fitStep (s : Link ε) (a : Action ε) (s' : Link ε)
    (h : s.fitStep a = some s') : s.FitSteps s' := by
  rw [fitStep] at h
  by_cases hfits : a.Fits s.pipe.option
  · rw [if_pos hfits] at h
    exact ⟨a, hfits, h⟩
  · rw [if_neg hfits] at h
    nomatch h

/-- Two writes into a pipe of two bytes, the second after the reader made room, and a close:
    the reader is given three bytes, then two, then EOF. -/
theorem pipe_keeps_the_stream_closed :
    ∃ s : Link Empty, ReflTransGen FitSteps (start ⟨2, false⟩) s ∧
      s.bytesRead = [1, 2, 3, 4, 5] ∧ s.ReturnedEof ∧ s.bytesRead <+: s.bytesAccepted ∧
      s.closeCalled = true ∧ s.bytesRead = s.bytesAccepted ∧ ¬ s.Stranded ∧ s.Bounded := by
  have hlast : (run fitStep
      [.read false, .take, .call [[1], [2, 3]], .call [[4, 5]], .append 0, .append 1,
        .signalRead 0, .wake, .take, .signalWrite, .retry 1, .append 1, .close, .read true,
        .signalRead 1, .take, .signalWrite, .read true, .take, .signalWrite]
      (start ⟨2, false⟩ : Link Empty)).map (fun s => (s.bytesRead, s.returned.map Prod.snd)) =
      some ([1, 2, 3, 4, 5], [none, none, some .eof]) := by
    decide
  obtain ⟨s, hrun, hview⟩ := map_eq_some_iff.mp hlast
  obtain ⟨hread, herrs⟩ := Prod.mk.inj hview
  have hfits := reach_of_run fitSteps_of_fitStep _ hrun
  have hsteps : ReflTransGen Steps (start ⟨2, false⟩) s :=
    hfits.lift id fun _ _ ⟨a, _, ha⟩ => ⟨a, ha⟩
  have heof : s.ReturnedEof := by
    have hmem : some .eof ∈ s.returned.map Prod.snd := by
      rw [herrs]
      decide
    exact mem_map.mp hmem
  obtain ⟨hprefixed, hend, hawake, hbound⟩ := pipe_keeps_the_stream hsteps
  exact ⟨s, hfits, hread, heof, hprefixed, (hend heof).1, (hend heof).2, hawake, hbound hfits⟩

/-! ## Sizes that wrap around -/

/-- A call that finds the pipe open and not full appends its buffer. -/
theorem exists_steps_append (hopen : s.pipe.state = .opened)
    (hroom : s.pipe.option.isFull (MultiBuffer.len s.pipe.data) = false) {mb : MultiBuffer}
    (hmb : MultiBuffer.isEmpty mb = false) :
    ∃ s', ReflTransGen Steps s s' ∧ s'.pipe = { s.pipe with data := s.pipe.data ++ mb } ∧
      s'.accepted = s.accepted ++ [mb] := by
  let called : Link ε := { s with writers := s.writers ++ [.writing mb] }
  have hcall : s.step (.call mb) = some called := by
    rw [step, if_neg (by rw [hmb]; exact Bool.noConfusion)]
  have hget : s.pipe.getState false = none := by
    simp [Pipe.getState, hopen, hroom]
  have happend : called.step (.append s.writers.length) =
      some (called.append s.writers.length mb) := by
    simp [step, called]
  refine ⟨called.append s.writers.length mb, ?_, ?_, ?_⟩
  · exact .tail (.single ⟨_, hcall⟩) ⟨_, happend⟩
  · simp [append, Pipe.writeMultiBufferInternal, called, hget]
  · simp [append, Pipe.writeMultiBufferInternal, called, hget]

/-- The size of a number of buffers, all of one length. -/
theorem length_bytes_replicate {b : Bytes} {k : ℕ} (hb : b.length = k) (n : ℕ) :
    (MultiBuffer.bytes (List.replicate n b)).length = n * k := by
  induction n with
  | zero => rw [Nat.zero_mul]; rfl
  | succ n ih =>
    rw [MultiBuffer.bytes] at ih ⊢
    rw [replicate_succ, flatten_cons, length_append, ih, hb, Nat.succ_mul,
      Nat.add_comm]

/-- With the largest limit and writes of a gibibyte, the pipe takes three of them: after the
    second the size has wrapped around to a negative number. -/
theorem exists_steps_three {b : Bytes} (hb : b.length = 2 ^ 30) {n : ℕ} (hn : n ≤ 3) :
    ∃ s : Link Empty, ReflTransGen Steps (start ⟨2147483647, false⟩) s ∧
      s.pipe = { Pipe.new ⟨2147483647, false⟩ with data := replicate n b } ∧
      s.accepted = replicate n [b] := by
  induction n with
  | zero => exact ⟨_, .refl, rfl, rfl⟩
  | succ n ih =>
    obtain ⟨s, hrun, hpipe, haccepted⟩ := ih (by omega)
    have hroom : s.pipe.option.isFull (MultiBuffer.len s.pipe.data) = false := by
      rw [hpipe, MultiBuffer.len_eq, length_bytes_replicate hb]
      -- 0, 2 ^ 30 and 2 ^ 31 bytes
      have hsmall : n = 0 ∨ n = 1 ∨ n = 2 := by omega
      show (PipeOption.mk 2147483647 false).isFull (Int32.ofNat (n * 2 ^ 30)) = false
      rcases hsmall with rfl | rfl | rfl <;> decide
    have hempty : MultiBuffer.isEmpty [b] = false := by
      cases b with
      | nil => simp at hb
      | cons => rfl
    obtain ⟨s', hstep, hpipe', haccepted'⟩ :=
      exists_steps_append (by rw [hpipe]; rfl) hroom hempty
    refine ⟨s', hrun.trans hstep, ?_, ?_⟩
    · rw [hpipe', hpipe, replicate_succ']
    · rw [haccepted', haccepted, replicate_succ']

/-- After the third write more is buffered than the limit and any of the writes. -/
theorem pipe_outgrows_the_limit :
    ∃ s : Link Empty, ReflTransGen Steps (start ⟨2147483647, false⟩) s ∧ ¬ s.Bounded := by
  -- the bytes do not matter, and are kept from being computed with
  obtain ⟨b, hb⟩ : ∃ b : Bytes, b.length = 2 ^ 30 :=
    ⟨replicate (2 ^ 30) 0, length_replicate⟩
  obtain ⟨s, hrun, hpipe, haccepted⟩ := exists_steps_three hb (le_refl 3)
  refine ⟨s, hrun, fun hbound => ?_⟩
  have hsize : (MultiBuffer.bytes s.pipe.data).length = 3 * 2 ^ 30 := by
    rw [hpipe, length_bytes_replicate hb]
  have hlimit : s.pipe.option.limit.toInt = 2147483647 := by
    rw [hpipe]
    rfl
  have hnonneg : 0 ≤ s.pipe.option.limit := by
    rw [Int32.le_iff_toInt_le, hlimit]
    decide
  rcases hbound hnonneg with hle | ⟨mb, hmb, hle⟩
  · omega
  · have hone : (MultiBuffer.bytes mb).length = 2 ^ 30 := by
      rw [haccepted] at hmb
      rw [eq_of_mem_replicate hmb, MultiBuffer.bytes, flatten_singleton, hb]
    omega

end Link

end XrayCore.Transport
