/-
  XrayCore.Transport.Pipe

  The pipe of a link: a buffer under a lock, and two notifiers of one slot each that
  wake the side that waits.

  Writers, the reader and those who close share the pipe.  A step of the machine is a
  critical section, or a signal, or one of the ways out of a select: whatever happens
  between two points where goroutines can meet.  Sizes are `int32`, as in the source, so
  the size of what is buffered wraps around.
-/

import XrayCore.Bytes.Slice
import XrayCore.Machine.Run

namespace XrayCore.Transport

/-! ## Buffers -/

/-- `buf.MultiBuffer`, with `nil` the empty list. -/
abbrev MultiBuffer := List Bytes

/-- `MultiBuffer.Len`. -/
def MultiBuffer.len (mb : MultiBuffer) : Int32 :=
  mb.foldl (fun size b => size + Int32.ofNat b.length) 0

/-- `MultiBuffer.IsEmpty`. -/
def MultiBuffer.isEmpty (mb : MultiBuffer) : Bool :=
  mb.all List.isEmpty

/-! ## The pipe -/

/-- `state`. -/
inductive State where
  | opened
  | closed
  | errord
deriving DecidableEq

/-- The errors of the pipe; `given` is one that somebody handed to `ReturnAnError`. -/
inductive Err (ε : Type) where
  | bufferFull
  | closedPipe
  | eof
  | readTimeout
  | given (e : ε)
deriving DecidableEq

/-- `pipeOption`. -/
structure PipeOption where
  limit : Int32
  discardOverflow : Bool

/-- `pipeOption.isFull`. -/
def PipeOption.isFull (o : PipeOption) (curSize : Int32) : Bool :=
  decide (0 ≤ o.limit) && decide (o.limit < curSize)

/-- `pipe`.  A notifier is whether its slot is taken, and `done` whether it was closed. -/
structure Pipe (ε : Type) where
  data : MultiBuffer
  readSignal : Bool
  writeSignal : Bool
  done : Bool
  errChan : Option ε
  option : PipeOption
  state : State

variable {ε : Type}

namespace Pipe

/-- `New`. -/
def new (option : PipeOption) : Pipe ε where
  data := []
  readSignal := false
  writeSignal := false
  done := false
  errChan := none
  option := option
  state := .opened

/-- `getState`. -/
def getState (p : Pipe ε) (forRead : Bool) : Option (Err ε) :=
  match p.state with
  | .opened =>
    if !forRead && p.option.isFull (MultiBuffer.len p.data) then some .bufferFull else none
  | .closed =>
    if !forRead then some .closedPipe
    -- what was written before the close can still be read
    else if !MultiBuffer.isEmpty p.data then none
    else some .eof
  | .errord => some .closedPipe

/-- `readMultiBufferInternal`. -/
def readMultiBufferInternal (p : Pipe ε) : (MultiBuffer × Option (Err ε)) × Pipe ε :=
  match p.getState true with
  | some err => (([], some err), p)
  | none => ((p.data, none), { p with data := [] })

/-- `writeMultiBufferInternal`. -/
def writeMultiBufferInternal (p : Pipe ε) (mb : MultiBuffer) : Option (Err ε) × Pipe ε :=
  match p.getState false with
  | some err => (some err, p)
  | none => (none, { p with data := p.data ++ mb })

/-- `Close`. -/
def close (p : Pipe ε) : Pipe ε :=
  match p.state with
  | .opened => { p with state := .closed, done := true }
  | _ => p

/-- The first half of `Interrupt`: what is buffered is dropped, and then a closed pipe no
    longer ends in EOF. -/
def drop (p : Pipe ε) : Pipe ε :=
  if MultiBuffer.isEmpty p.data then p
  else
    match p.state with
    | .closed => { p with data := [], state := .errord }
    | _ => { p with data := [] }

/-- `Interrupt`. -/
def interrupt (p : Pipe ε) : Pipe ε :=
  match p.drop.state with
  | .opened => { p.drop with state := .errord, done := true }
  | _ => p.drop

end Pipe

/-! ## The parties -/

/-- A call of `WriteMultiBuffer`: before the critical section, at the select of a full
    pipe, between the critical section and the signal (after an append or a refusal), or
    over. -/
inductive Writer (ε : Type) where
  | writing (mb : MultiBuffer)
  | full (mb : MultiBuffer)
  | appended
  | refused (err : Err ε)
  | returned (err : Option (Err ε))
deriving DecidableEq

/-- The reader: outside, before the critical section, at the select, or between the critical
    section and the signal with what it will return.  `timed` are the calls of
    `ReadMultiBufferTimeout`. -/
inductive Reader (ε : Type) where
  | idle
  | reading (timed : Bool)
  | waiting (timed : Bool)
  | signalling (data : MultiBuffer) (err : Option (Err ε))
deriving DecidableEq

/-- The pipe with its parties, and a record of what was accepted, of what the calls of the
    reader returned, and whether `Close` was called. -/
structure Link (ε : Type) where
  pipe : Pipe ε
  reader : Reader ε
  writers : List (Writer ε)
  accepted : List MultiBuffer
  returned : List (MultiBuffer × Option (Err ε))
  closeCalled : Bool

/-- What can happen next: a call of `WriteMultiBuffer` begins, and the steps of the `i`th of
    them; a call of a read begins, and its steps; `Close`, `Interrupt`, `ReturnAnError` and
    `Recover`. -/
inductive Action (ε : Type) where
  | call (mb : MultiBuffer)
  | append (i : ℕ)
  | signalRead (i : ℕ)
  | retry (i : ℕ)
  | giveUp (i : ℕ)
  | read (timed : Bool)
  | take
  | signalWrite
  | wake
  | wakeDone
  | takeError
  | timeout
  | close
  | interrupt
  | returnAnError (e : ε)
  | recover

namespace Link

def start (option : PipeOption) : Link ε where
  pipe := .new option
  reader := .idle
  writers := []
  accepted := []
  returned := []
  closeCalled := false

/-- The critical section of the `i`th writer, and the branches after it. -/
def append (s : Link ε) (i : ℕ) (mb : MultiBuffer) : Link ε :=
  match s.pipe.writeMultiBufferInternal mb with
  | (none, pipe) =>
    { s with pipe, accepted := s.accepted ++ [mb], writers := s.writers.set i .appended }
  | (some .bufferFull, pipe) =>
    if s.pipe.option.discardOverflow then
      { s with pipe, writers := s.writers.set i (.returned none) }
    else { s with pipe, writers := s.writers.set i (.full mb) }
  | (some err, pipe) => { s with pipe, writers := s.writers.set i (.refused err) }

/-- The critical section of the reader, and the branches after it. -/
def take (s : Link ε) (timed : Bool) : Link ε :=
  match s.pipe.readMultiBufferInternal with
  | (([], none), pipe) => { s with pipe, reader := .waiting timed }
  | ((data, err), pipe) => { s with pipe, reader := .signalling data err }

def step (s : Link ε) : Action ε → Option (Link ε)
  | .call mb =>
    -- an empty buffer is not written at all
    if MultiBuffer.isEmpty mb then some { s with writers := s.writers ++ [.returned none] }
    else some { s with writers := s.writers ++ [.writing mb] }
  | .append i =>
    match s.writers[i]? with
    | some (.writing mb) => some (s.append i mb)
    | _ => none
  | .signalRead i =>
    match s.writers[i]? with
    | some .appended =>
      some { s with
        pipe := { s.pipe with readSignal := true }
        writers := s.writers.set i (.returned none) }
    | some (.refused err) =>
      some { s with
        pipe := { s.pipe with readSignal := true }
        writers := s.writers.set i (.returned (some err)) }
    | _ => none
  | .retry i =>
    match s.writers[i]?, s.pipe.writeSignal with
    | some (.full mb), true =>
      some { s with
        pipe := { s.pipe with writeSignal := false }
        writers := s.writers.set i (.writing mb) }
    | _, _ => none
  | .giveUp i =>
    match s.writers[i]?, s.pipe.done with
    | some (.full _), true =>
      some { s with writers := s.writers.set i (.returned (some .closedPipe)) }
    | _, _ => none
  | .read timed =>
    match s.reader with
    | .idle => some { s with reader := .reading timed }
    | _ => none
  | .take =>
    match s.reader with
    | .reading timed => some (s.take timed)
    | _ => none
  | .signalWrite =>
    match s.reader with
    | .signalling data err =>
      some { s with
        pipe := { s.pipe with writeSignal := true }
        reader := .idle
        returned := s.returned ++ [(data, err)] }
    | _ => none
  | .wake =>
    match s.reader, s.pipe.readSignal with
    | .waiting timed, true =>
      some { s with pipe := { s.pipe with readSignal := false }, reader := .reading timed }
    | _, _ => none
  | .wakeDone =>
    match s.reader, s.pipe.done with
    | .waiting timed, true => some { s with reader := .reading timed }
    | _, _ => none
  | .takeError =>
    -- only the select of `ReadMultiBuffer` listens to `errChan`
    match s.reader, s.pipe.errChan with
    | .waiting false, some e =>
      some { s with
        pipe := { s.pipe with errChan := none }
        reader := .idle
        returned := s.returned ++ [([], some (.given e))] }
    | _, _ => none
  | .timeout =>
    match s.reader with
    | .waiting true =>
      some { s with reader := .idle, returned := s.returned ++ [([], some .readTimeout)] }
    | _ => none
  | .close => some { s with pipe := s.pipe.close, closeCalled := true }
  | .interrupt => some { s with pipe := s.pipe.interrupt }
  | .returnAnError e =>
    match s.pipe.errChan with
    | none => some { s with pipe := { s.pipe with errChan := some e } }
    | some _ => none
  | .recover => some { s with pipe := { s.pipe with errChan := none } }

end Link

end XrayCore.Transport
