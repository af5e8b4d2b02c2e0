/-
  XrayCore.AnyTls.Stream

  The read side of an AnyTLS stream.

  The loop of the session puts a payload into `readPending`, and waits while one is there.
  Readers take turns by `readerAccess`; the one whose turn it is takes what is left in
  `readCache`, then what is pending, and then looks for the end.  The loop handles one
  frame after the other; so the end is only set when every payload before it was put down.
-/

import XrayCore.Bytes.Slice
import XrayCore.Machine.Run

namespace XrayCore.AnyTls

open List

/-! ## State -/

/-- What a read returns without bytes. -/
inductive ReadError
  | eof
  | deadline
  | shortBuffer
deriving DecidableEq

/-- The calls of a reader: `Read` with the size of its slice, `ReadBuffer` with the room in its
    buffer, and `WaitReadBuffer`. -/
inductive ReadCall
  | read (size : ℕ)
  | readBuffer (free : ℕ)
  | waitReadBuffer

/-- Where the loop of the session is with a frame of the stream. -/
inductive LoopState
  | ready
  | pushing (buffer : Bytes)
  | waiting (buffer : Bytes)
  | pushed
  | closing
  | finished
  | ended

/-- The stream, the loop, and the reader that waits, if there is one, and whether it has the signal.
    `pushed` are the bytes that were pushed, and `returned` what the calls returned, one after the
    other. -/
structure ReadSide where
  readPending : Option Bytes
  readCache : Option Bytes
  readSignal : Bool
  readSpace : Bool
  readErr : Option ReadError
  done : Bool
  listed : Bool
  loop : LoopState
  waiting : Option ReadCall
  woken : Bool
  pushed : Bytes
  returned : List (Bytes × Option ReadError)

/-- `newStream`, in the map of its session. -/
def newStream : ReadSide :=
  ⟨none, none, false, false, none, false, true, .ready, none, false, [], []⟩

namespace ReadSide

/-! ## The loop of the session -/

/-- The critical section of `push`. -/
def push (s : ReadSide) (buffer : Bytes) : ReadSide :=
  if s.readErr.isSome then { s with loop := .ready }
  else
    match s.readPending with
    | none => { s with readPending := some buffer, loop := .pushed }
    | some _ => { s with loop := .waiting buffer }

/-- The critical section of `endRead`. -/
def endRead (s : ReadSide) (err : ReadError) : ReadSide :=
  { s with readErr := if s.readErr.isSome then s.readErr else some err, loop := .ended }

/-! ## Readers -/

/-- What `takeReadLocked` comes to while it has the lock. -/
inductive Taken
  | buffer (b : Bytes)
  | error (err : ReadError)
  | wait

/-- `waitReadLocked` where nothing is pending. -/
def lookForEnd (s : ReadSide) : Taken × ReadSide :=
  match s.readErr with
  | some err => (.error err, { s with readSignal := true })
  | none => (.wait, s)

/-- `waitReadLocked` up to where it gives the lock back, as the loop of `takeReadLocked` calls it: a
    buffer without bytes is passed over. -/
def waitRead (s : ReadSide) : Taken × ReadSide :=
  match s.readPending with
  | none => s.lookForEnd
  | some buffer =>
    let s := { s with readPending := none, readSpace := true }
    if buffer.isEmpty then s.lookForEnd else (.buffer buffer, s)

/-- `takeReadLocked`, up to there. -/
def takeRead (s : ReadSide) : Taken × ReadSide :=
  let cache := s.readCache
  let s := { s with readCache := none }
  match cache with
  | none => s.waitRead
  | some buffer => if buffer.isEmpty then s.waitRead else (.buffer buffer, s)

/-- `keepReadLocked`. -/
def keepRead (s : ReadSide) (buffer : Bytes) : ReadSide :=
  if buffer.isEmpty then s else { s with readCache := some buffer }

variable (copy : Bytes → Bytes)

/-- A call returns. -/
def giveBack (s : ReadSide) (bytes : Bytes) (err : Option ReadError) : ReadSide :=
  { s with waiting := none, returned := s.returned ++ [(bytes, err)] }

/-- What a call returns of the buffer that it took, and what it keeps: a full buffer takes nothing.
    `copy` is `Copy` of the options of the reader. -/
def handOut (s : ReadSide) (buffer : Bytes) : ReadCall → ReadSide
  | .read size => (s.keepRead (buffer.drop size)).giveBack (buffer.take size) none
  | .readBuffer free =>
    (s.keepRead (buffer.drop free)).giveBack (buffer.take free)
      (if free = 0 then some .shortBuffer else none)
  | .waitReadBuffer => s.giveBack (copy buffer) none

/-- A critical section of a reader: it returns bytes or an error, or waits. -/
def readTurn (s : ReadSide) (call : ReadCall) : ReadSide :=
  match s.takeRead with
  | (.wait, s) => { s with waiting := some call }
  | (.error err, s) => s.giveBack [] (some err)
  | (.buffer buffer, s) => s.handOut copy buffer call

end ReadSide

/-! ## Steps -/

open ReadSide in
/-- One step of the loop or of a reader. -/
inductive StreamStep (copy : Bytes → Bytes) : ReadSide → ReadSide → Prop
  /-- `handlePush`; for a frame without bytes, or without a stream, it does nothing. -/
  | handlePush {s : ReadSide} (payload : Bytes) (h : s.loop = .ready) (hlisted : s.listed = true)
      (hlength : payload ≠ []) :
      StreamStep copy s { s with loop := .pushing payload, pushed := s.pushed ++ payload }
  | push {s : ReadSide} {buffer : Bytes} (h : s.loop = .pushing buffer) :
      StreamStep copy s (s.push buffer)
  | pushSignal {s : ReadSide} (h : s.loop = .pushed) :
      StreamStep copy s { s with readSignal := true, loop := .ready }
  | pushAgain {s : ReadSide} {buffer : Bytes} (h : s.loop = .waiting buffer)
      (hspace : s.readSpace = true) :
      StreamStep copy s { s with readSpace := false, loop := .pushing buffer }
  | pushDropped {s : ReadSide} {buffer : Bytes} (h : s.loop = .waiting buffer)
      (hdone : s.done = true) : StreamStep copy s { s with loop := .ready }
  /-- `handleFIN`, whose `closeByPeer` closes `done`, takes the stream out of the map, and ends. -/
  | handleFIN {s : ReadSide} (h : s.loop = .ready) (hlisted : s.listed = true) :
      StreamStep copy s { s with done := true, loop := .closing }
  | finishStream {s : ReadSide} (h : s.loop = .closing) :
      StreamStep copy s { s with listed := false, loop := .finished }
  | endRead {s : ReadSide} (h : s.loop = .finished) : StreamStep copy s (s.endRead .eof)
  | endSignal {s : ReadSide} (h : s.loop = .ended) :
      StreamStep copy s { s with readSignal := true, loop := .ready }
  /-- A reader whose turn it becomes. -/
  | read {s : ReadSide} (call : ReadCall) (h : s.waiting = none) :
      StreamStep copy s (s.readTurn copy call)
  /-- A reader takes the signal, and then the lock. -/
  | wake {s : ReadSide} (h : s.waiting.isSome) (hwoken : s.woken = false)
      (hsignal : s.readSignal = true) :
      StreamStep copy s { s with readSignal := false, woken := true }
  | resume {s : ReadSide} {call : ReadCall} (h : s.waiting = some call) (hwoken : s.woken = true) :
      StreamStep copy s ({ s with woken := false }.readTurn copy call)
  | deadline {s : ReadSide} (h : s.waiting.isSome) (hwoken : s.woken = false) :
      StreamStep copy s (s.giveBack [] (some .deadline))

/-! ## What was pushed is read in order -/

namespace ReadSide

/-- The bytes that results carry. -/
def bytesOf (results : List (Bytes × Option ReadError)) : Bytes :=
  results.flatMap Prod.fst

/-- What lies between the loop and the readers. -/
def held (s : ReadSide) : Bytes := s.readCache.getD [] ++ s.readPending.getD []

/-- The payload that the loop has not put down yet. -/
def inFlight (s : ReadSide) : Bytes :=
  match s.loop with
  | .pushing buffer => buffer
  | .waiting buffer => buffer
  | _ => []

/-- What the loop knows of the stream, by where it is. -/
def LoopOk (s : ReadSide) : Prop :=
  match s.loop with
  | .pushing _ | .waiting _ | .pushed => s.readErr = none ∧ s.done = false ∧ s.listed = true
  | .ready => s.listed = true → s.readErr = none ∧ s.done = false
  | .closing => s.readErr = none
  | .finished => s.readErr = none ∧ s.listed = false
  | .ended => s.listed = false

/-- What holds between any two steps. -/
structure Inv (s : ReadSide) : Prop where
  flow : s.pushed = bytesOf s.returned ++ s.held ++ s.inFlight
  loopOk : s.LoopOk
  -- The end is only set where the loop has nothing left to put down.
  ended : s.readErr.isSome → s.inFlight = []
  eof_ended : ∀ bytes, (bytes, some ReadError.eof) ∈ s.returned → s.readErr.isSome
  eof_last : ∀ before bytes after, s.returned = before ++ (bytes, some .eof) :: after →
    bytesOf before = s.pushed

theorem inv_newStream : Inv newStream where
  flow := rfl
  loopOk := fun _ => ⟨rfl, rfl⟩
  ended := nofun
  eof_ended := nofun
  eof_last := by
    intro before bytes after h
    exact absurd h.symm (append_ne_nil_of_right_ne_nil _ (cons_ne_nil _ _))

/-- What `takeReadLocked` leaves as it was. -/
structure Rest (s s' : ReadSide) : Prop where
  readErr : s'.readErr = s.readErr
  done : s'.done = s.done
  listed : s'.listed = s.listed
  loop : s'.loop = s.loop
  pushed : s'.pushed = s.pushed
  returned : s'.returned = s.returned

/-- What `takeReadLocked` takes is what lies first, and it finds the end or waits only where nothing
    lies. -/
def TakenOk (s : ReadSide) : Taken × ReadSide → Prop
  | (.buffer buffer, s') => Rest s s' ∧ s.held = buffer ++ s'.held ∧ s'.readCache = none
  | (.error err, s') => Rest s s' ∧ s.held = [] ∧ s'.held = [] ∧ s.readErr = some err
  | (.wait, s') => Rest s s' ∧ s.held = [] ∧ s'.held = []

variable {s : ReadSide}

theorem lookForEnd_ok {s₀ : ReadSide} (hrest : Rest s₀ s) (h₀ : s₀.held = []) (h : s.held = []) :
    TakenOk s₀ s.lookForEnd := by
  rw [lookForEnd]
  split
  case h_1 err herr => exact ⟨{ hrest with }, h₀, h, hrest.readErr ▸ herr⟩
  case h_2 => exact ⟨hrest, h₀, h⟩

theorem waitRead_ok {s₀ : ReadSide} (hrest : Rest s₀ s) (hheld : s₀.held = s.held)
    (hcache : s.readCache = none) : TakenOk s₀ s.waitRead := by
  have hs : s.held = s.readPending.getD [] := by
    rw [held, hcache]
    rfl
  rw [waitRead]
  split
  case h_1 hnone =>
    have hnil : s.held = [] := by
      rw [hs, hnone]
      rfl
    exact lookForEnd_ok hrest (hheld.trans hnil) hnil
  case h_2 buffer hsome =>
    have hbuffer : s.held = buffer := by
      rw [hs, hsome]
      rfl
    have hnil : held { s with readPending := none, readSpace := true } = [] := by
      rw [held, hcache]
      rfl
    dsimp only
    split
    case isTrue hempty =>
      have hzero : s₀.held = [] := by
        rw [hheld, hbuffer]
        exact isEmpty_iff.mp hempty
      exact lookForEnd_ok { hrest with } hzero hnil
    case isFalse =>
      refine ⟨{ hrest with }, ?_, hcache⟩
      rw [hnil, append_nil, hheld, hbuffer]

theorem takeRead_ok (s : ReadSide) : TakenOk s s.takeRead := by
  have hrest : Rest s { s with readCache := none } := ⟨rfl, rfl, rfl, rfl, rfl, rfl⟩
  rw [takeRead]
  split
  case h_1 hnone =>
    apply waitRead_ok hrest ?_ rfl
    rw [held, held, hnone]
  case h_2 buffer hsome =>
    split
    case isTrue hempty =>
      apply waitRead_ok hrest ?_ rfl
      rw [held, held, hsome, isEmpty_iff.mp hempty]
      rfl
    case isFalse =>
      refine ⟨hrest, ?_, rfl⟩
      rw [held, held, hsome]
      rfl

/-! ## Steps -/

variable {s' : ReadSide}

theorem Rest.inFlight (h : Rest s s') : s'.inFlight = s.inFlight := by
  rw [ReadSide.inFlight, ReadSide.inFlight, h.loop]

theorem Rest.loopOk (h : Rest s s') (hs : s.LoopOk) : s'.LoopOk := by
  rw [LoopOk, h.loop, h.readErr, h.done, h.listed]
  exact hs

/-- The loop goes from one place to another, with the same payload in hand. -/
theorem Inv.moveLoop (h : s.Inv) (hpushed : s'.pushed = s.pushed)
    (hreturned : s'.returned = s.returned) (hheld : s'.held = s.held)
    (hreadErr : s'.readErr = s.readErr) (hflight : s'.inFlight = s.inFlight) (hok : s'.LoopOk) :
    s'.Inv where
  flow := by
    rw [hpushed, hreturned, hheld, hflight]
    exact h.flow
  loopOk := hok
  ended := by
    rw [hreadErr, hflight]
    exact h.ended
  eof_ended := by
    rw [hreturned, hreadErr]
    exact h.eof_ended
  eof_last := by
    rw [hreturned, hpushed]
    exact h.eof_last

/-- Nothing moved between the loop and the readers. -/
theorem Inv.rest (h : s.Inv) (hrest : Rest s s') (hheld : s'.held = s.held) : s'.Inv :=
  h.moveLoop hrest.pushed hrest.returned hheld hrest.readErr hrest.inFlight (hrest.loopOk h.loopOk)

theorem bytesOf_append (rs : List (Bytes × Option ReadError))
    (r : Bytes × Option ReadError) : bytesOf (rs ++ [r]) = bytesOf rs ++ r.1 := by
  rw [bytesOf, flatMap_append, flatMap_singleton, bytesOf]

/-- A call returns what lies first; it returns `io.EOF` only at the end, and where nothing lies. -/
theorem Inv.giveBack {out : Bytes} {err : Option ReadError} (h : s.Inv) (hrest : Rest s s')
    (hheld : s.held = out ++ s'.held) (heof : err = some .eof → s.readErr.isSome ∧ s.held = []) :
    (s'.giveBack out err).Inv where
  flow := by
    have hflow := h.flow
    rw [hheld] at hflow
    have hnew : bytesOf (s'.giveBack out err).returned = bytesOf s.returned ++ out := by
      rw [ReadSide.giveBack, hrest.returned, bytesOf_append]
    rw [hnew]
    calc (s'.giveBack out err).pushed = s.pushed := hrest.pushed
      _ = bytesOf s.returned ++ (out ++ s'.held) ++ s.inFlight := hflow
      _ = bytesOf s.returned ++ out ++ s'.held ++ s.inFlight := by rw [append_assoc _ out]
      _ = bytesOf s.returned ++ out ++ s'.held ++ s'.inFlight := by rw [hrest.inFlight]
  loopOk := hrest.loopOk h.loopOk
  ended := by
    intro hended
    have hsome : s.readErr.isSome := hrest.readErr ▸ hended
    exact hrest.inFlight.trans (h.ended hsome)
  eof_ended := by
    intro bytes hmem
    rw [ReadSide.giveBack, hrest.returned, mem_append, mem_singleton] at hmem
    have hsome : s.readErr.isSome := by
      rcases hmem with hmem | heq
      · exact h.eof_ended bytes hmem
      · exact (heof (congrArg Prod.snd heq).symm).1
    exact hrest.readErr ▸ hsome
  eof_last := by
    intro before bytes after hsplit
    have hpushed : (s'.giveBack out err).pushed = s.pushed := hrest.pushed
    rw [ReadSide.giveBack, hrest.returned] at hsplit
    rw [hpushed]
    -- The result is either the last one or among those before it.
    rcases eq_nil_or_concat after with rfl | ⟨after, last, rfl⟩
    · obtain ⟨rfl, hlast⟩ := append_inj' hsplit rfl
      have herr : err = some .eof := congrArg Prod.snd (singleton_inj.mp hlast)
      obtain ⟨hended, hnone⟩ := heof herr
      have hflow := h.flow
      rw [hnone, h.ended hended, append_nil, append_nil] at hflow
      exact hflow.symm
    · rw [concat_eq_append, ← cons_append, ← append_assoc] at hsplit
      exact h.eof_last before bytes after (append_inj' hsplit rfl).1

theorem keepRead_rest (s : ReadSide) (buffer : Bytes) : Rest s (s.keepRead buffer) := by
  rw [keepRead]
  split
  · exact ⟨rfl, rfl, rfl, rfl, rfl, rfl⟩
  · exact ⟨rfl, rfl, rfl, rfl, rfl, rfl⟩

theorem held_keepRead (hcache : s.readCache = none) (buffer : Bytes) :
    (s.keepRead buffer).held = buffer ++ s.held := by
  rw [keepRead]
  split
  case isTrue hempty => rw [isEmpty_iff.mp hempty, nil_append]
  case isFalse =>
    rw [held, held, hcache]
    rfl

theorem Rest.trans {s₁ s₂ : ReadSide} (h : Rest s s₁) (h' : Rest s₁ s₂) : Rest s s₂ :=
  ⟨h'.readErr.trans h.readErr, h'.done.trans h.done, h'.listed.trans h.listed,
    h'.loop.trans h.loop, h'.pushed.trans h.pushed, h'.returned.trans h.returned⟩

/-- A buffer that was taken is returned up to some byte, and the rest of it is kept. -/
theorem Inv.handPart {buffer : Bytes} (h : s.Inv) (hrest : Rest s s')
    (hheld : s.held = buffer ++ s'.held) (hcache : s'.readCache = none) (n : ℕ)
    {err : Option ReadError} (herr : err ≠ some .eof) :
    ((s'.keepRead (buffer.drop n)).giveBack (buffer.take n) err).Inv := by
  apply h.giveBack (hrest.trans (keepRead_rest s' _))
  · rw [held_keepRead hcache, ← append_assoc, take_append_drop]
    exact hheld
  · intro heof
    exact absurd heof herr

theorem Inv.readTurn {copy : Bytes → Bytes} (hcopy : ∀ b, copy b = b) (h : s.Inv)
    (call : ReadCall) : (s.readTurn copy call).Inv := by
  have hok := s.takeRead_ok
  rw [ReadSide.readTurn]
  split
  case h_1 s' htaken =>
    rw [htaken] at hok
    obtain ⟨hrest, hnone, hnone'⟩ := hok
    exact (h.rest hrest (hnone'.trans hnone.symm)).rest ⟨rfl, rfl, rfl, rfl, rfl, rfl⟩ rfl
  case h_2 err s' htaken =>
    rw [htaken] at hok
    obtain ⟨hrest, hnone, hnone', herr⟩ := hok
    apply h.giveBack hrest
    · rw [hnone, hnone', append_nil]
    · intro _
      exact ⟨herr ▸ rfl, hnone⟩
  case h_3 buffer s' htaken =>
    rw [htaken] at hok
    obtain ⟨hrest, hheld, hcache⟩ := hok
    cases call with
    | read size => exact h.handPart hrest hheld hcache size nofun
    | readBuffer free =>
      apply h.handPart hrest hheld hcache free
      split
      · nofun
      · nofun
    | waitReadBuffer =>
      apply h.giveBack hrest
      · rw [hcopy]
        exact hheld
      · nofun

theorem Inv.handlePush (h : s.Inv) (payload : Bytes) (hloop : s.loop = .ready)
    (hlisted : s.listed = true) :
    Inv { s with loop := .pushing payload, pushed := s.pushed ++ payload } := by
  have hready := h.loopOk
  rw [LoopOk, hloop] at hready
  obtain ⟨hreadErr, hdone⟩ := hready hlisted
  have hnone : ¬ s.readErr.isSome := by
    rw [hreadErr]
    nofun
  have hflight : s.inFlight = [] := by rw [inFlight, hloop]
  exact
    { flow := by
        have hflow := h.flow
        rw [hflight, append_nil] at hflow
        exact congrArg (· ++ payload) hflow
      loopOk := ⟨hreadErr, hdone, hlisted⟩
      ended := fun hended => absurd hended hnone
      eof_ended := h.eof_ended
      eof_last := by
        -- No call returned `io.EOF` yet, because the end is not set.
        intro before bytes after hsplit
        have hmem : (bytes, some ReadError.eof) ∈ s.returned := by
          rw [show s.returned = before ++ (bytes, some .eof) :: after from hsplit]
          exact mem_append_right _ mem_cons_self
        exact absurd (h.eof_ended bytes hmem) hnone }

theorem Inv.push {buffer : Bytes} (h : s.Inv) (hloop : s.loop = .pushing buffer) :
    (s.push buffer).Inv := by
  have hopen := h.loopOk
  rw [LoopOk, hloop] at hopen
  obtain ⟨hreadErr, hdone, hlisted⟩ := hopen
  have hflight : s.inFlight = buffer := by rw [inFlight, hloop]
  have hnone : ¬ s.readErr.isSome := by
    rw [hreadErr]
    nofun
  rw [ReadSide.push, if_neg hnone]
  split
  case h_1 hempty =>
    exact
      { flow := by
          have hflow := h.flow
          rw [hflight, held, hempty, Option.getD_none, append_nil] at hflow
          calc s.pushed = bytesOf s.returned ++ s.readCache.getD [] ++ buffer := hflow
            _ = bytesOf s.returned ++ (s.readCache.getD [] ++ buffer) ++ [] := by
              rw [append_assoc, append_nil]
        loopOk := ⟨hreadErr, hdone, hlisted⟩
        ended := fun _ => rfl
        eof_ended := h.eof_ended
        eof_last := h.eof_last }
  case h_2 => exact h.moveLoop rfl rfl rfl rfl hflight.symm ⟨hreadErr, hdone, hlisted⟩

theorem Inv.endRead (h : s.Inv) (hloop : s.loop = .finished) : (s.endRead .eof).Inv := by
  have hfinished := h.loopOk
  rw [LoopOk, hloop] at hfinished
  have hflight : s.inFlight = [] := by rw [inFlight, hloop]
  exact
    { flow := by
        have hflow := h.flow
        rw [hflight] at hflow
        exact hflow
      loopOk := hfinished.2
      ended := fun _ => rfl
      eof_ended := fun bytes hmem => by
        have hsome := h.eof_ended bytes hmem
        rw [hfinished.1] at hsome
        cases hsome
      eof_last := h.eof_last }

end ReadSide

open ReadSide

theorem StreamStep.inv {copy : Bytes → Bytes} (hcopy : ∀ b, copy b = b) {s s' : ReadSide}
    (hstep : StreamStep copy s s') (h : s.Inv) : s'.Inv := by
  have hok := h.loopOk
  rw [LoopOk] at hok
  cases hstep with
  | handlePush payload hloop hlisted => exact h.handlePush payload hloop hlisted
  | push hloop => exact h.push hloop
  | pushSignal hloop =>
    rw [hloop] at hok
    exact h.moveLoop rfl rfl rfl rfl (by rw [inFlight, inFlight, hloop]) fun _ => ⟨hok.1, hok.2.1⟩
  | pushAgain hloop =>
    rw [hloop] at hok
    exact h.moveLoop rfl rfl rfl rfl (by rw [inFlight, inFlight, hloop]) hok
  | pushDropped hloop hdone =>
    -- Only the loop closes `done`, and it is here.
    rw [hloop, hdone] at hok
    cases hok.2.1
  | handleFIN hloop hlisted =>
    rw [hloop] at hok
    exact h.moveLoop rfl rfl rfl rfl (by rw [inFlight, inFlight, hloop]) (hok hlisted).1
  | finishStream hloop =>
    rw [hloop] at hok
    exact h.moveLoop rfl rfl rfl rfl (by rw [inFlight, inFlight, hloop]) ⟨hok, rfl⟩
  | endRead hloop => exact h.endRead hloop
  | endSignal hloop =>
    rw [hloop] at hok
    refine h.moveLoop rfl rfl rfl rfl (by rw [inFlight, inFlight, hloop]) fun hlisted => ?_
    rw [show s.listed = true from hlisted] at hok
    cases hok
  | read call => exact h.readTurn hcopy call
  | wake => exact h.rest ⟨rfl, rfl, rfl, rfl, rfl, rfl⟩ rfl
  | @resume call =>
    have hresumed : Inv { s with woken := false } := h.rest ⟨rfl, rfl, rfl, rfl, rfl, rfl⟩ rfl
    exact hresumed.readTurn hcopy call
  | deadline => exact h.giveBack ⟨rfl, rfl, rfl, rfl, rfl, rfl⟩ rfl nofun

/-- Whatever the order of the loop and the readers: what was read is the beginning of what was
    pushed, and a call returns `io.EOF` only after all of it was read. -/
theorem stream_delivers_before_eof {copy : Bytes → Bytes} (hcopy : ∀ b, copy b = b)
    {s : ReadSide} (hreach : Relation.ReflTransGen (StreamStep copy) newStream s) :
    bytesOf s.returned <+: s.pushed ∧
      ∀ before bytes after, s.returned = before ++ (bytes, some .eof) :: after →
        bytesOf before = s.pushed := by
  have hinv : s.Inv :=
    Machine.reach_closed (P := ReadSide.Inv) (fun _ h _ hstep => hstep.inv hcopy h)
      inv_newStream hreach
  refine ⟨⟨s.held ++ s.inFlight, ?_⟩, hinv.eof_last⟩
  rw [← append_assoc]
  exact hinv.flow.symm

/-- Two bytes of three are read, the peer finishes, and then come the last byte and the end. -/
theorem stream_delivers_before_eof_threeBytes :
    ∃ s, Relation.ReflTransGen (StreamStep id) newStream s ∧
      s.returned = [([1, 2], none), ([3], none), ([], some .eof)] ∧
      bytesOf s.returned <+: s.pushed ∧ bytesOf [([1, 2], none), ([3], none)] = s.pushed := by
  have hreach : ∃ s, Relation.ReflTransGen (StreamStep id) newStream s ∧
      s.returned = [([1, 2], none), ([3], none), ([], some .eof)] := by
    refine ⟨?final, ?hreach, ?hfinal⟩
    case hreach =>
      refine .head (.handlePush [1, 2, 3] rfl rfl nofun) ?_
      refine .head (.push rfl) ?_
      refine .head (.pushSignal rfl) ?_
      refine .head (.read (.read 2) rfl) ?_
      refine .head (.handleFIN rfl rfl) ?_
      refine .head (.finishStream rfl) ?_
      refine .head (.endRead rfl) ?_
      refine .head (.endSignal rfl) ?_
      refine .head (.read .waitReadBuffer rfl) ?_
      refine .head (.read (.readBuffer 8) rfl) ?_
      exact .refl
    case hfinal => rfl
  obtain ⟨s, hs, hreturned⟩ := hreach
  obtain ⟨hbegin, heof⟩ := stream_delivers_before_eof (fun _ => rfl) hs
  exact ⟨s, hs, hreturned, hbegin, heof _ [] [] hreturned⟩

end XrayCore.AnyTls
