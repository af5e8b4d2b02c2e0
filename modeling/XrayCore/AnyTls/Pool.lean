/-
  XrayCore.AnyTls.Pool

  The sessions of an AnyTLS client, and who may open a stream on them.

  A step is one critical section under `access`, or one access to what that lock does not
  protect: the streams of a session, its `done` channel, its write lock and the two flags
  that are atomic.  `releaseSession` reads such data twice while it has the lock, so it is
  three steps; `releasing` is set between them and keeps out every other critical section.

  A session may be closed or released at any moment, and a control frame may begin at any
  moment; so every order in which the callers of these can run is among the runs.
-/

import XrayCore.Machine.Run

namespace XrayCore.AnyTls

/-! ## State -/

/-- How far `Close` of a session is. -/
inductive ClosePhase
  | live
  | done
  | cleared
  | removed
deriving DecidableEq

/-- An element of the list of idle sessions. -/
structure Element where
  id : ℕ
  value : ℕ
deriving DecidableEq

/-- A session, as the pool sees it. -/
structure Session where
  phase : ClosePhase
  streams : List UInt32
  streamID : UInt32
  keepOnce : Bool
  writeLocked : Bool
  idleSince : ℤ
  element : Option ℕ
  reserved : Bool
  controls : ℕ

/-- `IsClosed`. -/
def Session.isClosed (s : Session) : Bool := s.phase ≠ .live

/-- `hasStreams`. -/
def Session.hasStreams (s : Session) : Bool := 0 < s.streams.length

/-- Where a call of `DialContext` is; `idle` if its session was taken from the list. -/
inductive Dialer
  | took (session : ℕ) (idle : Bool)
  | opened (session : ℕ) (idle : Bool) (ok : Bool)
  | finished (session : ℕ) (ok : Bool)
  | wantCreate
  | dialing
deriving DecidableEq

/-- The session that was handed to a call and that it has not finished with. -/
def Dialer.holds : Dialer → Option ℕ
  | .took s _ => some s
  | .opened s _ _ => some s
  | _ => none

/-- A call of `releaseSession` that has the lock, with the value that it took from `keepOnce`. -/
structure Releasing where
  session : ℕ
  keepOnce : Bool
  second : Bool

/-- The options of a client. -/
structure PoolOptions where
  minIdleSession : ℕ
  maxSessions : ℕ
  maxIdleSessions : ℕ
  maxConcurrentDials : ℕ
  disableReuse : Bool
  cancelableWrites : Bool
  idleTimeout : ℤ

/-- A client with its sessions and the calls that are under way. -/
structure Pool where
  closed : Bool
  creating : ℕ
  sessions : Finset ℕ
  idleSessions : List Element
  session : ℕ → Session
  closeIdle : Bool
  releasing : Option Releasing
  dialers : Multiset Dialer
  nextSession : ℕ
  nextElement : ℕ

/-- A session that was just made. -/
def newClientSession : Session := ⟨.live, [], 0, false, false, 0, none, false, 0⟩

/-- `NewClient`. -/
def newClient : Pool := ⟨false, 0, ∅, [], fun _ => newClientSession, false, none, 0, 0, 0⟩

namespace Pool

/-- The sessions that are handed out. -/
def held (c : Pool) : Multiset ℕ := c.dialers.filterMap Dialer.holds

/-- A session changes. -/
def update (c : Pool) (s : ℕ) (f : Session → Session) : Pool :=
  { c with session := fun t => if t = s then f (c.session t) else c.session t }

/-- An element leaves the list, and its session no longer points to it. -/
def removeElement (c : Pool) (x : Element) : Pool :=
  { c.update x.value (fun s => { s with element := none }) with
    idleSessions := c.idleSessions.filter (·.id ≠ x.id) }

/-- A session leaves the list, if it points to an element. -/
def unlist (c : Pool) (s : ℕ) : Pool :=
  match (c.session s).element with
  | none => c
  | some e => c.removeElement ⟨e, s⟩

/-! ## Dialing -/

/-- `takeIdleSession`. -/
def takeIdleSession (c : Pool) : Option (ℕ × Pool) :=
  if c.closed then none
  else
    match c.idleSessions with
    | [] => none
    | x :: _ =>
      some (x.value, (c.removeElement x).update x.value fun s => { s with reserved := true })

/-- `openStream`: whether it opened one. -/
def openStream (c : Pool) (s : ℕ) : Bool × Pool :=
  let c := c.update s fun t => { t with streamID := t.streamID + 1 }
  if (c.session s).isClosed then (false, c)
  else (true, c.update s fun t => { t with streams := t.streamID :: t.streams })

/-- `finishReservation`. -/
def finishReservation (c : Pool) (s : ℕ) : Pool := c.update s fun t => { t with reserved := false }

/-- The first critical section of `createSession`. -/
def createSession (o : PoolOptions) (c : Pool) : Except String Pool :=
  if c.closed then .error "use of closed network connection"
  else if c.sessions.card + c.creating ≥ o.maxSessions ∨ c.creating ≥ o.maxConcurrentDials then
    .error "anytls: session pool limit"
  else .ok { c with creating := c.creating + 1 }

/-- The second one, for a connection that was made. -/
def publishSession (c : Pool) : Option Pool :=
  if c.closed then none
  else
    some { c.update c.nextSession (fun _ => { newClientSession with reserved := true }) with
      sessions := insert c.nextSession c.sessions
      creating := c.creating - 1
      nextSession := c.nextSession + 1 }

/-! ## Control frames and releases -/

/-- `beginControl`. -/
def beginControl (c : Pool) (s : ℕ) : Pool :=
  (c.update s fun t => { t with controls := t.controls + 1 }).unlist s

/-- `endControl`, up to its release. -/
def endControl (c : Pool) (s : ℕ) : Pool :=
  c.update s fun t => { t with controls := t.controls - 1 }

/-- `removeSession`. -/
def removeSession (c : Pool) (s : ℕ) : Pool :=
  let c := c.unlist s
  { c with sessions := c.sessions.erase s }

/-- `releaseSession`, up to the first look at the streams.  Where the source goes on to close the
    session, that is a step of its own. -/
def releaseSession (o : PoolOptions) (c : Pool) (released : ℕ) : Pool :=
  let s := c.session released
  if s.isClosed ∨ c.closed then c.removeSession released
  else if s.reserved ∨ s.controls ≠ 0 then c
  else if o.disableReuse then c
  else
    { c.update released (fun t => { t with keepOnce := false }) with
      releasing := some ⟨released, s.keepOnce, false⟩ }

/-- The first look at the streams. -/
def releaseUnused (c : Pool) (r : Releasing) : Pool :=
  if !(c.session r.session).hasStreams ∧ c.closeIdle ∧ !r.keepOnce then
    { c.unlist r.session with releasing := none }
  else { c with releasing := some { r with second := true } }

/-- The second one. -/
def releaseIdle (o : PoolOptions) (c : Pool) (r : Releasing) (now : ℤ) : Pool :=
  let s := c.session r.session
  if !s.hasStreams ∧ (!o.cancelableWrites ∨ !s.writeLocked) ∧ s.element = none then
    if c.idleSessions.length ≥ o.maxIdleSessions then { c with releasing := none }
    else
      { c.update r.session
          (fun t => { t with idleSince := now, element := some c.nextElement }) with
        idleSessions := ⟨c.nextElement, r.session⟩ :: c.idleSessions
        nextElement := c.nextElement + 1
        releasing := none }
  else { c with releasing := none }

/-! ## Idle sessions -/

/-- `CloseIdleConnections`, up to closing what it took.  Nobody opens a stream on a session of
    the list, so its looks at the streams are one. -/
def closeIdleConnections (c : Pool) : Pool :=
  if c.closed then c
  else
    (c.idleSessions.filter fun x => !(c.session x.value).hasStreams).foldl
      (fun c x => c.unlist x.value) c

/-- What the loop of `cleanupIdleSessions` takes, from the back of the list. -/
def expired (o : PoolOptions) (session : ℕ → Session) (deadline : ℤ) :
    List Element → ℕ → List Element
  | [], _ => []
  | x :: xs, len =>
    if len > o.minIdleSession then
      if ¬ (session x.value).idleSince < deadline then []
      else if (session x.value).hasStreams then expired o session deadline xs len
      else x :: expired o session deadline xs (len - 1)
    else []

/-- `cleanupIdleSessions`, up to closing what it took. -/
def cleanupIdleSessions (o : PoolOptions) (c : Pool) (now : ℤ) : Pool :=
  if c.closed then c
  else
    (expired o c.session (now - o.idleTimeout) c.idleSessions.reverse c.idleSessions.length).foldl
      removeElement c

/-- `Close` of the client, up to closing the sessions. -/
def close (c : Pool) : Pool :=
  if c.closed then c
  else
    { c with
      closed := true
      sessions := ∅
      idleSessions := []
      session := fun s =>
        if s ∈ c.sessions then { c.session s with element := none } else c.session s }

end Pool

/-! ## Steps -/

open Pool in
/-- One step of anyone; `hlock` says that it is a critical section. -/
inductive PoolStep (o : PoolOptions) : Pool → Pool → Prop
  | dialIdle {c c' : Pool} {s : ℕ} (hlock : c.releasing = none)
      (h : c.takeIdleSession = some (s, c')) :
      PoolStep o c { c' with dialers := .took s true ::ₘ c.dialers }
  | dialNew {c : Pool} (hlock : c.releasing = none) (h : c.takeIdleSession = none) :
      PoolStep o c { c with dialers := .wantCreate ::ₘ c.dialers }
  | openStream {c : Pool} {s : ℕ} {idle : Bool} {rest : Multiset Dialer}
      (h : c.dialers = .took s idle ::ₘ rest) :
      PoolStep o c { (c.openStream s).2 with dialers := .opened s idle (c.openStream s).1 ::ₘ rest }
  | finishIdle {c : Pool} {s : ℕ} {ok : Bool} {rest : Multiset Dialer} (hlock : c.releasing = none)
      (h : c.dialers = .opened s true ok ::ₘ rest) :
      PoolStep o c { c.finishReservation s with dialers := .finished s ok ::ₘ rest }
  | finishNew {c : Pool} {s : ℕ} {ok : Bool} {rest : Multiset Dialer} (hlock : c.releasing = none)
      (h : c.dialers = .opened s false ok ::ₘ rest) :
      PoolStep o c { c.finishReservation s with dialers := rest }
  | dialReturn {c : Pool} {s : ℕ} {rest : Multiset Dialer}
      (h : c.dialers = .finished s true ::ₘ rest)
      (hlive : (c.session s).isClosed = false) : PoolStep o c { c with dialers := rest }
  | dialAgain {c : Pool} {s : ℕ} {ok : Bool} {rest : Multiset Dialer}
      (h : c.dialers = .finished s ok ::ₘ rest) (hfail : ok = false ∨ (c.session s).isClosed) :
      PoolStep o c { c with dialers := .wantCreate ::ₘ rest }
  | createRefused {c : Pool} {rest : Multiset Dialer} (hlock : c.releasing = none)
      (h : c.dialers = .wantCreate ::ₘ rest) : PoolStep o c { c with dialers := rest }
  | create {c c' : Pool} {rest : Multiset Dialer} (hlock : c.releasing = none)
      (h : c.dialers = .wantCreate ::ₘ rest) (hok : createSession o c = .ok c') :
      PoolStep o c { c' with dialers := .dialing ::ₘ rest }
  | createFailed {c : Pool} {rest : Multiset Dialer} (hlock : c.releasing = none)
      (h : c.dialers = .dialing ::ₘ rest) :
      PoolStep o c { c with creating := c.creating - 1, dialers := rest }
  | publish {c c' : Pool} {rest : Multiset Dialer} (hlock : c.releasing = none)
      (h : c.dialers = .dialing ::ₘ rest) (hok : c.publishSession = some c') :
      PoolStep o c { c' with dialers := .took c.nextSession false ::ₘ rest }
  | beginControl {c : Pool} {s : ℕ} (hlock : c.releasing = none) (hs : s < c.nextSession) :
      PoolStep o c (c.beginControl s)
  | endControl {c : Pool} {s : ℕ} (hlock : c.releasing = none) (hs : 0 < (c.session s).controls) :
      PoolStep o c (c.endControl s)
  | release {c : Pool} {s : ℕ} (hlock : c.releasing = none) (hs : s < c.nextSession) :
      PoolStep o c (releaseSession o c s)
  | releaseUnused {c : Pool} {r : Releasing} (h : c.releasing = some r) (hr : r.second = false) :
      PoolStep o c (c.releaseUnused r)
  | releaseIdle {c : Pool} {r : Releasing} (now : ℤ) (h : c.releasing = some r)
      (hr : r.second = true) : PoolStep o c (releaseIdle o c r now)
  | finishStream {c : Pool} (s : ℕ) (id : UInt32) :
      PoolStep o c (c.update s fun t => { t with streams := t.streams.filter (· ≠ id) })
  | closeDone {c : Pool} {s : ℕ} (h : (c.session s).phase = .live) (hs : s < c.nextSession) :
      PoolStep o c (c.update s fun t => { t with phase := .done })
  | closeStreams {c : Pool} {s : ℕ} (h : (c.session s).phase = .done) :
      PoolStep o c (c.update s fun t => { t with phase := .cleared, streams := [] })
  | closeRemove {c : Pool} {s : ℕ} (hlock : c.releasing = none)
      (h : (c.session s).phase = .cleared) :
      PoolStep o c ((c.removeSession s).update s fun t => { t with phase := .removed })
  | keepOnce {c : Pool} (s : ℕ) : PoolStep o c (c.update s fun t => { t with keepOnce := true })
  | writeLock {c : Pool} (s : ℕ) (locked : Bool) :
      PoolStep o c (c.update s fun t => { t with writeLocked := locked })
  | setCloseIdle {c : Pool} (b : Bool) : PoolStep o c { c with closeIdle := b }
  | closeIdleConnections {c : Pool} (hlock : c.releasing = none) :
      PoolStep o c c.closeIdleConnections
  | cleanup {c : Pool} (now : ℤ) (hlock : c.releasing = none) :
      PoolStep o c (cleanupIdleSessions o c now)
  | close {c : Pool} (hlock : c.releasing = none) : PoolStep o c c.close

end XrayCore.AnyTls
