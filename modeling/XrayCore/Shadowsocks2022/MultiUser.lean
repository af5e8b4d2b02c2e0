/-
  XrayCore.Shadowsocks2022.MultiUser

  Users of a `MultiUserInbound` that come and go while packets arrive.

  `AddUser`, `RemoveUser` and `decodeUDPPacket` hold the lock of the inbound; a session is
  closed under its own lock only, by a timer or by whoever uses it, between any two steps
  of theirs.  Users and sessions are known by their pointers, so that a session lives on in
  the hands of a call after it left the table.

  `Range` of a `sync.Map` visits what is in the map when it starts, each key once; an entry
  that is deleted meanwhile may be visited or not.  Nothing is stored during the scan of
  `RemoveUser`, since only `decodeUDPPacket` stores sessions.

  `revoked` are the keys of users that were removed and not added since, `answers` the
  users whose packets were decoded.
-/

import XrayCore.Shadowsocks2022.Packet

namespace XrayCore.Shadowsocks2022

open Bytes Machine Wire Function

/-! ## Users -/

/-- `protocol.MemoryUser`; the key of its account, if that is a `MemoryAccount`. -/
structure MemoryUser where
  email : String
  account : Option Bytes

/-- What an inbound works with: the users behind the pointers, `strings.ToLower`, and the
    method with its hashes and ciphers. -/
structure MultiUserMethod (P : Type) where
  user : P → MemoryUser
  toLower : String → String
  keySaltLength : ℕ
  deriveUserPSKHash : Bytes → Bytes
  masterDecrypt : Bytes → Bytes
  codec : Bytes → UDPCodec
  /-- A text that is not empty stays so in lower case. -/
  htoLower : ∀ text, toLower text = "" → text = ""

def errBadKey : String := "bad key"

/-! ## The inbound -/

/-- A `ServerUDPSession` in memory, with its id and its owner. -/
structure SessionObject (P : Type) where
  sessionID : ℕ
  user : P
  session : ServerUDPSession

/-- How far a call of `decodeUDPPacket` is. -/
inductive Stage
  | loaded
  | checked
  | decoded
  | published
deriving DecidableEq

/-- A call of `decodeUDPPacket` behind the lookup of its user. -/
structure Decode (P : Type) where
  pre : Prepared
  body : Bytes
  user : P
  object : ℕ
  isNew : Bool
  stage : Stage

/-- A call of `RemoveUser` that scans the sessions: those still to visit, and the one it found
    to be owned by the user and has not closed yet. -/
structure Removal (P : Type) where
  user : P
  todo : List (ℕ × ℕ)
  owned : Option ℕ

/-- Who holds the lock of the inbound. -/
inductive Holder (P : Type)
  | free
  | removing (r : Removal P)
  | decoding (d : Decode P)

structure MultiUserInbound (P : Type) where
  usersByHash : AList fun _ : Bytes => P
  usersByEmail : AList fun _ : String => P
  userCount : ℤ
  closed : Bool
  sessions : AList fun _ : ℕ => ℕ
  objects : ℕ → SessionObject P
  allocated : ℕ
  holder : Holder P
  revoked : List Bytes
  answers : List P

variable {P : Type} [DecidableEq P]

namespace MultiUserInbound

/-- The inbound before its first user. -/
def new (objects : ℕ → SessionObject P) : MultiUserInbound P :=
  ⟨∅, ∅, 0, false, ∅, objects, 0, .free, [], []⟩

/-- `AddUser`. -/
def addUser (m : MultiUserMethod P) (i : MultiUserInbound P) (u : P) :
    Except String (MultiUserInbound P) :=
  let email := (m.user u).email
  let emailKey := if email = "" then "" else m.toLower email
  if email ≠ "" ∧ (i.usersByEmail.lookup emailKey).isSome then
    .error ("user " ++ email ++ " already exists")
  else match (m.user u).account with
    | none => .error "missing or invalid user account"
    | some key =>
      if key.length ≠ m.keySaltLength then .error errBadKey
      else
        let pskHash := m.deriveUserPSKHash key
        if (i.usersByHash.lookup pskHash).isSome then .error "user key already exists"
        else .ok { i with
          usersByHash := i.usersByHash.insert pskHash u
          usersByEmail := if emailKey ≠ "" then i.usersByEmail.insert emailKey u
            else i.usersByEmail
          userCount := i.userCount + 1
          revoked := i.revoked.filter (· ≠ key) }

/-- `RemoveUser` up to its scan of the sessions. -/
def removeUser (m : MultiUserMethod P) (i : MultiUserInbound P) (email : String) :
    Except String (MultiUserInbound P) :=
  if email = "" then .error "email must not be empty"
  else
    let emailKey := m.toLower email
    match i.usersByEmail.lookup emailKey with
    | none => .error ("user " ++ email ++ " not found")
    | some u =>
      let pskHash := m.deriveUserPSKHash ((m.user u).account.getD [])
      .ok { i with
        usersByEmail := i.usersByEmail.erase emailKey
        usersByHash := i.usersByHash.erase pskHash
        userCount := i.userCount - 1
        holder := .removing ⟨u, i.sessions.entries.map fun e => (e.1, e.2), none⟩ }

/-- `Close` of a session, with `CompareAndDelete` on the table. -/
def closeSession (i : MultiUserInbound P) (p : ℕ) : MultiUserInbound P :=
  let o := i.objects p
  if o.session.closed then i
  else { i with
    objects := update i.objects p { o with session := { o.session with closed := true } }
    sessions := if i.sessions.lookup o.sessionID = some p then i.sessions.erase o.sessionID
      else i.sessions }

/-- `DecryptUDPEIH`. -/
def decryptUDPEIH (m : MultiUserMethod P) (rawHeader eih : Bytes) : Bytes :=
  List.zipWith (· ^^^ ·) (m.masterDecrypt eih) rawHeader

/-- `processUDP` and `decodeUDPPacket` up to the session that `authenticate` finds or makes. -/
def loadSession (m : MultiUserMethod P) (i : MultiUserInbound P) (packet : Bytes) :
    Except String (MultiUserInbound P) :=
  if packet.length < 32 + 1 + 8 + 2 then .error errPacketTooShort
  else
    let rawHeader := m.masterDecrypt (packet.take 16)
    let sessionID := bigEndian (rawHeader.take 8)
    let packetID := bigEndian ((rawHeader.take 16).drop 8)
    match i.usersByHash.lookup (decryptUDPEIH m rawHeader ((packet.take 32).drop 16)) with
    | none => .error errInvalidRequest
    | some u =>
      if i.closed then .error errInvalidRequest
      else
        let pre : Prepared := ⟨sessionID, packetID, rawHeader, none⟩
        match i.sessions.lookup sessionID with
        | some p => .ok { i with
            holder := .decoding ⟨pre, packet.drop 32, u, p, false, .loaded⟩ }
        | none => .ok { i with
            objects := update i.objects i.allocated ⟨sessionID, u, .new⟩
            allocated := i.allocated + 1
            holder := .decoding ⟨pre, packet.drop 32, u, i.allocated, true, .loaded⟩ }

/-- `authenticate` asks whether the session was closed or is another user's. -/
def checkSession (i : MultiUserInbound P) (d : Decode P) : MultiUserInbound P :=
  let o := i.objects d.object
  if o.session.closed ∨ o.user ≠ d.user then { i with holder := .free }
  else { i with holder := .decoding { d with stage := .checked } }

/-- `DecryptAESPayload` with the key of the user; `none` where it panics. -/
def decodeSession (m : MultiUserMethod P) (i : MultiUserInbound P) (d : Decode P) (now : ℤ) :
    Option (MultiUserInbound P) :=
  let o := i.objects d.object
  let c := m.codec ((m.user d.user).account.getD [])
  match (c.decryptAESPayload o.session now d.pre d.body).run with
  | none => none
  | some (.error _) => some { i with holder := .free }
  | some (.ok (_, session)) => some { i with
      objects := update i.objects d.object { o with session := session }
      holder := .decoding { d with stage := .decoded } }

/-- A new session goes into the table. -/
def publishSession (i : MultiUserInbound P) (d : Decode P) : MultiUserInbound P :=
  { i with
    sessions := if d.isNew then i.sessions.insert d.pre.sessionID d.object else i.sessions
    holder := .decoding { d with stage := .published } }

/-- `touch`, and the call returns what it decoded. -/
def touchSession (i : MultiUserInbound P) (d : Decode P) (now : ℤ) : MultiUserInbound P :=
  let o := i.objects d.object
  { i with
    objects := update i.objects d.object { o with session := o.session.touch now }
    holder := .free
    answers := i.answers ++ [d.user] }

/-! ## Runs -/

/-- A session that others can reach: one that a call has made for itself is its own until it is
    in the table. -/
def Shared (i : MultiUserInbound P) (p : ℕ) : Bool :=
  match i.holder with
  | .decoding d => decide (d.object ≠ p) || !d.isNew || decide (d.stage = .published)
  | _ => true

end MultiUserInbound

/-- What may happen next: a call gets the lock or goes on, a session is closed, or the inbound
    is. -/
inductive UserAction (P : Type)
  | addUser (u : P)
  | removeUser (email : String)
  | visit (entry : ℕ × ℕ)
  | skip (entry : ℕ × ℕ)
  | closeOwned
  | removed
  | load (packet : Bytes)
  | check
  | decode (now : ℤ)
  | publish
  | touch (now : ℤ)
  | close (p : ℕ)
  | shut

namespace MultiUserInbound

/-- A call that failed leaves the inbound as it was. -/
def orSame (i : MultiUserInbound P) : Except String (MultiUserInbound P) → MultiUserInbound P
  | .error _ => i
  | .ok i' => i'

/-- One step of the scan of `RemoveUser`. -/
def scan (m : MultiUserMethod P) (i : MultiUserInbound P) (r : Removal P) :
    UserAction P → Option (MultiUserInbound P)
  | .visit entry =>
    if entry ∈ r.todo ∧ r.owned = none then
      let owned := if (i.objects entry.2).user = r.user then some entry.2 else none
      some { i with holder := .removing ⟨r.user, r.todo.erase entry, owned⟩ }
    else none
  | .skip entry =>
    if entry ∈ r.todo ∧ r.owned = none ∧ i.sessions.lookup entry.1 ≠ some entry.2 then
      some { i with holder := .removing ⟨r.user, r.todo.erase entry, none⟩ }
    else none
  | .closeOwned => r.owned.map fun p =>
      { i.closeSession p with holder := .removing ⟨r.user, r.todo, none⟩ }
  | .removed =>
    if r.todo = [] ∧ r.owned = none then
      some { i with holder := .free, revoked := (m.user r.user).account.getD [] :: i.revoked }
    else none
  | .shut => some { i with closed := true }
  | _ => none

/-- One step of `authenticate`. -/
def authenticate (m : MultiUserMethod P) (i : MultiUserInbound P) (d : Decode P) :
    UserAction P → Option (MultiUserInbound P)
  | .check => if d.stage = .loaded then some (i.checkSession d) else none
  | .decode now => if d.stage = .checked then i.decodeSession m d now else none
  | .publish => if d.stage = .decoded then some (i.publishSession d) else none
  | .touch now => if d.stage = .published then some (i.touchSession d now) else none
  | _ => none

/-- One step of a run; `none` where it cannot happen. -/
def step (m : MultiUserMethod P) (i : MultiUserInbound P) :
    UserAction P → Option (MultiUserInbound P)
  | .close p => if p < i.allocated ∧ i.Shared p then some (i.closeSession p) else none
  | a =>
    match i.holder with
    | .free =>
      match a with
      | .addUser u => some (i.orSame (i.addUser m u))
      | .removeUser email => some (i.orSame (i.removeUser m email))
      | .load packet => some (i.orSame (i.loadSession m packet))
      | .shut => some { i with closed := true }
      | _ => none
    | .removing r => i.scan m r a
    | .decoding d => i.authenticate m d a

end MultiUserInbound

end XrayCore.Shadowsocks2022
