/-
  XrayCore.Shadowsocks2022.Authenticate

  What a call of `DecodePacket` or `decodeUDPPacket` leaves of the sessions when the packet
  is rejected.

  A session of the table is decoded in place, so what its decoding has changed stays
  changed; `InSession` follows that along every exit.  `settle` says that an exit with an
  error has changed nothing, and that what is left otherwise is what `Packet` has.
-/

import XrayCore.Shadowsocks2022.MultiUser
import XrayCore.Shadowsocks2022.PacketReplay

namespace XrayCore.Shadowsocks2022

open Bytes Machine Wire Option Function

/-! ## Decoding in place -/

/-- A computation under the lock of a session: the error, and the session as it is then. -/
abbrev InSession := ExceptT String (StateT ServerUDPSession Option)

/-- What does not touch the session. -/
def still {α : Type} (x : Result α) : InSession α := fun s => x.run.map fun r => (r, s)

namespace UDPCodec

/-- `DecryptAESPayload`. -/
def decryptAESPayloadIn (c : UDPCodec) (now : ℤ) (pre : Prepared) (bodyCipher : Bytes) :
    InSession DecodedUDPPacket := do
  let s ← get
  still (reject (s.closed = true) errInvalidRequest)
  still (reject (s.window.any fun w => !w.check pre.packetID) "packet id not unique")
  let bodyAead ← still (s.bodyAead (c.bodyCipher pre.rawHeader))
  let bodyPlain ← still (found (bodyAead ((pre.rawHeader.take 16).drop 4) bodyCipher)
    "failed to decrypt aes udp body")
  let decoded ← still
    (parsePlainUDPPacket c.keys.outOfRange now pre.sessionID pre.packetID bodyPlain)
  still (reject (decoded.headerType ≠ headerTypeClient) errBadHeaderType)
  modify fun s => { s with window := some ((s.window.getD .empty).add pre.packetID) }
  modify fun s' => if s.clientBodyCipher.isNone then { s' with clientBodyCipher := some bodyAead }
    else s'
  return decoded

/-- What `authenticate` is given for ChaCha. -/
def checkChaChaIn (pre : Prepared) (decoded : DecodedUDPPacket) : InSession DecodedUDPPacket := do
  modify fun s => { s with window := some (s.window.getD .empty) }
  let s ← get
  let unique := (s.window.getD .empty).checkAndAdd pre.packetID
  modify fun s => { s with window := some unique.2 }
  if unique.1 then return decoded else throw "packet id not unique"

/-- The packet under the lock of its session. -/
def decodeInPlace (c : UDPCodec) (now : ℤ) (data : Bytes) (pre : Prepared) :
    InSession DecodedUDPPacket :=
  match pre.decoded with
  | some decoded => checkChaChaIn pre decoded
  | none => c.decryptAESPayloadIn now pre (data.drop 16)

end UDPCodec

/-! ## What an exit leaves -/

/-- The session after a decoding, and the session before it where there was an error. -/
def settle {α : Type} (s : ServerUDPSession) (x : Result (α × ServerUDPSession)) :
    Option (Except String α × ServerUDPSession) :=
  x.run.map fun
    | .ok (a, s') => (.ok a, s')
    | .error e => (.error e, s)

theorem settle_error {α : Type} {s s' : ServerUDPSession} {x : Result (α × ServerUDPSession)}
    {e : String} (h : settle s x = some (.error e, s')) : s' = s := by
  obtain ⟨r, -, hr⟩ := map_eq_some_iff.mp h
  split at hr
  · nomatch (Prod.mk.inj hr).1
  · exact (Prod.mk.inj hr).2.symm

/-- What does not touch the session comes first. -/
theorem settle_still {α β : Type} {s : ServerUDPSession} (x : Result α) {f : α → InSession β}
    {g : α → Result (β × ServerUDPSession)} (h : ∀ a, (f a).run.run s = settle s (g a)) :
    (still x >>= f).run.run s = settle s (x >>= g) := by
  cases hx : x.run with
  | none =>
    simp only [settle, ExceptT.run_bind, hx]
    show (still x >>= f) s = none
    simp [still, hx, bind, ExceptT.bind, ExceptT.mk, StateT.bind]
  | some r =>
    cases r with
    | error e =>
      simp only [settle, ExceptT.run_bind, hx]
      show (still x >>= f) s = some (.error e, s)
      simp [still, hx, bind, ExceptT.bind, ExceptT.mk, StateT.bind, ExceptT.bindCont, pure,
        StateT.pure]
    | ok a =>
      rw [settle, Result.run_bind_of_ok hx]
      refine Eq.trans ?_ (h a)
      show (still x >>= f) s = f a s
      simp [still, hx, bind, ExceptT.bind, ExceptT.mk, StateT.bind, ExceptT.bindCont]

section

variable {α : Type} (s : ServerUDPSession)

@[simp] theorem run_get (f : ServerUDPSession → InSession α) :
    (get >>= f).run.run s = (f s).run.run s := rfl

@[simp] theorem run_modify (g : ServerUDPSession → ServerUDPSession) (f : Unit → InSession α) :
    (modify g >>= f).run.run s = (f ()).run.run (g s) := rfl

@[simp] theorem run_still_pure {β : Type} (a : β) (f : β → InSession α) :
    (still (pure a) >>= f).run.run s = (f a).run.run s := rfl

@[simp] theorem run_pure (a : α) : (pure a : InSession α).run.run s = some (.ok a, s) := rfl

@[simp] theorem run_throw (e : String) :
    (throw e : InSession α).run.run s = some (.error e, s) := rfl

@[simp] theorem settle_pure (a : α) (s' : ServerUDPSession) :
    settle s (pure (a, s')) = some (.ok a, s') := rfl

@[simp] theorem settle_throw (e : String) :
    settle s (throw e : Result (α × ServerUDPSession)) = some (.error e, s) := rfl

end

namespace UDPCodec

variable {c : UDPCodec} {now : ℤ} {pre : Prepared}

/-- The session changes when the last check is passed. -/
theorem settle_decryptAESPayload (s : ServerUDPSession) (body : Bytes) :
    (c.decryptAESPayloadIn now pre body).run.run s =
      settle s (c.decryptAESPayload s now pre body) := by
  unfold decryptAESPayloadIn decryptAESPayload
  rw [run_get]
  refine settle_still _ fun _ => settle_still _ fun _ => ?_
  cases hcipher : s.clientBodyCipher with
  | none =>
    refine settle_still _ fun aead => settle_still _ fun _ => settle_still _ fun _ =>
      settle_still _ fun _ => ?_
    rw [run_modify, run_modify, run_pure, settle_pure]
    rfl
  | some kept =>
    -- the cipher that the session has is the one it keeps
    have hkept : s.bodyAead (c.bodyCipher pre.rawHeader) = pure kept := by
      rw [ServerUDPSession.bodyAead, hcipher]
    rw [hkept, run_still_pure, pure_bind]
    refine settle_still _ fun _ => settle_still _ fun _ => settle_still _ fun _ => ?_
    rw [run_modify, run_modify, run_pure, settle_pure, hcipher]
    rfl

/-- An empty window takes any packet id. -/
theorem checkAndAdd_empty (id : ℕ) : (SlidingWindow.empty.checkAndAdd id).1 = true := by
  have h := SlidingWindow.exact_empty.taken_iff id
  exact h.mpr ⟨List.not_mem_nil, .inl ⟨fun _ h => absurd h List.not_mem_nil, .inr List.not_mem_nil⟩⟩

theorem settle_checkChaCha (s : ServerUDPSession) (decoded : DecodedUDPPacket) :
    (checkChaChaIn pre decoded).run.run s = settle s (checkChaCha s pre decoded) := by
  unfold checkChaChaIn checkChaCha
  rw [run_modify, run_get, run_modify]
  dsimp only [getD_some]
  by_cases hunique : ((s.window.getD .empty).checkAndAdd pre.packetID).1 = true
  · rw [if_pos hunique, if_pos hunique, run_pure, settle_pure]
  · -- only a window that is there can refuse, and it stays as it is
    rw [if_neg hunique, if_neg hunique, run_throw, settle_throw]
    cases hwindow : s.window with
    | none =>
      rw [hwindow] at hunique
      exact absurd (checkAndAdd_empty pre.packetID) hunique
    | some w =>
      rw [hwindow, getD_some] at hunique
      have hsame : (w.checkAndAdd pre.packetID).2 = w := by
        unfold SlidingWindow.checkAndAdd at hunique ⊢
        split at hunique
        · exact absurd rfl hunique
        · next hcheck => rw [if_neg hcheck]
      rw [getD_some, hsame, ← hwindow]

theorem settle_decodeIn (s : ServerUDPSession) (data : Bytes) :
    (c.decodeInPlace now data pre).run.run s = settle s (c.decodeIn s now data pre) := by
  unfold decodeInPlace decodeIn
  cases pre.decoded with
  | some decoded => exact settle_checkChaCha s decoded
  | none => exact settle_decryptAESPayload s _

end UDPCodec

/-! ## The table -/

/-- A session in the table, with its owner if the inbound has users. -/
structure OwnedSession (P : Type) where
  user : Option P
  session : ServerUDPSession

/-- `UDPSessionManager`: the sessions that a decode can find. -/
structure SessionTable (P : Type) where
  sessions : ℕ → Option (OwnedSession P)
  closed : Bool

namespace SessionTable

variable {P : Type} [DecidableEq P]

/-- `authenticate`: a session of the table is decoded where it is, and one that is made for the
    packet is put there behind the last error. -/
def authenticate (m : SessionTable P) (id : ℕ) (user : Option P)
    (decode : InSession DecodedUDPPacket) (now : ℤ) :
    Option (Except String DecodedUDPPacket × SessionTable P) :=
  if m.closed then some (.error errInvalidRequest, m)
  else
    let s := (m.sessions id).getD ⟨user, .new⟩
    if s.session.closed ∨ (user.isSome ∧ s.user ≠ user) then some (.error errInvalidRequest, m)
    else
      (decode.run.run s.session).map fun
        | (.error e, session) =>
          (.error e, if (m.sessions id).isSome
            then { m with sessions := update m.sessions id (some { s with session }) }
            else m)
        | (.ok p, session) =>
          (.ok p, { m with
            sessions := update m.sessions id (some { s with session := session.touch now }) })

/-- `UDPCodec.DecodePacket`, by the times at which it looks at the clock. -/
def decodePacket (c : UDPCodec) (m : SessionTable P) (data : Bytes)
    (prepareTime now touchTime : ℤ) : Option (Except String DecodedUDPPacket × SessionTable P) :=
  match (c.prepare prepareTime data).run with
  | none => none
  | some (.error e) => some (.error e, m)
  | some (.ok pre) => m.authenticate pre.sessionID none (c.decodeInPlace now data pre) touchTime

/-- `MultiUserInbound.decodeUDPPacket`. -/
def decodeUDPPacket (i : MultiUserMethod P) (usersByHash : Bytes → Option P)
    (m : SessionTable P) (sessionID packetID : ℕ) (rawHeader packet : Bytes)
    (now touchTime : ℤ) : Option (Except String DecodedUDPPacket × SessionTable P) :=
  match usersByHash (MultiUserInbound.decryptUDPEIH i rawHeader ((packet.take 32).drop 16)) with
  | none => some (.error errInvalidRequest, m)
  | some user =>
    m.authenticate sessionID (some user)
      ((i.codec ((i.user user).account.getD [])).decryptAESPayloadIn now
        ⟨sessionID, packetID, rawHeader, none⟩ (packet.drop 32)) touchTime

variable {m m' : SessionTable P} {e : String}

/-- Where decoding settles, an error leaves the table as it was. -/
theorem authenticate_error {id : ℕ} {user : Option P} {decode : InSession DecodedUDPPacket}
    {settled : ServerUDPSession → Result (DecodedUDPPacket × ServerUDPSession)}
    (hdecode : ∀ s, decode.run.run s = settle s (settled s)) {now : ℤ}
    (h : m.authenticate id user decode now = some (.error e, m')) : m' = m := by
  unfold authenticate at h
  dsimp only at h
  split at h
  · exact (Prod.mk.inj (some.inj h)).2.symm
  · split at h
    · exact (Prod.mk.inj (some.inj h)).2.symm
    · obtain ⟨⟨r, session⟩, hr, hout⟩ := map_eq_some_iff.mp h
      cases r with
      | ok p => nomatch (Prod.mk.inj hout).1
      | error err =>
        rw [hdecode] at hr
        obtain rfl := settle_error hr
        rw [← (Prod.mk.inj hout).2]
        split
        · next hsome =>
          -- the session is put back as it was
          obtain ⟨s, hs⟩ := isSome_iff_exists.mp hsome
          rw [hs, getD_some]
          show { m with sessions := update m.sessions id (some s) } = m
          rw [← hs, update_eq_self]
        · rfl

/-- A packet that is rejected changes nothing in the table: no session, no owner, window or
    cipher of one. -/
theorem rejected_changes_nothing :
    (∀ (c : UDPCodec) (m m' : SessionTable P) (data : Bytes) (prepareTime now touchTime : ℤ)
      (e : String), m.decodePacket c data prepareTime now touchTime = some (.error e, m') →
        m' = m) ∧
    ∀ (i : MultiUserMethod P) (usersByHash : Bytes → Option P) (m m' : SessionTable P)
      (sessionID packetID : ℕ) (rawHeader packet : Bytes) (now touchTime : ℤ) (e : String),
      m.decodeUDPPacket i usersByHash sessionID packetID rawHeader packet now touchTime =
        some (.error e, m') → m' = m := by
  refine ⟨?_, ?_⟩
  · intro c m m' data prepareTime now touchTime e h
    unfold decodePacket at h
    split at h
    · nomatch h
    · exact (Prod.mk.inj (some.inj h)).2.symm
    · exact authenticate_error (fun s => UDPCodec.settle_decodeIn s data) h
  · intro i usersByHash m m' sessionID packetID rawHeader packet now touchTime e h
    unfold decodeUDPPacket at h
    split at h
    · exact (Prod.mk.inj (some.inj h)).2.symm
    · exact authenticate_error (fun s => UDPCodec.settle_decryptAESPayload s _) h

open UDPSessionManager (taggedCodec firstPacket) in
/-- A packet that comes once more. -/
theorem rejected_changes_nothing_replayed : ∃ p, ∃ m : SessionTable Unit,
    decodePacket taggedCodec ⟨fun _ => none, false⟩ firstPacket 100 100 100 = some (.ok p, m) ∧
    decodePacket taggedCodec m firstPacket 101 101 101 =
      some (.error "packet id not unique", m) := by
  obtain ⟨p, m, hfirst, m', hagain⟩ : ∃ p, ∃ m : SessionTable Unit,
      decodePacket taggedCodec ⟨fun _ => none, false⟩ firstPacket 100 100 100 = some (.ok p, m) ∧
      ∃ m', decodePacket taggedCodec m firstPacket 101 101 101 =
        some (.error "packet id not unique", m') := ⟨_, _, rfl, _, rfl⟩
  obtain rfl := rejected_changes_nothing.1 _ _ _ _ _ _ _ _ hagain
  exact ⟨p, m', hfirst, hagain⟩

end SessionTable

end XrayCore.Shadowsocks2022
