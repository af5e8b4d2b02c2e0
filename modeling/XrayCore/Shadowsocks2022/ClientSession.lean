/-
  XrayCore.Shadowsocks2022.ClientSession

  The packets that a client gets back, and the two sessions of the server it knows.

  The session of a packet is looked up by the header, before the packet is authenticated;
  and the lookup itself makes a new session the current one, or drops an old one.  So a
  packet that is rejected afterwards has changed the sessions just when its lookup has
  (`rejected_unchanged_iff`).
-/

import XrayCore.Shadowsocks2022.Packet

namespace XrayCore.Shadowsocks2022

open Bytes Machine Wire Option

/-! ## The session -/

/-- `serverSessionState`; a window that is not there yet is one that has seen nothing. -/
structure ServerSessionState where
  sessionID : ℕ
  window : SlidingWindow
  cipher : Option Opening
  lastSeen : ℤ

/-- `ClientUDPSession`, as far as decoding goes. -/
structure ClientUDPSession where
  clientSessionID : ℕ
  current : Option ServerSessionState
  old : Option ServerSessionState

/-- Which of the two sessions a lookup finds. -/
inductive Slot where
  | current
  | old

namespace ClientUDPSession

def get (s : ClientUDPSession) : Slot → Option ServerSessionState
  | .current => s.current
  | .old => s.old

def set (s : ClientUDPSession) (st : ServerSessionState) : Slot → ClientUDPSession
  | .current => { s with current := some st }
  | .old => { s with old := some st }

/-- The session that is new to the client becomes the current one. -/
def adopt (s : ClientUDPSession) (st : ServerSessionState) : ClientUDPSession :=
  match s.current with
  | none => { s with current := some st }
  | some cur => { s with old := some cur, current := some st }

/-- `getServerSession`; `bodyAead` is the cipher of a new session, if it can be made. -/
def getServerSession (s : ClientUDPSession) (sessionID : ℕ) (now : ℤ)
    (bodyAead : Except String (Option Opening)) : Except String Slot × ClientUDPSession :=
  if s.current.any fun cur => cur.sessionID = sessionID then (.ok .current, s)
  else
    match s.old with
    | some old =>
      if old.sessionID = sessionID then
        if now - old.lastSeen > 60 then
          (.error "old server session expired", { s with old := none })
        else (.ok .old, s)
      else if now - old.lastSeen < 60 then
        (.error "newer server session rejected: old session is less than 1 minute old", s)
      else create
    | none => create
where
  create : Except String Slot × ClientUDPSession :=
    match bodyAead with
    | .error e => (.error e, s)
    | .ok cipher => (.ok .current, s.adopt ⟨sessionID, .empty, cipher, now⟩)

/-- What `DecodePacket` knows of a packet before it looks up its session: for ChaCha all of
    it. -/
structure Opened where
  sessionID : ℕ
  packetID : ℕ
  rawHeader : Bytes
  plain : Option Bytes

/-- `DecodePacket` up to the lookup. -/
def opened (c : UDPCodec) (data : Bytes) : Result Opened := do
  reject (data.length < 30) errPacketTooShort
  if c.isChaCha then
    reject (data.length < 24 + aeadTagSize) errPacketTooShort
    let plain ← found (c.chachaCipher (data.take 24) (data.drop 24))
      "failed to decrypt chacha udp packet"
    reject (plain.length < 16 + 1 + 8 + 2) errPacketTooShort
    return ⟨bigEndian (plain.take 8), bigEndian ((plain.take 16).drop 8), [], some plain⟩
  else
    let rawHeader := c.blockDecrypt (data.take 16)
    let session ← checked (slice rawHeader 0 8)
    let packet ← checked (slice rawHeader 8 16)
    return ⟨bigEndian session, bigEndian packet, rawHeader, none⟩

/-- The cipher of a new session; ChaCha has one for all. -/
def newCipher (c : UDPCodec) (o : Opened) : Except String (Option Opening) :=
  match o.plain with
  | some _ => .ok none
  | none => (c.bodyCipher o.rawHeader).map some

/-- `DecodePacket` behind the lookup, in the session that it found. -/
def decodeIn (c : UDPCodec) (clientSessionID : ℕ) (st : ServerSessionState) (o : Opened)
    (data : Bytes) (now : ℤ) : Result DecodedUDPPacket := do
  reject (st.window.check o.packetID = false) "packet id not unique"
  let bodyPlain ← match o.plain with
    | some plain => pure (plain.drop 16)
    | none => do
      let bodyAead ← checked st.cipher
      found (bodyAead ((o.rawHeader.take 16).drop 4) (data.drop 16))
        "failed to decrypt aes udp body"
  let decoded ← parsePlainUDPPacket c.keys.outOfRange now o.sessionID o.packetID bodyPlain
  reject (decoded.headerType ≠ headerTypeServer) errBadHeaderType
  reject (decoded.clientSessionID ≠ clientSessionID) "client session ID mismatch"
  return decoded

/-- `DecodePacket`, by the times at which it looks at the clock: the packet, and the session
    after it. -/
def decodePacket (c : UDPCodec) (s : ClientUDPSession) (data : Bytes) (now parseTime : ℤ) :
    Option (Except String DecodedUDPPacket × ClientUDPSession) :=
  match (opened c data).run with
  | none => none
  | some (.error e) => some (.error e, s)
  | some (.ok o) =>
    match s.getServerSession o.sessionID now (newCipher c o) with
    | (.error e, s') => some (.error e, s')
    | (.ok slot, s') =>
      (s'.get slot).bind fun st =>
        (decodeIn c s.clientSessionID st o data parseTime).run.map fun
          | .error e => (.error e, s')
          | .ok p => (.ok p, s'.set
              { st with window := st.window.add o.packetID, lastSeen := now } slot)

/-! ## What a rejected packet changes -/

/-- The lookup changes the sessions: the old one is asked for and expired, or a new one is
    taken. -/
def Rotates (s : ClientUDPSession) (sessionID : ℕ) (now : ℤ)
    (bodyAead : Except String (Option Opening)) : Prop :=
  (∀ cur, s.current = some cur → cur.sessionID ≠ sessionID) ∧
    ((∃ old, s.old = some old ∧ old.sessionID = sessionID ∧ 60 < now - old.lastSeen) ∨
      (∀ old, s.old = some old → old.sessionID ≠ sessionID ∧ 60 ≤ now - old.lastSeen) ∧
        ∃ cipher, bodyAead = .ok cipher)

theorem adopt_ne (s : ClientUDPSession) {st : ServerSessionState}
    (h : ∀ cur, s.current = some cur → cur.sessionID ≠ st.sessionID) : s.adopt st ≠ s := by
  intro heq
  have hcurrent : (s.adopt st).current = some st := by
    unfold adopt
    split <;> rfl
  rw [heq] at hcurrent
  exact h st hcurrent rfl

variable {s s' : ClientUDPSession} {sessionID : ℕ} {now : ℤ}
  {bodyAead : Except String (Option Opening)}

theorem create_eq_iff (h : ∀ cur, s.current = some cur → cur.sessionID ≠ sessionID) :
    (getServerSession.create s sessionID now bodyAead).2 = s ↔
      ¬ ∃ cipher, bodyAead = .ok cipher := by
  unfold getServerSession.create
  cases bodyAead with
  | error e => simp
  | ok cipher => simpa using s.adopt_ne h

/-- A lookup leaves the sessions as they are, unless it rotates them. -/
theorem getServerSession_eq_iff (s : ClientUDPSession) (sessionID : ℕ) (now : ℤ)
    (bodyAead : Except String (Option Opening)) :
    (s.getServerSession sessionID now bodyAead).2 = s ↔ ¬ s.Rotates sessionID now bodyAead := by
  unfold getServerSession Rotates
  by_cases hcur : s.current.any (fun cur => cur.sessionID = sessionID) = true
  · rw [if_pos hcur]
    obtain ⟨cur, hsome, hid⟩ := (any_eq_true _ _).mp hcur
    simp only [true_iff, not_and]
    intro hother
    exact absurd (of_decide_eq_true hid) (hother cur hsome)
  · rw [if_neg hcur]
    have hother : ∀ cur, s.current = some cur → cur.sessionID ≠ sessionID := by
      intro cur hsome hid
      rw [hsome] at hcur
      simp [hid] at hcur
    cases hold : s.old with
    | none =>
      rw [create_eq_iff hother]
      refine not_congr ⟨fun hcipher => ⟨hother, .inr ⟨nofun, hcipher⟩⟩, ?_⟩
      rintro ⟨-, ⟨_, hold', -⟩ | ⟨-, hcipher⟩⟩
      · nomatch hold'
      · exact hcipher
    | some old =>
      dsimp only
      by_cases hid : old.sessionID = sessionID
      · rw [if_pos hid]
        by_cases hexpired : now - old.lastSeen > 60
        · -- the old session is forgotten before the packet is opened
          rw [if_pos hexpired]
          have hne : ({ s with old := none } : ClientUDPSession) ≠ s := by
            intro heq
            have := congrArg ClientUDPSession.old heq
            rw [hold] at this
            nomatch this
          simp only [hne, false_iff, not_not]
          exact ⟨hother, .inl ⟨old, rfl, hid, hexpired⟩⟩
        · rw [if_neg hexpired]
          simp only [true_iff]
          rintro ⟨-, ⟨old', hold', -, hexpired'⟩ | ⟨hnew, -⟩⟩
          · obtain rfl := some.inj hold'
            exact hexpired hexpired'
          · exact (hnew old rfl).1 hid
      · rw [if_neg hid]
        by_cases hrecent : now - old.lastSeen < 60
        · rw [if_pos hrecent]
          simp only [true_iff]
          rintro ⟨-, ⟨old', hold', hid', -⟩ | ⟨hnew, -⟩⟩
          · obtain rfl := some.inj hold'
            exact hid hid'
          · have := (hnew old rfl).2
            omega
        · rw [if_neg hrecent, create_eq_iff hother]
          refine not_congr ⟨fun hcipher => ⟨hother, .inr ⟨?_, hcipher⟩⟩, ?_⟩
          · intro old' hold'
            obtain rfl := some.inj hold'
            exact ⟨hid, not_lt.mp hrecent⟩
          · rintro ⟨-, ⟨old', hold', hid', -⟩ | ⟨-, hcipher⟩⟩
            · obtain rfl := some.inj hold'
              exact absurd hid' hid
            · exact hcipher

/-- A packet that is rejected leaves the sessions as they were exactly if its lookup, where it
    comes that far, does not rotate them. -/
theorem rejected_unchanged_iff {c : UDPCodec} {data : Bytes} {now parseTime : ℤ} {e : String}
    (h : decodePacket c s data now parseTime = some (.error e, s')) :
    s' = s ↔ ∀ o, (opened c data).run = some (.ok o) →
      ¬ s.Rotates o.sessionID now (newCipher c o) := by
  unfold decodePacket at h
  split at h
  · nomatch h
  · next hopened =>
    obtain ⟨-, rfl⟩ := Prod.mk.inj (some.inj h)
    refine ⟨fun _ o ho => ?_, fun _ => rfl⟩
    rw [hopened] at ho
    nomatch ho
  · next o hopened =>
    -- whatever comes behind the lookup, the sessions are those that it left
    have hleft : s' = (s.getServerSession o.sessionID now (newCipher c o)).2 := by
      split at h
      · next hlookup =>
        obtain ⟨-, rfl⟩ := Prod.mk.inj (some.inj h)
        rw [hlookup]
      · next hlookup =>
        rw [hlookup]
        obtain ⟨st, -, h⟩ := bind_eq_some_iff.mp h
        obtain ⟨r, -, hr⟩ := map_eq_some_iff.mp h
        split at hr
        · exact (Prod.mk.inj hr).2.symm
        · nomatch (Prod.mk.inj hr).1
    rw [hleft, getServerSession_eq_iff]
    refine ⟨fun hnot o' ho' => ?_, fun hall => hall o hopened⟩
    obtain rfl : o = o' := by
      rw [hopened] at ho'
      exact Except.ok.inj (some.inj ho')
    exact hnot

/-- A codec whose ciphers take no packet. -/
def deafCodec : UDPCodec where
  isChaCha := false
  keys := { tagged with newAEAD := fun _ => .ok fun _ _ => none }
  chachaCipher _ _ := none
  blockDecrypt := id

/-- A client that has heard of session 7 at 100. -/
def heardOfSeven : ClientUDPSession :=
  ⟨1, some ⟨7, .empty, some fun _ _ => none, 100⟩, none⟩

/-- Nothing but a session id, of which only the last byte is not zero. -/
def forged (id : UInt8) : Bytes := List.replicate 7 0 ++ id :: List.replicate 40 0

theorem rejected_unchanged_of_current :
    (decodePacket deafCodec heardOfSeven (forged 7) 100 100).map (·.1.toOption) = some none ∧
      ∀ e s', decodePacket deafCodec heardOfSeven (forged 7) 100 100 = some (.error e, s') →
        s' = heardOfSeven := by
  refine ⟨by decide, fun e s' h => (rejected_unchanged_iff h).mpr fun o ho hrotates => ?_⟩
  have hid : ((opened deafCodec (forged 7)).run.map fun r => r.map (·.sessionID)) =
      some (.ok 7) := by decide
  rw [ho] at hid
  exact hrotates.1 _ rfl (Except.ok.inj (some.inj hid)).symm

/-- A packet that no cipher takes becomes the session of the server, and the session that the
    client has heard of is the old one. -/
theorem forged_packet_rotates :
    (decodePacket deafCodec heardOfSeven (forged 8) 100 100).map
        (fun r => (r.1.toOption, r.2.current.map (·.sessionID), r.2.old.map (·.sessionID))) =
      some (none, some 8, some 7) := by
  decide

end ClientUDPSession

end XrayCore.Shadowsocks2022
