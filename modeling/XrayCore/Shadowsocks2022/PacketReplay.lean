/-
  XrayCore.Shadowsocks2022.PacketReplay

  No packet is decoded twice while its session is kept.

  A packet that was decoded stays in the window of its session (`Kept`) until its timestamp
  is too old, if the session is not closed within a minute of its last packet.  A session
  that is closed sooner takes what it has seen with it.
-/

import XrayCore.Shadowsocks2022.Packet

namespace XrayCore.Shadowsocks2022

open Bytes Machine Wire Option Function Result

/-! ## What a packet is -/

namespace UDPCodec

variable {c : UDPCodec}

/-- The header of a packet. -/
def headerOf (c : UDPCodec) (data : Bytes) : Bytes :=
  if c.isChaCha then (c.chachaCipher (data.take 24) (data.drop 24)).getD []
  else c.blockDecrypt (data.take 16)

/-- The session id of a packet. -/
def sessionOf (c : UDPCodec) (data : Bytes) : ℕ := bigEndian ((c.headerOf data).take 8)

/-- The packet id of a packet. -/
def packetOf (c : UDPCodec) (data : Bytes) : ℕ := bigEndian (((c.headerOf data).take 16).drop 8)

/-- The body of a packet. -/
def bodyOf (c : UDPCodec) (data : Bytes) : Option Bytes :=
  if c.isChaCha then (c.chachaCipher (data.take 24) (data.drop 24)).map (·.drop 16)
  else (c.bodyCipher (c.headerOf data)).toOption.bind fun aead =>
    aead (((c.headerOf data).take 16).drop 4) (data.drop 16)

/-- The timestamp of a packet. -/
def timestampOf (c : UDPCodec) (data : Bytes) : Option ℕ :=
  (c.bodyOf data).bind fun body => (slice body 1 9).map bigEndian

variable {pre : Prepared} {data : Bytes} {now : ℤ}

/-- What is prepared: for ChaCha all of the packet, otherwise its header. -/
theorem prepare_cases (h : (c.prepare now data).run = some (.ok pre)) :
    (c.isChaCha = true ∧ ∃ body decoded, c.bodyOf data = some body ∧
        (parsePlainUDPPacket c.keys.outOfRange now (c.sessionOf data) (c.packetOf data) body).run =
          some (.ok decoded) ∧
        pre = ⟨c.sessionOf data, c.packetOf data, [], some decoded⟩) ∨
      (c.isChaCha = false ∧ 16 ≤ (c.headerOf data).length ∧
        pre = ⟨c.sessionOf data, c.packetOf data, c.headerOf data, none⟩) := by
  unfold prepare at h
  obtain ⟨_, -, h⟩ := bind_ok h
  unfold sessionOf packetOf headerOf bodyOf
  split at h
  · next hchacha =>
    simp only [if_pos hchacha]
    obtain ⟨_, -, h⟩ := bind_ok h
    obtain ⟨plain, hplain, h⟩ := bind_ok h
    obtain ⟨_, -, h⟩ := bind_ok h
    obtain ⟨decoded, hparse, h⟩ := bind_ok h
    obtain ⟨_, -, h⟩ := bind_ok h
    obtain rfl := Except.ok.inj (some.inj h)
    rw [found_ok hplain]
    exact .inl ⟨hchacha, _, decoded, rfl, hparse, rfl⟩
  · next hchacha =>
    simp only [if_neg hchacha]
    obtain ⟨session, hsession, h⟩ := bind_ok h
    obtain ⟨packet, hpacket, h⟩ := bind_ok h
    obtain rfl := Except.ok.inj (some.inj h)
    have hs := checked_ok hsession
    have hp := checked_ok hpacket
    unfold slice at hs hp
    split at hs
    · split at hp
      · next hlen =>
        obtain rfl := some.inj hs
        obtain rfl := some.inj hp
        exact .inr ⟨Bool.eq_false_iff.mpr hchacha, hlen.2, rfl⟩
      · nomatch hp
    · nomatch hs

theorem prepare_ids (h : (c.prepare now data).run = some (.ok pre)) :
    pre.sessionID = c.sessionOf data ∧ pre.packetID = c.packetOf data := by
  rcases prepare_cases h with ⟨-, _, _, -, -, rfl⟩ | ⟨-, -, rfl⟩ <;> exact ⟨rfl, rfl⟩

variable {p : DecodedUDPPacket}

/-- A packet that is parsed has a timestamp near the clock, as the code compares them. -/
theorem parse_timestamp {out : ℤ} {sid pid : ℕ} {body : Bytes}
    (h : (parsePlainUDPPacket out now sid pid body).run = some (.ok p)) :
    ∃ epoch, (slice body 1 9).map bigEndian = some epoch ∧ timestampDiff out now epoch ≤ 30 := by
  unfold parsePlainUDPPacket at h
  obtain ⟨_, -, h⟩ := bind_ok h
  obtain ⟨headerType, -, h⟩ := bind_ok h
  obtain ⟨_, -, h⟩ := bind_ok h
  obtain ⟨epoch, hepoch, h⟩ := bind_ok h
  obtain ⟨_, hdiff, h⟩ := bind_ok h
  exact ⟨_, congrArg (Option.map bigEndian) (checked_ok hepoch),
    not_lt.mp (reject_ok hdiff)⟩

/-- The cipher that a session keeps is that of its packets. -/
def Ciphered (c : UDPCodec) (s : ServerUDPSession) (id : ℕ) : Prop :=
  ∀ aead, s.clientBodyCipher = some aead → ∀ header : Bytes, 8 ≤ header.length →
    bigEndian (header.take 8) = id → c.bodyCipher header = .ok aead

/-- What decoding a packet in a session does. -/
structure Decoding (s s' : ServerUDPSession) (packetID : ℕ) : Prop where
  fresh : ∀ w, s.window = some w → w.check packetID = true
  window : s'.window = some ((s.window.getD .empty).add packetID)
  closed : s'.closed = s.closed

variable {s' s : ServerUDPSession}

theorem decryptAESPayload_ok {body : Bytes}
    (h : (c.decryptAESPayload s now pre body).run = some (.ok (p, s'))) :
    Decoding s s' pre.packetID := by
  unfold decryptAESPayload at h
  obtain ⟨_, -, h⟩ := bind_ok h
  obtain ⟨_, hcheck, h⟩ := bind_ok h
  obtain ⟨aead, -, h⟩ := bind_ok h
  obtain ⟨plain, -, h⟩ := bind_ok h
  obtain ⟨decoded, -, h⟩ := bind_ok h
  obtain ⟨_, -, h⟩ := bind_ok h
  obtain ⟨-, rfl⟩ := Prod.mk.inj (Except.ok.inj (some.inj h))
  refine ⟨?_, rfl, rfl⟩
  intro w hw
  have hnot := reject_ok hcheck
  rw [hw, any_some] at hnot
  simpa using hnot

theorem decodeIn_ok (h : (c.decodeIn s now data pre).run = some (.ok (p, s'))) :
    Decoding s s' pre.packetID := by
  unfold decodeIn at h
  split at h
  · unfold checkChaCha SlidingWindow.checkAndAdd at h
    by_cases hcheck : (s.window.getD .empty).check pre.packetID = true
    · simp only [hcheck, if_true] at h
      obtain ⟨-, rfl⟩ := Prod.mk.inj (Except.ok.inj (some.inj h))
      refine ⟨?_, rfl, rfl⟩
      intro w hw
      rw [hw] at hcheck
      exact hcheck
    · simp only [hcheck] at h
      nomatch h
  · exact decryptAESPayload_ok h

/-- The cipher of the bodies only depends on the session. -/
theorem bodyCipher_congr {header header' : Bytes} (h : 8 ≤ header.length)
    (h' : 8 ≤ header'.length) (hid : bigEndian (header.take 8) = bigEndian (header'.take 8)) :
    c.bodyCipher header = c.bodyCipher header' := by
  have hlen : (header.take 8).length = (header'.take 8).length := by
    rw [List.length_take_of_le h, List.length_take_of_le h']
  rw [bodyCipher, bodyCipher, bigEndian_inj hlen hid]

/-- When the timestamp of a packet is compared with the clock. -/
def checkTime (c : UDPCodec) (prepareTime now : ℤ) : ℤ := if c.isChaCha then prepareTime else now

/-- What is decoded has a timestamp near the clock, and leaves the right cipher. -/
theorem decodeIn_timestamp {prepareTime : ℤ}
    (hpre : (c.prepare prepareTime data).run = some (.ok pre)) (hs : c.Ciphered s pre.sessionID)
    (h : (c.decodeIn s now data pre).run = some (.ok (p, s'))) :
    c.Ciphered s' pre.sessionID ∧ ∃ epoch, c.timestampOf data = some epoch ∧
      timestampDiff c.keys.outOfRange (c.checkTime prepareTime now) epoch ≤ 30 := by
  rcases prepare_cases hpre with ⟨hchacha, body, decoded, hbody, hparse, rfl⟩ | ⟨haes, hlen, rfl⟩
  · obtain ⟨epoch, hepoch, hdiff⟩ := parse_timestamp hparse
    unfold decodeIn checkChaCha at h
    simp only at h
    split at h
    · obtain ⟨-, rfl⟩ := Prod.mk.inj (Except.ok.inj (some.inj h))
      refine ⟨hs, epoch, ?_, ?_⟩
      · rw [timestampOf, hbody]
        exact hepoch
      · rw [checkTime, if_pos hchacha]
        exact hdiff
    · nomatch h
  · unfold decodeIn decryptAESPayload at h
    obtain ⟨_, -, h⟩ := bind_ok h
    obtain ⟨_, -, h⟩ := bind_ok h
    obtain ⟨aead, haead, h⟩ := bind_ok h
    obtain ⟨plain, hplain, h⟩ := bind_ok h
    obtain ⟨decoded, hparse, h⟩ := bind_ok h
    obtain ⟨_, -, h⟩ := bind_ok h
    obtain ⟨-, rfl⟩ := Prod.mk.inj (Except.ok.inj (some.inj h))
    obtain ⟨epoch, hepoch, hdiff⟩ := parse_timestamp hparse
    -- kept or new, it is the cipher of the session
    have hcipher : c.bodyCipher (c.headerOf data) = .ok aead := by
      unfold ServerUDPSession.bodyAead at haead
      split at haead
      · next hkept =>
        obtain rfl := Except.ok.inj (some.inj haead)
        exact hs _ hkept _ (Nat.le_trans (by decide) hlen) rfl
      · exact some.inj haead
    refine ⟨?_, epoch, ?_, ?_⟩
    · intro aead' haead' header hheader hid
      obtain rfl := some.inj haead'
      exact (bodyCipher_congr hheader (Nat.le_trans (by decide) hlen) hid).trans hcipher
    · have hbody : c.bodyOf data = some plain := by
        rw [bodyOf, if_neg (by simp [haes]), hcipher]
        exact found_ok hplain
      rw [timestampOf, hbody]
      exact hepoch
    · rw [checkTime, if_neg (by simp [haes])]
      exact hdiff

end UDPCodec

/-! ## What is kept -/

/-- A session has seen a packet id. -/
def ServerUDPSession.Seen (s : ServerUDPSession) (packetID : ℕ) : Prop :=
  ∃ w, s.window = some w ∧ w.Holds packetID

variable {packetID : ℕ} {s s' : ServerUDPSession}

theorem UDPCodec.Decoding.seen (h : Decoding s s' packetID) : s'.Seen packetID :=
  ⟨_, h.window, SlidingWindow.holds_add _ _⟩

theorem UDPCodec.Decoding.seen_of_seen {id : ℕ} (h : Decoding s s' packetID) (hs : s.Seen id) :
    s'.Seen id := by
  obtain ⟨w, hw, hholds⟩ := hs
  refine ⟨_, h.window, ?_⟩
  rw [hw]
  exact hholds.add packetID

theorem UDPCodec.Decoding.not_seen (h : Decoding s s' packetID) : ¬ s.Seen packetID := by
  rintro ⟨w, hw, hholds⟩
  have hfresh := h.fresh w hw
  rw [hholds.check_eq_false] at hfresh
  nomatch hfresh

namespace UDPSessionManager

variable {c : UDPCodec} {m m' : UDPSessionManager}

/-- A packet that was decoded is too old, or its session has seen it. -/
def Kept (c : UDPCodec) (m : UDPSessionManager) (data : Bytes) : Prop :=
  ∃ epoch, c.timestampOf data = some epoch ∧ (wrap64 epoch + 30 < m.clock ∨
    ∃ s, m.sessions (c.sessionOf data) = some s ∧ s.Seen (c.packetOf data))

/-- What holds of a packet that is decoded but not yet accepted. -/
structure Pending (c : UDPCodec) (m : UDPSessionManager) (f : InFlight) : Prop where
  seen : f.session.Seen (c.packetOf f.data)
  stamped : ∃ epoch, c.timestampOf f.data = some epoch
  new : ∀ a ∈ m.accepted, a.1 ≠ f.data

/-- What holds of the call that has the lock. -/
structure Flying (c : UDPCodec) (m : UDPSessionManager) (f : InFlight) : Prop where
  prepared : (c.prepare f.prepareTime f.data).run = some (.ok f.pre)
  ciphered : c.Ciphered f.session f.pre.sessionID
  opened : m.closed = false ∧ f.session.closed = false
  table : m.sessions f.pre.sessionID = if f.published then some f.session else none
  pending : ∀ p, f.decoded = some p → Pending c m f

variable {f : InFlight}

theorem Flying.session (h : Flying c m f) : f.pre.sessionID = c.sessionOf f.data :=
  (UDPCodec.prepare_ids h.prepared).1

theorem Flying.packet (h : Flying c m f) : f.pre.packetID = c.packetOf f.data :=
  (UDPCodec.prepare_ids h.prepared).2

/-- What holds of a session in the table. -/
structure Active (c : UDPCodec) (id : ℕ) (s : ServerUDPSession) : Prop where
  opened : s.closed = false
  ciphered : c.Ciphered s id

structure Inv (c : UDPCodec) (m : UDPSessionManager) : Prop where
  active : ∀ id s, m.sessions id = some s → Active c id s
  flying : ∀ f, m.inFlight = some f → Flying c m f
  kept : m.closed = false → ∀ a ∈ m.accepted, Kept c m a.1
  distinct : m.accepted.Pairwise fun a b => a.1 ≠ b.1

theorem inv_new (c : UDPCodec) (now : ℤ) : Inv c (new now) := by
  refine ⟨?_, ?_, ?_, .nil⟩
  · intro id s h
    nomatch h
  · intro f h
    nomatch h
  · intro _ a h
    nomatch h

/-- Time goes on. -/
theorem Inv.tick (h : Inv c m) {now : ℤ} (hnow : m.clock ≤ now) :
    Inv c { m with clock := now } := by
  refine ⟨h.active, fun f hf => ?_, fun hclosed a ha => ?_, h.distinct⟩
  · have hfly := h.flying f hf
    refine ⟨hfly.prepared, hfly.ciphered, hfly.opened, hfly.table, fun p hp => ?_⟩
    have hpending := hfly.pending p hp
    exact ⟨hpending.seen, hpending.stamped, hpending.new⟩
  · obtain ⟨epoch, hepoch, hold | hseen⟩ := h.kept hclosed a ha
    · exact ⟨epoch, hepoch, .inl (lt_of_lt_of_le hold hnow)⟩
    · exact ⟨epoch, hepoch, .inr hseen⟩

theorem Inv.lock (h : Inv c m) {data : Bytes} {prepareTime : ℤ}
    (hlock : m.lock c data prepareTime = some m') : Inv c m' := by
  unfold UDPSessionManager.lock at hlock
  split at hlock
  · nomatch hlock
  · obtain rfl := some.inj hlock
    exact h
  · next pre hpre =>
    split at hlock
    · obtain rfl := some.inj hlock
      exact h
    · next hclosed =>
      obtain rfl := some.inj hlock
      -- a new session is open and has no cipher
      have hsession : ((m.sessions pre.sessionID).getD .new).closed = false ∧
          c.Ciphered ((m.sessions pre.sessionID).getD .new) pre.sessionID := by
        cases hs : m.sessions pre.sessionID with
        | none => exact ⟨rfl, nofun⟩
        | some s => exact ⟨(h.active _ s hs).opened, (h.active _ s hs).ciphered⟩
      refine ⟨h.active, ?_, h.kept, h.distinct⟩
      intro f hf
      obtain rfl := some.inj hf
      refine ⟨hpre, hsession.2, ⟨Bool.eq_false_iff.mpr hclosed, hsession.1⟩, ?_, nofun⟩
      simp only
      cases m.sessions pre.sessionID <;> rfl

/-- A packet whose timestamp is not too old is decoded only if it was not before. -/
theorem Inv.new_of_decoding (h : Inv c m) (hfly : Flying c m f) {s' : ServerUDPSession}
    (hdec : UDPCodec.Decoding f.session s' f.pre.packetID) {epoch : ℕ}
    (hepoch : c.timestampOf f.data = some epoch) (hfresh : m.clock ≤ wrap64 epoch + 30) :
    ∀ a ∈ m.accepted, a.1 ≠ f.data := by
  intro a ha hsame
  obtain ⟨epoch', hepoch', hkept⟩ := h.kept hfly.opened.1 a ha
  rw [hsame] at hepoch' hkept
  obtain rfl := some.inj (hepoch.symm.trans hepoch')
  rcases hkept with hold | ⟨s, hs, hseen⟩
  · omega
  · have htable := hfly.table
    rw [hfly.session, hs] at htable
    split at htable
    · rw [some.inj htable, ← hfly.packet] at hseen
      exact hdec.not_seen hseen
    · nomatch htable

theorem Inv.decode (h : Inv c m) (hf : m.inFlight = some f)
    (hdecode : m.decode c f m.clock = some m')
    (htimely : ∀ epoch, c.timestampOf f.data = some epoch →
      timestampDiff c.keys.outOfRange (c.checkTime f.prepareTime m.clock) epoch ≤ 30 →
        |m.clock - wrap64 epoch| ≤ 30) : Inv c m' := by
  have hfly := h.flying f hf
  unfold UDPSessionManager.decode at hdecode
  split at hdecode
  · nomatch hdecode
  · obtain rfl := some.inj hdecode
    refine ⟨h.active, ?_, h.kept, h.distinct⟩
    intro f' hf'
    nomatch hf'
  · next p session hrun =>
    have hdec := UDPCodec.decodeIn_ok hrun
    obtain ⟨hciphered, epoch, hepoch, hdiff⟩ :=
      UDPCodec.decodeIn_timestamp hfly.prepared hfly.ciphered hrun
    have hbounds := abs_le.mp (htimely epoch hepoch hdiff)
    have hnew := h.new_of_decoding hfly hdec hepoch (by omega)
    -- the table has the session as it is now, if it had it
    have hsessions : (if f.published ∧ ¬ f.session.closed then
        update m.sessions f.pre.sessionID (some session) else m.sessions) =
        if f.published then update m.sessions f.pre.sessionID (some session)
        else m.sessions := by
      simp [hfly.opened.2]
    rw [hsessions] at hdecode
    obtain rfl := some.inj hdecode
    constructor
    · intro id s hs
      simp only at hs
      split at hs
      · next hpub =>
        by_cases hid : id = f.pre.sessionID
        · rw [hid, update_self] at hs
          obtain rfl := some.inj hs
          exact ⟨hdec.closed.trans hfly.opened.2, hid ▸ hciphered⟩
        · rw [update_of_ne hid] at hs
          exact h.active id s hs
      · exact h.active id s hs
    · intro f' hf'
      obtain rfl := some.inj hf'
      refine ⟨hfly.prepared, hciphered, ⟨hfly.opened.1, hdec.closed.trans hfly.opened.2⟩, ?_, ?_⟩
      · simp only
        split
        · exact update_self ..
        · next hpub =>
          have htable := hfly.table
          rwa [if_neg hpub] at htable
      · intro p' _
        refine ⟨?_, ⟨epoch, hepoch⟩, hnew⟩
        rw [← hfly.packet]
        exact hdec.seen
    · intro hclosed a ha
      obtain ⟨epoch', hepoch', hold | ⟨s, hs, hseen⟩⟩ := h.kept hclosed a ha
      · exact ⟨epoch', hepoch', .inl hold⟩
      · refine ⟨epoch', hepoch', .inr ?_⟩
        simp only
        split
        · next hpub =>
          by_cases hid : c.sessionOf a.1 = f.pre.sessionID
          · have htable := hfly.table
            rw [if_pos hpub, ← hid, hs] at htable
            obtain rfl := some.inj htable
            rw [hid]
            exact ⟨session, update_self .., hdec.seen_of_seen hseen⟩
          · exact ⟨s, (update_of_ne hid ..).trans hs, hseen⟩
        · exact ⟨s, hs, hseen⟩
    · exact h.distinct

theorem touch_of_open {s : ServerUDPSession} (h : s.closed = false) (now : ℤ) :
    (s.touch now).window = s.window ∧ (s.touch now).closed = false ∧
      (s.touch now).clientBodyCipher = s.clientBodyCipher := by
  unfold ServerUDPSession.touch
  rw [if_neg (by simp [h])]
  exact ⟨rfl, h, rfl⟩

theorem Inv.publish (h : Inv c m) (hf : m.inFlight = some f) {p : DecodedUDPPacket}
    (hp : f.decoded = some p) : Inv c (m.publish f p m.clock) := by
  have hfly := h.flying f hf
  have hpending := hfly.pending p hp
  obtain ⟨hwindow, hopen, hcipher⟩ := touch_of_open hfly.opened.2 m.clock
  have hsessions : (m.publish f p m.clock).sessions =
      update m.sessions f.pre.sessionID (some (f.session.touch m.clock)) := by
    simp [UDPSessionManager.publish, hfly.opened.2]
  constructor
  · intro id s hs
    rw [hsessions] at hs
    by_cases hid : id = f.pre.sessionID
    · rw [hid, update_self] at hs
      obtain rfl := some.inj hs
      refine ⟨hopen, ?_⟩
      unfold UDPCodec.Ciphered
      rw [hcipher, hid]
      exact hfly.ciphered
    · rw [update_of_ne hid] at hs
      exact h.active id s hs
  · intro f' hf'
    nomatch hf'
  · intro hclosed a ha
    unfold Kept
    rw [hsessions]
    rcases List.mem_cons.mp ha with rfl | ha
    · obtain ⟨epoch, hepoch⟩ := hpending.stamped
      refine ⟨epoch, hepoch, .inr ⟨f.session.touch m.clock, ?_, ?_⟩⟩
      · rw [← hfly.session, update_self]
      · unfold ServerUDPSession.Seen
        rw [hwindow]
        exact hpending.seen
    · obtain ⟨epoch, hepoch, hold | ⟨s, hs, hseen⟩⟩ := h.kept hclosed a ha
      · exact ⟨epoch, hepoch, .inl hold⟩
      · refine ⟨epoch, hepoch, .inr ?_⟩
        by_cases hid : c.sessionOf a.1 = f.pre.sessionID
        · have htable := hfly.table
          rw [← hid, hs] at htable
          split at htable
          · obtain rfl := some.inj htable
            refine ⟨f.session.touch m.clock, hid ▸ update_self .., ?_⟩
            unfold ServerUDPSession.Seen
            rw [hwindow]
            exact hseen
          · nomatch htable
        · exact ⟨s, (update_of_ne hid ..).trans hs, hseen⟩
  · refine List.Pairwise.cons ?_ h.distinct
    intro a ha hsame
    exact hpending.new a ha hsame.symm

theorem sessions_close (m : UDPSessionManager) (id : ℕ) :
    (m.close id).sessions = update m.sessions id none := rfl

theorem Inv.close (h : Inv c m) {id : ℕ}
    (hold : ∀ a ∈ m.accepted, c.sessionOf a.1 = id → ∀ epoch ∈ c.timestampOf a.1,
      wrap64 epoch + 30 < m.clock)
    (hnot : ∀ f, m.inFlight = some f → f.pre.sessionID ≠ id) : Inv c (m.close id) := by
  have hflight : (m.close id).inFlight = m.inFlight := by
    unfold UDPSessionManager.close
    cases hf : m.inFlight with
    | none => rfl
    | some f => simp [hnot f hf]
  constructor
  · intro id' s hs
    rw [sessions_close] at hs
    by_cases hid : id' = id
    · rw [hid, update_self] at hs
      nomatch hs
    · rw [update_of_ne hid] at hs
      exact h.active id' s hs
  · intro f hf
    rw [hflight] at hf
    have hfly := h.flying f hf
    refine ⟨hfly.prepared, hfly.ciphered, hfly.opened, ?_, ?_⟩
    · rw [sessions_close, update_of_ne (hnot f hf)]
      exact hfly.table
    · intro p hp
      have hpending := hfly.pending p hp
      exact ⟨hpending.seen, hpending.stamped, hpending.new⟩
  · intro hclosed a ha
    obtain ⟨epoch, hepoch, hpast | ⟨s, hs, hseen⟩⟩ := h.kept hclosed a ha
    · exact ⟨epoch, hepoch, .inl hpast⟩
    · by_cases hid : c.sessionOf a.1 = id
      · exact ⟨epoch, hepoch, .inl (hold a ha hid epoch hepoch)⟩
      · exact ⟨epoch, hepoch, .inr ⟨s, (update_of_ne hid ..).trans hs, hseen⟩⟩
  · exact h.distinct

/-! ## Runs -/

/-- A packet whose timestamp passes is looked up while it is within 30 seconds of the clock, and a
    session is closed when the timestamps of its packets are more than 30 seconds old, and not
    under a call. -/
def Timely (c : UDPCodec) (m : UDPSessionManager) : Action → Prop
  | .decode now => ∀ f ∈ m.inFlight, ∀ epoch ∈ c.timestampOf f.data,
    timestampDiff c.keys.outOfRange (c.checkTime f.prepareTime now) epoch ≤ 30 →
      |now - wrap64 epoch| ≤ 30
  | .close id now => (∀ a ∈ m.accepted, c.sessionOf a.1 = id → ∀ epoch ∈ c.timestampOf a.1,
    wrap64 epoch + 30 < now) ∧ ∀ f ∈ m.inFlight, f.pre.sessionID ≠ id
  | _ => True

instance (c : UDPCodec) (m : UDPSessionManager) : (a : Action) → Decidable (Timely c m a)
  | .lock .. => inferInstanceAs (Decidable True)
  | .decode now =>
    inferInstanceAs (Decidable (∀ f ∈ m.inFlight, ∀ epoch ∈ c.timestampOf f.data,
      timestampDiff c.keys.outOfRange (c.checkTime f.prepareTime now) epoch ≤ 30 →
        |now - wrap64 epoch| ≤ 30))
  | .publish _ => inferInstanceAs (Decidable True)
  | .close id now => inferInstanceAs (Decidable ((∀ a ∈ m.accepted, c.sessionOf a.1 = id →
    ∀ epoch ∈ c.timestampOf a.1, wrap64 epoch + 30 < now) ∧
    ∀ f ∈ m.inFlight, f.pre.sessionID ≠ id))
  | .closeAll _ => inferInstanceAs (Decidable True)

theorem Inv.step (h : Inv c m) {a : Action} (htimely : Timely c m a)
    (hstep : m.step c a = some m') :
    Inv c m' := by
  cases a with
  | lock data prepareTime now =>
    rw [UDPSessionManager.step] at hstep
    split at hstep
    · next htime => exact (h.tick htime.1).lock hstep
    · nomatch hstep
  | decode now =>
    rw [UDPSessionManager.step] at hstep
    cases hf : m.inFlight with
    | none =>
      rw [hf] at hstep
      nomatch hstep
    | some f =>
      simp only [hf] at hstep
      split at hstep
      · next htime =>
        exact (h.tick htime.1).decode hf hstep (htimely f hf)
      · nomatch hstep
  | publish now =>
    rw [UDPSessionManager.step] at hstep
    cases hf : m.inFlight with
    | none =>
      rw [hf] at hstep
      nomatch hstep
    | some f =>
      cases hp : f.decoded with
      | none =>
        simp only [hf, hp] at hstep
        nomatch hstep
      | some p =>
        simp only [hf, hp] at hstep
        split at hstep
        · next htime =>
          obtain rfl := some.inj hstep
          exact (h.tick htime).publish hf hp
        · nomatch hstep
  | close id now =>
    rw [UDPSessionManager.step] at hstep
    split at hstep
    · next htime =>
      obtain rfl := some.inj hstep
      exact (h.tick htime).close htimely.1 htimely.2
    · nomatch hstep
  | closeAll now =>
    rw [UDPSessionManager.step] at hstep
    split at hstep
    · next htime =>
      obtain rfl := some.inj hstep
      refine ⟨?_, ?_, nofun, h.distinct⟩
      · intro id s hs
        nomatch hs
      · intro f hf
        rw [show m.inFlight = none from isNone_iff_eq_none.mp htime.2] at hf
        nomatch hf
    · nomatch hstep

/-- A step that meets the condition. -/
def TimelyStep (c : UDPCodec) (m m' : UDPSessionManager) : Prop :=
  ∃ a, Timely c m a ∧ m.step c a = some m'

/-- In every run whose steps are timely no packet is decoded twice. -/
theorem no_packet_twice (c : UDPCodec) (now : ℤ) (m : UDPSessionManager)
    (hreach : Relation.ReflTransGen (TimelyStep c) (new now) m) :
    m.accepted.Pairwise fun a b =>
      ¬ (a.1 = b.1 ∧ a.2.sessionID = b.2.sessionID ∧ a.2.packetID = b.2.packetID) := by
  have hinv : Inv c m := by
    refine reach_closed ?_ (inv_new c now) hreach
    rintro m h m' ⟨a, htimely, hstep⟩
    exact h.step htimely hstep
  exact hinv.distinct.imp fun hne hsame => hne hsame.1

/-- The codec of a server whose ciphers only add a tag. -/
def taggedCodec : UDPCodec where
  isChaCha := true
  keys := tagged
  chachaCipher _ ciphertext := some (ciphertext.take (ciphertext.length - 16))
  blockDecrypt := id

/-- The first packet of session 7 with a timestamp of 100, for port 80 of 1.1.1.1. -/
def firstPacket : Bytes :=
  List.replicate 24 0 ++ ([0, 0, 0, 0, 0, 0, 0, 7] ++ List.replicate 8 0 ++
    [0, 0, 0, 0, 0, 0, 0, 0, 100, 0, 0] ++ [1, 1, 1, 1, 1, 0, 80, 42]) ++ List.replicate 16 0

/-- A call of `DecodePacket` in one second. -/
def decodeAt (data : Bytes) (now : ℤ) : List Action :=
  [.lock data now now, .decode now, .publish now]

theorem no_packet_twice_after_a_minute :
    ∃ m, Relation.ReflTransGen (TimelyStep taggedCodec) (new 100) m ∧
      m.accepted.map Prod.fst = [firstPacket] ∧ m.accepted.Pairwise fun a b =>
        ¬ (a.1 = b.1 ∧ a.2.sessionID = b.2.sessionID ∧ a.2.packetID = b.2.packetID) := by
  have hrun : (run (fun m a => if Timely taggedCodec m a then m.step taggedCodec a else none)
      (decodeAt firstPacket 100 ++ [.lock firstPacket 130 130, .decode 130, .close 7 161])
      (new 100)).map (fun m => m.accepted.map Prod.fst) = some [firstPacket] := by decide
  obtain ⟨m, hm, haccepted⟩ := map_eq_some_iff.mp hrun
  have hreach : Relation.ReflTransGen (TimelyStep taggedCodec) (new 100) m := by
    refine reach_of_run ?_ _ hm
    intro m a m' hstep
    split at hstep
    · next htimely => exact ⟨a, htimely, hstep⟩
    · nomatch hstep
  exact ⟨m, hreach, haccepted, no_packet_twice taggedCodec 100 m hreach⟩

/-- A session that its user closes at once forgets its packets. -/
theorem packet_decoded_twice :
    (run (step taggedCodec) (decodeAt firstPacket 100 ++ [.close 7 100] ++ decodeAt firstPacket 101)
      (new 100)).map (fun m => m.accepted.map fun a => (a.1, a.2.sessionID, a.2.packetID)) =
      some [(firstPacket, 7, 0), (firstPacket, 7, 0)] := by
  decide

end UDPSessionManager

end XrayCore.Shadowsocks2022
