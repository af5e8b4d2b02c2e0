/-
  XrayCore.Vmess.Replay

  Requests that are presented again.

  A request passes the timestamp and the replay filter when its AuthID is matched, and the
  session history when the rest of its header was read.  A timestamp is good for up to 240
  seconds, the filter knows an AuthID for 120 and the history a session for 180: a request
  whose timestamp is a minute or more ahead can outlive both.
-/

import XrayCore.Machine.Run
import XrayCore.Vmess.Request

namespace XrayCore.Vmess

open Antireplay Bytes Machine Wire List Option Function

/-- What a connection sends: the AuthID, and what follows. -/
structure Request where
  authID : Bytes
  data : Bytes
deriving DecidableEq

/-- A request whose AuthID was matched with a user, and when the filter took it. -/
structure Matched (K : Type) where
  request : Request
  user : Bytes
  filterTime : K
deriving DecidableEq

/-- A request that was accepted, and when the history took it. -/
structure Accepted (K : Type) extends Matched K where
  session : SessionID
  historyTime : K
  expireTime : K
deriving DecidableEq

/-- The server: the replay filter, the cache of the session history, the requests between the
    two, and those that were accepted; the clock is that of the last step. -/
structure Server (K : Type) where
  filter : ReplayFilter Bytes K
  cache : SessionID → Option K
  matched : List (Matched K)
  accepted : List (Accepted K)
  clock : K

/-- The steps: an AuthID is matched, by the clock at `now` and with the filter locked at
    `filterTime`; the `i`-th of the matched requests is decoded to its end, with the history
    locked at `now` and a session that expires from `expireTime`; old sessions are removed. -/
inductive Action (K : Type) where
  | matchID (request : Request) (users : List Bytes) (now filterTime : K)
  | decode (i : ℕ) (now expireTime : K)
  | sweep (now lockTime : K)

section

variable {K : Type} [Field K] [LinearOrder K]

/-- The server at the start. -/
def Server.new (now : K) : Server K := ⟨.new 120 now, fun _ => none, [], [], now⟩

/-- The session of a header, and what is behind its first 38 bytes. -/
def sessionOf (user header : Bytes) : Option (SessionID × Bytes × Bytes) :=
  if header.length < 38 then none
  else some (⟨user, (header.take 33).drop 17, (header.take 17).drop 1⟩, header.take 38,
    header.drop 38)

/-- `addIfNotExits`. -/
def addIfNotExits (cache : SessionID → Option K) (session : SessionID) (now expireTime : K) :
    Option (SessionID → Option K) :=
  if (cache session).any fun expire => now < expire then none
  else some (update cache session (some (expireTime + 180)))

/-- `removeExpiredEntries`. -/
def removeExpiredEntries (cache : SessionID → Option K) (now : K) : SessionID → Option K :=
  fun session => (cache session).filter fun expire => ¬ expire < now

/-- The part of `DecodeRequestHeader` behind the AuthID: the cache after it, and the session if
    the request is accepted. -/
def decodeHeader (c : Crypto) (cache : SessionID → Option K) (m : Matched K) (now expireTime : K) :
    Option ((SessionID → Option K) × Option SessionID) :=
  match (openVMessAEADHeader c (c.cmdKey m.user) m.request.authID m.request.data).run with
  | none => none
  | some (.error _) => some (cache, none)
  | some (.ok header) =>
    match sessionOf m.user header with
    | none => some (cache, none)
    | some (session, buffer, rest) =>
      match addIfNotExits cache session now expireTime with
      | none => some (cache, none)
      | some cache' =>
        match decodeRest c buffer rest with
        | .error _ => some (cache', none)
        | .ok _ => some (cache', some session)

variable {c : Crypto}

/-- The session of a request under the key of a user. -/
def SessionIs (c : Crypto) (user : Bytes) (r : Request) (session : SessionID) : Prop :=
  ∃ header buffer rest, (openVMessAEADHeader c (c.cmdKey user) r.authID r.data).run =
      some (.ok header) ∧ sessionOf user header = some (session, buffer, rest)

variable {cache' cache : SessionID → Option K}

/-- Decoding keeps the cache or adds the session of the request to it. -/
theorem decodeHeader_cases {m : Matched K} {now expireTime : K} {result : Option SessionID}
    (h : decodeHeader c cache m now expireTime = some (cache', result)) :
    (cache' = cache ∧ result = none) ∨
      ∃ session, SessionIs c m.user m.request session ∧
        addIfNotExits cache session now expireTime = some cache' ∧
        (result = none ∨ result = some session) := by
  unfold decodeHeader at h
  split at h
  · nomatch h
  · obtain ⟨rfl, rfl⟩ := Prod.mk.inj (some.inj h)
    exact .inl ⟨rfl, rfl⟩
  · next header hopen =>
    split at h
    · obtain ⟨rfl, rfl⟩ := Prod.mk.inj (some.inj h)
      exact .inl ⟨rfl, rfl⟩
    · next session buffer rest hsession =>
      have his : SessionIs c m.user m.request session := ⟨header, buffer, rest, hopen, hsession⟩
      split at h
      · obtain ⟨rfl, rfl⟩ := Prod.mk.inj (some.inj h)
        exact .inl ⟨rfl, rfl⟩
      · next cache'' hadd =>
        split at h
        · obtain ⟨rfl, rfl⟩ := Prod.mk.inj (some.inj h)
          exact .inr ⟨session, his, hadd, .inl rfl⟩
        · obtain ⟨rfl, rfl⟩ := Prod.mk.inj (some.inj h)
          exact .inr ⟨session, his, hadd, .inr rfl⟩

/-- A session that is in the cache stays there until it expires. -/
theorem cached_addIfNotExits {session added : SessionID} {now expireTime limit : K}
    (hadd : addIfNotExits cache added now expireTime = some cache') (hnow : now ≤ expireTime)
    (hsoon : expireTime < limit) (h : ∃ expire, cache session = some expire ∧ limit ≤ expire) :
    ∃ expire, cache' session = some expire ∧ limit ≤ expire := by
  obtain ⟨expire, hexpire, hle⟩ := h
  unfold addIfNotExits at hadd
  split at hadd
  · nomatch hadd
  · next hnot =>
    obtain rfl := some.inj hadd
    by_cases hsame : session = added
    · -- it would not have been added while it was there
      rw [← hsame, hexpire, any_some, decide_eq_true_eq] at hnot
      exact absurd (lt_of_le_of_lt hnow (lt_of_lt_of_le hsoon hle)) hnot
    · exact ⟨expire, (update_of_ne hsame ..).trans hexpire, hle⟩

variable [FloorRing K]

/-- A step; the clock does not go back. -/
def Server.step (c : Crypto) (s : Server K) : Action K → Option (Server K)
  | .matchID request users now filterTime =>
    if s.clock ≤ filterTime ∧ now ≤ filterTime then
      let r := matchAuthID c now filterTime request.authID users s.filter
      match r.1 with
      | .error _ => some { s with filter := r.2, clock := filterTime }
      | .ok user => some { s with
          filter := r.2
          matched := ⟨request, user, filterTime⟩ :: s.matched
          clock := filterTime }
    else none
  | .decode i now expireTime =>
    match s.matched[i]? with
    | none => none
    | some m =>
      if s.clock ≤ now ∧ now ≤ expireTime then
        match decodeHeader c s.cache m now expireTime with
        | none => none
        | some (cache, none) =>
          some { s with cache, matched := s.matched.eraseIdx i, clock := expireTime }
        | some (cache, some session) =>
          some { s with
            cache
            matched := s.matched.eraseIdx i
            accepted := ⟨m, session, now, expireTime⟩ :: s.accepted
            clock := expireTime }
      else none
  | .sweep now lockTime =>
    if s.clock ≤ lockTime ∧ now ≤ lockTime then
      some { s with cache := removeExpiredEntries s.cache now, clock := lockTime }
    else none

/-- Matching leaves the filter or checks the AuthID in it. -/
theorem matchAuthID_cases (c : Crypto) (now filterTime : K) (authID : Bytes)
    (users : List Bytes) (filter : ReplayFilter Bytes K) :
    ((matchAuthID c now filterTime authID users filter).2 = filter ∧
        ∃ err, (matchAuthID c now filterTime authID users filter).1 = .error err) ∨
      ((matchAuthID c now filterTime authID users filter).2 = (filter.check filterTime authID).2 ∧
        ∀ user, (matchAuthID c now filterTime authID users filter).1 = .ok user →
          (filter.check filterTime authID).1 = true) := by
  induction users with
  | nil => exact .inl ⟨rfl, _, rfl⟩
  | cons id users ih =>
    rw [matchAuthID]
    simp only
    split
    · exact ih
    · split
      · exact .inl ⟨rfl, _, rfl⟩
      · split
        · exact .inl ⟨rfl, _, rfl⟩
        · split
          · next htaken => exact .inr ⟨rfl, fun _ _ => htaken⟩
          · exact .inr ⟨rfl, nofun⟩

end

/-! ## What a server remembers -/

section

variable {K : Type} [Field K] [LinearOrder K]

/-- Two requests whose AuthIDs were taken more than 120 seconds apart, if they are the same. -/
def Apart (x y : Matched K) : Prop :=
  x.request.authID = y.request.authID → 120 < |x.filterTime - y.filterTime|

/-- All requests that the filter took and that were not rejected since. -/
def Server.taken (s : Server K) : List (Matched K) := s.matched ++ s.accepted.map Accepted.toMatched

/-- Two requests with the same AuthID and the same encrypted header, whatever follows. -/
def SameHeader (c : Crypto) (a b : Accepted K) : Prop :=
  a.request.authID = b.request.authID ∧ ∃ header more more', a.request.data = header ++ more ∧
    b.request.data = header ++ more' ∧
    ∃ plain, (openVMessAEADHeader c (c.cmdKey a.user) a.request.authID header).run =
      some (.ok plain)

structure Server.Inv (c : Crypto) (s : Server K) : Prop where
  interval : s.filter.interval = 120
  past : ∀ x ∈ s.taken, x.filterTime ≤ s.clock
  remembers : ∀ x ∈ s.taken, s.clock ≤ x.filterTime + 120 →
    s.filter.Remembers x.request.authID x.filterTime
  apart : s.taken.Pairwise Apart
  sessions : ∀ a ∈ s.accepted, SessionIs c a.user a.request a.session
  cached : ∀ a ∈ s.accepted, s.clock < a.expireTime + 180 →
    ∃ expire, s.cache a.session = some expire ∧ a.expireTime + 180 ≤ expire
  distinct : s.accepted.Pairwise fun b a => ¬ SameHeader c a b

variable {c : Crypto} {s s' : Server K}

namespace Server.Inv

/-- Time goes on. -/
theorem tick (h : s.Inv c) {now : K} (hnow : s.clock ≤ now) : { s with clock := now }.Inv c where
  interval := h.interval
  past x hx := (h.past x hx).trans hnow
  remembers x hx hle := h.remembers x hx (hnow.trans hle)
  apart := h.apart
  sessions := h.sessions
  cached a ha hlt := h.cached a ha (lt_of_le_of_lt hnow hlt)
  distinct := h.distinct

theorem sweep (h : s.Inv c) {now : K} (hnow : now ≤ s.clock) :
    { s with cache := removeExpiredEntries s.cache now }.Inv c where
  interval := h.interval
  past := h.past
  remembers := h.remembers
  apart := h.apart
  sessions := h.sessions
  cached a ha hlt := by
    obtain ⟨expire, hexpire, hle⟩ := h.cached a ha hlt
    have hkeep : ¬ expire < now := not_lt.mpr (hnow.trans (hlt.le.trans hle))
    refine ⟨expire, ?_, hle⟩
    simp only [removeExpiredEntries]
    rw [hexpire, filter_some, if_pos (decide_eq_true hkeep)]
  distinct := h.distinct

/-- A matched request is given up. -/
theorem drop (h : s.Inv c) (i : ℕ) : { s with matched := s.matched.eraseIdx i }.Inv c := by
  have hsub : ({ s with matched := s.matched.eraseIdx i } : Server K).taken.Sublist s.taken :=
    (eraseIdx_sublist ..).append_right _
  exact ⟨h.interval, fun x hx => h.past x (hsub.subset hx),
    fun x hx => h.remembers x (hsub.subset hx), h.apart.sublist hsub, h.sessions, h.cached,
      h.distinct⟩

/-- A session comes into the cache. -/
theorem add (h : s.Inv c) {session : SessionID} {now : K} {cache : SessionID → Option K}
    (hadd : addIfNotExits s.cache session now s.clock = some cache) (hnow : now ≤ s.clock) :
    { s with cache }.Inv c :=
  ⟨h.interval, h.past, h.remembers, h.apart, h.sessions, fun a ha hlt =>
    cached_addIfNotExits hadd hnow hlt (h.cached a ha hlt), h.distinct⟩

variable [IsStrictOrderedRing K]

/-- The filter was asked. -/
theorem check (h : s.Inv c) (authID : Bytes) :
    { s with filter := (s.filter.check s.clock authID).2 }.Inv c where
  interval := (ReplayFilter.interval_check ..).trans h.interval
  past := h.past
  remembers x hx hle := by
    apply (h.remembers x hx hle).of_check
    rw [h.interval]
    exact hle
  apart := h.apart
  sessions := h.sessions
  cached := h.cached
  distinct := h.distinct

/-- A request that the filter takes was not taken within the last 120 seconds. -/
theorem matched (h : s.Inv c) {request : Request} {user : Bytes}
    (htaken : (s.filter.check s.clock request.authID).1 = true) :
    { s with
      filter := (s.filter.check s.clock request.authID).2
      matched := ⟨request, user, s.clock⟩ :: s.matched }.Inv c := by
  have hchecked := h.check request.authID
  refine ⟨hchecked.interval, ?_, ?_, ?_, hchecked.sessions, hchecked.cached, h.distinct⟩
  · exact forall_mem_cons.mpr ⟨le_refl _, h.past⟩
  · intro x hx hle
    rcases mem_cons.mp hx with rfl | hx
    · apply ReplayFilter.remembers_of_check _ htaken
      rw [h.interval]
      norm_num
    · exact hchecked.remembers x hx hle
  · refine List.Pairwise.cons ?_ h.apart
    intro x hx hsame
    have hpast := h.past x hx
    rw [abs_of_nonneg (sub_nonneg.mpr hpast)]
    by_contra hnot
    -- the filter would have known it
    have hsoon : s.clock ≤ x.filterTime + 120 := by linarith
    have hremembers := h.remembers x hx hsoon
    rw [← hsame] at hremembers
    rw [hremembers.check_eq_false (by rw [h.interval]; exact hsoon)] at htaken
    nomatch htaken

end Server.Inv

omit [Field K] [LinearOrder K] in
/-- The same header under the key of the same user is of one session. -/
theorem session_eq_of_sameHeader {a b : Accepted K} (h : SameHeader c a b) (huser : b.user = a.user)
    (ha : SessionIs c a.user a.request a.session) (hb : SessionIs c b.user b.request b.session) :
    b.session = a.session := by
  obtain ⟨hid, header, more, more', hdata, hdata', plain, hopen⟩ := h
  obtain ⟨plainA, bufferA, restA, hopenA, hsessionA⟩ := ha
  obtain ⟨plainB, bufferB, restB, hopenB, hsessionB⟩ := hb
  rw [hdata, openVMessAEADHeader_append hopen] at hopenA
  rw [huser, ← hid, hdata', openVMessAEADHeader_append hopen] at hopenB
  obtain rfl := Except.ok.inj (some.inj hopenA)
  obtain rfl := Except.ok.inj (some.inj hopenB)
  rw [huser, hsessionA] at hsessionB
  exact (Prod.mk.inj (some.inj hsessionB)).1.symm

/-- A request that is decoded was matched within 120 seconds of each accepted one with its AuthID,
    or is of the same user and comes to the history before the session of that one expires. -/
def Remembered (s : Server K) (m : Matched K) (now : K) : Prop :=
  ∀ a ∈ s.accepted, a.request.authID = m.request.authID →
    |m.filterTime - a.filterTime| ≤ 120 ∨ m.user = a.user ∧ now < a.expireTime + 180

theorem Server.Inv.accept (h : s.Inv c) {i : ℕ} {m : Matched K} (hm : s.matched[i]? = some m)
    {session : SessionID} (hsession : SessionIs c m.user m.request session) {now : K}
    {cache : SessionID → Option K}
    (hadd : addIfNotExits s.cache session now s.clock = some cache) (hnow : now ≤ s.clock)
    (hremembered : Remembered s m now) (hcached : ∀ a ∈ s.accepted, now < a.expireTime + 180 →
      ∃ expire, s.cache a.session = some expire ∧ a.expireTime + 180 ≤ expire) :
    { s with
      cache
      matched := s.matched.eraseIdx i
      accepted := ⟨m, session, now, s.clock⟩ :: s.accepted }.Inv c := by
  obtain ⟨hi, hget⟩ := List.getElem?_eq_some_iff.mp hm
  -- the same requests in another order
  have hperm : (s.matched.eraseIdx i ++ m :: s.accepted.map Accepted.toMatched).Perm s.taken := by
    refine perm_middle.trans ?_
    rw [← cons_append]
    refine List.Perm.append_right _ ?_
    rw [← hget]
    exact getElem_cons_eraseIdx_perm hi
  have hmem : m ∈ s.taken := hperm.subset (mem_append_right _ mem_cons_self)
  constructor
  · exact h.interval
  · intro x hx
    exact h.past x (hperm.subset hx)
  · intro x hx
    exact h.remembers x (hperm.subset hx)
  · refine (hperm.pairwise_iff ?_).mpr h.apart
    intro x y hxy heq
    rw [abs_sub_comm]
    exact hxy heq.symm
  · exact forall_mem_cons.mpr ⟨hsession, h.sessions⟩
  · intro a ha hlt
    rcases mem_cons.mp ha with rfl | ha
    · unfold addIfNotExits at hadd
      split at hadd
      · nomatch hadd
      · obtain rfl := some.inj hadd
        exact ⟨_, update_self .., le_refl _⟩
    · exact (h.add hadd hnow).cached a ha hlt
  · refine List.Pairwise.cons ?_ h.distinct
    intro a ha hsame
    rcases hremembered a ha hsame.1 with hsoon | ⟨huser, hsoon⟩
    · -- the filter did not take both
      have hapart := (pairwise_append.mp h.apart).2.2 m (mem_of_getElem? hm) a.toMatched
        (mem_map_of_mem ha)
      exact absurd (hapart hsame.1.symm) (not_lt.mpr hsoon)
    · -- the history knows the session
      obtain ⟨expire, hexpire, hle⟩ := hcached a ha hsoon
      obtain rfl : session = a.session :=
        session_eq_of_sameHeader hsame huser (h.sessions a ha) hsession
      unfold addIfNotExits at hadd
      rw [hexpire, any_some, if_pos (decide_eq_true (lt_of_lt_of_le hsoon hle))] at hadd
      nomatch hadd

variable [FloorRing K] [IsStrictOrderedRing K]

/-- The condition on a step: what is decoded is still remembered. -/
def Covered (s : Server K) : Action K → Prop
  | .decode i now _ => ∀ m ∈ s.matched[i]?, Remembered s m now
  | _ => True

theorem Server.Inv.step (h : s.Inv c) {a : Action K} (hcovered : Covered s a)
    (hstep : s.step c a = some s') : s'.Inv c := by
  cases a with
  | matchID request users now filterTime =>
    rw [Server.step] at hstep
    split at hstep
    swap
    · nomatch hstep
    next htime =>
    have htick := h.tick htime.1
    rcases matchAuthID_cases c now filterTime request.authID users s.filter with
      ⟨hfilter, err, herr⟩ | ⟨hfilter, htaken⟩
    · simp only [herr, hfilter] at hstep
      obtain rfl := some.inj hstep
      exact htick
    · cases hr : (matchAuthID c now filterTime request.authID users s.filter).1 with
      | error err =>
        simp only [hr, hfilter] at hstep
        obtain rfl := some.inj hstep
        exact htick.check request.authID
      | ok user =>
        simp only [hr, hfilter] at hstep
        obtain rfl := some.inj hstep
        exact htick.matched (htaken user hr)
  | decode i now expireTime =>
    rw [Server.step] at hstep
    cases hm : s.matched[i]? with
    | none =>
      rw [hm] at hstep
      nomatch hstep
    | some m =>
      simp only [hm] at hstep
      split at hstep
      swap
      · nomatch hstep
      next htime =>
      have hnow := h.tick htime.1
      have htick := hnow.tick htime.2
      cases hd : decodeHeader c s.cache m now expireTime with
      | none =>
        rw [hd] at hstep
        nomatch hstep
      | some r =>
        obtain ⟨cache, result⟩ := r
        rw [hd] at hstep
        rcases decodeHeader_cases hd with ⟨rfl, rfl⟩ | ⟨session, hsession, hadd, rfl | rfl⟩
        · obtain rfl := some.inj hstep
          exact htick.drop i
        · obtain rfl := some.inj hstep
          exact (htick.add hadd htime.2).drop i
        · obtain rfl := some.inj hstep
          exact htick.accept hm hsession hadd htime.2 (hcovered m hm) hnow.cached
  | sweep now lockTime =>
    rw [Server.step] at hstep
    split at hstep
    · next htime =>
      obtain rfl := some.inj hstep
      exact (h.tick htime.1).sweep htime.2
    · nomatch hstep

/-- A step that meets the condition. -/
def CoveredStep (c : Crypto) (s s' : Server K) : Prop := ∃ a, Covered s a ∧ s.step c a = some s'

/-- In every run in which what is decoded is still remembered no header is accepted twice. -/
theorem no_request_twice (c : Crypto) (now : K) (s : Server K)
    (hreach : Relation.ReflTransGen (CoveredStep c) (Server.new now) s) :
    s.accepted.Pairwise fun b a => ¬ SameHeader c a b := by
  have hstart : (Server.new now).Inv c := by
    refine ⟨rfl, ?_, ?_, .nil, ?_, ?_, .nil⟩ <;> intro x hx <;> nomatch hx
  have hinv : s.Inv c := by
    refine reach_closed ?_ hstart hreach
    rintro s h s' ⟨a, hcovered, hstep⟩
    exact h.step hcovered hstep
  exact hinv.distinct

end

/-! ## A request that is accepted twice -/

/-- Ciphers that only add a tag, and a checksum of zero. -/
def taggedCrypto : Crypto where
  cmdKey := id
  decryptAuthID _ authID := authID
  crc32 _ := 0
  kdf _ _ := []
  openAesGcm _ _ ciphertext _ := some (ciphertext.take (ciphertext.length - 16))
  parseAddress := .domain

/-- A request of mux with a timestamp and a random number. -/
def muxRequest (time random : UInt8) : Request where
  authID := [0, 0, 0, 0, 0, 0, 0, time, 0, 0, 0, random, 0, 0, 0, 0]
  data := [0, 42] ++ List.replicate 16 0 ++ List.replicate 8 0 ++
    ([1] ++ List.replicate 32 0 ++ [0, 0, 3, 0, 3] ++ [144, 70, 70, 204]) ++ List.replicate 16 0

/-- The AuthID and the header of a request come in one second. -/
def presentAt (r : Request) (now : ℚ) : List (Action ℚ) :=
  [.matchID r [[]] now now, .decode 0 now now]

instance (s : Server ℚ) (m : Matched ℚ) (now : ℚ) : Decidable (Remembered s m now) :=
  inferInstanceAs (Decidable (∀ a ∈ s.accepted, a.request.authID = m.request.authID →
    |m.filterTime - a.filterTime| ≤ 120 ∨ m.user = a.user ∧ now < a.expireTime + 180))

instance (s : Server ℚ) : (a : Action ℚ) → Decidable (Covered s a)
  | .matchID .. => inferInstanceAs (Decidable True)
  | .decode i now _ => inferInstanceAs (Decidable (∀ m ∈ s.matched[i]?, Remembered s m now))
  | .sweep .. => inferInstanceAs (Decidable True)

/-- A request is presented again after 170 seconds, when only the history knows it. -/
theorem no_request_twice_history :
    ∃ s, Relation.ReflTransGen (CoveredStep taggedCrypto) (Server.new (0 : ℚ)) s ∧
      s.accepted.map (fun a => a.request) = [muxRequest 130 1] ∧
      s.accepted.Pairwise fun b a => ¬ SameHeader taggedCrypto a b := by
  have hrun : (run (fun s a => if Covered s a then s.step taggedCrypto a else none)
      (presentAt (muxRequest 130 1) 70 ++ [.matchID (muxRequest 130 2) [[]] 120 120] ++
        presentAt (muxRequest 130 1) 240) (Server.new 0)).map
        (fun s => s.accepted.map fun a => a.request) = some [muxRequest 130 1] := by decide +kernel
  obtain ⟨s, hs, haccepted⟩ := map_eq_some_iff.mp hrun
  have hreach : Relation.ReflTransGen (CoveredStep taggedCrypto) (Server.new 0) s := by
    refine reach_of_run ?_ _ hs
    intro s a s' hstep
    split at hstep
    · next hcovered => exact ⟨a, hcovered, hstep⟩
    · nomatch hstep
  exact ⟨s, hreach, haccepted, no_request_twice taggedCrypto 0 s hreach⟩

/-- The timestamp of a request is 110 seconds ahead; after 230 seconds its AuthID is forgotten and
    its session has expired. -/
theorem request_accepted_again :
    (run (Server.step taggedCrypto)
      (presentAt (muxRequest 120 1) 10 ++ presentAt (muxRequest 120 2) 120 ++
        presentAt (muxRequest 120 1) 240) (Server.new 0)).map
        (fun s => s.accepted.map fun a => (a.request, a.historyTime)) =
      some [(muxRequest 120 1, 240), (muxRequest 120 1, 10)] := by
  decide +kernel

end XrayCore.Vmess
