/-
  XrayCore.Xdrive.Listener

  The sessions of the XDrive listener (`transport/internet/xdrive/xdrive.go`), and the
  deletes it issues for them.

  Three kinds of goroutines meet in the listener: `acceptPending` goes through announced
  sessions, `collect` through the stored ones, and each `drop` waits to issue its delete.
  The storage is whatever the two listings show, so that they may be stale and deletes may
  fail; a delete is late where its step comes late.

  A delete is decided before it is issued.  `Careful` says of a step that no session is live
  while a delete of it is waiting, and then no live session is deleted.
-/

import XrayCore.Bytes.BigInt
import XrayCore.Bytes.Slice
import XrayCore.Machine.Run

namespace XrayCore.Xdrive

open Bytes Machine List Option Function

/-! ## Names -/

def sessionsDir : Bytes := "sessions".toUTF8.toList

def streamsDir : Bytes := "streams".toUTF8.toList

def sessionPrefix (session : Bytes) : Bytes := streamsDir ++ 47 :: session

/-- `parseAnnounce`: the session, and when it was announced in nanoseconds. -/
def parseAnnounce (entry : Bytes) : Option (Bytes × ℤ) :=
  let nanos := entry.takeWhile (· ≠ 45)
  match entry.dropWhile (· ≠ 45) with
  | [] => none
  | _ :: session =>
    if nanos = [] ∨ session = [] then none else (parseInt 64 nanos).map fun at' => (session, at')

theorem sessionPrefix_inj {s s' : Bytes} (h : sessionPrefix s = sessionPrefix s') :
    s = s' := by
  simpa [sessionPrefix] using h

/-- No announcement has the name of a session's objects. -/
theorem announce_ne (entry session : Bytes) :
    sessionsDir ++ 47 :: entry ≠ sessionPrefix session := by
  intro h
  have hfirst := congrArg (fun l => l.take 2) h
  have hdirs : sessionsDir.take 2 ≠ streamsDir.take 2 := by decide +kernel
  have hlen : sessionsDir.length = 8 ∧ streamsDir.length = 7 := by decide +kernel
  apply hdirs
  simpa [sessionPrefix, take_append, hlen] using hfirst

/-! ## The listener and its goroutines -/

structure Listener where
  active : Bytes → Bool
  handled : Bytes → Option ℤ
  idleSince : Bytes → Option ℤ

/-- The listener, the clocks, and where its goroutines are. -/
structure State extends Listener where
  /-- The monotonic clock. -/
  now : ℤ
  /-- The wall clock, by which announcements are judged. -/
  wall : ℤ
  /-- The announcements that `acceptPending` still has to look at. -/
  announced : List Bytes
  /-- The announcement, and its session, that `acceptPending` is about to claim. -/
  claiming : Option (Bytes × Bytes)
  /-- The deletes that were started and are not issued yet. -/
  drops : List Bytes
  /-- What `collect` has listed, and when. -/
  listed : Option (List Bytes × ℤ)
  /-- The sessions that `collect` still has to delete. -/
  expired : List Bytes

/-- The state that `Serve` begins with. -/
def State.new (now wall : ℤ) : State where
  active := fun _ => false
  handled := fun _ => none
  idleSince := fun _ => none
  now := now
  wall := wall
  announced := []
  claiming := none
  drops := []
  listed := none
  expired := []

/-- The claim succeeds. -/
def Listener.Claims (l : Listener) (session : Bytes) : Prop :=
  l.active session = false ∧ l.handled session = none

instance (l : Listener) (session : Bytes) : Decidable (l.Claims session) :=
  inferInstanceAs (Decidable (_ ∧ _))

/-- `claim`. -/
def Listener.claim (l : Listener) (now : ℤ) (session : Bytes) : Listener :=
  if l.Claims session then
    { l with
      active := update l.active session true
      handled := update l.handled session (some now) }
  else l

/-- The first loop of `collect` over one session. -/
def Listener.scanOne (l : Listener) (ttl now : ℤ) (expired : List Bytes)
    (session : Bytes) : Listener × List Bytes :=
  if l.active session then
    ({ l with idleSince := update l.idleSince session none }, expired)
  else
    match l.idleSince session with
    | none => ({ l with idleSince := update l.idleSince session (some now) }, expired)
    | some since =>
      if now - since ≥ ttl then
        ({ l with idleSince := update l.idleSince session none }, expired ++ [session])
      else (l, expired)

/-- What `collect` does under the lock: the listener after it, and the expired sessions. -/
def Listener.scan (l : Listener) (ttl now : ℤ) (sessions : List Bytes) :
    Listener × List Bytes :=
  let r := sessions.foldl (fun r session => r.1.scanOne ttl now r.2 session) (l, [])
  ({ r.1 with
      idleSince := fun session => if session ∈ sessions then r.1.idleSince session else none
      handled := fun session => (r.1.handled session).filter fun claimed =>
        r.1.active session || now - claimed < ttl }, r.2)

/-- What can happen next. -/
inductive Action where
  /-- Time passes, and the wall clock, which may have been set, shows `wall`. -/
  | tick (nanos : ℕ) (wall : ℤ)
  /-- `acceptPending` lists the announcements. -/
  | acceptList (entries : List Bytes)
  /-- It judges the next one by its age. -/
  | judge
  /-- It claims the session of an announcement that is not stale. -/
  | claim
  /-- A started delete is issued. -/
  | drop (i : ℕ)
  /-- A session is closed. -/
  | close (session : Bytes)
  /-- `collect` lists the sessions. -/
  | collectList (sessions : List Bytes)
  /-- It goes through them. -/
  | collectScan
  /-- It issues its next delete; where that fails, it returns. -/
  | collectDelete (ok : Bool)

namespace State

/-- `acceptPending` over one announcement, up to its claim. -/
def judged (st : State) (ttl : ℤ) (entry : Bytes) : State :=
  match parseAnnounce entry with
  | none => { st with drops := st.drops ++ [sessionsDir ++ 47 :: entry] }
  | some (session, announcedAt) =>
    if st.wall - announcedAt > ttl then
      { st with drops := st.drops ++ [sessionsDir ++ 47 :: entry, sessionPrefix session] }
    else { st with claiming := some (entry, session) }

/-- The claim, and the delete of the announcement where it succeeds. -/
def claimed (st : State) (entry session : Bytes) : State :=
  { st with
    toListener := st.toListener.claim st.now session
    claiming := none
    drops :=
      if st.Claims session then st.drops ++ [sessionsDir ++ 47 :: entry] else st.drops }

def step (ttl : ℤ) (st : State) : Action → Option State
  | .tick nanos wall => some { st with now := st.now + nanos, wall }
  | .acceptList entries =>
    if st.announced = [] ∧ st.claiming = none then some { st with announced := entries } else none
  | .judge =>
    match st.announced, st.claiming with
    | entry :: rest, none => some (judged { st with announced := rest } ttl entry)
    | _, _ => none
  | .claim => st.claiming.map fun c => st.claimed c.1 c.2
  | .drop i =>
    if i < st.drops.length then some { st with drops := st.drops.eraseIdx i } else none
  | .close session => some { st with active := update st.active session false }
  | .collectList sessions =>
    if st.listed = none ∧ st.expired = [] then some { st with listed := some (sessions, st.now) }
    else none
  | .collectScan =>
    st.listed.map fun l =>
      { st with
        toListener := (st.toListener.scan ttl l.2 l.1).1
        listed := none
        expired := (st.toListener.scan ttl l.2 l.1).2 }
  | .collectDelete ok =>
    match st.expired with
    | [] => none
    | _ :: rest => some { st with expired := if ok then rest else [] }

/-- The name that a delete is issued for. -/
def issues (st : State) : Action → Option Bytes
  | .drop i => st.drops[i]?
  | .collectDelete _ => st.expired.head?.map sessionPrefix
  | _ => none

/-- The objects of a live session are deleted. -/
def DeletesLive (st : State) (a : Action) : Prop :=
  ∃ session, st.issues a = some (sessionPrefix session) ∧ st.active session = true

/-! ## When no live session is deleted -/

/-- An announcement that is found stale is not that of a live session, and no session is
    claimed while a delete of it is waiting. -/
def Careful (ttl : ℤ) (st : State) : Action → Prop
  | .judge => ∀ entry ∈ st.announced.head?, ∀ x ∈ parseAnnounce entry, st.wall - x.2 > ttl →
      st.active x.1 = false
  | .claim => ∀ c ∈ st.claiming, st.Claims c.2 → sessionPrefix c.2 ∉ st.drops ∧ c.2 ∉ st.expired
  | _ => True

instance (ttl : ℤ) (st : State) (a : Action) : Decidable (Careful ttl st a) := by
  cases a <;> unfold Careful <;> infer_instance

/-- No delete of a live session is waiting. -/
def Calm (st : State) : Prop :=
  ∀ session, st.active session = true → sessionPrefix session ∉ st.drops ∧ session ∉ st.expired

variable {ttl : ℤ} {st st' : State} {a : Action}

theorem Calm.mono (h : st.Calm) (hactive : ∀ session, st'.active session = true →
      st.active session = true)
    (hdrops : ∀ session, sessionPrefix session ∈ st'.drops → sessionPrefix session ∈ st.drops)
    (hexpired : st'.expired ⊆ st.expired) : st'.Calm := by
  intro session hlive
  obtain ⟨hd, he⟩ := h session (hactive session hlive)
  exact ⟨fun hmem => hd (hdrops session hmem), fun hmem => he (hexpired hmem)⟩

theorem mem_drops_announce {drops : List Bytes} {entry session : Bytes}
    (h : sessionPrefix session ∈ drops ++ [sessionsDir ++ 47 :: entry]) :
    sessionPrefix session ∈ drops := by
  rcases mem_append.mp h with h | h
  · exact h
  · exact absurd (mem_singleton.mp h).symm (announce_ne entry session)

/-- The first loop of `collect` leaves alone what is live and what is handled. -/
theorem scanLoop_spec (ttl : ℤ) (l : Listener) (now : ℤ) (sessions : List Bytes) :
    let r := sessions.foldl (fun r session => r.1.scanOne ttl now r.2 session) (l, [])
    r.1.active = l.active ∧ r.1.handled = l.handled ∧ ∀ s ∈ r.2, l.active s = false := by
  have hone : ∀ (r : Listener × List Bytes) (session : Bytes),
      (r.1.scanOne ttl now r.2 session).1.active = r.1.active ∧
        (r.1.scanOne ttl now r.2 session).1.handled = r.1.handled ∧
        ∀ s ∈ (r.1.scanOne ttl now r.2 session).2, s ∈ r.2 ∨ r.1.active s = false := by
    intro r session
    unfold Listener.scanOne
    split
    · exact ⟨rfl, rfl, fun s hs => .inl hs⟩
    · next hidle =>
      split
      · exact ⟨rfl, rfl, fun s hs => .inl hs⟩
      · split
        · refine ⟨rfl, rfl, fun s hs => (mem_append.mp hs).imp_right fun h => ?_⟩
          rw [mem_singleton.mp h]
          exact Bool.eq_false_iff.mpr hidle
        · exact ⟨rfl, rfl, fun s hs => .inl hs⟩
  have hloop : ∀ (r : Listener × List Bytes), r.1.active = l.active →
      r.1.handled = l.handled → (∀ s ∈ r.2, l.active s = false) →
      let r' := sessions.foldl (fun r session => r.1.scanOne ttl now r.2 session) r
      r'.1.active = l.active ∧ r'.1.handled = l.handled ∧ ∀ s ∈ r'.2, l.active s = false := by
    induction sessions with
    | nil => exact fun r h hh h' => ⟨h, hh, h'⟩
    | cons session sessions ih =>
      intro r h hh h'
      obtain ⟨hactive, hhandled, hmem⟩ := hone r session
      refine ih _ (hactive.trans h) (hhandled.trans hh) fun s hs => ?_
      rcases hmem s hs with hold | hidle
      · exact h' s hold
      · exact h ▸ hidle
  exact hloop (l, []) rfl rfl nofun

/-- The scan leaves the live sessions alone. -/
theorem scan_spec (ttl : ℤ) (l : Listener) (now : ℤ) (sessions : List Bytes) :
    (l.scan ttl now sessions).1.active = l.active ∧
      ∀ session ∈ (l.scan ttl now sessions).2, l.active session = false := by
  obtain ⟨hactive, -, hidle⟩ := scanLoop_spec ttl l now sessions
  exact ⟨hactive, hidle⟩

/-- A careful step lets no delete of a live session wait. -/
theorem Calm.step (h : st.Calm) (hcare : Careful ttl st a) (hstep : st.step ttl a = some st') :
    st'.Calm := by
  cases a with
  | tick nanos wall =>
    cases hstep
    exact h
  | acceptList entries =>
    simp only [State.step, ite_none_right_eq_some, some.injEq] at hstep
    obtain ⟨-, rfl⟩ := hstep
    exact h
  | collectList sessions =>
    simp only [State.step, ite_none_right_eq_some, some.injEq] at hstep
    obtain ⟨-, rfl⟩ := hstep
    exact h
  | judge =>
    simp only [State.step] at hstep
    split at hstep
    case h_2 => nomatch hstep
    next entry rest hann hclaim =>
    cases hstep
    unfold judged
    split
    · exact h.mono (fun _ => id) (fun _ => mem_drops_announce) (List.Subset.refl _)
    · next session announcedAt hparse =>
      split
      · -- the prefix of a session that is not live is dropped
        next hstale =>
        have hdead := hcare entry (by rw [hann]; rfl) (session, announcedAt) hparse hstale
        intro s hlive
        obtain ⟨hd, he⟩ := h s hlive
        refine ⟨fun hmem => ?_, he⟩
        simp only [mem_append, mem_cons, not_mem_nil, or_false] at hmem
        rcases hmem with hmem | hmem | hmem
        · exact hd hmem
        · exact announce_ne entry s hmem.symm
        · rw [sessionPrefix_inj hmem, hdead] at hlive
          nomatch hlive
      · exact h.mono (fun _ => id) (fun _ => id) (List.Subset.refl _)
  | claim =>
    obtain ⟨⟨entry, session⟩, hclaim, rfl⟩ := map_eq_some_iff.mp hstep
    by_cases hc : st.Claims session
    · obtain ⟨hnew, hnew'⟩ := hcare (entry, session) hclaim hc
      intro s hlive
      simp only [claimed, Listener.claim, hc, if_true, update_apply] at hlive ⊢
      have hs : sessionPrefix s ∉ st.drops ∧ s ∉ st.expired := by
        by_cases hsession : s = session
        · exact hsession ▸ ⟨hnew, hnew'⟩
        · exact h s (by simpa [hsession] using hlive)
      exact ⟨fun hmem => hs.1 (mem_drops_announce hmem), hs.2⟩
    · apply h.mono
      · simp [claimed, Listener.claim, hc]
      · simp [claimed, hc]
      · exact List.Subset.refl _
  | drop i =>
    simp only [State.step, ite_none_right_eq_some, some.injEq] at hstep
    obtain ⟨-, rfl⟩ := hstep
    exact h.mono (fun _ => id) (fun _ hmem => mem_of_mem_eraseIdx hmem) (List.Subset.refl _)
  | close session =>
    cases hstep
    refine h.mono (fun s hlive => ?_) (fun _ => id) (List.Subset.refl _)
    by_cases hs : s = session
    · simp [hs] at hlive
    · simpa [hs] using hlive
  | collectScan =>
    obtain ⟨⟨sessions, now⟩, -, rfl⟩ := map_eq_some_iff.mp hstep
    obtain ⟨hactive, hidle⟩ := scan_spec ttl st.toListener now sessions
    intro s hlive
    simp only [hactive] at hlive
    refine ⟨(h s hlive).1, fun hmem => ?_⟩
    rw [hidle s hmem] at hlive
    nomatch hlive
  | collectDelete ok =>
    simp only [State.step] at hstep
    split at hstep
    · nomatch hstep
    · next session rest hexp =>
      cases hstep
      refine h.mono (fun _ => id) (fun _ => id) ?_
      rw [hexp]
      cases ok with
      | true => exact subset_cons_self _ _
      | false => exact nil_subset _

/-- Where no delete of a live session waits, none is issued. -/
theorem Calm.not_deletesLive (h : st.Calm) : ¬ st.DeletesLive a := by
  rintro ⟨session, hissue, hlive⟩
  obtain ⟨hd, he⟩ := h session hlive
  cases a with
  | drop i => exact hd (mem_of_getElem? hissue)
  | collectDelete ok =>
    obtain ⟨s, hs, heq⟩ := map_eq_some_iff.mp hissue
    rw [sessionPrefix_inj heq] at hs
    exact he (mem_of_mem_head? hs)
  | _ => nomatch hissue

/-- A step that is not careful lets a delete of a live session wait. -/
theorem not_calm (hcare : ¬ Careful ttl st a) (hstep : st.step ttl a = some st') :
    ¬ st'.Calm := by
  intro h
  apply hcare
  cases a with
  | judge =>
    rintro entry hentry ⟨session, announcedAt⟩ hparse hstale
    simp only [State.step] at hstep
    split at hstep
    case h_2 => nomatch hstep
    next entry' rest hann hclaim =>
    rw [hann] at hentry
    cases hentry
    simp only [some.injEq] at hstep
    subst hstep
    simp only [mem_def] at hparse
    by_contra hlive
    have hwaits := h session (by simpa [judged, hparse, hstale] using hlive)
    simp [judged, hparse, hstale] at hwaits
  | claim =>
    rintro ⟨entry, session⟩ hclaim hc
    rw [mem_def] at hclaim
    simp only [State.step, hclaim, map_some, some.injEq] at hstep
    subst hstep
    have hwaits := h session (by simp [claimed, Listener.claim, hc])
    simp only [claimed, hc, if_true, mem_append, not_or] at hwaits
    exact ⟨hwaits.1.1, hwaits.2⟩
  | _ => trivial

/-- A delete that waits can be the next. -/
theorem deletes_of_not_calm (h : ¬ st.Calm) :
    ∃ more, ¬ Along (State.step ttl) (fun st a => ¬ st.DeletesLive a) more st := by
  simp only [Calm, not_forall, not_and_or, not_not] at h
  obtain ⟨session, hlive, hwaits | hwaits⟩ := h
  · obtain ⟨i, hi⟩ := mem_iff_getElem?.mp hwaits
    exact ⟨[.drop i], fun hall => hall.1 ⟨session, hi, hlive⟩⟩
  · generalize hexp : st.expired = expired at hwaits
    -- the deletes before it succeed
    induction expired generalizing st with
    | nil => nomatch hwaits
    | cons first rest ih =>
      by_cases hfirst : session = first
      · refine ⟨[.collectDelete true], fun hall => hall.1 ⟨session, ?_, hlive⟩⟩
        simp [issues, hexp, hfirst]
      · have hrest : session ∈ rest := (mem_cons.mp hwaits).resolve_left hfirst
        obtain ⟨more, hmore⟩ := @ih { st with expired := rest } hlive rfl hrest
        exact ⟨.collectDelete true :: more,
          fun hall => hmore (hall.2 _ (by simp [State.step, hexp]))⟩

/-- In a run of careful steps no live session is deleted; and after a step that is not careful
    a live session can be. -/
theorem live_sessions_kept (ttl now wall : ℤ) :
    (∀ actions, Along (State.step ttl) (Careful ttl) actions (State.new now wall) →
      Along (State.step ttl) (fun st a => ¬ st.DeletesLive a) actions (State.new now wall)) ∧
    ∀ st a st', State.step ttl st a = some st' → ¬ Careful ttl st a →
      ∃ more, ¬ Along (State.step ttl) (fun st a => ¬ st.DeletesLive a) more st' := by
  refine ⟨fun actions hcare => ?_, fun st a st' hstep hcare => ?_⟩
  · have hnew : (State.new now wall).Calm := fun session hlive => nomatch hlive
    exact Along.of_kept
      (fun st a h hc => ⟨h.not_deletesLive, fun st' hstep => h.step hc hstep⟩) hnew hcare
  · exact deletes_of_not_calm (not_calm hcare hstep)

/-- A session is accepted, and after the limit its announcement is listed again. -/
def relisted (before : List Action) : List Action :=
  [.acceptList ["0-s".toUTF8.toList], .judge, .claim] ++ before ++
    [.tick 11 11, .acceptList ["0-s".toUTF8.toList], .judge]

/-- Its objects may be deleted with the announcement, if the session was closed. -/
theorem live_sessions_kept_closed :
    let actions := relisted [.close "s".toUTF8.toList] ++ [.drop 2]
    Along (State.step 10) (Careful 10) actions (State.new 0 0) ∧
      Along (State.step 10) (fun st a => ¬ st.DeletesLive a) actions (State.new 0 0) := by
  intro actions
  have hcare : Along (State.step 10) (Careful 10) actions (State.new 0 0) := by decide +kernel
  exact ⟨hcare, (live_sessions_kept 10 0 0).1 actions hcare⟩

/-- They are deleted if it was not. -/
theorem stale_announcement_deletes_live :
    ¬ Along (State.step 10) (fun st a => ¬ st.DeletesLive a) (relisted [] ++ [.drop 2])
      (State.new 0 0) := by
  intro h
  have hruns : (run (State.step 10) (relisted []) (State.new 0 0)).isSome := by decide +kernel
  refine h.last (some_get hruns).symm ⟨"s".toUTF8.toList, ?_, ?_⟩ <;>
    decide +kernel +revert

end State

end XrayCore.Xdrive
