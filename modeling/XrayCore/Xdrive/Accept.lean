/-
  XrayCore.Xdrive.Accept

  How often a session of the XDrive listener is accepted.

  A session that was accepted is remembered in `handled` while it is active, and for the
  limit by the monotonic clock; its announcement is fresh for the limit by the wall clock
  and the time the client wrote into it.  `Timely` says where the first window covers the
  second, and then no session is accepted twice.
-/

import XrayCore.Xdrive.Listener

namespace XrayCore.Xdrive

open Bytes Machine List Option Function

/-- The listener, and the sessions that were passed to `addConn`, with the monotonic time. -/
structure Accepting extends State where
  accepted : List (Bytes × ℤ)

namespace Accepting

def new (now wall : ℤ) : Accepting := { State.new now wall with accepted := [] }

/-- What a step passes to `addConn`. -/
def passes (st : State) : Action → List (Bytes × ℤ)
  | .claim =>
    match st.claiming with
    | some (_, session) => if st.Claims session then [(session, st.now)] else []
    | none => []
  | _ => []

def step (ttl : ℤ) (g : Accepting) (a : Action) : Option Accepting :=
  (g.toState.step ttl a).map fun st =>
    { st with accepted := g.accepted ++ passes g.toState a }

/-- The sessions that were passed to `addConn`. -/
def sessions (g : Accepting) : List Bytes := g.accepted.map Prod.fst

/-- If the session was accepted, it is active or that was less than the limit before `time`. -/
def Within (ttl time : ℤ) (g : Accepting) (session : Bytes) : Prop :=
  ∀ p ∈ g.accepted, p.1 = session → g.active session = true ∨ time - p.2 < ttl

/-- So it is where an announcement of the session is found fresh, and where `collect` goes
    through the sessions while this one is about to be claimed. -/
def Timely (ttl : ℤ) (g : Accepting) : Action → Prop
  | .judge => ∀ entry ∈ g.announced.head?, ∀ x ∈ parseAnnounce entry, g.wall - x.2 ≤ ttl →
      g.Within ttl g.now x.1
  | .collectScan => ∀ l ∈ g.listed, ∀ c ∈ g.claiming, g.Within ttl l.2 c.2
  | _ => True

instance (ttl : ℤ) (g : Accepting) (a : Action) : Decidable (Timely ttl g a) :=
  match a with
  | .judge | .collectScan => by dsimp only [Timely, Within]; infer_instance
  | .tick .. | .acceptList _ | .claim | .drop _ | .close _ | .collectList _ | .collectDelete _ =>
    .isTrue trivial

/-- What is remembered of the sessions that were accepted. -/
structure Remembers (ttl : ℤ) (g : Accepting) : Prop where
  nodup : g.sessions.Nodup
  handled : ∀ p ∈ g.accepted, g.handled p.1 = some p.2 ∨
    g.handled p.1 = none ∧ g.active p.1 = false ∧ p.2 + ttl ≤ g.now
  claiming : ∀ entry session, g.claiming = some (entry, session) → session ∈ g.sessions →
    g.handled session ≠ none
  listed : ∀ listed listedAt, g.listed = some (listed, listedAt) → listedAt ≤ g.now

variable {ttl : ℤ} {g g' : Accepting} {a : Action}

theorem step_eq (h : g.step ttl a = some g') :
    ∃ st, g.toState.step ttl a = some st ∧
      g' = { st with accepted := g.accepted ++ passes g.toState a } := by
  obtain ⟨st, hst, rfl⟩ := map_eq_some_iff.mp h
  exact ⟨st, hst, rfl⟩

/-- The scan forgets a session where it is not active and its time is up. -/
theorem scan_handled (ttl : ℤ) (l : Listener) (now : ℤ) (listed : List Bytes)
    (session : Bytes) :
    (l.scan ttl now listed).1.handled session =
      (l.handled session).filter fun time => l.active session || now - time < ttl := by
  obtain ⟨hactive, hhandled, -⟩ := State.scanLoop_spec ttl l now listed
  unfold Listener.scan
  simp only
  rw [hactive, hhandled]

/-- A step that accepts nothing, and remembers what it may not forget. -/
theorem Remembers.quiet (h : g.Remembers ttl) (haccepted : g'.accepted = g.accepted)
    (hnow : g.now ≤ g'.now) (hactive : ∀ session, g.active session = false →
      g'.active session = false)
    (hhandled : ∀ p ∈ g.accepted, g'.handled p.1 = g.handled p.1 ∨
      g'.handled p.1 = none ∧ g'.active p.1 = false ∧ p.2 + ttl ≤ g'.now)
    (hclaiming : ∀ entry session, g'.claiming = some (entry, session) → session ∈ g.sessions →
      g'.handled session ≠ none)
    (hlisted : ∀ listed listedAt, g'.listed = some (listed, listedAt) → listedAt ≤ g'.now) :
    g'.Remembers ttl := by
  have hsessions : g'.sessions = g.sessions := congrArg (map Prod.fst) haccepted
  refine ⟨hsessions ▸ h.nodup, fun p hp => ?_, hsessions ▸ hclaiming, hlisted⟩
  rw [haccepted] at hp
  rcases hhandled p hp with hsame | hover
  · rw [hsame]
    exact (h.handled p hp).imp_right fun ⟨hnone, hidle, hover⟩ =>
      ⟨hnone, hactive p.1 hidle, hover.trans hnow⟩
  · exact Or.inr hover

/-- A step that leaves alone what is handled and what is about to be claimed. -/
theorem Remembers.of_frame (h : g.Remembers ttl) (haccepted : g'.accepted = g.accepted)
    (hhandled : g'.handled = g.handled) (hclaiming : g'.claiming = g.claiming)
    (hnow : g.now ≤ g'.now) (hactive : ∀ session, g.active session = false →
      g'.active session = false)
    (hlisted : ∀ listed listedAt, g'.listed = some (listed, listedAt) → listedAt ≤ g'.now) :
    g'.Remembers ttl := by
  refine h.quiet haccepted hnow hactive ?_ ?_ hlisted
  · exact fun p _ => Or.inl (congrFun hhandled p.1)
  · rw [hclaiming, hhandled]
    exact h.claiming

/-- Within the limit a session that was accepted is remembered. -/
theorem Remembers.known (h : g.Remembers ttl) {session : Bytes}
    (hwithin : g.Within ttl g.now session) (hmem : session ∈ g.sessions) :
    g.handled session ≠ none := by
  obtain ⟨p, hp, rfl⟩ := mem_map.mp hmem
  rcases h.handled p hp with hknown | ⟨-, hidle, hover⟩
  · exact hknown ▸ some_ne_none _
  · rcases hwithin p hp rfl with hactive | hlt
    · rw [hidle] at hactive
      cases hactive
    · omega

/-- A fresh announcement of a session that was accepted finds it remembered. -/
theorem Remembers.judge (h : g.Remembers ttl) (hcare : g.Timely ttl .judge)
    (hstep : g.step ttl .judge = some g') : g'.Remembers ttl := by
  obtain ⟨st, hst, rfl⟩ := step_eq hstep
  simp only [State.step] at hst
  split at hst
  case h_2 => cases hst
  next entry rest hann hclaim =>
  cases hst
  unfold State.judged
  split
  · exact h.of_frame (append_nil _) rfl rfl (le_refl _) (fun _ => id) h.listed
  · next session announcedAt hparse =>
    split
    · exact h.of_frame (append_nil _) rfl rfl (le_refl _) (fun _ => id) h.listed
    · next hfresh =>
      refine h.quiet (append_nil _) (le_refl _) (fun _ => id) (fun _ _ => Or.inl rfl) ?_ h.listed
      rintro _ _ ⟨⟩ hmem
      have hhead : entry ∈ g.announced.head? := by
        rw [hann]
        rfl
      exact h.known (hcare entry hhead _ hparse (not_lt.mp hfresh)) hmem

/-- A claim that succeeds is the first of its session. -/
theorem Remembers.claim (h : g.Remembers ttl) (hstep : g.step ttl .claim = some g') :
    g'.Remembers ttl := by
  obtain ⟨st, hst, rfl⟩ := step_eq hstep
  obtain ⟨⟨entry, session⟩, hclaim, rfl⟩ := map_eq_some_iff.mp hst
  by_cases hc : g.Claims session
  · have hnew : session ∉ g.sessions := fun hmem => h.claiming entry session hclaim hmem hc.2
    have hpasses : passes g.toState .claim = [(session, g.now)] := by simp [passes, hclaim, hc]
    refine ⟨?_, fun p hp => ?_, fun _ _ hnone => (by cases hnone), h.listed⟩
    · simp only [sessions, hpasses, map_append, map_cons, map_nil]
      exact nodup_append.mpr ⟨h.nodup, nodup_singleton _, fun s hs t ht => by
        rintro rfl
        rw [mem_singleton.mp ht] at hs
        exact hnew hs⟩
    · simp only [State.claimed, Listener.claim, hc, if_true]
      rcases mem_append.mp hp with hold | hlast
      · have hne : p.1 ≠ session := fun heq => hnew (heq ▸ mem_map_of_mem hold)
        rw [update_of_ne hne, update_of_ne hne]
        exact h.handled p hold
      · rw [hpasses, mem_singleton] at hlast
        rw [hlast, update_self]
        exact Or.inl rfl
  · have hpasses : passes g.toState .claim = [] := by simp [passes, hclaim, hc]
    refine h.quiet (by rw [hpasses, append_nil]) (le_refl _) ?_ ?_ ?_ h.listed
    · simp [State.claimed, Listener.claim, hc]
    · simp [State.claimed, Listener.claim, hc]
    · exact fun _ _ hnone => by cases hnone

theorem Remembers.collectScan (h : g.Remembers ttl) (hcare : g.Timely ttl .collectScan)
    (hstep : g.step ttl .collectScan = some g') : g'.Remembers ttl := by
  obtain ⟨st, hst, rfl⟩ := step_eq hstep
  obtain ⟨⟨listed, listedAt⟩, hlisted, rfl⟩ := map_eq_some_iff.mp hst
  have hpast := h.listed listed listedAt hlisted
  have hactive := (State.scan_spec ttl g.toListener listedAt listed).1
  refine h.quiet (append_nil _) (le_refl _) ?_ ?_ ?_ ?_
  · simp only [hactive, imp_self, implies_true]
  · intro p hp
    rcases h.handled p hp with hknown | hover
    · -- it stays, or its time was up when the sessions were listed
      simp only [scan_handled, hactive, hknown, filter_some]
      split
      · exact Or.inl rfl
      · next hforget =>
        simp only [Bool.or_eq_true, decide_eq_true_eq, not_or, not_lt] at hforget
        exact Or.inr ⟨rfl, Bool.eq_false_iff.mpr hforget.1, by omega⟩
    · simp only [scan_handled, hactive, hover.1, filter_none]
      exact Or.inl trivial
  · intro entry session hc hs
    obtain ⟨p, hp, rfl⟩ := mem_map.mp hs
    have hknown := (h.handled p hp).resolve_right fun hover => h.claiming _ _ hc hs hover.1
    have hkeep := hcare _ hlisted _ hc p hp rfl
    simp only [scan_handled, hknown, filter_some]
    rw [if_pos (by simpa using hkeep)]
    exact some_ne_none _
  · exact fun _ _ hnone => by cases hnone

/-- What a timely step keeps. -/
theorem Remembers.step (h : g.Remembers ttl) (hcare : g.Timely ttl a)
    (hstep : g.step ttl a = some g') : g'.Remembers ttl := by
  obtain ⟨st, hst, rfl⟩ := step_eq hstep
  cases a with
  | judge => exact h.judge hcare hstep
  | claim => exact h.claim hstep
  | collectScan => exact h.collectScan hcare hstep
  | tick nanos wall =>
    cases hst
    refine h.of_frame (append_nil _) rfl rfl (by simp) (fun _ => id) fun listed listedAt hl => ?_
    have := h.listed listed listedAt hl
    show listedAt ≤ g.now + nanos
    omega
  | acceptList entries =>
    simp only [State.step, ite_none_right_eq_some, some.injEq] at hst
    obtain ⟨-, rfl⟩ := hst
    exact h.of_frame (append_nil _) rfl rfl (le_refl _) (fun _ => id) h.listed
  | drop i =>
    simp only [State.step, ite_none_right_eq_some, some.injEq] at hst
    obtain ⟨-, rfl⟩ := hst
    exact h.of_frame (append_nil _) rfl rfl (le_refl _) (fun _ => id) h.listed
  | close session =>
    cases hst
    refine h.of_frame (append_nil _) rfl rfl (le_refl _) (fun s hidle => ?_) h.listed
    show update g.active session false s = false
    rw [update_apply, hidle, ite_self]
  | collectList listed =>
    simp only [State.step, ite_none_right_eq_some, some.injEq] at hst
    obtain ⟨-, rfl⟩ := hst
    refine h.of_frame (append_nil _) rfl rfl (le_refl _) (fun _ => id) fun _ _ hl => ?_
    cases hl
    exact le_refl g.now
  | collectDelete ok =>
    simp only [State.step] at hst
    split at hst
    · cases hst
    · cases hst
      exact h.of_frame (append_nil _) rfl rfl (le_refl _) (fun _ => id) h.listed

theorem remembers_new (ttl now wall : ℤ) : (new now wall).Remembers ttl where
  nodup := nodup_nil
  handled := fun _ hp => absurd hp not_mem_nil
  claiming := fun _ _ hnone => by cases hnone
  listed := fun _ _ hnone => by cases hnone

/-- In a run of timely steps no session is passed to `addConn` twice. -/
theorem accepted_once (ttl now wall : ℤ) (actions : List Action) (g : Accepting)
    (hcare : Along (step ttl) (Timely ttl) actions (new now wall))
    (hrun : run (step ttl) actions (new now wall) = some g) : g.sessions.Nodup := by
  have hkept := hcare.run_closed (I := Remembers ttl) (fun _ _ _ h hc hs => h.step hc hs)
    (remembers_new ttl now wall) hrun
  exact hkept.nodup

/-- A client's clock is ahead, the session is closed, and its announcement, which is not
    deleted, is listed again some time after `collect`. -/
def aheadOfServer (nanos : ℕ) : List Action :=
  [.acceptList ["5-s".toUTF8.toList], .judge, .claim, .close "s".toUTF8.toList, .tick nanos nanos,
    .collectList [], .collectScan, .acceptList ["5-s".toUTF8.toList], .judge, .claim]

/-- Before the limit the second claim finds the session. -/
theorem accepted_once_relisted : ∃ g, run (step 10) (aheadOfServer 9) (new 0 0) = some g ∧
    g.sessions = ["s".toUTF8.toList] ∧ g.sessions.Nodup := by
  have hcare : Along (step 10) (Timely 10) (aheadOfServer 9) (new 0 0) := by decide +kernel
  have hsessions : (run (step 10) (aheadOfServer 9) (new 0 0)).map sessions =
      some ["s".toUTF8.toList] := by
    decide +kernel
  obtain ⟨g, hrun, heq⟩ := map_eq_some_iff.mp hsessions
  exact ⟨g, hrun, heq, accepted_once 10 0 0 _ g hcare hrun⟩

/-- Then the session is accepted twice. -/
theorem accepted_again :
    (run (step 10) (aheadOfServer 10) (new 0 0)).map sessions =
      some ["s".toUTF8.toList, "s".toUTF8.toList] := by
  decide +kernel

end Accepting

end XrayCore.Xdrive
