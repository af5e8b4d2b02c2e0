/-
  XrayCore.AnyTls.PoolInvariant

  No session of a pool is booked twice.

  A stream is only opened by a call that a session was handed to, and as long as it has not
  finished, the session is reserved.  Sessions of the list are not reserved; so nobody opens
  a stream on them while they are there.
-/

import XrayCore.AnyTls.Pool

namespace XrayCore.AnyTls

open Pool List

/-- What holds between any two steps. -/
structure PoolInv (o : PoolOptions) (c : Pool) : Prop where
  element_iff : ∀ s e, (c.session s).element = some e ↔ (⟨e, s⟩ : Element) ∈ c.idleSessions
  id_lt : ∀ x ∈ c.idleSessions, x.id < c.nextElement
  id_nodup : (c.idleSessions.map Element.id).Nodup
  idle_free : ∀ x ∈ c.idleSessions,
    (c.session x.value).reserved = false ∧ (c.session x.value).streams = []
  idle_known : ∀ x ∈ c.idleSessions, x.value ∈ c.sessions
  idle_le : c.idleSessions.length ≤ o.maxIdleSessions
  held_reserved : ∀ s ∈ c.held, (c.session s).reserved = true
  held_lt : ∀ s ∈ c.held, s < c.nextSession
  held_nodup : c.held.Nodup
  sessions_lt : ∀ s ∈ c.sessions, s < c.nextSession
  live_known : c.closed = false → ∀ s < c.nextSession, (c.session s).phase = .live → s ∈ c.sessions
  creating_eq : c.creating = c.dialers.countP (· = .dialing)
  total_le : c.sessions.card + c.creating ≤ o.maxSessions
  -- What the release that has the lock found out is still so.
  releasing_ok : ∀ r, c.releasing = some r →
    (c.session r.session).reserved = false ∧ r.session ∈ c.sessions

variable {o : PoolOptions} {c : Pool}

theorem newClient_inv : PoolInv o newClient where
  element_iff s e := by simp [newClient, newClientSession]
  id_lt x hx := by cases hx
  id_nodup := nodup_nil
  idle_free x hx := by cases hx
  idle_known x hx := by cases hx
  idle_le := Nat.zero_le _
  held_reserved s hs := by cases hs
  held_lt s hs := by cases hs
  held_nodup := Multiset.nodup_zero
  sessions_lt s hs := by cases hs
  live_known _ s hs := by cases hs
  creating_eq := rfl
  total_le := Nat.zero_le _
  releasing_ok r hr := by cases hr

/-! ## Changes to one session -/

theorem update_session_self (c : Pool) (s : ℕ) (f : Session → Session) :
    (c.update s f).session s = f (c.session s) := if_pos rfl

variable {s : ℕ}

theorem update_session_of_ne (c : Pool) {t : ℕ} (f : Session → Session) (h : t ≠ s) :
    (c.update s f).session t = c.session t := if_neg h

/-- What is true of a session before and after a change is true of all, if it was. -/
theorem update_session_cases (c : Pool) (s : ℕ) (f : Session → Session) (t : ℕ)
    {P : Session → Session → Prop} (hself : P (c.session s) (f (c.session s)))
    (hother : ∀ u, P (c.session u) (c.session u)) : P (c.session t) ((c.update s f).session t) := by
  by_cases h : t = s
  · rw [h, update_session_self]
    exact hself
  · rw [update_session_of_ne c f h]
    exact hother t

/-- A change that opens no stream unless the session is reserved, moves neither the element nor the
    reservation, and after which a live session was live before. -/
theorem PoolInv.update (h : PoolInv o c) (s : ℕ) {f : Session → Session}
    (helement : (f (c.session s)).element = (c.session s).element)
    (hreserved : (f (c.session s)).reserved = (c.session s).reserved)
    (hstreams : (c.session s).reserved = false → (c.session s).streams = [] →
      (f (c.session s)).streams = [])
    (hphase : (f (c.session s)).phase = .live → (c.session s).phase = .live) :
    PoolInv o (c.update s f) := by
  have helement' : ∀ t, ((c.update s f).session t).element = (c.session t).element := fun t =>
    update_session_cases c s f t (P := fun a b => b.element = a.element) helement fun _ => rfl
  have hreserved' : ∀ t, ((c.update s f).session t).reserved = (c.session t).reserved := fun t =>
    update_session_cases c s f t (P := fun a b => b.reserved = a.reserved) hreserved fun _ => rfl
  have hstreams' : ∀ t, (c.session t).reserved = false → (c.session t).streams = [] →
      ((c.update s f).session t).streams = [] :=
    fun t => update_session_cases c s f t
      (P := fun a b => a.reserved = false → a.streams = [] → b.streams = []) hstreams fun _ _ => id
  have hphase' : ∀ t, ((c.update s f).session t).phase = .live → (c.session t).phase = .live :=
    fun t => update_session_cases c s f t
      (P := fun a b => b.phase = .live → a.phase = .live) hphase fun _ => id
  exact
    { h with
      element_iff := fun t e => by
        rw [helement']
        exact h.element_iff t e
      idle_free := fun x hx => by
        rw [hreserved']
        obtain ⟨hfree, hnone⟩ := h.idle_free x hx
        exact ⟨hfree, hstreams' _ hfree hnone⟩
      held_reserved := fun t ht => by
        rw [hreserved']
        exact h.held_reserved t ht
      live_known := fun hclosed t ht hlive => h.live_known hclosed t ht (hphase' t hlive)
      releasing_ok := fun r hr => by
        rw [hreserved']
        exact h.releasing_ok r hr }

theorem removeElement_frame (c : Pool) (x : Element) (t : ℕ) :
    ((c.removeElement x).session t).reserved = (c.session t).reserved ∧
      ((c.removeElement x).session t).streams = (c.session t).streams ∧
      ((c.removeElement x).session t).phase = (c.session t).phase :=
  update_session_cases c x.value (fun s => { s with element := none }) t
    (P := fun a b => b.reserved = a.reserved ∧ b.streams = a.streams ∧ b.phase = a.phase)
    ⟨rfl, rfl, rfl⟩ fun _ => ⟨rfl, rfl, rfl⟩

/-- Nothing that is not in the list is lost with an element of it. -/
theorem PoolInv.removeElement (h : PoolInv o c) {x : Element} (hx : x ∈ c.idleSessions) :
    PoolInv o (c.removeElement x) := by
  have hpoints : (c.session x.value).element = some x.id := (h.element_iff x.value x.id).mpr hx
  have hsub : ∀ y ∈ (c.removeElement x).idleSessions, y ∈ c.idleSessions :=
    fun y hy => mem_of_mem_filter hy
  have hreserved := fun t => (removeElement_frame c x t).1
  have hstreams := fun t => (removeElement_frame c x t).2.1
  have hphase := fun t => (removeElement_frame c x t).2.2
  exact
    { h with
      element_iff := fun t e => by
        have hmem : (⟨e, t⟩ : Element) ∈ (c.removeElement x).idleSessions ↔
            (⟨e, t⟩ : Element) ∈ c.idleSessions ∧ e ≠ x.id := by
          simp [Pool.removeElement, mem_filter]
        rw [hmem, ← h.element_iff]
        by_cases ht : t = x.value
        · -- The session pointed to the element that is gone, and now points to none.
          subst ht
          have hnone : ((c.removeElement x).session x.value).element = none := by
            simp [Pool.removeElement, Pool.update]
          rw [hnone, hpoints]
          constructor
          · intro hsome
            cases hsome
          · rintro ⟨hsome, hne⟩
            exact absurd (Option.some.inj hsome).symm hne
        · have hsame : ((c.removeElement x).session t).element = (c.session t).element := by
            simp [Pool.removeElement, Pool.update, ht]
          rw [hsame]
          refine ⟨fun hsome => ⟨hsome, ?_⟩, And.left⟩
          -- Two elements with one id are one.
          rintro rfl
          have heq := inj_on_of_nodup_map h.id_nodup ((h.element_iff t x.id).mp hsome) hx rfl
          exact ht (congrArg Element.value heq)
      id_lt := fun y hy => h.id_lt y (hsub y hy)
      id_nodup := (filter_sublist.map Element.id).nodup h.id_nodup
      idle_free := fun y hy => by
        rw [hreserved, hstreams]
        exact h.idle_free y (hsub y hy)
      idle_known := fun y hy => h.idle_known y (hsub y hy)
      idle_le := (length_filter_le _ _).trans h.idle_le
      held_reserved := fun t ht => by
        rw [hreserved]
        exact h.held_reserved t ht
      live_known := fun hclosed t ht hlive => h.live_known hclosed t ht (by rwa [hphase] at hlive)
      releasing_ok := fun r hr => by
        rw [hreserved]
        exact h.releasing_ok r hr }

theorem PoolInv.unlist (h : PoolInv o c) (s : ℕ) : PoolInv o (c.unlist s) := by
  rw [Pool.unlist]
  split
  · exact h
  case h_2 e he => exact h.removeElement ((h.element_iff s e).mp he)

/-- What taking a session from the list leaves as it was. -/
theorem unlist_frame (c : Pool) (s : ℕ) :
    (c.unlist s).sessions = c.sessions ∧ (c.unlist s).closed = c.closed ∧
      (c.unlist s).releasing = c.releasing ∧ (c.unlist s).nextSession = c.nextSession ∧
      ∀ t, ((c.unlist s).session t).phase = (c.session t).phase := by
  rw [Pool.unlist]
  split
  · exact ⟨rfl, rfl, rfl, rfl, fun _ => rfl⟩
  · exact ⟨rfl, rfl, rfl, rfl, fun t => (removeElement_frame c _ t).2.2⟩

/-- After that it is in the list no longer. -/
theorem PoolInv.not_mem_unlist (h : PoolInv o c) (s : ℕ) :
    ∀ x ∈ (c.unlist s).idleSessions, x.value ≠ s := by
  intro x hx hvalue
  have hpoints := ((h.unlist s).element_iff x.value x.id).mpr hx
  rw [hvalue, Pool.unlist] at hpoints
  split at hpoints
  case h_1 hnone =>
    rw [hnone] at hpoints
    cases hpoints
  case h_2 =>
    simp [Pool.removeElement, Pool.update] at hpoints

/-- A session that is closed, or of a client that is, leaves the pool. -/
theorem PoolInv.removeSession (h : PoolInv o c) (hlock : c.releasing = none)
    (hgone : (c.session s).phase ≠ .live ∨ c.closed) : PoolInv o (c.removeSession s) := by
  obtain ⟨hsessions, hclosed, hreleasing, hnext, hphase⟩ := unlist_frame c s
  have hu := h.unlist s
  exact
    { hu with
      idle_known := fun x hx =>
        Finset.mem_erase.mpr ⟨h.not_mem_unlist s x hx, hu.idle_known x hx⟩
      sessions_lt := fun t ht => hu.sessions_lt t (Finset.mem_of_mem_erase ht)
      live_known := fun hc t ht hlive => by
        refine Finset.mem_erase.mpr ⟨?_, hu.live_known hc t ht hlive⟩
        rintro rfl
        rcases hgone with hgone | hgone
        · exact hgone (by rw [← hphase]; exact hlive)
        · have hfalse : c.closed = false := hclosed ▸ hc
          rw [hfalse] at hgone
          cases hgone
      total_le := by
        have hcard := Finset.card_erase_le (s := (c.unlist s).sessions) (a := s)
        have htotal := hu.total_le
        simp only [Pool.removeSession]
        omega
      releasing_ok := fun r hr => by
        have hnone : (c.unlist s).releasing = some r := hr
        rw [hreleasing, hlock] at hnone
        cases hnone }

/-! ## Calls that come and go -/

variable {d : Dialer}

theorem filterMap_holds_some (hd : d.holds = some s) (rest : Multiset Dialer) :
    (d ::ₘ rest).filterMap Dialer.holds = s ::ₘ rest.filterMap Dialer.holds :=
  Multiset.filterMap_cons_some _ _ _ hd

theorem filterMap_holds_none (hd : d.holds = none) (rest : Multiset Dialer) :
    (d ::ₘ rest).filterMap Dialer.holds = rest.filterMap Dialer.holds :=
  Multiset.filterMap_cons_none _ _ hd

variable {rest : Multiset Dialer}

theorem held_cons_some {c : Pool} (h : c.dialers = d ::ₘ rest) (hd : d.holds = some s) :
    c.held = s ::ₘ rest.filterMap Dialer.holds := by
  rw [Pool.held, h, filterMap_holds_some hd]

theorem held_cons_none {c : Pool} (h : c.dialers = d ::ₘ rest) (hd : d.holds = none) :
    c.held = rest.filterMap Dialer.holds := by
  rw [Pool.held, h, filterMap_holds_none hd]

theorem countP_dialing_cons (hd : d ≠ .dialing) (rest : Multiset Dialer) :
    (d ::ₘ rest).countP (· = .dialing) = rest.countP (· = .dialing) :=
  Multiset.countP_cons_of_neg _ hd

theorem countP_dialing_self (rest : Multiset Dialer) :
    (Dialer.dialing ::ₘ rest).countP (· = .dialing) = rest.countP (· = .dialing) + 1 :=
  Multiset.countP_cons_of_pos _ rfl

/-- Calls may change as they like, as long as the same sessions are handed out and `creating`
    counts those that dial. -/
theorem PoolInv.calls (h : PoolInv o c) {dialers : Multiset Dialer} {creating : ℕ}
    (hheld : dialers.filterMap Dialer.holds = c.held)
    (hcreating : creating = dialers.countP (· = .dialing))
    (htotal : c.sessions.card + creating ≤ o.maxSessions) :
    PoolInv o { c with creating := creating, dialers := dialers } :=
  { h with
    held_reserved := fun s hs => h.held_reserved s (by rw [← hheld]; exact hs)
    held_lt := fun s hs => h.held_lt s (by rw [← hheld]; exact hs)
    held_nodup := by
      rw [Pool.held, hheld]
      exact h.held_nodup
    creating_eq := hcreating
    total_le := htotal }

/-- A session that is neither in the list nor handed out is handed to a call. -/
theorem PoolInv.reserve (h : PoolInv o c) (idle : Bool) (hlock : c.releasing = none)
    (hlisted : ∀ x ∈ c.idleSessions, x.value ≠ s) (hheld : s ∉ c.held) (hs : s < c.nextSession) :
    PoolInv o { c.update s (fun t => { t with reserved := true }) with
      dialers := .took s idle ::ₘ c.dialers } := by
  have hcons : (Dialer.took s idle ::ₘ c.dialers).filterMap Dialer.holds = s ::ₘ c.held :=
    filterMap_holds_some rfl _
  have hsame : ∀ t, ((c.update s fun u => { u with reserved := true }).session t).element =
      (c.session t).element ∧
      ((c.update s fun u => { u with reserved := true }).session t).phase = (c.session t).phase :=
    fun t => update_session_cases c s _ t
      (P := fun a b => b.element = a.element ∧ b.phase = a.phase) ⟨rfl, rfl⟩ fun _ => ⟨rfl, rfl⟩
  exact
    { h with
      element_iff := fun t e => by
        rw [(hsame t).1]
        exact h.element_iff t e
      idle_free := fun x hx => by
        rw [update_session_of_ne c _ (hlisted x hx)]
        exact h.idle_free x hx
      held_reserved := fun t ht => by
        rw [Pool.held, hcons] at ht
        by_cases hts : t = s
        · rw [hts, update_session_self]
        · rw [update_session_of_ne c _ hts]
          exact h.held_reserved t ((Multiset.mem_cons.mp ht).resolve_left hts)
      held_lt := fun t ht => by
        rw [Pool.held, hcons] at ht
        rcases Multiset.mem_cons.mp ht with rfl | ht
        · exact hs
        · exact h.held_lt t ht
      held_nodup := by
        rw [Pool.held, hcons]
        exact Multiset.nodup_cons.mpr ⟨hheld, h.held_nodup⟩
      live_known := fun hclosed t ht hlive =>
        h.live_known hclosed t ht (by rwa [(hsame t).2] at hlive)
      creating_eq := h.creating_eq.trans (countP_dialing_cons (d := .took s idle) nofun _).symm
      releasing_ok := fun _ hr => (nomatch hlock.symm.trans hr) }

/-- The only call that a session was handed to finishes with it. -/
theorem PoolInv.finishReservation (h : PoolInv o c) {dialers : Multiset Dialer}
    (hlock : c.releasing = none) (hcalls : c.dialers = d ::ₘ rest) (hd : d.holds = some s)
    (hdialing : d ≠ .dialing) (hheld : dialers.filterMap Dialer.holds = rest.filterMap Dialer.holds)
    (hcount : dialers.countP (· = .dialing) = rest.countP (· = .dialing)) :
    PoolInv o { c.finishReservation s with dialers := dialers } := by
  have hcons := held_cons_some hcalls hd
  have hnodup := h.held_nodup
  rw [hcons, Multiset.nodup_cons] at hnodup
  have hsame : ∀ t, ((c.finishReservation s).session t).element = (c.session t).element ∧
      ((c.finishReservation s).session t).phase = (c.session t).phase ∧
      ((c.finishReservation s).session t).streams = (c.session t).streams :=
    fun t => update_session_cases c s _ t
      (P := fun a b => b.element = a.element ∧ b.phase = a.phase ∧ b.streams = a.streams)
      ⟨rfl, rfl, rfl⟩ fun _ => ⟨rfl, rfl, rfl⟩
  have hfree : ∀ t, (c.session t).reserved = false →
      ((c.finishReservation s).session t).reserved = false :=
    fun t => update_session_cases c s _ t
      (P := fun a b => a.reserved = false → b.reserved = false) (fun _ => rfl) fun _ => id
  exact
    { h with
      element_iff := fun t e => by
        rw [(hsame t).1]
        exact h.element_iff t e
      idle_free := fun x hx => by
        rw [(hsame x.value).2.2]
        exact ⟨hfree _ (h.idle_free x hx).1, (h.idle_free x hx).2⟩
      held_reserved := fun t ht => by
        rw [Pool.held, hheld] at ht
        have hne : t ≠ s := by
          rintro rfl
          exact hnodup.1 ht
        rw [Pool.finishReservation, update_session_of_ne c _ hne]
        exact h.held_reserved t (by rw [hcons]; exact Multiset.mem_cons_of_mem ht)
      held_lt := fun t ht => by
        rw [Pool.held, hheld] at ht
        exact h.held_lt t (by rw [hcons]; exact Multiset.mem_cons_of_mem ht)
      held_nodup := by
        rw [Pool.held, hheld]
        exact hnodup.2
      live_known := fun hclosed t ht hlive =>
        h.live_known hclosed t ht (by rwa [(hsame t).2.1] at hlive)
      creating_eq := by
        have hcreating := h.creating_eq
        rw [hcalls, countP_dialing_cons hdialing, ← hcount] at hcreating
        exact hcreating
      releasing_ok := fun _ hr => (nomatch hlock.symm.trans hr) }

/-! ## Steps -/

variable {c' : Pool}

theorem PoolInv.takeIdleSession (h : PoolInv o c) (hlock : c.releasing = none)
    (htake : c.takeIdleSession = some (s, c')) :
    PoolInv o { c' with dialers := .took s true ::ₘ c.dialers } := by
  rw [Pool.takeIdleSession] at htake
  split at htake
  · cases htake
  split at htake
  · cases htake
  case h_2 x xs hidle =>
    obtain ⟨rfl, rfl⟩ := Prod.mk.inj (Option.some.inj htake)
    have hx : x ∈ c.idleSessions := by
      rw [hidle]
      exact mem_cons_self
    -- Who holds a session has it reserved, and this one was in the list.
    have hheld : x.value ∉ (c.removeElement x).held := by
      intro hmem
      have hreserved := h.held_reserved x.value hmem
      rw [(h.idle_free x hx).1] at hreserved
      cases hreserved
    have hlisted : ∀ y ∈ (c.removeElement x).idleSessions, y.value ≠ x.value := by
      have hunlist : c.unlist x.value = c.removeElement x := by
        rw [Pool.unlist, (h.element_iff x.value x.id).mpr hx]
      rw [← hunlist]
      exact h.not_mem_unlist x.value
    exact (h.removeElement hx).reserve true hlock hlisted hheld
      (h.sessions_lt _ (h.idle_known x hx))

theorem PoolInv.openStream (h : PoolInv o c) {idle : Bool}
    (hcalls : c.dialers = .took s idle ::ₘ rest) :
    PoolInv o { (c.openStream s).2 with
      dialers := .opened s idle (c.openStream s).1 ::ₘ rest } := by
  have hreserved : (c.session s).reserved = true := by
    apply h.held_reserved
    rw [held_cons_some hcalls rfl]
    exact Multiset.mem_cons_self _ _
  have h₁ : PoolInv o (c.update s fun t => { t with streamID := t.streamID + 1 }) :=
    h.update s rfl rfl (fun _ => id) id
  -- The session is reserved, so a stream may be opened on it.
  have hopened : PoolInv o (c.openStream s).2 := by
    rw [Pool.openStream]
    split
    · exact h₁
    · dsimp only
      apply h₁.update s
      · rfl
      · rfl
      · intro hfree
        rw [update_session_self, hreserved] at hfree
        cases hfree
      · exact id
  have hframe : (c.openStream s).2.dialers = c.dialers ∧
      (c.openStream s).2.creating = c.creating := by
    rw [Pool.openStream]
    split
    · exact ⟨rfl, rfl⟩
    · exact ⟨rfl, rfl⟩
  refine hopened.calls ?_ ?_ hopened.total_le
  · rw [Pool.held, hframe.1, hcalls, filterMap_holds_some (d := .took s idle) rfl,
      filterMap_holds_some (d := .opened s idle _) rfl]
  · rw [hframe.2, h.creating_eq, hcalls, countP_dialing_cons (d := .took s idle) nofun,
      countP_dialing_cons (d := .opened s idle _) nofun]

theorem PoolInv.createSession (h : PoolInv o c) (hcalls : c.dialers = .wantCreate ::ₘ rest)
    (hok : Pool.createSession o c = .ok c') :
    PoolInv o { c' with dialers := .dialing ::ₘ rest } := by
  rw [Pool.createSession] at hok
  split at hok
  · cases hok
  split at hok
  · cases hok
  case isFalse hlimit =>
    obtain rfl := Except.ok.inj hok
    have hheld : (Dialer.dialing ::ₘ rest).filterMap Dialer.holds = c.held := by
      rw [held_cons_none hcalls rfl, filterMap_holds_none rfl]
    have hcount : c.creating + 1 = (Dialer.dialing ::ₘ rest).countP (· = .dialing) := by
      rw [countP_dialing_self, h.creating_eq, hcalls, countP_dialing_cons (d := .wantCreate) nofun]
    have htotal : c.sessions.card + (c.creating + 1) ≤ o.maxSessions := by omega
    exact h.calls hheld hcount htotal

theorem PoolInv.createFailed (h : PoolInv o c) (hcalls : c.dialers = .dialing ::ₘ rest) :
    PoolInv o { c with creating := c.creating - 1, dialers := rest } := by
  have hcreating := h.creating_eq
  rw [hcalls, countP_dialing_self] at hcreating
  have htotal := h.total_le
  refine h.calls (held_cons_none hcalls rfl).symm ?_ ?_
  · omega
  · omega

/-- A session that nobody knows yet joins the pool. -/
theorem PoolInv.join (h : PoolInv o c) (hlock : c.releasing = none)
    (hcalls : c.dialers = .dialing ::ₘ rest) :
    PoolInv o { c.update c.nextSession (fun _ => newClientSession) with
      sessions := insert c.nextSession c.sessions
      creating := c.creating - 1
      nextSession := c.nextSession + 1
      dialers := rest } := by
  have h₁ := h.createFailed hcalls
  have hfresh : c.nextSession ∉ c.sessions := fun hmem => (h.sessions_lt _ hmem).false
  have hlisted : ∀ x ∈ c.idleSessions, x.value ≠ c.nextSession := by
    intro x hx heq
    exact hfresh (heq ▸ h.idle_known x hx)
  exact
    { h₁ with
      element_iff := fun t e => by
        by_cases ht : t = c.nextSession
        · subst ht
          rw [update_session_self]
          refine ⟨nofun, fun hmem => ?_⟩
          exact absurd rfl (hlisted _ hmem)
        · rw [update_session_of_ne c _ ht]
          exact h.element_iff t e
      idle_free := fun x hx => by
        rw [update_session_of_ne c _ (hlisted x hx)]
        exact h.idle_free x hx
      idle_known := fun x hx => Finset.mem_insert_of_mem (h.idle_known x hx)
      held_reserved := fun t ht => by
        rw [update_session_of_ne c _ (h₁.held_lt t ht).ne]
        exact h₁.held_reserved t ht
      held_lt := fun t ht => (h₁.held_lt t ht).trans (Nat.lt_succ_self _)
      sessions_lt := fun t ht => by
        rcases Finset.mem_insert.mp ht with rfl | ht
        · exact Nat.lt_succ_self _
        · exact (h.sessions_lt t ht).trans (Nat.lt_succ_self _)
      live_known := fun hclosed t ht hlive => by
        rcases Nat.lt_succ_iff_lt_or_eq.mp ht with hlt | rfl
        · rw [update_session_of_ne c _ hlt.ne] at hlive
          exact Finset.mem_insert_of_mem (h.live_known hclosed t hlt hlive)
        · exact Finset.mem_insert_self _ _
      total_le := by
        have htotal := h.total_le
        have hcreating := h.creating_eq
        rw [hcalls, countP_dialing_self] at hcreating
        simp only [Finset.card_insert_of_notMem hfresh]
        omega
      releasing_ok := fun _ hr => (nomatch hlock.symm.trans hr) }

theorem PoolInv.publishSession (h : PoolInv o c) (hlock : c.releasing = none)
    (hcalls : c.dialers = .dialing ::ₘ rest) (hok : c.publishSession = some c') :
    PoolInv o { c' with dialers := .took c.nextSession false ::ₘ rest } := by
  have hheld := held_cons_none hcalls rfl
  have hjoined := (h.join hlock hcalls).reserve (s := c.nextSession) false hlock
    (fun x hx heq => (h.sessions_lt _ (h.idle_known x hx)).ne heq)
    (fun hmem => (h.held_lt c.nextSession (by rw [hheld]; exact hmem)).false) (Nat.lt_succ_self _)
  rw [Pool.publishSession] at hok
  split at hok
  · cases hok
  · obtain rfl := Option.some.inj hok
    convert hjoined using 1
    -- Both give the new session and leave the others.
    simp only [Pool.update, Pool.mk.injEq, true_and, and_true]
    funext t
    split
    · rfl
    · rfl

theorem PoolInv.beginControl (h : PoolInv o c) (s : ℕ) : PoolInv o (c.beginControl s) :=
  PoolInv.unlist (h.update s rfl rfl (fun _ => id) id) s

/-- The lock is given back, or the release goes on to its second look. -/
theorem PoolInv.releasing (h : PoolInv o c) {releasing : Option Releasing}
    (hok : ∀ r, releasing = some r →
      (c.session r.session).reserved = false ∧ r.session ∈ c.sessions) :
    PoolInv o { c with releasing := releasing } :=
  { h with releasing_ok := hok }

theorem PoolInv.releaseSession (h : PoolInv o c) (hlock : c.releasing = none)
    (hs : s < c.nextSession) : PoolInv o (Pool.releaseSession o c s) := by
  rw [Pool.releaseSession]
  split
  case isTrue hgone =>
    apply h.removeSession hlock
    rcases hgone with hgone | hgone
    · exact .inl (of_decide_eq_true hgone)
    · exact .inr hgone
  case isFalse hlive =>
    split
    · exact h
    case isFalse hfree =>
      split
      · exact h
      have hclosed : c.closed = false := by
        cases hc : c.closed with
        | false => rfl
        | true => exact absurd (.inr hc) hlive
      have hphase : (c.session s).phase = .live := by
        by_contra hne
        exact hlive (.inl (decide_eq_true hne))
      have hreserved : (c.session s).reserved = false := by
        cases hr : (c.session s).reserved with
        | false => rfl
        | true => exact absurd (.inl hr) hfree
      have hupdate : PoolInv o (c.update s fun t => { t with keepOnce := false }) :=
        h.update s rfl rfl (fun _ => id) id
      apply hupdate.releasing
      intro r hr
      obtain rfl := Option.some.inj hr
      rw [update_session_self]
      exact ⟨hreserved, h.live_known hclosed s hs hphase⟩

theorem PoolInv.releaseUnused (h : PoolInv o c) {r : Releasing} (hr : c.releasing = some r) :
    PoolInv o (c.releaseUnused r) := by
  rw [Pool.releaseUnused]
  split
  · exact (h.unlist r.session).releasing nofun
  · apply h.releasing
    intro r' hr'
    obtain rfl := Option.some.inj hr'
    exact h.releasing_ok r hr

/-- A session that is neither reserved nor in the list, and has no streams, joins the list. -/
theorem PoolInv.push (h : PoolInv o c) (now : ℤ) (hreserved : (c.session s).reserved = false)
    (hstreams : (c.session s).streams = []) (helement : (c.session s).element = none)
    (hknown : s ∈ c.sessions) (hroom : c.idleSessions.length < o.maxIdleSessions) :
    PoolInv o { c.update s
        (fun t => { t with idleSince := now, element := some c.nextElement }) with
      idleSessions := ⟨c.nextElement, s⟩ :: c.idleSessions
      nextElement := c.nextElement + 1
      releasing := none } := by
  have hsame : ∀ t, ((c.update s fun u =>
        { u with idleSince := now, element := some c.nextElement }).session t).reserved =
        (c.session t).reserved ∧
      ((c.update s fun u =>
        { u with idleSince := now, element := some c.nextElement }).session t).streams =
        (c.session t).streams ∧
      ((c.update s fun u =>
        { u with idleSince := now, element := some c.nextElement }).session t).phase =
        (c.session t).phase :=
    fun t => update_session_cases c s _ t
      (P := fun a b => b.reserved = a.reserved ∧ b.streams = a.streams ∧ b.phase = a.phase)
      ⟨rfl, rfl, rfl⟩ fun _ => ⟨rfl, rfl, rfl⟩
  exact
    { h with
      element_iff := fun t e => by
        rw [mem_cons, ← h.element_iff]
        by_cases ht : t = s
        · subst ht
          rw [update_session_self, helement]
          simp [eq_comm]
        · rw [update_session_of_ne c _ ht]
          simp [ht]
      id_lt := forall_mem_cons.mpr
        ⟨Nat.lt_succ_self _, fun x hx => (h.id_lt x hx).trans (Nat.lt_succ_self _)⟩
      id_nodup := by
        rw [map_cons, nodup_cons]
        refine ⟨fun hmem => ?_, h.id_nodup⟩
        obtain ⟨x, hx, hid⟩ := mem_map.mp hmem
        exact (h.id_lt x hx).ne hid
      idle_free := fun x hx => by
        rw [(hsame x.value).1, (hsame x.value).2.1]
        rcases mem_cons.mp hx with rfl | hx
        · exact ⟨hreserved, hstreams⟩
        · exact h.idle_free x hx
      idle_known := forall_mem_cons.mpr ⟨hknown, h.idle_known⟩
      idle_le := hroom
      held_reserved := fun t ht => by
        rw [(hsame t).1]
        exact h.held_reserved t ht
      live_known := fun hclosed t ht hlive =>
        h.live_known hclosed t ht (by rwa [(hsame t).2.2] at hlive)
      releasing_ok := nofun }

theorem PoolInv.releaseIdle (h : PoolInv o c) {r : Releasing} (hr : c.releasing = some r)
    (now : ℤ) :
    PoolInv o (Pool.releaseIdle o c r now) := by
  obtain ⟨hreserved, hknown⟩ := h.releasing_ok r hr
  rw [Pool.releaseIdle]
  split
  case isTrue hidle =>
    obtain ⟨hstreams, -, helement⟩ := hidle
    split
    · exact h.releasing nofun
    case isFalse hroom =>
      have hnone : (c.session r.session).streams = [] := by
        apply eq_nil_of_length_eq_zero
        simpa [Session.hasStreams] using hstreams
      exact h.push now hreserved hnone helement hknown (Nat.lt_of_not_le hroom)
  case isFalse => exact h.releasing nofun

theorem PoolInv.foldl_unlist (h : PoolInv o c) (xs : List Element) :
    PoolInv o (xs.foldl (fun c x => c.unlist x.value) c) := by
  induction xs generalizing c with
  | nil => exact h
  | cons x xs ih => exact ih (h.unlist x.value)

theorem PoolInv.closeIdleConnections (h : PoolInv o c) : PoolInv o c.closeIdleConnections := by
  rw [Pool.closeIdleConnections]
  split
  · exact h
  · exact h.foldl_unlist _

theorem expired_sublist (o : PoolOptions) (session : ℕ → Session) (deadline : ℤ)
    (xs : List Element) (len : ℕ) : (expired o session deadline xs len).Sublist xs := by
  induction xs generalizing len with
  | nil => exact List.Sublist.slnil
  | cons x xs ih =>
    rw [expired]
    split
    · split
      · exact nil_sublist _
      · split
        · exact (ih len).cons x
        · exact (ih (len - 1)).cons_cons x
    · exact nil_sublist _

theorem PoolInv.foldl_removeElement (h : PoolInv o c) {xs : List Element}
    (hnodup : (xs.map Element.id).Nodup) (hmem : ∀ x ∈ xs, x ∈ c.idleSessions) :
    PoolInv o (xs.foldl Pool.removeElement c) := by
  induction xs generalizing c with
  | nil => exact h
  | cons x xs ih =>
    rw [map_cons, nodup_cons] at hnodup
    refine ih (h.removeElement (hmem x mem_cons_self)) hnodup.2 ?_
    intro y hy
    -- Another element of the loop is still in the list.
    have hne : y.id ≠ x.id := fun heq => hnodup.1 (heq ▸ mem_map_of_mem hy)
    exact mem_filter.mpr ⟨hmem y (mem_cons_of_mem _ hy), decide_eq_true hne⟩

theorem PoolInv.cleanupIdleSessions (h : PoolInv o c) (now : ℤ) :
    PoolInv o (Pool.cleanupIdleSessions o c now) := by
  rw [Pool.cleanupIdleSessions]
  split
  · exact h
  have hsub := expired_sublist o c.session (now - o.idleTimeout) c.idleSessions.reverse
    c.idleSessions.length
  apply h.foldl_removeElement
  · apply (hsub.map Element.id).nodup
    rw [map_reverse, nodup_reverse]
    exact h.id_nodup
  · intro x hx
    exact mem_reverse.mp (hsub.subset hx)

theorem PoolInv.close (h : PoolInv o c) (hlock : c.releasing = none) : PoolInv o c.close := by
  rw [Pool.close]
  split
  · exact h
  have hsame : ∀ t, (if t ∈ c.sessions then { c.session t with element := none }
      else c.session t).reserved = (c.session t).reserved := by
    intro t
    split
    · rfl
    · rfl
  exact
    { h with
      element_iff := fun t e => by
        simp only [not_mem_nil, iff_false]
        split
        · nofun
        case isFalse hout =>
          -- What points to an element is in the list, and so it is a session of the pool.
          intro hsome
          exact hout (h.idle_known _ ((h.element_iff t e).mp hsome))
      id_lt := nofun
      id_nodup := nodup_nil
      idle_free := nofun
      idle_known := nofun
      idle_le := Nat.zero_le _
      held_reserved := fun t ht => (hsame t).trans (h.held_reserved t ht)
      sessions_lt := fun t ht => absurd ht (Finset.notMem_empty t)
      live_known := nofun
      total_le := by
        rw [Finset.card_empty, Nat.zero_add]
        exact (Nat.le_add_left _ _).trans h.total_le
      releasing_ok := fun _ hr => (nomatch hlock.symm.trans hr) }

theorem PoolStep.inv {c : Pool} (hstep : PoolStep o c c') (h : PoolInv o c) : PoolInv o c' := by
  cases hstep with
  | dialIdle hlock htake => exact h.takeIdleSession hlock htake
  | dialNew =>
    exact h.calls (filterMap_holds_none (d := .wantCreate) rfl _)
      (h.creating_eq.trans (countP_dialing_cons (d := .wantCreate) nofun _).symm) h.total_le
  | openStream hcalls => exact h.openStream hcalls
  | @finishIdle s ok rest hlock hcalls =>
    exact h.finishReservation hlock hcalls rfl nofun
      (filterMap_holds_none (d := .finished s ok) rfl _)
      (countP_dialing_cons (d := .finished s ok) nofun _)
  | finishNew hlock hcalls => exact h.finishReservation hlock hcalls rfl nofun rfl rfl
  | @dialReturn s rest hcalls =>
    refine h.calls (held_cons_none hcalls rfl).symm ?_ h.total_le
    rw [h.creating_eq, hcalls, countP_dialing_cons (d := .finished s true) nofun]
  | @dialAgain s ok rest hcalls =>
    refine h.calls ?_ ?_ h.total_le
    · rw [held_cons_none hcalls rfl, filterMap_holds_none rfl]
    · rw [h.creating_eq, hcalls, countP_dialing_cons (d := .finished s ok) nofun,
        countP_dialing_cons (d := .wantCreate) nofun]
  | createRefused hlock hcalls =>
    refine h.calls (held_cons_none hcalls rfl).symm ?_ h.total_le
    rw [h.creating_eq, hcalls, countP_dialing_cons (d := .wantCreate) nofun]
  | create hlock hcalls hok => exact h.createSession hcalls hok
  | createFailed hlock hcalls => exact h.createFailed hcalls
  | publish hlock hcalls hok => exact h.publishSession hlock hcalls hok
  | beginControl hlock hs => exact h.beginControl _
  | endControl hlock hs => exact h.update _ rfl rfl (fun _ => id) id
  | release hlock hs => exact h.releaseSession hlock hs
  | releaseUnused hr => exact h.releaseUnused hr
  | releaseIdle now hr => exact h.releaseIdle hr now
  | finishStream s id =>
    refine h.update s rfl rfl (fun _ hnone => ?_) (fun hlive => hlive)
    rw [hnone, filter_nil]
  | closeDone => exact h.update _ rfl rfl (fun _ => id) nofun
  | closeStreams => exact h.update _ rfl rfl (fun _ _ => rfl) nofun
  | @closeRemove s hlock hphase =>
    have hgone : (c.session s).phase ≠ .live := by
      rw [hphase]
      nofun
    exact (h.removeSession hlock (.inl hgone)).update s rfl rfl (fun _ => id) nofun
  | keepOnce s => exact h.update s rfl rfl (fun _ => id) id
  | writeLock s => exact h.update s rfl rfl (fun _ => id) id
  | setCloseIdle => exact { h with }
  | closeIdleConnections => exact h.closeIdleConnections
  | cleanup now => exact h.cleanupIdleSessions now
  | close hlock => exact h.close hlock

/-! ## No session is booked twice -/

/-- What is promised of the pool. -/
structure NeverDoubleBooked (o : PoolOptions) (c : Pool) : Prop where
  listed_once : (c.idleSessions.map Element.value).Nodup
  listed_iff : ∀ s, s ∈ c.idleSessions.map Element.value ↔ (c.session s).element.isSome
  idle_free : ∀ s ∈ c.idleSessions.map Element.value,
    (c.session s).reserved = false ∧ (c.session s).hasStreams = false
  handed_once : c.held.Nodup
  idle_le : c.idleSessions.length ≤ o.maxIdleSessions
  total_le : c.sessions.card + c.creating ≤ o.maxSessions

theorem PoolInv.neverDoubleBooked (h : PoolInv o c) : NeverDoubleBooked o c where
  listed_once := by
    -- Two elements of one session have the id that it points to.
    rw [nodup_map_iff_inj_on h.id_nodup.of_map]
    intro x hx y hy hvalue
    have hid := (h.element_iff x.value x.id).mpr hx
    rw [hvalue, (h.element_iff y.value y.id).mpr hy] at hid
    exact inj_on_of_nodup_map h.id_nodup hx hy (Option.some.inj hid).symm
  listed_iff s := by
    rw [mem_map, Option.isSome_iff_exists]
    constructor
    · rintro ⟨x, hx, rfl⟩
      exact ⟨x.id, (h.element_iff x.value x.id).mpr hx⟩
    · rintro ⟨e, he⟩
      exact ⟨⟨e, s⟩, (h.element_iff s e).mp he, rfl⟩
  idle_free s hs := by
    obtain ⟨x, hx, rfl⟩ := mem_map.mp hs
    obtain ⟨hreserved, hstreams⟩ := h.idle_free x hx
    refine ⟨hreserved, ?_⟩
    rw [Session.hasStreams, hstreams]
    rfl
  handed_once := h.held_nodup
  idle_le := h.idle_le
  total_le := h.total_le

/-- Whatever the order of the critical sections, no session is ever booked twice. -/
theorem pool_never_double_books (o : PoolOptions) {c : Pool}
    (hreach : Relation.ReflTransGen (PoolStep o) newClient c) : NeverDoubleBooked o c :=
  (Machine.reach_closed (P := PoolInv o) (fun _ h _ hstep => hstep.inv h) newClient_inv
    hreach).neverDoubleBooked

/-- Limits of one session of each kind. -/
def oneSession : PoolOptions := ⟨0, 1, 1, 1, false, true, 30⟩

/-- A call makes a session and opens a stream, which finishes; the session joins the list, and a
    second call takes it from there. -/
theorem pool_never_double_books_reused :
    ∃ c c', Relation.ReflTransGen (PoolStep oneSession) newClient c ∧ c.idleSessions = [⟨0, 0⟩] ∧
      NeverDoubleBooked oneSession c ∧
      Relation.ReflTransGen (PoolStep oneSession) c c' ∧ c'.held = {0} ∧
      NeverDoubleBooked oneSession c' := by
  have hreach : ∃ c, Relation.ReflTransGen (PoolStep oneSession) newClient c ∧
      c.idleSessions = [⟨0, 0⟩] ∧ c.closed = false ∧ c.releasing = none ∧ c.dialers = 0 := by
    refine ⟨?final, ?hreach, ?hfinal⟩
    case hreach =>
      refine .head (.dialNew rfl rfl) ?_
      refine .head (@PoolStep.create _ _ _ 0 rfl rfl rfl) ?_
      refine .head (@PoolStep.publish _ _ _ 0 rfl rfl rfl) ?_
      refine .head (@PoolStep.openStream _ _ 0 false 0 rfl) ?_
      refine .head (@PoolStep.finishNew _ _ 0 true 0 rfl rfl) ?_
      refine .head (.finishStream 0 1) ?_
      refine .head (.release (s := 0) rfl (Nat.lt_succ_self 0)) ?_
      refine .head (.releaseUnused (r := ⟨0, false, false⟩) rfl rfl) ?_
      refine .head (.releaseIdle (r := ⟨0, false, true⟩) 5 rfl rfl) ?_
      exact .refl
    case hfinal => exact ⟨rfl, rfl, rfl, rfl⟩
  obtain ⟨c, hc, hidle, hclosed, hlock, hdialers⟩ := hreach
  have htake : c.takeIdleSession =
      some (0, (c.removeElement ⟨0, 0⟩).update 0 fun s => { s with reserved := true }) := by
    rw [Pool.takeIdleSession, hclosed, hidle]
    rfl
  refine ⟨c, _, hc, hidle, pool_never_double_books oneSession hc,
    .single (.dialIdle hlock htake), ?_,
    pool_never_double_books oneSession (hc.tail (.dialIdle hlock htake))⟩
  rw [Pool.held, hdialers]
  rfl

end XrayCore.AnyTls
