/-
  XrayCore.Vless.TicketRuns

  Runs of the ticket server: what its sweeps and handshakes keep.

  The tickets stored so far are, in the order of their issue, those that were swept
  followed by those of `Tickets`. `Ledger` says so and what `Lasts` may still name: a
  ticket of the second part, or a minute that no sweep will look at again. A late
  sweep skips minutes and leaves such entries behind.
-/

import XrayCore.Vless.Tickets

namespace XrayCore.Vless

open Machine Relation List Option Function

variable {cfg : ServerSettings} {s s' : ServerState}

/-! ## What a section does -/

theorem clockTo_eq_some {now : ℤ} (h : clockTo s now = some s') :
    (s.clock ≤ now ∧ -2 ^ 63 ≤ now ∧ now < 2 ^ 63) ∧ s' = { s with clock := now } := by
  unfold clockTo at h
  split at h
  · next hnow => exact ⟨hnow, (some.inj h).symm⟩
  · cases h

/-- A 1-RTT handshake puts a new ticket on record, and remembers it if its life is positive. -/
theorem handshake_cases {random : Ticket} {draw : ℕ} (h : handshake cfg s random draw = some s') :
    ∃ seconds ticket, cfg.drawSeconds draw = some seconds ∧
      decodeLength ticket = seconds % 65536 ∧ ticket ∉ s.issued.map Issue.ticket ∧
      (0 < seconds ∧ cfg.remembers = true ∧ s' = { s with
          lasts := update s.lasts (cfg.lastMinute s.clock) (some ticket)
          tickets := s.tickets ++ [ticket]
          sessions := update s.sessions ticket (some s.allocated)
          nfsKeys := update s.nfsKeys s.allocated []
          allocated := s.allocated + 1
          issued := s.issued ++ [⟨ticket, s.clock, seconds⟩] } ∨
        seconds ≤ 0 ∧ s' = { s with issued := s.issued ++ [⟨ticket, s.clock, seconds⟩] }) := by
  obtain ⟨seconds, hdraw, h⟩ := bind_eq_some_iff.mp h
  refine ⟨seconds, tellSeconds seconds random, hdraw, decodeLength_tellSeconds _ _, ?_⟩
  dsimp only at h
  split at h
  · cases h
  next hfresh =>
  refine ⟨hfresh, ?_⟩
  obtain ⟨stored, hstored, rfl⟩ := map_eq_some_iff.mp h
  unfold storeTicket at hstored
  split at hstored
  · next hpos =>
    split at hstored
    · next hmaps =>
      cases hstored
      exact .inl ⟨hpos, hmaps, rfl⟩
    · cases hstored
  · next hnot =>
    cases hstored
    exact .inr ⟨by omega, rfl⟩

/-- What is left in `Lasts` behind a sweep was there before, under another minute. -/
theorem lasts_after_sweep {lasts : ℤ → Option Ticket} {minute m : ℤ} {ticket : Ticket}
    (h : update (update lasts minute none) (minute - 1) none m = some ticket) :
    m ≠ minute ∧ lasts m = some ticket := by
  by_cases hbefore : m = minute - 1
  · subst hbefore
    rw [update_self] at h
    cases h
  rw [update_of_ne hbefore] at h
  by_cases hsame : m = minute
  · subst hsame
    rw [update_self] at h
    cases h
  rw [update_of_ne hsame] at h
  exact ⟨hsame, h⟩

/-- A sweep forgets its minute, and with it the tickets up to the one found there, if any. -/
theorem sweep_cases (now : ℤ) (s : ServerState) :
    (∃ lasts, (∀ m ticket, lasts m = some ticket → m ≠ now.tdiv 60 ∧ s.lasts m = some ticket) ∧
      (sweep now s = { s with lasts := lasts } ∨
        ∃ last, s.lasts (now.tdiv 60) = some last ∧ sweep now s = { s with
          lasts := lasts
          tickets := (sweepThrough last s.tickets s.tickets s.sessions).1
          sessions := (sweepThrough last s.tickets s.tickets s.sessions).2 })) := by
  refine ⟨_, fun m ticket => lasts_after_sweep, ?_⟩
  unfold sweep
  dsimp only
  cases hlast : s.lasts (now.tdiv 60) with
  | none => exact .inl (if_neg (by simp))
  | some last =>
    by_cases hzero : last = Vector.replicate 16 0
    · exact .inl (if_neg (by simpa using hzero))
    · exact .inr ⟨last, rfl, if_pos (by simpa using hzero)⟩

/-- A sweep: the clock goes on, and then the tickets of the minute go. -/
theorem sweep_of_step {now : ℤ} (h : ticketStep cfg s (.sweep now) = some s') :
    ∃ mid, clockTo s now = some mid ∧ s' = sweep now mid := by
  simp only [ticketStep] at h
  split at h
  · obtain ⟨mid, hmid, hsweep⟩ := map_eq_some_iff.mp h
    exact ⟨mid, hmid, hsweep.symm⟩
  · cases h

/-- The end of a 0-RTT handshake: refused, or accepted with a key its session did not know. -/
theorem use_cases {p : ℕ} {request : Request} (h : ticketStep cfg s (.use p request) = some s') :
    (p, request) ∈ s.inFlight ∧
      (s' = { s with inFlight := s.inFlight.erase (p, request) } ∨
        request.nfsKey ∉ s.nfsKeys p ∧ s' = { s with
          inFlight := s.inFlight.erase (p, request)
          nfsKeys := update s.nfsKeys p (request.nfsKey :: s.nfsKeys p)
          accepted := s.accepted ++ [request] }) := by
  simp only [ticketStep, useSession] at h
  split at h
  · next hflight =>
    refine ⟨hflight, ?_⟩
    by_cases hknown : request.nfsKey ∈ s.nfsKeys p
    · simp only [if_pos hknown, some.injEq] at h
      exact .inl h.symm
    · simp only [if_neg hknown, some.injEq] at h
      exact .inr ⟨hknown, h.symm⟩
  · cases h

/-! ## Tickets, issue times and `Lasts` -/

/-- The tickets stored so far: `gone` were swept, `live` are in `Tickets`. -/
structure Ledger (cfg : ServerSettings) (s : ServerState) (gone live : List Issue) : Prop where
  hstored : s.issued.filter (fun e => 0 < e.seconds) = gone ++ live
  htickets : s.tickets = live.map Issue.ticket
  hfresh : (s.issued.map Issue.ticket).Nodup
  horder : s.issued.Pairwise fun a b => a.time ≤ b.time
  htime : ∀ e ∈ s.issued, -2 ^ 63 ≤ e.time ∧ e.time ≤ s.clock
  htold : ∀ e ∈ s.issued, decodeLength e.ticket = e.seconds % 65536
  hbound : ∀ e ∈ gone ++ live, cfg.remembers = true ∧
    e.seconds ≤ max cfg.secondsFrom cfg.secondsTo
  hlive : ∀ e ∈ live, (s.sessions e.ticket).isSome
  hgone : ∀ e ∈ gone, e.time + max cfg.secondsFrom cfg.secondsTo < s.clock
  hlasts : ∀ m ticket, s.lasts m = some ticket → ∃ e ∈ gone ++ live, e.ticket = ticket ∧
    cfg.lastMinute e.time = m ∧ (e ∈ live ∨ m < s.clock.tdiv 60)

namespace Ledger

variable {gone live : List Issue}

theorem initial (now : ℤ) : Ledger cfg (ServerState.initial now) [] [] where
  hstored := rfl
  htickets := rfl
  hfresh := nodup_nil
  horder := List.Pairwise.nil
  htime := nofun
  htold := nofun
  hbound := nofun
  hlive := nofun
  hgone := nofun
  hlasts _ _ h := (nomatch h)

theorem stored_sublist (h : Ledger cfg s gone live) : (gone ++ live).Sublist s.issued := by
  rw [← h.hstored]
  exact filter_sublist

theorem nodup_stored (h : Ledger cfg s gone live) : ((gone ++ live).map Issue.ticket).Nodup :=
  h.hfresh.sublist (h.stored_sublist.map _)

theorem tdiv_mono {x y : ℤ} (h : x ≤ y) : x.tdiv 60 ≤ y.tdiv 60 := by
  have hx := tdiv_cases x 60
  have hy := tdiv_cases y 60
  omega

theorem clockTo {now : ℤ} (h : Ledger cfg s gone live) (hstep : clockTo s now = some s') :
    Ledger cfg s' gone live := by
  obtain ⟨⟨hle, -, -⟩, rfl⟩ := clockTo_eq_some hstep
  refine { h with htime := ?_, hgone := ?_, hlasts := ?_ }
  · intro e he
    exact ⟨(h.htime e he).1, Int.le_trans (h.htime e he).2 hle⟩
  · intro e he
    exact Int.lt_of_lt_of_le (h.hgone e he) hle
  · intro m ticket hlast
    obtain ⟨e, he, hticket, hminute, hwhere⟩ := h.hlasts m ticket hlast
    exact ⟨e, he, hticket, hminute,
      hwhere.imp_right fun hm => Int.lt_of_lt_of_le hm (tdiv_mono hle)⟩

theorem handshake {random : Ticket} {draw : ℕ} (h : Ledger cfg s gone live)
    (hclock : -2 ^ 63 ≤ s.clock) (hstep : handshake cfg s random draw = some s') :
    ∃ live', Ledger cfg s' gone live' := by
  obtain ⟨seconds, ticket, hdraw, htold, hfresh, hcase⟩ := handshake_cases hstep
  -- the part of the record that every handshake extends alike
  have hnodup : ((s.issued ++ [(⟨ticket, s.clock, seconds⟩ : Issue)]).map Issue.ticket).Nodup := by
    rw [map_append, nodup_append]
    refine ⟨h.hfresh, by simp, ?_⟩
    rintro a ha b hb rfl
    obtain rfl : a = ticket := by simpa using hb
    exact hfresh ha
  have horder : (s.issued ++ [(⟨ticket, s.clock, seconds⟩ : Issue)]).Pairwise
      fun a b => a.time ≤ b.time := by
    refine pairwise_append.mpr ⟨h.horder, pairwise_singleton _ _, ?_⟩
    intro a ha b hb
    obtain rfl := mem_singleton.mp hb
    exact (h.htime a ha).2
  have htimes : ∀ e ∈ s.issued ++ [⟨ticket, s.clock, seconds⟩],
      -2 ^ 63 ≤ e.time ∧ e.time ≤ s.clock := by
    exact forall_mem_append.mpr
      ⟨h.htime, forall_mem_singleton.mpr ⟨hclock, Int.le_refl _⟩⟩
  have htolds : ∀ e ∈ s.issued ++ [⟨ticket, s.clock, seconds⟩],
      decodeLength e.ticket = e.seconds % 65536 := by
    exact forall_mem_append.mpr ⟨h.htold, forall_mem_singleton.mpr htold⟩
  rcases hcase with ⟨hpos, hmaps, rfl⟩ | ⟨hnot, rfl⟩
  · refine ⟨live ++ [⟨ticket, s.clock, seconds⟩], ?_, ?_, hnodup, horder, htimes, htolds, ?_, ?_,
      h.hgone, ?_⟩
    · simp [filter_append, h.hstored, hpos]
    · simp [h.htickets]
    · intro e he
      rw [← append_assoc] at he
      rcases mem_append.mp he with he | he
      · exact h.hbound e he
      · obtain rfl := mem_singleton.mp he
        exact ⟨hmaps, cfg.drawSeconds_le hmaps hdraw⟩
    · intro e he
      dsimp only
      rcases mem_append.mp he with he | he
      · by_cases hsame : e.ticket = ticket
        · simp [hsame]
        · simpa [update_of_ne hsame] using h.hlive e he
      · obtain rfl := mem_singleton.mp he
        simp
    · intro m t hlast
      dsimp only at hlast ⊢
      by_cases hm : m = cfg.lastMinute s.clock
      · subst hm
        rw [update_self] at hlast
        cases hlast
        exact ⟨⟨ticket, s.clock, seconds⟩, by simp, rfl, rfl, .inl (by simp)⟩
      · rw [update_of_ne hm] at hlast
        obtain ⟨e, he, hticket, hminute, hwhere⟩ := h.hlasts m t hlast
        refine ⟨e, ?_, hticket, hminute, hwhere.imp_left (mem_append_left _)⟩
        rw [← append_assoc]
        exact mem_append_left _ he
  · refine ⟨live, { h with
      hstored := ?_, hfresh := hnodup, horder := horder, htime := htimes, htold := htolds }⟩
    simp [filter_append, h.hstored, hnot]

/-- What a sweep finds under its minute is still in `Tickets`, and everything up to it
    has outlived the longest life. -/
theorem sweep_finds {last : Ticket} {now : ℤ} (h : Ledger cfg s gone live) (hclock : s.clock = now)
    (hnow : now < 2 ^ 63) (hlast : s.lasts (now.tdiv 60) = some last) :
    ∃ before e after, live = before ++ e :: after ∧ e.ticket = last ∧
      ∀ x ∈ before ++ [e], x.time + max cfg.secondsFrom cfg.secondsTo < now ∧
        cfg.lastMinute x.time ≤ now.tdiv 60 := by
  obtain ⟨e, he, hticket, hminute, hwhere⟩ := h.hlasts _ _ hlast
  have hlive : e ∈ live := by
    rcases hwhere with hlive | hlt
    · exact hlive
    · rw [hclock] at hlt
      omega
  obtain ⟨before, after, rfl⟩ := append_of_mem hlive
  have hissued : ∀ x ∈ gone ++ (before ++ e :: after), x ∈ s.issued :=
    fun x hx => h.stored_sublist.subset hx
  have hmaps := (h.hbound e he).1
  obtain ⟨hover, hplain⟩ := lastMinute_hit hmaps (h.htime e (hissued e he)).1
    (by rw [← hclock]; exact (h.htime e (hissued e he)).2) hnow hminute
  refine ⟨before, e, after, rfl, hticket, ?_⟩
  intro x hx
  -- issue order is time order, and without a wrapped sum also minute order
  have hxe : x.time ≤ e.time := by
    rcases mem_append.mp hx with hx | hx
    · have horder := h.horder.sublist h.stored_sublist
      have htail := (pairwise_append.mp horder).2.1
      exact (pairwise_append.mp htail).2.2 x hx e (mem_cons_self ..)
    · obtain rfl := mem_singleton.mp hx
      exact Int.le_refl _
  have hxin : x ∈ gone ++ (before ++ e :: after) := by
    rcases mem_append.mp hx with hx | hx
    · exact mem_append_right _ (mem_append_left _ hx)
    · obtain rfl := mem_singleton.mp hx
      exact he
  refine ⟨by omega, ?_⟩
  rw [← hminute]
  exact lastMinute_mono hmaps (h.htime x (hissued x hxin)).1 hxe hplain

theorem sweep {now : ℤ} (h : Ledger cfg s gone live) (hclock : s.clock = now)
    (hnow : now < 2 ^ 63) : ∃ gone' live', Ledger cfg (sweep now s) gone' live' := by
  obtain ⟨lasts, hlasts, hsweep | ⟨last, hlast, hsweep⟩⟩ := sweep_cases now s
  · rw [hsweep]
    exact ⟨gone, live,
      { h with hlasts := fun m ticket hm => h.hlasts m ticket (hlasts m ticket hm).2 }⟩
  obtain ⟨before, e, after, rfl, hticket, hover⟩ := h.sweep_finds hclock hnow hlast
  have hnodup := h.nodup_stored
  simp only [map_append, map_cons, hticket] at hnodup
  have htail := (nodup_append.mp hnodup).2.1
  have hnot : last ∉ before.map Issue.ticket := fun hmem =>
    (nodup_append.mp htail).2.2 last hmem last (mem_cons_self ..) rfl
  have htickets : s.tickets = before.map Issue.ticket ++ last :: after.map Issue.ticket := by
    rw [h.htickets, map_append, map_cons, hticket]
  obtain ⟨hleft, hgiven⟩ := sweepThrough_append s.tickets (after.map Issue.ticket)
    s.sessions hnot
  rw [← htickets] at hleft hgiven
  rw [hsweep]
  have hregroup : gone ++ (before ++ [e]) ++ after = gone ++ (before ++ e :: after) := by simp
  refine ⟨gone ++ (before ++ [e]), after, ?_, hleft, h.hfresh, h.horder, h.htime, h.htold, ?_, ?_,
    ?_, ?_⟩
  · rw [hregroup]
    exact h.hstored
  · rw [hregroup]
    exact h.hbound
  · intro x hx
    dsimp only
    rw [hgiven, if_neg]
    · exact h.hlive x (mem_append_right _ (mem_cons_of_mem _ hx))
    · -- a ticket behind `last` is none of those removed
      have hxmem : x.ticket ∈ after.map Issue.ticket := mem_map_of_mem hx
      intro hmem
      rcases mem_append.mp hmem with hmem | hmem
      · exact (nodup_append.mp htail).2.2 _ hmem _ (mem_cons_of_mem _ hxmem) rfl
      · obtain hsame := mem_singleton.mp hmem
        rw [hsame] at hxmem
        exact (nodup_cons.mp (nodup_append.mp htail).2.1).1 hxmem
  · intro x hx
    dsimp only
    rw [hclock]
    rcases mem_append.mp hx with hx | hx
    · rw [← hclock]
      exact h.hgone x hx
    · exact (hover x hx).1
  · intro m ticket hm
    obtain ⟨hother, hm⟩ := hlasts m ticket hm
    obtain ⟨x, hx, hxticket, hminute, hwhere⟩ := h.hlasts m ticket hm
    refine ⟨x, hregroup ▸ hx, hxticket, hminute, ?_⟩
    dsimp only
    rcases hwhere with hx | hlt
    · rcases mem_append.mp (show x ∈ before ++ [e] ++ after by simpa using hx) with hx | hx
      · -- its minute was skipped, and lies behind the clock now
        have hle := (hover x hx).2
        rw [hclock]
        omega
      · exact .inl hx
    · exact .inr hlt

theorem step {a : TicketAction} (h : Ledger cfg s gone live)
    (hstep : ticketStep cfg s a = some s') :
    ∃ gone' live', Ledger cfg s' gone' live' := by
  cases a with
  | handshake now random draw =>
    obtain ⟨mid, hmid, hrest⟩ := bind_eq_some_iff.mp hstep
    obtain ⟨⟨-, hnow, -⟩, hclock⟩ := clockTo_eq_some hmid
    refine ⟨gone, (h.clockTo hmid).handshake ?_ hrest⟩
    rw [hclock]
    exact hnow
  | sweep now =>
    obtain ⟨mid, hmid, rfl⟩ := sweep_of_step hstep
    obtain ⟨⟨-, -, hnow⟩, hclock⟩ := clockTo_eq_some hmid
    refine (h.clockTo hmid).sweep ?_ hnow
    rw [hclock]
  | tick now => exact ⟨gone, live, h.clockTo hstep⟩
  | find request =>
    simp only [ticketStep] at hstep
    split at hstep <;> cases hstep
    · exact ⟨gone, live, h⟩
    · exact ⟨gone, live, { h with }⟩
  | use p request =>
    obtain ⟨-, rfl | ⟨-, rfl⟩⟩ := use_cases hstep <;> exact ⟨gone, live, { h with }⟩

end Ledger

/-! ## One session object for a ticket -/

/-- Every session object was made for one ticket, `owner`, and knows the keys of all the
    requests accepted under it. -/
structure Owners (s : ServerState) (owner : ℕ → Ticket) : Prop where
  hissued : ∀ p < s.allocated, owner p ∈ s.issued.map Issue.ticket
  honce : ∀ p < s.allocated, ∀ q < s.allocated, owner p = owner q → p = q
  hsessions : ∀ ticket p, s.sessions ticket = some p → p < s.allocated ∧ owner p = ticket
  hflight : ∀ p request, (p, request) ∈ s.inFlight → p < s.allocated ∧ owner p = request.ticket
  hknown : ∀ request ∈ s.accepted, ∃ p < s.allocated, owner p = request.ticket ∧
    request.nfsKey ∈ s.nfsKeys p
  hnodup : s.accepted.Nodup

namespace Owners

variable {owner : ℕ → Ticket}

theorem initial (now : ℤ) : Owners (ServerState.initial now) owner where
  hissued _ h := (nomatch h)
  honce _ h := (nomatch h)
  hsessions _ _ h := (nomatch h)
  hflight _ _ h := (nomatch h)
  hknown _ h := (nomatch h)
  hnodup := nodup_nil

theorem clockTo {now : ℤ} (h : Owners s owner) (hstep : clockTo s now = some s') :
    Owners s' owner := by
  obtain ⟨-, rfl⟩ := clockTo_eq_some hstep
  exact { h with }

/-- The object of a new ticket is new as well. -/
theorem handshake {random : Ticket} {draw : ℕ} (h : Owners s owner)
    (hstep : handshake cfg s random draw = some s') : ∃ owner', Owners s' owner' := by
  obtain ⟨seconds, ticket, -, -, hfresh, ⟨-, -, rfl⟩ | ⟨-, rfl⟩⟩ := handshake_cases hstep
  · have hold : ∀ p < s.allocated, update owner s.allocated ticket p = owner p :=
      fun p hp => update_of_ne (by omega) _ _
    have hother : ∀ p < s.allocated, owner p ≠ ticket :=
      fun p hp heq => hfresh (heq ▸ h.hissued p hp)
    have hlast : ∀ p < s.allocated + 1, p < s.allocated ∨ p = s.allocated := fun p hp => by omega
    refine ⟨update owner s.allocated ticket, ?_, ?_, ?_, ?_, ?_, h.hnodup⟩
    · intro p hp
      dsimp only
      rcases hlast p hp with hp | rfl
      · rw [hold p hp, map_append]
        exact mem_append_left _ (h.hissued p hp)
      · simp
    · intro p hp q hq heq
      rcases hlast p hp with hp | rfl <;> rcases hlast q hq with hq | rfl
      · rw [hold p hp, hold q hq] at heq
        exact h.honce p hp q hq heq
      · rw [hold p hp, update_self] at heq
        exact absurd heq (hother p hp)
      · rw [hold q hq, update_self] at heq
        exact absurd heq.symm (hother q hq)
      · rfl
    · intro t p ht
      dsimp only at ht ⊢
      by_cases hsame : t = ticket
      · subst hsame
        rw [update_self] at ht
        cases ht
        exact ⟨Nat.lt_succ_self _, update_self ..⟩
      · rw [update_of_ne hsame] at ht
        obtain ⟨hp, howner⟩ := h.hsessions t p ht
        exact ⟨Nat.lt_succ_of_lt hp, (hold p hp).trans howner⟩
    · intro p request hmem
      obtain ⟨hp, howner⟩ := h.hflight p request hmem
      exact ⟨Nat.lt_succ_of_lt hp, (hold p hp).trans howner⟩
    · intro request hmem
      obtain ⟨p, hp, howner, hkey⟩ := h.hknown request hmem
      refine ⟨p, Nat.lt_succ_of_lt hp, (hold p hp).trans howner, ?_⟩
      dsimp only
      rw [update_of_ne (by omega)]
      exact hkey
  · refine ⟨owner, { h with hissued := ?_ }⟩
    intro p hp
    rw [map_append]
    exact mem_append_left _ (h.hissued p hp)

theorem sweepThrough_some {last ticket : Ticket} {all tickets : List Ticket} {p : ℕ} :
    ∀ {sessions : Ticket → Option ℕ},
      (sweepThrough last all tickets sessions).2 ticket = some p → sessions ticket = some p := by
  have hkeep {sessions : Ticket → Option ℕ} {first : Ticket}
      (h : update sessions first none ticket = some p) : sessions ticket = some p := by
    by_cases hsame : ticket = first
    · subst hsame
      rw [update_self] at h
      cases h
    · rwa [update_of_ne hsame] at h
  induction tickets with
  | nil => exact fun h => h
  | cons first tickets ih =>
    intro sessions h
    unfold sweepThrough at h
    split at h
    · exact hkeep h
    · exact hkeep (ih h)

theorem sweep {now : ℤ} (h : Owners s owner) : Owners (sweep now s) owner := by
  obtain ⟨lasts, -, hsweep | ⟨last, -, hsweep⟩⟩ := sweep_cases now s
  · rw [hsweep]
    exact { h with }
  · rw [hsweep]
    exact { h with hsessions := fun ticket p ht => h.hsessions ticket p (sweepThrough_some ht) }

theorem use {p : ℕ} {request : Request} (h : Owners s owner)
    (hstep : ticketStep cfg s (.use p request) = some s') : Owners s' owner := by
  obtain ⟨hmem, rfl | ⟨hnew, rfl⟩⟩ := use_cases hstep
  · exact { h with hflight := fun q r hq => h.hflight q r (mem_of_mem_erase hq) }
  obtain ⟨hp, howner⟩ := h.hflight p request hmem
  refine { h with
    hflight := fun q r hq => h.hflight q r (mem_of_mem_erase hq), hknown := ?_, hnodup := ?_ }
  · intro r hr
    rcases mem_append.mp hr with hr | hr
    · obtain ⟨q, hq, howner', hkey⟩ := h.hknown r hr
      refine ⟨q, hq, howner', ?_⟩
      by_cases hsame : q = p
      · subst hsame
        simp [hkey]
      · simpa [update_of_ne hsame] using hkey
    · obtain rfl := mem_singleton.mp hr
      exact ⟨p, hp, howner, by simp⟩
  · refine nodup_append.mpr ⟨h.hnodup, by simp, ?_⟩
    rintro r hr r' hr' rfl
    -- an earlier acceptance left the key with the same object
    obtain rfl := mem_singleton.mp hr'
    obtain ⟨q, hq, howner', hkey⟩ := h.hknown _ hr
    obtain rfl := h.honce p hp q hq (howner.trans howner'.symm)
    exact hnew hkey

theorem step {a : TicketAction} (h : Owners s owner) (hstep : ticketStep cfg s a = some s') :
    ∃ owner', Owners s' owner' := by
  cases a with
  | handshake now random draw =>
    obtain ⟨mid, hmid, hrest⟩ := bind_eq_some_iff.mp hstep
    exact (h.clockTo hmid).handshake hrest
  | sweep now =>
    obtain ⟨mid, hmid, rfl⟩ := sweep_of_step hstep
    exact ⟨owner, (h.clockTo hmid).sweep⟩
  | tick now => exact ⟨owner, h.clockTo hstep⟩
  | find request =>
    simp only [ticketStep, findSession] at hstep
    by_cases hoff : cfg.secondsFrom = 0 ∧ cfg.secondsTo = 0
    · simp only [if_pos hoff, some.injEq] at hstep
      exact hstep ▸ ⟨owner, h⟩
    · simp only [if_neg hoff] at hstep
      cases hsession : s.sessions request.ticket with
      | none =>
        simp only [hsession, some.injEq] at hstep
        exact hstep ▸ ⟨owner, h⟩
      | some p =>
        simp only [hsession, some.injEq] at hstep
        subst hstep
        refine ⟨owner, { h with hflight := ?_ }⟩
        intro q r hq
        rcases mem_cons.mp hq with hq | hq
        · cases hq
          exact h.hsessions _ _ hsession
        · exact h.hflight q r hq
  | use p request => exact ⟨owner, h.use hstep⟩

end Owners

/-! ## Whole runs -/

/-- The handshake of an action draws no negative life. -/
def DrawsLife (cfg : ServerSettings) : TicketAction → Prop
  | .handshake _ _ draw => ∀ seconds, cfg.drawSeconds draw = some seconds → 0 ≤ seconds
  | _ => True

/-- Bounds that are not negative, and whose hundredfold fits 64 bits, never draw a
    negative life. -/
theorem ServerSettings.drawSeconds_nonneg (cfg : ServerSettings)
    (hfrom : 0 ≤ cfg.secondsFrom ∧ cfg.secondsFrom * 100 < 2 ^ 63) (hto : 0 ≤ cfg.secondsTo)
    {draw : ℕ} {seconds : ℤ} (h : cfg.drawSeconds draw = some seconds) : 0 ≤ seconds := by
  unfold ServerSettings.drawSeconds at h
  split at h
  · obtain ⟨x, hx, rfl⟩ := map_eq_some_iff.mp h
    obtain ⟨hmin, hmax⟩ := randBetween_between (by omega) (by omega) hx
    have hprod : cfg.secondsFrom * x ≤ cfg.secondsFrom * 100 :=
      Int.mul_le_mul_of_nonneg_left (by omega) (by omega)
    have hnonneg : 0 ≤ cfg.secondsFrom * x := Int.mul_nonneg (by omega) (by omega)
    rw [wrap64_of_lt (by omega) (by omega)]
    exact Int.tdiv_nonneg hnonneg (by omega)
  · have := (randBetween_between cfg.hfrom cfg.hto h).1
    omega

/-- One action of a run whose handshakes draw no negative life. -/
def LifeStep (cfg : ServerSettings) (s s' : ServerState) : Prop :=
  ∃ a, DrawsLife cfg a ∧ ticketStep cfg s a = some s'

theorem LifeStep.seconds_nonneg (h : LifeStep cfg s s') (hs : ∀ e ∈ s.issued, 0 ≤ e.seconds) :
    ∀ e ∈ s'.issued, 0 ≤ e.seconds := by
  obtain ⟨a, hdraw, hstep⟩ := h
  cases a with
  | handshake now random draw =>
    obtain ⟨mid, hmid, hrest⟩ := bind_eq_some_iff.mp hstep
    obtain ⟨-, rfl⟩ := clockTo_eq_some hmid
    obtain ⟨seconds, ticket, hseconds, -, -, ⟨-, -, rfl⟩ | ⟨-, rfl⟩⟩ := handshake_cases hrest
    all_goals
      exact forall_mem_append.mpr ⟨hs, forall_mem_singleton.mpr (hdraw seconds hseconds)⟩
  | sweep now =>
    obtain ⟨mid, hmid, rfl⟩ := sweep_of_step hstep
    obtain ⟨-, rfl⟩ := clockTo_eq_some hmid
    obtain ⟨lasts, -, hsweep | ⟨last, -, hsweep⟩⟩ := sweep_cases now { s with clock := now }
    all_goals
      rw [hsweep]
      exact hs
  | tick now =>
    obtain ⟨-, rfl⟩ := clockTo_eq_some hstep
    exact hs
  | find request =>
    simp only [ticketStep] at hstep
    split at hstep <;> cases hstep <;> exact hs
  | use p request =>
    obtain ⟨-, rfl | ⟨-, rfl⟩⟩ := use_cases hstep <;> exact hs

theorem LifeStep.reach {now : ℤ} (h : ReflTransGen (LifeStep cfg) (ServerState.initial now) s) :
    (∃ gone live, Ledger cfg s gone live) ∧ (∃ owner, Owners s owner) ∧
      ∀ e ∈ s.issued, 0 ≤ e.seconds := by
  refine reach_closed (P := fun s => (∃ gone live, Ledger cfg s gone live) ∧
    (∃ owner, Owners s owner) ∧ ∀ e ∈ s.issued, 0 ≤ e.seconds) ?_
    ⟨⟨[], [], .initial now⟩, ⟨fun _ => Vector.replicate 16 0, .initial now⟩, nofun⟩ h
  rintro x ⟨⟨gone, live, hledger⟩, ⟨owner, howners⟩, hseconds⟩ y hxy
  refine ⟨?_, ?_, hxy.seconds_nonneg hseconds⟩
  · obtain ⟨a, -, hstep⟩ := hxy
    exact hledger.step hstep
  · obtain ⟨a, -, hstep⟩ := hxy
    exact howners.step hstep

/-- A ticket on record that told its client a life, and whose life is not over, is not among
    those swept. -/
theorem Ledger.session_kept {gone live : List Issue} (h : Ledger cfg s gone live) {e : Issue}
    (he : e ∈ s.issued) (hseconds : 0 ≤ e.seconds) (htold : 0 < decodeLength e.ticket)
    (hclock : s.clock ≤ e.time + decodeLength e.ticket) : (s.sessions e.ticket).isSome := by
  have htold' := h.htold e he
  have hmem : e ∈ gone ++ live := by
    rw [← h.hstored, mem_filter]
    exact ⟨he, decide_eq_true (by omega)⟩
  have hbound := (h.hbound e hmem).2
  rcases mem_append.mp hmem with hgone | hlive
  · have hover := h.hgone e hgone
    omega
  · exact h.hlive e hlive

/-- In every run whose handshakes draw no negative life, each 0-RTT request is accepted at
    most once, and the session of a ticket is there as long as its client was told. -/
theorem tickets_once_and_kept {now : ℤ}
    (h : ReflTransGen (LifeStep cfg) (ServerState.initial now) s) :
    s.accepted.Nodup ∧
      ∀ e ∈ s.issued, 0 < decodeLength e.ticket → s.clock ≤ e.time + decodeLength e.ticket →
        (s.sessions e.ticket).isSome := by
  obtain ⟨⟨gone, live, hledger⟩, ⟨owner, howners⟩, hseconds⟩ := LifeStep.reach h
  exact ⟨howners.hnodup, fun e he => hledger.session_kept he (hseconds e he)⟩

/-- The configuration `600s`. -/
def tenMinutes : ServerSettings := ⟨600, 0, by decide, by decide⟩

/-- A request sent twice, and a sweep in time. -/
def replayedRun : List TicketAction :=
  let ticket := tellSeconds 300 (Vector.replicate 16 7)
  let request : Request := ⟨ticket, Vector.replicate 32 1⟩
  [.handshake 0 (Vector.replicate 16 7) 0, .find request, .find request, .use 0 request,
    .use 0 request, .sweep 290]

theorem tickets_once_and_kept_replayed :
    ∃ s, run (ticketStep tenMinutes) replayedRun (ServerState.initial 0) = some s ∧
      s.accepted.length = 1 ∧ s.accepted.Nodup ∧
      (s.sessions (tellSeconds 300 (Vector.replicate 16 7))).isSome := by
  obtain ⟨s, hrun⟩ : ∃ s,
      run (ticketStep tenMinutes) replayedRun (ServerState.initial 0) = some s :=
    isSome_iff_exists.mp (by decide)
  have hend : (run (ticketStep tenMinutes) replayedRun (ServerState.initial 0)).map
      (fun s => (s.accepted.length, s.clock, s.issued.map fun e => (e.ticket, e.time)))
        = some (1, 290, [(tellSeconds 300 (Vector.replicate 16 7), 0)]) := by
    decide
  rw [hrun, map_some, some.injEq, Prod.mk.injEq, Prod.mk.injEq] at hend
  obtain ⟨hlength, hclock, hissued⟩ := hend
  have hdraws (a : TicketAction) : DrawsLife tenMinutes a := by
    cases a with
    | handshake now random draw =>
      exact fun seconds h => tenMinutes.drawSeconds_nonneg (by decide) (by decide) h
    | _ => trivial
  obtain ⟨honce, hkept⟩ := tickets_once_and_kept
    (reach_of_run (fun s a s' h => ⟨a, hdraws a, h⟩) replayedRun hrun)
  obtain ⟨e, he, heq⟩ := mem_map.mp (hissued ▸ mem_singleton_self _)
  obtain ⟨hticket, htime⟩ := Prod.mk.inj heq
  refine ⟨s, hrun, hlength, honce, hticket ▸ hkept e he ?_ ?_⟩
  · rw [hticket, decodeLength_tellSeconds]
    decide
  · rw [hticket, htime, hclock, decodeLength_tellSeconds]
    decide

/-- The configuration `600--5s`, as the parser of the settings accepts it. -/
def negativeBound : ServerSettings := ⟨600, -5, by decide, by decide⟩

/-- A life of minus five seconds is told as `65531`, and no session is kept for it. -/
theorem negative_life_has_no_session :
    ∃ s, run (ticketStep negativeBound) [.handshake 0 (Vector.replicate 16 7) 0]
        (ServerState.initial 0) = some s ∧
      ∃ e ∈ s.issued, decodeLength e.ticket = 65531 ∧ s.clock = e.time ∧
        s.sessions e.ticket = none := by
  refine ⟨_, rfl, ⟨tellSeconds (-5) (Vector.replicate 16 7), 0, -5⟩, ?_, ?_, rfl, rfl⟩
  · exact mem_singleton.mpr rfl
  · decide

end XrayCore.Vless
