/-
  XrayCore.Vless.Tickets

  The tickets of the VLESS encryption server: `ServerInstance` with its `Lasts`,
  `Tickets` and `Sessions`, the ticket a 1-RTT handshake hands out, the two
  sections a 0-RTT handshake goes through, and the sweep that wakes up about once a
  minute. The clock of a run never goes back; a sweep may be late by any amount.

  A session object outlives its entry in `Sessions` while a handshake holds it, so
  `sessions` maps a ticket to the number of an object and `nfsKeys` is the memory of
  the objects. `issued` and `accepted` are the history of the run.

    * `Ledger.step` carries the order of tickets, issue times and `Lasts` along a
      run: what a sweep removes is older than the longest life told to a client.
    * `Owners.step` carries the memory of used keys: one object per ticket.
    * `tickets_once_and_kept` puts both together.
-/

import XrayCore.Machine.Result
import XrayCore.Machine.Run

namespace XrayCore.Vless

open Machine Function

/-! ## The instance -/

/-- The `[16]byte` of a ticket. -/
abbrev Ticket := Vector UInt8 16

/-- The `[32]byte` under which a session remembers a request. -/
abbrev NfsKey := Vector UInt8 32

/-- What `Init` was told about the life of tickets. -/
structure ServerSettings where
  secondsFrom : ℤ
  secondsTo : ℤ
  hfrom : -2 ^ 63 ≤ secondsFrom ∧ secondsFrom < 2 ^ 63
  hto : -2 ^ 63 ≤ secondsTo ∧ secondsTo < 2 ^ 63

/-- `Init` makes the maps and starts the sweep only then. -/
def ServerSettings.remembers (cfg : ServerSettings) : Bool :=
  decide (0 < cfg.secondsFrom) || decide (0 < cfg.secondsTo)

/-- The bytes of `EncodeLength`. -/
def encodeLength (l : ℤ) : UInt8 × UInt8 := (UInt8.ofInt (l / 256), UInt8.ofInt l)

/-- The number a client reads from its ticket. -/
def decodeLength (ticket : Ticket) : ℤ := (ticket[0].toNat <<< 8 ||| ticket[1].toNat : ℕ)

/-- `copy(ticket[:], EncodeLength(int(seconds)))` over the random bytes of a new ticket. -/
def tellSeconds (seconds : ℤ) (random : Ticket) : Ticket :=
  (random.set 0 (encodeLength seconds).1).set 1 (encodeLength seconds).2

/-- `crypto.RandBetween`; `rand.Int` panics where its bound is not positive. -/
def randBetween (lo hi : ℤ) (random : ℕ) : Option ℤ :=
  let d := wrap64 (max lo hi - min lo hi)
  if d = 0 ∨ d = 1 then some (min lo hi)
  else if d ≤ 0 then none
  else some (wrap64 (min lo hi + random % d))

/-- The `seconds` a handshake draws. -/
def ServerSettings.drawSeconds (cfg : ServerSettings) (random : ℕ) : Option ℤ :=
  if cfg.secondsTo = 0 then
    (randBetween 50 100 random).map fun x => (wrap64 (cfg.secondsFrom * x)).tdiv 100
  else randBetween cfg.secondsFrom cfg.secondsTo random

/-- The minute at which a ticket given out at `now` may be swept. -/
def ServerSettings.lastMinute (cfg : ServerSettings) (now : ℤ) : ℤ :=
  (wrap64 (now + max cfg.secondsFrom cfg.secondsTo)).tdiv 60 + 2

/-- A ticket sent to a client. -/
structure Issue where
  ticket : Ticket
  time : ℤ
  seconds : ℤ

/-- A 0-RTT request, by what distinguishes it. -/
structure Request where
  ticket : Ticket
  nfsKey : NfsKey
deriving DecidableEq

structure ServerState where
  clock : ℤ
  lasts : ℤ → Option Ticket
  tickets : List Ticket
  sessions : Ticket → Option ℕ
  nfsKeys : ℕ → List NfsKey
  allocated : ℕ
  inFlight : List (ℕ × Request)
  issued : List Issue
  accepted : List Request

/-- The instance after `Init`. -/
def ServerState.initial (now : ℤ) : ServerState :=
  ⟨now, fun _ => none, [], fun _ => none, fun _ => [], 0, [], [], []⟩

/-! ## The critical sections -/

/-- The locked part of a 1-RTT handshake; a write to a map `Init` did not make panics. -/
def storeTicket (cfg : ServerSettings) (now seconds : ℤ) (ticket : Ticket) (s : ServerState) :
    Option ServerState :=
  if 0 < seconds then
    if cfg.remembers then
      some { s with
        lasts := update s.lasts (cfg.lastMinute now) (some ticket)
        tickets := s.tickets ++ [ticket]
        sessions := update s.sessions ticket (some s.allocated)
        nfsKeys := update s.nfsKeys s.allocated []
        allocated := s.allocated + 1 }
    else none
  else some s

/-- The loop of the sweep over `Tickets`: sessions go up to and with `last`, and the
    list is cut behind it. Without `last` the list stays as it is. -/
def sweepThrough (last : Ticket) (all : List Ticket) :
    List Ticket → (Ticket → Option ℕ) → List Ticket × (Ticket → Option ℕ)
  | [], sessions => (all, sessions)
  | ticket :: tickets, sessions =>
    if ticket = last then (tickets, update sessions ticket none)
    else sweepThrough last all tickets (update sessions ticket none)

/-- One wake-up of the sweep. -/
def sweep (now : ℤ) (s : ServerState) : ServerState :=
  let minute := now.tdiv 60
  let last := (s.lasts minute).getD (Vector.replicate 16 0)
  let lasts := update (update s.lasts minute none) (minute - 1) none
  if last ≠ Vector.replicate 16 0 then
    let (tickets, sessions) := sweepThrough last s.tickets s.tickets s.sessions
    { s with lasts := lasts, tickets := tickets, sessions := sessions }
  else { s with lasts := lasts }

/-- The first section of a 0-RTT handshake, under the read lock. -/
def findSession (cfg : ServerSettings) (s : ServerState) (ticket : Ticket) : Except String ℕ :=
  if cfg.secondsFrom = 0 ∧ cfg.secondsTo = 0 then .error "0-RTT is not allowed"
  else match s.sessions ticket with
    | none => .error "expired ticket"
    | some p => .ok p

/-- The second section, `LoadOrStore` on the session found. -/
def useSession (s : ServerState) (p : ℕ) (request : Request) : Except String ServerState :=
  if request.nfsKey ∈ s.nfsKeys p then .error "replay detected"
  else .ok { s with
    nfsKeys := update s.nfsKeys p (request.nfsKey :: s.nfsKeys p)
    accepted := s.accepted ++ [request] }

/-! ## Runs -/

/-- What may happen next, with the clock reading and the random numbers it meets. -/
inductive TicketAction
  | handshake (now : ℤ) (random : Ticket) (draw : ℕ)
  | sweep (now : ℤ)
  | tick (now : ℤ)
  | find (request : Request)
  | use (p : ℕ) (request : Request)

/-- The clock of a run is an `int64` that does not go back. -/
def clockTo (s : ServerState) (now : ℤ) : Option ServerState :=
  if s.clock ≤ now ∧ -2 ^ 63 ≤ now ∧ now < 2 ^ 63 then some { s with clock := now } else none

/-- A 1-RTT handshake. The random bytes of a run make tickets that were not there before. -/
def handshake (cfg : ServerSettings) (s : ServerState) (random : Ticket) (draw : ℕ) :
    Option ServerState :=
  (cfg.drawSeconds draw).bind fun seconds =>
    let ticket := tellSeconds seconds random
    if ticket ∈ s.issued.map Issue.ticket then none
    else (storeTicket cfg s.clock seconds ticket s).map fun s =>
      { s with issued := s.issued ++ [⟨ticket, s.clock, seconds⟩] }

/-- One action of a run; `none` where it cannot happen. A 0-RTT handshake that is
    refused in its first section leaves the instance alone. -/
def ticketStep (cfg : ServerSettings) (s : ServerState) : TicketAction → Option ServerState
  | .handshake now random draw => (clockTo s now).bind fun s => handshake cfg s random draw
  | .sweep now => if cfg.remembers then (clockTo s now).map (sweep now) else none
  | .tick now => clockTo s now
  | .find request =>
    match findSession cfg s request.ticket with
    | .error _ => some s
    | .ok p => some { s with inFlight := (p, request) :: s.inFlight }
  | .use p request =>
    if (p, request) ∈ s.inFlight then
      let s := { s with inFlight := s.inFlight.erase (p, request) }
      match useSession s p request with
      | .error _ => some s
      | .ok s => some s
    else none

/-! ## Numbers -/

theorem decodeLength_tellSeconds (seconds : ℤ) (random : Ticket) :
    decodeLength (tellSeconds seconds random) = seconds % 65536 := by
  have hbyte (x : ℤ) : (UInt8.ofInt x).toNat = (x % 256).toNat := by
    simp [UInt8.ofInt]
    omega
  have hor : (seconds / 256 % 256).toNat <<< 8 ||| (seconds % 256).toNat
      = (seconds / 256 % 256).toNat <<< 8 + (seconds % 256).toNat :=
    (Nat.shiftLeft_add_eq_or_of_lt (by omega) _).symm
  simp only [decodeLength, tellSeconds, encodeLength, Vector.getElem_set, Nat.zero_ne_one,
    Nat.one_ne_zero, if_true, if_false, hbyte]
  rw [hor, Nat.shiftLeft_eq]
  omega

/-- The division of Go by that of whole numbers. -/
theorem tdiv_cases (x k : ℤ) :
    0 ≤ x ∧ x.tdiv k = x / k ∨ x < 0 ∧ x.tdiv k = -(-x / k) := by
  rcases lt_or_ge x 0 with hneg | hnonneg
  · refine .inr ⟨hneg, ?_⟩
    rw [← Int.tdiv_eq_ediv_of_nonneg (by omega), Int.neg_tdiv, Int.neg_neg]
  · exact .inl ⟨hnonneg, Int.tdiv_eq_ediv_of_nonneg hnonneg⟩

/-- A draw between two bounds stays between them. -/
theorem randBetween_between {lo hi x : ℤ} {random : ℕ} (hlo : -2 ^ 63 ≤ lo ∧ lo < 2 ^ 63)
    (hhi : -2 ^ 63 ≤ hi ∧ hi < 2 ^ 63) (h : randBetween lo hi random = some x) :
    min lo hi ≤ x ∧ x ≤ max lo hi := by
  unfold randBetween at h
  generalize hd : wrap64 (max lo hi - min lo hi) = d at h
  dsimp only at h
  split at h
  · cases h
    omega
  · split at h
    · cases h
    · next hpos =>
      -- a positive difference was not wrapped
      have hdiff : d = max lo hi - min lo hi := by
        unfold wrap64 at hd
        omega
      have hmod := Int.emod_lt_of_pos (random : ℤ) (show 0 < d by omega)
      have hnonneg := Int.emod_nonneg (random : ℤ) (show d ≠ 0 by omega)
      cases h
      rw [wrap64_of_lt (by omega) (by omega)]
      omega

/-- No draw is longer than the life for which the server plans. -/
theorem ServerSettings.drawSeconds_le (cfg : ServerSettings) {random : ℕ} {seconds : ℤ}
    (hpos : cfg.remembers = true) (h : cfg.drawSeconds random = some seconds) :
    seconds ≤ max cfg.secondsFrom cfg.secondsTo := by
  obtain ⟨lo, hi, hlo, hhi⟩ := cfg
  simp only [ServerSettings.remembers, Bool.or_eq_true, decide_eq_true_eq] at hpos
  simp only [ServerSettings.drawSeconds] at h ⊢
  split at h
  · next hzero =>
    obtain ⟨x, hx, rfl⟩ := Option.map_eq_some_iff.mp h
    obtain ⟨hmin, hmax⟩ := randBetween_between (by omega) (by omega) hx
    have hprod : lo * x ≤ lo * 100 := Int.mul_le_mul_of_nonneg_left (by omega) (by omega)
    have hnonneg : 0 ≤ lo * x := Int.mul_nonneg (by omega) (by omega)
    generalize lo * x = product at *
    -- a product that was wrapped came from a bound above every wrapped quotient
    have hwrap : wrap64 product ≤ product ∧ wrap64 product < 2 ^ 63 := by
      unfold wrap64
      omega
    rcases tdiv_cases (wrap64 product) 100 with ⟨-, hdiv⟩ | ⟨-, hdiv⟩ <;> omega
  · exact (randBetween_between hlo hhi h).2

section Minutes

variable {cfg : ServerSettings} {t now : ℤ}

/-- When a sweep meets the minute of a ticket, the longest life of the ticket is over,
    and the sum behind the minute did not wrap. -/
theorem lastMinute_hit (hpos : cfg.remembers = true) (htime : -2 ^ 63 ≤ t) (hle : t ≤ now)
    (hnow : now < 2 ^ 63) (hhit : cfg.lastMinute t = now.tdiv 60) :
    t + max cfg.secondsFrom cfg.secondsTo < now ∧
      t + max cfg.secondsFrom cfg.secondsTo < 2 ^ 63 := by
  obtain ⟨lo, hi, hlo, hhi⟩ := cfg
  simp only [ServerSettings.remembers, Bool.or_eq_true, decide_eq_true_eq] at hpos
  simp only [ServerSettings.lastMinute] at hhit ⊢
  obtain ⟨longest, hlongest⟩ : ∃ m, m = max lo hi := ⟨_, rfl⟩
  rw [← hlongest] at hhit ⊢
  have hbound : 0 < longest ∧ longest < 2 ^ 63 := by omega
  have hnowdiv := tdiv_cases now 60
  rcases lt_or_ge (t + longest) (2 ^ 63) with hlt | hge
  · rw [wrap64_of_lt (by omega) hlt] at hhit
    have hsumdiv := tdiv_cases (t + longest) 60
    omega
  · -- a wrapped sum is negative, and far from the minutes after `t`
    have hwrap : wrap64 (t + longest) = t + longest - 2 ^ 64 := by
      unfold wrap64
      omega
    rw [hwrap] at hhit
    have hsumdiv := tdiv_cases (t + longest - 2 ^ 64) 60
    omega

/-- Without a wrapped sum minutes are in the order of the tickets. -/
theorem lastMinute_mono {u : ℤ} (hpos : cfg.remembers = true) (htime : -2 ^ 63 ≤ t) (hle : t ≤ u)
    (hu : u + max cfg.secondsFrom cfg.secondsTo < 2 ^ 63) :
    cfg.lastMinute t ≤ cfg.lastMinute u := by
  obtain ⟨lo, hi, hlo, hhi⟩ := cfg
  simp only [ServerSettings.remembers, Bool.or_eq_true, decide_eq_true_eq] at hpos
  simp only [ServerSettings.lastMinute] at hu ⊢
  rw [wrap64_of_lt (by omega) (by omega), wrap64_of_lt (by omega) (by omega)]
  have hdiv := tdiv_cases (t + max lo hi) 60
  have hdiv' := tdiv_cases (u + max lo hi) 60
  omega

end Minutes

/-- The sweep loop when `last` is in the list. -/
theorem sweepThrough_append {last : Ticket} {before : List Ticket} (all after : List Ticket)
    (sessions : Ticket → Option ℕ) (hnot : last ∉ before) :
    (sweepThrough last all (before ++ last :: after) sessions).1 = after ∧
      ∀ ticket, (sweepThrough last all (before ++ last :: after) sessions).2 ticket =
        if ticket ∈ before ++ [last] then none else sessions ticket := by
  induction before generalizing sessions with
  | nil =>
    refine ⟨by simp [sweepThrough], fun ticket => ?_⟩
    by_cases hticket : ticket = last <;> simp [sweepThrough, hticket]
  | cons first before ih =>
    have hne : first ≠ last := fun h => hnot (by simp [h])
    obtain ⟨htickets, hsessions⟩ := ih (update sessions first none)
      (fun h => hnot (List.mem_cons_of_mem _ h))
    simp only [List.cons_append, sweepThrough, if_neg hne]
    refine ⟨htickets, fun ticket => ?_⟩
    rw [hsessions]
    by_cases hticket : ticket = first <;> simp [hticket]

end XrayCore.Vless
