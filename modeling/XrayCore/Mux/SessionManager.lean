/-
  XrayCore.Mux.SessionManager

  The table of the sessions of a mux connection, and the ids it gives them.

  An id is the number of sessions made so far, in sixteen bits.  A limit on that number
  keeps the ids apart, and so does a limit of one session at a time.  With neither
  (`ClientStrategy.Bounded`) the count comes round, and a session that was open all the
  while is replaced in the table (`unique_iff_bounded`).  With one, a frame is always for the
  session that is open under its id (`get_iff_open`).
-/

import XrayCore.Machine.Run

namespace XrayCore.Mux

open List Option Machine

/-- `ClientStrategy`. -/
structure ClientStrategy where
  maxConcurrency : UInt32
  maxConnection : UInt32

/-- The number of sessions is limited, in all or at a time. -/
def ClientStrategy.Bounded (strategy : ClientStrategy) : Prop :=
  strategy.maxConnection.toUInt16 ≠ 0 ∨ strategy.maxConcurrency = 1

/-- A `Session`: which one it is, and its `ID`. -/
structure SessionManager.Session where
  serial : ℕ
  id : UInt16
deriving DecidableEq

/-- `SessionManager`: the sessions in the table, each under its id, and how many there were;
    with all those made, and those of them whose `closed` is set. -/
structure SessionManager where
  sessions : List SessionManager.Session
  count : UInt16
  closed : Bool
  made : List SessionManager.Session
  ended : List SessionManager.Session

namespace SessionManager

/-- `NewSessionManager`. -/
def new : SessionManager := ⟨[], 0, false, [], []⟩

/-- The table without an id. -/
def without (sessions : List Session) (id : UInt16) : List Session :=
  sessions.filter fun s => s.id != id

/-- `Allocate`: the session, if there may be one more. -/
def allocate (m : SessionManager) (strategy : ClientStrategy) : Option Session × SessionManager :=
  let maxConcurrency := strategy.maxConcurrency.toNat
  let maxConnection := strategy.maxConnection.toUInt16
  if m.closed = true ∨ (0 < maxConcurrency ∧ maxConcurrency ≤ m.sessions.length) ∨
      (0 < maxConnection ∧ maxConnection ≤ m.count) then (none, m)
  else
    let count := m.count + 1
    let s : Session := ⟨m.made.length, count⟩
    -- what the table had under the id is gone
    (some s, { m with count, made := s :: m.made, sessions := s :: without m.sessions s.id })

/-- `Remove`. -/
def remove (m : SessionManager) (id : UInt16) : SessionManager :=
  if m.closed then m else { m with sessions := without m.sessions id }

/-- `Session.Close`. -/
def closeSession (m : SessionManager) (s : Session) : SessionManager :=
  if s ∈ m.ended then m else { m with ended := s :: m.ended }.remove s.id

/-- `Get`. -/
def get (m : SessionManager) (id : UInt16) : Option Session :=
  if m.closed then none else m.sessions.find? fun s => s.id == id

/-- `CloseIfNoSessionAndIdle`. -/
def closeIfNoSessionAndIdle (m : SessionManager) (checkSize checkCount : ℕ) :
    Bool × SessionManager :=
  if m.closed then (true, m)
  else if m.sessions.length ≠ 0 ∨ checkSize ≠ 0 ∨ checkCount ≠ m.count.toNat then (false, m)
  else (true, { m with closed := true, sessions := [] })

/-! ## Runs -/

/-- The calls on a table. -/
inductive Call where
  | allocate
  | close (s : Session)
  | get (id : UInt16)
  | closeIfNoSessionAndIdle (checkSize checkCount : ℕ)

/-- What a call leaves; only a session that was made can be closed. -/
def step (strategy : ClientStrategy) (m : SessionManager) : Call → Option SessionManager
  | .allocate => some (m.allocate strategy).2
  | .close s => if s ∈ m.made then some (m.closeSession s) else none
  | .get _ => some m
  | .closeIfNoSessionAndIdle checkSize checkCount =>
    some (m.closeIfNoSessionAndIdle checkSize checkCount).2

/-- In every run, a session that is made has an id that none in the table has. -/
def Unique (strategy : ClientStrategy) : Prop :=
  ∀ calls m, Machine.run (step strategy) calls new = some m →
    ∀ s m', m.allocate strategy = (some s, m') → ∀ s' ∈ m.sessions, s'.id ≠ s.id

/-! ## What one call does -/

variable {strategy : ClientStrategy} {m m' : SessionManager} {s : Session}

/-- A session is made where the limits allow it, with the next id. -/
theorem allocate_eq_some (h : m.allocate strategy = (some s, m')) :
    (strategy.maxConcurrency.toNat = 0 ∨ m.sessions.length < strategy.maxConcurrency.toNat) ∧
      (strategy.maxConnection.toUInt16 = 0 ∨ m.count < strategy.maxConnection.toUInt16) ∧
      s = ⟨m.made.length, m.count + 1⟩ ∧ m'.count = m.count + 1 ∧
      m'.sessions = s :: without m.sessions s.id := by
  unfold allocate at h
  dsimp only at h
  split at h
  · nomatch h
  · next hfree =>
    obtain ⟨hs, hm⟩ := Prod.mk.inj h
    obtain rfl := some.inj hs
    obtain ⟨-, hfree⟩ := not_or.mp hfree
    obtain ⟨hconcurrency, hconnection⟩ := not_or.mp hfree
    subst hm
    refine ⟨?_, ?_, rfl, rfl, rfl⟩
    · omega
    · by_cases hzero : strategy.maxConnection.toUInt16 = 0
      · exact .inl hzero
      · refine .inr (UInt16.not_le.mp fun hle => hconnection ⟨?_, hle⟩)
        exact UInt16.pos_iff_ne_zero.mpr hzero

theorem mem_without {sessions : List Session} {id : UInt16} :
    s ∈ without sessions id ↔ s ∈ sessions ∧ s.id ≠ id := by
  simp [without]

theorem without_subset (sessions : List Session) (id : UInt16) : without sessions id ⊆ sessions :=
  fun _ hs => (mem_without.mp hs).1

theorem closeSession_sub (m : SessionManager) (s : Session) :
    (m.closeSession s).count = m.count ∧ (m.closeSession s).sessions ⊆ m.sessions := by
  unfold closeSession remove
  split
  · exact ⟨rfl, fun _ h => h⟩
  · split
    · exact ⟨rfl, fun _ h => h⟩
    · exact ⟨rfl, without_subset m.sessions s.id⟩

theorem closeIfNoSessionAndIdle_sub (m : SessionManager) (checkSize checkCount : ℕ) :
    (m.closeIfNoSessionAndIdle checkSize checkCount).2.count = m.count ∧
      (m.closeIfNoSessionAndIdle checkSize checkCount).2.sessions ⊆ m.sessions := by
  unfold closeIfNoSessionAndIdle
  split
  · exact ⟨rfl, fun _ h => h⟩
  · split
    · exact ⟨rfl, fun _ h => h⟩
    · exact ⟨rfl, nil_subset _⟩

/-- A call makes a session, or takes at most some away. -/
theorem step_cases {call : Call} (h : step strategy m call = some m') :
    (∃ s, m.allocate strategy = (some s, m')) ∨
      m'.count = m.count ∧ m'.sessions ⊆ m.sessions := by
  cases call with
  | allocate =>
    obtain rfl : (m.allocate strategy).2 = m' := some.inj h
    cases hs : (m.allocate strategy).1 with
    | some s => exact .inl ⟨s, Prod.ext hs rfl⟩
    | none =>
      -- with no session, nothing has changed
      refine .inr ?_
      unfold allocate at hs ⊢
      dsimp only at hs ⊢
      split at hs
      · next hlimit => rw [if_pos hlimit]; exact ⟨rfl, fun _ h => h⟩
      · nomatch hs
  | close s =>
    unfold step at h
    dsimp only at h
    split at h
    · obtain rfl := some.inj h
      exact .inr (m.closeSession_sub s)
    · nomatch h
  | get id =>
    obtain rfl : m = m' := some.inj h
    exact .inr ⟨rfl, fun _ h => h⟩
  | closeIfNoSessionAndIdle checkSize checkCount =>
    obtain rfl : (m.closeIfNoSessionAndIdle checkSize checkCount).2 = m' := some.inj h
    exact .inr (m.closeIfNoSessionAndIdle_sub checkSize checkCount)

/-! ## With a limit -/

/-- The ids in the table are not ahead of the count. -/
def Counted (m : SessionManager) : Prop := ∀ s ∈ m.sessions, s.id ≤ m.count

/-- Below a limit the count does not come round. -/
theorem lt_succ_of_limited (hlimit : strategy.maxConnection.toUInt16 ≠ 0)
    (h : m.allocate strategy = (some s, m')) : m.count < m.count + 1 := by
  obtain ⟨-, hbelow, -⟩ := allocate_eq_some h
  have hlt := UInt16.lt_iff_toNat_lt.mp (hbelow.resolve_left hlimit)
  have hmax := strategy.maxConnection.toUInt16.toNat_lt
  rw [UInt16.lt_iff_toNat_lt, UInt16.toNat_add]
  show m.count.toNat < (m.count.toNat + 1) % 2 ^ 16
  omega

theorem counted_of_step (hlimit : strategy.maxConnection.toUInt16 ≠ 0) {call : Call}
    (hm : m.Counted) (h : step strategy m call = some m') : m'.Counted := by
  rcases step_cases h with ⟨s, hs⟩ | ⟨hcount, hsub⟩
  · have hnext := UInt16.le_of_lt (lt_succ_of_limited hlimit hs)
    obtain ⟨-, -, rfl, hcount, hsessions⟩ := allocate_eq_some hs
    intro s' hs'
    rw [hsessions] at hs'
    rw [hcount]
    rcases mem_cons.mp hs' with rfl | hs'
    · exact UInt16.le_refl _
    · exact UInt16.le_trans (hm s' (without_subset _ _ hs')) hnext
  · intro s' hs'
    rw [hcount]
    exact hm s' (hsub hs')

/-- With a limit, no session is replaced. -/
theorem unique_of_bounded (hbounded : strategy.Bounded) : Unique strategy := by
  intro calls m hrun s m' hs s' hs'
  rcases hbounded with hlimit | hone
  · have hcounted : m.Counted := run_closed
      (fun _ _ _ _ hm h => counted_of_step hlimit hm h) (fun _ h => absurd h not_mem_nil) hrun
    have hnext := lt_succ_of_limited hlimit hs
    obtain ⟨-, -, rfl, -⟩ := allocate_eq_some hs
    intro heq
    have hle := hcounted s' hs'
    rw [heq] at hle
    exact UInt16.not_lt.mpr hle hnext
  · -- one session is made only into an empty table
    obtain ⟨hroom, -⟩ := allocate_eq_some hs
    rw [hone] at hroom
    have hempty : m.sessions.length < 1 := hroom.resolve_left (by decide)
    obtain hnil : m.sessions = [] := length_eq_zero_iff.mp (by omega)
    rw [hnil] at hs'
    nomatch hs'

/-! ## Without -/

/-- A session that stays open, with others made and closed: what the table holds after it has
    counted to `n`. -/
structure Held (n : ℕ) (m : SessionManager) : Prop where
  sessions : m.sessions = [⟨0, 1⟩]
  count : m.count = UInt16.ofNat n
  closed : m.closed = false
  made : m.made.length = n
  ended : ∀ s ∈ m.ended, s.serial < n

theorem allocate_of_unbounded (hbounded : ¬ strategy.Bounded) (hclosed : m.closed = false)
    (hlen : m.sessions.length ≤ 1) :
    m.allocate strategy = (some ⟨m.made.length, m.count + 1⟩, { m with
      count := m.count + 1
      made := ⟨m.made.length, m.count + 1⟩ :: m.made
      sessions := ⟨m.made.length, m.count + 1⟩ :: without m.sessions (m.count + 1) }) := by
  obtain ⟨hconnection, hconcurrency⟩ := not_or.mp hbounded
  have hzero : strategy.maxConnection.toUInt16 = 0 := Decidable.not_not.mp hconnection
  have hone : strategy.maxConcurrency.toNat ≠ 1 := fun h =>
    hconcurrency (UInt32.toNat_inj.mp h)
  unfold allocate
  dsimp only
  rw [if_neg]
  rintro (h | h | h)
  · rw [hclosed] at h
    nomatch h
  · omega
  · rw [hzero] at h
    exact absurd h.1 (UInt16.lt_irrefl 0)

/-- What was made is gone again, and nothing else has its id. -/
theorem without_made (n : ℕ) {id : UInt16} (hid : id ≠ 1) :
    without (⟨n, id⟩ :: without [⟨0, 1⟩] id) id = [⟨0, 1⟩] := by
  simp [without, hid.symm]

/-- One more session is made and closed, as long as its id is not that of the first. -/
theorem Held.round (hbounded : ¬ strategy.Bounded) {n : ℕ} (hm : m.Held n) (hpos : 0 < n)
    (hn : n < 65536) :
    ∃ m', Machine.run (step strategy)
      [.allocate, .close ⟨n, UInt16.ofNat (n + 1)⟩] m = some m' ∧ m'.Held (n + 1) := by
  have hcount : m.count + 1 = UInt16.ofNat (n + 1) := by
    rw [hm.count, UInt16.ofNat_add]
    rfl
  have hid : UInt16.ofNat (n + 1) ≠ 1 := by
    intro h
    have := congrArg UInt16.toNat h
    rw [UInt16.toNat_ofNat'] at this
    have hone : (1 : UInt16).toNat = 1 := rfl
    omega
  have hmade := allocate_of_unbounded (m := m) hbounded hm.closed
    (by rw [hm.sessions]; exact Nat.le_refl 1)
  rw [hcount, hm.made, hm.sessions] at hmade
  have hfresh : (⟨n, UInt16.ofNat (n + 1)⟩ : Session) ∉ m.ended := fun h =>
    Nat.lt_irrefl n (hm.ended _ h)
  refine ⟨(m.allocate strategy).2.closeSession ⟨n, UInt16.ofNat (n + 1)⟩, ?_, ?_⟩
  · have hmem : (⟨n, UInt16.ofNat (n + 1)⟩ : Session) ∈ (m.allocate strategy).2.made := by
      rw [hmade]
      exact mem_cons_self ..
    simp only [run, step, bind_some, if_pos hmem]
  · rw [hmade, closeSession, if_neg hfresh, remove,
      if_neg (by rw [hm.closed]; exact Bool.noConfusion)]
    refine ⟨?_, rfl, hm.closed, congrArg (· + 1) hm.made, fun s hs => ?_⟩
    · exact without_made n hid
    · rcases mem_cons.mp hs with rfl | hs
      · exact Nat.lt_succ_self n
      · exact Nat.lt_succ_of_lt (hm.ended s hs)

theorem Held.rounds (hbounded : ¬ strategy.Bounded) (k : ℕ) {n : ℕ} (hm : m.Held n) (hpos : 0 < n)
    (hk : n + k ≤ 65536) :
    ∃ calls m', Machine.run (step strategy) calls m = some m' ∧ m'.Held (n + k) := by
  induction k generalizing m n with
  | zero => exact ⟨[], m, rfl, hm⟩
  | succ k ih =>
    obtain ⟨mid, hround, hmid⟩ := hm.round hbounded hpos (by omega)
    obtain ⟨calls, m', hcalls, hm'⟩ := ih hmid (Nat.succ_pos n) (by omega)
    refine ⟨_ ++ calls, m', run_append hround hcalls, ?_⟩
    rw [show n + (k + 1) = n + 1 + k by omega]
    exact hm'

/-- Without a limit, the first session can stay open until the count has come round, and is
    then replaced by the next one. -/
theorem replaced_of_unbounded (hbounded : ¬ strategy.Bounded) :
    ∃ calls m, Machine.run (step strategy) calls new = some m ∧ ∃ m',
      m.allocate strategy = (some ⟨65536, 1⟩, m') ∧ m.get 1 = some ⟨0, 1⟩ ∧
      m'.get 1 = some ⟨65536, 1⟩ := by
  have hfirst := allocate_of_unbounded (m := new) hbounded rfl (Nat.zero_le 1)
  have hheld : (new.allocate strategy).2.Held 1 := by
    rw [hfirst]
    exact ⟨rfl, rfl, rfl, rfl, fun _ h => absurd h not_mem_nil⟩
  obtain ⟨calls, m, hcalls, hm⟩ := hheld.rounds hbounded 65535 Nat.one_pos (Nat.le_refl _)
  have hlast := allocate_of_unbounded (m := m) hbounded hm.closed
    (by rw [hm.sessions]; exact Nat.le_refl 1)
  have hcount : m.count + 1 = 1 := by
    rw [hm.count]
    rfl
  rw [hcount, hm.made] at hlast
  refine ⟨.allocate :: calls, m, hcalls, _, hlast, ?_, ?_⟩
  · rw [get, hm.closed, hm.sessions]
    rfl
  · rw [get, hm.closed]
    rfl

/-- No session in the table is ever replaced exactly when the number of sessions is limited,
    in all or at a time. -/
theorem unique_iff_bounded (strategy : ClientStrategy) : Unique strategy ↔ strategy.Bounded := by
  refine ⟨fun hunique => ?_, unique_of_bounded⟩
  apply Classical.byContradiction
  intro hbounded
  obtain ⟨calls, m, hrun, m', hs, hget, -⟩ := replaced_of_unbounded hbounded
  have hmem : (⟨0, 1⟩ : Session) ∈ m.sessions := by
    rw [get] at hget
    split at hget
    · nomatch hget
    · exact mem_of_find?_eq_some hget
  exact hunique calls m hrun _ m' hs _ hmem rfl

/-- The client of a reverse portal has no limits: the session it made first is replaced while
    it is open. -/
theorem portal_session_replaced :
    ∃ calls m, Machine.run (step ⟨0, 0⟩) calls new = some m ∧ ∃ m',
      m.allocate ⟨0, 0⟩ = (some ⟨65536, 1⟩, m') ∧ m.get 1 = some ⟨0, 1⟩ ∧
      m'.get 1 = some ⟨65536, 1⟩ :=
  replaced_of_unbounded (not_or.mpr ⟨fun h => h rfl, by decide⟩)

/-! ## Which session a frame is for -/

/-- The table has just the sessions that are open, each under an id of its own. -/
structure Exact (m : SessionManager) : Prop where
  mem : ∀ s, s ∈ m.sessions ↔ s ∈ m.made ∧ s ∉ m.ended
  inj : ∀ s ∈ m.sessions, ∀ s' ∈ m.sessions, s.id = s'.id → s = s'
  serial : ∀ s ∈ m.made ++ m.ended, s.serial < m.made.length
  closed : m.closed = true → m.sessions = []

theorem Exact.allocate (h : m.Exact)
    (hfresh : ∀ s m', m.allocate strategy = (some s, m') → ∀ s' ∈ m.sessions, s'.id ≠ s.id) :
    (m.allocate strategy).2.Exact := by
  unfold SessionManager.allocate at hfresh ⊢
  dsimp only at hfresh ⊢
  split_ifs at hfresh ⊢ with hlimit
  · exact h
  · have hids := hfresh _ _ rfl
    obtain ⟨hmem, hinj, hserial, hclosed⟩ := h
    have hnew : ⟨m.made.length, m.count + 1⟩ ∉ m.ended := fun hin =>
      Nat.lt_irrefl _ (hserial _ (mem_append_right _ hin))
    constructor
    · grind [mem_without]
    · grind [mem_without]
    · grind
    · grind

theorem Exact.closeSession (h : m.Exact) (hs : s ∈ m.made) : (m.closeSession s).Exact := by
  unfold SessionManager.closeSession remove
  obtain ⟨hmem, hinj, hserial, hclosed⟩ := h
  split_ifs with hended hclosed
  · exact ⟨hmem, hinj, hserial, hclosed⟩
  · constructor <;> grind
  · constructor <;> grind [mem_without]

theorem Exact.closeIfNoSessionAndIdle (h : m.Exact) (checkSize checkCount : ℕ) :
    (m.closeIfNoSessionAndIdle checkSize checkCount).2.Exact := by
  unfold SessionManager.closeIfNoSessionAndIdle
  split_ifs with hclosed hidle
  · exact h
  · exact h
  · have hnil : m.sessions = [] := length_eq_zero_iff.mp (not_not.mp (not_or.mp hidle).1)
    exact ⟨hnil ▸ h.mem, nofun, h.serial, fun _ => rfl⟩

theorem exact_of_bounded (hbounded : strategy.Bounded) {calls : List Call}
    (hrun : Machine.run (step strategy) calls new = some m) : m.Exact := by
  -- that ids are new is known of runs, so the invariant says that there was one
  let P (m : SessionManager) : Prop :=
    (∃ calls, run (step strategy) calls new = some m) ∧ m.Exact
  have hnew : P new := ⟨⟨[], rfl⟩, by simp [new], nofun, nofun, nofun⟩
  refine (run_closed (P := P) (fun call _ m m' hm hstep => ?_) hnew hrun).2
  obtain ⟨⟨calls, hcalls⟩, h⟩ := hm
  refine ⟨⟨calls ++ [call], run_append hcalls (by rw [run, hstep]; rfl)⟩, ?_⟩
  cases call with
  | allocate => exact some.inj hstep ▸ h.allocate (unique_of_bounded hbounded calls m hcalls)
  | close s =>
    unfold step at hstep
    dsimp only at hstep
    split_ifs at hstep with hs
    exact some.inj hstep ▸ h.closeSession hs
  | get id => exact some.inj hstep ▸ h
  | closeIfNoSessionAndIdle checkSize checkCount =>
    exact some.inj hstep ▸ h.closeIfNoSessionAndIdle checkSize checkCount

/-- With a limit, in every run a frame is given to the session that has its id and is open. -/
theorem get_iff_open (hbounded : strategy.Bounded) {calls : List Call}
    (hrun : Machine.run (step strategy) calls new = some m) (id : UInt16) (s : Session) :
    m.get id = some s ↔ s ∈ m.made ∧ s ∉ m.ended ∧ s.id = id := by
  obtain ⟨hmem, hinj, -, hclosed⟩ := exact_of_bounded hbounded hrun
  unfold get
  split_ifs with h
  · -- a manager is closed only when no session is open
    refine ⟨nofun, fun ⟨hmade, hopen, _⟩ => ?_⟩
    exact absurd ((hmem s).mpr ⟨hmade, hopen⟩) (hclosed h ▸ not_mem_nil)
  · constructor
    · intro hfind
      obtain ⟨hmade, hopen⟩ := (hmem s).mp (mem_of_find?_eq_some hfind)
      have hid := find?_some hfind
      exact ⟨hmade, hopen, eq_of_beq hid⟩
    · rintro ⟨hmade, hopen, rfl⟩
      have hs := (hmem s).mpr ⟨hmade, hopen⟩
      cases hfind : m.sessions.find? fun s' => s'.id == s.id with
      | none => exact absurd (beq_self_eq_true s.id) (find?_eq_none.mp hfind s hs)
      | some s' =>
        have hid := find?_some hfind
        rw [hinj s' (mem_of_find?_eq_some hfind) s hs (eq_of_beq hid)]

/-- Two sessions, the first of which is closed. -/
theorem get_iff_open_second :
    ∃ m, Machine.run (step ⟨0, 8⟩) [.allocate, .allocate, .close ⟨0, 1⟩] new = some m ∧
      m.get 1 = none ∧ m.get 2 = some ⟨1, 2⟩ ∧ (⟨1, 2⟩ : Session) ∉ m.ended := by
  have hopen (m : SessionManager)
      (hrun : run (step ⟨0, 8⟩) [.allocate, .allocate, .close ⟨0, 1⟩] new = some m) :=
    get_iff_open (.inl (by decide)) hrun 2 ⟨1, 2⟩
  exact ⟨_, rfl, rfl, rfl, ((hopen _ rfl).mp rfl).2.1⟩

end SessionManager

end XrayCore.Mux
