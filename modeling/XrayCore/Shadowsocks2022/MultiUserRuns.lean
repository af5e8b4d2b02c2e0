/-
  XrayCore.Shadowsocks2022.MultiUserRuns

  Runs of a `MultiUserInbound`: its two maps of users agree, and a user that was removed
  leaves nothing behind for packets.

  `UsersOk` is about the maps, the count and the revoked keys; `SessionsOk` about the table:
  every session in it is open and its owner is authorized, or the owner is being removed and
  the scan has still to come to the session.
-/

import XrayCore.Shadowsocks2022.MultiUser
import XrayCore.Shadowsocks2022.PacketReplay
import XrayCore.Table.Sift

namespace XrayCore.Shadowsocks2022.MultiUserInbound

open Machine Relation Table List Option

variable {P : Type} {m : MultiUserMethod P} {i i' : MultiUserInbound P}

theorem length_entries_erase {α β : Type} [DecidableEq α] {s : AList fun _ : α => β} {a : α}
    (h : a ∈ s) : (s.erase a).entries.length + 1 = s.entries.length := by
  have hkeys (t : AList fun _ : α => β) : t.entries.length = t.keys.length := by
    rw [AList.keys, keys, length_map]
  have hmem : a ∈ s.keys := AList.mem_keys.mp h
  rw [hkeys, hkeys, AList.keys_erase, length_erase_of_mem hmem]
  exact Nat.sub_add_cancel (length_pos_of_mem hmem)

/-! ## Users -/

/-- The inbound knows the user by the hash of its key. -/
def Authorized (m : MultiUserMethod P) (i : MultiUserInbound P) (u : P) : Prop :=
  ∃ key, (m.user u).account = some key ∧ i.usersByHash.lookup (m.deriveUserPSKHash key) = some u

structure UsersOk (m : MultiUserMethod P) (i : MultiUserInbound P) : Prop where
  hhash : ∀ h u, i.usersByHash.lookup h = some u →
    ∃ key, (m.user u).account = some key ∧ m.deriveUserPSKHash key = h
  hemail : ∀ e u, i.usersByEmail.lookup e = some u →
    (m.user u).email ≠ "" ∧ m.toLower (m.user u).email = e ∧ i.Authorized m u
  hagree : ∀ u, i.Authorized m u → (m.user u).email ≠ "" →
    i.usersByEmail.lookup (m.toLower (m.user u).email) = some u
  hcount : i.userCount = i.usersByHash.entries.length
  hrevoked : ∀ key ∈ i.revoked, ∀ u, i.Authorized m u → (m.user u).account ≠ some key

theorem usersOk_new (objects : ℕ → SessionObject P) : UsersOk m (new objects) where
  hhash _ _ h := (nomatch h)
  hemail _ _ h := (nomatch h)
  hagree _ h := by
    obtain ⟨key, -, h⟩ := h
    cases h
  hcount := rfl
  hrevoked _ h := (nomatch h)

/-- What `AddUser` does when it returns no error. -/
theorem addUser_ok {u : P} (h : i.addUser m u = .ok i') :
    ∃ key, (m.user u).account = some key ∧
      i.usersByHash.lookup (m.deriveUserPSKHash key) = none ∧
      ((m.user u).email ≠ "" → i.usersByEmail.lookup (m.toLower (m.user u).email) = none) ∧
      i' = { i with
        usersByHash := i.usersByHash.insert (m.deriveUserPSKHash key) u
        usersByEmail := if (m.user u).email = "" then i.usersByEmail
          else i.usersByEmail.insert (m.toLower (m.user u).email) u
        userCount := i.userCount + 1
        revoked := i.revoked.filter (· ≠ key) } := by
  unfold addUser at h
  dsimp only at h
  generalize hkey : (if (m.user u).email = "" then "" else m.toLower (m.user u).email) =
      emailKey at h
  split at h
  · cases h
  next hfree =>
  split at h
  · cases h
  next key haccount =>
  split at h
  · cases h
  split at h
  · cases h
  next hnew =>
  cases h
  refine ⟨key, haccount, by simpa using hnew, ?_, ?_⟩
  · intro hemail
    rw [if_neg hemail] at hkey
    subst hkey
    simpa [hemail] using hfree
  · by_cases hemail : (m.user u).email = ""
    · rw [if_pos hemail] at hkey
      subst hkey
      simp [hemail]
    · have hlower : m.toLower (m.user u).email ≠ "" := fun h => hemail (m.htoLower _ h)
      rw [if_neg hemail] at hkey
      subst hkey
      simp [hemail, hlower]

/-- What `RemoveUser` does under its lock before the scan. -/
theorem removeUser_ok {email : String} (h : i.removeUser m email = .ok i') :
    ∃ u, i.usersByEmail.lookup (m.toLower email) = some u ∧ i' = { i with
      usersByEmail := i.usersByEmail.erase (m.toLower email)
      usersByHash := i.usersByHash.erase (m.deriveUserPSKHash ((m.user u).account.getD []))
      userCount := i.userCount - 1
      holder := .removing ⟨u, i.sessions.entries.map fun e => (e.1, e.2), none⟩ } := by
  unfold removeUser at h
  split at h
  · cases h
  dsimp only at h
  split at h
  · cases h
  next u hu =>
  cases h
  exact ⟨u, hu, rfl⟩

section AddUser

variable {u : P} {key : Bytes}

/-- A user under a hash that was free changes nothing for the users there are. -/
theorem authorized_insert (haccount : (m.user u).account = some key)
    (hnew : i.usersByHash.lookup (m.deriveUserPSKHash key) = none)
    (hinsert : i'.usersByHash = i.usersByHash.insert (m.deriveUserPSKHash key) u) (v : P) :
    i'.Authorized m v ↔ v = u ∨ i.Authorized m v := by
  unfold Authorized
  rw [hinsert]
  constructor
  · rintro ⟨k, hk, hlookup⟩
    rcases lookup_insert_eq_some.mp hlookup with ⟨-, hv⟩ | ⟨-, hlookup⟩
    · exact .inl hv
    · exact .inr ⟨k, hk, hlookup⟩
  · rintro (rfl | ⟨k, hk, hlookup⟩)
    · exact ⟨key, haccount, AList.lookup_insert _⟩
    · refine ⟨k, hk, ?_⟩
      rw [AList.lookup_insert_ne, hlookup]
      intro hsame
      rw [hsame, hnew] at hlookup
      cases hlookup

theorem UsersOk.addUser (h : UsersOk m i) (hstep : i.addUser m u = .ok i') : UsersOk m i' := by
  obtain ⟨key, haccount, hnew, hfree, hresult⟩ := addUser_ok hstep
  have hauth := authorized_insert haccount hnew (congrArg usersByHash hresult)
  subst hresult
  constructor
  · intro hash v hlookup
    rcases lookup_insert_eq_some.mp hlookup with ⟨rfl, rfl⟩ | ⟨-, hlookup⟩
    · exact ⟨key, haccount, rfl⟩
    · exact h.hhash hash v hlookup
  · intro e v hlookup
    rw [hauth]
    dsimp only at hlookup
    split at hlookup
    · obtain ⟨hemail, hlower, hv⟩ := h.hemail e v hlookup
      exact ⟨hemail, hlower, .inr hv⟩
    · next hemail =>
      rcases lookup_insert_eq_some.mp hlookup with ⟨rfl, rfl⟩ | ⟨-, hlookup⟩
      · exact ⟨hemail, rfl, .inl rfl⟩
      · obtain ⟨hemail, hlower, hv⟩ := h.hemail e v hlookup
        exact ⟨hemail, hlower, .inr hv⟩
  · intro v hv hemail
    dsimp only
    rcases (hauth v).mp hv with rfl | hv
    · rw [if_neg hemail, AList.lookup_insert]
    · have hold := h.hagree v hv hemail
      split
      · exact hold
      · next hu =>
        rw [AList.lookup_insert_ne, hold]
        intro hsame
        rw [hsame, hfree hu] at hold
        cases hold
  · have hnot : m.deriveUserPSKHash key ∉ i.usersByHash := AList.lookup_eq_none.mp hnew
    dsimp only
    rw [AList.entries_insert_of_notMem hnot, length_cons, h.hcount]
    rfl
  · intro k hk v hv
    obtain ⟨hk, hne⟩ := mem_filter.mp hk
    rcases (hauth v).mp hv with rfl | hv
    · rw [haccount]
      rintro ⟨⟩
      simp at hne
    · exact h.hrevoked k hk v hv

end AddUser

section RemoveUser

variable {u : P} {key : Bytes}

/-- Without the hash of one user the others stay as they are. -/
theorem authorized_erase (haccount : (m.user u).account = some key)
    (hknown : i.usersByHash.lookup (m.deriveUserPSKHash key) = some u)
    (herase : i'.usersByHash = i.usersByHash.erase (m.deriveUserPSKHash key)) (v : P) :
    i'.Authorized m v ↔ v ≠ u ∧ i.Authorized m v := by
  unfold Authorized
  rw [herase]
  constructor
  · rintro ⟨k, hk, hlookup⟩
    obtain ⟨hsame, hlookup⟩ := lookup_erase_eq_some.mp hlookup
    refine ⟨?_, k, hk, hlookup⟩
    rintro rfl
    rw [haccount] at hk
    cases hk
    exact hsame rfl
  · rintro ⟨hne, k, hk, hlookup⟩
    refine ⟨k, hk, ?_⟩
    rw [AList.lookup_erase_ne, hlookup]
    intro hsame
    rw [hsame, hknown] at hlookup
    exact hne (some.inj hlookup).symm

theorem UsersOk.removeUser {email : String} (h : UsersOk m i)
    (hstep : i.removeUser m email = .ok i') : UsersOk m i' := by
  obtain ⟨u, hu, hresult⟩ := removeUser_ok hstep
  obtain ⟨hemail, hlower, key, haccount, hknown⟩ := h.hemail _ _ hu
  rw [haccount, getD_some] at hresult
  have hauth := authorized_erase haccount hknown (congrArg usersByHash hresult)
  subst hresult
  constructor
  · intro hash v hlookup
    exact h.hhash hash v (lookup_erase_eq_some.mp hlookup).2
  · intro e v hlookup
    rw [hauth]
    obtain ⟨hsame, hlookup⟩ := lookup_erase_eq_some.mp hlookup
    obtain ⟨hvemail, hvlower, hv⟩ := h.hemail e v hlookup
    refine ⟨hvemail, hvlower, ?_, hv⟩
    rintro rfl
    exact hsame (hvlower.symm.trans hlower)
  · intro v hv hvemail
    obtain ⟨hne, hv⟩ := (hauth v).mp hv
    have hold := h.hagree v hv hvemail
    dsimp only
    rw [AList.lookup_erase_ne, hold]
    intro hsame
    rw [hsame, hu] at hold
    exact hne (some.inj hold).symm
  · have hmem : m.deriveUserPSKHash key ∈ i.usersByHash :=
      AList.lookup_isSome.mp (by rw [hknown]; rfl)
    have hlength := length_entries_erase hmem
    have hcount := h.hcount
    dsimp only
    omega
  · intro k hk v hv
    exact h.hrevoked k hk v ((hauth v).mp hv).2

end RemoveUser

/-! ## Sessions -/

/-- The scan of a removal has still to come to a session of the user. -/
def Awaiting (i : MultiUserInbound P) (id p : ℕ) : Prop :=
  ∃ r, i.holder = .removing r ∧ (i.objects p).user = r.user ∧
    ((id, p) ∈ r.todo ∨ r.owned = some p)

/-- A packet being decoded is that of an authorized user, in a session that is its own or in
    one made for it. -/
structure DecodeOk (m : MultiUserMethod P) (i : MultiUserInbound P) (d : Decode P) : Prop where
  hauth : i.Authorized m d.user
  hallocated : d.object < i.allocated
  hid : (i.objects d.object).sessionID = d.pre.sessionID
  huser : d.isNew = true ∨ d.stage ≠ .loaded → (i.objects d.object).user = d.user
  hopen : d.isNew = true → d.stage ≠ .published → (i.objects d.object).session.closed = false

structure SessionsOk (m : MultiUserMethod P) (i : MultiUserInbound P) : Prop where
  htable : ∀ id p, i.sessions.lookup id = some p →
    p < i.allocated ∧ (i.objects p).sessionID = id ∧ (i.objects p).session.closed = false
  howner : ∀ id p, i.sessions.lookup id = some p →
    i.Authorized m (i.objects p).user ∨ i.Awaiting id p
  hremoving : ∀ r, i.holder = .removing r → ∃ key, (m.user r.user).account = some key ∧
    i.usersByHash.lookup (m.deriveUserPSKHash key) = none ∧ key ∉ i.revoked
  hdecoding : ∀ d, i.holder = .decoding d → DecodeOk m i d

theorem sessionsOk_new (objects : ℕ → SessionObject P) : SessionsOk m (new objects) where
  htable _ _ h := (nomatch h)
  howner _ _ h := (nomatch h)
  hremoving _ h := (nomatch h)
  hdecoding _ h := (nomatch h)

/-- What closing a session leaves: the session itself apart, all objects, and the table
    without it. -/
structure Closed (i i' : MultiUserInbound P) (p : ℕ) : Prop where
  hobjects : ∀ q, q ≠ p → i'.objects q = i.objects q
  hsame : (i'.objects p).user = (i.objects p).user ∧
    (i'.objects p).sessionID = (i.objects p).sessionID
  hsessions : ∀ id q, i'.sessions.lookup id = some q → i.sessions.lookup id = some q ∧ q ≠ p

theorem Closed.user {p : ℕ} (h : Closed i i' p) (q : ℕ) :
    (i'.objects q).user = (i.objects q).user := by
  by_cases hq : q = p
  · subst hq
    exact h.hsame.1
  · rw [h.hobjects q hq]

theorem SessionsOk.closed (h : SessionsOk m i) (p : ℕ) : Closed i (i.closeSession p) p := by
  unfold closeSession
  dsimp only
  split
  · next hclosed =>
    refine ⟨fun _ _ => rfl, ⟨rfl, rfl⟩, fun id q hq => ⟨hq, ?_⟩⟩
    -- a session that is closed already is not in the table
    rintro rfl
    rw [(h.htable id q hq).2.2] at hclosed
    cases hclosed
  · refine ⟨fun q hq => Function.update_of_ne hq _ _, by simp, fun id q hq => ?_⟩
    dsimp only at hq
    split at hq
    · next hin =>
      obtain ⟨hid, hold⟩ := lookup_erase_eq_some.mp hq
      refine ⟨hold, ?_⟩
      rintro rfl
      exact hid (h.htable id q hold).2.1.symm
    · next hout =>
      refine ⟨hq, ?_⟩
      rintro rfl
      rw [(h.htable id q hq).2.1] at hout
      exact hout hq

/-- Closing a session changes neither the users nor the calls. -/
theorem closeSession_rest (i : MultiUserInbound P) (p : ℕ) :
    (i.closeSession p).usersByHash = i.usersByHash ∧
      (i.closeSession p).usersByEmail = i.usersByEmail ∧
      (i.closeSession p).userCount = i.userCount ∧
      (i.closeSession p).allocated = i.allocated ∧ (i.closeSession p).holder = i.holder ∧
      (i.closeSession p).revoked = i.revoked ∧ (i.closeSession p).answers = i.answers := by
  unfold closeSession
  dsimp only
  split <;> simp

theorem SessionsOk.shut (h : SessionsOk m i) : SessionsOk m { i with closed := true } :=
  ⟨h.htable, h.howner, h.hremoving, fun d hd => { h.hdecoding d hd with }⟩

theorem authorized_congr (h : i'.usersByHash = i.usersByHash) (u : P) :
    i'.Authorized m u ↔ i.Authorized m u := by
  unfold Authorized
  rw [h]

theorem UsersOk.congr (h : UsersOk m i) (hhash : i'.usersByHash = i.usersByHash)
    (hemail : i'.usersByEmail = i.usersByEmail) (hcount : i'.userCount = i.userCount)
    (hrevoked : i'.revoked = i.revoked) : UsersOk m i' := by
  obtain ⟨h1, h2, h3, h4, h5⟩ := h
  constructor
  · rwa [hhash]
  · simpa only [hemail, authorized_congr hhash] using h2
  · simpa only [hemail, authorized_congr hhash] using h3
  · rw [hcount, hhash, h4]
  · simpa only [hrevoked, authorized_congr hhash] using h5

/-- A session may be closed at any time by those who can reach it. -/
theorem SessionsOk.close (h : SessionsOk m i) {p : ℕ} (hshared : i.Shared p = true) :
    SessionsOk m (i.closeSession p) := by
  have hclosed := h.closed p
  obtain ⟨hhash, -, -, hallocated, hholder, hrevoked, -⟩ := i.closeSession_rest p
  constructor
  · intro id q hq
    obtain ⟨hq, hne⟩ := hclosed.hsessions id q hq
    rw [hallocated, hclosed.hobjects q hne]
    exact h.htable id q hq
  · intro id q hq
    obtain ⟨hq, -⟩ := hclosed.hsessions id q hq
    rw [authorized_congr hhash, Awaiting, hholder, hclosed.user]
    exact h.howner id q hq
  · rw [hholder, hhash, hrevoked]
    exact h.hremoving
  · intro d hd
    rw [hholder] at hd
    have hok := h.hdecoding d hd
    refine ⟨(authorized_congr hhash _).mpr hok.hauth, hallocated ▸ hok.hallocated, ?_, ?_, ?_⟩
    · by_cases hp : d.object = p
      · rw [hp, hclosed.hsame.2, ← hp]
        exact hok.hid
      · rw [hclosed.hobjects _ hp]
        exact hok.hid
    · rw [hclosed.user]
      exact hok.huser
    · intro hnew hstage
      by_cases hp : d.object = p
      · simp [Shared, hd, hp, hnew, hstage] at hshared
      · rw [hclosed.hobjects _ hp]
        exact hok.hopen hnew hstage

/-! ### The scan of a removal -/

section Scan

variable {r : Removal P}

/-- The scan goes on: of the sessions in the table, those of the user are still awaited. -/
theorem SessionsOk.scan (h : SessionsOk m i) (hr : i.holder = .removing r) {todo : List (ℕ × ℕ)}
    {owned : Option ℕ}
    (hawait : ∀ id p, i.sessions.lookup id = some p → (i.objects p).user = r.user →
      (id, p) ∈ r.todo ∨ r.owned = some p → (id, p) ∈ todo ∨ owned = some p) :
    SessionsOk m { i with holder := .removing ⟨r.user, todo, owned⟩ } := by
  refine ⟨h.htable, ?_, ?_, nofun⟩
  · intro id p hp
    refine (h.howner id p hp).imp_right ?_
    rintro ⟨r', hr', huser, hwait⟩
    obtain rfl : r = r' := by
      rw [hr] at hr'
      exact Holder.removing.inj hr'
    exact ⟨_, rfl, huser, hawait id p hp huser hwait⟩
  · intro r' hr'
    cases hr'
    exact h.hremoving r hr

theorem SessionsOk.closeOwned (h : SessionsOk m i) (hr : i.holder = .removing r) {p : ℕ}
    (howned : r.owned = some p) :
    SessionsOk m { i.closeSession p with holder := .removing ⟨r.user, r.todo, none⟩ } := by
  have hclosed := h.closed p
  obtain ⟨hhash, -, -, hallocated, hholder, -, -⟩ := i.closeSession_rest p
  -- nobody decodes during a removal, so that the session is not a call's own
  have hnext := h.close (p := p) (by simp [Shared, hr])
  have hr' : (i.closeSession p).holder = .removing r := hholder.trans hr
  refine hnext.scan hr' ?_
  intro id q hq _ hwait
  obtain ⟨-, hne⟩ := hclosed.hsessions id q hq
  refine hwait.imp_right fun hsame => ?_
  rw [howned] at hsame
  exact absurd (some.inj hsame).symm hne

theorem SessionsOk.removed (h : SessionsOk m i) (hr : i.holder = .removing r) (htodo : r.todo = [])
    (howned : r.owned = none) (revoked : List Bytes) :
    SessionsOk m { i with holder := .free, revoked := revoked } := by
  refine ⟨h.htable, fun id p hp => .inl ?_, nofun, nofun⟩
  rcases h.howner id p hp with hauth | ⟨r', hr', -, hwait⟩
  · exact hauth
  · rw [hr] at hr'
    cases hr'
    simp [htodo, howned] at hwait

/-- A user that was removed is not authorized any more, so its key is revoked. -/
theorem UsersOk.removed (h : UsersOk m i) (hs : SessionsOk m i) (hr : i.holder = .removing r) :
    UsersOk m { i with
      holder := .free, revoked := (m.user r.user).account.getD [] :: i.revoked } := by
  obtain ⟨key, haccount, hgone, -⟩ := hs.hremoving r hr
  refine { h with hrevoked := ?_ }
  intro k hk v hv
  rcases mem_cons.mp hk with rfl | hk
  · rw [haccount, getD_some]
    intro hsame
    obtain ⟨k', hk', hlookup⟩ := hv
    rw [hsame] at hk'
    cases hk'
    rw [hgone] at hlookup
    cases hlookup
  · exact h.hrevoked k hk v hv

end Scan

/-! ### Calls that get the lock -/

theorem SessionsOk.addUser (h : SessionsOk m i) (hfree : i.holder = .free) {u : P}
    (hstep : i.addUser m u = .ok i') : SessionsOk m i' := by
  obtain ⟨key, haccount, hnew, -, hresult⟩ := addUser_ok hstep
  have hauth := authorized_insert haccount hnew (congrArg usersByHash hresult)
  subst hresult
  refine ⟨h.htable, ?_, ?_, ?_⟩
  · intro id p hp
    rcases h.howner id p hp with hp | ⟨r, hr, -⟩
    · exact .inl ((hauth _).mpr (.inr hp))
    · rw [hfree] at hr
      cases hr
  · intro r hr
    rw [show i.holder = .removing r from hr] at hfree
    cases hfree
  · intro d hd
    rw [show i.holder = .decoding d from hd] at hfree
    cases hfree

/-- At the start of its scan a removal has all the sessions of its user before it. -/
theorem SessionsOk.removeUser (h : SessionsOk m i) (hu : UsersOk m i) (hfree : i.holder = .free)
    {email : String} (hstep : i.removeUser m email = .ok i') : SessionsOk m i' := by
  obtain ⟨u, hlookup, hresult⟩ := removeUser_ok hstep
  obtain ⟨-, -, key, haccount, hknown⟩ := hu.hemail _ _ hlookup
  rw [haccount, getD_some] at hresult
  have hauth := authorized_erase haccount hknown (congrArg usersByHash hresult)
  subst hresult
  refine ⟨h.htable, ?_, ?_, nofun⟩
  · intro id p hp
    rcases h.howner id p hp with howner | ⟨r, hr, -⟩
    · by_cases hsame : (i.objects p).user = u
      · refine .inr ⟨_, rfl, hsame, .inl ?_⟩
        exact mem_map.mpr ⟨⟨id, p⟩, AList.mem_lookup_iff.mp hp, rfl⟩
      · exact .inl ((hauth _).mpr ⟨hsame, howner⟩)
    · rw [hfree] at hr
      cases hr
  · intro r hr
    cases hr
    exact ⟨key, haccount, AList.lookup_erase _ _,
      fun hmem => hu.hrevoked key hmem u ⟨key, haccount, hknown⟩ haccount⟩

/-- What `loadSession` does for the packet of a user: it takes the session of the table or makes
    one. -/
theorem loadSession_ok {packet : Bytes} (h : i.loadSession m packet = .ok i') :
    ∃ hash u pre body, i.usersByHash.lookup hash = some u ∧
      ((∃ p, i.sessions.lookup pre.sessionID = some p ∧
          i' = { i with holder := .decoding ⟨pre, body, u, p, false, .loaded⟩ }) ∨
        i' = { i with
          objects := Function.update i.objects i.allocated ⟨pre.sessionID, u, .new⟩
          allocated := i.allocated + 1
          holder := .decoding ⟨pre, body, u, i.allocated, true, .loaded⟩ }) := by
  unfold loadSession at h
  split at h
  · cases h
  dsimp only at h
  split at h
  · cases h
  next u hu =>
  split at h
  · cases h
  split at h
  · next p hp =>
    cases h
    exact ⟨_, u, _, _, hu, .inl ⟨p, hp, rfl⟩⟩
  · cases h
    exact ⟨_, u, ⟨_, _, _, none⟩, _, hu, .inr rfl⟩

theorem SessionsOk.load (h : SessionsOk m i) (hu : UsersOk m i) (hfree : i.holder = .free)
    {packet : Bytes} (hstep : i.loadSession m packet = .ok i') : SessionsOk m i' := by
  have howner : ∀ id p, i.sessions.lookup id = some p → i.Authorized m (i.objects p).user := by
    intro id p hp
    rcases h.howner id p hp with hauth | ⟨r, hr, -⟩
    · exact hauth
    · rw [hfree] at hr
      cases hr
  obtain ⟨hash, u, pre, body, hlookup, hcase⟩ := loadSession_ok hstep
  have hauth : i.Authorized m u := by
    obtain ⟨key, haccount, rfl⟩ := hu.hhash hash u hlookup
    exact ⟨key, haccount, hlookup⟩
  rcases hcase with ⟨p, hp, rfl⟩ | rfl
  · refine ⟨h.htable, fun id q hq => .inl (howner id q hq), nofun, ?_⟩
    rintro d ⟨⟩
    obtain ⟨hallocated, hid, -⟩ := h.htable _ _ hp
    exact ⟨hauth, hallocated, hid, by simp, by simp⟩
  · -- the objects of the table are not the new one
    have hold : ∀ id q, i.sessions.lookup id = some q →
        Function.update i.objects i.allocated ⟨pre.sessionID, u, .new⟩ q = i.objects q := by
      intro id q hq
      have := (h.htable id q hq).1
      exact Function.update_of_ne (by omega) _ _
    refine ⟨?_, ?_, nofun, ?_⟩
    · intro id q hq
      obtain ⟨hallocated, hrest⟩ := h.htable id q hq
      dsimp only
      rw [hold id q hq]
      exact ⟨by omega, hrest⟩
    · intro id q hq
      dsimp only
      rw [hold id q hq]
      exact .inl (howner id q hq)
    · rintro d ⟨⟩
      exact ⟨hauth, Nat.lt_succ_self _, by simp, by simp, by simp [ServerUDPSession.new]⟩

/-! ### The steps of `authenticate` -/

section Authenticate

variable {d : Decode P}

/-- While a packet is decoded the owner of every session in the table is authorized. -/
theorem SessionsOk.howner_decoding (h : SessionsOk m i) (hd : i.holder = .decoding d) (id p : ℕ)
    (hp : i.sessions.lookup id = some p) : i.Authorized m (i.objects p).user := by
  rcases h.howner id p hp with hauth | ⟨r, hr, -⟩
  · exact hauth
  · rw [hd] at hr
    cases hr

theorem SessionsOk.free (h : SessionsOk m i) (hd : i.holder = .decoding d) :
    SessionsOk m { i with holder := .free } :=
  ⟨h.htable, fun id p hp => .inl (h.howner_decoding hd id p hp), nofun, nofun⟩

/-- The session of a call changes, with its id, its owner and its end as they were. -/
theorem SessionsOk.update (h : SessionsOk m i) (hd : i.holder = .decoding d)
    {session : ServerUDPSession} (hsame : session.closed = (i.objects d.object).session.closed)
    {holder : Holder P} (answers : List P) (hremoving : ∀ r, holder ≠ .removing r)
    (hdecoding : ∀ d', holder = .decoding d' →
      ∃ stage, d' = { d with stage := stage } ∧ stage ≠ .loaded ∧ d.stage ≠ .loaded ∧
        (stage ≠ .published → d.stage ≠ .published)) :
    SessionsOk m { i with
      objects := Function.update i.objects d.object
        { i.objects d.object with session := session }
      holder := holder
      answers := answers } := by
  have hok := h.hdecoding d hd
  -- what the invariant reads of an object is as before
  have hread : ∀ q, (Function.update i.objects d.object
      { i.objects d.object with session := session } q).sessionID = (i.objects q).sessionID ∧
      (Function.update i.objects d.object
        { i.objects d.object with session := session } q).user = (i.objects q).user ∧
      (Function.update i.objects d.object
        { i.objects d.object with session := session } q).session.closed
          = (i.objects q).session.closed := by
    intro q
    by_cases hq : q = d.object
    · subst hq
      simp [hsame]
    · simp [Function.update_of_ne hq]
  constructor
  · intro id q hq
    obtain ⟨hid, -, hclosed⟩ := hread q
    dsimp only
    rw [hid, hclosed]
    exact h.htable id q hq
  · intro id q hq
    dsimp only
    rw [(hread q).2.1]
    exact .inl (h.howner_decoding hd id q hq)
  · intro r hr
    exact absurd hr (hremoving r)
  · intro d' hd'
    obtain ⟨stage, rfl, hstage, hbefore, hpublished⟩ := hdecoding d' hd'
    obtain ⟨hid, huser, hclosed⟩ := hread d.object
    refine ⟨hok.hauth, hok.hallocated, ?_, fun _ => ?_, fun hnew hnot => ?_⟩ <;> dsimp only
    · rw [hid]
      exact hok.hid
    · rw [huser]
      exact hok.huser (.inr hbefore)
    · rw [hclosed]
      exact hok.hopen hnew (hpublished hnot)

theorem SessionsOk.publish (h : SessionsOk m i) (hd : i.holder = .decoding d)
    (hstage : d.stage = .decoded) : SessionsOk m (i.publishSession d) := by
  have hok := h.hdecoding d hd
  have huser := hok.huser (.inr (by simp [hstage]))
  unfold publishSession
  have hlookup : ∀ id p, (if d.isNew then i.sessions.insert d.pre.sessionID d.object
      else i.sessions).lookup id = some p →
      i.sessions.lookup id = some p ∨ d.isNew = true ∧ id = d.pre.sessionID ∧ p = d.object := by
    intro id p hp
    split at hp
    · next hnew =>
      rcases lookup_insert_eq_some.mp hp with hp | ⟨-, hp⟩
      · exact .inr ⟨hnew, hp⟩
      · exact .inl hp
    · exact .inl hp
  constructor
  · intro id p hp
    rcases hlookup id p hp with hp | ⟨hnew, rfl, rfl⟩
    · exact h.htable id p hp
    · exact ⟨hok.hallocated, hok.hid, hok.hopen hnew (by simp [hstage])⟩
  · intro id p hp
    rcases hlookup id p hp with hp | ⟨-, rfl, rfl⟩
    · exact .inl (h.howner_decoding hd id p hp)
    · refine .inl ?_
      dsimp only
      rw [huser]
      exact hok.hauth
  · nofun
  · rintro d' ⟨⟩
    exact ⟨hok.hauth, hok.hallocated, hok.hid, fun _ => huser, fun _ hnot => absurd rfl hnot⟩

end Authenticate

/-! ## Whole runs -/

variable [DecidableEq P]

/-- What a step may do to the answers: nothing, or one more for an authorized user. -/
def Answers (m : MultiUserMethod P) (i i' : MultiUserInbound P) : Prop :=
  i'.answers = i.answers ∨ ∃ u, i'.answers = i.answers ++ [u] ∧ i.Authorized m u

variable {a : UserAction P}

/-- A step of the scan keeps all. -/
theorem scan_keeps {r : Removal P} (hu : UsersOk m i) (hs : SessionsOk m i)
    (hr : i.holder = .removing r) (hstep : i.scan m r a = some i') :
    UsersOk m i' ∧ SessionsOk m i' ∧ Answers m i i' := by
  unfold scan at hstep
  split at hstep
  · next entry =>
    split at hstep
    · next hentry =>
      cases hstep
      refine ⟨{ hu with }, hs.scan hr ?_, .inl rfl⟩
      intro id p _ huser hwait
      simp only [hentry.2, reduceCtorEq, or_false] at hwait
      by_cases hsame : (id, p) = entry
      · subst hsame
        simp [huser]
      · exact .inl ((mem_erase_of_ne hsame).mpr hwait)
    · cases hstep
  · next entry =>
    split at hstep
    · next hentry =>
      cases hstep
      refine ⟨{ hu with }, hs.scan hr ?_, .inl rfl⟩
      intro id p hp _ hwait
      simp only [hentry.2.1, reduceCtorEq, or_false] at hwait
      refine .inl ((mem_erase_of_ne ?_).mpr hwait)
      rintro rfl
      exact hentry.2.2 hp
    · cases hstep
  · obtain ⟨p, howned, rfl⟩ := map_eq_some_iff.mp hstep
    obtain ⟨hhash, hemail, hcount, -, -, hrevoked, hanswers⟩ := i.closeSession_rest p
    exact ⟨hu.congr hhash hemail hcount hrevoked, hs.closeOwned hr howned, .inl hanswers⟩
  · split at hstep
    · next hdone =>
      cases hstep
      exact ⟨hu.removed hs hr, hs.removed hr hdone.1 hdone.2 _, .inl rfl⟩
    · cases hstep
  · cases hstep
    exact ⟨{ hu with }, hs.shut, .inl rfl⟩
  · cases hstep

/-- A step of a call that decodes a packet keeps all, and answers for an authorized user only. -/
theorem authenticate_keeps {d : Decode P} (hu : UsersOk m i) (hs : SessionsOk m i)
    (hd : i.holder = .decoding d) (hstep : i.authenticate m d a = some i') :
    UsersOk m i' ∧ SessionsOk m i' ∧ Answers m i i' := by
  have hok := hs.hdecoding d hd
  unfold authenticate at hstep
  split at hstep
  · split at hstep <;> cases hstep
    next hstage =>
    unfold checkSession
    dsimp only
    split
    · exact ⟨{ hu with }, hs.free hd, .inl rfl⟩
    · next hgood =>
      have huser : (i.objects d.object).user = d.user := by
        by_contra hne
        exact hgood (.inr hne)
      refine ⟨{ hu with }, ⟨hs.htable, ?_, nofun, ?_⟩, .inl rfl⟩
      · exact fun id p hp => .inl (hs.howner_decoding hd id p hp)
      · rintro d' ⟨⟩
        exact ⟨hok.hauth, hok.hallocated, hok.hid, fun _ => huser, fun hnew _ => hok.hopen hnew
          (by simp [hstage])⟩
  · split at hstep
    case isFalse => cases hstep
    next hstage =>
    unfold decodeSession at hstep
    dsimp only at hstep
    split at hstep
    · cases hstep
    · cases hstep
      exact ⟨{ hu with }, hs.free hd, .inl rfl⟩
    · next packet session hrun =>
      cases hstep
      have hsame : session.closed = (i.objects d.object).session.closed :=
        (UDPCodec.decryptAESPayload_ok hrun).closed
      refine ⟨{ hu with }, hs.update hd hsame i.answers nofun ?_, .inl rfl⟩
      rintro d' ⟨⟩
      exact ⟨.decoded, rfl, by simp, by simp [hstage], by simp [hstage]⟩
  · split at hstep <;> cases hstep
    next hstage => exact ⟨{ hu with }, hs.publish hd hstage, .inl rfl⟩
  · split at hstep <;> cases hstep
    next hstage =>
    unfold touchSession
    refine ⟨{ hu with }, hs.update hd ?_ _ nofun nofun, .inr ⟨d.user, rfl, hok.hauth⟩⟩
    unfold ServerUDPSession.touch
    split <;> rfl
  · cases hstep

theorem step_keeps (hu : UsersOk m i) (hs : SessionsOk m i) (hstep : i.step m a = some i') :
    UsersOk m i' ∧ SessionsOk m i' ∧ Answers m i i' := by
  unfold step at hstep
  split at hstep
  · next p =>
    split at hstep
    · next hp =>
      cases hstep
      obtain ⟨hhash, hemail, hcount, -, -, hrevoked, hanswers⟩ := i.closeSession_rest p
      exact ⟨hu.congr hhash hemail hcount hrevoked, hs.close hp.2, .inl hanswers⟩
    · cases hstep
  split at hstep
  · next hfree =>
    -- a call that returns an error leaves the inbound alone
    split at hstep
    · next u _ =>
      cases hstep
      cases hadd : i.addUser m u with
      | error => exact ⟨hu, hs, .inl rfl⟩
      | ok next =>
        have husers := hu.addUser hadd
        have hsessions := hs.addUser hfree hadd
        obtain ⟨key, -, -, -, rfl⟩ := addUser_ok hadd
        exact ⟨husers, hsessions, .inl rfl⟩
    · next email _ =>
      cases hstep
      cases hremove : i.removeUser m email with
      | error => exact ⟨hu, hs, .inl rfl⟩
      | ok next =>
        have husers := hu.removeUser hremove
        have hsessions := hs.removeUser hu hfree hremove
        obtain ⟨u, -, rfl⟩ := removeUser_ok hremove
        exact ⟨husers, hsessions, .inl rfl⟩
    · next packet _ =>
      cases hstep
      cases hload : i.loadSession m packet with
      | error => exact ⟨hu, hs, .inl rfl⟩
      | ok next =>
        have hnext := hs.load hu hfree hload
        obtain ⟨hash, u, pre, body, -, ⟨p, -, rfl⟩ | rfl⟩ := loadSession_ok hload
        · exact ⟨{ hu with }, hnext, .inl rfl⟩
        · exact ⟨{ hu with }, hnext, .inl rfl⟩
    · cases hstep
      exact ⟨{ hu with }, hs.shut, .inl rfl⟩
    · cases hstep
  · next r hr => exact scan_keeps hu hs hr hstep
  · next d hd => exact authenticate_keeps hu hs hd hstep

/-- One step of some call, or a session that is closed. -/
def Step (m : MultiUserMethod P) (i i' : MultiUserInbound P) : Prop := ∃ a, i.step m a = some i'

/-- In every state of every run the map by email holds exactly the users with an email that the
    map by hash holds, and the count is right; a key that was revoked owns no session in
    the table, and no step answers a packet under it. -/
theorem removed_user_is_gone (objects : ℕ → SessionObject P)
    (h : ReflTransGen (Step m) (new objects) i) :
    (∀ e u, i.usersByEmail.lookup e = some u ↔
      (m.user u).email ≠ "" ∧ m.toLower (m.user u).email = e ∧ i.Authorized m u) ∧
    i.userCount = i.usersByHash.entries.length ∧
    ∀ key ∈ i.revoked,
      (∀ id p, i.sessions.lookup id = some p → (m.user (i.objects p).user).account ≠ some key) ∧
      ∀ i' u, Step m i i' → i'.answers = i.answers ++ [u] → (m.user u).account ≠ some key := by
  obtain ⟨hu, hs⟩ := reach_closed (P := fun i => UsersOk m i ∧ SessionsOk m i)
    (fun x hx y ⟨_, hstep⟩ => ⟨(step_keeps hx.1 hx.2 hstep).1, (step_keeps hx.1 hx.2 hstep).2.1⟩)
    ⟨usersOk_new objects, sessionsOk_new objects⟩ h
  refine ⟨fun e u => ⟨hu.hemail e u, ?_⟩, hu.hcount, fun key hkey => ⟨?_, ?_⟩⟩
  · rintro ⟨hemail, rfl, hauth⟩
    exact hu.hagree u hauth hemail
  · intro id p hp hsame
    rcases hs.howner id p hp with hauth | ⟨r, hr, huser, -⟩
    · exact hu.hrevoked key hkey _ hauth hsame
    · -- the key of a user that is being removed is not revoked yet
      obtain ⟨k, hk, -, hnot⟩ := hs.hremoving r hr
      rw [huser, hk] at hsame
      cases hsame
      exact hnot hkey
  · rintro i' u ⟨a, hstep⟩ hanswer
    rcases (step_keeps hu hs hstep).2.2 with hsame | ⟨v, hv, hauth⟩
    · rw [hsame] at hanswer
      simp at hanswer
    · rw [hv] at hanswer
      obtain rfl : v = u := by simpa using hanswer
      exact hu.hrevoked key hkey v hauth

/-- Two users, and ciphers that only add a tag. -/
def taggedMethod : MultiUserMethod Bool where
  user u := ⟨if u then "alice" else "", some [if u then 1 else 2]⟩
  toLower := id
  keySaltLength := 1
  deriveUserPSKHash key := key ++ List.replicate 15 0
  masterDecrypt := id
  codec _ := ⟨false, tagged, fun _ _ => none, id⟩
  htoLower _ h := h

/-- A packet of the user with an email, in session 7 with a timestamp of 100. -/
def alicePacket : Bytes :=
  [0, 0, 0, 0, 0, 0, 0, 7] ++ List.replicate 8 0 ++
    ([1, 0, 0, 0, 0, 0, 0, 7] ++ List.replicate 8 0) ++
    [0, 0, 0, 0, 0, 0, 0, 0, 100, 0, 0] ++ [1, 1, 1, 1, 1, 0, 80, 42] ++ List.replicate 16 0

/-- Both users are added, the packet is decoded, its user is removed, and the packet comes again. -/
def revokedRun : List (UserAction Bool) :=
  [.addUser true, .addUser false, .load alicePacket, .check, .decode 100, .publish, .touch 100,
    .removeUser "alice", .visit (7, 0), .closeOwned, .removed, .load alicePacket]

theorem removed_user_is_gone_alice :
    ∃ i, run (step taggedMethod) revokedRun (new fun _ => ⟨0, false, .new⟩) = some i ∧
      i.answers = [true] ∧ i.revoked = [[1]] ∧ i.userCount = 1 ∧
      ∀ key ∈ i.revoked,
        (∀ id p, i.sessions.lookup id = some p →
          (taggedMethod.user (i.objects p).user).account ≠ some key) ∧
        ∀ i' u, Step taggedMethod i i' → i'.answers = i.answers ++ [u] →
          (taggedMethod.user u).account ≠ some key := by
  have hrun : (run (step taggedMethod) revokedRun (new fun _ => ⟨0, false, .new⟩)).map
      (fun i => (i.answers, i.revoked, i.userCount)) = some ([true], [[1]], 1) := by
    decide
  obtain ⟨i, hi, hends⟩ := map_eq_some_iff.mp hrun
  obtain ⟨hanswers, hends⟩ := Prod.mk.inj hends
  obtain ⟨hrevoked, hcount⟩ := Prod.mk.inj hends
  have hreach : ReflTransGen (Step taggedMethod) (new fun _ => ⟨0, false, .new⟩) i :=
    reach_of_run (fun _ a _ hstep => ⟨a, hstep⟩) _ hi
  exact ⟨i, hi, hanswers, hrevoked, hcount, (removed_user_is_gone _ hreach).2.2⟩

end XrayCore.Shadowsocks2022.MultiUserInbound
