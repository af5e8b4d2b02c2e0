/-
  XrayCore.Protocol.Validator

  The user registries of VLESS and Trojan: one map from lowercase emails and one from keys.

  Both keep a user under its email as long as it is there, but under its key only until
  another user of that key comes.  The two maps agree all along a run exactly if no user is
  added with the key of another one (`staysConsistent_iff`), and then a deletion takes
  nobody else's authentication away.
-/

import XrayCore.Bytes.Slice

namespace XrayCore.Protocol

open Option Function

/-- `MemoryUser`, a pointer. -/
structure MemoryUser (Account : Type) where
  pointer : ℕ
  email : String
  account : Account
deriving DecidableEq

/-- `MemoryValidator` of VLESS and `Validator` of Trojan. -/
structure Validator (Account Key : Type) where
  email : String → Option (MemoryUser Account)
  users : Key → Option (MemoryUser Account)

namespace Validator

variable {Account Key : Type} [DecidableEq Key]

/-- No users. -/
def empty : Validator Account Key := ⟨fun _ => none, fun _ => none⟩

section Calls

variable (toLower : String → String) (key : Account → Key) (v : Validator Account Key)

/-- `Add`. -/
def add (u : MemoryUser Account) : Except String (Validator Account Key) :=
  let v' := { v with users := update v.users (key u.account) (some u) }
  if u.email = "" then .ok v'
  else match v.email (toLower u.email) with
    | some _ => .error ("User " ++ u.email ++ " already exists.")
    | none => .ok { v' with email := update v.email (toLower u.email) (some u) }

/-- `Del`. -/
def del (e : String) : Except String (Validator Account Key) :=
  if e = "" then .error "Email must not be empty."
  else match v.email (toLower e) with
    | none => .error ("User " ++ e ++ " not found.")
    | some u => .ok ⟨update v.email (toLower e) none,
        update v.users (key u.account) none⟩

/-- `GetByEmail`. -/
def getByEmail (e : String) : Option (MemoryUser Account) := v.email (toLower e)

end Calls

/-- A call that changes the registry. -/
inductive Call (Account : Type) where
  | add (u : MemoryUser Account)
  | del (e : String)

section Runs

variable (toLower : String → String) (key : Account → Key)

/-- The registry after a call; one that fails leaves it as it is. -/
def call (v : Validator Account Key) (c : Call Account) : Validator Account Key :=
  match (match c with
    | .add u => v.add toLower key u
    | .del e => v.del toLower key e) with
  | .ok v' => v'
  | .error _ => v

/-- The registry after some calls. -/
def after (calls : List (Call Account)) : Validator Account Key :=
  calls.foldl (call toLower key) empty

/-- Who is found by email is found by key, and deleting them leaves all others to be found. -/
def Consistent (v : Validator Account Key) : Prop :=
  ∀ e u, v.getByEmail toLower e = some u → v.users (key u.account) = some u ∧
    ∀ v', v.del toLower key e = .ok v' →
      ∀ k a, v.users k = some a → a ≠ u → v'.users k = some a

/-- All along some calls. -/
def StaysConsistent (calls : List (Call Account)) : Prop :=
  ∀ done, done <+: calls → (after toLower key done).Consistent toLower key

/-- Nobody is added with the key of another user who can be found by email. -/
def KeysDiffer (calls : List (Call Account)) : Prop :=
  ∀ done u, done ++ [.add u] <+: calls →
    ∀ v', (after toLower key done).add toLower key u = .ok v' →
    ∀ e a, (after toLower key done).getByEmail toLower e = some a →
      key a.account = key u.account → a = u

end Runs

/-! ## What one call does -/

variable {toLower : String → String} {key : Account → Key} {v v' : Validator Account Key}

theorem add_cases {u : MemoryUser Account} (h : v.add toLower key u = .ok v') :
    v'.users = update v.users (key u.account) (some u) ∧
      (v'.email = v.email ∨ v.email (toLower u.email) = none ∧
        v'.email = update v.email (toLower u.email) (some u)) := by
  unfold add at h
  dsimp only at h
  split at h
  · obtain rfl := Except.ok.inj h
    exact ⟨rfl, .inl rfl⟩
  · split at h
    · nomatch h
    · next hnone =>
      obtain rfl := Except.ok.inj h
      exact ⟨rfl, .inr ⟨hnone, rfl⟩⟩

theorem del_cases {e : String} (h : v.del toLower key e = .ok v') :
    ∃ u, v.email (toLower e) = some u ∧ v'.email = update v.email (toLower e) none ∧
      v'.users = update v.users (key u.account) none := by
  unfold del at h
  split at h
  · nomatch h
  · split at h
    · nomatch h
    · next u hu =>
      obtain rfl := Except.ok.inj h
      exact ⟨u, hu, rfl, rfl⟩

theorem call_cases (toLower : String → String) (key : Account → Key) (v : Validator Account Key)
    (c : Call Account) : v.call toLower key c = v ∨
    (∃ u, c = .add u ∧ v.add toLower key u = .ok (v.call toLower key c)) ∨
    ∃ e, c = .del e ∧ v.del toLower key e = .ok (v.call toLower key c) := by
  unfold call
  split
  · next v' hok =>
    cases c with
    | add u => exact .inr (.inl ⟨u, rfl, hok⟩)
    | del e => exact .inr (.inr ⟨e, rfl, hok⟩)
  · exact .inl rfl

/-! ## The two maps -/

/-- Users are kept under their emails, and also found under their keys. -/
structure Agrees (toLower : String → String) (key : Account → Key) (v : Validator Account Key) :
    Prop where
  lower : ∀ e u, v.email e = some u → e = toLower u.email
  found : ∀ e u, v.email e = some u → v.users (key u.account) = some u

theorem lower_call (hlower : ∀ e u, v.email e = some u → e = toLower u.email) (c : Call Account) :
    ∀ e u, (v.call toLower key c).email e = some u → e = toLower u.email := by
  intro e u hu
  rcases call_cases toLower key v c with
    hsame | ⟨u', rfl, hadd⟩ | ⟨e', rfl, hdel⟩
  · rw [hsame] at hu
    exact hlower e u hu
  · rcases (add_cases hadd).2 with hemail | ⟨-, hemail⟩
    · rw [hemail] at hu
      exact hlower e u hu
    · rw [hemail, update_apply] at hu
      split at hu
      · next he => rw [he, some.inj hu]
      · exact hlower e u hu
  · obtain ⟨-, -, hemail, -⟩ := del_cases hdel
    rw [hemail, update_apply] at hu
    split at hu
    · nomatch hu
    · exact hlower e u hu

/-- Adding a user keeps the maps in agreement exactly if nobody else has its key. -/
theorem found_add_iff {u : MemoryUser Account}
    (hfound : ∀ e a, v.email e = some a → v.users (key a.account) = some a)
    (h : v.add toLower key u = .ok v') :
    (∀ e a, v'.email e = some a → v'.users (key a.account) = some a) ↔
      ∀ e a, v.email e = some a → key a.account = key u.account → a = u := by
  obtain ⟨husers, hemail⟩ := add_cases h
  rw [husers]
  constructor
  · intro hfound' e a ha hkey
    have ha' : v'.email e = some a := by
      rcases hemail with hemail | ⟨hnone, hemail⟩
      · rw [hemail, ha]
      · rw [hemail, update_of_ne _, ha]
        rintro rfl
        rw [hnone] at ha
        nomatch ha
    have hu := hfound' e a ha'
    rw [hkey, update_self] at hu
    exact (some.inj hu).symm
  · intro hdiffer e a ha
    have hcases : a = u ∨ v.email e = some a := by
      rcases hemail with hemail | ⟨-, hemail⟩
      · exact .inr (hemail ▸ ha)
      · rw [hemail, update_apply] at ha
        split at ha
        · exact .inl (some.inj ha).symm
        · exact .inr ha
    rcases hcases with rfl | hold
    · rw [update_self]
    · by_cases hkey : key a.account = key u.account
      · rw [hdiffer e a hold hkey, update_self]
      · rw [update_of_ne hkey, hfound e a hold]

theorem Agrees.found_del {e : String} (hv : v.Agrees toLower key)
    (h : v.del toLower key e = .ok v') :
    ∀ e a, v'.email e = some a → v'.users (key a.account) = some a := by
  obtain ⟨u, hu, hemail, husers⟩ := del_cases h
  intro e' a ha
  rw [hemail, update_apply] at ha
  split at ha
  · nomatch ha
  · next hne =>
    rw [husers, update_of_ne _, hv.found e' a ha]
    -- two users found under one key are one, and then have one email
    intro hkey
    have hsame := hv.found e' a ha
    rw [hkey, hv.found _ u hu] at hsame
    obtain rfl := some.inj hsame
    exact hne (by rw [hv.lower e' u ha, ← hv.lower _ u hu])

/-! ## Runs -/

theorem consistent_iff (hlower : ∀ e u, v.email e = some u → e = toLower u.email) :
    v.Consistent toLower key ↔ v.Agrees toLower key := by
  constructor
  · refine fun hv => ⟨hlower, fun e u hu => (hv u.email u ?_).1⟩
    rw [getByEmail, ← hlower e u hu, hu]
  · intro hv e u hu
    refine ⟨hv.found _ u hu, fun v' hdel k a ha hne => ?_⟩
    obtain ⟨u', hu', -, husers⟩ := del_cases hdel
    obtain rfl : u = u' := some.inj (hu.symm.trans hu')
    rw [husers, update_of_ne _, ha]
    rintro rfl
    rw [hv.found _ u hu] at ha
    exact hne (some.inj ha).symm

theorem after_concat (calls : List (Call Account)) (c : Call Account) :
    after toLower key (calls ++ [c]) = (after toLower key calls).call toLower key c := by
  rw [after, List.foldl_append]
  rfl

theorem lower_after (calls : List (Call Account)) :
    ∀ e u, (after toLower key calls).email e = some u → e = toLower u.email := by
  induction calls using List.reverseRecOn with
  | nil => exact nofun
  | append_singleton calls c ih =>
    rw [after_concat]
    exact lower_call ih c

theorem agrees_after {calls : List (Call Account)} (hdiffer : KeysDiffer toLower key calls) :
    ∀ done, done <+: calls → (after toLower key done).Agrees toLower key := by
  intro done
  induction done using List.reverseRecOn with
  | nil => exact fun _ => ⟨nofun, nofun⟩
  | append_singleton done c ih =>
    intro hpre
    have hv := ih ((List.prefix_append done [c]).trans hpre)
    refine ⟨lower_after _, ?_⟩
    rw [after_concat]
    rcases call_cases toLower key (after toLower key done) c with
      hsame | ⟨u, rfl, hadd⟩ | ⟨e, rfl, hdel⟩
    · rw [hsame]
      exact hv.found
    · refine (found_add_iff hv.found hadd).mpr fun e a ha hkey => ?_
      refine hdiffer done u hpre _ hadd a.email a ?_ hkey
      rw [getByEmail, ← hv.lower e a ha, ha]
    · exact hv.found_del hdel

theorem staysConsistent_iff (calls : List (Call Account)) :
    StaysConsistent toLower key calls ↔ KeysDiffer toLower key calls := by
  constructor
  · intro hstays done u hpre v' hadd e a ha
    have hv := (consistent_iff (lower_after done)).mp
      (hstays done ((List.prefix_append done _).trans hpre))
    have hv' := (consistent_iff (lower_after _)).mp (hstays _ hpre)
    have hlast : after toLower key (done ++ [.add u]) = v' := by
      rw [after_concat, call, hadd]
    rw [hlast] at hv'
    exact (found_add_iff hv.found hadd).mp hv'.found _ a ha
  · intro hdiffer done hpre
    exact (consistent_iff (lower_after done)).mpr (agrees_after hdiffer done hpre)

end Validator

/-! ## VLESS and Trojan -/

/-- `ProcessUUID`. -/
def processUUID (id : Vector UInt8 16) : Vector UInt8 16 := (id.set 6 0).set 7 0

/-- `hexString`. -/
def hexString (data : Bytes) : String :=
  data.foldl (fun str v => str ++
    String.ofList [Nat.digitChar (v.toNat / 16), Nat.digitChar (v.toNat % 16)]) ""

/-- `MemoryValidator.Get` of VLESS. -/
def Validator.get (v : Validator (Vector UInt8 16) (Vector UInt8 16)) (id : Vector UInt8 16) :
    Option (MemoryUser (Vector UInt8 16)) := v.users (processUUID id)

/-- In a registry of VLESS or of Trojan, who is found by email is found by id, all along a run,
    exactly if nobody is added with the key of another user; and then deleting a user leaves
    all others to be found. -/
theorem validators_consistent_iff (toLower : String → String) :
    (∀ calls, Validator.StaysConsistent toLower processUUID calls ↔
      Validator.KeysDiffer toLower processUUID calls) ∧
    (∀ calls, Validator.StaysConsistent toLower hexString calls ↔
      Validator.KeysDiffer toLower hexString calls) :=
  ⟨Validator.staysConsistent_iff, Validator.staysConsistent_iff⟩

/-- Two users whose ids differ in a byte that is masked out: the one that came first is still found
    by email, but its id gives the other, and deleting it leaves nobody. -/
theorem masked_ids_clash :
    let a : MemoryUser (Vector UInt8 16) := ⟨1, "a", .replicate 16 0⟩
    let b : MemoryUser (Vector UInt8 16) := ⟨2, "b", (Vector.replicate 16 0).set 6 1⟩
    let v := Validator.after id processUUID [.add a, .add b]
    v.getByEmail id "a" = some a ∧ v.get a.account = some b ∧
      (v.del id processUUID "a").toOption.map (fun v' => (v'.getByEmail id "b", v'.get b.account)) =
        some (some b, none) := by
  decide

end XrayCore.Protocol
