/-
  XrayCore.Machine.Result

  Computations that give a value or an error, or stop the program, and the numbers they
  compute with.

  `bind_ok` takes a computation that gave a value apart, one step at a time.  `wrap64` is
  what 64 bits keep of a number, `round53` what a double keeps of one: 53 bits, to nearest
  and ties to even.
-/

import Mathlib

namespace XrayCore.Machine

/-- A computation that can stop the program, or give an error. -/
abbrev Result := ExceptT String Option

/-- A read that stops the program if it is out of range. -/
def checked {α : Type} (x : Option α) : Result α := ExceptT.lift x

/-- An error where something holds. -/
def reject (p : Prop) [Decidable p] (err : String) : Result Unit := if p then throw err else pure ()

/-- An error where there is nothing. -/
def found {α : Type} (x : Option α) (err : String) : Result α :=
  match x with
  | some a => pure a
  | none => throw err

namespace Result

variable {α β : Type}

/-- What comes of two computations comes of the second, after the first. -/
theorem bind_ok {x : Result α} {f : α → Result β} {b : β} (h : (x >>= f).run = some (.ok b)) :
    ∃ a, x.run = some (.ok a) ∧ (f a).run = some (.ok b) := by
  rw [ExceptT.run_bind] at h
  obtain ⟨r, hr, hrest⟩ := Option.bind_eq_some_iff.mp h
  cases r with
  | error err => nomatch hrest
  | ok a => exact ⟨a, hr, hrest⟩

variable {a : α}

theorem run_bind_of_ok {x : Result α} (h : x.run = some (.ok a)) (f : α → Result β) :
    (x >>= f).run = (f a).run := by
  rw [ExceptT.run_bind, h]
  rfl

theorem run_reject {p : Prop} [Decidable p] (h : ¬ p) (err : String) :
    (reject p err).run = some (.ok ()) := by
  rw [reject, if_neg h]
  rfl

variable {x : Option α}

theorem reject_ok {p : Prop} [Decidable p] {err : String} {u : Unit}
    (h : (reject p err).run = some (.ok u)) : ¬ p := by
  intro hp
  rw [reject, if_pos hp] at h
  nomatch h

theorem found_ok {err : String} (h : (found x err).run = some (.ok a)) : x = some a := by
  cases x with
  | none => nomatch h
  | some b => rw [Except.ok.inj (Option.some.inj h)]

theorem checked_ok (h : (checked x).run = some (.ok a)) : x = some a := by
  cases x with
  | none => nomatch h
  | some b => rw [Except.ok.inj (Option.some.inj h)]

end Result

/-! ## Numbers -/

/-- A number as a signed integer of 64 bits. -/
def wrap64 (x : ℤ) : ℤ := (x + 2 ^ 63) % 2 ^ 64 - 2 ^ 63

theorem wrap64_of_lt {x : ℤ} (hlow : -2 ^ 63 ≤ x) (hhigh : x < 2 ^ 63) : wrap64 x = x := by
  unfold wrap64
  omega

/-- A number as a double. -/
def round53 (n : ℕ) : ℕ :=
  let unit := 2 ^ (n.log2 + 1 - 53)
  let q := n / unit
  let r := n % unit
  if 2 * r < unit ∨ 2 * r = unit ∧ q % 2 = 0 then q * unit else (q + 1) * unit

/-- A number of at most 53 bits is a double. -/
theorem round53_of_lt {n : ℕ} (h : n < 2 ^ 53) : round53 n = n := by
  have hlog : n.log2 < 53 := by
    by_cases hn : n = 0
    · rw [hn]
      decide
    · exact (Nat.log2_lt hn).mpr h
  have hunit : n.log2 + 1 - 53 = 0 := by omega
  simp [round53, hunit, Nat.mod_one]

end XrayCore.Machine
