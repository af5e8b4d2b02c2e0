/-
  XrayCore.Bytes.Slice

  Slices whose bounds are checked, over any type of elements.

  `slice xs i j` is `xs[i:j]` and `index xs i` is `xs[i]` of a program that stops
  when a bound is wrong: `none` is the stop.  The list stands for everything the
  slice may reach, so for a slice of less than its capacity it is the longer one.
-/

import Mathlib

/-- What a program calls `[]byte`. -/
abbrev XrayCore.Bytes := List UInt8

namespace XrayCore.Bytes

-- what tests of membership rest on
scoped instance lawfulBEqBytes : LawfulBEq Bytes := inferInstance

variable {α : Type}

/-- `xs[i:j]`. -/
def slice (xs : List α) (i j : ℕ) : Option (List α) :=
  if i ≤ j ∧ j ≤ xs.length then some ((xs.take j).drop i) else none

/-- `xs[i]`. -/
def index (xs : List α) (i : ℕ) : Option α := xs[i]?

variable {xs : List α} {i : ℕ}

theorem slice_of_le {j : ℕ} (hij : i ≤ j) (hj : j ≤ xs.length) :
    slice xs i j = some ((xs.take j).drop i) :=
  if_pos ⟨hij, hj⟩

theorem exists_slice (xs : List α) {j : ℕ} (hij : i ≤ j) (hj : j ≤ xs.length) :
    ∃ ys, slice xs i j = some ys :=
  ⟨_, slice_of_le hij hj⟩

theorem length_of_slice_eq_some {ys : List α} {j : ℕ} (h : slice xs i j = some ys) :
    ys.length = j - i := by
  unfold slice at h
  split_ifs at h with hbounds
  obtain rfl := Option.some.inj h
  rw [List.length_drop, List.length_take, Nat.min_eq_left hbounds.2]

theorem slice_eq_none_iff {j : ℕ} : slice xs i j = none ↔ j < i ∨ xs.length < j := by
  unfold slice
  split_ifs with h
  · simp only [false_iff]
    omega
  · simp only [true_iff]
    omega

theorem index_eq_none_iff : index xs i = none ↔ xs.length ≤ i :=
  List.getElem?_eq_none_iff

end XrayCore.Bytes
