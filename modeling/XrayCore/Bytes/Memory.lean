/-
  XrayCore.Bytes.Memory

  An array that several slices share: reading a slice, and writing over one.
-/

import Mathlib

namespace XrayCore.Bytes

open List

variable {α : Type}

/-- The slice of an array at a place, of a length. -/
def sub (mem : List α) (pos len : ℕ) : List α := (mem.drop pos).take len

/-- The array with some elements written over it from a place on. -/
def blit (mem : List α) (pos : ℕ) (xs : List α) : List α :=
  mem.take pos ++ xs ++ mem.drop (pos + xs.length)

variable {pos len : ℕ} {mem : List α}

theorem length_sub (h : pos + len ≤ mem.length) : (sub mem pos len).length = len := by
  unfold sub
  rw [length_take, length_drop]
  omega

variable {xs : List α}

theorem length_blit (h : pos + xs.length ≤ mem.length) : (blit mem pos xs).length = mem.length := by
  unfold blit
  simp only [length_append, length_take, length_drop]
  omega

/-- What is read inside of what was written. -/
theorem sub_blit_inner {i : ℕ} (h : pos + xs.length ≤ mem.length) (hlen : i + len ≤ xs.length) :
    sub (blit mem pos xs) (pos + i) len = (xs.drop i).take len := by
  have hpos : (mem.take pos).length = pos := by
    rw [length_take]
    omega
  have hdrop : (mem.take pos ++ (xs ++ mem.drop (pos + xs.length))).drop (pos + i)
      = xs.drop i ++ mem.drop (pos + xs.length) := by
    rw [← drop_drop, drop_left' hpos, drop_append_of_le_length (by omega)]
  unfold sub blit
  rw [append_assoc, hdrop, take_append_of_le_length (by rw [length_drop]; omega)]

theorem sub_blit (h : pos + xs.length ≤ mem.length) : sub (blit mem pos xs) pos xs.length = xs := by
  have hinner := sub_blit_inner (i := 0) h (Nat.le_of_eq (Nat.zero_add xs.length))
  rwa [Nat.add_zero, drop_zero, take_length] at hinner

/-- A slice of a slice. -/
theorem sub_add {i k : ℕ} (h : i + k ≤ len) :
    sub mem (pos + i) k = ((sub mem pos len).drop i).take k := by
  unfold sub
  rw [drop_take, drop_drop, take_take, Nat.min_eq_left (by omega)]

/-- The front of what a slice holds. -/
theorem sub_front {k : ℕ} (h : sub mem pos xs.length = xs) (hk : k ≤ xs.length) :
    sub mem pos k = xs.take k := by
  have hadd : sub mem (pos + 0) k = ((sub mem pos xs.length).drop 0).take k :=
    sub_add (by omega)
  rwa [Nat.add_zero, drop_zero, h] at hadd

/-- The rest of what a slice holds. -/
theorem sub_rest {k : ℕ} (h : sub mem pos xs.length = xs) (hk : k ≤ xs.length) :
    sub mem (pos + k) (xs.length - k) = xs.drop k := by
  rw [sub_add (Nat.le_of_eq (Nat.add_sub_cancel' hk)), h]
  apply take_of_length_le
  exact Nat.le_of_eq length_drop

/-- A slice is its two parts. -/
theorem sub_append (mem : List α) (pos m n : ℕ) :
    sub mem pos (m + n) = sub mem pos m ++ sub mem (pos + m) n := by
  unfold sub
  rw [take_add, drop_drop]

/-- What stands before the written place stays. -/
theorem sub_blit_before {i : ℕ} (h : i + len ≤ pos) (hpos : pos ≤ mem.length) :
    sub (blit mem pos xs) i len = sub mem i len := by
  have htake : (mem.take pos).length = pos := by
    rw [length_take]
    omega
  unfold sub blit
  rw [append_assoc, drop_append_of_le_length (by omega),
    take_append_of_le_length (by rw [length_drop]; omega), drop_take,
    take_take, Nat.min_eq_left (by omega)]

/-- What stands behind the written bytes stays. -/
theorem sub_blit_after {i : ℕ} (h : pos + xs.length ≤ i) (hpos : pos ≤ mem.length) :
    sub (blit mem pos xs) i len = sub mem i len := by
  have htake : (mem.take pos ++ xs).length = pos + xs.length := by
    rw [length_append, length_take]
    omega
  obtain ⟨k, rfl⟩ := Nat.exists_eq_add_of_le h
  unfold sub blit
  rw [← drop_drop, drop_left' htake, drop_drop]

end XrayCore.Bytes
