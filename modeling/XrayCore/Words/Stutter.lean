/-
  XrayCore.Words.Stutter

  Lists in which all elements but the last stand twice, and lists of blocks.

  `stutter` has the same elements, but only a list of one element keeps its length;
  `flatMap_eq_iff` is how a difference in length tells blocks apart.
-/

import Mathlib

namespace XrayCore.Words

open List

variable {α β : Type}

/-- All elements but the last stand twice. -/
def stutter : List α → List α
  | [] => []
  | [a] => [a]
  | a :: b :: rest => a :: a :: stutter (b :: rest)

theorem mem_stutter {x : α} (l : List α) : x ∈ stutter l ↔ x ∈ l := by
  induction l with
  | nil => exact Iff.rfl
  | cons a l ih =>
    cases l with
    | nil => exact Iff.rfl
    | cons b rest =>
      rw [stutter, mem_cons, mem_cons, ih, ← or_assoc, or_self, ← mem_cons]

/-- A list comes out longer by the blocks of what stands twice. -/
theorem length_flatMap_stutter (f : α → List β) (l : List α) :
    ((stutter l).flatMap f).length = (l.flatMap f).length + (l.dropLast.flatMap f).length := by
  induction l with
  | nil => rfl
  | cons a l ih =>
    cases l with
    | nil => rfl
    | cons b rest =>
      have hlast : (a :: b :: rest).dropLast = a :: (b :: rest).dropLast := rfl
      have hcons : ∀ l, ((a :: l).flatMap f).length = (f a).length + (l.flatMap f).length :=
        fun l => by rw [flatMap_cons, length_append]
      rw [stutter, hlast, hcons, hcons, hcons (b :: rest), hcons (b :: rest).dropLast, ih]
      omega

theorem length_flatMap_le {f g : α → List β} {l : List α}
    (h : ∀ a ∈ l, (g a).length ≤ (f a).length) : (l.flatMap g).length ≤ (l.flatMap f).length := by
  induction l with
  | nil => exact Nat.le_refl _
  | cons a l ih =>
    rw [flatMap_cons, flatMap_cons, length_append, length_append]
    exact Nat.add_le_add (h a (mem_cons_self ..))
      (ih fun b hb => h b (mem_cons_of_mem _ hb))

/-- Blocks that are not shorter are the same if what they make up is. -/
theorem flatMap_eq_iff {f g : α → List β} {l : List α}
    (h : ∀ a ∈ l, (g a).length ≤ (f a).length) :
    l.flatMap f = l.flatMap g ↔ ∀ a ∈ l, f a = g a := by
  induction l with
  | nil => exact ⟨fun _ _ ha => (not_mem_nil ha).elim, fun _ => rfl⟩
  | cons a l ih =>
    have htail := fun b hb => h b (mem_cons_of_mem a hb)
    rw [flatMap_cons, flatMap_cons, forall_mem_cons, ← ih htail]
    constructor
    · intro heq
      have hlen := congrArg length heq
      have hle := length_flatMap_le htail
      have ha := h a (mem_cons_self ..)
      rw [length_append, length_append] at hlen
      exact append_inj heq (by omega)
    · rintro ⟨ha, hl⟩
      rw [ha, hl]

end XrayCore.Words
