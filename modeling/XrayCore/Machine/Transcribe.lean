/-
  XrayCore.Machine.Transcribe

  Machines that give one symbol for each symbol they read, over any types of states and
  symbols.

  The output does not depend on how the input was cut (`transcribe_append`), and a machine
  that undoes each step of another undoes all of it (`transcribe_inverse`).
-/

import Mathlib

namespace XrayCore.Machine

open List

variable {σ α β : Type}

/-- The state after an input, and the output. -/
def transcribe (next : σ → α → σ × β) (s : σ) : List α → σ × List β
  | [] => (s, [])
  | a :: as =>
    ((transcribe next (next s a).1 as).1, (next s a).2 :: (transcribe next (next s a).1 as).2)

theorem transcribe_append (next : σ → α → σ × β) (s : σ) (as bs : List α) :
    transcribe next s (as ++ bs) =
      ((transcribe next (transcribe next s as).1 bs).1,
        (transcribe next s as).2 ++ (transcribe next (transcribe next s as).1 bs).2) := by
  induction as generalizing s with
  | nil => rfl
  | cons a as ih => rw [cons_append, transcribe, ih, transcribe, cons_append]

theorem transcribe_append_eq {next : σ → α → σ × β} {s t u : σ} {as bs : List α}
    {out out' : List β} (has : transcribe next s as = (t, out))
    (hbs : transcribe next t bs = (u, out')) :
    transcribe next s (as ++ bs) = (u, out ++ out') := by
  rw [transcribe_append, has, hbs]

@[simp] theorem length_transcribe (next : σ → α → σ × β) (s : σ) (as : List α) :
    (transcribe next s as).2.length = as.length := by
  induction as generalizing s with
  | nil => rfl
  | cons a as ih => rw [transcribe, length_cons, length_cons, ih]

/-- The output of the first symbols, and the rest of the output. -/
theorem transcribe_take_drop (next : σ → α → σ × β) (s : σ) (as : List α) (n : ℕ) :
    (transcribe next s (as.take n)).2 = (transcribe next s as).2.take n ∧
      transcribe next (transcribe next s (as.take n)).1 (as.drop n) =
        ((transcribe next s as).1, (transcribe next s as).2.drop n) := by
  induction as generalizing s n with
  | nil =>
    rw [take_nil, drop_nil, transcribe, take_nil, drop_nil]
    exact ⟨rfl, rfl⟩
  | cons a as ih =>
    cases n with
    | zero => exact ⟨rfl, rfl⟩
    | succ n =>
      obtain ⟨htake, hdrop⟩ := ih (next s a).1 n
      rw [take_succ_cons, drop_succ_cons, transcribe, transcribe]
      dsimp only
      rw [htake, hdrop, take_succ_cons, drop_succ_cons]
      exact ⟨rfl, rfl⟩

theorem transcribe_inverse {next : σ → α → σ × β} {back : σ → β → σ × α}
    (hback : ∀ s a, back s (next s a).2 = ((next s a).1, a)) (s : σ) (as : List α) :
    transcribe back s (transcribe next s as).2 = ((transcribe next s as).1, as) := by
  induction as generalizing s with
  | nil => rfl
  | cons a as ih => rw [transcribe, transcribe, hback, ih]

end XrayCore.Machine
