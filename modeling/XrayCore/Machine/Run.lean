/-
  XrayCore.Machine.Run

  Runs of a machine: a step function over any type of states and of actions,
  `none` where an action cannot be taken.

    * `reach_closed` is the rule for invariants: what every step keeps holds in
      every state reached.
    * `run` takes a list of actions, and `reach_of_run` turns it into reachability
      by any relation that covers the steps; `run_closed` is the rule for invariants
      that only the actions of the list keep.
    * `Along` says that every action meets a condition where it is taken, and
      `Along.of_kept` is the rule for what the actions of such a run do.
-/

import Mathlib

namespace XrayCore.Machine

open Relation Option

variable {σ α : Type}

/-- What no step leaves holds of all that is reached. -/
theorem reach_closed {R : σ → σ → Prop} {P : σ → Prop}
    (hclosed : ∀ x, P x → ∀ y, R x y → P y) {x y : σ} (hx : P x)
    (h : ReflTransGen R x y) : P y := by
  induction h with
  | refl => exact hx
  | tail _ hyz ih => exact hclosed _ ih _ hyz

/-- The state after a list of actions. -/
def run (step : σ → α → Option σ) : List α → σ → Option σ
  | [], s => some s
  | a :: as, s => (step s a).bind (run step as)

variable {s : σ} {step : σ → α → Option σ}

theorem run_append {xs ys : List α} {mid s' : σ} (hxs : run step xs s = some mid)
    (hys : run step ys mid = some s') : run step (xs ++ ys) s = some s' := by
  induction xs generalizing s with
  | nil =>
    obtain rfl : s = mid := by simpa [run] using hxs
    exact hys
  | cons a xs ih =>
    obtain ⟨next, hnext, hrest⟩ := bind_eq_some_iff.mp hxs
    exact bind_eq_some_iff.mpr ⟨next, hnext, ih hrest⟩

theorem reach_of_run {R : σ → σ → Prop} (hstep : ∀ s a s', step s a = some s' → R s s') :
    ∀ (actions : List α) {s s' : σ}, run step actions s = some s' → ReflTransGen R s s' := by
  intro actions
  induction actions with
  | nil =>
    intro s s' h
    obtain rfl : s = s' := by simpa [run] using h
    exact .refl
  | cons a actions ih =>
    intro s s' h
    obtain ⟨mid, hmid, hrest⟩ := bind_eq_some_iff.mp h
    exact .head (hstep s a mid hmid) (ih hrest)

variable {actions : List α}

/-- What every action of a list keeps holds after it. -/
theorem run_closed {P : σ → Prop} (hstep : ∀ a ∈ actions, ∀ s s', P s → step s a = some s' → P s')
    {s' : σ} (hs : P s) (h : run step actions s = some s') : P s' := by
  induction actions generalizing s with
  | nil =>
    obtain rfl : s = s' := by simpa [run] using h
    exact hs
  | cons a actions ih =>
    obtain ⟨mid, hmid, hrest⟩ := bind_eq_some_iff.mp h
    exact ih (fun b hb => hstep b (List.mem_cons_of_mem a hb))
      (hstep a (List.mem_cons_self ..) s mid hs hmid) hrest

/-- Every action of a list meets a condition in the state it is taken in. -/
def Along (step : σ → α → Option σ) (P : σ → α → Prop) : List α → σ → Prop
  | [], _ => True
  | a :: as, s => P s a ∧ ∀ s', step s a = some s' → Along step P as s'

variable {P : σ → α → Prop}

instance Along.decidable [∀ s a, Decidable (P s a)] :
    (actions : List α) → (s : σ) → Decidable (Along step P actions s)
  | [], _ => inferInstanceAs (Decidable True)
  | a :: as, s =>
    have := fun s' => Along.decidable as s'
    inferInstanceAs (Decidable (P s a ∧ ∀ s' ∈ step s a, Along step P as s'))

theorem Along.of_kept {Q : σ → α → Prop} {I : σ → Prop}
    (hstep : ∀ s a, I s → P s a → Q s a ∧ ∀ s', step s a = some s' → I s') (hs : I s)
    (h : Along step P actions s) : Along step Q actions s := by
  induction actions generalizing s with
  | nil => trivial
  | cons a actions ih =>
    obtain ⟨hq, hkept⟩ := hstep s a hs h.1
    exact ⟨hq, fun s' hs' => ih (hkept s' hs') (h.2 s' hs')⟩

/-- What the actions keep under the condition holds after such a run. -/
theorem Along.run_closed {I : σ → Prop} (hstep : ∀ s a s', I s → P s a → step s a = some s' → I s')
    {s' : σ} (hs : I s) (h : Along step P actions s) (hrun : run step actions s = some s') :
    I s' := by
  induction actions generalizing s with
  | nil =>
    obtain rfl : s = s' := by simpa [run] using hrun
    exact hs
  | cons a actions ih =>
    obtain ⟨mid, hmid, hrest⟩ := bind_eq_some_iff.mp hrun
    exact ih (hstep s a mid hs h.1 hmid) (h.2 mid hmid) hrest

theorem Along.last {a : α} {s' : σ} (h : Along step P (actions ++ [a]) s)
    (hrun : run step actions s = some s') : P s' a := by
  induction actions generalizing s with
  | nil =>
    obtain rfl : s = s' := by simpa [run] using hrun
    exact h.1
  | cons b actions ih =>
    obtain ⟨mid, hmid, hrest⟩ := bind_eq_some_iff.mp hrun
    exact ih (h.2 mid hmid) hrest

end XrayCore.Machine
