/-
  XrayCore.Antireplay.ReplayFilter

  The replay filter: two pools of what was seen, of which the older is dropped when a
  check comes an interval or more after the last time.

  What a check took at a time is found by every check up to an interval later
  (`Remembers`), whenever the pools change between them.  Over any calls by a clock that
  does not go back, `retention` adds that nothing else is refused but what was presented.
-/

import Mathlib

namespace XrayCore.Antireplay

open List

/-- `ReplayFilter`, by any clock. -/
structure ReplayFilter (T K : Type) where
  poolA : List T
  poolB : List T
  interval : K
  lastClean : K

namespace ReplayFilter

variable {T K : Type} [Field K] [LinearOrder K]

/-- `NewMapFilter`. -/
def new (interval now : K) : ReplayFilter T K := ⟨[], [], interval, now⟩

/-- The pools change. -/
def rotate (filter : ReplayFilter T K) (now : K) : ReplayFilter T K :=
  if filter.interval ≤ now - filter.lastClean then
    { filter with poolB := filter.poolA, poolA := [], lastClean := now }
  else filter

/-- `Check`. -/
def check [DecidableEq T] (filter : ReplayFilter T K) (now : K) (sum : T) :
    Bool × ReplayFilter T K :=
  let filter := filter.rotate now
  if sum ∈ filter.poolA ∨ sum ∈ filter.poolB then (false, filter)
  else (true, { filter with poolA := sum :: filter.poolA })

@[simp] theorem interval_check [DecidableEq T] (filter : ReplayFilter T K) (now : K) (sum : T) :
    (filter.check now sum).2.interval = filter.interval := by
  unfold check rotate
  simp only
  split <;> split <;> rfl

variable {filter : ReplayFilter T K} {x y : T} {now t : K}

/-! ## Known values -/

/-- A value is in one of the pools. -/
def Known (filter : ReplayFilter T K) (x : T) : Prop := x ∈ filter.poolA ∨ x ∈ filter.poolB

theorem Known.of_rotate (h : (filter.rotate now).Known x) : filter.Known x := by
  unfold ReplayFilter.rotate at h
  split at h
  · -- the pool that was the newer one is all that is left
    rcases h with h | h
    · exact absurd h not_mem_nil
    · exact .inl h
  · exact h

section

variable [DecidableEq T]

theorem Known.of_check (h : (filter.check now y).2.Known x) : filter.Known x ∨ x = y := by
  unfold check at h
  simp only at h
  split at h
  · exact .inl h.of_rotate
  · rcases h with h | h
    · rcases mem_cons.mp h with rfl | h
      · exact .inr rfl
      · exact .inl (Known.of_rotate (.inl h))
    · exact .inl (Known.of_rotate (.inr h))

theorem check_of_not_known (h : ¬ filter.Known x) (now : K) : (filter.check now x).1 = true := by
  have hrotate : ¬ (filter.rotate now).Known x := fun hknown => h hknown.of_rotate
  unfold check
  exact congrArg Prod.fst (if_neg hrotate)

/-- The filter after checks at given times. -/
def after (filter : ReplayFilter T K) : List (K × T) → ReplayFilter T K
  | [] => filter
  | (now, sum) :: calls => (filter.check now sum).2.after calls

theorem after_append (filter : ReplayFilter T K) (before calls : List (K × T)) :
    filter.after (before ++ calls) = (filter.after before).after calls := by
  induction before generalizing filter with
  | nil => rfl
  | cons call before ih => exact ih _

@[simp] theorem interval_after (filter : ReplayFilter T K) (calls : List (K × T)) :
    (filter.after calls).interval = filter.interval := by
  induction calls generalizing filter with
  | nil => rfl
  | cons call calls ih => exact (ih _).trans (filter.interval_check call.1 call.2)

/-- The pools hold nothing but what was presented. -/
theorem Known.of_after {calls : List (K × T)} (h : (filter.after calls).Known x) :
    filter.Known x ∨ x ∈ calls.map Prod.snd := by
  induction calls generalizing filter with
  | nil => exact .inl h
  | cons call calls ih =>
    rcases ih h with hcheck | hlater
    · rcases hcheck.of_check with hknown | rfl
      · exact .inl hknown
      · exact .inr (mem_cons_self ..)
    · exact .inr (mem_cons_of_mem _ hlater)

end

/-! ## Remembered values -/

variable [IsStrictOrderedRing K]

/-- What was taken at `t` is in a pool that is not dropped before an interval is over. -/
def Remembers (filter : ReplayFilter T K) (x : T) (t : K) : Prop :=
  x ∈ filter.poolA ∧ t < filter.lastClean + filter.interval ∨
    x ∈ filter.poolB ∧ t < filter.lastClean

theorem Remembers.rotate (h : filter.Remembers x t) (hnow : now ≤ t + filter.interval) :
    (filter.rotate now).Remembers x t := by
  unfold ReplayFilter.rotate
  split
  · next hclean =>
    rcases h with ⟨hx, ht⟩ | ⟨-, ht⟩
    · exact .inr ⟨hx, by simp only; linarith⟩
    · -- it was in the older pool since after `t`, so this is not the time to drop it
      linarith
  · exact h

variable [DecidableEq T]

theorem Remembers.of_check (h : filter.Remembers x t) (hnow : now ≤ t + filter.interval) :
    (filter.check now y).2.Remembers x t := by
  have hrotate := h.rotate hnow
  unfold check
  simp only
  split
  · exact hrotate
  · rcases hrotate with ⟨hx, ht⟩ | hold
    · exact .inl ⟨mem_cons_of_mem _ hx, ht⟩
    · exact .inr hold

/-- What is remembered is not taken again. -/
theorem Remembers.check_eq_false (h : filter.Remembers x t) (hnow : now ≤ t + filter.interval) :
    (filter.check now x).1 = false := by
  have hmem : x ∈ (filter.rotate now).poolA ∨ x ∈ (filter.rotate now).poolB :=
    (h.rotate hnow).imp And.left And.left
  unfold check
  simp only [if_pos hmem]

/-- What is taken is remembered. -/
theorem remembers_of_check (hpos : 0 < filter.interval) (h : (filter.check now x).1 = true) :
    (filter.check now x).2.Remembers x now := by
  have hclean : now < (filter.rotate now).lastClean + (filter.rotate now).interval := by
    unfold rotate
    split
    · simp only
      linarith
    · next hnot => linarith [not_le.mp hnot]
  unfold check at h ⊢
  simp only at h ⊢
  split at h
  · nomatch h
  · next hmem =>
    rw [if_neg hmem]
    exact .inl ⟨mem_cons_self, hclean⟩

theorem Remembers.after {calls : List (K × T)} (h : filter.Remembers x t)
    (hcalls : ∀ call ∈ calls, call.1 ≤ t + filter.interval) :
    (filter.after calls).Remembers x t := by
  induction calls generalizing filter with
  | nil => exact h
  | cons call calls ih =>
    obtain ⟨hcall, hcalls⟩ := forall_mem_cons.mp hcalls
    apply ih (h.of_check hcall)
    rw [interval_check]
    exact hcalls

/-- After a check took a value at `t`, none takes it before the interval is over. -/
theorem check_after_eq_false {between : List (K × T)} (htaken : (filter.check t x).1 = true)
    (hfrom : t ≤ now) (hnow : now < t + filter.interval)
    (hbetween : ∀ call ∈ between, call.1 ≤ now) :
    ((filter.after ((t, x) :: between)).check now x).1 = false := by
  have hpos : 0 < filter.interval := by linarith
  have hchecked := remembers_of_check hpos htaken
  have hafter : ((filter.check t x).2.after between).Remembers x t := by
    apply hchecked.after
    intro call hcall
    rw [interval_check]
    exact (hbetween call hcall).trans hnow.le
  apply hafter.check_eq_false
  rw [interval_after, interval_check]
  exact hnow.le

/-- What the calls answer: a new value is taken; a value taken at `t` is refused as long as
    the interval is not over; so what is taken twice is taken an interval apart. -/
theorem retention (interval start : K) (calls : List (K × T))
    (hclock : (calls.map Prod.fst).Pairwise (· ≤ ·)) :
    let filter : ReplayFilter T K := new interval start
    (∀ before now x rest, calls = before ++ (now, x) :: rest → x ∉ before.map Prod.snd →
      ((filter.after before).check now x).1 = true) ∧
    ∀ before t x between now rest, calls = before ++ (t, x) :: between ++ (now, x) :: rest →
      ((filter.after before).check t x).1 = true →
        (now < t + interval →
          ((filter.after (before ++ (t, x) :: between)).check now x).1 = false) ∧
        (((filter.after (before ++ (t, x) :: between)).check now x).1 = true →
          t + interval ≤ now) := by
  intro filter
  refine ⟨?_, ?_⟩
  · intro before now x rest _ hnew
    apply check_of_not_known
    intro hknown
    rcases hknown.of_after with hstart | hpresented
    · rcases hstart with h | h <;> exact absurd h not_mem_nil
    · exact hnew hpresented
  · intro before t x between now rest hcalls htaken
    have htail : (t :: between.map Prod.fst ++ now :: rest.map Prod.fst).Pairwise (· ≤ ·) := by
      rw [hcalls, map_append, map_append, append_assoc] at hclock
      exact (pairwise_append.mp hclock).2.1
    obtain ⟨-, -, hcross⟩ := pairwise_append.mp htail
    have hfrom : t ≤ now := hcross t (mem_cons_self ..) now (mem_cons_self ..)
    have hbetween : ∀ call ∈ between, call.1 ≤ now := fun call hcall =>
      hcross call.1 (mem_cons_of_mem _ (mem_map_of_mem hcall)) now
        (mem_cons_self ..)
    have hrefused (hnow : now < t + interval) :
        ((filter.after (before ++ (t, x) :: between)).check now x).1 = false := by
      rw [after_append]
      refine check_after_eq_false htaken hfrom ?_ hbetween
      rw [interval_after]
      exact hnow
    refine ⟨hrefused, fun hagain => ?_⟩
    by_contra hsoon
    rw [hrefused (not_le.mp hsoon)] at hagain
    exact Bool.noConfusion hagain

/-- A value that comes twice within the interval, and one that comes after two. -/
theorem retention_of_two :
    let filter : ReplayFilter ℕ ℚ := new 5 0
    (filter.check 1 7).1 = true ∧ ((filter.after [(1, 7)]).check 3 7).1 = false ∧
      ((filter.after [(1, 7), (6, 8)]).check 11 7).1 = true ∧ (1 : ℚ) + 5 ≤ 11 := by
  intro filter
  obtain ⟨hfresh, hlater⟩ := retention (T := ℕ) (5 : ℚ) 0 [(1, 7), (3, 7)] (by decide)
  obtain ⟨-, hapart⟩ :=
    retention (T := ℕ) (5 : ℚ) 0 [(1, 7), (6, 8), (11, 7)] (by decide)
  have hfirst : (filter.check 1 7).1 = true := hfresh [] 1 7 [(3, 7)] rfl not_mem_nil
  have hagain : ((filter.after [(1, 7), (6, 8)]).check 11 7).1 = true := by decide +kernel
  exact ⟨hfirst, (hlater [] 1 7 [] 3 [] rfl hfirst).1 (by norm_num), hagain,
    (hapart [] 1 7 [(6, 8)] 11 [] rfl hfirst).2 hagain⟩

end ReplayFilter

end XrayCore.Antireplay
