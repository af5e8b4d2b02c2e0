/-
  XrayCore.Outbound.Select

  The selection of outbounds by the beginnings of their tags, and its cache
  (`app/proxyman/outbound/outbound.go`).

  `Select` keeps its results under the selectors joined by commas, and whatever may change
  the handlers throws them all away.  Selectors that are joined to one text share a result,
  which is right as long as they select the same.
-/

import XrayCore.Outbound.Manager

namespace XrayCore.Outbound

open List

/-! ## The calls -/

/-- A manager with its `tagsCache`. -/
structure Selecting where
  manager : Manager
  tagsCache : AList (fun _ : String => List String)

/-- Does the tag begin with one of the selectors? -/
def Matches (selectors : List String) (tag : String) : Prop :=
  ∃ selector ∈ selectors, selector.toList <+: tag.toList

instance (selectors : List String) (tag : String) : Decidable (Matches selectors tag) :=
  inferInstanceAs (Decidable (∃ _ ∈ _, _))

/-- The loop of `Select` over the handlers, sorted. -/
def Manager.selected (m : Manager) (selectors : List String) : List String :=
  (m.taggedHandler.keys.filter fun tag => decide (Matches selectors tag)).insertionSort (· ≤ ·)

/-- `strings.Join(selectors, ",")`. -/
def joined (selectors : List String) : String := ",".intercalate selectors

namespace Selecting

/-- `Select`: the cache after it, and the tags. -/
def select (s : Selecting) (selectors : List String) : Selecting × List String :=
  match s.tagsCache.lookup (joined selectors) with
  | some cache => (s, cache)
  | none =>
    let tags := s.manager.selected selectors
    ({ s with tagsCache := s.tagsCache.insert (joined selectors) tags }, tags)

/-- Does `AddHandler` fail before it comes to the cache?  `loops` is what its check for loops
    finds. -/
def refuses (s : Selecting) (h : Handler) (loops : Option String) : Bool :=
  s.manager.running && (h.tag ≠ "" && (s.manager.getHandler h.tag).isSome || loops.isSome) ||
    s.manager.closed

/-- `AddHandler`; `startError` is what `Start` returns. -/
def addHandler (s : Selecting) (h : Handler) (loops startError : Option String) : Selecting :=
  if s.refuses h loops then s
  else
    match s.manager.commit h startError with
    | .error _ => { s with tagsCache := ∅ }
    | .ok manager => { manager, tagsCache := ∅ }

/-- `RemoveHandler`. -/
def removeHandler (s : Selecting) (tag : String) : Selecting :=
  if hne : tag ≠ "" then { manager := s.manager.remove tag hne, tagsCache := ∅ } else s

end Selecting

/-- A call, with what it finds. -/
inductive SelectCall where
  | addHandler (h : Handler) (loops startError : Option String)
  | removeHandler (tag : String)
  | select (selectors : List String)

namespace Selecting

def exec (s : Selecting) : SelectCall → Selecting
  | .addHandler h loops startError => s.addHandler h loops startError
  | .removeHandler tag => s.removeHandler tag
  | .select selectors => (s.select selectors).1

/-! ## The property, and when it holds -/

/-- The tags are the sorted ones of the handlers that the selectors match. -/
def Selected (m : Manager) (selectors tags : List String) : Prop :=
  tags.Pairwise (· < ·) ∧
    ∀ tag, tag ∈ tags ↔ (m.getHandler tag).isSome ∧ Matches selectors tag

/-- Every selection of a run is right. -/
def SelectsRight (s : Selecting) : List SelectCall → Prop
  | [] => True
  | call :: calls =>
    (∀ selectors, call = .select selectors →
      Selected s.manager selectors (s.select selectors).2) ∧
    SelectsRight (s.exec call) calls

/-- The selectors that results may be kept for, after a call. -/
def asked (s : Selecting) (old : List (List String)) : SelectCall → List (List String)
  | .addHandler h loops _ => if s.refuses h loops then old else []
  | .removeHandler tag => if tag = "" then old else []
  | .select selectors => selectors :: old

/-- Selectors that are joined to the same text match the same handlers. -/
def Agree (m : Manager) (old : List (List String)) (selectors : List String) : Prop :=
  ∀ earlier ∈ old, joined earlier = joined selectors →
    ∀ tag, (m.getHandler tag).isSome → (Matches earlier tag ↔ Matches selectors tag)

/-- In a run, selectors agree with those before them, back to the last change. -/
def AllAgree (s : Selecting) (old : List (List String)) : List SelectCall → Prop
  | [] => True
  | call :: calls =>
    (∀ selectors, call = .select selectors → Agree s.manager old selectors) ∧
    AllAgree (s.exec call) (s.asked old call) calls

theorem mem_selected {m : Manager} {selectors : List String} {tag : String} :
    tag ∈ m.selected selectors ↔ (m.getHandler tag).isSome ∧ Matches selectors tag := by
  rw [Manager.selected, mem_insertionSort, mem_filter, decide_eq_true_eq,
    ← AList.mem_keys, Manager.getHandler, AList.lookup_isSome]

theorem selected_iff {m : Manager} {selectors tags : List String} :
    Selected m selectors tags ↔ tags = m.selected selectors := by
  have hsorted : (m.selected selectors).Pairwise (· < ·) := by
    have hnodup : (m.selected selectors).Nodup :=
      (perm_insertionSort _ _).nodup_iff.mpr (m.taggedHandler.nodupKeys.filter _)
    exact ((pairwise_insertionSort (· ≤ ·) _).and hnodup).imp fun h => lt_of_le_of_ne h.1 h.2
  refine ⟨fun h => ?_, fun h => h ▸ ⟨hsorted, fun _ => mem_selected⟩⟩
  exact h.1.eq_of_mem_iff hsorted fun tag => by rw [h.2, mem_selected]

/-- What is kept is what the selectors asked for select, and nothing else is kept. -/
structure Keeps (s : Selecting) (old : List (List String)) : Prop where
  kept : ∀ l ∈ old, s.tagsCache.lookup (joined l) = some (s.manager.selected l)
  only : ∀ k tags, s.tagsCache.lookup k = some tags → ∃ l ∈ old, joined l = k

theorem Keeps.empty (m : Manager) : Keeps ⟨m, ∅⟩ [] :=
  ⟨nofun, fun _ _ h => by simp at h⟩

variable {s : Selecting} {old : List (List String)}

theorem selected_eq_iff {m : Manager} {l l' : List String} : m.selected l = m.selected l' ↔
    ∀ tag, (m.getHandler tag).isSome → (Matches l tag ↔ Matches l' tag) := by
  rw [← selected_iff]
  refine ⟨fun h tag htag => ?_, fun h => ⟨(selected_iff.mpr rfl).1, fun tag => ?_⟩⟩
  · have hmem := (h.2 tag).symm.trans mem_selected
    simpa [htag] using hmem.symm
  · rw [mem_selected]
    exact and_congr_right (h tag)

/-- A selection is right exactly when the selectors agree with the earlier ones, and is then
    kept. -/
theorem Keeps.select (h : Keeps s old) (selectors : List String) :
    (Selected s.manager selectors (s.select selectors).2 ↔ Agree s.manager old selectors) ∧
      (Agree s.manager old selectors → Keeps (s.select selectors).1 (selectors :: old)) := by
  have hagree : Agree s.manager old selectors ↔ ∀ l ∈ old, joined l = joined selectors →
      s.manager.selected l = s.manager.selected selectors := by
    simp only [Agree, selected_eq_iff]
  rw [selected_iff, hagree]
  cases hlook : s.tagsCache.lookup (joined selectors) with
  | some cache =>
    simp only [Selecting.select, hlook]
    -- the result is that of the earlier selectors with the same text
    have hsame : ∀ l ∈ old, joined l = joined selectors → s.manager.selected l = cache := by
      intro l hl heq
      rw [← Option.some.injEq, ← h.kept l hl, heq, hlook]
    obtain ⟨l, hl, heq⟩ := h.only _ _ hlook
    refine ⟨⟨fun hc l hl heq => (hsame l hl heq).trans hc,
      fun hall => (hsame l hl heq).symm.trans (hall l hl heq)⟩, fun hall => ⟨?_, ?_⟩⟩
    · refine forall_mem_cons.mpr ⟨?_, h.kept⟩
      rw [hlook, ← hsame l hl heq, hall l hl heq]
    · exact fun k tags hk => (h.only k tags hk).imp fun l hl => ⟨mem_cons_of_mem _ hl.1, hl.2⟩
  | none =>
    simp only [Selecting.select, hlook]
    have hnew : ∀ l ∈ old, joined l ≠ joined selectors := by
      intro l hl heq
      have hkept := h.kept l hl
      rw [heq, hlook] at hkept
      nomatch hkept
    refine ⟨⟨fun _ l hl heq => absurd heq (hnew l hl), fun _ => trivial⟩,
      fun _ => ⟨?_, fun k tags hk => ?_⟩⟩
    · refine forall_mem_cons.mpr ⟨AList.lookup_insert _, fun l hl => ?_⟩
      rw [AList.lookup_insert_ne (hnew l hl), h.kept l hl]
    · by_cases hkey : k = joined selectors
      · exact ⟨selectors, mem_cons_self, hkey.symm⟩
      · rw [AList.lookup_insert_ne hkey] at hk
        exact (h.only k tags hk).imp fun l hl => ⟨mem_cons_of_mem _ hl.1, hl.2⟩

/-- The other calls keep the handlers and the cache, or have an empty cache. -/
theorem Keeps.change (h : Keeps s old) (call : SelectCall) (hcall : ∀ l, call ≠ .select l) :
    Keeps (s.exec call) (s.asked old call) := by
  cases call with
  | select l => exact absurd rfl (hcall l)
  | removeHandler tag =>
    by_cases hne : tag = ""
    · simpa only [exec, removeHandler, asked, hne, ne_eq, not_true, dite_false, if_true] using h
    · simp only [exec, removeHandler, asked, hne, ne_eq, not_false_eq_true, dite_true, if_false]
      exact Keeps.empty _
  | addHandler hd loops startError =>
    by_cases hr : s.refuses hd loops = true
    · simpa only [exec, addHandler, asked, hr, if_true] using h
    · simp only [exec, addHandler, asked, hr, if_false, Bool.false_eq_true]
      cases s.manager.commit hd startError <;> exact Keeps.empty _

theorem selectsRight_iff_of_keeps (calls : List SelectCall) (h : Keeps s old) :
    SelectsRight s calls ↔ AllAgree s old calls := by
  induction calls generalizing s old with
  | nil => exact Iff.rfl
  | cons call calls ih =>
    cases call with
    | select selectors =>
      obtain ⟨hiff, hnext⟩ := h.select selectors
      simp only [SelectsRight, AllAgree, SelectCall.select.injEq, forall_eq', hiff]
      exact and_congr_right fun hagree => ih (hnext hagree)
    | addHandler hd loops startError =>
      exact and_congr (by simp) (ih (h.change _ (by simp)))
    | removeHandler tag => exact and_congr (by simp) (ih (h.change _ (by simp)))

/-- From an empty cache every selection of a run is right exactly when selectors that are
    joined to the same text agree, as long as no change comes between them. -/
theorem selectsRight_iff (m : Manager) (calls : List SelectCall) :
    SelectsRight ⟨m, ∅⟩ calls ↔ AllAgree ⟨m, ∅⟩ [] calls :=
  selectsRight_iff_of_keeps calls (Keeps.empty m)

/-- One selector with a comma, and then the two it is joined from: the second selection misses
    the handler. -/
theorem comma_shares_selection : ¬ SelectsRight ⟨Manager.new, ∅⟩
    [.addHandler ⟨"a1", none, ""⟩ none none, .select ["a,b"], .select ["a", "b"]] := by
  intro h
  have hright := (h.2.2.1 _ rfl).2 "a1"
  revert hright
  decide

end Selecting

end XrayCore.Outbound
