/-
  XrayCore.Outbound.Manager

  The outbound manager (`app/proxyman/outbound/outbound.go`): its handlers and
  what the critical sections under its `access` lock do with them.

  A manager carries what every section keeps: a handler with a tag is stored under
  it, one without is in the list, and the default handler is one of them.  So the
  tags of the handlers that it lists are distinct.
-/

import XrayCore.Outbound.LoopCheck

namespace XrayCore.Outbound

open List

/-! ## The manager -/

/-- The outbound manager. -/
structure Manager where
  taggedHandler : HandlerMap
  untaggedHandlers : List Handler
  defaultHandler : Option Handler
  running : Bool
  closed : Bool
  tagged_tag : ∀ tag h, taggedHandler.lookup tag = some h → h.tag = tag ∧ tag ≠ ""
  untagged_tag : ∀ h ∈ untaggedHandlers, h.tag = ""
  default_mem : ∀ h, defaultHandler = some h →
    h ∈ untaggedHandlers ∨ taggedHandler.lookup h.tag = some h

namespace Manager

/-- `New`. -/
def new : Manager :=
  { taggedHandler := ∅, untaggedHandlers := [], defaultHandler := none, running := false,
    closed := false, tagged_tag := fun _ _ h => by simp at h,
    untagged_tag := fun _ h => by simp at h, default_mem := fun _ h => by simp at h }

/-- `ListHandlers`. -/
def listHandlers (m : Manager) : List Handler :=
  m.untaggedHandlers ++ m.taggedHandler.entries.map Sigma.snd

/-- `GetHandler`. -/
def getHandler (m : Manager) (tag : String) : Option Handler := m.taggedHandler.lookup tag

/-- A handler whose tag is not in use, added; the first one is the default. -/
def add (m : Manager) (h : Handler) (hfresh : h.tag ∉ m.taggedHandler) : Manager :=
  { m with
    defaultHandler := some (m.defaultHandler.getD h)
    taggedHandler := if h.tag = "" then m.taggedHandler else m.taggedHandler.insert h.tag h
    untaggedHandlers := if h.tag = "" then m.untaggedHandlers ++ [h] else m.untaggedHandlers
    tagged_tag := by
      intro tag h' hh'
      split_ifs at hh' with hempty
      · exact m.tagged_tag tag h' hh'
      · rcases Table.lookup_insert_eq_some.mp hh' with ⟨rfl, rfl⟩ | ⟨-, hh'⟩
        · exact ⟨rfl, hempty⟩
        · exact m.tagged_tag tag h' hh'
    untagged_tag := by
      intro h' hh'
      split_ifs at hh' with hempty
      · rw [List.mem_append, List.mem_singleton] at hh'
        rcases hh' with hh' | rfl
        · exact m.untagged_tag h' hh'
        · exact hempty
      · exact m.untagged_tag h' hh'
    default_mem := by
      intro d hd
      rw [Option.some.injEq] at hd
      cases hold : m.defaultHandler with
      | none =>
        rw [hold, Option.getD_none] at hd
        subst hd
        split_ifs with hempty
        · exact Or.inl (by simp)
        · exact Or.inr (by simp)
      | some d' =>
        rw [hold, Option.getD_some] at hd
        subst hd
        rcases m.default_mem d' hold with hin | hin
        · split_ifs
          · exact Or.inl (List.mem_append_left _ hin)
          · exact Or.inl hin
        · -- The tag of the old default is in use, so it is another one.
          have hne : d'.tag ≠ h.tag := ne_of_mem_of_not_mem
            (AList.lookup_isSome.mp (by simp [hin])) hfresh
          split_ifs
          · exact Or.inr hin
          · exact Or.inr (by rw [AList.lookup_insert_ne hne, hin]) }

/-- The critical section of `AddHandler`; `startError` is what `Start` returns. -/
def commit (m : Manager) (h : Handler) (startError : Option String) : Except String Manager :=
  if m.closed then .error "outbound manager is closed"
  else if hfresh : h.tag ∈ m.taggedHandler then .error ("existing tag found: " ++ h.tag)
  else match (if m.running then startError else none) with
    | some err => .error err
    | none => .ok (m.add h hfresh)

/-- The critical section of `RemoveHandler` for a tag that is not empty. -/
def remove (m : Manager) (tag : String) (_hne : tag ≠ "") : Manager :=
  { m with
    taggedHandler := m.taggedHandler.erase tag
    defaultHandler := m.defaultHandler.filter fun d => decide (d.tag ≠ tag)
    tagged_tag := by
      intro tag' h hh
      exact m.tagged_tag tag' h (Table.lookup_erase_eq_some.mp hh).2
    untagged_tag := m.untagged_tag
    default_mem := by
      intro d hd
      rw [Option.filter_eq_some_iff] at hd
      have hother : d.tag ≠ tag := by simpa using hd.2
      rcases m.default_mem d hd.1 with hin | hin
      · exact Or.inl hin
      · exact Or.inr (by rw [AList.lookup_erase_ne hother, hin]) }

theorem commit_cases (m : Manager) (h : Handler) (startError : Option String) :
    (∃ err, m.commit h startError = .error err) ∨
      ∃ hfresh, m.commit h startError = .ok (m.add h hfresh) := by
  unfold commit
  by_cases hclosed : m.closed = true
  · exact Or.inl ⟨_, if_pos hclosed⟩
  rw [if_neg hclosed]
  by_cases hfresh : h.tag ∈ m.taggedHandler
  · exact Or.inl ⟨_, dif_pos hfresh⟩
  rw [dif_neg hfresh]
  cases (if m.running then startError else none) with
  | some err => exact Or.inl ⟨err, rfl⟩
  | none => exact Or.inr ⟨hfresh, rfl⟩

/-! ## What is listed -/

theorem mem_listHandlers {m : Manager} {h : Handler} :
    h ∈ m.listHandlers ↔ h ∈ m.untaggedHandlers ∨ m.taggedHandler.lookup h.tag = some h := by
  rw [listHandlers, mem_append, mem_map]
  refine or_congr Iff.rfl ⟨?_, fun hh => ?_⟩
  · rintro ⟨⟨tag, h'⟩, hmem, rfl⟩
    have hlook := AList.mem_lookup_iff.mpr hmem
    rwa [(m.tagged_tag tag h' hlook).1]
  · exact ⟨⟨h.tag, h⟩, AList.mem_lookup_iff.mp hh, rfl⟩

theorem tagsUnique_listHandlers (m : Manager) : TagsUnique m.listHandlers := by
  intro h hh h' hh' htag hne
  rw [mem_listHandlers] at hh hh'
  have hh₁ := hh.resolve_left fun hin => hne (m.untagged_tag h hin)
  have hh₂ := hh'.resolve_left fun hin => hne (htag.trans (m.untagged_tag h' hin))
  rw [htag, hh₂, Option.some.injEq] at hh₁
  exact hh₁.symm

theorem listHandlers_add (m : Manager) (h : Handler) (hfresh : h.tag ∉ m.taggedHandler) :
    (m.add h hfresh).listHandlers ⊆ m.listHandlers ++ [h] := by
  intro x hx
  rw [mem_listHandlers] at hx
  rw [mem_append, mem_singleton, mem_listHandlers]
  unfold add at hx
  by_cases hempty : h.tag = ""
  · simp only [hempty, if_true, mem_append, mem_singleton] at hx
    rcases hx with (hx | hx) | hx
    · exact Or.inl (Or.inl hx)
    · exact Or.inr hx
    · exact Or.inl (Or.inr hx)
  · simp only [hempty, if_false] at hx
    rcases hx with hx | hx
    · exact Or.inl (Or.inl hx)
    · rcases Table.lookup_insert_eq_some.mp hx with ⟨-, hx⟩ | ⟨-, hx⟩
      · exact Or.inr hx
      · exact Or.inl (Or.inr hx)

theorem listHandlers_remove (m : Manager) (tag : String) (hne : tag ≠ "") :
    (m.remove tag hne).listHandlers ⊆ m.listHandlers := by
  intro x hx
  rw [mem_listHandlers] at hx ⊢
  unfold remove at hx
  rcases hx with hx | hx
  · exact Or.inl hx
  · exact Or.inr (Table.lookup_erase_eq_some.mp hx).2

theorem defaultHandler_remove {m : Manager} {tag : String} {hne : tag ≠ ""} {h : Handler}
    (hh : (m.remove tag hne).defaultHandler = some h) : m.defaultHandler = some h :=
  (Option.filter_eq_some_iff.mp hh).1

end Manager

end XrayCore.Outbound
