/-
  XrayCore.Outbound.LoopCheck

  Cycles of handlers that dial through each other: `Functional` and `Format` of
  `common/loopcheck`, and `checkDialerProxyCycles` of
  `app/proxyman/outbound/loops.go`.

    * `functional_exact`: every cycle is listed once, from its smallest vertex on.
    * `checkDialerProxyCycles_mono`: where no two handlers share a tag, a part of a
      list of handlers that passes the check passes it as well.
-/

import XrayCore.Graph.Functional
import XrayCore.Outbound.Handler
import XrayCore.Table.Sift

namespace XrayCore.Outbound

open Relation XrayCore.Graph List Option

/-! ## The check -/

/-- `Format`: a cycle from its smallest vertex back to it. -/
def format (cycle : List String) : String :=
  match cycle.min? with
  | none => ""
  | some first =>
    let vertices := cycle.rotate (cycle.idxOf first)
    " -> ".intercalate (vertices ++ vertices.head?.toList)

/-- `Functional`. -/
def functional (next : AList (fun _ : String => String)) : List String :=
  ((functionalCycles next).map format).insertionSort (· ≤ ·)

/-- The tag of a handler and the tag that it dials through, if it has both. -/
def dialer (h : Handler) : Option (String × String) :=
  h.view.bind fun view =>
    if h.tag ≠ "" ∧ view.dialerProxy ≠ "" then some (h.tag, view.dialerProxy) else none

/-- The dialers of a list of handlers. -/
def dialers (handlers : List Handler) : AList (fun _ : String => String) :=
  handlers.foldl (fun next h => match dialer h with
    | some (tag, via) => next.insert tag via
    | none => next) ∅

/-- `checkDialerProxyCycles`: `none` is nil. -/
def checkDialerProxyCycles (handlers : List Handler) : Option String :=
  let cycles := functional (dialers handlers)
  if cycles = [] then none else some ("dialerProxy cycle: " ++ "; ".intercalate cycles)

/-! ## What is listed -/

/-- A cycle, from its smallest vertex on. -/
structure FromSmallest (next : AList (fun _ : String => String)) (c : List String) : Prop
    extends IsCycle next c where
  smallest : ∀ first ∈ c.head?, ∀ x ∈ c, first ≤ x

/-- The vertices of a cycle and its first one again. -/
def printed (c : List String) : String := " -> ".intercalate (c ++ c.head?.toList)

/-- `Format` turns a cycle so that its smallest vertex is the first. -/
theorem format_eq {next : AList (fun _ : String => String)} {c : List String}
    (h : IsCycle next c) : ∃ c', FromSmallest next c' ∧ c ~r c' ∧ format c = printed c' := by
  obtain ⟨first, hfirst⟩ := ne_none_iff_exists'.mp (mt min?_eq_none_iff.mp h.ne_nil)
  obtain ⟨hmem, hle⟩ := min?_eq_some_iff.mp hfirst
  have hr : c ~r c.rotate (c.idxOf first) := ⟨_, rfl⟩
  refine ⟨_, ⟨h.rotated hr, fun x hx y hy => ?_⟩, hr, by rw [format, hfirst]; rfl⟩
  rw [head?_rotate (idxOf_lt_length_iff.mpr hmem), getElem?_idxOf hmem] at hx
  exact some.inj hx ▸ hle y (hr.mem_iff.mpr hy)

theorem functional_eq_nil_iff (next : AList (fun _ : String => String)) :
    functional next = [] ↔ Acyclic (Next next) := by
  rw [← functionalCycles_eq_nil_iff, functional, ← length_eq_zero_iff,
    length_insertionSort, length_map, length_eq_zero_iff]

/-- **The list of the cycles is exact.**  It is sorted; it has one entry for each cycle, which
    is printed from its smallest vertex back to it; and it is empty where there is no cycle. -/
theorem functional_exact (next : AList (fun _ : String => String)) :
    (functional next).Pairwise (· ≤ ·) ∧
    (∃ cycles : List (List String), (functional next).Perm (cycles.map printed) ∧
      (∀ c ∈ cycles, FromSmallest next c) ∧
      (∀ c, IsCycle next c → ∃ c' ∈ cycles, c ~r c') ∧
      cycles.Pairwise fun c c' => ¬ c ~r c') ∧
    (functional next = [] ↔ Acyclic (Next next)) := by
  obtain ⟨hcycles, hdisjoint, hcomplete⟩ := functionalCycles_spec next
  choose! turned hfrom hr hformat using fun c hc => format_eq (hcycles c hc)
  have hperm := perm_insertionSort (· ≤ ·) ((functionalCycles next).map format)
  refine ⟨pairwise_insertionSort _ _, ⟨(functionalCycles next).map turned, ?_, ?_, ?_, ?_⟩, ?_⟩
  · rw [List.map_map, functional]
    exact hperm.trans (.of_eq (map_congr_left hformat))
  · exact forall_mem_map.mpr hfrom
  · intro c hc
    obtain ⟨x, hx⟩ := exists_mem_of_ne_nil c hc.ne_nil
    obtain ⟨k, hk, hxk⟩ := hcomplete x (hc.transGen hx)
    exact ⟨_, mem_map_of_mem hk, (hc.isRotated (hcycles k hk) hx hxk).trans (hr k hk)⟩
  · rw [pairwise_map]
    refine hdisjoint.imp_of_mem fun {c c'} hc hc' hne hrot => ?_
    -- the two would have the same vertices
    obtain ⟨x, hx⟩ := exists_mem_of_ne_nil c (hcycles c hc).ne_nil
    refine hne hx (((hr c hc).trans hrot).trans (hr c' hc').symm |>.mem_iff.mp hx)
  · exact functional_eq_nil_iff next

/-! ## What it decides -/

/-- No two handlers share a tag, those without one apart. -/
def TagsUnique (handlers : List Handler) : Prop :=
  ∀ h ∈ handlers, ∀ h' ∈ handlers, h.tag = h'.tag → h.tag ≠ "" → h = h'

theorem checkDialerProxyCycles_eq_none_iff (handlers : List Handler) :
    checkDialerProxyCycles handlers = none ↔ Acyclic (Next (dialers handlers)) := by
  rw [← functional_eq_nil_iff, checkDialerProxyCycles]
  simp only [ite_eq_left_iff, reduceCtorEq, imp_false, not_not]

theorem dialers_concat (handlers : List Handler) (h : Handler) :
    dialers (handlers ++ [h]) = match dialer h with
      | some (tag, via) => (dialers handlers).insert tag via
      | none => dialers handlers := by
  rw [dialers, foldl_append]
  rfl

theorem dialer_fst {h : Handler} {tag via : String} (hd : dialer h = some (tag, via)) :
    tag = h.tag ∧ tag ≠ "" := by
  unfold dialer at hd
  cases hview : h.view with
  | none => simp [hview] at hd
  | some view =>
    simp only [hview, bind_some] at hd
    split_ifs at hd with hset
    simp only [some.injEq, Prod.mk.injEq] at hd
    obtain ⟨rfl, -⟩ := hd
    exact ⟨rfl, hset.1⟩

variable {handlers : List Handler}

/-- What is on record comes from a handler. -/
theorem exists_dialer {x y : String} (hxy : (dialers handlers).lookup x = some y) :
    ∃ h ∈ handlers, dialer h = some (x, y) := by
  induction handlers using reverseRecOn with
  | nil => simp [dialers] at hxy
  | append_singleton handlers h ih =>
    rw [dialers_concat] at hxy
    have hold : (dialers handlers).lookup x = some y →
        ∃ h' ∈ handlers ++ [h], dialer h' = some (x, y) := by
      intro hlook
      obtain ⟨h', hmem, hd⟩ := ih hlook
      exact ⟨h', mem_append_left _ hmem, hd⟩
    cases hd : dialer h with
    | none =>
      simp only [hd] at hxy
      exact hold hxy
    | some p =>
      obtain ⟨tag, via⟩ := p
      simp only [hd] at hxy
      rcases Table.lookup_insert_eq_some.mp hxy with ⟨rfl, rfl⟩ | ⟨-, hxy⟩
      · exact ⟨h, by simp, hd⟩
      · exact hold hxy

/-- With distinct tags every handler's dialer is on record. -/
theorem lookup_dialers (hunique : TagsUnique handlers) {h : Handler} (hh : h ∈ handlers)
    {x y : String} (hd : dialer h = some (x, y)) : (dialers handlers).lookup x = some y := by
  induction handlers using reverseRecOn with
  | nil => simp at hh
  | append_singleton handlers last ih =>
    obtain ⟨htag, hne⟩ := dialer_fst hd
    have hunique' : TagsUnique handlers := fun a ha b hb =>
      hunique a (mem_append_left _ ha) b (mem_append_left _ hb)
    rw [dialers_concat]
    by_cases heq : h = last
    · subst heq
      simp [hd]
    · have hmem : h ∈ handlers := by simpa [heq] using hh
      cases hlast : dialer last with
      | none => exact ih hunique' hmem
      | some p =>
        obtain ⟨tag, via⟩ := p
        have hother : x ≠ tag := by
          rintro rfl
          refine heq (hunique h hh last (by simp) ?_ (htag ▸ hne))
          rw [← htag, (dialer_fst hlast).1]
        simp only [AList.lookup_insert_ne hother]
        exact ih hunique' hmem

/-- A part of the handlers passes the check that all of them pass. -/
theorem checkDialerProxyCycles_mono {handlers' : List Handler} (hsub : handlers' ⊆ handlers)
    (hunique : TagsUnique handlers) (h : checkDialerProxyCycles handlers = none) :
    checkDialerProxyCycles handlers' = none := by
  rw [checkDialerProxyCycles_eq_none_iff] at h ⊢
  refine h.mono fun x y hxy => ?_
  obtain ⟨via, hmem, hd⟩ := exists_dialer hxy
  exact lookup_dialers hunique (hsub hmem) hd

end XrayCore.Outbound
