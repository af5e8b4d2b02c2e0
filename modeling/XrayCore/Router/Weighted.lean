/-
  XrayCore.Router.Weighted

  How the strategy `weightedLeastPing` takes turns
  (`app/router/strategy_weightedleastping.go`).

  Every pick adds to the current weight of each node its weight, and takes the sum of all
  weights from the first of the nodes with most, which is picked.  These are the turns of
  `Schedule.Smooth`, so a round has as many picks as the weights sum to.
-/

import XrayCore.Schedule.Smooth

namespace XrayCore.Router

open Schedule List Option Function

/-! ## A pick -/

/-- `weightedLeastPingNode`, its weight a number of `F`. -/
structure WeightedNode (F : Type) where
  tag : String
  averageRTT : ℤ
  weight : F
  deriving DecidableEq

/-- The current weights of a strategy, `map[string]float64`. -/
abbrev Currents (F : Type) := String → Option F

section Pick

variable {F : Type} [Zero F] [Add F] [Sub F] [LT F] [DecidableLT F]

/-- `s.current[tag]`, which is zero without an entry. -/
def Currents.get (current : Currents F) (tag : String) : F := (current tag).getD 0

/-- The nodes that are gone lose their current weights. -/
def Currents.keep (current : Currents F) (nodes : List (WeightedNode F)) : Currents F := fun tag =>
  if tag ∈ nodes.map WeightedNode.tag then current tag else none

/-- What the loop of `pickWeighted` has: nothing is selected before the first node. -/
structure Picking (F : Type) where
  current : Currents F
  totalWeight : F
  selected : Option (WeightedNode F × F)

def Picking.add (s : Picking F) (node : WeightedNode F) : Picking F :=
  let value := s.current.get node.tag + node.weight
  { current := update s.current node.tag (some value)
    totalWeight := s.totalWeight + node.weight
    selected :=
      match s.selected with
      | none => some (node, value)
      | some (old, selectedCurrent) =>
        if selectedCurrent < value then some (node, value) else some (old, selectedCurrent) }

/-- `pickWeighted`: the new current weights, and the tag that is picked. -/
def pickWeighted (current : Currents F) (nodes : List (WeightedNode F)) : Currents F × String :=
  let r := nodes.foldl Picking.add ⟨current.keep nodes, 0, none⟩
  match r.selected with
  | none => (r.current, "")
  | some (node, _) =>
    (update r.current node.tag (some (r.current.get node.tag - r.totalWeight)), node.tag)

/-- The current weights after some picks among the same nodes. -/
def afterPicks (nodes : List (WeightedNode F)) : ℕ → Currents F
  | 0 => fun _ => none
  | t + 1 => (pickWeighted (afterPicks nodes t) nodes).1

/-- The tag of one of these picks. -/
def pickAt (nodes : List (WeightedNode F)) (t : ℕ) : String :=
  (pickWeighted (afterPicks nodes t) nodes).2

end Pick

theorem Currents.get_update {current : Currents ℤ} {tag tag' : String} {v : ℤ} :
    Currents.get (update current tag (some v)) tag' =
      if tag' = tag then v else current.get tag' := by
  rw [Currents.get, update_apply]
  split <;> rfl

/-! ## The loop -/

/-- What a node has in the loop. -/
def gain (current : Currents ℤ) (node : WeightedNode ℤ) : ℤ := current.get node.tag + node.weight

variable {nodes : List (WeightedNode ℤ)}

/-- The loop selects as `argmax` does: the first with most. -/
theorem foldl_add (current : Currents ℤ) (htags : (nodes.map WeightedNode.tag).Nodup)
    (s : Picking ℤ) (hold : ∀ x ∈ s.selected, x.2 = gain current x.1)
    (hcur : ∀ node ∈ nodes, s.current.get node.tag = current.get node.tag) :
    let r := nodes.foldl Picking.add s
    r.selected.map Prod.fst = nodes.foldl
        (argAux fun b c => gain current c < gain current b) (s.selected.map Prod.fst) ∧
      r.totalWeight = s.totalWeight + (nodes.map WeightedNode.weight).sum ∧
      (∀ node ∈ nodes, r.current.get node.tag = gain current node) ∧
      ∀ tag ∉ nodes.map WeightedNode.tag, r.current tag = s.current tag := by
  induction nodes generalizing s with
  | nil => simp
  | cons node nodes ih =>
    rw [map_cons, nodup_cons] at htags
    have hgain : s.current.get node.tag + node.weight = gain current node := by
      rw [hcur node mem_cons_self, gain]
    have hsel : ∀ x ∈ (s.add node).selected, x.2 = gain current x.1 := by
      intro x hx
      simp only [Picking.add, hgain] at hx
      split at hx
      · obtain rfl := some.inj hx
        rfl
      · rename_i old v hs
        split at hx
        · obtain rfl := some.inj hx
          rfl
        · obtain rfl := some.inj hx
          exact hold _ hs
    have hrest : ∀ x ∈ nodes, (s.add node).current.get x.tag = current.get x.tag := by
      intro x hx
      have hne : x.tag ≠ node.tag := fun heq => htags.1 (heq ▸ mem_map_of_mem hx)
      rw [Picking.add, Currents.get_update, if_neg hne, hcur x (mem_cons_of_mem _ hx)]
    obtain ⟨h1, h2, h3, h4⟩ := ih htags.2 (s.add node) hsel hrest
    refine ⟨?_, ?_, ?_, ?_⟩
    · rw [foldl_cons, foldl_cons, h1]
      congr 1
      simp only [Picking.add, hgain]
      cases hs : s.selected with
      | none => rfl
      | some x =>
        simp only [hold x hs, map_some, argAux]
        split <;> rfl
    · rw [foldl_cons, h2, map_cons, sum_cons, ← add_assoc]
      rfl
    · intro x hx
      rcases mem_cons.mp hx with rfl | hx
      · rw [foldl_cons, Currents.get, h4 _ htags.1, ← Currents.get, Picking.add,
          Currents.get_update, if_pos rfl, hgain]
      · exact h3 x hx
    · intro tag htag
      rw [map_cons, mem_cons, not_or] at htag
      rw [foldl_cons, h4 tag htag.2]
      exact update_of_ne htag.1 _ _

/-- A pick takes the sum of the weights from the first of those with most. -/
theorem pickWeighted_spec (hne : nodes ≠ []) (htags : (nodes.map WeightedNode.tag).Nodup)
    (current : Currents ℤ) :
    let r := pickWeighted current nodes
    ∃ m ∈ nodes.argmax (gain current), r.2 = m.tag ∧
      (∀ node ∈ nodes, r.1.get node.tag = gain current node -
        if node.tag = m.tag then (nodes.map WeightedNode.weight).sum else 0) ∧
      ∀ tag ∉ nodes.map WeightedNode.tag, r.1 tag = none := by
  obtain ⟨m, hm⟩ : ∃ m, m ∈ nodes.argmax (gain current) :=
    ne_none_iff_exists'.mp (mt argmax_eq_none.mp hne)
  have hget : ∀ node ∈ nodes, (current.keep nodes).get node.tag = current.get node.tag :=
    fun node hnode => by
      rw [Currents.get, Currents.keep, if_pos (mem_map_of_mem hnode), ← Currents.get]
  obtain ⟨hsel, htotal, hgain, hother⟩ :=
    foldl_add current htags ⟨current.keep nodes, 0, none⟩ (fun _ h => nomatch h) hget
  obtain ⟨⟨m', v⟩, hr, rfl : m' = m⟩ := map_eq_some_iff.mp (hsel.trans hm)
  have hmem := argmax_mem hm
  have hpick : pickWeighted current nodes = (update
      (nodes.foldl Picking.add ⟨current.keep nodes, 0, none⟩).current m'.tag
      (some (gain current m' - (nodes.map WeightedNode.weight).sum)), m'.tag) := by
    simp only [pickWeighted, hr, hgain m' hmem, htotal, zero_add]
  simp only [hpick]
  refine ⟨m', hm, rfl, fun node hnode => ?_, fun tag htag => ?_⟩
  · rw [Currents.get_update]
    by_cases heq : node.tag = m'.tag
    · rw [if_pos heq, if_pos heq, inj_on_of_nodup_map htags hnode hmem heq]
    · rw [if_neg heq, if_neg heq, sub_zero, hgain node hnode]
  · have hne' : tag ≠ m'.tag := fun h => htag (h ▸ mem_map_of_mem hmem)
    rw [update_of_ne hne', hother tag htag]
    exact if_neg htag

/-! ## The turns -/

section Turns

variable {nodes : List (WeightedNode ℤ)}

/-- The current weight of each node. -/
def currentAt (nodes : List (WeightedNode ℤ)) (current : Currents ℤ) (i : Fin nodes.length) : ℤ :=
  current.get (nodes.get i).tag

theorem tag_get_eq_iff (htags : (nodes.map WeightedNode.tag).Nodup) {i j : Fin nodes.length} :
    (nodes.get i).tag = (nodes.get j).tag ↔ i = j := by
  refine ⟨fun heq => (List.Nodup.of_map _ htags).injective_get ?_, fun heq => heq ▸ rfl⟩
  exact inj_on_of_nodup_map htags (get_mem _ _) (get_mem _ _) heq

/-- A pick is a turn. -/
theorem turn_pickWeighted (hne : nodes ≠ []) (htags : (nodes.map WeightedNode.tag).Nodup)
    (current : Currents ℤ) :
    ∃ i, (pickWeighted current nodes).2 = (nodes.get i).tag ∧
      Turn (fun j => (nodes.get j).weight) (currentAt nodes current) i
        (currentAt nodes (pickWeighted current nodes).1) := by
  obtain ⟨m, hm, hpick, hnext, -⟩ := pickWeighted_spec hne htags current
  obtain ⟨i, rfl⟩ := get_of_mem (argmax_mem hm)
  have hval : ∀ j, currentAt nodes current j + (nodes.get j).weight = gain current (nodes.get j) :=
    fun _ => rfl
  refine ⟨i, hpick, fun j => ?_, fun j hj => ?_, fun j => ?_⟩
  · rw [hval, hval]
    exact le_of_mem_argmax (get_mem _ _) hm
  · -- one that stands before and has as much would have been selected
    by_contra hnot
    have hle := index_of_argmax hm (get_mem nodes j) (not_lt.mp hnot)
    rw [get_eq_getElem, get_eq_getElem, (List.Nodup.of_map _ htags).idxOf_getElem,
      (List.Nodup.of_map _ htags).idxOf_getElem] at hle
    exact absurd hj (not_lt.mpr hle)
  · rw [hval, currentAt, hnext _ (get_mem _ _), ← Fin.sum_univ_fun_getElem]
    simp only [tag_get_eq_iff htags]
    rfl

/-- The picks are turns. -/
theorem turns_afterPicks (hne : nodes ≠ []) (htags : (nodes.map WeightedNode.tag).Nodup)
    (hpos : ∀ node ∈ nodes, 0 < node.weight) :
    ∃ p : ℕ → Fin nodes.length, (∀ t, pickAt nodes t = (nodes.get (p t)).tag) ∧
      Turns (fun j => (nodes.get j).weight) (fun t => currentAt nodes (afterPicks nodes t)) p := by
  choose p hp using fun t => turn_pickWeighted hne htags (afterPicks nodes t)
  exact ⟨p, fun t => (hp t).1, fun j => hpos _ (get_mem _ _), fun t => (hp t).2, rfl⟩

/-- The picks repeat after as many as the weights sum to, among which each node is as often as
    its weight says.  The current weights sum to zero, none is as low as the sum of the
    weights below zero, and none is above that sum times `1 / 2 + ... + 1 / n`. -/
theorem pickWeighted_smooth (hne : nodes ≠ []) (htags : (nodes.map WeightedNode.tag).Nodup)
    (hpos : ∀ node ∈ nodes, 0 < node.weight) (t : ℕ) :
    let total := (nodes.map WeightedNode.weight).sum
    let after := afterPicks nodes (t + 1)
    pickAt nodes (t + total.toNat) = pickAt nodes t ∧
      (∀ node ∈ nodes, ((range total.toNat).countP
        fun k => decide (pickAt nodes (t + k) = node.tag) : ℤ) = node.weight) ∧
      (∀ tag, after tag ≠ none → tag ∈ nodes.map WeightedNode.tag) ∧
      (nodes.map fun node => after.get node.tag).sum = 0 ∧
      ∀ node ∈ nodes, -total < after.get node.tag ∧
        (after.get node.tag : ℚ) ≤ total * (harmonic nodes.length - 1) := by
  intro total after
  obtain ⟨p, hp, h⟩ := turns_afterPicks hne htags hpos
  have hsum : ∑ j : Fin nodes.length, (nodes.get j).weight = total :=
    Fin.sum_univ_fun_getElem nodes WeightedNode.weight
  have hn : (total.toNat : ℤ) = ∑ j : Fin nodes.length, (nodes.get j).weight := by
    rw [hsum, Int.toNat_of_nonneg (hsum ▸ h.sum_pos.le)]
  have hbal := h.balanced (t + 1)
  refine ⟨?_, fun node hnode => ?_, fun tag htag => ?_, ?_, fun node hnode => ?_⟩
  · rw [hp, hp, (h.periodic hn t).2]
  · obtain ⟨i, rfl⟩ := get_of_mem hnode
    rw [← h.count_eq hn t i]
    congr 2
    funext k
    rw [hp, decide_eq_decide.mpr (tag_get_eq_iff htags)]
  · obtain ⟨m, -, -, -, hother⟩ := pickWeighted_spec hne htags (afterPicks nodes t)
    by_contra hnot
    exact htag (hother tag hnot)
  · rw [← Fin.sum_univ_fun_getElem]
    exact hbal.sum_eq
  · obtain ⟨i, rfl⟩ := get_of_mem hnode
    have hle := h.le_harmonic (t + 1) i
    rw [Fintype.card_fin, hsum] at hle
    exact ⟨hsum ▸ hbal.lt i, hle⟩

/-- Three nodes of weight one and two of weight six. -/
def fiveNodes : List (WeightedNode ℤ) :=
  [⟨"a", 0, 1⟩, ⟨"b", 0, 1⟩, ⟨"c", 0, 1⟩, ⟨"d", 0, 6⟩, ⟨"e", 0, 6⟩]

theorem pickWeighted_smooth_five :
    (fiveNodes.map WeightedNode.tag).Nodup ∧ (∀ node ∈ fiveNodes, 0 < node.weight) ∧
      pickAt fiveNodes (2 + 15) = pickAt fiveNodes 2 :=
  ⟨by decide, by decide, (pickWeighted_smooth (by decide) (by decide) (by decide) 2).1⟩

/-- A node can have as much as all weights together: after ten picks the last one does. -/
theorem current_reaches_total :
    (fiveNodes.map WeightedNode.tag).Nodup ∧ (∀ node ∈ fiveNodes, 0 < node.weight) ∧
      ∃ node ∈ fiveNodes, (afterPicks fiveNodes 10).get node.tag =
        (fiveNodes.map WeightedNode.weight).sum :=
  ⟨by decide, by decide, ⟨"e", 0, 6⟩, by decide, by decide⟩

end Turns

end XrayCore.Router
