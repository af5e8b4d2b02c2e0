/-
  XrayCore.Router.Strategies

  The strategies of a balancer (`app/router/strategy_*.go`, `balancing.go`).

  A strategy picks, says whether it has nothing to pick, and tells the shares of its picks.
  All three go by the same candidates that are left of an observation, so that they agree as
  long as no candidate is called `""`, which a pick returns for none.

  Floating point is in two places: a rate of failures is compared with the tolerance and a
  cost is applied to a time, which are given with the settings; weights are exact.
-/

import XrayCore.Router.LeastLoad
import XrayCore.Router.MemberStatus
import XrayCore.Router.Weighted

namespace XrayCore.Router

open List Option

/-! ## Settings -/

/-- `StrategyLeastLoadConfig`. -/
structure LeastLoadConfig where
  expected : ℤ
  baselines : List ℤ
  maxRTT : ℤ
  /-- Is the rate of these failures, of so many in all, above a positive `Tolerance`? -/
  failsAbove : ℤ → ℤ → Bool
  /-- `Apply` of the costs. -/
  cost : String → ℤ → ℤ

/-- `StrategyWeight`; its value may be infinite or no number. -/
structure StrategyWeight where
  regexp : Bool
  find : String
  value : Option ℚ

/-- `StrategyWeightedLeastPingConfig`. -/
structure WeightedLeastPingConfig where
  weights : List StrategyWeight
  maxRTT : ℤ
  minSamples : ℤ
  rttTolerance : ℤ
  /-- Is the rate of these failures, of so many in all, above a positive `Tolerance`? -/
  failsAbove : ℤ → ℤ → Bool
  /-- What a regular expression finds in a tag, `""` if it is invalid. -/
  findString : String → String → String

/-- A product or a sum of durations, which are `int64`. -/
def duration (nanos : ℤ) : ℤ := Int.bmod nanos (2 ^ 64)

/-! ## `roundrobin` and `random` -/

/-- `aliveCandidates`; no observation keeps them all. -/
def aliveCandidates (observation : Option (List OutboundStatus)) (tags : List String) :
    List String :=
  match observation with
  | none => tags
  | some statuses => tags.filter fun candidate =>
    match (observedOf statuses).lookup candidate with
    | some status => status.alive
    | none => true

/-- `equalShares`. -/
def equalShares (tags : List String) : String → Option ℚ := fun tag =>
  if tag ∈ tags then some (1 / tags.dedup.length) else none

/-- The tag at a place that goes around, or at which a die falls; there is none of no tags. -/
def tagAt (tags : List String) (i : ℕ) : String :=
  if tags.length = 0 then "" else tags.getD (i % tags.length) ""

/-! ## `leastPing` -/

/-- `PickOutbound`: the alive candidate with the least delay, the first of several. -/
def pickLeastPing (observation : Option (List OutboundStatus)) (candidates : List String) :
    String :=
  match observation with
  | none => ""
  | some statuses =>
    (statuses.foldl (fun (selected : String × ℤ) v =>
      if v.outboundTag ∈ candidates ∧ v.alive ∧ v.delay < selected.2 then (v.outboundTag, v.delay)
      else selected) ("", 99999999)).1

/-! ## `leastLoad` -/

/-- `shouldSelectNode`. -/
def LeastLoadConfig.shouldSelectNode (c : LeastLoadConfig) (candidates : List String)
    (v : OutboundStatus) : Bool :=
  if !v.alive then false
  else if c.maxRTT ≠ 0 ∧ v.delay ≥ c.maxRTT.tdiv 1000000 then false
  else if v.outboundTag ∉ candidates then false
  else match v.healthPing with
    | some h => !(decide (h.all > 0) && c.failsAbove h.fail h.all)
    | none => true

def LeastLoadConfig.record (c : LeastLoadConfig) (v : OutboundStatus) : LoadNode :=
  match v.healthPing with
  | none =>
    let delay := duration (v.delay * 1000000)
    ⟨v.outboundTag, 1, 1, delay, delay, c.cost v.outboundTag delay⟩
  | some h =>
    ⟨v.outboundTag, h.all, h.fail, h.average, h.deviation, c.cost v.outboundTag h.deviation⟩

/-- `getNodes`, sorted by `leastloadSort`. -/
def LeastLoadConfig.getNodes (c : LeastLoadConfig) (observation : Option (List OutboundStatus))
    (candidates : List String) : List LoadNode :=
  (((observation.getD []).filter (c.shouldSelectNode candidates)).map c.record).mergeSort
    fun a b => !b.less a

/-- `pickOutbounds`; the selection is in range (`selectLeastLoad_eq`). -/
def LeastLoadConfig.pickOutbounds (c : LeastLoadConfig) (observation : Option (List OutboundStatus))
    (candidates : List String) : List LoadNode :=
  (selectLeastLoad c.expected c.baselines (c.getNodes observation candidates)).getD []

/-! ## `weightedLeastPing` -/

namespace WeightedLeastPingConfig

variable (c : WeightedLeastPingConfig)

def getMatch (tag : String) (w : StrategyWeight) : String :=
  if w.regexp then c.findString w.find tag
  else if w.find.toList <:+: tag.toList then w.find else ""

def weightFor (tag : String) : Option ℚ :=
  match c.weights.find? fun w => c.getMatch tag w ≠ "" with
  | some w => w.value
  | none => some 1

end WeightedLeastPingConfig

/-- What the loop of `filterNodes` has. -/
structure Filtering where
  allNodes : List (WeightedNode ℚ)
  healthyNodes : List (WeightedNode ℚ)
  seen : List String
  measured : ℕ
  alive : ℕ
  bestRTT : ℤ

/-- Does a status tell whether its outbound is up? -/
def WeightedLeastPingConfig.verdict (c : WeightedLeastPingConfig) (status : OutboundStatus) :
    Bool :=
  match status.healthPing with
  | none => true
  | some h => h.all ≥ max c.minSamples 1

/-- The average time of an outbound that is up, `none` if it is not healthy. -/
def WeightedLeastPingConfig.healthy (c : WeightedLeastPingConfig) (status : OutboundStatus) :
    Option ℤ :=
  let (averageRTT, all, fail) := match status.healthPing with
    | none => (duration (status.delay * 1000000), 1, 0)
    | some h => (h.average, h.all, h.fail)
  if c.minSamples > 0 ∧ all < c.minSamples then none
  else if all > 0 ∧ c.failsAbove fail all then none
  else if c.maxRTT > 0 ∧ averageRTT ≥ c.maxRTT then none
  else some averageRTT

def Filtering.add (c : WeightedLeastPingConfig)
    (statusByTag : AList (fun _ : String => OutboundStatus)) (s : Filtering) (candidate : String) :
    Filtering :=
  if candidate ∈ s.seen then s
  else
    let s := { s with seen := candidate :: s.seen }
    match c.weightFor candidate with
    | none => s
    | some weight =>
      if weight ≤ 0 then s
      else
        let s := { s with allNodes := s.allNodes ++ [⟨candidate, 0, weight⟩] }
        match statusByTag.lookup candidate with
        | none => s
        | some status =>
          let s := { s with measured := s.measured + if c.verdict status then 1 else 0 }
          if !status.alive then s
          else
            let s := { s with alive := s.alive + 1 }
            match c.healthy status with
            | none => s
            | some averageRTT =>
              { s with
                healthyNodes := s.healthyNodes ++ [⟨candidate, averageRTT, weight⟩]
                bestRTT := min s.bestRTT averageRTT }

/-- The healthy nodes near the best. -/
def Filtering.near (c : WeightedLeastPingConfig) (s : Filtering) : List (WeightedNode ℚ) :=
  if c.rttTolerance > 0 then
    s.healthyNodes.filter fun node => node.averageRTT ≤ duration (s.bestRTT + c.rttTolerance)
  else s.healthyNodes

/-- `filterNodes`. -/
def WeightedLeastPingConfig.filterNodes (c : WeightedLeastPingConfig) (fallbackTag : String)
    (candidates : List String) (statuses : List OutboundStatus) : List (WeightedNode ℚ) :=
  let s := candidates.foldl (Filtering.add c (observedOf statuses)) ⟨[], [], [], 0, 0, 2 ^ 63 - 1⟩
  if s.near c = [] ∧ fallbackTag ≠ "" ∧ s.allNodes ≠ [] ∧ s.measured = s.allNodes.length ∧
      s.alive = 0 then []
  else (if s.near c = [] then s.allNodes else s.near c).insertionSort fun a b => a.tag ≤ b.tag

/-- The shares of the nodes, each its weight of the total. -/
def weightShares (nodes : List (WeightedNode ℚ)) : String → Option ℚ := fun tag =>
  let total := (nodes.map WeightedNode.weight).sum
  if total ≤ 0 then none
  else (nodes.reverse.find? fun node => node.tag == tag).map fun node => node.weight / total

/-! ## The strategies -/

inductive Picker where
  | leastPing
  | roundRobin
  | random
  | leastLoad (settings : LeastLoadConfig)
  | weightedLeastPing (settings : WeightedLeastPingConfig) (fallbackTag : String)

/-- What a pick depends on besides: the place of `roundrobin`, the die of a roll and the current
    weights. -/
structure Chance where
  index : ℕ
  die : ℕ
  current : Currents ℚ

namespace Picker

variable (observation : Option (List OutboundStatus)) (candidates : List String)

def pickOutbound (chance : Chance) : Picker → String
  | .leastPing => pickLeastPing observation candidates
  | .roundRobin => tagAt (aliveCandidates observation candidates) chance.index
  | .random => tagAt (aliveCandidates observation candidates) chance.die
  | .leastLoad c => tagAt ((c.pickOutbounds observation candidates).map LoadNode.tag) chance.die
  | .weightedLeastPing c fallbackTag =>
    (pickWeighted chance.current (c.filterNodes fallbackTag candidates (observation.getD []))).2

def fallbackActive : Picker → Bool
  | .leastPing => pickLeastPing observation candidates == ""
  | .roundRobin | .random => (aliveCandidates observation candidates).length == 0
  | .leastLoad c => (c.pickOutbounds observation candidates).length == 0
  | .weightedLeastPing c fallbackTag =>
    fallbackTag != "" &&
      (c.filterNodes fallbackTag candidates (observation.getD [])).length == 0

/-- The shares that `PickShares` returns. -/
def pickShares : Picker → String → Option ℚ
  | .leastPing =>
    let pick := pickLeastPing observation candidates
    fun tag => if pick ≠ "" ∧ tag = pick then some 1 else none
  | .roundRobin | .random => equalShares (aliveCandidates observation candidates)
  | .leastLoad c => equalShares ((c.pickOutbounds observation candidates).map LoadNode.tag)
  | .weightedLeastPing c fallbackTag =>
    weightShares (c.filterNodes fallbackTag candidates (observation.getD []))

end Picker

/-- The strategy that `build` makes with the settings of the rule; `weightedLeastPing` gets the
    fallback of the balancer. -/
def Balancer.picker (b : Balancer) (load : LeastLoadConfig) (weighted : WeightedLeastPingConfig) :
    Picker :=
  match b.strategy with
  | .leastPing => .leastPing
  | .roundRobin => .roundRobin
  | .random => .random
  | .leastLoad => .leastLoad load
  | .weightedLeastPing => .weightedLeastPing weighted b.fallbackTag

/-! ## What is left to pick from -/

theorem aliveCandidates_subset (observation : Option (List OutboundStatus)) (tags : List String) :
    aliveCandidates observation tags ⊆ tags := by
  cases observation with
  | none => exact List.Subset.refl _
  | some statuses => exact filter_subset_self _

theorem tagAt_mem {tags : List String} (hne : tags ≠ []) (i : ℕ) : tagAt tags i ∈ tags := by
  have hpos : 0 < tags.length := length_pos_of_ne_nil hne
  have hlt : i % tags.length < tags.length := Nat.mod_lt i hpos
  rw [tagAt, if_neg hpos.ne', getD_eq_getElem?_getD, getElem?_eq_getElem hlt]
  exact getElem_mem hlt

variable {tag : String}

theorem exists_tagAt {tags : List String} (h : tag ∈ tags) : ∃ i, tagAt tags i = tag := by
  obtain ⟨i, hi, rfl⟩ := getElem_of_mem h
  refine ⟨i, ?_⟩
  rw [tagAt, if_neg (by omega), Nat.mod_eq_of_lt hi, getD_eq_getElem?_getD,
    getElem?_eq_getElem hi, getD_some]

theorem equalShares_pos (tags : List String) (tag : String) :
    (∃ q, equalShares tags tag = some q ∧ 0 < q) ↔ tag ∈ tags := by
  unfold equalShares
  split
  · next hmem =>
    have hpos : 0 < tags.dedup.length :=
      length_pos_of_mem (mem_dedup.mpr hmem)
    exact ⟨fun _ => hmem, fun _ => ⟨_, rfl, by positivity⟩⟩
  · next hmem => exact ⟨fun ⟨_, hq, _⟩ => (nomatch hq), fun h => absurd h hmem⟩

/-- The nodes of `weightedLeastPing` are candidates with positive weights. -/
def Fit (candidates : List String) (nodes : List (WeightedNode ℚ)) : Prop :=
  ∀ node ∈ nodes, node.tag ∈ candidates ∧ 0 < node.weight

variable {nodes : List (WeightedNode ℚ)}

theorem Fit.concat {candidates : List String} (h : Fit candidates nodes) (node : WeightedNode ℚ)
    (htag : node.tag ∈ candidates) (hpos : 0 < node.weight) : Fit candidates (nodes ++ [node]) := by
  exact forall_mem_append.mpr ⟨h, forall_mem_singleton.mpr ⟨htag, hpos⟩⟩

theorem Filtering.fit_add {c : WeightedLeastPingConfig}
    {statusByTag : AList (fun _ : String => OutboundStatus)} {s : Filtering} {candidate : String}
    {candidates : List String} (hmem : candidate ∈ candidates)
    (hall : Fit candidates s.allNodes) (hhealthy : Fit candidates s.healthyNodes) :
    Fit candidates (s.add c statusByTag candidate).allNodes ∧
      Fit candidates (s.add c statusByTag candidate).healthyNodes := by
  unfold Filtering.add
  split
  · exact ⟨hall, hhealthy⟩
  dsimp only
  split
  · exact ⟨hall, hhealthy⟩
  next weight hweight =>
  split
  · exact ⟨hall, hhealthy⟩
  next hpos =>
  have hall' := hall.concat ⟨candidate, 0, weight⟩ hmem (not_le.mp hpos)
  split
  · exact ⟨hall', hhealthy⟩
  split
  · exact ⟨hall', hhealthy⟩
  split
  · exact ⟨hall', hhealthy⟩
  · next averageRTT _ =>
    exact ⟨hall', hhealthy.concat ⟨candidate, averageRTT, weight⟩ hmem (not_le.mp hpos)⟩

theorem filterNodes_fit (c : WeightedLeastPingConfig) (fallbackTag : String)
    (candidates : List String) (statuses : List OutboundStatus) :
    Fit candidates (c.filterNodes fallbackTag candidates statuses) := by
  have hloop : ∀ (done : List String) (s : Filtering), done ⊆ candidates →
      Fit candidates s.allNodes → Fit candidates s.healthyNodes →
      let r := done.foldl (Filtering.add c (observedOf statuses)) s
      Fit candidates r.allNodes ∧ Fit candidates r.healthyNodes := by
    intro done
    induction done with
    | nil => exact fun s _ hall hhealthy => ⟨hall, hhealthy⟩
    | cons candidate done ih =>
      intro s hsub hall hhealthy
      obtain ⟨hmem, hsub'⟩ := cons_subset.mp hsub
      obtain ⟨hall', hhealthy'⟩ := Filtering.fit_add hmem hall hhealthy
      exact ih _ hsub' hall' hhealthy'
  obtain ⟨hall, hhealthy⟩ := hloop candidates ⟨[], [], [], 0, 0, 2 ^ 63 - 1⟩
    (List.Subset.refl _) nofun nofun
  unfold WeightedLeastPingConfig.filterNodes
  dsimp only
  generalize candidates.foldl _ _ = s at hall hhealthy
  split
  · exact fun node hnode => nomatch hnode
  · intro node hnode
    rw [mem_insertionSort] at hnode
    split at hnode
    · exact hall node hnode
    · unfold Filtering.near at hnode
      split at hnode
      · exact hhealthy node (mem_of_mem_filter hnode)
      · exact hhealthy node hnode

theorem weightShares_pos (hpos : ∀ node ∈ nodes, 0 < node.weight) (tag : String) :
    (∃ q, weightShares nodes tag = some q ∧ 0 < q) ↔ tag ∈ nodes.map WeightedNode.tag := by
  have htotal : nodes ≠ [] → 0 < (nodes.map WeightedNode.weight).sum := by
    intro hne
    apply sum_pos
    · simpa using hpos
    · simpa using hne
  unfold weightShares
  constructor
  · rintro ⟨q, hq, -⟩
    dsimp only at hq
    split at hq
    · nomatch hq
    · obtain ⟨node, hnode, -⟩ := map_eq_some_iff.mp hq
      have hmem := mem_reverse.mp (mem_of_find?_eq_some hnode)
      have htag := find?_some hnode
      exact mem_map.mpr ⟨node, hmem, by simpa using htag⟩
  · intro hmem
    obtain ⟨node, hnode, rfl⟩ := mem_map.mp hmem
    have hsum := htotal (ne_nil_of_mem hnode)
    dsimp only
    rw [if_neg (not_le.mpr hsum)]
    have hfound : (nodes.reverse.find? fun n => n.tag == node.tag).isSome := by
      rw [find?_isSome]
      exact ⟨node, mem_reverse.mpr hnode, by simp⟩
    obtain ⟨n, hn⟩ := isSome_iff_exists.mp hfound
    have hweight := hpos n (mem_reverse.mp (mem_of_find?_eq_some hn))
    exact ⟨n.weight / _, by rw [hn, map_some], div_pos hweight hsum⟩

/-! ## Picks by weight -/

/-- A node is selected if it has more than the one before, which stays otherwise. -/
theorem selected_add (s : Picking ℚ) (node : WeightedNode ℚ) :
    let value := s.current.get node.tag + node.weight
    ((s.add node).selected = some (node, value) ∧ ∀ x ∈ s.selected, x.2 < value) ∨
      ∃ x, s.selected = some x ∧ (s.add node).selected = some x ∧ value ≤ x.2 := by
  simp only [Picking.add]
  split
  · next hnone => exact .inl ⟨rfl, by simp [hnone]⟩
  · next old sel hold =>
    split
    · next hlt => exact .inl ⟨rfl, by simpa [hold] using hlt⟩
    · next hge => exact .inr ⟨(old, sel), hold, rfl, not_lt.mp hge⟩

variable {s : Picking ℚ}

/-- The loop of `pickWeighted` selects one of its nodes. -/
theorem exists_selected (h : nodes ≠ [] ∨ s.selected.isSome) :
    ∃ x, (nodes.foldl Picking.add s).selected = some x ∧
      (x.1 ∈ nodes ∨ s.selected = some x) := by
  induction nodes generalizing s with
  | nil =>
    obtain ⟨x, hx⟩ := isSome_iff_exists.mp (h.resolve_left fun hne => hne rfl)
    exact ⟨x, hx, .inr hx⟩
  | cons node nodes ih =>
    rcases selected_add s node with ⟨hnew, -⟩ | ⟨old, hold, hsame, -⟩
    · obtain ⟨x, hx, hmem⟩ := ih (s := s.add node) (.inr (hnew ▸ rfl))
      refine ⟨x, hx, .inl ?_⟩
      rcases hmem with hmem | hmem
      · exact mem_cons_of_mem _ hmem
      · obtain rfl := some.inj (hnew.symm.trans hmem)
        exact mem_cons_self
    · obtain ⟨x, hx, hmem⟩ := ih (s := s.add node) (.inr (hsame ▸ rfl))
      refine ⟨x, hx, hmem.imp (mem_cons_of_mem _) fun hmem => ?_⟩
      rw [hold, ← hsame, hmem]

/-- While a tag has more than all weights together, others stay below it. -/
structure Favours (tag : String) (bound : ℚ) (s : Picking ℚ) : Prop where
  own : bound ≤ s.current.get tag
  others : ∀ t, t ≠ tag → s.current.get t ≤ s.totalWeight
  selected : ∀ x ∈ s.selected, x.1.tag = tag ∧ bound ≤ x.2 ∨ x.2 ≤ s.totalWeight

/-- It is selected. -/
def Favoured (tag : String) (bound : ℚ) (s : Picking ℚ) : Prop :=
  ∃ x, s.selected = some x ∧ x.1.tag = tag ∧ bound ≤ x.2

theorem Favours.add {bound : ℚ} (h : Favours tag bound s) {node : WeightedNode ℚ}
    (hpos : 0 < node.weight) (hbound : s.totalWeight + node.weight < bound) :
    Favours tag bound (s.add node) ∧
      (Favoured tag bound s ∨ node.tag = tag → Favoured tag bound (s.add node)) := by
  have hget : ∀ t, (s.add node).current.get t =
      if t = node.tag then s.current.get node.tag + node.weight else s.current.get t := by
    intro t
    show (Function.update s.current node.tag (some _) t).getD 0 = _
    rw [Function.update_apply]
    split <;> rfl
  have htotal : (s.add node).totalWeight = s.totalWeight + node.weight := rfl
  have hsel := selected_add s node
  by_cases htag : node.tag = tag
  · have hvalue : bound ≤ s.current.get node.tag + node.weight := by
      have hown := h.own
      rw [htag]
      linarith
    have hfav : Favoured tag bound (s.add node) := by
      rcases hsel with ⟨hnew, -⟩ | ⟨x, hx, hsame, hle⟩
      · exact ⟨_, hnew, htag, hvalue⟩
      · rcases h.selected x hx with hfav | hlow
        · exact ⟨x, hsame, hfav⟩
        · exact absurd hle (by linarith)
    refine ⟨⟨?_, fun t ht => ?_, fun x hx => ?_⟩, fun _ => hfav⟩
    · rw [hget, if_pos htag.symm]
      exact hvalue
    · have hother := h.others t ht
      rw [hget, if_neg (htag ▸ ht), htotal]
      linarith
    · obtain ⟨y, hy, hfavy⟩ := hfav
      obtain rfl := some.inj (hy.symm.trans hx)
      exact .inl hfavy
  · have hvalue : s.current.get node.tag + node.weight ≤ s.totalWeight + node.weight := by
      have hother := h.others _ htag
      linarith
    refine ⟨⟨?_, fun t ht => ?_, fun x hx => ?_⟩, fun hfav => ?_⟩
    · rw [hget, if_neg (Ne.symm htag)]
      exact h.own
    · have hother := h.others t ht
      rw [hget, htotal]
      split
      · exact hvalue
      · linarith
    · rw [htotal]
      rcases hsel with ⟨hnew, -⟩ | ⟨y, hy, hsame, -⟩
      · obtain rfl := some.inj (hnew.symm.trans hx)
        exact .inr hvalue
      · obtain rfl := some.inj (hsame.symm.trans hx)
        exact (h.selected y hy).imp_right fun hlow => by linarith
    · obtain ⟨x, hx, hxtag, hle⟩ := hfav.resolve_right htag
      rcases hsel with ⟨-, hless⟩ | ⟨y, hy, hsame, -⟩
      · exact absurd (hless x hx) (by linarith)
      · obtain rfl := some.inj (hy.symm.trans hx)
        exact ⟨y, hsame, hxtag, hle⟩

/-- In the loop a favoured tag is selected once its node has come. -/
theorem Favours.foldl {bound : ℚ} (h : Favours tag bound s) (hpos : ∀ node ∈ nodes, 0 < node.weight)
    (hbound : s.totalWeight + (nodes.map WeightedNode.weight).sum < bound)
    (hcomes : Favoured tag bound s ∨ tag ∈ nodes.map WeightedNode.tag) :
    Favoured tag bound (nodes.foldl Picking.add s) := by
  induction nodes generalizing s with
  | nil => exact hcomes.resolve_right (by simp)
  | cons node nodes ih =>
    obtain ⟨hnode, hrest⟩ := forall_mem_cons.mp hpos
    have hnonneg : 0 ≤ (nodes.map WeightedNode.weight).sum :=
      sum_nonneg (by simpa using fun n hn => (hrest n hn).le)
    rw [map_cons, sum_cons] at hbound
    obtain ⟨hadd, hfav⟩ := h.add hnode (by linarith)
    refine ih hadd hrest (by show s.totalWeight + node.weight + _ < _; linarith) ?_
    rcases hcomes with hcomes | hcomes
    · exact .inl (hfav (.inl hcomes))
    · rcases mem_cons.mp hcomes with heq | hmem
      · exact .inl (hfav (.inr heq.symm))
      · exact .inr hmem

/-- `pickWeighted` picks one of its nodes, and each of them in some state. -/
theorem pickWeighted_mem (hne : nodes ≠ []) (current : Currents ℚ) :
    (pickWeighted current nodes).2 ∈ nodes.map WeightedNode.tag := by
  obtain ⟨x, hx, hmem⟩ := exists_selected (s := ⟨current.keep nodes, 0, none⟩) (.inl hne)
  rw [pickWeighted, hx]
  exact mem_map_of_mem (hmem.resolve_right (some_ne_none x).symm)

theorem exists_pickWeighted (hpos : ∀ node ∈ nodes, 0 < node.weight)
    (htag : tag ∈ nodes.map WeightedNode.tag) :
    ∃ current, (pickWeighted current nodes).2 = tag := by
  let bound := (nodes.map WeightedNode.weight).sum + 1
  let current : Currents ℚ := fun t => if t = tag then some bound else none
  have hstart : Favours tag bound ⟨current.keep nodes, 0, none⟩ := by
    refine ⟨?_, fun t ht => ?_, nofun⟩
    · simp [Currents.get, Currents.keep, htag, current]
    · simp [Currents.get, Currents.keep, current, ht]
  obtain ⟨x, hx, hxtag, -⟩ := hstart.foldl hpos (by show 0 + _ < bound; linarith) (.inr htag)
  refine ⟨current, ?_⟩
  rw [pickWeighted, hx]
  exact hxtag

/-! ## The three agree -/

namespace Picker

variable (observation : Option (List OutboundStatus)) (candidates : List String)

/-- The tags that a strategy picks from. -/
def choices : Picker → List String
  | .leastPing =>
    let pick := pickLeastPing observation candidates
    if pick = "" then [] else [pick]
  | .roundRobin | .random => aliveCandidates observation candidates
  | .leastLoad c => (c.pickOutbounds observation candidates).map LoadNode.tag
  | .weightedLeastPing c fallbackTag =>
    (c.filterNodes fallbackTag candidates (observation.getD [])).map WeightedNode.tag

variable {observation candidates}

theorem pickOutbounds_subset (c : LeastLoadConfig) :
    ∀ node ∈ c.pickOutbounds observation candidates, node.tag ∈ candidates := by
  have hnodes : ∀ node ∈ c.getNodes observation candidates, node.tag ∈ candidates := by
    intro node hnode
    obtain ⟨v, hv, rfl⟩ := mem_map.mp (mem_mergeSort.mp hnode)
    have hshould := (mem_filter.mp hv).2
    have htag : (c.record v).tag = v.outboundTag := by
      unfold LeastLoadConfig.record
      split <;> rfl
    rw [htag]
    by_contra hnot
    simp [LeastLoadConfig.shouldSelectNode, hnot] at hshould
  have hfirst : ∀ (nodes : List LoadNode) (count : ℕ),
      (firstNodes nodes count).getD [] ⊆ nodes := by
    intro nodes count
    unfold firstNodes
    split
    · exact take_subset _ _
    · exact nil_subset _
  intro node hnode
  apply hnodes
  unfold LeastLoadConfig.pickOutbounds selectLeastLoad at hnode
  split at hnode
  · nomatch hnode
  split at hnode
  · exact hnode
  dsimp only at hnode
  split at hnode
  · exact hfirst _ _ hnode
  · exact hfirst _ _ hnode

theorem empty_not_mem_choices (p : Picker) (h : "" ∉ candidates) :
    "" ∉ p.choices observation candidates := by
  cases p with
  | leastPing =>
    rw [choices]
    split
    · simp
    · next hne => simpa using hne
  | roundRobin | random => exact fun hmem => h (aliveCandidates_subset observation candidates hmem)
  | leastLoad c =>
    rintro hmem
    obtain ⟨node, hnode, htag⟩ := mem_map.mp hmem
    exact h (htag ▸ pickOutbounds_subset c node hnode)
  | weightedLeastPing c fallbackTag =>
    rintro hmem
    obtain ⟨node, hnode, htag⟩ := mem_map.mp hmem
    exact h (htag ▸ (filterNodes_fit c fallbackTag _ _ node hnode).1)

/-- Shares are those of the choices. -/
theorem pickShares_pos (p : Picker) (tag : String) :
    (∃ q, p.pickShares observation candidates tag = some q ∧ 0 < q) ↔
      tag ∈ p.choices observation candidates := by
  cases p with
  | leastPing =>
    simp only [pickShares, choices]
    by_cases hpick : pickLeastPing observation candidates = ""
    · simp [hpick]
    · by_cases htag : tag = pickLeastPing observation candidates
      · simp [hpick, htag]
      · simp [hpick, htag]
  | roundRobin | random => exact equalShares_pos _ tag
  | leastLoad c => exact equalShares_pos _ tag
  | weightedLeastPing c fallbackTag =>
    exact weightShares_pos (fun node hnode => (filterNodes_fit c _ _ _ node hnode).2) tag

/-- Without choices nothing is picked. -/
theorem pickOutbound_nil (p : Picker) (h : p.choices observation candidates = [])
    (chance : Chance) : p.pickOutbound observation candidates chance = "" := by
  cases p with
  | leastPing =>
    simp only [choices] at h
    split at h
    · next hpick => exact hpick
    · nomatch h
  | roundRobin | random =>
    rw [choices] at h
    rw [pickOutbound, h]
    rfl
  | leastLoad c =>
    rw [choices] at h
    rw [pickOutbound, h]
    rfl
  | weightedLeastPing c fallbackTag =>
    rw [choices, map_eq_nil_iff] at h
    rw [pickOutbound, h]
    rfl

/-- Of choices one is picked. -/
theorem pickOutbound_mem (p : Picker) (h : p.choices observation candidates ≠ [])
    (chance : Chance) :
    p.pickOutbound observation candidates chance ∈ p.choices observation candidates := by
  cases p with
  | leastPing =>
    simp only [choices] at h ⊢
    split at h
    · exact absurd rfl h
    · next hne =>
      rw [if_neg hne]
      exact mem_singleton_self _
  | roundRobin | random => exact tagAt_mem h _
  | leastLoad c => exact tagAt_mem h _
  | weightedLeastPing c fallbackTag =>
    exact pickWeighted_mem (fun hnil => h (by simp [choices, hnil])) _

/-- Each of them can be. -/
theorem exists_pickOutbound (p : Picker) {tag : String}
    (h : tag ∈ p.choices observation candidates) :
    ∃ chance, p.pickOutbound observation candidates chance = tag := by
  cases p with
  | leastPing =>
    simp only [choices] at h
    split at h
    · nomatch h
    · exact ⟨⟨0, 0, fun _ => none⟩, (mem_singleton.mp h).symm⟩
  | roundRobin =>
    obtain ⟨i, hi⟩ := exists_tagAt h
    exact ⟨⟨i, 0, fun _ => none⟩, hi⟩
  | random =>
    obtain ⟨i, hi⟩ := exists_tagAt h
    exact ⟨⟨0, i, fun _ => none⟩, hi⟩
  | leastLoad c =>
    obtain ⟨i, hi⟩ := exists_tagAt h
    exact ⟨⟨0, i, fun _ => none⟩, hi⟩
  | weightedLeastPing c fallbackTag =>
    obtain ⟨current, hcurrent⟩ :=
      exists_pickWeighted (fun node hnode => (filterNodes_fit c _ _ _ node hnode).2) h
    exact ⟨⟨0, 0, current⟩, hcurrent⟩

/-- Nothing is picked exactly when there are no choices. -/
theorem pickOutbound_eq_empty (p : Picker) (h : "" ∉ candidates) (chance : Chance) :
    p.pickOutbound observation candidates chance = "" ↔ p.choices observation candidates = [] := by
  refine ⟨fun hpick => ?_, fun hnil => p.pickOutbound_nil hnil chance⟩
  by_contra hne
  exact p.empty_not_mem_choices h (hpick ▸ p.pickOutbound_mem hne chance)

/-- A balancer with a fallback has a strategy that tells when it has no choices. -/
theorem fallbackActive_iff {b : Balancer} (hfallback : b.fallbackTag ≠ "") (load : LeastLoadConfig)
    (weighted : WeightedLeastPingConfig) :
    (b.picker load weighted).fallbackActive observation candidates = true ↔
      (b.picker load weighted).choices observation candidates = [] := by
  unfold Balancer.picker
  cases b.strategy with
  | leastPing =>
    simp only [fallbackActive, choices, beq_iff_eq]
    split
    · next hpick => exact ⟨fun _ => rfl, fun _ => hpick⟩
    · next hpick => exact ⟨fun h => absurd h hpick, nofun⟩
  | roundRobin | random => simp [fallbackActive, choices]
  | leastLoad => simp [fallbackActive, choices]
  | weightedLeastPing => simp [fallbackActive, choices, hfallback]

end Picker

/-- What a level reads when it has no override. -/
def surroundings (select : Option (List String → List String))
    (observation : Option (List OutboundStatus)) (p : Picker) (chance : Chance) : Surroundings where
  select := select
  override := ""
  pickOutbound candidates := p.pickOutbound observation candidates chance
  fallbackActive := some fun candidates => p.fallbackActive observation candidates

/-- As long as no candidate is called `""`: a balancer reports its fallback as active exactly when
    it picks it; a tag has a positive share exactly when it can be picked; and none has exactly
    when nothing is picked. -/
theorem reports_as_picked (b : Balancer) (load : LeastLoadConfig)
    (weighted : WeightedLeastPingConfig) (observation : Option (List OutboundStatus)) :
    let p := b.picker load weighted
    (∀ select chance,
      let env := surroundings select observation p chance
      (∀ candidates, selectOutbounds env b = .ok candidates → "" ∉ candidates) →
      ((fallbackState env b).1 = true ↔ pick env b = .ok (b.fallbackTag, true))) ∧
    ∀ candidates, "" ∉ candidates →
      (∀ tag, (∃ q, p.pickShares observation candidates tag = some q ∧ 0 < q) ↔
        tag ≠ "" ∧ ∃ chance, p.pickOutbound observation candidates chance = tag) ∧
      ∀ chance, (∀ tag, ¬ ∃ q, p.pickShares observation candidates tag = some q ∧ 0 < q) ↔
        p.pickOutbound observation candidates chance = "" := by
  intro p
  refine ⟨?_, fun candidates hnamed => ⟨fun tag => ?_, fun chance => ?_⟩⟩
  · intro select chance env hnamed
    unfold pick fallbackState
    cases hc : selectOutbounds env b with
    | error err => by_cases hf : b.fallbackTag = "" <;> simp [env, surroundings, hf]
    | ok candidates =>
      by_cases hf : b.fallbackTag = ""
      · by_cases hpick : p.pickOutbound observation candidates chance = "" <;>
          simp [env, surroundings, hf, hpick]
      · have hactive : p.fallbackActive observation candidates = true ↔
            p.choices observation candidates = [] := Picker.fallbackActive_iff hf load weighted
        have hempty : p.pickOutbound observation candidates chance = "" ↔
            p.choices observation candidates = [] :=
          p.pickOutbound_eq_empty (hnamed candidates hc) chance
        by_cases hnil : p.choices observation candidates = []
        · simp [env, surroundings, hf, hactive.mpr hnil, hempty.mpr hnil]
        · simp [env, surroundings, hf, mt hactive.mp hnil, mt hempty.mp hnil]
  · rw [p.pickShares_pos]
    constructor
    · intro hmem
      exact ⟨fun heq => p.empty_not_mem_choices hnamed (heq ▸ hmem), p.exists_pickOutbound hmem⟩
    · rintro ⟨hne, chance, rfl⟩
      exact p.pickOutbound_mem (fun hnil => hne (p.pickOutbound_nil hnil chance)) chance
  · rw [p.pickOutbound_eq_empty hnamed chance, eq_nil_iff_forall_not_mem]
    simp only [p.pickShares_pos]

/-- Two members that have names, one of them seen alive. -/
theorem reports_as_picked_named :
    let b : Balancer := ⟨0, "b", [], .leastPing, "f", ["x", "y"]⟩
    let seen := some [{ OutboundStatus.zero with outboundTag := "y", alive := true, delay := 9 }]
    let env := surroundings none seen .leastPing ⟨0, 0, fun _ => none⟩
    ((fallbackState env b).1 = true ↔ pick env b = .ok ("f", true)) ∧
      ∃ chance, Picker.leastPing.pickOutbound seen ["x", "y"] chance = "y" := by
  intro b seen env
  obtain ⟨hfallback, hshares⟩ := reports_as_picked b ⟨0, [], 0, fun _ _ => false, fun _ => id⟩
    ⟨[], 0, 0, 0, fun _ _ => false, fun _ _ => ""⟩ seen
  refine ⟨hfallback none ⟨0, 0, fun _ => none⟩ fun candidates hc => ?_, ?_⟩
  · obtain rfl := Except.ok.inj hc
    decide
  · exact (((hshares ["x", "y"] (by decide)).1 "y").mp ⟨1, by decide, one_pos⟩).2

/-- A member that is called `""` is alive, but picking it is picking none. -/
theorem nameless_member_unreported :
    let b : Balancer := ⟨0, "b", [], .random, "f", [""]⟩
    let env := surroundings none none .random ⟨0, 0, fun _ => none⟩
    (∀ load weighted, b.picker load weighted = .random) ∧
      (fallbackState env b).1 = false ∧ pick env b = .ok ("f", true) :=
  ⟨fun _ _ => rfl, by decide, by decide⟩

end XrayCore.Router
