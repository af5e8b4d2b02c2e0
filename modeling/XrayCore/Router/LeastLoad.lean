/-
  XrayCore.Router.LeastLoad

  How the strategy `leastLoad` selects among its nodes (`app/router/strategy_leastload.go`).

  The nodes are sorted by their cost, so those below a baseline stand in front, and a count
  of them that goes on from an earlier baseline is that of the larger of the two.  The order
  compares all that is read of a node later, but not its deviation: nodes that differ
  in that alone stand in any order.
-/

import Mathlib

namespace XrayCore.Router

open List

/-! ## Nodes and their order -/

/-- `node`. -/
structure LoadNode where
  tag : String
  countAll : ℤ
  countFail : ℤ
  rttAverage : ℤ
  rttDeviation : ℤ
  rttDeviationCost : ℤ
  deriving DecidableEq

namespace LoadNode

/-- What `leastloadSort` sorts by. -/
def less (left right : LoadNode) : Bool :=
  if left.rttDeviationCost ≠ right.rttDeviationCost then
    left.rttDeviationCost < right.rttDeviationCost
  else if left.rttAverage ≠ right.rttAverage then left.rttAverage < right.rttAverage
  else if left.countFail ≠ right.countFail then left.countFail < right.countFail
  else if left.countAll ≠ right.countAll then left.countAll > right.countAll
  else left.tag < right.tag

/-- What the order compares, the more important first. -/
def key (n : LoadNode) : ℤ ×ₗ ℤ ×ₗ ℤ ×ₗ ℤ ×ₗ String :=
  toLex (n.rttDeviationCost, toLex (n.rttAverage, toLex (n.countFail,
    toLex (-n.countAll, n.tag))))

theorem less_iff {left right : LoadNode} : left.less right = true ↔ left.key < right.key := by
  simp only [less, key, Prod.Lex.toLex_lt_toLex]
  split_ifs <;> simp_all

theorem cost_le_of_key {m n : LoadNode} (h : m.key ≤ n.key) :
    m.rttDeviationCost ≤ n.rttDeviationCost :=
  (Prod.Lex.toLex_le_toLex.mp h).elim le_of_lt fun heq => le_of_eq heq.1

end LoadNode

/-- Sorted as `leastloadSort` leaves the nodes. -/
def LoadSorted (nodes : List LoadNode) : Prop := nodes.Pairwise fun a b => b.less a = false

theorem loadSorted_iff {nodes : List LoadNode} :
    LoadSorted nodes ↔ (nodes.map LoadNode.key).Pairwise (· ≤ ·) := by
  rw [LoadSorted, pairwise_map]
  refine List.Pairwise.iff fun a b => ?_
  rw [← not_lt, ← LoadNode.less_iff, Bool.not_eq_true]

/-! ## Selecting -/

/-- `nodes[:count]`, which is out of range beyond the nodes. -/
def firstNodes (nodes : List LoadNode) (count : ℕ) : Option (List LoadNode) :=
  if count ≤ nodes.length then some (nodes.take count) else none

/-- The inner loop: `count` goes on while the nodes are below the baseline. -/
def passBaseline (baseline : ℤ) : List LoadNode → ℕ → ℕ
  | [], count => count
  | n :: nodes, count =>
    if n.rttDeviationCost ≥ baseline then count else passBaseline baseline nodes (count + 1)

/-- The outer loop, over the baselines. -/
def passBaselines (nodes : List LoadNode) (expected : ℕ) : List ℤ → ℕ → ℕ
  | [], count => count
  | baseline :: baselines, count =>
    let count := passBaseline baseline (nodes.drop count) count
    if count ≥ expected then count else passBaselines nodes expected baselines count

/-- `selectLeastLoad`, with the settings `Expected` and `Baselines`; `none` if it is out of
    range. -/
def selectLeastLoad (settingsExpected : ℤ) (baselines : List ℤ) (nodes : List LoadNode) :
    Option (List LoadNode) :=
  if nodes.isEmpty then some []
  else if settingsExpected > nodes.length then some nodes
  else
    let expected : ℕ := if settingsExpected ≤ 0 then 1 else settingsExpected.toNat
    if baselines.isEmpty then firstNodes nodes expected
    else
      let count := passBaselines nodes expected baselines 0
      firstNodes nodes (if settingsExpected > 0 ∧ count < expected then expected else count)

/-! ## What is selected -/

/-- How many nodes are below a baseline. -/
def below (nodes : List LoadNode) (baseline : ℤ) : ℕ :=
  nodes.countP fun n => decide (n.rttDeviationCost < baseline)

/-- The largest of each baseline and those before it. -/
def runningMax : List ℤ → List ℤ
  | [] => []
  | b :: bs => b :: (runningMax bs).map (max b)

/-- The baseline that decides: the first largest so far that has enough nodes below, or the
    largest at all. -/
def deciding (nodes : List LoadNode) (expected : ℕ) (baselines : List ℤ) : Option ℤ :=
  ((runningMax baselines).find? fun b => decide (expected ≤ below nodes b)).or baselines.max?

/-- How many nodes are to be selected. -/
def selectCount (settingsExpected : ℤ) (baselines : List ℤ) (nodes : List LoadNode) : ℕ :=
  if settingsExpected > nodes.length then nodes.length
  else match deciding nodes (max settingsExpected 1).toNat baselines with
    | none => (max settingsExpected 1).toNat
    | some b => max (below nodes b) settingsExpected.toNat

variable {nodes : List LoadNode}

theorem passBaseline_succ (b : ℤ) (nodes : List LoadNode) (count : ℕ) :
    passBaseline b nodes (count + 1) = passBaseline b nodes count + 1 := by
  induction nodes generalizing count with
  | nil => rfl
  | cons n nodes ih => simp only [passBaseline, ih, apply_ite (· + 1)]

/-- From any count, a baseline leads to the number of nodes below it or stays. -/
theorem passBaseline_eq (hsorted : LoadSorted nodes) (b : ℤ) (count : ℕ) :
    passBaseline b (nodes.drop count) count = max count (below nodes b) := by
  induction nodes generalizing count with
  | nil => simp [passBaseline, below]
  | cons n nodes ih =>
    have hcons := pairwise_cons.mp (loadSorted_iff.mp hsorted)
    have hih := ih (pairwise_cons.mp hsorted).2
    rw [below] at hih ⊢
    by_cases hn : n.rttDeviationCost < b
    · rw [countP_cons_of_pos (by simpa using hn)]
      cases count with
      | zero =>
        rw [drop_zero, passBaseline, if_neg (not_le.mpr hn), passBaseline_succ]
        have h0 := hih 0
        rw [drop_zero] at h0
        omega
      | succ count =>
        rw [drop_succ_cons, passBaseline_succ, hih count]
        omega
    · -- the first node is not below, so none is
      have hnone : ∀ m ∈ nodes, ¬ decide (m.rttDeviationCost < b) = true := by
        intro m hm hlt
        have hle := LoadNode.cost_le_of_key (hcons.1 _ (mem_map_of_mem hm))
        exact hn (lt_of_le_of_lt hle (of_decide_eq_true hlt))
      rw [countP_eq_zero.mpr hnone] at hih
      rw [countP_cons_of_neg (by simpa using hn), countP_eq_zero.mpr hnone]
      cases count with
      | zero => rw [drop_zero, passBaseline, if_pos (not_lt.mp hn)]; rfl
      | succ count =>
        rw [drop_succ_cons, passBaseline_succ, hih count]
        omega

theorem below_max (nodes : List LoadNode) (a b : ℤ) :
    below nodes (max a b) = max (below nodes a) (below nodes b) := by
  have hmono : ∀ {x y : ℤ}, x ≤ y → below nodes x ≤ below nodes y := fun hle =>
    countP_mono_left fun n _ hn => by simp only [decide_eq_true_eq] at hn ⊢; omega
  rcases le_total a b with hab | hba
  · rw [max_eq_right hab, max_eq_right (hmono hab)]
  · rw [max_eq_left hba, max_eq_left (hmono hba)]

/-- The loop over the baselines, from the count of an earlier one. -/
theorem passBaselines_below (hsorted : LoadSorted nodes) (expected : ℕ) (bs : List ℤ) (a : ℤ) :
    passBaselines nodes expected bs (below nodes a) = below nodes
      ((((runningMax bs).map (max a)).find? fun b => decide (expected ≤ below nodes b)).getD
        (bs.foldl max a)) := by
  induction bs generalizing a with
  | nil => rfl
  | cons b bs ih =>
    have hassoc : (max a ∘ max b) = max (max a b) := funext fun x => (max_assoc a b x).symm
    rw [passBaselines, passBaseline_eq hsorted, ← below_max, runningMax, map_cons,
      map_map, hassoc, find?_cons, foldl_cons, ih (max a b)]
    by_cases hle : expected ≤ below nodes (max a b)
    · simp [hle]
    · simp [hle]

theorem passBaselines_eq (hsorted : LoadSorted nodes) (expected : ℕ) {bs : List ℤ}
    (hne : bs ≠ []) : ∃ b, deciding nodes expected bs = some b ∧
      passBaselines nodes expected bs 0 = below nodes b := by
  obtain ⟨b, bs, rfl⟩ := exists_cons_of_ne_nil hne
  have hstart : passBaselines nodes expected (b :: bs) 0 =
      if below nodes b ≥ expected then below nodes b
      else passBaselines nodes expected bs (below nodes b) := by
    simp only [passBaselines, passBaseline_eq hsorted, Nat.zero_max]
  rw [hstart, passBaselines_below hsorted, deciding, runningMax, find?_cons]
  by_cases hle : expected ≤ below nodes b
  · exact ⟨b, by simp [hle], by rw [if_pos hle]⟩
  · refine ⟨_, ?_, by rw [if_neg hle]⟩
    simp only [hle, decide_false, max?_cons']
    cases find? _ _ <;> rfl

/-- The selection is the first `selectCount` nodes. -/
theorem selectLeastLoad_eq (hne : nodes ≠ []) (hsorted : LoadSorted nodes) (settingsExpected : ℤ)
    (baselines : List ℤ) :
    selectCount settingsExpected baselines nodes ≤ nodes.length ∧
      selectLeastLoad settingsExpected baselines nodes =
        some (nodes.take (selectCount settingsExpected baselines nodes)) := by
  have hpos := length_pos_iff.mpr hne
  rw [selectLeastLoad, if_neg (by simpa using hne), selectCount]
  by_cases hall : settingsExpected > nodes.length
  · rw [if_pos hall, if_pos hall, take_length]
    exact ⟨le_refl _, rfl⟩
  rw [if_neg hall, if_neg hall]
  have hexp : (if settingsExpected ≤ 0 then 1 else settingsExpected.toNat) =
      (max settingsExpected 1).toNat := by split <;> omega
  have hle : (max settingsExpected 1).toNat ≤ nodes.length := by omega
  simp only [hexp]
  by_cases hbase : baselines = []
  · subst hbase
    exact ⟨hle, if_pos hle⟩
  · obtain ⟨b, hb, hcount⟩ := passBaselines_eq hsorted (max settingsExpected 1).toNat hbase
    have hbelow : below nodes b ≤ nodes.length := countP_le_length
    rw [if_neg (by simpa using hbase), hcount, hb]
    have hmax : (if settingsExpected > 0 ∧ below nodes b < (max settingsExpected 1).toNat then
        (max settingsExpected 1).toNat else below nodes b) =
        max (below nodes b) settingsExpected.toNat := by split <;> omega
    have hin : max (below nodes b) settingsExpected.toNat ≤ nodes.length := by omega
    rw [hmax]
    exact ⟨hin, if_pos hin⟩

theorem selectCount_perm {nodes' : List LoadNode} (hperm : nodes'.Perm nodes) (e : ℤ)
    (bs : List ℤ) : selectCount e bs nodes' = selectCount e bs nodes := by
  have hbelow : below nodes' = below nodes := funext fun b => hperm.countP_eq _
  simp only [selectCount, deciding, hbelow, hperm.length_eq]

/-- Nodes of distinct tags can be sorted in one way only. -/
theorem eq_of_distinct {nodes' : List LoadNode} (htags : (nodes.map LoadNode.tag).Nodup)
    (hperm : nodes'.Perm nodes) (hsorted' : LoadSorted nodes') (hsorted : LoadSorted nodes) :
    nodes' = nodes := by
  refine List.Perm.eq_of_pairwise (fun a b ha hb hab hba => ?_)
    (pairwise_map.mp (loadSorted_iff.mp hsorted'))
      (pairwise_map.mp (loadSorted_iff.mp hsorted)) hperm
  -- the tag is the last that the order compares
  have htag := congrArg (fun k => (ofLex (ofLex (ofLex (ofLex k).2).2).2).2) (le_antisymm hab hba)
  exact inj_on_of_nodup_map htags (hperm.mem_iff.mp ha) hb htag

/-- The selection is in range, has as many nodes as it should, and does not depend on the
    order of the nodes before they were sorted: up to their deviations, and not at all if
    their tags are distinct. -/
theorem selectLeastLoad_takes (hne : nodes ≠ []) (hsorted : LoadSorted nodes)
    (settingsExpected : ℤ) (baselines : List ℤ) :
    selectCount settingsExpected baselines nodes ≤ nodes.length ∧
      selectLeastLoad settingsExpected baselines nodes =
        some (nodes.take (selectCount settingsExpected baselines nodes)) ∧
      ∀ nodes', nodes'.Perm nodes → LoadSorted nodes' →
        (selectLeastLoad settingsExpected baselines nodes').map (List.map LoadNode.key) =
          (selectLeastLoad settingsExpected baselines nodes).map (List.map LoadNode.key) ∧
        ((nodes.map LoadNode.tag).Nodup → selectLeastLoad settingsExpected baselines nodes' =
          selectLeastLoad settingsExpected baselines nodes) := by
  obtain ⟨hle, heq⟩ := selectLeastLoad_eq hne hsorted settingsExpected baselines
  refine ⟨hle, heq, fun nodes' hperm hsorted' =>
    ⟨?_, fun htags => by rw [eq_of_distinct htags hperm hsorted' hsorted]⟩⟩
  have hne' : nodes' ≠ [] := fun h => hne (nil_perm.mp (h ▸ hperm))
  have hkeys : nodes'.map LoadNode.key = nodes.map LoadNode.key :=
    (hperm.map _).eq_of_pairwise' (loadSorted_iff.mp hsorted') (loadSorted_iff.mp hsorted)
  rw [heq, (selectLeastLoad_eq hne' hsorted' settingsExpected baselines).2,
    selectCount_perm hperm, Option.map_some, Option.map_some, map_take, map_take, hkeys]

/-- A node of one tag with some deviation and a cost. -/
def loadNode (deviation cost : ℤ) : LoadNode := ⟨"a", 1, 0, 20, deviation, cost⟩

theorem selectLeastLoad_takes_three :
    LoadSorted [loadNode 2 1, loadNode 4 2, loadNode 6 3] ∧
      selectLeastLoad 0 [2, 1, 3] [loadNode 2 1, loadNode 4 2, loadNode 6 3] =
        some [loadNode 2 1] :=
  have hsorted : LoadSorted [loadNode 2 1, loadNode 4 2, loadNode 6 3] := by
    unfold LoadSorted
    decide
  ⟨hsorted, (selectLeastLoad_takes (by decide) hsorted 0 [2, 1, 3]).2.1⟩

/-- Two nodes that differ in their deviations alone are sorted in both orders, and the first
    one is selected. -/
theorem selection_depends_on_order :
    LoadSorted [loadNode 2 1, loadNode 3 1] ∧ LoadSorted [loadNode 3 1, loadNode 2 1] ∧
      selectLeastLoad 1 [] [loadNode 2 1, loadNode 3 1] ≠
        selectLeastLoad 1 [] [loadNode 3 1, loadNode 2 1] := by
  unfold LoadSorted
  decide

end XrayCore.Router
