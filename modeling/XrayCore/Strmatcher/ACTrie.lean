/-
  XrayCore.Strmatcher.ACTrie

  The trie that the patterns make.

  A label for each node, the path that leads to it, says all there is to know about the
  edges (`Trie`), and the values of a node are those that were added for its label
  (`Holds`).  Adding a pattern keeps both; `Plain` is what else holds until the automaton
  is built.
-/

import XrayCore.Strmatcher.ACAutomaton
import XrayCore.Table.Buckets

namespace XrayCore.Strmatcher

open Table List Function

/-! ## Reading and writing nodes -/

@[simp] theorem AcNode.next_setEdge_self (n : AcNode) (a : Fin 39) (j : ℕ) (trie : Bool) :
    (n.setEdge a j trie).next a = j := update_self ..

theorem AcNode.next_setEdge_of_ne (n : AcNode) {a b : Fin 39} (h : b ≠ a) (j : ℕ) (trie : Bool) :
    (n.setEdge a j trie).next b = n.next b := update_of_ne h ..

@[simp] theorem AcNode.edge_setEdge_self (n : AcNode) (a : Fin 39) (j : ℕ) (trie : Bool) :
    (n.setEdge a j trie).edge a = trie := update_self ..

theorem AcNode.edge_setEdge_of_ne (n : AcNode) {a b : Fin 39} (h : b ≠ a) (j : ℕ) (trie : Bool) :
    (n.setEdge a j trie).edge b = n.edge b := update_of_ne h ..

namespace ACAutomaton

variable (ac : ACAutomaton)

@[simp] theorem size_addNode : ac.addNode.size = ac.size + 1 := by
  rw [size, addNode, length_append]
  rfl

@[simp] theorem size_modify (i : ℕ) (f : AcNode → AcNode) : (ac.modify i f).size = ac.size :=
  length_modify ..

@[simp] theorem node_addNode (i : ℕ) : ac.addNode.node i = ac.node i :=
  getD_append_default _ _ i

theorem node_modify_self {i : ℕ} (h : i < ac.size) (f : AcNode → AcNode) :
    (ac.modify i f).node i = f (ac.node i) :=
  getD_modify_self _ h f

theorem node_modify_of_ne {i j : ℕ} (h : j ≠ i) (f : AcNode → AcNode) :
    (ac.modify i f).node j = ac.node j :=
  getD_modify_of_ne _ _ h f

variable {ac' : ACAutomaton}

/-- The change of one node. -/
theorem modified {i : ℕ} (h : i < ac.size) {f : AcNode → AcNode} (hac : ac.modify i f = ac') :
    ac'.node i = f (ac.node i) ∧ (∀ j, j ≠ i → ac'.node j = ac.node j) ∧ ac'.size = ac.size ∧
      ac'.values = ac.values := by
  subst hac
  exact ⟨ac.node_modify_self h f, fun j hj => ac.node_modify_of_ne hj f, ac.size_modify i f, rfl⟩

/-- What the change of a node keeps of it is kept of all nodes. -/
theorem keeps {γ : Type} (g : AcNode → γ) {i : ℕ} (h : i < ac.size) {f : AcNode → AcNode}
    (hg : g (f (ac.node i)) = g (ac.node i)) (hac : ac.modify i f = ac') (j : ℕ) :
    g (ac'.node j) = g (ac.node j) := by
  obtain ⟨hself, hother, _⟩ := ac.modified h hac
  by_cases hj : j = i
  · rw [hj, hself, hg]
  · rw [hother j hj]

@[simp] theorem value_addMatchEntry (i : ℕ) : ac.addMatchEntry.value i = ac.value i :=
  getD_append_default _ _ i

theorem value_addValue_self {i : ℕ} (h : i < ac.values.length) (t : MatcherType) (v : UInt32) :
    (ac.addValue i t v).value i = update (ac.value i) t (ac.value i t ++ [v]) :=
  getD_modify_self _ h _

theorem value_addValue_of_ne {i j : ℕ} (h : j ≠ i) (t : MatcherType) (v : UInt32) :
    (ac.addValue i t v).value j = ac.value j :=
  getD_modify_of_ne _ _ h _

/-! ## The invariants -/

variable {ac}

/-- The labels of the nodes are the paths that lead to them. -/
structure Trie (ac : ACAutomaton) (label : ℕ → List (Fin 39)) : Prop where
  pos : 0 < ac.size
  root : label 0 = []
  child : ∀ i < ac.size, ∀ a, (ac.node i).edge a = true →
    (ac.node i).next a < ac.size ∧ label ((ac.node i).next a) = label i ++ [a]
  parent : ∀ j < ac.size, j ≠ 0 →
    ∃ i < ac.size, ∃ a, (ac.node i).edge a = true ∧ (ac.node i).next a = j
  inj : ∀ i < ac.size, ∀ j < ac.size, label i = label j → i = j

/-- Before the automaton is built there are no other edges and no fail path. -/
structure Plain (ac : ACAutomaton) : Prop where
  next : ∀ i < ac.size, ∀ a, (ac.node i).edge a = false → (ac.node i).next a = 0
  fail : ∀ i < ac.size, (ac.node i).fail = 0

/-- A value that was added for a path. -/
structure Entry where
  path : List (Fin 39)
  type : MatcherType
  value : UInt32
deriving DecidableEq

/-- The values of a type that were added for a path. -/
def valuesAt (entries : List Entry) (path : List (Fin 39)) (t : MatcherType) : List UInt32 :=
  (entries.filter fun e => e.path = path ∧ e.type = t).map Entry.value

/-- The values of a node are those that were added for its label. -/
structure Holds (ac : ACAutomaton) (label : ℕ → List (Fin 39)) (entries : List Entry) : Prop where
  found : ∀ e ∈ entries, ∃ i < ac.size, label i = e.path
  values : ∀ i < ac.size, ∀ t, ac.value (ac.node i).entry t = valuesAt entries (label i) t
  entry_lt : ∀ i < ac.size, (ac.node i).entry < ac.values.length
  entry_inj : ∀ i < ac.size, ∀ j < ac.size, (ac.node i).entry = (ac.node j).entry →
    (ac.node i).entry ≠ 0 → i = j
  zero : ∀ t, ac.value 0 t = []

/-- Only a node that something was added for has an entry of its own. -/
def Used (ac : ACAutomaton) (label : ℕ → List (Fin 39)) (entries : List Entry) : Prop :=
  ∀ i < ac.size, (ac.node i).entry ≠ 0 → ∃ e ∈ entries, e.path = label i

theorem trie_new : Trie new fun _ => [] where
  pos := Nat.zero_lt_one
  root := rfl
  child i hi a h := by
    obtain rfl : i = 0 := Nat.lt_one_iff.mp hi
    nomatch h
  parent j hj hne := absurd (Nat.lt_one_iff.mp hj) hne
  inj i hi j hj _ := (Nat.lt_one_iff.mp hi).trans (Nat.lt_one_iff.mp hj).symm

theorem plain_new : Plain new where
  next i hi a _ := by
    obtain rfl : i = 0 := Nat.lt_one_iff.mp hi
    rfl
  fail i hi := by
    obtain rfl : i = 0 := Nat.lt_one_iff.mp hi
    rfl

theorem holds_new : Holds new (fun _ => []) [] where
  found e he := nomatch he
  values i hi t := by
    obtain rfl : i = 0 := Nat.lt_one_iff.mp hi
    rfl
  entry_lt i hi := by
    obtain rfl : i = 0 := Nat.lt_one_iff.mp hi
    exact Nat.zero_lt_one
  entry_inj i hi j hj _ _ := (Nat.lt_one_iff.mp hi).trans (Nat.lt_one_iff.mp hj).symm
  zero t := rfl

theorem used_new : Used new (fun _ => []) [] := by
  intro i hi h
  obtain rfl : i = 0 := Nat.lt_one_iff.mp hi
  exact absurd rfl h

namespace Trie

variable {label : ℕ → List (Fin 39)}

/-- The root is no one's child. -/
theorem next_ne_zero (h : Trie ac label) {i : ℕ} (hi : i < ac.size) {a : Fin 39}
    (hedge : (ac.node i).edge a = true) : (ac.node i).next a ≠ 0 := by
  intro hzero
  have hlabel := (h.child i hi a hedge).2
  rw [hzero, h.root] at hlabel
  exact absurd hlabel.symm (by simp)

/-- Before the automaton is built all edges are edges of the trie. -/
theorem edge_iff (h : Trie ac label) (hplain : Plain ac) {i : ℕ} (hi : i < ac.size) {a : Fin 39} :
    (ac.node i).edge a = true ↔ (ac.node i).next a ≠ 0 := by
  refine ⟨h.next_ne_zero hi, fun hne => ?_⟩
  by_contra hedge
  exact hne (hplain.next i hi a (Bool.eq_false_iff.mpr hedge))

/-- A path that goes on from a node goes on along its edge. -/
theorem edge_of_label (h : Trie ac label) {i j : ℕ} (hi : i < ac.size) (hj : j < ac.size)
    {a : Fin 39} (hlabel : label j = label i ++ [a]) :
    (ac.node i).edge a = true ∧ (ac.node i).next a = j := by
  have hne : j ≠ 0 := by
    rintro rfl
    rw [h.root] at hlabel
    exact absurd hlabel.symm (by simp)
  obtain ⟨k, hk, b, hedge, hnext⟩ := h.parent j hj hne
  have hlabel' := (h.child k hk b hedge).2
  rw [hnext, hlabel] at hlabel'
  obtain ⟨hik, hab⟩ := append_inj' hlabel' rfl
  obtain rfl : i = k := h.inj i hi k hk hik
  obtain rfl : a = b := head_eq_of_cons_eq hab
  exact ⟨hedge, hnext⟩

end Trie

/-! ## Adding a pattern -/

/-- All that holds until the automaton is built. -/
structure Represents (ac : ACAutomaton) (label : ℕ → List (Fin 39)) (entries : List Entry) :
    Prop where
  trie : Trie ac label
  plain : Plain ac
  holds : Holds ac label entries
  used : Used ac label entries

theorem represents_new : Represents new (fun _ => []) [] :=
  ⟨trie_new, plain_new, holds_new, used_new⟩

section AddEdge

variable {label : ℕ → List (Fin 39)} {entries : List Entry} {i : ℕ} {a : Fin 39}

theorem size_addEdge : (ac.addEdge i a).size = ac.size + 1 := by
  rw [addEdge, size_modify, size_addNode]

theorem lt_size_addEdge {j : ℕ} (hj : j < (ac.addEdge i a).size) : j < ac.size ∨ j = ac.size := by
  rw [size_addEdge] at hj
  exact Nat.lt_succ_iff_lt_or_eq.mp hj

theorem node_addEdge_self (hi : i < ac.size) :
    (ac.addEdge i a).node i = (ac.node i).setEdge a ac.size true := by
  rw [addEdge, node_modify_self _ (by rw [size_addNode]; omega), node_addNode]

theorem node_addEdge_of_ne {j : ℕ} (h : j ≠ i) : (ac.addEdge i a).node j = ac.node j := by
  rw [addEdge, node_modify_of_ne _ h, node_addNode]

theorem node_size : ac.node ac.size = AcNode.zero := getD_eq_default _ _ (Nat.le_refl _)

theorem addEdge_keeps {γ : Type} (g : AcNode → γ) (hg : ∀ n j, g (n.setEdge a j true) = g n)
    (hi : i < ac.size) (j : ℕ) : g ((ac.addEdge i a).node j) = g (ac.node j) := by
  rw [← ac.node_addNode j]
  exact ac.addNode.keeps g (by rw [size_addNode]; omega) (hg ..) rfl j

theorem entry_addEdge (hi : i < ac.size) (j : ℕ) :
    ((ac.addEdge i a).node j).entry = (ac.node j).entry :=
  addEdge_keeps AcNode.entry (fun _ _ => rfl) hi j

/-- The edges after a new one: those that were there, and the new one. -/
theorem edge_addEdge (hi : i < ac.size) {j : ℕ} {b : Fin 39}
    (h : ((ac.addEdge i a).node j).edge b = true) :
    j = i ∧ b = a ∧ ((ac.addEdge i a).node j).next b = ac.size ∨
      ¬ (j = i ∧ b = a) ∧ (ac.node j).edge b = true ∧
        ((ac.addEdge i a).node j).next b = (ac.node j).next b := by
  by_cases hj : j = i
  · subst hj
    rw [node_addEdge_self hi] at h ⊢
    by_cases hb : b = a
    · subst hb
      exact .inl ⟨rfl, rfl, AcNode.next_setEdge_self ..⟩
    · rw [AcNode.edge_setEdge_of_ne _ hb] at h
      exact .inr ⟨fun hab => hb hab.2, h, AcNode.next_setEdge_of_ne _ hb ..⟩
  · rw [node_addEdge_of_ne hj] at h ⊢
    exact .inr ⟨fun hab => hj hab.1, h, rfl⟩

/-- An edge that was there stays. -/
theorem edge_addEdge_of_edge (hi : i < ac.size) (hnone : (ac.node i).edge a = false) {j : ℕ}
    {b : Fin 39} (h : (ac.node j).edge b = true) :
    ((ac.addEdge i a).node j).edge b = true ∧
      ((ac.addEdge i a).node j).next b = (ac.node j).next b := by
  by_cases hj : j = i
  · subst hj
    have hb : b ≠ a := by
      rintro rfl
      nomatch hnone.symm.trans h
    rw [node_addEdge_self hi]
    exact ⟨(AcNode.edge_setEdge_of_ne _ hb ..).trans h, AcNode.next_setEdge_of_ne _ hb ..⟩
  · rw [node_addEdge_of_ne hj]
    exact ⟨h, rfl⟩

/-- Labels with that of a new node. -/
abbrev newLabel (ac : ACAutomaton) (label : ℕ → List (Fin 39)) (i : ℕ) (a : Fin 39) :
    ℕ → List (Fin 39) :=
  update label ac.size (label i ++ [a])

theorem newLabel_of_lt {j : ℕ} (hj : j < ac.size) : ac.newLabel label i a j = label j :=
  update_of_ne (Nat.ne_of_lt hj) ..

theorem newLabel_size : ac.newLabel label i a ac.size = label i ++ [a] := update_self ..

theorem Trie.addEdge (h : Trie ac label) (hi : i < ac.size)
    (hnone : (ac.node i).edge a = false) : Trie (ac.addEdge i a) (ac.newLabel label i a) := by
  -- no node has the new label yet
  have hfree : ∀ j < ac.size, label j ≠ label i ++ [a] := by
    intro j hj hlabel
    nomatch hnone.symm.trans (h.edge_of_label hi hj hlabel).1
  constructor
  · rw [size_addEdge]
    exact Nat.succ_pos _
  · rw [newLabel_of_lt h.pos, h.root]
  · intro j hj b hedge
    rw [size_addEdge]
    rcases edge_addEdge hi hedge with ⟨rfl, rfl, hnext⟩ | ⟨_, hedge', hnext⟩
    · rw [hnext, newLabel_size, newLabel_of_lt hi]
      exact ⟨Nat.lt_succ_self _, rfl⟩
    · have hj' : j < ac.size := by
        rcases lt_size_addEdge hj with hj | rfl
        · exact hj
        · rw [node_size] at hedge'
          nomatch hedge'
      obtain ⟨hlt, hlabel⟩ := h.child j hj' b hedge'
      rw [hnext, newLabel_of_lt hlt, newLabel_of_lt hj']
      exact ⟨Nat.lt_succ_of_lt hlt, hlabel⟩
  · intro j hj hne
    rw [size_addEdge]
    rcases lt_size_addEdge hj with hj | rfl
    · obtain ⟨k, hk, b, hedge, hnext⟩ := h.parent j hj hne
      obtain ⟨hedge', hnext'⟩ := edge_addEdge_of_edge hi hnone hedge
      exact ⟨k, Nat.lt_succ_of_lt hk, b, hedge', hnext'.trans hnext⟩
    · refine ⟨i, Nat.lt_succ_of_lt hi, a, ?_, ?_⟩
      · rw [node_addEdge_self hi, AcNode.edge_setEdge_self]
      · rw [node_addEdge_self hi, AcNode.next_setEdge_self]
  · intro j hj k hk hlabel
    rcases lt_size_addEdge hj with hj | rfl
    · rcases lt_size_addEdge hk with hk | rfl
      · rw [newLabel_of_lt hj, newLabel_of_lt hk] at hlabel
        exact h.inj j hj k hk hlabel
      · rw [newLabel_of_lt hj, newLabel_size] at hlabel
        exact absurd hlabel (hfree j hj)
    · rcases lt_size_addEdge hk with hk | rfl
      · rw [newLabel_of_lt hk, newLabel_size] at hlabel
        exact absurd hlabel.symm (hfree k hk)
      · rfl

theorem Plain.addEdge (h : Plain ac) (hi : i < ac.size) : Plain (ac.addEdge i a) := by
  constructor
  · intro j hj b hedge
    by_cases hji : j = i
    · subst hji
      rw [node_addEdge_self hi] at hedge ⊢
      by_cases hb : b = a
      · subst hb
        nomatch (AcNode.edge_setEdge_self ..).symm.trans hedge
      · rw [AcNode.edge_setEdge_of_ne _ hb] at hedge
        rw [AcNode.next_setEdge_of_ne _ hb]
        exact h.next j hi b hedge
    · rw [node_addEdge_of_ne hji] at hedge ⊢
      rcases lt_size_addEdge hj with hj | rfl
      · exact h.next j hj b hedge
      · rw [node_size]
        rfl
  · intro j hj
    rw [addEdge_keeps AcNode.fail (fun _ _ => rfl) hi]
    rcases lt_size_addEdge hj with hj | rfl
    · exact h.fail j hj
    · rw [node_size]
      rfl

theorem Holds.addEdge (htrie : Trie ac label) (h : Holds ac label entries) (hi : i < ac.size)
    (hnone : (ac.node i).edge a = false) :
    Holds (ac.addEdge i a) (ac.newLabel label i a) entries := by
  have hentry := entry_addEdge (a := a) hi
  have hzero : (ac.node ac.size).entry = 0 := by
    rw [node_size]
    rfl
  constructor
  · intro e he
    obtain ⟨j, hj, hlabel⟩ := h.found e he
    refine ⟨j, ?_, ?_⟩
    · rw [size_addEdge]
      omega
    · rw [newLabel_of_lt hj, hlabel]
  · intro j hj t
    rw [hentry]
    show ac.value (ac.node j).entry t = _
    rcases lt_size_addEdge hj with hj | rfl
    · rw [newLabel_of_lt hj]
      exact h.values j hj t
    · -- nothing was added for the label of the new node
      rw [hzero, h.zero, newLabel_size, valuesAt, filter_eq_nil_iff.mpr, map_nil]
      intro e he hpath
      obtain ⟨j, hj, hlabel⟩ := h.found e he
      rw [decide_eq_true_iff] at hpath
      nomatch hnone.symm.trans (htrie.edge_of_label hi hj (hlabel.trans hpath.1)).1
  · intro j hj
    rw [hentry]
    rcases lt_size_addEdge hj with hj | rfl
    · exact h.entry_lt j hj
    · rw [hzero]
      exact Nat.zero_lt_of_lt (h.entry_lt i hi)
  · intro j hj k hk heq hne
    rw [hentry, hentry] at heq
    rw [hentry] at hne
    rcases lt_size_addEdge hj with hj | rfl
    · rcases lt_size_addEdge hk with hk | rfl
      · exact h.entry_inj j hj k hk heq hne
      · exact absurd (heq.trans hzero) hne
    · exact absurd hzero hne
  · exact h.zero

theorem Used.addEdge (h : Used ac label entries) (hi : i < ac.size) :
    Used (ac.addEdge i a) (ac.newLabel label i a) entries := by
  intro j hj hne
  rw [entry_addEdge hi] at hne
  rcases lt_size_addEdge hj with hj | rfl
  · rw [newLabel_of_lt hj]
    exact h j hj hne
  · rw [node_size] at hne
    exact absurd rfl hne

theorem Represents.addEdge (h : Represents ac label entries) (hi : i < ac.size)
    (hnext : (ac.node i).next a = 0) :
    Represents (ac.addEdge i a) (ac.newLabel label i a) entries := by
  have hnone : (ac.node i).edge a = false := by
    rw [Bool.eq_false_iff, Ne, h.trie.edge_iff h.plain hi]
    exact not_not.mpr hnext
  exact ⟨h.trie.addEdge hi hnone, h.plain.addEdge hi, h.holds.addEdge h.trie hi hnone,
    h.used.addEdge hi⟩

end AddEdge

/-- The node of a path is there after the descent, and the labels are those that were there. -/
theorem exists_descend {entries : List Entry} (path : List (Fin 39)) {ac : ACAutomaton}
    {label : ℕ → List (Fin 39)} (h : Represents ac label entries) {i : ℕ} (hi : i < ac.size) :
    ∃ label', Represents (ac.descend i path).1 label' entries ∧
      (ac.descend i path).2 < (ac.descend i path).1.size ∧
      label' (ac.descend i path).2 = label i ++ path ∧
      (∀ j < ac.size, label' j = label j) ∧
      ∀ j < (ac.descend i path).1.size, j < ac.size ∨ label' j <+: label i ++ path := by
  induction path generalizing ac label i with
  | nil =>
    rw [append_nil]
    exact ⟨label, h, hi, rfl, fun _ _ => rfl, fun j hj => .inl hj⟩
  | cons a path ih =>
    rw [descend]
    split
    · next hnext =>
      have hlast : ac.size < (ac.addEdge i a).size := by
        rw [size_addEdge]
        exact Nat.lt_succ_self _
      obtain ⟨label', hrep, hlt, hlabel, hkeep, hnew⟩ := ih (h.addEdge hi hnext) hlast
      rw [newLabel_size, append_assoc] at hlabel hnew
      refine ⟨label', hrep, hlt, hlabel, fun j hj => ?_, fun j hj => ?_⟩
      · rw [hkeep j (Nat.lt_trans hj hlast), newLabel_of_lt hj]
      · rcases hnew j hj with hj | hlabel'
        · -- the node is old, or the one just added
          rcases lt_size_addEdge hj with hj | rfl
          · exact .inl hj
          · rw [hkeep _ hlast, newLabel_size]
            exact .inr ⟨path, append_assoc ..⟩
        · exact .inr hlabel'
    · next hnext =>
      obtain ⟨hlt, hchild⟩ := h.trie.child i hi a ((h.trie.edge_iff h.plain hi).mpr hnext)
      obtain ⟨label', hrep, hlt', hlabel, hkeep, hnew⟩ := ih h hlt
      rw [hchild, append_assoc] at hlabel hnew
      exact ⟨label', hrep, hlt', hlabel, hkeep, hnew⟩

/-! ## Registering a value -/

variable {label : ℕ → List (Fin 39)} {entries : List Entry} {i : ℕ}

/-- The values are a matter of the entries. -/
theorem Holds.congr (h : Holds ac label entries) (hsize : ac'.size = ac.size)
    (hentry : ∀ i, (ac'.node i).entry = (ac.node i).entry) (hvalues : ac'.values = ac.values) :
    Holds ac' label entries := by
  have hvalue : ∀ i, ac'.value i = ac.value i := fun i => by rw [value, value, hvalues]
  refine ⟨?_, ?_, ?_, ?_, ?_⟩
  · rw [hsize]
    exact h.found
  · intro i hi t
    rw [hentry, hvalue]
    exact h.values i (hsize ▸ hi) t
  · intro i hi
    rw [hentry, hvalues]
    exact h.entry_lt i (hsize ▸ hi)
  · intro i hi j hj
    rw [hentry, hentry]
    exact h.entry_inj i (hsize ▸ hi) j (hsize ▸ hj)
  · intro t
    rw [hvalue]
    exact h.zero t

theorem Used.congr (h : Used ac label entries) (hsize : ac'.size = ac.size)
    (hentry : ∀ i, (ac'.node i).entry = (ac.node i).entry) : Used ac' label entries := by
  intro i hi
  rw [hentry]
  exact h i (hsize ▸ hi)

/-- Two automata with the same edges and fail paths. -/
structure SameEdges (ac ac' : ACAutomaton) : Prop where
  size : ac'.size = ac.size
  next : ∀ i, (ac'.node i).next = (ac.node i).next
  edge : ∀ i, (ac'.node i).edge = (ac.node i).edge
  fail : ∀ i, (ac'.node i).fail = (ac.node i).fail

/-- A trie is a matter of its trie edges. -/
theorem Trie.congr (h : Trie ac label) (hsize : ac'.size = ac.size)
    (hedge : ∀ i, (ac'.node i).edge = (ac.node i).edge)
    (hnext : ∀ i a, (ac.node i).edge a = true → (ac'.node i).next a = (ac.node i).next a) :
    Trie ac' label where
  pos := hsize ▸ h.pos
  root := h.root
  child i hi a hchild := by
    rw [hsize] at hi ⊢
    rw [hedge] at hchild
    rw [hnext i a hchild]
    exact h.child i hi a hchild
  parent j hj hne := by
    rw [hsize] at hj ⊢
    obtain ⟨i, hi, a, hchild, hj⟩ := h.parent j hj hne
    refine ⟨i, hi, a, ?_, ?_⟩
    · rw [hedge]
      exact hchild
    · rw [hnext i a hchild]
      exact hj
  inj i hi j hj := h.inj i (hsize ▸ hi) j (hsize ▸ hj)

theorem Trie.of_sameEdges (h : Trie ac label) (hsame : SameEdges ac ac') : Trie ac' label :=
  h.congr hsame.size hsame.edge fun i a _ => congrFun (hsame.next i) a

theorem Plain.of_sameEdges (h : Plain ac) (hsame : SameEdges ac ac') : Plain ac' where
  next i hi a hedge := by
    rw [hsame.edge] at hedge
    rw [hsame.next]
    exact h.next i (hsame.size ▸ hi) a hedge
  fail i hi := by
    rw [hsame.fail]
    exact h.fail i (hsame.size ▸ hi)

theorem valuesAt_append (path : List (Fin 39)) (t : MatcherType) (e : Entry) :
    valuesAt (entries ++ [e]) path t =
      valuesAt entries path t ++ if e.path = path ∧ e.type = t then [e.value] else [] := by
  rw [valuesAt, valuesAt, filter_append, map_append, filter_singleton]
  by_cases h : e.path = path ∧ e.type = t
  · rw [if_pos h, decide_eq_true h]
    rfl
  · rw [if_neg h, decide_eq_false h]
    rfl

/-- A value at a node that has an entry of its own. -/
theorem Holds.addValue (h : Holds ac label entries)
    (hinj : ∀ j < ac.size, ∀ k < ac.size, label j = label k → j = k) (hi : i < ac.size)
    (hne : (ac.node i).entry ≠ 0) (t : MatcherType) (v : UInt32) :
    Holds (ac.addValue (ac.node i).entry t v) label (entries ++ [⟨label i, t, v⟩]) := by
  refine ⟨?_, ?_, ?_, h.entry_inj, ?_⟩
  · exact forall_mem_append.mpr ⟨h.found, forall_mem_singleton.mpr ⟨i, hi, rfl⟩⟩
  · intro j hj t'
    show (ac.addValue (ac.node i).entry t v).value (ac.node j).entry t' = _
    rw [valuesAt_append]
    by_cases hji : j = i
    · subst hji
      rw [value_addValue_self _ (h.entry_lt j hj)]
      by_cases ht : t = t'
      · subst ht
        rw [update_self, h.values j hj, if_pos ⟨rfl, rfl⟩]
      · rw [update_of_ne (Ne.symm ht), h.values j hj, if_neg fun hp => ht hp.2,
          append_nil]
    · have hentry : (ac.node j).entry ≠ (ac.node i).entry := fun heq =>
        hji (h.entry_inj i hi j hj heq.symm hne).symm
      rw [value_addValue_of_ne _ hentry, h.values j hj,
        if_neg fun hp => hji (hinj i hi j hj hp.1).symm, append_nil]
  · intro j hj
    show (ac.node j).entry < (ac.values.modify _ _).length
    rw [length_modify]
    exact h.entry_lt j hj
  · intro t'
    rw [value_addValue_of_ne _ (Ne.symm hne)]
    exact h.zero t'

theorem sameEdges_newEntry (ac : ACAutomaton) (hi : i < ac.size) :
    SameEdges ac (ac.newEntry i) where
  size := size_modify ..
  next := ac.addMatchEntry.keeps AcNode.next hi rfl rfl
  edge := ac.addMatchEntry.keeps AcNode.edge hi rfl rfl
  fail := ac.addMatchEntry.keeps AcNode.fail hi rfl rfl

theorem entry_newEntry_self (ac : ACAutomaton) (hi : i < ac.size) :
    ((ac.newEntry i).node i).entry = ac.values.length :=
  congrArg AcNode.entry (node_modify_self ac.addMatchEntry hi _)

theorem node_newEntry_of_ne (ac : ACAutomaton) {i j : ℕ} (h : j ≠ i) :
    (ac.newEntry i).node j = ac.node j :=
  node_modify_of_ne _ h _

theorem value_newEntry (ac : ACAutomaton) (i j : ℕ) : (ac.newEntry i).value j = ac.value j :=
  value_addMatchEntry ac j

/-- A node gets an entry of its own, which has no values yet. -/
theorem Holds.newEntry (h : Holds ac label entries) (hi : i < ac.size)
    (hzero : (ac.node i).entry = 0) : Holds (ac.newEntry i) label entries := by
  have hsize : (ac.newEntry i).size = ac.size := size_modify ..
  have hlength : (ac.newEntry i).values.length = ac.values.length + 1 := by
    show (ac.values ++ [_]).length = _
    rw [length_append]
    rfl
  have hfree : ∀ j < ac.size, (ac.node j).entry ≠ ac.values.length := fun j hj =>
    Nat.ne_of_lt (h.entry_lt j hj)
  constructor
  · rw [hsize]
    exact h.found
  · intro j hj t
    rw [hsize] at hj
    rw [value_newEntry]
    by_cases hji : j = i
    · subst hji
      rw [entry_newEntry_self ac hj, ← h.values j hj, hzero, h.zero, value,
        getD_eq_default _ _ (Nat.le_refl _)]
    · rw [node_newEntry_of_ne ac hji]
      exact h.values j hj t
  · intro j hj
    rw [hsize] at hj
    rw [hlength]
    by_cases hji : j = i
    · subst hji
      rw [entry_newEntry_self ac hj]
      exact Nat.lt_succ_self _
    · rw [node_newEntry_of_ne ac hji]
      exact Nat.lt_succ_of_lt (h.entry_lt j hj)
  · intro j hj k hk heq hne
    rw [hsize] at hj hk
    by_cases hji : j = i
    · subst hji
      by_cases hkj : k = j
      · exact hkj.symm
      · rw [entry_newEntry_self ac hj, node_newEntry_of_ne ac hkj] at heq
        exact absurd heq.symm (hfree k hk)
    · by_cases hki : k = i
      · subst hki
        rw [entry_newEntry_self ac hk, node_newEntry_of_ne ac hji] at heq
        exact absurd heq (hfree j hj)
      · rw [node_newEntry_of_ne ac hji, node_newEntry_of_ne ac hki] at heq
        rw [node_newEntry_of_ne ac hji] at hne
        exact h.entry_inj j hj k hk heq hne
  · intro t
    rw [value_newEntry]
    exact h.zero t

theorem Represents.register (h : Represents ac label entries) (hi : i < ac.size) (t : MatcherType)
    (v : UInt32) : Represents (ac.register i t v) label (entries ++ [⟨label i, t, v⟩]) := by
  rw [ACAutomaton.register]
  split
  · next hzero =>
    have hsame := sameEdges_newEntry ac hi
    have hne : ((ac.newEntry i).node i).entry ≠ 0 := by
      rw [entry_newEntry_self ac hi]
      exact Nat.ne_of_gt (Nat.zero_lt_of_lt (h.holds.entry_lt i hi))
    have hsame' : SameEdges ac ((ac.newEntry i).addValue ((ac.newEntry i).node i).entry t v) :=
      ⟨hsame.size, hsame.next, hsame.edge, hsame.fail⟩
    refine ⟨h.trie.of_sameEdges hsame', h.plain.of_sameEdges hsame',
      (h.holds.newEntry hi hzero).addValue ?_ (hsame.size ▸ hi) hne t v, fun j hj hused => ?_⟩
    · rw [hsame.size]
      exact h.trie.inj
    · by_cases hji : j = i
      · subst hji
        exact ⟨_, mem_append_right _ (mem_singleton_self _), rfl⟩
      · have hused : ((ac.newEntry i).node j).entry ≠ 0 := hused
        rw [node_newEntry_of_ne ac hji] at hused
        obtain ⟨e, he, hpath⟩ := h.used j (hsame.size ▸ hj) hused
        exact ⟨e, mem_append_left _ he, hpath⟩
  · next hne =>
    have hsame : SameEdges ac (ac.addValue (ac.node i).entry t v) :=
      ⟨rfl, fun _ => rfl, fun _ => rfl, fun _ => rfl⟩
    refine ⟨h.trie.of_sameEdges hsame, h.plain.of_sameEdges hsame,
      h.holds.addValue h.trie.inj hi hne t v, fun j hj hused => ?_⟩
    obtain ⟨e, he, hpath⟩ := h.used j hj hused
    exact ⟨e, mem_append_left _ he, hpath⟩

theorem size_register (ac : ACAutomaton) (i : ℕ) (t : MatcherType) (v : UInt32) :
    (ac.register i t v).size = ac.size := by
  rw [ACAutomaton.register]
  split
  · exact size_modify ..
  · rfl

/-- A node is on the path of something that was added. -/
def Needed (ac : ACAutomaton) (label : ℕ → List (Fin 39)) (entries : List Entry) : Prop :=
  ∀ i < ac.size, label i = [] ∨ ∃ e ∈ entries, label i <+: e.path

/-- A pattern is added below a node. -/
theorem exists_addPattern (h : Represents ac label entries) (hneeded : Needed ac label entries)
    (hi : i < ac.size) (pattern : Bytes) (t : MatcherType) (v : UInt32) :
    ∃ label', Represents (ac.addPattern i pattern t v).1 label'
        (entries ++ [⟨label i ++ letters pattern, t, v⟩]) ∧
      Needed (ac.addPattern i pattern t v).1 label'
        (entries ++ [⟨label i ++ letters pattern, t, v⟩]) ∧
      (ac.addPattern i pattern t v).2 < (ac.addPattern i pattern t v).1.size ∧
      label' (ac.addPattern i pattern t v).2 = label i ++ letters pattern := by
  obtain ⟨label', hrep, hlt, hlabel, hkeep, hnew⟩ := exists_descend (letters pattern) h hi
  have hregister := hrep.register hlt t v
  have hsize := size_register (ac.descend i (letters pattern)).1
    (ac.descend i (letters pattern)).2 t v
  rw [hlabel] at hregister
  refine ⟨label', hregister, fun j hj => ?_, ?_, hlabel⟩
  · rcases hnew j (hsize ▸ hj) with hj | hpath
    · rw [hkeep j hj]
      rcases hneeded j hj with hnil | ⟨e, he, hpath⟩
      · exact .inl hnil
      · exact .inr ⟨e, mem_append_left _ he, hpath⟩
    · exact .inr ⟨_, mem_append_right _ (mem_singleton_self _), hpath⟩
  · show _ < ((ac.descend i (letters pattern)).1.register _ t v).size
    rw [hsize]
    exact hlt

/-- What is added for a matcher. -/
def entriesOf (m : Matcher) (v : UInt32) : List Entry :=
  ⟨letters m.pattern, m.type, v⟩ ::
    if m.type = .domain then [⟨letters m.pattern ++ [acCharset dot], m.type, v⟩] else []

/-- A matcher is added. -/
theorem exists_add (h : Represents ac label entries) (hneeded : Needed ac label entries)
    (m : Matcher) (v : UInt32) :
    ∃ label', Represents (ac.add m v) label' (entries ++ entriesOf m v) ∧
      Needed (ac.add m v) label' (entries ++ entriesOf m v) := by
  obtain ⟨label', hrep, hneeded', hlt, hlabel⟩ :=
    exists_addPattern h hneeded h.trie.pos m.pattern m.type v
  rw [h.trie.root, nil_append] at hrep hneeded' hlabel
  rw [add, entriesOf]
  by_cases htype : m.type = .domain
  · -- a dot in front of the pattern, for the parts of a domain
    obtain ⟨label'', hrep', hneeded'', _⟩ := exists_addPattern hrep hneeded' hlt [dot] m.type v
    rw [hlabel, append_assoc] at hrep' hneeded''
    rw [if_pos htype]
    rw [htype] at hrep' hneeded'' ⊢
    exact ⟨label'', hrep', hneeded''⟩
  · rw [if_neg htype]
    cases htype' : m.type with
    | full | substr =>
      rw [htype'] at hrep hneeded'
      exact ⟨label', hrep, hneeded'⟩
    | domain => exact absurd htype' htype

/-- What is added for some matchers. -/
def entriesOfAll (ms : List (Matcher × UInt32)) : List Entry :=
  ms.flatMap fun m => entriesOf m.1 m.2

theorem exists_ofMatchers (ms : List (Matcher × UInt32)) :
    ∃ label, Represents (ofMatchers ms) label (entriesOfAll ms) ∧
      Needed (ofMatchers ms) label (entriesOfAll ms) := by
  -- the matchers are added one by one to those that are there
  suffices hfold : ∀ (ms : List (Matcher × UInt32)) (ac : ACAutomaton) label entries,
      Represents ac label entries → Needed ac label entries → ∃ label',
        Represents (ms.foldl (fun ac m => ac.add m.1 m.2) ac) label' (entries ++ entriesOfAll ms) ∧
        Needed (ms.foldl (fun ac m => ac.add m.1 m.2) ac) label' (entries ++ entriesOfAll ms) from
    hfold ms new _ [] represents_new fun _ _ => .inl rfl
  intro ms
  induction ms with
  | nil =>
    intro ac label entries h hneeded
    rw [entriesOfAll, flatMap_nil, append_nil]
    exact ⟨label, h, hneeded⟩
  | cons m ms ih =>
    intro ac label entries h hneeded
    obtain ⟨label', h', hneeded'⟩ := exists_add h hneeded m.1 m.2
    obtain ⟨label'', h'', hneeded''⟩ := ih _ label' _ h' hneeded'
    rw [append_assoc] at h'' hneeded''
    exact ⟨label'', h'', hneeded''⟩

/-! ## The words of the trie -/

/-- The words that lead to a node. -/
def IsWord (entries : List Entry) (w : List (Fin 39)) : Prop :=
  w = [] ∨ ∃ e ∈ entries, w <+: e.path

instance (entries : List Entry) : DecidablePred (IsWord entries) := fun _ =>
  inferInstanceAs (Decidable (_ ∨ ∃ e ∈ entries, _))

theorem isWord_nil (entries : List Entry) : IsWord entries [] := .inl rfl

theorem isWord_of_append {w : List (Fin 39)} {a : Fin 39} (h : IsWord entries (w ++ [a])) :
    IsWord entries w := by
  rcases h with h | ⟨e, he, hpath⟩
  · exact absurd h (by simp)
  · exact .inr ⟨e, he, (prefix_append w [a]).trans hpath⟩

/-- The beginnings of the label of a node are labels. -/
theorem Trie.exists_label_of_beginning {ac : ACAutomaton} (h : Trie ac label) (w : List (Fin 39)) :
    ∀ j < ac.size, w <+: label j → ∃ i < ac.size, label i = w := by
  intro j hj hw
  induction hn : (label j).length generalizing j with
  | zero =>
    rw [eq_nil_of_length_eq_zero hn] at hw
    exact ⟨0, h.pos, h.root.trans (prefix_nil.mp hw).symm⟩
  | succ n ih =>
    have hne : j ≠ 0 := by
      rintro rfl
      rw [h.root] at hn
      nomatch hn
    obtain ⟨k, hk, a, hedge, rfl⟩ := h.parent j hj hne
    obtain ⟨_, hlabel⟩ := h.child k hk a hedge
    rw [hlabel] at hw hn
    rcases prefix_concat_iff.mp hw with rfl | hw
    · exact ⟨_, hj, hlabel⟩
    · rw [length_append] at hn
      exact ih k hk hw (Nat.succ.inj hn)

theorem Represents.isWord_iff (h : Represents ac label entries)
    (hneeded : Needed ac label entries) (w : List (Fin 39)) :
    IsWord entries w ↔ ∃ i < ac.size, label i = w := by
  constructor
  · rintro (rfl | ⟨e, he, hpath⟩)
    · exact ⟨0, h.trie.pos, h.trie.root⟩
    · obtain ⟨j, hj, hlabel⟩ := h.holds.found e he
      rw [← hlabel] at hpath
      exact h.trie.exists_label_of_beginning w j hj hpath
  · rintro ⟨i, hi, rfl⟩
    exact hneeded i hi

end ACAutomaton

end XrayCore.Strmatcher
