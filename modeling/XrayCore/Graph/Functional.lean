/-
  XrayCore.Graph.Functional

  Graphs in which each vertex has at most one edge, `next.lookup v`.

  `functionalCycles` walks from every vertex until it meets one whose walk is
  done, one of its own walk, or the end.

    * `functionalCycles_spec`: what it finds are cycles, no two of them meet, and
      every vertex that is on a cycle is on one of them.
    * `functionalCycles_eq_nil_iff`: it finds nothing exactly when the graph has no
      cycle.
-/

import XrayCore.Graph.Cycle

namespace XrayCore.Graph

open Relation List Option

variable {V : Type} [LinearOrder V]

/-! ## The walks -/

/-- The walk that has come to `v`, the vertices of `done` known: the vertices it
    passed, and the cycle it ran into.  Every turn takes one from `fuel`. -/
def walkFrom (next : AList (fun _ : V => V)) (done : List V) :
    ℕ → List V → V → List V × Option (List V)
  | 0, walk, _ => (walk, none)
  | fuel + 1, walk, v =>
    if v ∈ done then (walk, none)
    else if v ∈ walk then (walk, some (walk.dropWhile (· ≠ v)))
    else match next.lookup v with
      | none => (walk ++ [v], none)
      | some w => walkFrom next done fuel (walk ++ [v]) w

/-- The walks from the vertices of `starts`. -/
def walkAll (next : AList (fun _ : V => V)) : List V → List V → List (List V)
  | [], _ => []
  | start :: starts, done =>
    let r := walkFrom next done (next.keys.length + 2) [] start
    r.2.toList ++ walkAll next starts (done ++ r.1)

/-- The cycles, in the order in which the walks from the sorted vertices meet
    them. -/
def functionalCycles (next : AList (fun _ : V => V)) : List (List V) :=
  walkAll next (next.keys.insertionSort (· ≤ ·)) []

/-- The edges of the graph. -/
def Next (next : AList (fun _ : V => V)) (x y : V) : Prop := next.lookup x = some y

/-! ## Walks that end -/

/-- The walk from `v` comes to a vertex without an edge. -/
inductive Ends (next : AList (fun _ : V => V)) : V → Prop
  | stop {v : V} (h : next.lookup v = none) : Ends next v
  | go {v w : V} (h : next.lookup v = some w) (hw : Ends next w) : Ends next v

variable {next : AList (fun _ : V => V)}

variable {v : V}

/-- A walk that ends is on no cycle. -/
theorem Ends.not_cycle (h : Ends next v) : ¬ TransGen (Next next) v v := by
  induction h with
  | stop h =>
    intro hcycle
    obtain ⟨w, hw, -⟩ := TransGen.head'_iff.mp hcycle
    rw [Next, h] at hw
    simp at hw
  | @go v w h _ ih =>
    intro hcycle
    obtain ⟨w', hw', hrest⟩ := TransGen.head'_iff.mp hcycle
    obtain rfl : w = w' := by
      rw [Next, h] at hw'
      simpa using hw'
    exact ih (TransGen.tail' hrest h)

variable {x : V}

/-- Where a walk comes to a vertex that ends, all of it ends. -/
theorem Ends.of_reach (h : ReflTransGen (Next next) x v) (hv : Ends next v) : Ends next x := by
  induction h using ReflTransGen.head_induction_on with
  | refl => exact hv
  | head hstep _ ih => exact .go hstep ih

/-! ## Cycles -/

/-- The vertices of a cycle, in the order of its edges. -/
structure IsCycle (next : AList (fun _ : V => V)) (c : List V) : Prop where
  ne_nil : c ≠ []
  nodup : c.Nodup
  chain : Cycle.Chain (Next next) (c : Cycle V)

/-- The edge from the first vertex of a walk to `v`. -/
theorem chain_step {l : List V} (h : (x :: (l ++ [v])).IsChain (Next next)) :
    ∃ y ∈ l ++ [v], Next next x y ∧ ReflTransGen (Next next) y v := by
  obtain ⟨y, rest, hrest⟩ := exists_cons_of_ne_nil
    (append_ne_nil_of_right_ne_nil l (cons_ne_nil v []))
  rw [hrest, isChain_cons_cons] at h
  refine ⟨y, hrest ▸ mem_cons_self, h.1, ?_⟩
  apply relationReflTransGen_of_exists_isChain_cons rest h.2
  simp [← hrest]

variable {c : List V}

omit [LinearOrder V] in
theorem exists_rotated_cons (hx : x ∈ c) : ∃ l, c ~r x :: l := by
  obtain ⟨before, after, rfl⟩ := append_of_mem hx
  exact ⟨after ++ before, isRotated_append⟩

theorem IsCycle.rotated {c' : List V} (h : IsCycle next c) (hr : c ~r c') : IsCycle next c' where
  ne_nil hnil := h.ne_nil (isRotated_nil_iff.mp (hnil ▸ hr))
  nodup := hr.nodup_iff.mp h.nodup
  chain := Cycle.coe_eq_coe.mpr hr ▸ h.chain

/-- The edge of a cycle from `x`. -/
theorem IsCycle.step (h : IsCycle next c) (hx : x ∈ c) :
    ∃ y ∈ c, Next next x y ∧ ReflTransGen (Next next) y x := by
  obtain ⟨l, hr⟩ := exists_rotated_cons hx
  obtain ⟨y, hy, hstep⟩ := chain_step ((Cycle.chain_coe_cons _ _ _).mp (h.rotated hr).chain)
  refine ⟨y, hr.mem_iff.mpr ?_, hstep⟩
  rw [mem_append, mem_singleton] at hy
  exact mem_cons.mpr hy.symm

theorem IsCycle.transGen (h : IsCycle next c) (hx : x ∈ c) : TransGen (Next next) x x := by
  obtain ⟨y, -, hxy, hyx⟩ := h.step hx
  exact .head' hxy hyx

/-- Two walks from one vertex back to `v` are the same. -/
theorem chain_unique {l l' : List V} (h : (x :: (l ++ [v])).IsChain (Next next))
    (h' : (x :: (l' ++ [v])).IsChain (Next next)) (hv : v ∉ l) (hv' : v ∉ l') : l = l' := by
  induction l generalizing x l' with
  | nil =>
    cases l' with
    | nil => rfl
    | cons y l' =>
      obtain rfl : v = y := some.inj ((isChain_cons_cons.mp h).1.symm.trans
        (isChain_cons_cons.mp h').1)
      exact absurd mem_cons_self hv'
  | cons y l ih =>
    obtain ⟨hy, h⟩ := isChain_cons_cons.mp h
    cases l' with
    | nil =>
      obtain rfl : y = v := some.inj (hy.symm.trans (isChain_cons_cons.mp h').1)
      exact absurd mem_cons_self hv
    | cons y' l' =>
      obtain ⟨hy', h'⟩ := isChain_cons_cons.mp h'
      obtain rfl : y = y' := some.inj (hy.symm.trans hy')
      rw [ih h h' (not_mem_of_not_mem_cons hv) (not_mem_of_not_mem_cons hv')]

/-- There is one cycle from a vertex on. -/
theorem IsCycle.cons_unique {l l' : List V} (h : IsCycle next (x :: l))
    (h' : IsCycle next (x :: l')) : l = l' :=
  chain_unique ((Cycle.chain_coe_cons _ _ _).mp h.chain) ((Cycle.chain_coe_cons _ _ _).mp h'.chain)
    (nodup_cons.mp h.nodup).1 (nodup_cons.mp h'.nodup).1

/-- Cycles that meet are the same. -/
theorem IsCycle.isRotated {c' : List V} (h : IsCycle next c) (h' : IsCycle next c') (hx : x ∈ c)
    (hx' : x ∈ c') : c ~r c' := by
  obtain ⟨l, hr⟩ := exists_rotated_cons hx
  obtain ⟨l', hr'⟩ := exists_rotated_cons hx'
  rw [(h.rotated hr).cons_unique (h'.rotated hr')] at hr
  exact hr.trans hr'.symm

/-- No edge leads out of `s`. -/
def Closed (next : AList (fun _ : V => V)) (s : List V) : Prop :=
  ∀ x ∈ s, ∀ y, Next next x y → y ∈ s

theorem IsCycle.closed (h : IsCycle next c) : Closed next c := by
  intro x hx y hxy
  obtain ⟨y', hy', hxy', -⟩ := h.step hx
  rwa [some.inj (hxy.symm.trans hxy')]

/-- A vertex on a cycle is never left behind. -/
theorem reach_back {y : V} (hx : TransGen (Next next) x x) (hy : ReflTransGen (Next next) x y) :
    ReflTransGen (Next next) y x := by
  induction hy with
  | refl => exact .refl
  | tail _ hstep ih =>
    obtain ⟨z, hz, hback⟩ := TransGen.head'_iff.mp (TransGen.trans_right ih hx)
    rwa [some.inj (hstep.symm.trans hz)]

theorem Closed.mem_of_cycle {s : List V} (h : Closed next s) {y : V} (hx : TransGen (Next next) x x)
    (hy : ReflTransGen (Next next) x y) (hs : y ∈ s) : x ∈ s := by
  have hback := reach_back hx hy
  clear hx hy
  induction hback with
  | refl => exact hs
  | tail _ hstep ih => exact h _ ih _ hstep

/-! ## What the walks find -/

/-- What one walk keeps: it is a walk of the graph without repetition that no
    known vertex is on, and that leads to `v`. -/
structure Walking (next : AList (fun _ : V => V)) (walk : List V) (v : V) : Prop where
  chain : (walk ++ [v]).IsChain (Next next)
  nodup : walk.Nodup
  keys : ∀ x ∈ walk, x ∈ next.keys

variable {walk : List V}

theorem Walking.step {w : V} (h : Walking next walk v) (hv : v ∉ walk)
    (hw : next.lookup v = some w) : Walking next (walk ++ [v]) w := by
  refine ⟨?_, ?_, fun x hx => ?_⟩
  · rw [isChain_append]
    refine ⟨h.chain, isChain_singleton w, fun x hx y hy => ?_⟩
    simp only [getLast?_append, getLast?_singleton, some_or, mem_def,
      some.injEq, head?_cons] at hx hy
    subst hx hy
    exact hw
  · rw [nodup_append]
    refine ⟨h.nodup, nodup_singleton v, fun a ha b hb => ?_⟩
    rw [mem_singleton] at hb
    exact fun heq => hv (hb ▸ heq ▸ ha)
  · rw [mem_append, mem_singleton] at hx
    rcases hx with hx | rfl
    · exact h.keys x hx
    · exact AList.mem_keys.mp (AList.lookup_isSome.mp (by simp [hw]))

theorem Walking.edge (h : Walking next walk v) (hx : x ∈ walk) :
    ∃ y ∈ walk ++ [v], Next next x y ∧ ReflTransGen (Next next) y v := by
  obtain ⟨before, after, rfl⟩ := append_of_mem hx
  have hchain := h.chain
  rw [append_assoc, cons_append] at hchain
  obtain ⟨y, hy, hstep⟩ := chain_step (isChain_append.mp hchain).2.1
  refine ⟨y, ?_, hstep⟩
  rw [append_assoc]
  exact mem_append_right _ (mem_cons_of_mem _ hy)

theorem Walking.edge_mem {y : V} (h : Walking next walk v) (hx : x ∈ walk) (hxy : Next next x y) :
    y ∈ walk ++ [v] := by
  obtain ⟨y', hy', hxy', -⟩ := h.edge hx
  rwa [some.inj (hxy.symm.trans hxy')]

theorem Walking.reach (h : Walking next walk v) (hx : x ∈ walk) : ReflTransGen (Next next) x v := by
  obtain ⟨y, -, hxy, hyv⟩ := h.edge hx
  exact .head hxy hyv

/-- What a walk has found in the end: `walk` are the vertices that are new. -/
structure Found (next : AList (fun _ : V => V)) (done walk : List V) (res : Option (List V)) :
    Prop where
  fresh : walk.Disjoint done
  closed : Closed next (done ++ walk)
  cycle : ∀ c ∈ res, IsCycle next c ∧ c ⊆ walk
  complete : ∀ x ∈ walk, TransGen (Next next) x x → ∃ c ∈ res, x ∈ c

theorem Walking.closed {s : List V} (h : Walking next walk v) (hs : Closed next s)
    (hv : v ∈ s ++ walk) : Closed next (s ++ walk) := by
  intro x hx y hxy
  rcases mem_append.mp hx with hx | hx
  · exact mem_append_left _ (hs x hx y hxy)
  · rcases mem_append.mp (h.edge_mem hx hxy) with hy | hy
    · exact mem_append_right _ hy
    · rwa [mem_singleton.mp hy]

/-- The part of the walk from `v` on, where it has come back to `v`. -/
theorem Walking.isCycle (h : Walking next walk v) (hv : v ∈ walk) :
    IsCycle next (walk.dropWhile (· ≠ v)) ∧ v ∈ walk.dropWhile (· ≠ v) := by
  obtain ⟨before, after, rfl⟩ := append_of_mem hv
  have hbefore : ∀ x ∈ before, decide (x ≠ v) = true := by
    intro x hx
    rw [decide_eq_true_eq]
    rintro rfl
    exact (nodup_append.mp h.nodup).2.2 x hx x mem_cons_self rfl
  rw [dropWhile_append_of_pos hbefore, dropWhile_cons_of_neg (by simp)]
  refine ⟨⟨cons_ne_nil v after, (nodup_append.mp h.nodup).2.1, ?_⟩, mem_cons_self⟩
  have hchain := h.chain
  rw [append_assoc, cons_append] at hchain
  exact (isChain_append.mp hchain).2.1

/-- One walk. -/
theorem walkFrom_spec {done : List V} (hdone : Closed next done) :
    ∀ (fuel : ℕ) (walk : List V) (v : V), Walking next walk v → walk.Disjoint done →
      next.keys.length + 2 ≤ walk.length + fuel →
      Found next done (walkFrom next done fuel walk v).1 (walkFrom next done fuel walk v).2 ∧
      walk ⊆ (walkFrom next done fuel walk v).1 ∧
      v ∈ done ++ (walkFrom next done fuel walk v).1 := by
  intro fuel
  induction fuel with
  | zero =>
    intro walk v hwalk hfresh hfuel
    have := (hwalk.nodup.subperm hwalk.keys).length_le
    omega
  | succ fuel ih =>
    intro walk v hwalk hfresh hfuel
    rw [walkFrom]
    split_ifs with hin hmeet
    · have hv := mem_append_left walk hin
      refine ⟨⟨hfresh, hwalk.closed hdone hv, by simp, fun x hx hcycle => ?_⟩,
        List.Subset.refl _, hv⟩
      -- a cycle that leads to a known vertex is known itself
      exact absurd (hdone.mem_of_cycle hcycle (hwalk.reach hx) hin) (hfresh hx)
    · have hv := mem_append_right done hmeet
      obtain ⟨hcycle, hmem⟩ := hwalk.isCycle hmeet
      refine ⟨⟨hfresh, hwalk.closed hdone hv, ?_, fun x hx hx' => ?_⟩, List.Subset.refl _, hv⟩
      · rintro c ⟨⟩
        exact ⟨hcycle, dropWhile_subset _⟩
      · exact ⟨_, rfl, hcycle.closed.mem_of_cycle hx' (hwalk.reach hx) hmem⟩
    · have hfresh' : (walk ++ [v]).Disjoint done := by
        rw [disjoint_append_left, singleton_disjoint]
        exact ⟨hfresh, hin⟩
      cases hnext : next.lookup v with
      | none =>
        refine ⟨⟨hfresh', fun x hx y hxy => ?_, by simp, fun x hx hcycle => ?_⟩,
          subset_append_left _ _, by simp⟩
        · rw [mem_append, mem_append, mem_singleton] at hx
          rcases hx with hx | hx | rfl
          · exact mem_append_left _ (hdone x hx y hxy)
          · exact mem_append_right _ (hwalk.edge_mem hx hxy)
          · rw [Next, hnext] at hxy
            cases hxy
        · rw [mem_append, mem_singleton] at hx
          rcases hx with hx | rfl
          · exact absurd hcycle (Ends.of_reach (hwalk.reach hx) (.stop hnext)).not_cycle
          · exact absurd hcycle (Ends.stop hnext).not_cycle
      | some w =>
        obtain ⟨hfound, hsub, -⟩ := ih (walk ++ [v]) w (hwalk.step hmeet hnext) hfresh' (by
          rw [length_append, length_singleton]
          omega)
        refine ⟨hfound, fun x hx => hsub (mem_append_left _ hx), ?_⟩
        exact mem_append_right _ (hsub (by simp))

theorem walkAll_spec (next : AList (fun _ : V => V)) :
    ∀ (starts done : List V), Closed next done →
      (∀ c ∈ walkAll next starts done, IsCycle next c ∧ c.Disjoint done) ∧
      (walkAll next starts done).Pairwise List.Disjoint ∧
      ∀ x ∈ starts, x ∉ done → TransGen (Next next) x x →
        ∃ c ∈ walkAll next starts done, x ∈ c := by
  intro starts
  induction starts with
  | nil => simp [walkAll]
  | cons start starts ih =>
    intro done hdone
    obtain ⟨hfound, -, hstart⟩ := walkFrom_spec hdone (next.keys.length + 2) [] start
      ⟨by simp, by simp, by simp⟩ (by simp) (by simp)
    rw [walkAll]
    generalize walkFrom next done (next.keys.length + 2) [] start = r at hfound hstart
    obtain ⟨hcycles, hdisjoint, hcomplete⟩ := ih (done ++ r.1) hfound.closed
    simp only [disjoint_append_right] at hcycles
    refine ⟨fun c hc => ?_, pairwise_append.mpr ⟨?_, hdisjoint, fun c hc c' hc' => ?_⟩,
      fun x hx hnew hx' => ?_⟩
    · rcases mem_append.mp hc with hc | hc
      · obtain ⟨hcycle, hsub⟩ := hfound.cycle c (mem_toList.mp hc)
        exact ⟨hcycle, disjoint_of_subset_left hsub hfound.fresh⟩
      · exact ⟨(hcycles c hc).1, (hcycles c hc).2.1⟩
    · cases r.2 <;> simp
    · have hsub := (hfound.cycle c (mem_toList.mp hc)).2
      exact disjoint_of_subset_left hsub (hcycles c' hc').2.2.symm
    · by_cases hr : x ∈ r.1
      · obtain ⟨c, hc, hxc⟩ := hfound.complete x hr hx'
        exact ⟨c, mem_append_left _ (mem_toList.mpr hc), hxc⟩
      · have hnew' : x ∉ done ++ r.1 := by simp [hnew, hr]
        have hlater : x ∈ starts := by
          rcases mem_cons.mp hx with rfl | hx
          · exact absurd hstart hnew'
          · exact hx
        obtain ⟨c, hc, hxc⟩ := hcomplete x hlater hnew' hx'
        exact ⟨c, mem_append_right _ hc, hxc⟩

/-- **What is found are the cycles.**  No two of them meet, and no cycle is missing. -/
theorem functionalCycles_spec (next : AList (fun _ : V => V)) :
    (∀ c ∈ functionalCycles next, IsCycle next c) ∧
    (functionalCycles next).Pairwise List.Disjoint ∧
    ∀ x, TransGen (Next next) x x → ∃ c ∈ functionalCycles next, x ∈ c := by
  obtain ⟨hcycles, hdisjoint, hcomplete⟩ :=
    walkAll_spec next (next.keys.insertionSort (· ≤ ·)) [] (by simp [Closed])
  refine ⟨fun c hc => (hcycles c hc).1, hdisjoint, fun x hx => hcomplete x ?_ (by simp) hx⟩
  obtain ⟨y, hy, -⟩ := TransGen.head'_iff.mp hx
  rw [mem_insertionSort]
  exact AList.mem_keys.mp (AList.lookup_isSome.mp (by rw [Next] at hy; simp [hy]))

/-- No cycle is found exactly when there is none. -/
theorem functionalCycles_eq_nil_iff (next : AList (fun _ : V => V)) :
    functionalCycles next = [] ↔ Acyclic (Next next) := by
  obtain ⟨hcycles, -, hcomplete⟩ := functionalCycles_spec next
  refine ⟨fun hres x hx => ?_, fun hacyclic => ?_⟩
  · obtain ⟨c, hc, -⟩ := hcomplete x hx
    rw [hres] at hc
    cases hc
  · refine eq_nil_iff_forall_not_mem.mpr fun c hc => ?_
    obtain ⟨x, hx⟩ := exists_mem_of_ne_nil c (hcycles c hc).ne_nil
    exact hacyclic x ((hcycles c hc).transGen hx)

end XrayCore.Graph
