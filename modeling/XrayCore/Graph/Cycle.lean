/-
  XrayCore.Graph.Cycle

  Cycles of a graph with labelled edges.

    * `shortestCycle` is the breadth-first search for a cycle through the first
      vertex of a component, with the parents it walks back along.
    * `acyclic_iff` joins it with `components`: a graph has a cycle exactly when
      the search finds one in some strongly connected component.
    * `chain_length_le` bounds the walks of a graph without cycles.
-/

import XrayCore.Graph.Tarjan

namespace XrayCore.Graph

open Relation Machine List

variable {V E : Type} [LinearOrder V]

-- what tests of membership rest on
scoped instance lawfulBEqVertex : LawfulBEq V := inferInstance

/-! ## The search -/

/-- The vertices that wait, and how every vertex but the first was found:
    from which one, by which edge. -/
structure Search (V E : Type) where
  queue : List V
  parent : AList (fun _ : V => V × E)

/-- The edges `es` of `v`: `inl` is an edge back to `start`, with the parents
    known by then. -/
def Search.scan (dst : E → V) (component : List V) (start v : V) :
    List E → Search V E → (E × AList (fun _ : V => V × E)) ⊕ Search V E
  | [], s => .inr s
  | e :: es, s =>
    if dst e ∉ component then scan dst component start v es s
    else if dst e = start then .inl (e, s.parent)
    else if dst e ∈ s.parent then scan dst component start v es s
    else scan dst component start v es
      { queue := s.queue ++ [dst e], parent := s.parent.insert (dst e) (v, e) }

/-- The edges by which `v` was found, the last one first. -/
def walkBack (start : V) (parent : AList (fun _ : V => V × E)) : ℕ → V → List E
  | 0, _ => []
  | fuel + 1, v =>
    if v = start then [] else
      match parent.lookup v with
      | none => []
      | some (u, e) => e :: walkBack start parent fuel u

/-- The loop over the queue. -/
def Search.run (edges : V → List E) (dst : E → V) (component : List V) (start : V) :
    ℕ → Search V E → Option (List E)
  | 0, _ => none
  | fuel + 1, s =>
    match s.queue with
    | [] => none
    | v :: queue =>
      match scan dst component start v (edges v) { s with queue := queue } with
      | .inl (e, parent) =>
        some ((walkBack start parent (parent.keys.length + 1) v).reverse.concat e)
      | .inr s => run edges dst component start fuel s

/-- The shortest cycle through the first vertex of `component` that stays in
    `component`, as the list of its edges. -/
def shortestCycle (edges : V → List E) (dst : E → V) (component : List V) : Option (List E) :=
  match component with
  | [] => none
  | start :: _ =>
    Search.run edges dst component start (component.length + 1) { queue := [start], parent := ∅ }

/-! ## Walks -/

/-- `es` are the edges of a walk from `x` to `y`. -/
def Trail (edges : V → List E) (dst : E → V) : V → List E → V → Prop
  | x, [], y => x = y
  | x, e :: es, y => e ∈ edges x ∧ Trail edges dst (dst e) es y

section Trail

variable {edges : V → List E} {dst : E → V}

omit [LinearOrder V] in
theorem Trail.concat {x y : V} {es : List E} (h : Trail edges dst x es y) {e : E}
    (he : e ∈ edges y) : Trail edges dst x (es.concat e) (dst e) := by
  induction es generalizing x with
  | nil =>
    obtain rfl : x = y := h
    exact ⟨he, rfl⟩
  | cons e' es ih => exact ⟨h.1, ih h.2⟩

omit [LinearOrder V] in
theorem Trail.reach {x y : V} {es : List E} (h : Trail edges dst x es y) :
    ReflTransGen (Edge edges dst) x y := by
  induction es generalizing x with
  | nil =>
    obtain rfl : x = y := h
    exact .refl
  | cons e es ih => exact .head ⟨e, h.1, rfl⟩ (ih h.2)

end Trail

/-! ## What the search keeps -/

section Invariant

variable (edges : V → List E) (dst : E → V) (component : List V) (start : V)

/-- Every entry came by an edge from `start` or from an older entry. -/
def Linked : List (Sigma fun _ : V => V × E) → Prop
  | [] => True
  | ⟨k, u, e⟩ :: older =>
    e ∈ edges u ∧ dst e = k ∧ (u = start ∨ u ∈ older.keys) ∧ Linked older

/-- What holds of the parents all the time. -/
structure Parents (parent : AList (fun _ : V => V × E)) : Prop where
  start_notMem : start ∉ parent
  mem_component : ∀ k ∈ parent, k ∈ component
  linked : Linked edges dst start parent.entries

/-- What holds of the search while the edges of `open_` are not all looked at. -/
structure Frontier (open_ : V → Prop) (s : Search V E) : Prop where
  parents : Parents edges dst component start s.parent
  queue_mem : ∀ x ∈ s.queue, x = start ∨ x ∈ s.parent
  done : ∀ x, (x = start ∨ x ∈ s.parent) → x ∉ s.queue → ¬ open_ x →
    ∀ e ∈ edges x, dst e ∈ component → dst e ≠ start ∧ dst e ∈ s.parent

end Invariant

section Spec

variable {edges : V → List E} {dst : E → V} {component : List V} {start : V}

variable {parent : AList (fun _ : V => V × E)} {older : List (Sigma fun _ : V => V × E)}

/-- The entry of a key among the older ones is the map's. -/
theorem lookup_of_entries_append {newer : List (Sigma fun _ : V => V × E)} {k u : V} {e : E}
    (h : parent.entries = newer ++ ⟨k, u, e⟩ :: older) : parent.lookup k = some (u, e) := by
  rw [← Option.mem_def, AList.mem_lookup_iff, h]
  simp

/-- Walking back from a vertex that was found leads to `start`. -/
theorem walkBack_trail (hstart : start ∉ parent) :
    ∀ newer : List (Sigma fun _ : V => V × E), parent.entries = newer ++ older →
      Linked edges dst start older → ∀ (fuel : ℕ) (v : V), (v = start ∨ v ∈ older.keys) →
      older.length < fuel → Trail edges dst start (walkBack start parent fuel v).reverse v := by
  induction older with
  | nil =>
    intro newer _ _ fuel v hv hfuel
    obtain ⟨fuel, rfl⟩ := Nat.exists_eq_add_one_of_ne_zero (Nat.ne_of_gt hfuel)
    obtain rfl : v = start := by simpa using hv
    simp [walkBack, Trail]
  | cons entry older ih =>
    intro newer hentries hlinked fuel v hv hfuel
    obtain ⟨k, u, e⟩ := entry
    obtain ⟨he, hk, hu, hlinked⟩ := hlinked
    have holder := ih (newer ++ [⟨k, u, e⟩]) (by simp [hentries]) hlinked
    obtain ⟨fuel, rfl⟩ := Nat.exists_eq_add_one_of_ne_zero (Nat.ne_of_gt (Nat.zero_lt_of_lt hfuel))
    have hfuel' : older.length < fuel := by simpa using hfuel
    by_cases hvk : v = k
    · have hne : v ≠ start := by
        rintro rfl
        refine hstart ?_
        rw [← AList.lookup_isSome, hvk, lookup_of_entries_append hentries]
        rfl
      have hlook := lookup_of_entries_append hentries
      rw [← hvk] at hlook
      have htrail := (holder fuel u hu hfuel').concat he
      simp only [walkBack, hne, if_false, hlook, reverse_cons]
      rw [concat_eq_append, hk, ← hvk] at htrail
      exact htrail
    · refine holder (fuel + 1) v ?_ (by omega)
      rcases hv with hv | hv
      · exact Or.inl hv
      · right
        simpa [hvk] using hv

theorem Parents.insert (h : Parents edges dst component start parent) {v : V} {e : E}
    (hv : v = start ∨ v ∈ parent) (he : e ∈ edges v) (hmem : dst e ∈ component)
    (hne : dst e ≠ start) (hnew : dst e ∉ parent) :
    Parents edges dst component start (parent.insert (dst e) (v, e)) where
  start_notMem := by
    rw [AList.mem_insert]
    rintro (heq | hin)
    · exact hne heq.symm
    · exact h.start_notMem hin
  mem_component k hk := by
    rcases (AList.mem_insert _).mp hk with rfl | hk
    · exact hmem
    · exact h.mem_component k hk
  linked := by
    rw [AList.entries_insert_of_notMem hnew]
    exact ⟨he, rfl, hv.imp_right AList.mem_keys.mp, h.linked⟩

/-- The edges of `v`, when those before `es` are done. -/
theorem scan_spec {v : V} :
    ∀ (es : List E) (s : Search V E), (∀ e ∈ es, e ∈ edges v) → (v = start ∨ v ∈ s.parent) →
      Frontier edges dst component start (· = v) s →
      (∀ e ∈ edges v, e ∉ es → dst e ∈ component → dst e ≠ start ∧ dst e ∈ s.parent) →
      match Search.scan dst component start v es s with
      | .inl (e, parent) => e ∈ edges v ∧ dst e = start ∧ (v = start ∨ v ∈ parent) ∧
          Parents edges dst component start parent
      | .inr s' => Frontier edges dst component start (fun _ => False) s' ∧
          ∃ new, s'.queue = s.queue ++ new ∧
            s'.parent.keys.length = s.parent.keys.length + new.length := by
  intro es
  induction es with
  | nil =>
    intro s _ hv h hdone
    refine ⟨⟨h.parents, h.queue_mem, fun x hx hq _ e he hc => ?_⟩, [], by simp, by simp⟩
    by_cases hxv : x = v
    · subst hxv
      exact hdone e he (by simp) hc
    · exact h.done x hx hq hxv e he hc
  | cons e es ih =>
    intro s hes hv h hdone
    have he : e ∈ edges v := hes e (by simp)
    have hes' : ∀ e' ∈ es, e' ∈ edges v := fun e' he' => hes e' (by simp [he'])
    rw [Search.scan]
    by_cases hc : dst e ∈ component
    · rw [if_neg (not_not.mpr hc)]
      by_cases hs : dst e = start
      · rw [if_pos hs]
        exact ⟨he, hs, hv, h.parents⟩
      · rw [if_neg hs]
        by_cases hp : dst e ∈ s.parent
        · rw [if_pos hp]
          refine ih s hes' hv h fun e' he' hnot hc' => ?_
          by_cases heq : e' = e
          · subst heq
            exact ⟨hs, hp⟩
          · exact hdone e' he' (by simp [heq, hnot]) hc'
        · -- a vertex not seen before
          rw [if_neg hp]
          set s' : Search V E :=
            { queue := s.queue ++ [dst e], parent := s.parent.insert (dst e) (v, e) } with hs'
          have hsub : ∀ x, x ∈ s.parent → x ∈ s'.parent := fun x hx => by simp [hs', hx]
          have h' : Frontier edges dst component start (· = v) s' := by
            refine ⟨h.parents.insert hv he hc hs hp, fun x hx => ?_,
              fun x hx hq hxv e' he' hc' => ?_⟩
            · rcases mem_append.mp hx with hx | hx
              · exact (h.queue_mem x hx).imp_right (hsub x)
              · right
                simp [hs', mem_singleton.mp hx]
            · have hxne : x ≠ dst e := fun heq => hq (by simp [hs', heq])
              have hxold : x = start ∨ x ∈ s.parent := by
                simpa [hs', hxne] using hx
              have := h.done x hxold (fun hin => hq (by simp [hs', hin])) hxv e' he' hc'
              exact ⟨this.1, hsub _ this.2⟩
          have hres := ih s' hes' (hv.imp_right (hsub v)) h' fun e' he' hnot hc' => by
            by_cases heq : e' = e
            · subst heq
              exact ⟨hs, by simp [hs']⟩
            · have := hdone e' he' (by simp [heq, hnot]) hc'
              exact ⟨this.1, hsub _ this.2⟩
          have hlen : s'.parent.keys.length = s.parent.keys.length + 1 := by
            have hk : dst e ∉ s.parent.keys := by rwa [← AList.mem_keys]
            simp [hs', AList.keys_insert, erase_of_not_mem hk]
          revert hres
          cases Search.scan dst component start v es s' with
          | inl r => exact id
          | inr s'' =>
            rintro ⟨hf, new, hq, hl⟩
            refine ⟨hf, dst e :: new, ?_, ?_⟩
            · rw [hq]
              simp [hs']
            · rw [hl, hlen, length_cons]
              omega
    · rw [if_pos hc]
      refine ih s hes' hv h fun e' he' hnot hc' => ?_
      by_cases heq : e' = e
      · subst heq
        exact absurd hc' hc
      · exact hdone e' he' (by simp [heq, hnot]) hc'

/-- A step that stays in `component`. -/
def Inside (edges : V → List E) (dst : E → V) (component : List V) (x y : V) : Prop :=
  Edge edges dst x y ∧ y ∈ component

omit [LinearOrder V] in
/-- With nothing left to look at, no walk inside the component returns. -/
theorem Frontier.no_cycle {s : Search V E}
    (h : Frontier edges dst component start (fun _ => False) s) (hq : s.queue = []) :
    ¬ TransGen (Inside edges dst component) start start := by
  have hstep : ∀ x, (x = start ∨ x ∈ s.parent) → ∀ y, Inside edges dst component x y →
      y ≠ start ∧ y ∈ s.parent := by
    rintro x hx y ⟨⟨e, he, rfl⟩, hc⟩
    exact h.done x hx (by simp [hq]) id e he hc
  intro hcycle
  obtain ⟨x, hx, hlast⟩ := TransGen.tail'_iff.mp hcycle
  have hxfound : x = start ∨ x ∈ s.parent :=
    reach_closed (P := fun x => x = start ∨ x ∈ s.parent)
      (fun x hx y hxy => Or.inr (hstep x hx y hxy).2) (Or.inl rfl) hx
  exact (hstep x hxfound start hlast).1 rfl

/-- The loop: a list it returns is a cycle, and without one there is none.
    Each round takes a vertex from the queue, and each vertex of the component
    enters it once, so `fuel` rounds are enough. -/
theorem run_spec (hstart : start ∈ component) :
    ∀ (fuel : ℕ) (s : Search V E), Frontier edges dst component start (fun _ => False) s →
      s.queue.length + component.length ≤ fuel + s.parent.keys.length →
      match Search.run edges dst component start fuel s with
      | some es => es ≠ [] ∧ Trail edges dst start es start
      | none => ¬ TransGen (Inside edges dst component) start start := by
  intro fuel
  induction fuel with
  | zero =>
    intro s h hfuel
    -- `start` is no key, so the keys are fewer than the vertices of the component
    have hnodup : (start :: s.parent.keys).Nodup :=
      nodup_cons.mpr ⟨fun hk => h.parents.start_notMem (AList.mem_keys.mpr hk),
        s.parent.keys_nodup⟩
    have hsub : start :: s.parent.keys ⊆ component := by
      exact forall_mem_cons.mpr
        ⟨hstart, fun k hk => h.parents.mem_component k (AList.mem_keys.mpr hk)⟩
    have hle := (hnodup.subperm hsub).length_le
    rw [length_cons] at hle
    omega
  | succ fuel ih =>
    intro s h hfuel
    rw [Search.run]
    cases hq : s.queue with
    | nil => exact h.no_cycle hq
    | cons v queue =>
      have hv : v = start ∨ v ∈ s.parent := h.queue_mem v (by simp [hq])
      have hopen : Frontier edges dst component start (· = v) { s with queue := queue } := by
        refine ⟨h.parents, fun x hx => h.queue_mem x (by simp [hq, hx]), ?_⟩
        intro x hx hnot hxv e he hc
        exact h.done x hx (by simp [hq, hxv, hnot]) id e he hc
      have hscan := scan_spec (edges v) { s with queue := queue } (fun _ he => he) hv hopen
        fun e he hnot => absurd he hnot
      dsimp only
      revert hscan
      cases Search.scan dst component start v (edges v) { s with queue := queue } with
      | inl r =>
        obtain ⟨e, parent⟩ := r
        rintro ⟨he, hdst, hv', hpar⟩
        have htrail := (walkBack_trail hpar.start_notMem [] rfl hpar.linked
          (parent.keys.length + 1) v (hv'.imp_right AList.mem_keys.mp)
          (by simp [AList.keys, keys])).concat he
        rw [hdst] at htrail
        exact ⟨by simp, htrail⟩
      | inr s' =>
        rintro ⟨h', new, hq', hlen⟩
        refine ih s' h' ?_
        rw [hq', hlen, length_append]
        rw [hq, length_cons] at hfuel
        dsimp only at *
        omega

/-- `shortestCycle` finds a cycle through the first vertex exactly when one
    stays inside the component. -/
theorem shortestCycle_spec (edges : V → List E) (dst : E → V) (start : V) (rest : List V) :
    match shortestCycle edges dst (start :: rest) with
    | some es => es ≠ [] ∧ Trail edges dst start es start
    | none => ¬ TransGen (Inside edges dst (start :: rest)) start start := by
  have hinit : Frontier edges dst (start :: rest) start (fun _ => False)
      { queue := [start], parent := ∅ } := by
    refine ⟨⟨by simp, by simp, trivial⟩, by simp, fun x hx hq => ?_⟩
    simp at hx hq
    exact absurd hx hq
  exact run_spec (by simp) _ _ hinit (by simp [Nat.add_comm])

end Spec

/-! ## Graphs without cycles -/

/-- No vertex reaches itself by one or more edges. -/
def Acyclic (R : V → V → Prop) : Prop := ∀ x, ¬ TransGen R x x

variable {R : V → V → Prop}

omit [LinearOrder V] in
/-- A part of a graph without cycles has none. -/
theorem Acyclic.mono {R' : V → V → Prop} (h : Acyclic R) (hsub : ∀ x y, R' x y → R x y) :
    Acyclic R' :=
  fun x hx => h x (TransGen.mono hsub x x hx)

variable {edges : V → List E}

omit [LinearOrder V] in
/-- A walk between vertices of one component stays in it. -/
theorem transGen_inside {dst : E → V} {c : List V} {start : V}
    (hscc : ∀ y, y ∈ c ↔ ReflTransGen (Edge edges dst) start y ∧
      ReflTransGen (Edge edges dst) y start) {x y : V} (h : TransGen (Edge edges dst) x y)
    (hx : ReflTransGen (Edge edges dst) start x) (hy : ReflTransGen (Edge edges dst) y start) :
    TransGen (Inside edges dst c) x y := by
  induction h with
  | single hxy =>
    exact .single ⟨hxy, (hscc _).mpr ⟨hx.tail hxy, hy⟩⟩
  | tail hxz hzy ih =>
    have hz : ReflTransGen (Edge edges dst) _ start := .head hzy hy
    exact (ih hz).tail ⟨hzy, (hscc _).mpr ⟨(hx.trans hxz.to_reflTransGen).tail hzy, hy⟩⟩

variable {tags : List V}

/-- **A graph has no cycle exactly when the search finds none in any
    strongly connected component.** -/
theorem acyclic_iff (dst : E → V) (hedges : ∀ x, x ∉ tags → edges x = []) :
    (∀ c ∈ components tags edges dst, shortestCycle edges dst c = none) ↔
      Acyclic (Edge edges dst) := by
  obtain ⟨hcover, hne, hscc⟩ := components_spec dst hedges
  constructor
  · intro hnone x hx
    have hxt : x ∈ tags := by
      by_contra hxt
      obtain ⟨y, ⟨e, he, -⟩, -⟩ := TransGen.head'_iff.mp hx
      rw [hedges x hxt] at he
      simp at he
    obtain ⟨c, hc, hxc⟩ := hcover x hxt
    obtain ⟨start, rest, rfl⟩ := exists_cons_of_ne_nil (hne c hc)
    have hspec := shortestCycle_spec edges dst start rest
    rw [hnone _ hc] at hspec
    have hs := hscc _ hc start (by simp)
    obtain ⟨hsx, hxs⟩ := (hs x).mp hxc
    exact hspec (transGen_inside hs (TransGen.trans_left (TransGen.trans_right hsx hx) hxs)
      .refl .refl)
  · intro hacyclic c hc
    obtain ⟨start, rest, rfl⟩ := exists_cons_of_ne_nil (hne c hc)
    have hspec := shortestCycle_spec edges dst start rest
    cases hres : shortestCycle edges dst (start :: rest) with
    | none => rfl
    | some es =>
      rw [hres] at hspec
      obtain ⟨e, es, rfl⟩ := exists_cons_of_ne_nil hspec.1
      exact absurd (TransGen.head' ⟨e, hspec.2.1, rfl⟩ hspec.2.2.reach) (hacyclic start)

/-- The same for a report of each component that `keep` tells from an empty one. -/
theorem reports_eq_nil_iff {β : Type} (dst : E → V) (hedges : ∀ x, x ∉ tags → edges x = [])
    (report : List V → β) (keep : β → Bool)
    (hreport : ∀ c, c ≠ [] → (keep (report c) = false ↔ shortestCycle edges dst c = none)) :
    ((components tags edges dst).map report).filter keep = [] ↔ Acyclic (Edge edges dst) := by
  have hne := (components_spec dst hedges).2.1
  rw [← acyclic_iff dst hedges, filter_eq_nil_iff]
  simp only [mem_map, Bool.not_eq_true, forall_exists_index, and_imp,
    forall_apply_eq_imp_iff₂]
  exact forall₂_congr fun c hc => hreport c (hne c hc)

omit [LinearOrder V] in
/-- Where a vertex reaches another, a walk without repetition leads there. -/
theorem exists_nodup_walk {x y : V} (h : ReflTransGen R x y) :
    ∃ walk, (x :: walk).IsChain R ∧ (x :: walk).Nodup ∧ (x :: walk).getLast (by simp) = y := by
  induction h using ReflTransGen.head_induction_on with
  | refl => exact ⟨[], by simp, by simp, rfl⟩
  | @head x z hxz _ ih =>
    obtain ⟨walk, hchain, hnodup, hlast⟩ := ih
    by_cases hx : x ∈ z :: walk
    · -- The walk comes back to `x`: what follows is already one from `x`.
      obtain ⟨before, after, heq⟩ := append_of_mem hx
      simp only [heq] at hchain hnodup hlast
      refine ⟨after, hchain.right_of_append, hnodup.of_append_right, ?_⟩
      rw [← hlast, getLast_append_of_ne_nil _ (cons_ne_nil x after)]
    · refine ⟨z :: walk, hchain.cons_cons hxz, nodup_cons.mpr ⟨hx, hnodup⟩, ?_⟩
      rw [getLast_cons (by simp), hlast]

omit [LinearOrder V] in
/-- Along a walk of a graph without cycles no vertex is met twice. -/
theorem Acyclic.chain_nodup (h : Acyclic R) {l : List V} (hl : l.IsChain R) : l.Nodup := by
  have htrans : l.IsChain (TransGen R) := hl.imp fun _ _ hab => .single hab
  refine (isChain_iff_pairwise.mp htrans).imp ?_
  rintro a b hab rfl
  exact h a hab

omit [LinearOrder V] in
/-- Such a walk through vertices of `tags` is no longer than `tags`. -/
theorem Acyclic.chain_length_le (h : Acyclic R) {l : List V} (hl : l.IsChain R)
    (htags : ∀ x ∈ l, x ∈ tags) : l.length ≤ tags.length :=
  ((h.chain_nodup hl).subperm htags).length_le

end XrayCore.Graph
