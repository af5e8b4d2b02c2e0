/-
  XrayCore.Router.Balancer

  The balancers of a router (`app/router/balancing.go`) and the check of their
  graph (`app/router/fallback_chain.go`).

  A balancer leads to its member balancers and, when its `fallbackTag` names
  one, to another balancer.  `checkBalancerGraph` refuses a map with a member
  that is no balancer, is listed twice or has no fallback, and a map whose graph
  has a cycle.  `checkBalancerGraph_eq_none_iff` says that it refuses nothing
  else.

  What changes while a balancer lives (its override target and its `peers`) is
  kept by the router, under the balancer's `addr`.
-/

import XrayCore.Graph.Cycle

namespace XrayCore.Router

open XrayCore.Graph List

/-! ## Balancers -/

/-- The strategies that `BalancingRule.Build` knows. -/
inductive Strategy where
  | leastPing
  | roundRobin
  | leastLoad
  | weightedLeastPing
  | random
  deriving DecidableEq, Repr

/-- A balancer: what `Build` sets and nothing changes, and the address under
    which the router keeps the rest. -/
structure Balancer where
  addr : ℕ
  tag : String
  selectors : List String
  strategy : Strategy
  fallbackTag : String
  members : List String
  deriving DecidableEq, Repr

/-- `map[string]*Balancer`. -/
abbrev BalancerMap := AList (fun _ : String => Balancer)

/-! ## The check -/

/-- An edge of the balancer graph, to a member or to a fallback. -/
structure GraphEdge where
  dest : String
  member : Bool
  deriving DecidableEq, Repr

/-- The loop over the members of the balancer `tag`, those in `listed` done:
    its member edges, or what is wrong with a member. -/
def memberEdges (m : BalancerMap) (tag : String) : List String → List String →
    Except String (List GraphEdge)
  | _, [] => .ok []
  | listed, member :: rest =>
    if member ∉ m then
      .error ("balancer " ++ tag ++ ": member " ++ member ++ " is no balancer")
    else if member ∈ listed then
      .error ("balancer " ++ tag ++ ": member " ++ member ++ " is listed twice")
    else
      (memberEdges m tag (member :: listed) rest).map ({ dest := member, member := true } :: ·)

/-- The edge to the fallback, when that names a balancer. -/
def fallbackEdge (m : BalancerMap) (b : Balancer) : List GraphEdge :=
  if b.fallbackTag ∈ m then [{ dest := b.fallbackTag, member := false }] else []

/-- The loop over the balancers: the edges of each, and the members of all. -/
def balancerEdges (m : BalancerMap) : List String →
    Except String (AList (fun _ : String => List GraphEdge) × List String)
  | [] => .ok (∅, [])
  | tag :: tags =>
    match m.lookup tag with
    | none => balancerEdges m tags
    | some b =>
      match memberEdges m tag [] b.members with
      | .error err => .error err
      | .ok es =>
        match balancerEdges m tags with
        | .error err => .error err
        | .ok (edges, isMember) =>
          .ok (edges.insert tag (es ++ fallbackEdge m b), b.members ++ isMember)

/-- The text of one cycle, and whether a member edge is on it. -/
def formatBalancerCycle (start : String) (path : List GraphEdge) : String × Bool :=
  let withMember := path.any (·.member)
  (path.foldl (fun text e =>
    text ++ (if !withMember then " -> "
      else if e.member then " -[member]-> " else " -[fallback]-> ") ++ e.dest) start, withMember)

/-- The shortest cycle through a component's smallest balancer, `""` without one. -/
def shortestBalancerCycle (edges : String → List GraphEdge) (component : List String) :
    String × Bool :=
  match component, shortestCycle edges GraphEdge.dest component with
  | start :: _, some path => formatBalancerCycle start path
  | _, _ => ("", false)

/-- The keys of a map in order, `slices.Sorted(maps.Keys(m))`. -/
def sortedKeys {β : Type} (m : AList (fun _ : String => β)) : List String :=
  m.keys.insertionSort (· ≤ ·)

/-- `checkBalancerGraph`: `none` is nil. -/
def checkBalancerGraph (m : BalancerMap) : Option String :=
  let tags := sortedKeys m
  match balancerEdges m tags with
  | .error err => some err
  | .ok (edges, isMember) =>
    match (isMember.dedup.insertionSort (· ≤ ·)).find? (fun tag =>
      decide (((m.lookup tag).map Balancer.fallbackTag).getD "" = "")) with
    | some tag => some ("balancer " ++ tag ++ " is a member and has no fallbackTag")
    | none =>
      let edgesOf := fun v => (edges.lookup v).getD []
      let cycles := ((components tags edgesOf GraphEdge.dest).map
        (shortestBalancerCycle edgesOf)).filter (·.1 ≠ "")
      if cycles = [] then none
      else
        let text := "; ".intercalate ((cycles.map (·.1)).insertionSort (· ≤ ·))
        if cycles.any (·.2) then some ("balancer cycle: " ++ text)
        else some ("balancer fallback cycle: " ++ text)

/-! ## What the check decides -/

/-- An edge of the graph that a balancer map spans. -/
def BalancerEdge (m : BalancerMap) (x y : String) : Prop :=
  ∃ b, m.lookup x = some b ∧ y ∈ m ∧ (y ∈ b.members ∨ y = b.fallbackTag)

/-- What a published balancer map is to be. -/
structure GraphOk (m : BalancerMap) : Prop where
  member_mem : ∀ tag b, m.lookup tag = some b → ∀ member ∈ b.members, member ∈ m
  member_once : ∀ tag b, m.lookup tag = some b → b.members.Nodup
  member_fallback : ∀ tag b, m.lookup tag = some b → ∀ member ∈ b.members,
    ∀ inner, m.lookup member = some inner → inner.fallbackTag ≠ ""
  acyclic : Acyclic (BalancerEdge m)

variable {tag : String}

theorem mem_sortedKeys {β : Type} {m : AList (fun _ : String => β)} :
    tag ∈ sortedKeys m ↔ tag ∈ m := by
  rw [sortedKeys, mem_insertionSort, AList.mem_keys]

theorem mem_of_lookup {β : Type} {m : AList (fun _ : String => β)} {b : β}
    (h : m.lookup tag = some b) : tag ∈ m :=
  AList.lookup_isSome.mp (by simp [h])

theorem exists_lookup_of_mem {β : Type} {m : AList (fun _ : String => β)} (h : tag ∈ m) :
    ∃ b, m.lookup tag = some b :=
  Option.isSome_iff_exists.mp (AList.lookup_isSome.mpr h)

/-- The member loop succeeds exactly on members that are balancers and new. -/
theorem memberEdges_spec (m : BalancerMap) (tag : String) (members : List String) :
    ∀ listed : List String,
      ((∃ es, memberEdges m tag listed members = .ok es) ↔
        (∀ member ∈ members, member ∈ m ∧ member ∉ listed) ∧ members.Nodup) ∧
      ∀ es, memberEdges m tag listed members = .ok es →
        es = members.map ({ dest := ·, member := true }) := by
  induction members with
  | nil => simp [memberEdges]
  | cons member rest ih =>
    intro listed
    obtain ⟨hiff, heq⟩ := ih (member :: listed)
    unfold memberEdges
    by_cases hm : member ∈ m
    · by_cases hl : member ∈ listed
      · simp [hm, hl]
      · rw [if_neg (not_not.mpr hm), if_neg hl]
        cases hres : memberEdges m tag (member :: listed) rest with
        | error err =>
          have hno : ¬ ∃ es, memberEdges m tag (member :: listed) rest = .ok es := by simp [hres]
          rw [hiff] at hno
          refine ⟨⟨by simp [Except.map], fun hall => absurd ⟨fun x hx => ?_, ?_⟩ hno⟩,
            by simp [Except.map]⟩
          · refine ⟨(hall.1 x (by simp [hx])).1, ?_⟩
            rw [mem_cons, not_or]
            exact ⟨fun hxm => (nodup_cons.mp hall.2).1 (hxm ▸ hx),
              (hall.1 x (by simp [hx])).2⟩
          · exact (nodup_cons.mp hall.2).2
        | ok es =>
          have hyes := hiff.mp ⟨es, hres⟩
          refine ⟨⟨fun _ => ⟨fun x hx => ?_, ?_⟩, fun _ => ⟨_, rfl⟩⟩, fun es' hes' => ?_⟩
          · rcases mem_cons.mp hx with rfl | hx
            · exact ⟨hm, hl⟩
            · have := hyes.1 x hx
              exact ⟨this.1, fun hin => this.2 (by simp [hin])⟩
          · exact nodup_cons.mpr ⟨fun hin => (hyes.1 member hin).2 (by simp), hyes.2⟩
          · obtain rfl : es' = { dest := member, member := true } :: es := by
              simpa [Except.map, eq_comm] using hes'
            rw [heq es hres, map_cons]
    · simp [hm]

/-- Nothing is wrong with the members of the balancer `b`. -/
def MembersOk (m : BalancerMap) (b : Balancer) : Prop :=
  (∀ member ∈ b.members, member ∈ m) ∧ b.members.Nodup

/-- All edges of the balancer `b`. -/
def graphEdges (m : BalancerMap) (b : Balancer) : List GraphEdge :=
  b.members.map ({ dest := ·, member := true }) ++ fallbackEdge m b

/-- The balancer loop succeeds exactly when the members of every balancer are
    right, and then returns the edges and the members of all. -/
theorem balancerEdges_spec (m : BalancerMap) (tags : List String) :
    ((∃ r, balancerEdges m tags = .ok r) ↔
      ∀ tag ∈ tags, ∀ b, m.lookup tag = some b → MembersOk m b) ∧
    ∀ edges isMember, balancerEdges m tags = .ok (edges, isMember) →
      (∀ tag, (edges.lookup tag).getD [] =
        if tag ∈ tags then ((m.lookup tag).map (graphEdges m)).getD [] else []) ∧
      ∀ member, member ∈ isMember ↔
        ∃ tag ∈ tags, ∃ b, m.lookup tag = some b ∧ member ∈ b.members := by
  induction tags with
  | nil => simp [balancerEdges]
  | cons tag tags ih =>
    obtain ⟨hiff, heq⟩ := ih
    cases hb : m.lookup tag with
    | none =>
      simp only [balancerEdges, hb]
      refine ⟨?_, fun edges isMember h => ?_⟩
      · rw [hiff]
        simp [hb]
      · obtain ⟨h1, h2⟩ := heq edges isMember h
        refine ⟨fun x => ?_, fun member => ?_⟩
        · rw [h1 x]
          by_cases hx : x = tag
          · subst hx
            simp [hb]
          · simp [hx]
        · rw [h2 member]
          simp [hb]
    | some b =>
      obtain ⟨hmiff, hmeq⟩ := memberEdges_spec m tag b.members []
      have hmok : (∃ es, memberEdges m tag [] b.members = .ok es) ↔ MembersOk m b := by
        rw [hmiff]
        simp [MembersOk]
      cases hmem : memberEdges m tag [] b.members with
      | error err =>
        have hno : ¬ MembersOk m b := by
          rw [← hmok]
          simp [hmem]
        simp only [balancerEdges, hb, hmem]
        refine ⟨⟨by simp, fun hall => absurd (hall tag (by simp) b hb) hno⟩, by simp⟩
      | ok es =>
        have hyes : MembersOk m b := hmok.mp ⟨es, hmem⟩
        cases hrest : balancerEdges m tags with
        | error err =>
          have hno : ¬ ∃ r, balancerEdges m tags = .ok r := by simp [hrest]
          rw [hiff] at hno
          simp only [balancerEdges, hb, hmem, hrest]
          exact ⟨⟨by simp, fun hall => absurd (fun t ht => hall t (by simp [ht])) hno⟩, by simp⟩
        | ok r =>
          obtain ⟨edges, isMember⟩ := r
          have hrest_ok := hiff.mp ⟨_, hrest⟩
          simp only [balancerEdges, hb, hmem, hrest]
          refine ⟨⟨fun _ t ht b' hb' => ?_, fun _ => ⟨_, rfl⟩⟩, fun edges' isMember' h => ?_⟩
          · rcases mem_cons.mp ht with rfl | ht
            · obtain rfl : b = b' := by simpa [hb] using hb'
              exact hyes
            · exact hrest_ok t ht b' hb'
          · obtain ⟨h1, h2⟩ := heq edges isMember hrest
            simp only [Except.ok.injEq, Prod.mk.injEq] at h
            obtain ⟨rfl, rfl⟩ := h
            refine ⟨fun x => ?_, fun member => ?_⟩
            · by_cases hx : x = tag
              · subst hx
                simp [hb, graphEdges, hmeq es hmem]
              · rw [AList.lookup_insert_ne hx, h1 x]
                simp [hx]
            · rw [mem_append, h2 member]
              simp [hb]

theorem foldl_append_ne_empty {α : Type} (f : α → String) (hf : ∀ a, f a ≠ "") :
    ∀ (l : List α) (text : String), l ≠ [] ∨ text ≠ "" →
      l.foldl (fun text a => text ++ f a) text ≠ "" := by
  intro l
  induction l with
  | nil => simp
  | cons a l ih =>
    intro text _
    refine ih (text ++ f a) (Or.inr fun h => hf a ?_)
    exact (String.append_eq_empty_iff.mp h).2

/-- The text of a cycle is never empty. -/
theorem formatBalancerCycle_ne_empty (start : String) {path : List GraphEdge} (h : path ≠ []) :
    (formatBalancerCycle start path).1 ≠ "" := by
  have hf : ∀ e : GraphEdge, ((if !path.any (·.member) then " -> "
      else if e.member then " -[member]-> " else " -[fallback]-> ") ++ e.dest) ≠ "" := by
    intro e he
    have := (String.append_eq_empty_iff.mp he).1
    split_ifs at this <;> simp at this
  have := foldl_append_ne_empty _ hf path start (Or.inl h)
  simpa only [formatBalancerCycle, String.append_assoc] using this

theorem shortestBalancerCycle_eq_empty_iff (edges : String → List GraphEdge)
    {component : List String} (h : component ≠ []) :
    (shortestBalancerCycle edges component).1 = "" ↔
      shortestCycle edges GraphEdge.dest component = none := by
  obtain ⟨start, rest, rfl⟩ := exists_cons_of_ne_nil h
  have hspec := shortestCycle_spec edges GraphEdge.dest start rest
  cases hres : shortestCycle edges GraphEdge.dest (start :: rest) with
  | none => simp [shortestBalancerCycle, hres]
  | some path =>
    rw [hres] at hspec
    simp [shortestBalancerCycle, hres, formatBalancerCycle_ne_empty start hspec.1]

/-- The edges that the loop collects are those of the graph. -/
theorem edge_iff_balancerEdge {m : BalancerMap} {edgesOf : String → List GraphEdge}
    (hedges : ∀ tag, edgesOf tag = ((m.lookup tag).map (graphEdges m)).getD [])
    (hmem : ∀ tag b, m.lookup tag = some b → MembersOk m b) (x y : String) :
    Edge edgesOf GraphEdge.dest x y ↔ BalancerEdge m x y := by
  simp only [Edge, BalancerEdge, hedges]
  cases hb : m.lookup x with
  | none => simp
  | some b =>
    have hb' := (hmem x b hb).1
    simp only [Option.map_some, Option.getD_some, graphEdges, fallbackEdge, mem_append,
      mem_map]
    constructor
    · rintro ⟨e, ⟨member, hin, rfl⟩ | he, rfl⟩
      · exact ⟨b, rfl, hb' member hin, Or.inl hin⟩
      · split_ifs at he with hf
        · obtain rfl := mem_singleton.mp he
          exact ⟨b, rfl, hf, Or.inr rfl⟩
        · simp at he
    · rintro ⟨b', hbb', hy, hin | rfl⟩
      · obtain rfl : b = b' := by simpa using hbb'
        exact ⟨{ dest := y, member := true }, Or.inl ⟨y, hin, rfl⟩, rfl⟩
      · obtain rfl : b = b' := by simpa using hbb'
        exact ⟨{ dest := b.fallbackTag, member := false }, Or.inr (by simp [hy]), rfl⟩

/-- No member is without a fallback, as the second loop checks it. -/
theorem member_fallback_iff {m : BalancerMap} {isMember : List String}
    (hmem : ∀ tag b, m.lookup tag = some b → MembersOk m b)
    (his : ∀ member, member ∈ isMember ↔
      ∃ tag b, m.lookup tag = some b ∧ member ∈ b.members) :
    (isMember.dedup.insertionSort (· ≤ ·)).find? (fun tag =>
      decide (((m.lookup tag).map Balancer.fallbackTag).getD "" = "")) = none ↔
    ∀ tag b, m.lookup tag = some b → ∀ member ∈ b.members,
      ∀ inner, m.lookup member = some inner → inner.fallbackTag ≠ "" := by
  simp only [find?_eq_none, mem_insertionSort, mem_dedup, decide_eq_true_eq]
  constructor
  · intro h tag b hb member hin inner hinner hempty
    exact h member ((his member).mpr ⟨tag, b, hb, hin⟩) (by simp [hinner, hempty])
  · intro h member hin
    obtain ⟨tag, b, hb, hin⟩ := (his member).mp hin
    obtain ⟨inner, hinner⟩ := exists_lookup_of_mem ((hmem tag b hb).1 member hin)
    simpa [hinner] using h tag b hb member hin inner hinner

/-- **`checkBalancerGraph` returns nil exactly for the maps that are right.** -/
theorem checkBalancerGraph_eq_none_iff (m : BalancerMap) :
    checkBalancerGraph m = none ↔ GraphOk m := by
  obtain ⟨hiff, heq⟩ := balancerEdges_spec m (sortedKeys m)
  have hall : (∀ tag ∈ sortedKeys m, ∀ b, m.lookup tag = some b → MembersOk m b) ↔
      ∀ tag b, m.lookup tag = some b → MembersOk m b :=
    ⟨fun h tag b hb => h tag (mem_sortedKeys.mpr (mem_of_lookup hb)) b hb,
      fun h tag _ b hb => h tag b hb⟩
  rw [hall] at hiff
  cases hres : balancerEdges m (sortedKeys m) with
  | error err =>
    have hno : ¬ ∃ r, balancerEdges m (sortedKeys m) = .ok r := by simp [hres]
    rw [hiff] at hno
    simp only [checkBalancerGraph, hres, reduceCtorEq, false_iff]
    exact fun hok => hno fun tag b hb => ⟨hok.member_mem tag b hb, hok.member_once tag b hb⟩
  | ok r =>
    obtain ⟨edges, isMember⟩ := r
    have hmem := hiff.mp ⟨_, hres⟩
    obtain ⟨hedges, his⟩ := heq edges isMember hres
    have hedges' : ∀ tag, (edges.lookup tag).getD [] =
        ((m.lookup tag).map (graphEdges m)).getD [] := by
      intro tag
      rw [hedges tag]
      split_ifs with ht
      · rfl
      · rw [mem_sortedKeys, ← AList.lookup_eq_none] at ht
        simp [ht]
    have his' : ∀ member, member ∈ isMember ↔
        ∃ tag b, m.lookup tag = some b ∧ member ∈ b.members := by
      intro member
      rw [his member]
      exact ⟨fun ⟨tag, _, b, h⟩ => ⟨tag, b, h⟩,
        fun ⟨tag, b, h⟩ => ⟨tag, mem_sortedKeys.mpr (mem_of_lookup h.1), b, h⟩⟩
    have hedge : Edge (fun v => (edges.lookup v).getD []) GraphEdge.dest = BalancerEdge m := by
      funext x y
      exact propext (edge_iff_balancerEdge hedges' hmem x y)
    have hstart : ∀ x, x ∉ sortedKeys m → (edges.lookup x).getD [] = [] := by
      intro x hx
      rw [hedges x, if_neg hx]
    have hcycles := reports_eq_nil_iff GraphEdge.dest hstart
      (shortestBalancerCycle fun v => (edges.lookup v).getD []) (fun r => decide (r.1 ≠ ""))
      (fun c hc => by simpa using shortestBalancerCycle_eq_empty_iff _ hc)
    rw [hedge] at hcycles
    have hfallback := member_fallback_iff hmem his'
    simp only [checkBalancerGraph, hres]
    cases hfind : (isMember.dedup.insertionSort (· ≤ ·)).find? (fun tag =>
        decide (((m.lookup tag).map Balancer.fallbackTag).getD "" = "")) with
    | some tag =>
      rw [hfind] at hfallback
      simp only [reduceCtorEq, false_iff] at hfallback ⊢
      exact fun hok => hfallback hok.member_fallback
    | none =>
      have hok : GraphOk m ↔ Acyclic (BalancerEdge m) :=
        ⟨fun h => h.acyclic, fun h => ⟨fun tag b hb => (hmem tag b hb).1,
          fun tag b hb => (hmem tag b hb).2, hfallback.mp hfind, h⟩⟩
      rw [hok, ← hcycles]
      split_ifs with hnil hany
      · exact iff_of_true rfl hnil
      · exact iff_of_false (by simp) hnil
      · exact iff_of_false (by simp) hnil

end XrayCore.Router
