/-
  XrayCore.Router.Loops

  Can routing bring a connection that a loopback fed back into routing to a
  loopback again (`app/router/loops.go`)?

  The states of the question are the inbound tags that loopbacks feed.  `level`
  collects what a balancer may lead to, `fromRules` what the rules may lead a
  state to, and `loopbackLoops` looks for a cycle among the states.

  `Leads`, `MayPick` and `Possible` say the same without the walk: which handlers
  a balancer can come to, which rules can be taken, which state can follow.
  `loopbackLoops_eq_none_iff` is the connection, and `loopback_loops_exact` reads
  it for the decisions that routing takes.
-/

import XrayCore.Outbound.Handler
import XrayCore.Router.Chain
import XrayCore.Router.Rule

namespace XrayCore.Router

open Relation XrayCore.Graph Outbound List

/-! ## The check -/

/-- A step to the state of the loopback that `via` reaches. -/
structure LoopEdge where
  dest : String
  label : String
  via : String
  deriving DecidableEq, Repr

/-- What one check reads. -/
structure LoopGraph where
  rules : List Rule
  balancers : BalancerMap
  /-- Targets about to be set, over the current ones. -/
  override : AList (fun _ : String => String)
  /-- The current override target of a balancer, `""` for none. -/
  current : Balancer → String
  byTag : HandlerMap
  tags : List String
  default : Option Handler

namespace LoopGraph

def reach (g : LoopGraph) (h : Option Handler) (label : String) : List LoopEdge :=
  match loopbackReached h g.byTag with
  | some (inbound, path) => [{ dest := inbound, label := label, via := path }]
  | none => []

/-- `strings.HasPrefix(tag, selector)` for one of the selectors. -/
def selected (selectors : List String) (tag : String) : Bool :=
  selectors.any fun selector => selector.toList.isPrefixOf tag.toList

/-- The override target that counts. -/
def target (g : LoopGraph) (b : Balancer) : String :=
  (g.override.lookup b.tag).getD (g.current b)

/-- The edges of the outbounds that the selectors match. -/
def candidates (g : LoopGraph) (b : Balancer) (label : String) : List LoopEdge :=
  (g.tags.filter (selected b.selectors)).flatMap fun tag => g.reach (g.byTag.lookup tag) label

/-- The edge of the override target. -/
def overrides (g : LoopGraph) (b : Balancer) (label : String) : List LoopEdge :=
  if g.target b = "" then [] else g.reach (g.byTag.lookup (g.target b)) (label ++ " override")

/-- The loop over the members: `go` is the walk of one balancer. -/
def levelMembers (g : LoopGraph)
    (go : Balancer → String → List String → List LoopEdge × List String) (label : String) :
    List String → List LoopEdge × List String → List LoopEdge × List String
  | [], acc => acc
  | member :: members, acc =>
    match g.balancers.lookup member with
    | none => levelMembers g go label members acc
    | some inner =>
      let r := go inner (label ++ " member " ++ member) acc.2
      levelMembers g go label members (acc.1 ++ r.1, r.2)

/-- `level`: the edges of a balancer and of all it leads on to, and the balancers
    seen then.  A turn of the loop and a call for a member take one from `fuel`. -/
def level (g : LoopGraph) : ℕ → Balancer → String → List String → List LoopEdge × List String
  | 0, _, _, seen => ([], seen)
  | fuel + 1, b, label, seen =>
    if b.tag ∈ seen then ([], seen)
    else
      let acc := levelMembers g (level g fuel) label b.members
        (g.candidates b label, b.tag :: seen)
      let out := acc.1 ++ g.overrides b label
      if b.fallbackTag = "" then (out ++ g.reach g.default (label ++ " default"), acc.2)
      else match g.balancers.lookup b.fallbackTag with
        | some next =>
          let r := level g fuel next (label ++ " -> " ++ next.tag) acc.2
          (out ++ r.1, r.2)
        | none =>
          (out ++ g.reach (g.byTag.lookup b.fallbackTag) (label ++ " fallback"), acc.2)

/-- `chain`: there are no more levels than balancers. -/
def chain (g : LoopGraph) (b : Balancer) (label : String) : List LoopEdge :=
  (g.level (g.balancers.keys.length + 1) b (label ++ ", balancer " ++ b.tag) []).1

/-- The edges that a rule gives. -/
def ruleEdges (g : LoopGraph) (i : ℕ) (rule : Rule) : List LoopEdge :=
  let label := if rule.ruleTag = "" then "rule #" ++ toString (i + 1) else "rule " ++ rule.ruleTag
  match rule.balancer with
  | some b => g.chain b label
  | none => g.reach (g.byTag.lookup rule.tag) label

/-- The loop of `from` over the rules that are left, the first of them the `i`th. -/
def fromRules (g : LoopGraph) (state : String) : ℕ → List Rule → List LoopEdge
  | _, [] => g.reach g.default "default"
  | i, rule :: rules =>
    if rule.config.inboundTag ≠ [] ∧ state ∉ rule.config.inboundTag then
      fromRules g state (i + 1) rules
    else if matchesOnInboundOnly rule.config then g.ruleEdges i rule
    else g.ruleEdges i rule ++ fromRules g state (i + 1) rules

/-- `from`. -/
def fromState (g : LoopGraph) (state : String) : List LoopEdge := g.fromRules state 0 g.rules

end LoopGraph

/-- `stronglyConnected`. -/
def stronglyConnected (states : List String) (edges : String → List LoopEdge) :
    List (List String) :=
  components (states.insertionSort (· ≤ ·)) edges LoopEdge.dest

/-- `shortestCycle` of the states, as text: `""` for a state without one. -/
def shortestLoopCycle (edges : String → List LoopEdge) (component : List String) : String :=
  match component, shortestCycle edges LoopEdge.dest component with
  | start :: _, some path =>
    path.foldl (fun text p =>
      text ++ (" -> [" ++ p.label ++ "] " ++ p.via ++ " -> " ++ p.dest)) start
  | _, _ => ""

/-- The inbound tags that loopbacks feed. -/
def loopStates (handlers : List Handler) : List String :=
  (handlers.filterMap fun h => h.view.bind (·.loopbackInbound)).dedup

/-- The graph with what `loopbackLoops` adds to it. -/
def LoopGraph.withHandlers (g : LoopGraph) (handlers : List Handler) : LoopGraph :=
  { g with byTag := Outbound.byTag handlers, tags := sortedKeys (Outbound.byTag handlers) }

/-- The edges of a state, none for anything else. -/
def loopEdges (g : LoopGraph) (handlers : List Handler) (v : String) : List LoopEdge :=
  if v ∈ loopStates handlers then (g.withHandlers handlers).fromState v else []

/-- The texts of the cycles, one for each component that has one. -/
def loopCycles (g : LoopGraph) (handlers : List Handler) : List String :=
  ((stronglyConnected (loopStates handlers) (loopEdges g handlers)).map
    (shortestLoopCycle (loopEdges g handlers))).filter (· ≠ "")

/-- `loopbackLoops`: `none` is nil. -/
def loopbackLoops (g : LoopGraph) (handlers : List Handler) : Option String :=
  if loopStates handlers = [] then none
  else if loopCycles g handlers = [] then none
  else some ("loopback loop: " ++
    "; ".intercalate ((loopCycles g handlers).insertionSort (· ≤ ·)))

/-! ## What routing can do -/

namespace LoopGraph

variable (g : LoopGraph)

/-- A handler that a balancer's own level can come to. -/
inductive Targets (b : Balancer) (h : Handler) : Prop
  | candidate (tag : String) (htag : tag ∈ g.tags) (hsel : selected b.selectors tag = true)
      (hh : g.byTag.lookup tag = some h)
  | override (hset : g.target b ≠ "") (hh : g.byTag.lookup (g.target b) = some h)
  | fallback (hset : b.fallbackTag ≠ "") (hout : g.balancers.lookup b.fallbackTag = none)
      (hh : g.byTag.lookup b.fallbackTag = some h)
  | default (hset : b.fallbackTag = "") (hh : g.default = some h)

/-- The pick goes on from one balancer to another. -/
inductive Inner (b inner : Balancer) : Prop
  | member (tag : String) (htag : tag ∈ b.members) (hb : g.balancers.lookup tag = some inner)
  | fallback (hset : b.fallbackTag ≠ "") (hb : g.balancers.lookup b.fallbackTag = some inner)

/-- A handler that a balancer can lead to. -/
def Leads (b : Balancer) (h : Handler) : Prop :=
  ∃ last, ReflTransGen g.Inner b last ∧ g.Targets last h

/-- A handler that a connection can be given to, once the rule is chosen. -/
def Routes (rule : Option Rule) (h : Handler) : Prop :=
  match rule with
  | none => g.default = some h
  | some rule =>
    match rule.balancer with
    | some b => g.Leads b h
    | none => g.byTag.lookup rule.tag = some h

/-- The state that follows `state` by the decisions of one pass of routing: which
    conditions hold, and where the rule's balancer leads. -/
def Step (state next : String) : Prop :=
  ∃ holds h, g.Routes (pickRule state g.rules holds) h ∧ Feeds g.byTag h next

/-- What the router keeps of the balancers: each is stored under its own tag, and
    those of the rules are stored. -/
structure Stored : Prop where
  tag_eq : ∀ tag b, g.balancers.lookup tag = some b → b.tag = tag
  rule_balancer : ∀ rule ∈ g.rules, ∀ b, rule.balancer = some b → g.balancers.lookup b.tag = some b

end LoopGraph

/-! ## The walk over the levels -/

namespace LoopGraph

variable {g : LoopGraph}

/-- A connection that the balancer takes can be fed back under `next`. -/
def LevelFeeds (g : LoopGraph) (b : Balancer) (next : String) : Prop :=
  ∃ h, g.Targets b h ∧ Feeds g.byTag h next

variable {next : String}

theorem mem_reach {h : Option Handler} (label : String) :
    (∃ e ∈ g.reach h label, e.dest = next) ↔ ∃ h', h = some h' ∧ Feeds g.byTag h' next := by
  cases h with
  | none => simp [reach, loopbackReached, reachedFrom]
  | some h =>
    have hiff := loopbackReached_iff g.byTag h next
    simp only [Option.some.injEq, exists_eq_left', ← hiff, reach]
    cases hres : loopbackReached (some h) g.byTag with
    | none => simp
    | some r => simp [Prod.ext_iff]

variable {b : Balancer}

theorem mem_candidates (label : String) :
    (∃ e ∈ g.candidates b label, e.dest = next) ↔
      ∃ tag ∈ g.tags, selected b.selectors tag = true ∧
        ∃ h, g.byTag.lookup tag = some h ∧ Feeds g.byTag h next := by
  simp only [candidates, mem_flatMap, mem_filter]
  refine ⟨?_, ?_⟩
  · rintro ⟨e, ⟨tag, ⟨htag, hsel⟩, he⟩, hnext⟩
    exact ⟨tag, htag, hsel, (mem_reach label).mp ⟨e, he, hnext⟩⟩
  · rintro ⟨tag, htag, hsel, hfeeds⟩
    obtain ⟨e, he, hnext⟩ := (mem_reach label).mpr hfeeds
    exact ⟨e, ⟨tag, ⟨htag, hsel⟩, he⟩, hnext⟩

theorem mem_overrides (label : String) :
    (∃ e ∈ g.overrides b label, e.dest = next) ↔
      g.target b ≠ "" ∧ ∃ h, g.byTag.lookup (g.target b) = some h ∧ Feeds g.byTag h next := by
  unfold overrides
  split_ifs with hset
  · simp [hset]
  · rw [mem_reach]
    simp [hset]

variable {go : Balancer → String → List String → List LoopEdge × List String}

/-- Every edge of the walk belongs to a balancer that the first one leads on to. -/
theorem levelMembers_sound
    (hgo : ∀ b label seen, ∀ e ∈ (go b label seen).1,
      ∃ last, ReflTransGen g.Inner b last ∧ g.LevelFeeds last e.dest) (label : String)
    (members : List String) :
    ∀ acc, ∀ e ∈ (g.levelMembers go label members acc).1, e ∈ acc.1 ∨
      ∃ member ∈ members, ∃ inner, g.balancers.lookup member = some inner ∧
        ∃ last, ReflTransGen g.Inner inner last ∧ g.LevelFeeds last e.dest := by
  induction members with
  | nil => exact fun acc e he => Or.inl he
  | cons member members ih =>
    intro acc e he
    rw [levelMembers] at he
    cases hinner : g.balancers.lookup member with
    | none =>
      simp only [hinner] at he
      rcases ih acc e he with he | ⟨member', hmem, h⟩
      · exact Or.inl he
      · exact Or.inr ⟨member', mem_cons_of_mem _ hmem, h⟩
    | some inner =>
      simp only [hinner] at he
      rcases ih _ e he with he | ⟨member', hmem, h⟩
      · rcases mem_append.mp he with he | he
        · exact Or.inl he
        · exact Or.inr ⟨member, mem_cons_self, inner, hinner, hgo inner _ _ e he⟩
      · exact Or.inr ⟨member', mem_cons_of_mem _ hmem, h⟩

theorem level_sound (fuel : ℕ) :
    ∀ b label seen, ∀ e ∈ (g.level fuel b label seen).1,
      ∃ last, ReflTransGen g.Inner b last ∧ g.LevelFeeds last e.dest := by
  induction fuel with
  | zero => simp [level]
  | succ fuel ih =>
    intro b label seen e he
    rw [level] at he
    split_ifs at he with hseen hset
    · simp at he
    all_goals
      -- The edges before the fallback are the same in both cases.
      have hbefore : e ∈ (g.levelMembers (g.level fuel) label b.members
          (g.candidates b label, b.tag :: seen)).1 ++ g.overrides b label →
          ∃ last, ReflTransGen g.Inner b last ∧ g.LevelFeeds last e.dest := by
        intro he
        rcases mem_append.mp he with he | he
        · rcases levelMembers_sound ih label b.members _ e he with he | hmember
          · obtain ⟨tag, htag, hsel, h, hh, hfeeds⟩ := (mem_candidates label).mp ⟨e, he, rfl⟩
            exact ⟨b, .refl, h, .candidate tag htag hsel hh, hfeeds⟩
          · obtain ⟨member, hmem, inner, hinner, last, hwalk, hfeeds⟩ := hmember
            exact ⟨last, hwalk.head (.member member hmem hinner), hfeeds⟩
        · obtain ⟨htarget, h, hh, hfeeds⟩ := (mem_overrides label).mp ⟨e, he, rfl⟩
          exact ⟨b, .refl, h, .override htarget hh, hfeeds⟩
    · rcases mem_append.mp he with he | he
      · exact hbefore he
      · obtain ⟨h, hh, hfeeds⟩ := (mem_reach _).mp ⟨e, he, rfl⟩
        exact ⟨b, .refl, h, .default hset hh, hfeeds⟩
    · cases hnext : g.balancers.lookup b.fallbackTag with
      | some next =>
        simp only [hnext] at he
        rcases mem_append.mp he with he | he
        · exact hbefore he
        · obtain ⟨last, hwalk, hfeeds⟩ := ih next _ _ e he
          exact ⟨last, hwalk.head (.fallback hset hnext), hfeeds⟩
      | none =>
        simp only [hnext] at he
        rcases mem_append.mp he with he | he
        · exact hbefore he
        · obtain ⟨h, hh, hfeeds⟩ := (mem_reach _).mp ⟨e, he, rfl⟩
          exact ⟨b, .refl, h, .fallback hset hnext hh, hfeeds⟩

/-- Everything about the balancer stored under `x` is on record. -/
def Covered (g : LoopGraph) (edges : List LoopEdge) (seen : List String) (x : String) : Prop :=
  ∀ b, g.balancers.lookup x = some b →
    (∀ inner, g.Inner b inner → inner.tag ∈ seen) ∧
    ∀ next, g.LevelFeeds b next → ∃ e ∈ edges, e.dest = next

/-- Everything about the balancers seen since `start` is on record. -/
structure Covers (g : LoopGraph) (start : List String) (edges : List LoopEdge)
    (seen : List String) : Prop where
  subset : start ⊆ seen
  covered : ∀ x ∈ seen, x ∉ start → g.Covered edges seen x

variable {seen : List String} {edges : List LoopEdge}

theorem Covered.mono {edges' : List LoopEdge} {seen' : List String} {x : String}
    (h : g.Covered edges seen x) (hedges : edges ⊆ edges') (hseen : seen ⊆ seen') :
    g.Covered edges' seen' x := by
  intro b hb
  refine ⟨fun inner hinner => hseen ((h b hb).1 inner hinner), fun next hnext => ?_⟩
  obtain ⟨e, he, heq⟩ := (h b hb).2 next hnext
  exact ⟨e, hedges he, heq⟩

theorem Covers.refl (seen : List String) (edges : List LoopEdge) : g.Covers seen edges seen :=
  ⟨List.Subset.refl _, fun _ hx hn => absurd hx hn⟩

theorem Covers.trans {start mid : List String} {edges' : List LoopEdge}
    (h : g.Covers start edges mid) (h' : g.Covers mid edges' seen) :
    g.Covers start (edges ++ edges') seen := by
  refine ⟨fun x hx => h'.subset (h.subset hx), fun x hx hn => ?_⟩
  by_cases hmid : x ∈ mid
  · exact (h.covered x hmid hn).mono (subset_append_left _ _) h'.subset
  · exact (h'.covered x hx hmid).mono (subset_append_right _ _) (List.Subset.refl _)

/-- The edges of the outbound that ends a level's fallbacks. -/
def lastEdges (g : LoopGraph) (b : Balancer) (label : String) : List LoopEdge :=
  if b.fallbackTag = "" then g.reach g.default (label ++ " default")
  else match g.balancers.lookup b.fallbackTag with
    | some _ => []
    | none => g.reach (g.byTag.lookup b.fallbackTag) (label ++ " fallback")

theorem LevelFeeds.mem (h : g.LevelFeeds b next) (label : String) :
    ∃ e ∈ g.candidates b label ++ g.overrides b label ++ g.lastEdges b label, e.dest = next := by
  obtain ⟨h, htarget, hfeeds⟩ := h
  cases htarget with
  | candidate tag htag hsel hh =>
    obtain ⟨e, he, heq⟩ := (mem_candidates label).mpr ⟨tag, htag, hsel, h, hh, hfeeds⟩
    exact ⟨e, by simp [he], heq⟩
  | override hset hh =>
    obtain ⟨e, he, heq⟩ := (mem_overrides label).mpr ⟨hset, h, hh, hfeeds⟩
    exact ⟨e, by simp [he], heq⟩
  | fallback hset hout hh =>
    obtain ⟨e, he, heq⟩ := (mem_reach (label ++ " fallback")).mpr ⟨h, hh, hfeeds⟩
    exact ⟨e, by simp [lastEdges, hset, hout, he], heq⟩
  | default hset hh =>
    obtain ⟨e, he, heq⟩ := (mem_reach (label ++ " default")).mpr ⟨h, hh, hfeeds⟩
    exact ⟨e, by simp [lastEdges, hset, he], heq⟩

/-- A balancer is on record once its own edges and all it leads on to are. -/
theorem Covers.close {start : List String} (h : g.Covers (b.tag :: start) edges seen)
    (hb : g.balancers.lookup b.tag = some b) (label : String)
    (hown : g.candidates b label ++ g.overrides b label ++ g.lastEdges b label ⊆ edges)
    (hinner : ∀ inner, g.Inner b inner → inner.tag ∈ seen) : g.Covers start edges seen := by
  refine ⟨fun x hx => h.subset (mem_cons_of_mem _ hx), fun x hx hn => ?_⟩
  by_cases hxb : x = b.tag
  · subst hxb
    intro b' hb'
    obtain rfl : b = b' := by simpa [hb] using hb'
    refine ⟨hinner, fun next hnext => ?_⟩
    obtain ⟨e, he, heq⟩ := hnext.mem label
    exact ⟨e, hown he, heq⟩
  · exact h.covered x hx (by simp [hxb, hn])

/-- The balancers that are not seen yet. -/
def unseen (g : LoopGraph) (seen : List String) : ℕ :=
  (g.balancers.keys.filter fun x => decide (x ∉ seen)).length

theorem unseen_le {seen' : List String} (h : seen ⊆ seen') : g.unseen seen' ≤ g.unseen seen := by
  unfold unseen
  rw [← countP_eq_length_filter, ← countP_eq_length_filter]
  refine countP_mono_left fun x _ hx => ?_
  simp only [decide_eq_true_eq] at hx ⊢
  exact fun hin => hx (h hin)

theorem unseen_cons_lt {x : String} (hx : x ∈ g.balancers) (hn : x ∉ seen) :
    g.unseen (x :: seen) < g.unseen seen := by
  have hsub : g.balancers.keys.filter (fun y => decide (y ∉ x :: seen)) =
      (g.balancers.keys.filter fun y => decide (y ∉ seen)).filter (fun y => decide (y ≠ x)) := by
    rw [filter_filter]
    refine filter_congr fun y _ => ?_
    simp [not_or]
  unfold unseen
  rw [hsub]
  refine length_filter_lt_length_iff_exists.mpr ⟨x, ?_, by simp⟩
  rw [mem_filter]
  exact ⟨AList.mem_keys.mp hx, by simpa using hn⟩

/-- The walk `go` leaves nothing out while at most `n` balancers are unseen. -/
def Complete (g : LoopGraph) (n : ℕ)
    (go : Balancer → String → List String → List LoopEdge × List String) : Prop :=
  ∀ b label seen, g.balancers.lookup b.tag = some b → g.unseen seen < n →
    g.Covers seen (go b label seen).1 (go b label seen).2 ∧ b.tag ∈ (go b label seen).2

theorem levelMembers_complete {n : ℕ}
    (hstored : ∀ tag b, g.balancers.lookup tag = some b → b.tag = tag) (hgo : g.Complete n go)
    (label : String) (start members : List String) :
    ∀ acc, g.Covers start acc.1 acc.2 → g.unseen acc.2 < n →
      g.Covers start (g.levelMembers go label members acc).1
        (g.levelMembers go label members acc).2 ∧
      acc.1 ⊆ (g.levelMembers go label members acc).1 ∧
      acc.2 ⊆ (g.levelMembers go label members acc).2 ∧
      ∀ member ∈ members, ∀ inner, g.balancers.lookup member = some inner →
        inner.tag ∈ (g.levelMembers go label members acc).2 := by
  induction members with
  | nil => exact fun acc hacc _ => ⟨hacc, List.Subset.refl _, List.Subset.refl _, by simp⟩
  | cons member members ih =>
    intro acc hacc hlt
    rw [levelMembers]
    cases hinner : g.balancers.lookup member with
    | none =>
      obtain ⟨hcov, hedges, hseen, hall⟩ := ih acc hacc hlt
      refine ⟨hcov, hedges, hseen, fun member' hmem inner hlook => ?_⟩
      rcases mem_cons.mp hmem with rfl | hmem
      · simp [hinner] at hlook
      · exact hall member' hmem inner hlook
    | some inner =>
      have hself : g.balancers.lookup inner.tag = some inner := by
        rw [hstored member inner hinner, hinner]
      obtain ⟨hcov₁, htag⟩ := hgo inner (label ++ " member " ++ member) acc.2 hself hlt
      obtain ⟨hcov, hedges, hseen, hall⟩ := ih (acc.1 ++ _, _) (hacc.trans hcov₁)
        (Nat.lt_of_le_of_lt (unseen_le hcov₁.subset) hlt)
      refine ⟨hcov, fun e he => hedges (mem_append_left _ he),
        fun x hx => hseen (hcov₁.subset hx), fun member' hmem inner' hlook => ?_⟩
      rcases mem_cons.mp hmem with rfl | hmem
      · obtain rfl : inner = inner' := by simpa [hinner] using hlook
        exact hseen htag
      · exact hall member' hmem inner' hlook

theorem level_complete (hstored : ∀ tag b, g.balancers.lookup tag = some b → b.tag = tag)
    (fuel : ℕ) : g.Complete fuel (g.level fuel) := by
  induction fuel with
  | zero => exact fun _ _ _ _ hlt => absurd hlt (Nat.not_lt_zero _)
  | succ fuel ih =>
    intro b label seen hb hlt
    rw [level]
    split_ifs with hseen hset
    · exact ⟨Covers.refl seen _, hseen⟩
    all_goals
      -- The balancer itself counts as seen while its members are walked.
      have hlt' : g.unseen (b.tag :: seen) < fuel :=
        Nat.lt_of_lt_of_le (unseen_cons_lt (mem_of_lookup hb) hseen) (Nat.le_of_lt_succ hlt)
      obtain ⟨hcov, hcand, hsub, hmembers⟩ := levelMembers_complete hstored ih label
        (b.tag :: seen) b.members (g.candidates b label, b.tag :: seen)
        (Covers.refl _ _) hlt'
      generalize g.levelMembers (g.level fuel) label b.members
        (g.candidates b label, b.tag :: seen) = acc at hcov hcand hsub hmembers ⊢
      have hself : b.tag ∈ acc.2 := hsub mem_cons_self
      have hown : g.candidates b label ++ g.overrides b label ⊆ acc.1 ++ g.overrides b label :=
        append_subset.mpr ⟨subset_append_of_subset_left _ hcand, by simp⟩
    · -- Without a fallback the default ends the walk.
      have hcov' := hcov.trans (Covers.refl acc.2
        (g.overrides b label ++ g.reach g.default (label ++ " default")))
      rw [← append_assoc] at hcov'
      refine ⟨hcov'.close hb label ?_ ?_, hself⟩
      · simp only [lastEdges, hset, if_true]
        exact append_subset.mpr
          ⟨subset_append_of_subset_left _ hown, subset_append_right _ _⟩
      · rintro inner (⟨tag, htag, hin⟩ | ⟨hne, -⟩)
        · exact hmembers tag htag inner hin
        · exact absurd hset hne
    · cases hnext : g.balancers.lookup b.fallbackTag with
      | some next =>
        -- The fallback is a balancer, and the walk goes on there.
        have hnself : g.balancers.lookup next.tag = some next := by
          rw [hstored _ next hnext, hnext]
        obtain ⟨hcov₁, htag⟩ := ih next (label ++ " -> " ++ next.tag) acc.2 hnself
          (Nat.lt_of_le_of_lt (unseen_le hsub) hlt')
        have hcov' := (hcov.trans (Covers.refl acc.2 (g.overrides b label))).trans hcov₁
        refine ⟨hcov'.close hb label ?_ ?_, hcov₁.subset hself⟩
        · simp only [lastEdges, hset, if_false, hnext, append_nil]
          exact subset_append_of_subset_left _ hown
        · rintro inner (⟨tag, hmem, hin⟩ | ⟨-, hin⟩)
          · exact hcov₁.subset (hmembers tag hmem inner hin)
          · obtain rfl : next = inner := by simpa [hnext] using hin
            exact htag
      | none =>
        have hcov' := hcov.trans (Covers.refl acc.2 (g.overrides b label ++
          g.reach (g.byTag.lookup b.fallbackTag) (label ++ " fallback")))
        rw [← append_assoc] at hcov'
        refine ⟨hcov'.close hb label ?_ ?_, hself⟩
        · simp only [lastEdges, hset, if_false, hnext]
          exact append_subset.mpr
            ⟨subset_append_of_subset_left _ hown, subset_append_right _ _⟩
        · rintro inner (⟨tag, hmem, hin⟩ | ⟨-, hin⟩)
          · exact hmembers tag hmem inner hin
          · simp [hnext] at hin

/-- **The edges of `chain` are all that the balancer can lead to.** -/
theorem mem_chain (hstored : ∀ tag b, g.balancers.lookup tag = some b → b.tag = tag)
    (hb : g.balancers.lookup b.tag = some b) (label next : String) :
    (∃ e ∈ g.chain b label, e.dest = next) ↔ ∃ h, g.Leads b h ∧ Feeds g.byTag h next := by
  refine ⟨?_, ?_⟩
  · rintro ⟨e, he, rfl⟩
    obtain ⟨last, hwalk, h, htarget, hfeeds⟩ := level_sound _ _ _ _ e he
    exact ⟨h, ⟨last, hwalk, htarget⟩, hfeeds⟩
  · rintro ⟨h, ⟨last, hwalk, htarget⟩, hfeeds⟩
    have hlt : g.unseen [] < g.balancers.keys.length + 1 :=
      Nat.lt_succ_of_le (length_filter_le _ _)
    obtain ⟨hcov, htag⟩ := level_complete hstored _ b (label ++ ", balancer " ++ b.tag) [] hb hlt
    -- Every balancer on the way is stored and was seen.
    have hlast : last.tag ∈ (g.level (g.balancers.keys.length + 1) b
        (label ++ ", balancer " ++ b.tag) []).2 ∧ g.balancers.lookup last.tag = some last := by
      clear htarget
      induction hwalk with
      | refl => exact ⟨htag, hb⟩
      | tail _ hinner ih =>
        refine ⟨(hcov.covered _ ih.1 (by simp) _ ih.2).1 _ hinner, ?_⟩
        cases hinner with
        | member tag _ hin => rw [hstored tag _ hin, hin]
        | fallback _ hin => rw [hstored _ _ hin, hin]
    exact (hcov.covered _ hlast.1 (by simp) _ hlast.2).2 next ⟨h, htarget, hfeeds⟩

/-! ## The walk over the rules -/

/-- The rule that can be taken in `state`, each condition but the inbound tag's
    free to hold or not; `none` when no rule need apply. -/
def MayPick (state : String) : List Rule → Option Rule → Prop
  | [], pick => pick = none
  | rule :: rules, pick =>
    (rule.admits state = true ∧ pick = some rule) ∨
    ((rule.admits state = false ∨ matchesOnInboundOnly rule.config = false) ∧
      MayPick state rules pick)

variable {state : String}

theorem mem_of_mayPick {rules : List Rule} {rule : Rule} (h : MayPick state rules (some rule)) :
    rule ∈ rules := by
  induction rules with
  | nil => simp [MayPick] at h
  | cons first rules ih =>
    rcases h with ⟨-, heq⟩ | ⟨-, h⟩
    · obtain rfl : rule = first := by simpa using heq
      exact mem_cons_self
    · exact mem_cons_of_mem _ (ih h)

/-- Every choice of rule has its outcomes. -/
theorem mayPick_iff (hstate : state ≠ "") (rules : List Rule) (pick : Option Rule) :
    MayPick state rules pick ↔ ∃ holds, pickRule state rules holds = pick := by
  induction rules with
  | nil => simp [MayPick, pickRule, eq_comm]
  | cons rule rules ih =>
    rw [MayPick, ih]
    refine ⟨?_, ?_⟩
    · rintro (⟨hadmits, rfl⟩ | ⟨hfail, holds, hpick⟩)
      · exact ⟨fun _ _ => true, by simp [pickRule, apply_true hstate hadmits]⟩
      · refine ⟨fun i => Nat.casesOn i (fun _ => false) holds, ?_⟩
        simp [pickRule, apply_false hstate hfail, hpick]
    · rintro ⟨holds, hpick⟩
      rw [pickRule] at hpick
      split_ifs at hpick with happly
      · exact Or.inl ⟨admits_of_apply hstate happly, hpick.symm⟩
      · refine Or.inr ⟨?_, _, hpick⟩
        -- A rule that did not apply had another condition or did not admit the tag.
        by_contra hcon
        simp only [not_or, Bool.not_eq_false] at hcon
        exact happly (apply_of_matchesOnInboundOnly hstate hcon.1 hcon.2 _)

theorem mem_ruleEdges (hg : g.Stored) {rule : Rule} (hrule : rule ∈ g.rules) (i : ℕ)
    (next : String) :
    (∃ e ∈ g.ruleEdges i rule, e.dest = next) ↔
      ∃ h, g.Routes (some rule) h ∧ Feeds g.byTag h next := by
  cases hb : rule.balancer with
  | some b =>
    simp only [ruleEdges, Routes, hb]
    exact mem_chain hg.tag_eq (hg.rule_balancer rule hrule b hb) _ next
  | none =>
    simp only [ruleEdges, Routes, hb]
    exact mem_reach _

theorem mem_fromRules (hg : g.Stored) (state next : String) :
    ∀ (rules : List Rule) (i : ℕ), rules ⊆ g.rules →
      ((∃ e ∈ g.fromRules state i rules, e.dest = next) ↔
        ∃ pick h, MayPick state rules pick ∧ g.Routes pick h ∧ Feeds g.byTag h next) := by
  intro rules
  induction rules with
  | nil =>
    intro i _
    rw [fromRules, mem_reach]
    simp [MayPick, Routes]
  | cons rule rules ih =>
    intro i hsub
    have hrule : rule ∈ g.rules := hsub mem_cons_self
    have hrest := ih (i + 1) fun r hr => hsub (mem_cons_of_mem _ hr)
    have hown := mem_ruleEdges hg hrule i next
    have hadmits : (rule.config.inboundTag ≠ [] ∧ state ∉ rule.config.inboundTag) ↔
        rule.admits state = false := by
      simp [Rule.admits]
    simp only [fromRules, hadmits, MayPick]
    split_ifs with hskip honly
    · rw [hrest]
      simp [hskip]
    · rw [hown]
      simp [hskip, honly]
    · simp only [mem_append, or_and_right, exists_or, hown, hrest]
      simp [hskip, honly]

/-- The state that can follow `state`, by the rules that the check lets apply. -/
def Possible (g : LoopGraph) (state next : String) : Prop :=
  ∃ pick h, MayPick state g.rules pick ∧ g.Routes pick h ∧ Feeds g.byTag h next

theorem possible_iff_step (hstate : state ≠ "") (next : String) :
    g.Possible state next ↔ g.Step state next := by
  refine ⟨?_, ?_⟩
  · rintro ⟨pick, h, hpick, hroutes, hfeeds⟩
    obtain ⟨holds, rfl⟩ := (mayPick_iff hstate _ _).mp hpick
    exact ⟨holds, h, hroutes, hfeeds⟩
  · rintro ⟨holds, h, hroutes, hfeeds⟩
    exact ⟨_, h, (mayPick_iff hstate _ _).mpr ⟨holds, rfl⟩, hroutes, hfeeds⟩

end LoopGraph

/-! ## What the check decides -/

variable {handlers : List Handler} {state : String}

theorem mem_loopStates :
    state ∈ loopStates handlers ↔
      ∃ h ∈ handlers, ∃ view, h.view = some view ∧ view.loopbackInbound = some state := by
  simp [loopStates, mem_dedup, mem_filterMap, Option.bind_eq_some_iff]

theorem shortestLoopCycle_eq_empty_iff (edges : String → List LoopEdge)
    {component : List String} (h : component ≠ []) :
    shortestLoopCycle edges component = "" ↔
      shortestCycle edges LoopEdge.dest component = none := by
  obtain ⟨start, rest, rfl⟩ := exists_cons_of_ne_nil h
  have hspec := shortestCycle_spec edges LoopEdge.dest start rest
  cases hres : shortestCycle edges LoopEdge.dest (start :: rest) with
  | none => simp [shortestLoopCycle, hres]
  | some path =>
    rw [hres] at hspec
    have hne := foldl_append_ne_empty
      (fun p : LoopEdge => " -> [" ++ p.label ++ "] " ++ p.via ++ " -> " ++ p.dest)
      (by simp [String.append_eq_empty_iff]) path start (Or.inl hspec.1)
    simp [shortestLoopCycle, hres, hne]

variable {g : LoopGraph}

/-- The states and their edges are those of `Possible`. -/
theorem edge_loopEdges_iff (hg : g.Stored) (x y : String) :
    Edge (loopEdges g handlers) LoopEdge.dest x y ↔
      x ∈ loopStates handlers ∧ (g.withHandlers handlers).Possible x y := by
  have hg' : (g.withHandlers handlers).Stored := ⟨hg.tag_eq, hg.rule_balancer⟩
  unfold Edge loopEdges
  split_ifs with hx
  · simp only [hx, true_and]
    exact LoopGraph.mem_fromRules hg' x y _ 0 (List.Subset.refl _)
  · simp [hx]

/-- **`loopbackLoops` returns nil exactly when the states have no cycle.** -/
theorem loopbackLoops_eq_none_iff (hg : g.Stored) (handlers : List Handler) :
    loopbackLoops g handlers = none ↔
      Acyclic fun x y => x ∈ loopStates handlers ∧ (g.withHandlers handlers).Possible x y := by
  have hedge : Edge (loopEdges g handlers) LoopEdge.dest =
      fun x y => x ∈ loopStates handlers ∧ (g.withHandlers handlers).Possible x y := by
    funext x y
    exact propext (edge_loopEdges_iff hg x y)
  have hstart : ∀ x, x ∉ (loopStates handlers).insertionSort (· ≤ ·) →
      loopEdges g handlers x = [] := by
    intro x hx
    rw [mem_insertionSort] at hx
    rw [loopEdges, if_neg hx]
  have hcycles : loopCycles g handlers = [] ↔ Acyclic (Edge (loopEdges g handlers) LoopEdge.dest) :=
    reports_eq_nil_iff LoopEdge.dest hstart (shortestLoopCycle (loopEdges g handlers))
      (fun text => decide (text ≠ ""))
      (fun c hc => by simpa using shortestLoopCycle_eq_empty_iff _ hc)
  rw [← hedge, ← hcycles, loopbackLoops]
  split_ifs with hstates hnil
  · simp [hstates, loopCycles, stronglyConnected, components, visitAll, Tarjan.init]
  · exact iff_of_true rfl hnil
  · exact iff_of_false (by simp) hnil

/-- What the loopbacks feed stays among their inbound tags. -/
theorem mem_loopStates_of_step (hdefault : ∀ h, g.default = some h → h ∈ handlers) {next : String}
    (hstep : (g.withHandlers handlers).Step state next) : next ∈ loopStates handlers := by
  obtain ⟨holds, h, hroutes, hfeeds⟩ := hstep
  refine mem_loopStates.mpr (exists_loopback_of_feeds ?_ hfeeds)
  have hlook : ∀ tag, (byTag handlers).lookup tag = some h → h ∈ handlers :=
    fun tag htag => (byTag_lookup_some htag).1
  unfold LoopGraph.Routes at hroutes
  split at hroutes
  · exact hdefault h hroutes
  · split at hroutes
    · obtain ⟨last, -, htarget⟩ := hroutes
      cases htarget with
      | candidate tag _ _ hh => exact hlook tag hh
      | override _ hh => exact hlook _ hh
      | fallback _ _ hh => exact hlook _ hh
      | default _ hh => exact hdefault h hh
    · exact hlook _ hroutes

/-- Along any walk of decisions from a state no state is met twice, once the check
    found nothing. -/
theorem steps_nodup (hg : g.Stored) (hdefault : ∀ h, g.default = some h → h ∈ handlers)
    (hnonempty : ∀ state ∈ loopStates handlers, state ≠ "")
    (hnone : loopbackLoops g handlers = none) {passed : List String}
    (hstate : state ∈ loopStates handlers)
    (hchain : (state :: passed).IsChain (g.withHandlers handlers).Step) :
    (state :: passed).Nodup := by
  refine ((loopbackLoops_eq_none_iff hg handlers).mp hnone).chain_nodup ?_
  -- The walk never leaves the states, so each of its steps is an edge of the check.
  induction passed generalizing state with
  | nil => simp
  | cons next passed ih =>
    rw [isChain_cons_cons] at hchain ⊢
    refine ⟨⟨hstate, ?_⟩, ih (mem_loopStates_of_step hdefault hchain.1) hchain.2⟩
    exact (LoopGraph.possible_iff_step (hnonempty state hstate) next).mpr hchain.1

/-- **The loopback check is exact.**  `g` holds any rules, balancers, override
    targets and default handler that the router can hold, and no loopback feeds
    the empty inbound tag.  Without an error, whatever the conditions and the
    balancers decide, a connection that a loopback fed in meets no loopback
    inbound tag twice; with an error some decisions lead it to one again. -/
theorem loopback_loops_exact (g : LoopGraph) (handlers : List Handler) (hg : g.Stored)
    (hdefault : ∀ h, g.default = some h → h ∈ handlers)
    (hnonempty : ∀ state ∈ loopStates handlers, state ≠ "") :
    (loopbackLoops g handlers = none → ∀ state ∈ loopStates handlers, ∀ passed : List String,
      (state :: passed).IsChain (g.withHandlers handlers).Step → (state :: passed).Nodup) ∧
    (∀ err, loopbackLoops g handlers = some err → ∃ state ∈ loopStates handlers,
      ∃ passed : List String, (state :: passed).IsChain (g.withHandlers handlers).Step ∧
        ¬ (state :: passed).Nodup) := by
  have hiff := loopbackLoops_eq_none_iff hg handlers
  have hstep : ∀ x ∈ loopStates handlers, ∀ y,
      (g.withHandlers handlers).Possible x y ↔ (g.withHandlers handlers).Step x y :=
    fun x hx y => LoopGraph.possible_iff_step (hnonempty x hx) y
  refine ⟨fun hnone state hstate passed hchain => ?_, fun err herr => ?_⟩
  · exact steps_nodup hg hdefault hnonempty hnone hstate hchain
  · have hcycle : ¬ Acyclic fun x y =>
        x ∈ loopStates handlers ∧ (g.withHandlers handlers).Possible x y := by
      rw [← hiff, herr]
      simp
    simp only [Acyclic, not_forall, not_not] at hcycle
    obtain ⟨state, hloop⟩ := hcycle
    obtain ⟨next, ⟨hstate, hfirst⟩, hrest⟩ := TransGen.head'_iff.mp hloop
    obtain ⟨passed, hchain, hlast⟩ := exists_isChain_cons_of_relationReflTransGen hrest
    refine ⟨state, hstate, next :: passed, ?_, ?_⟩
    · rw [isChain_cons_cons]
      refine ⟨(hstep state hstate next).mp hfirst, hchain.imp fun x y hxy => ?_⟩
      exact (hstep x hxy.1 y).mp hxy.2
    · rw [nodup_cons, not_and_or, not_not]
      exact Or.inl (hlast ▸ getLast_mem _)

/-- A loopback that two outbounds lead to, behind a rule and behind a balancer. -/
def loopbackHandlers : List Handler :=
  [{ tag := "direct", view := some { dialerProxy := "", loopbackInbound := none },
     settingsType := "xray.proxy.freedom.Config" },
   { tag := "lo", view := some { dialerProxy := "", loopbackInbound := some "back" },
     settingsType := "xray.proxy.loopback.Config" },
   { tag := "via-lo", view := some { dialerProxy := "lo", loopbackInbound := none },
     settingsType := "xray.proxy.freedom.Config" }]

/-- What comes back goes out; everything else comes back. -/
def loopbackGraph : LoopGraph :=
  { rules := [{ tag := "direct", ruleTag := "returned", balancer := none, webhook := none,
                config := { targetTag := .tag "direct", ruleTag := "returned",
                            inboundTag := ["back"], conditions := [], webhook := none },
                effective := by decide },
              { tag := "", ruleTag := "", balancer := some nestedBalancer, webhook := none,
                config := { targetTag := .balancingTag "outer", ruleTag := "", inboundTag := [],
                            conditions := [.networks], webhook := none },
                effective := by decide }]
    balancers := nestedBalancers
    override := ∅
    current := fun _ => "via-lo"
    byTag := ∅
    tags := []
    default := loopbackHandlers.head? }

theorem loopback_loops_exact_returned :
    loopbackLoops loopbackGraph loopbackHandlers = none ∧
    ∀ passed, ("back" :: passed).IsChain (loopbackGraph.withHandlers loopbackHandlers).Step →
      ("back" :: passed).Nodup := by
  have hnone : loopbackLoops loopbackGraph loopbackHandlers = none := by decide
  have hstored : loopbackGraph.Stored := by
    refine ⟨fun tag b hb => ?_, fun rule hrule b hb => ?_⟩
    · have hall : ∀ e ∈ loopbackGraph.balancers.entries, e.2.tag = e.1 := by decide
      exact hall ⟨tag, b⟩ (AList.mem_lookup_iff.mp hb)
    · simp only [loopbackGraph, mem_cons, not_mem_nil, or_false] at hrule
      rcases hrule with rfl | rfl
      · simp at hb
      · obtain rfl : nestedBalancer = b := by simpa using hb
        rfl
  have hdefault : ∀ h, loopbackGraph.default = some h → h ∈ loopbackHandlers :=
    fun h hh => mem_of_mem_head? hh
  have hexact := loopback_loops_exact loopbackGraph loopbackHandlers hstored hdefault (by decide)
  exact ⟨hnone, hexact.1 hnone "back" (by decide)⟩

end XrayCore.Router
