/-
  XrayCore.Router.Chain

  Picking through a chain of balancers (`Balancer.pick` in
  `app/router/balancing.go`, `resolveChain` and `GetFallbackChain` in
  `app/router/fallback_chain.go`).

  What a pick reads of its surroundings — the outbounds a selector matches, the
  override target, the strategy — is a `Surroundings`, and each level of a chain
  has one of its own, so a result about all surroundings is one about every
  strategy and every outcome.

  Both loops carry a bound that a map with a cycle would need.  On a map that
  `checkBalancerGraph` accepts neither is ever reached: a level leads on along an
  edge of the graph, and a walk of a graph without cycles is no longer than the
  map is large.
-/

import XrayCore.Router.Balancer

namespace XrayCore.Router

open XrayCore.Graph List

/-! ## One level -/

/-- What a pick reads besides the balancer. -/
structure Surroundings where
  /-- `Select` of the outbound manager, if that is a `HandlerSelector`. -/
  select : Option (List String → List String)
  /-- The balancer's override target, `""` for none. -/
  override : String
  /-- `PickOutbound` of the balancer's strategy. -/
  pickOutbound : List String → String
  /-- `FallbackActive` of the strategy, if that can tell. -/
  fallbackActive : Option (List String → Bool)

/-- The candidates of a level: the outbounds its selectors match, then its
    member balancers. -/
def selectOutbounds (env : Surroundings) (b : Balancer) : Except String (List String) :=
  if b.selectors = [] then .ok b.members
  else match env.select with
    | none => .error "outbound.Manager is not a HandlerSelector"
    | some select => .ok (select b.selectors ++ b.members)

/-- The tag that is picked at this level, and whether it is the fallback. -/
def pick (env : Surroundings) (b : Balancer) : Except String (String × Bool) :=
  match selectOutbounds env b with
  | .error err => if b.fallbackTag ≠ "" then .ok (b.fallbackTag, true) else .error err
  | .ok candidates =>
    let tag := if env.override ≠ "" then env.override else env.pickOutbound candidates
    if tag = "" then
      if b.fallbackTag ≠ "" then .ok (b.fallbackTag, true)
      else .error "balancing strategy returns empty tag"
    else .ok (tag, false)

/-- Whether the level uses its fallback now, and whether it can tell. -/
def fallbackState (env : Surroundings) (b : Balancer) : Bool × Bool :=
  match env.fallbackActive with
  | none => (false, false)
  | some active =>
    match selectOutbounds env b with
    | .error _ => (decide (b.fallbackTag ≠ ""), true)
    | .ok candidates => (decide (b.fallbackTag ≠ "") && active candidates, true)

/-- A pick says "fallback" only of the fallback. -/
theorem pick_fallback {env : Surroundings} {b : Balancer} {tag : String}
    (h : pick env b = .ok (tag, true)) : tag = b.fallbackTag := by
  unfold pick at h
  cases hc : selectOutbounds env b with
  | error err =>
    simp only [hc] at h
    split_ifs at h with hf
    simp only [Except.ok.injEq, Prod.mk.injEq, and_true] at h
    exact h.symm
  | ok candidates =>
    simp only [hc] at h
    split_ifs at h with _ _ hf
    all_goals simp at h
    all_goals exact h.symm

/-! ## The whole chain -/

/-- Why no tag is picked. -/
inductive PickError where
  | failed (text : String)
  | routeDropped
  deriving DecidableEq, Repr

/-- The loop of `resolveChain` for `n` more levels, the next one `level`: `none`
    when it runs out of them. -/
def resolveLevels (env : ℕ → Balancer → Surroundings) (m : BalancerMap) :
    ℕ → ℕ → Balancer → Option (Except String String)
  | 0, _, _ => none
  | n + 1, level, b =>
    match pick (env level b) b with
    | .error err => some (.error err)
    | .ok (tag, fallback) =>
      if !fallback && decide (tag ∉ b.members) then some (.ok tag)
      else match m.lookup tag with
        | none => some (.ok tag)
        | some next => resolveLevels env m n (level + 1) next

/-- `resolveChain`, with the guard's counter before and after. -/
def resolveChain (env : ℕ → Balancer → Surroundings) (fallbackChainGuard : UInt64)
    (first : Balancer)
    (m : BalancerMap) : Except PickError String × UInt64 :=
  match resolveLevels env m (m.keys.length + 1) 0 first with
  | some (.ok tag) => (.ok tag, fallbackChainGuard)
  | some (.error err) => (.error (.failed err), fallbackChainGuard)
  | none => (.error .routeDropped, fallbackChainGuard + 1)

/-- One hop of a chain as the control plane shows it. -/
structure FallbackHop where
  tag : String
  balancer : Bool
  active : Bool
  reported : Bool
  deriving DecidableEq, Repr

/-- The loop of `GetFallbackChain` for `n` more hops. -/
def fallbackHops (env : String → Surroundings) (v : BalancerMap) : ℕ → String → List FallbackHop
  | 0, _ => []
  | n + 1, next =>
    if next = "" then []
    else match v.lookup next with
      | none => [{ tag := next, balancer := false, active := false, reported := false }]
      | some hop =>
        { tag := next, balancer := true, active := (fallbackState (env next) hop).1,
          reported := (fallbackState (env next) hop).2 } :: fallbackHops env v n hop.fallbackTag

/-- `GetFallbackChain`: the loop goes on while the chain has at most `len(v)` hops. -/
def getFallbackChain (env : String → Surroundings) (v : BalancerMap) (tag : String) :
    Except String (List FallbackHop) :=
  match v.lookup tag with
  | none => .error "cannot find tag"
  | some b => .ok (fallbackHops env v (v.keys.length + 1) b.fallbackTag)

/-! ## Both loops walk the graph -/

variable {m : BalancerMap} {key tag : String} {b : Balancer}

/-- A level that leads on leads along an edge. -/
theorem balancerEdge_of_pick {next : Balancer} {env : Surroundings} {fallback : Bool}
    (hb : m.lookup key = some b) (hpick : pick env b = .ok (tag, fallback))
    (hon : ¬ ((!fallback && decide (tag ∉ b.members)) = true)) (hnext : m.lookup tag = some next) :
    BalancerEdge m key tag := by
  refine ⟨b, hb, mem_of_lookup hnext, ?_⟩
  cases fallback with
  | true => exact Or.inr (pick_fallback hpick)
  | false => exact Or.inl (by simpa using hon)

/-- A walk over `n + 1` balancers. -/
def Walks (m : BalancerMap) (n : ℕ) (key : String) : Prop :=
  ∃ walk, walk.length = n ∧ (key :: walk).IsChain (BalancerEdge m) ∧ ∀ x ∈ key :: walk, x ∈ m

theorem Walks.zero (hb : m.lookup key = some b) : Walks m 0 key :=
  ⟨[], rfl, by simp, by simpa using mem_of_lookup hb⟩

theorem Walks.cons {n : ℕ} (hb : m.lookup key = some b) (hedge : BalancerEdge m key tag)
    (h : Walks m n tag) : Walks m (n + 1) key := by
  obtain ⟨walk, hlen, hchain, hmem⟩ := h
  refine ⟨tag :: walk, by simp [hlen], hchain.cons_cons hedge, ?_⟩
  exact forall_mem_cons.mpr ⟨mem_of_lookup hb, hmem⟩

variable {env : ℕ → Balancer → Surroundings}

/-- Running out of `n` levels means a walk over `n + 1` balancers. -/
theorem resolveLevels_eq_none :
    ∀ (n level : ℕ) (key : String) (b : Balancer), m.lookup key = some b →
      resolveLevels env m n level b = none → Walks m n key := by
  intro n
  induction n with
  | zero => exact fun _ key b hb _ => .zero hb
  | succ n ih =>
    intro level key b hb hnone
    rw [resolveLevels] at hnone
    cases hpick : pick (env level b) b with
    | error err => simp [hpick] at hnone
    | ok r =>
      obtain ⟨tag, fallback⟩ := r
      simp only [hpick] at hnone
      split_ifs at hnone with hon
      cases hnext : m.lookup tag with
      | none => simp [hnext] at hnone
      | some next =>
        simp only [hnext] at hnone
        exact .cons hb (balancerEdge_of_pick hb hpick hon hnext)
          (ih (level + 1) tag next hnext hnone)

/-- A chain that ends within `n` levels is the same for every larger bound. -/
theorem resolveLevels_mono :
    ∀ (n level : ℕ) (b : Balancer) (r : Except String String),
      resolveLevels env m n level b = some r → resolveLevels env m (n + 1) level b = some r := by
  intro n
  induction n with
  | zero => simp [resolveLevels]
  | succ n ih =>
    intro level b r h
    rw [resolveLevels] at h ⊢
    cases hpick : pick (env level b) b with
    | error err => simpa [hpick] using h
    | ok p =>
      obtain ⟨tag, fallback⟩ := p
      simp only [hpick] at h ⊢
      split_ifs at h ⊢ with hon
      · exact h
      · cases hnext : m.lookup tag with
        | none => simpa [hnext] using h
        | some next =>
          simp only [hnext] at h ⊢
          exact ih (level + 1) next r h

/-- A chain of `n + 1` hops means a walk over `n + 1` balancers. -/
theorem fallbackHops_walk {env : String → Surroundings} {v : BalancerMap} :
    ∀ (n : ℕ) (bound : ℕ) (key : String) (b : Balancer), v.lookup key = some b →
      (fallbackHops env v bound b.fallbackTag).length = n + 1 → Walks v n key := by
  intro n
  induction n with
  | zero => exact fun _ key b hb _ => .zero hb
  | succ n ih =>
    intro bound key b hb hlen
    cases bound with
    | zero => simp [fallbackHops] at hlen
    | succ bound =>
      rw [fallbackHops] at hlen
      split_ifs at hlen with hempty
      cases hnext : v.lookup b.fallbackTag with
      | none => simp [hnext] at hlen
      | some hop =>
        simp only [hnext, length_cons, Nat.add_right_cancel_iff] at hlen
        exact .cons hb ⟨b, hb, mem_of_lookup hnext, Or.inr rfl⟩
          (ih bound b.fallbackTag hop hnext hlen)

/-- A chain that is shorter than its bound does not end because of it. -/
theorem fallbackHops_mono {env : String → Surroundings} {v : BalancerMap} :
    ∀ (bound : ℕ) (next : String), (fallbackHops env v bound next).length < bound →
      ∀ extra, fallbackHops env v (bound + extra) next = fallbackHops env v bound next := by
  intro bound
  induction bound with
  | zero => simp
  | succ bound ih =>
    intro next hlen extra
    rw [Nat.add_right_comm]
    rw [fallbackHops] at hlen ⊢
    rw [fallbackHops]
    split_ifs at hlen ⊢ with hempty
    · rfl
    · cases hnext : v.lookup next with
      | none => rfl
      | some hop =>
        simp only [hnext, length_cons, Nat.add_lt_add_iff_right] at hlen
        simp only [ih hop.fallbackTag hlen extra]

section Accepted

variable {m : BalancerMap}

theorem resolveLevels_isSome (hm : GraphOk m) (env : ℕ → Balancer → Surroundings) {key : String}
    {first : Balancer} (hfirst : m.lookup key = some first) :
    ∃ r, resolveLevels env m m.keys.length 0 first = some r := by
  cases hres : resolveLevels env m m.keys.length 0 first with
  | some r => exact ⟨r, rfl⟩
  | none =>
    exfalso
    obtain ⟨walk, hlen, hchain, hmem⟩ := resolveLevels_eq_none _ _ key first hfirst hres
    have := hm.acyclic.chain_length_le hchain fun x hx => AList.mem_keys.mp (hmem x hx)
    rw [length_cons] at this
    omega

theorem fallbackHops_length_le (hm : GraphOk m) (env : String → Surroundings) {key : String}
    {b : Balancer} (hb : m.lookup key = some b) (bound : ℕ) :
    (fallbackHops env m bound b.fallbackTag).length ≤ m.keys.length := by
  cases hlen : (fallbackHops env m bound b.fallbackTag).length with
  | zero => omega
  | succ n =>
    obtain ⟨walk, hw, hchain, hmem⟩ := fallbackHops_walk n bound key b hb hlen
    have := hm.acyclic.chain_length_le hchain fun x hx => AList.mem_keys.mp (hmem x hx)
    rw [length_cons] at this
    omega

end Accepted

/-- **Balancer chains always end.**  `checkBalancerGraph` accepts exactly the
    maps that are right.  On such a map a pick from any of its balancers, in any
    surroundings, ends within `len(m)` levels, is not dropped and leaves the
    guard's counter alone, and no larger bound would make `GetFallbackChain`
    longer. -/
theorem balancer_chains_end (m : BalancerMap) :
    (checkBalancerGraph m = none ↔ GraphOk m) ∧
    (checkBalancerGraph m = none → ∀ (key : String) (first : Balancer),
      m.lookup key = some first →
      (∀ (env : ℕ → Balancer → Surroundings) (fallbackChainGuard : UInt64),
        (∃ r, resolveLevels env m m.keys.length 0 first = some r) ∧
        (resolveChain env fallbackChainGuard first m).1 ≠ .error .routeDropped ∧
        (resolveChain env fallbackChainGuard first m).2 = fallbackChainGuard) ∧
      ∀ env : String → Surroundings, ∃ chain, getFallbackChain env m key = .ok chain ∧
        chain.length ≤ m.keys.length ∧
        ∀ bound, m.keys.length + 1 ≤ bound →
          fallbackHops env m bound first.fallbackTag = chain) := by
  refine ⟨checkBalancerGraph_eq_none_iff m, fun hcheck key first hfirst => ?_⟩
  have hm := (checkBalancerGraph_eq_none_iff m).mp hcheck
  refine ⟨fun env guard => ?_, fun env => ?_⟩
  · obtain ⟨r, hr⟩ := resolveLevels_isSome hm env hfirst
    have hr' := resolveLevels_mono _ _ _ _ hr
    refine ⟨⟨r, hr⟩, ?_, ?_⟩
    · cases r <;> simp [resolveChain, hr']
    · cases r <;> simp [resolveChain, hr']
  · have hlen := fallbackHops_length_le hm env hfirst (m.keys.length + 1)
    refine ⟨fallbackHops env m (m.keys.length + 1) first.fallbackTag,
      by simp [getFallbackChain, hfirst], hlen, fun bound hbound => ?_⟩
    obtain ⟨extra, rfl⟩ := Nat.exists_eq_add_of_le hbound
    exact fallbackHops_mono _ _ (by omega) extra

/-- A balancer with a member and a fallback that are balancers too. -/
def nestedBalancer : Balancer :=
  { addr := 0, tag := "outer", selectors := ["proxy"], strategy := .random,
    fallbackTag := "spare", members := ["inner"] }

/-- The map of that balancer, its member and its fallback. -/
def nestedBalancers : BalancerMap :=
  ((AList.singleton "outer" nestedBalancer).insert "inner"
    { addr := 1, tag := "inner", selectors := ["edge"], strategy := .leastPing,
      fallbackTag := "spare", members := [] }).insert "spare"
    { addr := 2, tag := "spare", selectors := ["direct"], strategy := .roundRobin,
      fallbackTag := "direct", members := [] }

theorem balancer_chains_end_nested :
    checkBalancerGraph nestedBalancers = none ∧
    nestedBalancers.lookup "outer" = some nestedBalancer ∧
    ∀ (env : ℕ → Balancer → Surroundings) (guard : UInt64),
      (resolveChain env guard nestedBalancer nestedBalancers).1 ≠ .error .routeDropped := by
  have hcheck : checkBalancerGraph nestedBalancers = none := by decide
  have hfirst : nestedBalancers.lookup "outer" = some nestedBalancer := by decide
  refine ⟨hcheck, hfirst, fun env guard => ?_⟩
  exact (((balancer_chains_end nestedBalancers).2 hcheck "outer" nestedBalancer hfirst).1
    env guard).2.1

end XrayCore.Router
