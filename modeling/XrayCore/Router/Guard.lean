/-
  XrayCore.Router.Guard

  The router (`app/router/router.go`) as the state that its calls change, and the
  check that a routing change has to pass before it is published (`guardRouting`
  in `app/router/loops.go`).

  A balancer is built once and then only pointed at.  What changes while it
  lives, its override target and its `peers`, is kept here under its address, and
  a published balancer map carries an identity, so that two maps with the same
  entries are still two maps.
-/

import XrayCore.Router.Loops

namespace XrayCore.Router

open Outbound

/-! ## The router -/

/-- A balancer map that was published, with its identity. -/
structure Published where
  ref : ℕ
  map : BalancerMap
  deriving DecidableEq

/-- The router. -/
structure RouterState where
  /-- A routing script takes the place of the rules. -/
  script : Bool
  rules : List Rule
  balancers : Published
  /-- The newest published map that contains the balancer at an address. -/
  peers : ℕ → Option Published
  /-- The override target of the balancer at an address, `""` for none. -/
  override : ℕ → String
  /-- The start check has run. -/
  started : Bool
  /-- The first address, map identity and notifier that are not in use. -/
  nextAddr : ℕ
  nextRef : ℕ
  nextWebhook : ℕ
  /-- The notifiers that were closed. -/
  closedWebhooks : List ℕ

/-- What a call reads of everything around the router. -/
structure Context where
  /-- The outbound manager is a `GraphGuard`. -/
  graphGuard : Bool
  handlers : List Handler
  default : Option Handler
  /-- `Observes` of the observatory. -/
  observes : String → Bool
  /-- Why a matcher of the rule cannot be built. -/
  matcherError : RoutingRule → Option String
  /-- Why a notifier cannot be made. -/
  webhookError : WebhookConfig → Option String

/-! ## Observation of members -/

/-- The balancers reached from `tag` through members and fallbacks, added to
    `reached`. -/
def reachBalancers (m : BalancerMap) : ℕ → String → List String → List String
  | 0, _, reached => reached
  | fuel + 1, tag, reached =>
    match m.lookup tag with
    | none => reached
    | some b =>
      if tag ∈ reached then reached
      else
        let reached := b.members.foldl (fun reached member => reachBalancers m fuel member reached)
          (tag :: reached)
        reachBalancers m fuel b.fallbackTag reached

/-- The balancers with members and all that are reached from them. -/
def observedBalancers (m : BalancerMap) : List String :=
  (sortedKeys m).foldl (fun reached tag =>
    if ((m.lookup tag).map Balancer.members).getD [] = [] then reached
    else reachBalancers m (m.keys.length + 1) tag reached) []

/-- All handlers under their tags, one without a tag under `""`. -/
def allByTag (handlers : List Handler) : HandlerMap :=
  handlers.foldl (fun m h => m.insert h.tag h) ∅

/-- The outbounds of a level that have to be observed: its candidates, and its
    fallback unless that is a balancer or a blackhole. -/
def observedOutbounds (m : BalancerMap) (handlers : HandlerMap) (b : Balancer) : List String :=
  (sortedKeys handlers).filter (LoopGraph.selected b.selectors) ++
    if b.fallbackTag = "" ∨ b.fallbackTag ∈ m then []
    else if (handlers.lookup b.fallbackTag).map Handler.settingsType =
        some "xray.proxy.blackhole.Config" then []
    else [b.fallbackTag]

/-- `checkMemberObservation`. -/
def checkMemberObservation (ctx : Context) (m : BalancerMap) (handlers : List Handler) :
    Option String :=
  ((observedBalancers m).insertionSort (· ≤ ·)).findSome? fun tag =>
    (m.lookup tag).bind fun b =>
      ((observedOutbounds m (allByTag handlers) b).find? fun outbound =>
        !ctx.observes outbound).map fun outbound =>
          "balancer " ++ tag ++ ": outbound " ++ outbound ++
            " is not observed (balancer members need every outbound observed)"

/-! ## The guard -/

/-- What the loop check reads for the given routing. -/
def RouterState.loopGraph (r : RouterState) (rules : List Rule) (m : BalancerMap)
    (override : AList (fun _ : String => String)) (default : Option Handler) : LoopGraph :=
  { rules := rules, balancers := m, override := override, current := fun b => r.override b.addr,
    byTag := ∅, tags := [], default := default }

/-- `checkLoopbacks`: a script is not checked. -/
def checkLoopbacks (r : RouterState) (rules : List Rule) (m : BalancerMap)
    (override : AList (fun _ : String => String)) (handlers : List Handler)
    (default : Option Handler) : Option String :=
  if r.script then none else loopbackLoops (r.loopGraph rules m override default) handlers

/-- `guardRouting`. -/
def guardRouting (ctx : Context) (r : RouterState) (rules : List Rule) (m : BalancerMap)
    (override : AList (fun _ : String => String)) : Option String :=
  if !ctx.graphGuard then none
  else
    -- Before the start check handlers are still being added.
    match (if r.started then checkMemberObservation ctx m ctx.handlers else none) with
    | some err => some err
    | none => checkLoopbacks r rules m override ctx.handlers ctx.default

/-- `CheckLoopbackLoops`: the start check, which also starts the observation of
    members. -/
def checkLoopbackLoops (ctx : Context) (r : RouterState) (handlers : List Handler)
    (default : Option Handler) : Option String × RouterState :=
  match checkMemberObservation ctx r.balancers.map handlers with
  | some err => (some err, r)
  | none =>
    (checkLoopbacks r r.rules r.balancers.map ∅ handlers default, { r with started := true })

theorem checkLoopbacks_of_guardRouting {ctx : Context} {r : RouterState} {rules : List Rule}
    {m : BalancerMap} {override : AList (fun _ : String => String)} (hguard : ctx.graphGuard = true)
    (h : guardRouting ctx r rules m override = none) :
    checkLoopbacks r rules m override ctx.handlers ctx.default = none := by
  unfold guardRouting at h
  rw [hguard, Bool.not_true, if_neg Bool.false_ne_true] at h
  split at h
  · simp at h
  · exact h

end XrayCore.Router
