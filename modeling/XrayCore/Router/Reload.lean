/-
  XrayCore.Router.Reload

  The calls that change the routing: `ReloadRules`, `RemoveRule`
  (`app/router/router.go`) and `SetOverrideTarget` (`app/router/balancing.go`).

  A reload builds balancers and rules, checks them and only then publishes:
  first `peers` of every balancer, then the map, then the rules.  `Inv` is what
  the published state keeps, whatever calls are made (`routing_invariant`).
-/

import XrayCore.Router.Guard
import XrayCore.Table.Sift

namespace XrayCore.Router

open Outbound List

/-! ## Building -/

/-- What `StrategySettings.GetInstance` gives. -/
inductive SettingsType where
  | leastLoad
  | weightedLeastPing
  | other
  deriving DecidableEq, Repr

/-- `BalancingRule`. -/
structure BalancingRule where
  tag : String
  outboundSelector : List String
  strategy : String
  strategySettings : Except String SettingsType
  fallbackTag : String
  balancers : List String

/-- What a reload reads of `Config`. -/
structure Config where
  rule : List RoutingRule
  balancingRule : List BalancingRule

/-- `strings.ToLower`, for comparison with a text of small letters: but for two
    letters, what is outside ASCII has its small letter there too. -/
def toLower (text : String) : String :=
  text.map fun c => if c = 'İ' then 'i' else if c = 'K' then 'k' else c.toLower

/-- The strategy that `Build` makes. -/
def BalancingRule.buildStrategy (rule : BalancingRule) : Except String Strategy :=
  match toLower rule.strategy with
  | "leastping" => .ok .leastPing
  | "roundrobin" => .ok .roundRobin
  | "leastload" =>
    match rule.strategySettings with
    | .error err => .error err
    | .ok .leastLoad => .ok .leastLoad
    | .ok _ => .error "not a StrategyLeastLoadConfig"
  | "weightedleastping" =>
    match rule.strategySettings with
    | .error err => .error err
    | .ok .weightedLeastPing => .ok .weightedLeastPing
    | .ok _ => .error "not a StrategyWeightedLeastPingConfig"
  | "random" => .ok .random
  | "" => .ok .random
  | _ => .error "unrecognized balancer type"

/-- `BalancingRule.Build`, at a fresh address. -/
def BalancingRule.build (rule : BalancingRule) (addr : ℕ) : Except String Balancer :=
  rule.buildStrategy.map fun strategy =>
    { addr := addr, tag := rule.tag, selectors := rule.outboundSelector, strategy := strategy,
      fallbackTag := rule.fallbackTag, members := rule.balancers }

/-- The loop over the balancing rules, with the first address that is not in use. -/
def buildBalancers : List BalancingRule → ℕ → BalancerMap → Except String BalancerMap × ℕ
  | [], addr, m => (.ok m, addr)
  | rule :: rules, addr, m =>
    if rule.tag ∈ m then (.error "duplicate balancer tag", addr)
    else match rule.build addr with
      | .error err => (.error err, addr)
      | .ok b => buildBalancers rules (addr + 1) (m.insert rule.tag b)

/-- What the loop over the rules has built. -/
structure Built where
  newRules : List Rule
  existTags : List String
  /-- The notifiers of the created rules. -/
  created : List ℕ
  nextWebhook : ℕ

/-- `BuildCondition`: an error, or the reason why the rule has a condition. -/
def Context.buildCondition (ctx : Context) (rule : RoutingRule) :
    Except String (PLift (rule.inboundTag ≠ [] ∨ rule.conditions ≠ [])) :=
  match ctx.matcherError rule with
  | some err => .error err
  | none =>
    if h : rule.inboundTag ≠ [] ∨ rule.conditions ≠ [] then .ok ⟨h⟩
    else .error "this rule has no effective fields"

/-- The notifier of the rule, if it wants one. -/
def Context.buildWebhook (ctx : Context) (rule : RoutingRule) (next : ℕ) :
    Except String (Option ℕ) :=
  match rule.webhook with
  | none => .ok none
  | some webhook =>
    match ctx.webhookError webhook with
    | some err => .error err
    | none => .ok (some next)

/-- One turn of the loop over the rules. -/
def buildRule (ctx : Context) (m : BalancerMap) (acc : Built) (rule : RoutingRule) :
    Option String × Built :=
  match ctx.buildCondition rule with
  | .error err => (some err, acc)
  | .ok ⟨effective⟩ =>
    if rule.ruleTag ≠ "" ∧ rule.ruleTag ∈ acc.existTags then
      (some ("duplicate ruleTag " ++ rule.ruleTag), acc)
    else
      let acc := { acc with existTags := rule.ruleTag :: acc.existTags }
      match ctx.buildWebhook rule acc.nextWebhook with
      | .error err => (some err, acc)
      | .ok webhook =>
        let acc := { acc with
          created := acc.created ++ webhook.toList
          nextWebhook := acc.nextWebhook + webhook.toList.length }
        let rr : Rule :=
          { tag := rule.getTag, ruleTag := rule.ruleTag, balancer := none, webhook := webhook,
            config := rule, effective := effective }
        if rule.getBalancingTag = "" then (none, { acc with newRules := acc.newRules ++ [rr] })
        else match m.lookup rule.getBalancingTag with
          | none => (some ("balancer " ++ rule.getBalancingTag ++ " not found"), acc)
          | some b =>
            (none, { acc with newRules := acc.newRules ++ [{ rr with balancer := some b }] })

/-- The loop over the rules. -/
def buildRules (ctx : Context) (m : BalancerMap) : List RoutingRule → Built → Option String × Built
  | [], acc => (none, acc)
  | rule :: rules, acc =>
    match buildRule ctx m acc rule with
    | (some err, acc) => (some err, acc)
    | (none, acc) => buildRules ctx m rules acc

/-! ## The calls -/

/-- The notifiers that `closeWebhooks` closes. -/
def webhooks (rules : List Rule) : List ℕ := rules.filterMap (·.webhook)

/-- The last part of `reloadRules`, from which there is no way back. -/
def publish (r : RouterState) (m : BalancerMap) (rules : List Rule) (shouldAppend : Bool) :
    RouterState :=
  let newBalancers : Published := { ref := r.nextRef, map := m }
  { r with
    peers := fun addr =>
      if m.entries.any (fun entry => decide (entry.2.addr = addr)) then some newBalancers
      else r.peers addr
    balancers := newBalancers
    rules := rules
    nextRef := r.nextRef + 1
    closedWebhooks :=
      if shouldAppend then r.closedWebhooks else r.closedWebhooks ++ webhooks r.rules }

/-- The first error after the balancers are built: of a rule, of the balancer graph
    or of the guard. -/
def reloadError (ctx : Context) (r : RouterState) (m : BalancerMap)
    (built : Option String × Built) : Option String :=
  match built.1 with
  | some err => some err
  | none =>
    match checkBalancerGraph m with
    | some err => some err
    | none => guardRouting ctx r built.2.newRules m ∅

/-- `reloadRules`: the error, `none` for nil, and the router after the call. -/
def reloadRules (ctx : Context) (config : Config) (shouldAppend : Bool) (r : RouterState) :
    Option String × RouterState :=
  match buildBalancers config.balancingRule r.nextAddr
      (if shouldAppend then r.balancers.map else ∅) with
  | (.error err, addr) => (some err, { r with nextAddr := addr })
  | (.ok newBalancers, addr) =>
    let start : Built :=
      { newRules := if shouldAppend then r.rules else []
        existTags := if shouldAppend then r.rules.map (·.ruleTag) else []
        created := [], nextWebhook := r.nextWebhook }
    let built := buildRules ctx newBalancers config.rule start
    let r' := { r with nextAddr := addr, nextWebhook := built.2.nextWebhook }
    -- An error closes the notifiers of the created rules.
    match reloadError ctx r' newBalancers built with
    | some err => (some err, { r' with closedWebhooks := r'.closedWebhooks ++ built.2.created })
    | none => (none, publish r' newBalancers built.2.newRules shouldAppend)

/-- `RemoveRule`. -/
def removeRule (ctx : Context) (tag : String) (r : RouterState) : Option String × RouterState :=
  if tag = "" then (some "empty tag name!", r)
  else
    let newRules := r.rules.filter (·.ruleTag ≠ tag)
    let removed := r.rules.filter (·.ruleTag = tag)
    match guardRouting ctx r newRules r.balancers.map ∅ with
    | some err => (some err, r)
    | none =>
      (none, { r with rules := newRules, closedWebhooks := r.closedWebhooks ++ webhooks removed })

/-- `SetOverrideTarget`: clearing a target needs no check. -/
def setOverrideTarget (ctx : Context) (tag target : String) (r : RouterState) :
    Option String × RouterState :=
  match r.balancers.map.lookup tag with
  | none => (some "cannot find tag", r)
  | some b =>
    if target ∈ r.balancers.map then (some ("override target " ++ target ++ " is a balancer"), r)
    else
      match (if target = "" then none
        else guardRouting ctx r r.rules r.balancers.map (AList.singleton tag target)) with
      | some err => (some err, r)
      | none =>
        (none, { r with override := fun addr => if addr = b.addr then target else r.override addr })

/-- The calls on a router. -/
inductive Call where
  | reloadRules (config : Config) (shouldAppend : Bool)
  | removeRule (tag : String)
  | setOverrideTarget (tag target : String)
  /-- The start check, which the outbound manager makes. -/
  | checkLoopbackLoops

def Call.exec (ctx : Context) (r : RouterState) : Call → Option String × RouterState
  | .reloadRules config shouldAppend => XrayCore.Router.reloadRules ctx config shouldAppend r
  | .removeRule tag => XrayCore.Router.removeRule ctx tag r
  | .setOverrideTarget tag target => XrayCore.Router.setOverrideTarget ctx tag target r
  | .checkLoopbackLoops => XrayCore.Router.checkLoopbackLoops ctx r ctx.handlers ctx.default

/-- A router that has published nothing yet. -/
def RouterState.empty (script : Bool) : RouterState :=
  { script := script, rules := [], balancers := { ref := 0, map := ∅ }, peers := fun _ => none,
    override := fun _ => "", started := false, nextAddr := 0, nextRef := 1, nextWebhook := 0,
    closedWebhooks := [] }

/-- `Init`: the router is there when the first reload succeeds. -/
def RouterState.init (ctx : Context) (config : Config) (script : Bool) : Option RouterState :=
  match reloadRules ctx config false (.empty script) with
  | (none, r) => some r
  | (some _, _) => none

/-- The router after a sequence of calls, each with its own surroundings. -/
def RouterState.run (r : RouterState) (calls : List (Context × Call)) : RouterState :=
  calls.foldl (fun r call => (call.2.exec call.1 r).2) r

/-! ## What a call keeps -/

/-- Nothing that is published changed. -/
structure Unchanged (r r' : RouterState) : Prop where
  rules : r'.rules = r.rules
  balancers : r'.balancers = r.balancers
  peers : r'.peers = r.peers
  override : r'.override = r.override

/-- What the published routing is to be. -/
structure Consistent (r : RouterState) : Prop where
  ruleTags : ((r.rules.map (·.ruleTag)).filter (· ≠ "")).Nodup
  ruleBalancer : ∀ rule ∈ r.rules, rule.config.getBalancingTag ≠ "" →
    ∃ b, rule.balancer = some b ∧
      r.balancers.map.lookup rule.config.getBalancingTag = some b
  peers : ∀ tag b, r.balancers.map.lookup tag = some b → r.peers b.addr = some r.balancers
  graph : checkBalancerGraph r.balancers.map = none

/-- A balancer map as `reloadRules` builds it: each balancer under its own tag and
    at its own address, all addresses below `addr`. -/
structure MapOk (m : BalancerMap) (addr : ℕ) : Prop where
  tag_eq : ∀ tag b, m.lookup tag = some b → b.tag = tag
  addr_lt : ∀ tag b, m.lookup tag = some b → b.addr < addr
  addr_inj : ∀ tag tag' b b', m.lookup tag = some b → m.lookup tag' = some b' →
    b.addr = b'.addr → tag = tag'

/-- A rule holds the balancer that its balancing tag names, if it has one. -/
def RuleOk (m : BalancerMap) (rule : Rule) : Prop :=
  if rule.config.getBalancingTag = "" then rule.balancer = none
  else ∃ b, rule.balancer = some b ∧ m.lookup rule.config.getBalancingTag = some b

/-- The whole invariant: the part that only the checks need comes with it. -/
structure Inv (r : RouterState) : Prop extends Consistent r where
  mapOk : MapOk r.balancers.map r.nextAddr
  ruleOk : ∀ rule ∈ r.rules, RuleOk r.balancers.map rule

/-! ## Balancers -/

theorem MapOk.empty (addr : ℕ) : MapOk ∅ addr := by
  refine ⟨fun tag b hb => ?_, fun tag b hb => ?_, fun tag tag' b b' hb => ?_⟩
  all_goals simp at hb

variable {m : BalancerMap}

theorem MapOk.mono {addr addr' : ℕ} (h : MapOk m addr) (hle : addr ≤ addr') : MapOk m addr' :=
  ⟨h.tag_eq, fun tag b hb => Nat.lt_of_lt_of_le (h.addr_lt tag b hb) hle, h.addr_inj⟩

/-- A new balancer takes the next address. -/
theorem MapOk.insert {b : Balancer} (h : MapOk m b.addr) :
    MapOk (m.insert b.tag b) (b.addr + 1) := by
  have hcases : ∀ tag b', (m.insert b.tag b).lookup tag = some b' →
      (tag = b.tag ∧ b' = b) ∨ m.lookup tag = some b' := by
    exact fun tag b' hb' => (Table.lookup_insert_eq_some.mp hb').imp_right And.right
  refine ⟨fun tag b' hb' => ?_, fun tag b' hb' => ?_, fun tag tag' b₁ b₂ hb₁ hb₂ heq => ?_⟩
  · rcases hcases tag b' hb' with ⟨rfl, rfl⟩ | hold
    · rfl
    · exact h.tag_eq tag b' hold
  · rcases hcases tag b' hb' with ⟨rfl, rfl⟩ | hold
    · exact Nat.lt_succ_self _
    · exact Nat.lt_succ_of_lt (h.addr_lt tag b' hold)
  · -- An old address is below the new one.
    rcases hcases tag b₁ hb₁ with ⟨rfl, rfl⟩ | hold₁ <;>
      rcases hcases tag' b₂ hb₂ with ⟨rfl, rfl⟩ | hold₂
    · rfl
    · have := h.addr_lt tag' b₂ hold₂
      omega
    · have := h.addr_lt tag b₁ hold₁
      omega
    · exact h.addr_inj tag tag' b₁ b₂ hold₁ hold₂ heq

theorem build_ok {rule : BalancingRule} {addr : ℕ} {b : Balancer} (h : rule.build addr = .ok b) :
    b.tag = rule.tag ∧ b.addr = addr := by
  unfold BalancingRule.build at h
  cases hs : rule.buildStrategy with
  | error err => simp [hs, Except.map] at h
  | ok strategy =>
    simp only [hs, Except.map, Except.ok.injEq] at h
    subst h
    exact ⟨rfl, rfl⟩

/-- The loop over the balancing rules only adds balancers. -/
theorem buildBalancers_spec (rules : List BalancingRule) :
    ∀ (addr : ℕ) (m : BalancerMap), MapOk m addr →
      addr ≤ (buildBalancers rules addr m).2 ∧
      ∀ m', (buildBalancers rules addr m).1 = .ok m' →
        MapOk m' (buildBalancers rules addr m).2 ∧
        ∀ tag b, m.lookup tag = some b → m'.lookup tag = some b := by
  induction rules with
  | nil =>
    intro addr m hm
    refine ⟨le_refl addr, fun m' hm' => ?_⟩
    obtain rfl : m = m' := by simpa [buildBalancers] using hm'
    exact ⟨hm, fun tag b hb => hb⟩
  | cons rule rules ih =>
    intro addr m hm
    rw [buildBalancers]
    split_ifs with hfound
    · exact ⟨le_refl addr, by simp⟩
    · cases hb : rule.build addr with
      | error err => exact ⟨le_refl addr, by simp⟩
      | ok b =>
        obtain ⟨htag, rfl⟩ := build_ok hb
        have hm' := hm.insert
        rw [htag] at hm'
        obtain ⟨hle, hok⟩ := ih _ _ hm'
        refine ⟨by simpa using (Nat.le_succ _).trans hle, fun m' hres => ?_⟩
        obtain ⟨hmap, hkeep⟩ := hok m' hres
        refine ⟨hmap, fun tag b' hb' => hkeep tag b' ?_⟩
        rwa [AList.lookup_insert_ne (ne_of_mem_of_not_mem (mem_of_lookup hb') hfound)]

/-! ## Rules -/

/-- What holds of the loop over the rules. -/
structure BuiltOk (m : BalancerMap) (acc : Built) : Prop where
  ruleOk : ∀ rule ∈ acc.newRules, RuleOk m rule
  nodup : ((acc.newRules.map (·.ruleTag)).filter (· ≠ "")).Nodup
  listed : ∀ rule ∈ acc.newRules, rule.ruleTag ∈ acc.existTags

theorem RuleOk.mono {m' : BalancerMap} {rule : Rule} (h : RuleOk m rule)
    (hkeep : ∀ tag b, m.lookup tag = some b → m'.lookup tag = some b) : RuleOk m' rule := by
  unfold RuleOk at h ⊢
  split_ifs at h ⊢ with hempty
  · exact h
  · obtain ⟨b, hb, hlook⟩ := h
    exact ⟨b, hb, hkeep _ b hlook⟩

/-- One more rule whose tag is empty or new. -/
theorem BuiltOk.push {acc acc' : Built} {rule : Rule} (h : BuiltOk m acc)
    (hrules : acc'.newRules = acc.newRules ++ [rule])
    (htags : acc'.existTags = rule.ruleTag :: acc.existTags) (hrule : RuleOk m rule)
    (hnew : ¬ (rule.ruleTag ≠ "" ∧ rule.ruleTag ∈ acc.existTags)) : BuiltOk m acc' := by
  refine ⟨fun x hx => ?_, ?_, fun x hx => ?_⟩
  · rw [hrules, mem_append, mem_singleton] at hx
    rcases hx with hx | rfl
    · exact h.ruleOk x hx
    · exact hrule
  · rw [hrules, map_append, filter_append, nodup_append]
    refine ⟨h.nodup, ?_, fun a ha b hb => ?_⟩
    · simp only [map_cons, map_nil]
      exact (nodup_singleton _).filter _
    · -- The tag of an older rule is listed, the new one is not.
      rw [mem_filter, mem_map] at ha hb
      obtain ⟨⟨x, hx, rfl⟩, -⟩ := ha
      obtain ⟨⟨y, hy, rfl⟩, hne⟩ := hb
      obtain rfl := mem_singleton.mp hy
      intro heq
      exact hnew ⟨by simpa using hne, heq ▸ h.listed x hx⟩
  · rw [hrules, mem_append, mem_singleton] at hx
    rw [htags]
    rcases hx with hx | rfl
    · exact mem_cons_of_mem _ (h.listed x hx)
    · exact mem_cons_self

variable {ctx : Context}

theorem buildRule_ok {acc acc' : Built} {rule : RoutingRule} (h : BuiltOk m acc)
    (hres : buildRule ctx m acc rule = (none, acc')) : BuiltOk m acc' := by
  unfold buildRule at hres
  cases hcond : ctx.buildCondition rule with
  | error err => simp [hcond] at hres
  | ok effective =>
    simp only [hcond] at hres
    by_cases hdup : rule.ruleTag ≠ "" ∧ rule.ruleTag ∈ acc.existTags
    · simp [hdup] at hres
    rw [if_neg hdup] at hres
    cases hhook : ctx.buildWebhook rule acc.nextWebhook with
    | error err => simp [hhook] at hres
    | ok webhook =>
      simp only [hhook] at hres
      by_cases hempty : rule.getBalancingTag = ""
      · rw [if_pos hempty] at hres
        obtain rfl := (Prod.mk.inj hres).2
        exact h.push rfl rfl (by simp [RuleOk, hempty]) hdup
      · rw [if_neg hempty] at hres
        cases hlook : m.lookup rule.getBalancingTag with
        | none => simp [hlook] at hres
        | some b =>
          simp only [hlook] at hres
          obtain rfl := (Prod.mk.inj hres).2
          exact h.push rfl rfl (by simp [RuleOk, hempty, hlook]) hdup

theorem buildRules_ok (rules : List RoutingRule) :
    ∀ {acc acc' : Built}, BuiltOk m acc → buildRules ctx m rules acc = (none, acc') →
      BuiltOk m acc' := by
  induction rules with
  | nil =>
    intro acc acc' h hres
    obtain rfl := (Prod.mk.inj hres).2
    exact h
  | cons rule rules ih =>
    intro acc acc' h hres
    rw [buildRules] at hres
    cases hrule : buildRule ctx m acc rule with
    | mk err acc₁ =>
      cases err with
      | some err => simp [hrule] at hres
      | none =>
        simp only [hrule] at hres
        exact ih (buildRule_ok h hrule) hres

/-! ## One call -/

variable {r : RouterState}

theorem reloadError_eq_none {built : Option String × Built} (h : reloadError ctx r m built = none) :
    built.1 = none ∧ checkBalancerGraph m = none ∧
      guardRouting ctx r built.2.newRules m ∅ = none := by
  unfold reloadError at h
  split at h
  · simp at h
  · split at h
    · simp at h
    · exact ⟨by assumption, by assumption, h⟩

/-- What a reload can do: fail and publish nothing, or publish a map and rules that
    passed both checks. -/
theorem reloadRules_cases (ctx : Context) (config : Config) (shouldAppend : Bool) (hr : Inv r) :
    (∃ err r', reloadRules ctx config shouldAppend r = (some err, r') ∧ Unchanged r r' ∧
      r.nextAddr ≤ r'.nextAddr ∧ r'.script = r.script ∧ r'.started = r.started) ∨
    ∃ r' m rules, reloadRules ctx config shouldAppend r = (none, publish r' m rules shouldAppend) ∧
      Unchanged r r' ∧ r'.script = r.script ∧ r'.started = r.started ∧ MapOk m r'.nextAddr ∧
      (∀ rule ∈ rules, RuleOk m rule) ∧ ((rules.map (·.ruleTag)).filter (· ≠ "")).Nodup ∧
      checkBalancerGraph m = none ∧ guardRouting ctx r' rules m ∅ = none := by
  have hstart : MapOk (if shouldAppend then r.balancers.map else ∅) r.nextAddr := by
    split_ifs
    · exact hr.mapOk
    · exact MapOk.empty _
  obtain ⟨hle, hbuilt⟩ := buildBalancers_spec config.balancingRule _ _ hstart
  unfold reloadRules
  generalize buildBalancers config.balancingRule r.nextAddr
    (if shouldAppend then r.balancers.map else ∅) = built at hle hbuilt ⊢
  obtain ⟨res, addr⟩ := built
  cases res with
  | error err => exact Or.inl ⟨err, _, rfl, ⟨rfl, rfl, rfl, rfl⟩, hle, rfl, rfl⟩
  | ok m =>
    obtain ⟨hmap, hkeep⟩ := hbuilt m rfl
    simp only
    set start : Built :=
      { newRules := if shouldAppend then r.rules else []
        existTags := if shouldAppend then r.rules.map (·.ruleTag) else []
        created := [], nextWebhook := r.nextWebhook } with hstartdef
    -- In append mode the old rules keep their balancers, which the new map has too.
    have hstartok : BuiltOk m start := by
      cases shouldAppend with
      | false => exact ⟨by simp [hstartdef], by simp [hstartdef], by simp [hstartdef]⟩
      | true =>
        refine ⟨fun rule hrule => (hr.ruleOk rule (by simpa [hstartdef] using hrule)).mono ?_,
          ?_, ?_⟩
        · simpa using hkeep
        · simpa [hstartdef] using hr.ruleTags
        · intro rule hrule
          simp only [hstartdef, if_true] at hrule ⊢
          exact mem_map_of_mem hrule
    cases herr : reloadError ctx { r with
        nextAddr := addr, nextWebhook := (buildRules ctx m config.rule start).2.nextWebhook } m
        (buildRules ctx m config.rule start) with
    | some err => exact Or.inl ⟨err, _, rfl, ⟨rfl, rfl, rfl, rfl⟩, hle, rfl, rfl⟩
    | none =>
      obtain ⟨hrules, hgraph, hguard⟩ := reloadError_eq_none herr
      have hacc := buildRules_ok config.rule hstartok (Prod.ext hrules rfl)
      exact Or.inr ⟨_, m, _, rfl, ⟨rfl, rfl, rfl, rfl⟩, rfl, rfl, hmap, hacc.ruleOk, hacc.nodup,
        hgraph, hguard⟩

theorem removeRule_cases (ctx : Context) (tag : String) (r : RouterState) :
    (∃ err, removeRule ctx tag r = (some err, r)) ∨
    ∃ closed, removeRule ctx tag r =
      (none, { r with rules := r.rules.filter (·.ruleTag ≠ tag), closedWebhooks := closed }) ∧
      guardRouting ctx r (r.rules.filter (·.ruleTag ≠ tag)) r.balancers.map ∅ = none := by
  unfold removeRule
  split_ifs with hempty
  · exact Or.inl ⟨_, rfl⟩
  · cases hguard : guardRouting ctx r (r.rules.filter (·.ruleTag ≠ tag)) r.balancers.map ∅ with
    | some err => exact Or.inl ⟨err, by simp only [hguard]⟩
    | none =>
      refine Or.inr ⟨r.closedWebhooks ++ webhooks (r.rules.filter (·.ruleTag = tag)), ?_, rfl⟩
      simp only [hguard]

theorem setOverrideTarget_cases (ctx : Context) (tag target : String) (r : RouterState) :
    (∃ err, setOverrideTarget ctx tag target r = (some err, r)) ∨
    ∃ b, r.balancers.map.lookup tag = some b ∧ setOverrideTarget ctx tag target r =
      (none, { r with override := fun addr => if addr = b.addr then target else r.override addr }) ∧
      (target = "" ∨
        guardRouting ctx r r.rules r.balancers.map (AList.singleton tag target) = none) := by
  unfold setOverrideTarget
  cases hb : r.balancers.map.lookup tag with
  | none => exact Or.inl ⟨_, rfl⟩
  | some b =>
    simp only
    by_cases hin : target ∈ r.balancers.map
    · exact Or.inl ⟨_, by rw [if_pos hin]⟩
    · rw [if_neg hin]
      by_cases hempty : target = ""
      · exact Or.inr ⟨b, rfl, by simp [hempty], Or.inl hempty⟩
      · rw [if_neg hempty]
        cases hguard : guardRouting ctx r r.rules r.balancers.map (AList.singleton tag target) with
        | some err => exact Or.inl ⟨err, rfl⟩
        | none => exact Or.inr ⟨b, rfl, rfl, Or.inr rfl⟩

theorem checkLoopbackLoops_cases (ctx : Context) (r : RouterState) (handlers : List Handler)
    (default : Option Handler) :
    (∃ err, checkLoopbackLoops ctx r handlers default = (err, { r with started := true })) ∨
    ∃ err, checkLoopbackLoops ctx r handlers default = (some err, r) := by
  unfold checkLoopbackLoops
  split
  · exact Or.inr ⟨_, rfl⟩
  · exact Or.inl ⟨_, rfl⟩

/-! ## Runs -/

/-- **A call that returns an error publishes nothing.** -/
theorem exec_error (ctx : Context) (call : Call) (hr : Inv r) {err : String}
    (h : (call.exec ctx r).1 = some err) : Unchanged r (call.exec ctx r).2 := by
  have hrefl : Unchanged r r := ⟨rfl, rfl, rfl, rfl⟩
  cases call with
  | reloadRules config shouldAppend =>
    simp only [Call.exec] at h ⊢
    rcases reloadRules_cases ctx config shouldAppend hr with ⟨_, r', hres, hsame, -⟩ | hpub
    · rw [hres]
      exact hsame
    · obtain ⟨r', m, rules, hres, -⟩ := hpub
      simp [hres] at h
  | removeRule tag =>
    simp only [Call.exec] at h ⊢
    rcases removeRule_cases ctx tag r with ⟨_, hres⟩ | ⟨_, hres, -⟩
    · rw [hres]
      exact hrefl
    · simp [hres] at h
  | setOverrideTarget tag target =>
    simp only [Call.exec] at h ⊢
    rcases setOverrideTarget_cases ctx tag target r with ⟨_, hres⟩ | ⟨_, _, hres, -⟩
    · rw [hres]
      exact hrefl
    · simp [hres] at h
  | checkLoopbackLoops =>
    simp only [Call.exec]
    rcases checkLoopbackLoops_cases ctx r ctx.handlers ctx.default with ⟨_, hres⟩ | ⟨_, hres⟩
    · rw [hres]
      exact ⟨rfl, rfl, rfl, rfl⟩
    · rw [hres]
      exact hrefl

/-- The invariant is about what is published. -/
theorem Inv.of_unchanged {r' : RouterState} (h : Inv r) (hsame : Unchanged r r')
    (haddr : r.nextAddr ≤ r'.nextAddr) : Inv r' := by
  obtain ⟨hrules, hbalancers, hpeers, -⟩ := hsame
  refine ⟨⟨?_, ?_, ?_, ?_⟩, ?_, ?_⟩
  · rw [hrules]
    exact h.ruleTags
  · rw [hrules, hbalancers]
    exact h.ruleBalancer
  · rw [hbalancers, hpeers]
    exact h.peers
  · rw [hbalancers]
    exact h.graph
  · rw [hbalancers]
    exact h.mapOk.mono haddr
  · rw [hrules, hbalancers]
    exact h.ruleOk

theorem RuleOk.exists_balancer {rule : Rule} (h : RuleOk m rule)
    (hne : rule.config.getBalancingTag ≠ "") :
    ∃ b, rule.balancer = some b ∧ m.lookup rule.config.getBalancingTag = some b := by
  rwa [RuleOk, if_neg hne] at h

/-- Publishing points every balancer of the map to it, the old ones included. -/
theorem Inv.publish {rules : List Rule} (shouldAppend : Bool) (hmap : MapOk m r.nextAddr)
    (hrules : ∀ rule ∈ rules, RuleOk m rule)
    (hnodup : ((rules.map (·.ruleTag)).filter (· ≠ "")).Nodup)
    (hgraph : checkBalancerGraph m = none) : Inv (publish r m rules shouldAppend) := by
  refine ⟨⟨hnodup, fun rule hrule hne => (hrules rule hrule).exists_balancer hne,
    fun tag b hb => ?_, hgraph⟩, hmap, hrules⟩
  have hany : m.entries.any (fun entry => decide (entry.2.addr = b.addr)) = true := by
    rw [any_eq_true]
    exact ⟨⟨tag, b⟩, AList.mem_lookup_iff.mp hb, by simp⟩
  simp only [XrayCore.Router.publish, hany, if_true]

/-- One call keeps the invariant. -/
theorem Inv.exec (hr : Inv r) (ctx : Context) (call : Call) : Inv (call.exec ctx r).2 := by
  cases call with
  | reloadRules config shouldAppend =>
    simp only [Call.exec]
    rcases reloadRules_cases ctx config shouldAppend hr with
      ⟨err, r', hres, hsame, haddr, -⟩ |
      ⟨r', m, rules, hres, -, -, -, hmap, hrules, hnodup, hgraph, -⟩
    · rw [hres]
      exact hr.of_unchanged hsame haddr
    · rw [hres]
      exact Inv.publish shouldAppend hmap hrules hnodup hgraph
  | removeRule tag =>
    simp only [Call.exec]
    rcases removeRule_cases ctx tag r with ⟨_, hres⟩ | ⟨closed, hres, -⟩
    · rw [hres]
      exact hr
    · rw [hres]
      have hsub : ∀ rule ∈ r.rules.filter (fun rule => decide (rule.ruleTag ≠ tag)),
          rule ∈ r.rules := fun rule hrule => mem_of_mem_filter hrule
      refine ⟨⟨?_, fun rule hrule => hr.ruleBalancer rule (hsub rule hrule), hr.peers, hr.graph⟩,
        hr.mapOk, fun rule hrule => hr.ruleOk rule (hsub rule hrule)⟩
      exact hr.ruleTags.sublist ((filter_sublist.map _).filter _)
  | setOverrideTarget tag target =>
    simp only [Call.exec]
    rcases setOverrideTarget_cases ctx tag target r with ⟨_, hres⟩ | ⟨_, _, hres, -⟩
    · rw [hres]
      exact hr
    · rw [hres]
      exact ⟨⟨hr.ruleTags, hr.ruleBalancer, hr.peers, hr.graph⟩, hr.mapOk, hr.ruleOk⟩
  | checkLoopbackLoops =>
    simp only [Call.exec]
    rcases checkLoopbackLoops_cases ctx r ctx.handlers ctx.default with ⟨_, hres⟩ | ⟨_, hres⟩
    · rw [hres]
      exact ⟨⟨hr.ruleTags, hr.ruleBalancer, hr.peers, hr.graph⟩, hr.mapOk, hr.ruleOk⟩
    · rw [hres]
      exact hr

theorem Inv.empty (script : Bool) : Inv (.empty script) := by
  refine ⟨⟨by simp [RouterState.empty], by simp [RouterState.empty], ?_, ?_⟩, MapOk.empty _,
    by simp [RouterState.empty]⟩
  · intro tag b hb
    simp [RouterState.empty] at hb
  · show checkBalancerGraph ∅ = none
    decide

theorem Inv.run (hr : Inv r) (calls : List (Context × Call)) : Inv (r.run calls) := by
  induction calls generalizing r with
  | nil => exact hr
  | cons call calls ih => exact ih (hr.exec call.1 call.2)

/-- What `Init` leaves. -/
theorem Inv.init {config : Config} {script : Bool}
    (h : RouterState.init ctx config script = some r) : Inv r := by
  unfold RouterState.init at h
  have hexec := (Inv.empty script).exec ctx (.reloadRules config false)
  simp only [Call.exec] at hexec
  split at h
  · next r' hres =>
    obtain rfl : r' = r := by simpa using h
    rwa [hres] at hexec
  · simp at h

/-- **The published routing is consistent, and a reload is all or nothing.**  After
    any calls on a router that `Init` made, in any surroundings, the published
    rules, balancers and `peers` agree, and a call that then returns an error
    changes none of them and no override. -/
theorem routing_invariant (ctx : Context) (config : Config) (script : Bool) (r : RouterState)
    (hinit : RouterState.init ctx config script = some r) (calls : List (Context × Call)) :
    Consistent (r.run calls) ∧
    ∀ (ctx' : Context) (call : Call) (err : String),
      (call.exec ctx' (r.run calls)).1 = some err →
      Unchanged (r.run calls) (call.exec ctx' (r.run calls)).2 := by
  have hinv := (Inv.init hinit).run calls
  exact ⟨hinv.toConsistent, fun ctx' call err herr => exec_error ctx' call hinv herr⟩

/-- An outbound manager with the handlers of `loopbackHandlers`. -/
def loopbackContext : Context :=
  { graphGuard := true, handlers := loopbackHandlers, default := loopbackHandlers.head?,
    observes := fun _ => true, matcherError := fun _ => none, webhookError := fun _ => none }

/-- A rule to a balancer, and one that ends the walk of what comes back. -/
def balancedConfig : Config :=
  { rule := [{ targetTag := .tag "direct", ruleTag := "returned", inboundTag := ["back"],
               conditions := [], webhook := none },
             { targetTag := .balancingTag "outer", ruleTag := "rest", inboundTag := [],
               conditions := [.networks], webhook := none }]
    balancingRule := [{ tag := "outer", outboundSelector := ["via"], strategy := "leastPing",
                        strategySettings := .ok .other, fallbackTag := "direct",
                        balancers := [] }] }

/-- Removing the rule that ends the walk is refused: what comes back would be fed
    back again. -/
theorem routing_invariant_balanced :
    ∃ r, RouterState.init loopbackContext balancedConfig false = some r ∧
      ((Call.removeRule "returned").exec loopbackContext (r.run [])).1.isSome = true ∧
      Unchanged (r.run []) ((Call.removeRule "returned").exec loopbackContext (r.run [])).2 := by
  have hsome : (RouterState.init loopbackContext balancedConfig false).any fun r =>
      ((Call.removeRule "returned").exec loopbackContext (r.run [])).1.isSome := by decide +kernel
  obtain ⟨r, hinit, herr⟩ := (Option.any_eq_true _ _).mp hsome
  obtain ⟨err, herr'⟩ := Option.isSome_iff_exists.mp herr
  exact ⟨r, hinit, herr,
    (routing_invariant loopbackContext balancedConfig false r hinit []).2 _ _ err herr'⟩

end XrayCore.Router
