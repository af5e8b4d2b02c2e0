/-
  XrayCore.Router.Rule

  Routing rules (`app/router/config.go`, `condition.go`): when a rule applies and
  which one is taken.

  Of the conditions only the one on the inbound tag is looked into.  Every other
  condition is known by the field that sets it, and whether it holds of a
  connection is up to the connection: an `Outcome` says it for each field.
-/

import XrayCore.Router.Balancer

namespace XrayCore.Router

open List

/-! ## Rules as they are configured -/

/-- The fields of `RoutingRule` that set a condition, the inbound tag's apart. -/
inductive ConditionField where
  | domain
  | ip
  | portList
  | networks
  | sourceIp
  | sourcePortList
  | userEmail
  | protocol
  | attributes
  | localIp
  | localPortList
  | vlessRouteList
  | process
  | localOs
  deriving DecidableEq, Repr

/-- The oneof `target_tag`. -/
inductive TargetTag where
  | unset
  | tag (outbound : String)
  | balancingTag (balancer : String)
  deriving DecidableEq, Repr

/-- `WebhookConfig`. -/
structure WebhookConfig where
  url : String
  deduplication : UInt32
  headers : List (String × String)
  deriving DecidableEq, Repr

/-- `RoutingRule`: the fields in `conditions` are the populated ones. -/
structure RoutingRule where
  targetTag : TargetTag
  ruleTag : String
  inboundTag : List String
  conditions : List ConditionField
  webhook : Option WebhookConfig
  deriving DecidableEq, Repr

/-- `GetTag`. -/
def RoutingRule.getTag (rule : RoutingRule) : String :=
  match rule.targetTag with
  | .tag outbound => outbound
  | _ => ""

/-- `GetBalancingTag`. -/
def RoutingRule.getBalancingTag (rule : RoutingRule) : String :=
  match rule.targetTag with
  | .balancingTag balancer => balancer
  | _ => ""

/-- The fields of `RoutingRule` by name. -/
inductive FieldName where
  | tag
  | balancingTag
  | ruleTag
  | inboundTag
  | webhook
  | condition (field : ConditionField)
  deriving DecidableEq, Repr

/-- The populated fields, as `ProtoReflect().Range` goes over them. -/
def RoutingRule.range (rule : RoutingRule) : List FieldName :=
  (match rule.targetTag with
    | .unset => []
    | .tag _ => [.tag]
    | .balancingTag _ => [.balancingTag]) ++
  (if rule.ruleTag = "" then [] else [.ruleTag]) ++
  (if rule.inboundTag = [] then [] else [.inboundTag]) ++
  (if rule.webhook.isSome then [.webhook] else []) ++
  rule.conditions.map .condition

/-- The fields that say where a rule leads, not when it applies. -/
def notConditions : List FieldName := [.tag, .balancingTag, .ruleTag, .webhook]

/-- Whether the inbound tag is the rule's only condition. -/
def matchesOnInboundOnly (rule : RoutingRule) : Bool :=
  if rule.inboundTag = [] then false
  else rule.range.all fun name => decide (name = .inboundTag ∨ name ∈ notConditions)

/-! ## Rules as they run -/

/-- A rule as the router keeps it.  `BuildCondition` refuses a rule without a
    condition, so each has one. -/
structure Rule where
  tag : String
  ruleTag : String
  balancer : Option Balancer
  /-- The address of its `WebhookNotifier`. -/
  webhook : Option ℕ
  config : RoutingRule
  effective : config.inboundTag ≠ [] ∨ config.conditions ≠ []
  deriving DecidableEq

/-- Which of the conditions hold of a connection, the inbound tag's apart. -/
abbrev Outcome := ConditionField → Bool

/-- `NewInboundTagMatcher(tags).Apply` for a connection of the inbound tag `state`. -/
def inboundTagMatcher (tags : List String) (state : String) : Bool :=
  if state = "" then false else decide (state ∈ tags.filter (· ≠ ""))

/-- `Rule.Apply`: every condition holds. -/
def Rule.apply (rule : Rule) (state : String) (holds : Outcome) : Bool :=
  (decide (rule.config.inboundTag = []) || inboundTagMatcher rule.config.inboundTag state) &&
    rule.config.conditions.all holds

/-- The loop of `pickRouteInternal`: the first rule that applies.  The `i`th rule
    has the outcome `holds i`. -/
def pickRule (state : String) : List Rule → (ℕ → Outcome) → Option Rule
  | [], _ => none
  | rule :: rules, holds =>
    if rule.apply state (holds 0) then some rule
    else pickRule state rules fun i => holds (i + 1)

/-! ## Which rules can be taken -/

theorem matchesOnInboundOnly_iff (rule : RoutingRule) :
    matchesOnInboundOnly rule = true ↔ rule.inboundTag ≠ [] ∧ rule.conditions = [] := by
  unfold matchesOnInboundOnly
  split_ifs with hin
  · simp [hin]
  · rw [all_eq_true]
    refine ⟨fun hall => ⟨hin, ?_⟩, ?_⟩
    · -- A populated condition would be a name that the scan refuses.
      rw [eq_nil_iff_forall_not_mem]
      intro field hfield
      have := hall (.condition field) (by simp [RoutingRule.range, hfield])
      simp [notConditions] at this
    · rintro ⟨-, hnone⟩ name hname
      simp only [RoutingRule.range, hnone, map_nil, append_nil, mem_append] at hname
      rcases hname with ((hname | hname) | hname) | hname
      · cases htarget : rule.targetTag <;> simp_all [notConditions]
      all_goals
        split_ifs at hname
        all_goals simp_all [notConditions]

/-- The inbound tag's condition as the loop check reads it. -/
def Rule.admits (rule : Rule) (state : String) : Bool :=
  decide (rule.config.inboundTag = [] ∨ state ∈ rule.config.inboundTag)

section Applies

variable {rule : Rule} {state : String}

/-- With tags that are not empty the matcher and the loop check agree. -/
theorem admits_eq (hstate : state ≠ "") :
    (decide (rule.config.inboundTag = []) || inboundTagMatcher rule.config.inboundTag state) =
      rule.admits state := by
  rw [Rule.admits, inboundTagMatcher, if_neg hstate, Bool.decide_or]
  simp [hstate]

/-- A rule that admits the inbound tag can apply. -/
theorem apply_true (hstate : state ≠ "") (hadmits : rule.admits state = true) :
    rule.apply state (fun _ => true) = true := by
  rw [Rule.apply, admits_eq hstate, hadmits]
  simp

theorem admits_of_apply (hstate : state ≠ "") {holds : Outcome}
    (happly : rule.apply state holds = true) : rule.admits state = true := by
  rw [Rule.apply, admits_eq hstate, Bool.and_eq_true] at happly
  exact happly.1

/-- A rule that does not match on the inbound tag alone, or does not admit it,
    can fail to apply. -/
theorem apply_false (hstate : state ≠ "")
    (h : rule.admits state = false ∨ matchesOnInboundOnly rule.config = false) :
    rule.apply state (fun _ => false) = false := by
  rw [Rule.apply, admits_eq hstate]
  rcases h with h | h
  · rw [h, Bool.false_and]
  · have hconds : rule.config.conditions ≠ [] := by
      have := (matchesOnInboundOnly_iff rule.config).not.mp (by simp [h])
      rcases rule.effective with hin | hconds
      · exact fun hnil => this ⟨hin, hnil⟩
      · exact hconds
    obtain ⟨field, fields, heq⟩ := exists_cons_of_ne_nil hconds
    simp [heq]

/-- A rule that matches on the inbound tag alone always applies where it admits. -/
theorem apply_of_matchesOnInboundOnly (hstate : state ≠ "") (hadmits : rule.admits state = true)
    (honly : matchesOnInboundOnly rule.config = true) (holds : Outcome) :
    rule.apply state holds = true := by
  have hnil := ((matchesOnInboundOnly_iff rule.config).mp honly).2
  rw [Rule.apply, admits_eq hstate, hadmits, hnil]
  rfl

end Applies

end XrayCore.Router
