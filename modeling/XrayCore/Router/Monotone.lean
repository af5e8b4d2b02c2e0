/-
  XrayCore.Router.Monotone

  Less configuration, fewer loops: a routing that the loop check accepts is
  accepted with some of its handlers, its default handler or override targets
  taken away (`loopbackLoops_mono`).

  `LoopGraph.Below` compares what two checks read.  Every relation that the check
  decides grows along it, so a cycle of the smaller one is a cycle of the larger.
-/

import XrayCore.Outbound.LoopCheck
import XrayCore.Router.Loops

namespace XrayCore.Router

open Relation XrayCore.Graph Outbound List

namespace LoopGraph

/-- The same rules and balancers, with no more handlers, default or override
    targets. -/
structure Below (g g' : LoopGraph) : Prop where
  rules : g.rules = g'.rules
  balancers : g.balancers = g'.balancers
  byTag : ∀ tag h, g.byTag.lookup tag = some h → g'.byTag.lookup tag = some h
  tags : g.tags ⊆ g'.tags
  default : ∀ h, g.default = some h → g'.default = some h
  target : ∀ tag b, g.balancers.lookup tag = some b → g.target b ≠ "" → g'.target b = g.target b

variable {g g' : LoopGraph}

theorem feeds_mono {m m' : HandlerMap}
    (hsub : ∀ tag h, m.lookup tag = some h → m'.lookup tag = some h) {h : Handler}
    {inbound : String} (hfeeds : Feeds m h inbound) : Feeds m' h inbound := by
  obtain ⟨last, hwalk, hlast⟩ := hfeeds
  refine ⟨last, ReflTransGen.mono (fun a b hab => ?_) _ _ hwalk, hlast⟩
  obtain ⟨view, hview, hloop, hset, hnext⟩ := hab
  exact ⟨view, hview, hloop, hset, hsub _ _ hnext⟩

theorem Below.targets (hle : g.Below g') {tag : String} {b : Balancer} {h : Handler}
    (hb : g.balancers.lookup tag = some b) (htarget : g.Targets b h) : g'.Targets b h := by
  cases htarget with
  | candidate tag htag hsel hh => exact .candidate tag (hle.tags htag) hsel (hle.byTag _ _ hh)
  | override hset hh =>
    have heq := hle.target tag b hb hset
    exact .override (heq ▸ hset) (heq ▸ hle.byTag _ _ hh)
  | fallback hset hout hh => exact .fallback hset (hle.balancers ▸ hout) (hle.byTag _ _ hh)
  | default hset hh => exact .default hset (hle.default h hh)

theorem Below.inner (hle : g.Below g') {b inner : Balancer} (h : g.Inner b inner) :
    g'.Inner b inner := by
  cases h with
  | member tag htag hb => exact .member tag htag (hle.balancers ▸ hb)
  | fallback hset hb => exact .fallback hset (hle.balancers ▸ hb)

theorem Below.leads (hle : g.Below g') {tag : String} {b : Balancer} {h : Handler}
    (hb : g.balancers.lookup tag = some b) (hleads : g.Leads b h) : g'.Leads b h := by
  obtain ⟨last, hwalk, htarget⟩ := hleads
  -- The walk stays among the balancers of the map.
  have hlast : ∃ key, g.balancers.lookup key = some last := by
    cases hwalk with
    | refl => exact ⟨tag, hb⟩
    | tail _ hinner =>
      cases hinner with
      | member key _ hkey => exact ⟨key, hkey⟩
      | fallback _ hkey => exact ⟨_, hkey⟩
  obtain ⟨key, hkey⟩ := hlast
  exact ⟨last, ReflTransGen.mono (fun _ _ => hle.inner) _ _ hwalk, hle.targets hkey htarget⟩

theorem Below.possible (hle : g.Below g') (hg : g.Stored) {state next : String}
    (h : g.Possible state next) : g'.Possible state next := by
  obtain ⟨pick, handler, hpick, hroutes, hfeeds⟩ := h
  refine ⟨pick, handler, hle.rules ▸ hpick, ?_, feeds_mono hle.byTag hfeeds⟩
  cases pick with
  | none => exact hle.default handler hroutes
  | some rule =>
    have hrule : rule ∈ g.rules := mem_of_mayPick hpick
    simp only [Routes] at hroutes ⊢
    cases hb : rule.balancer with
    | none =>
      simp only [hb] at hroutes
      exact hle.byTag _ _ hroutes
    | some b =>
      simp only [hb] at hroutes
      exact hle.leads (hg.rule_balancer rule hrule b hb) hroutes

end LoopGraph

/-- Part of the handlers, with distinct tags, under their tags. -/
theorem byTag_mono {handlers handlers' : List Handler} (hsub : handlers ⊆ handlers')
    (hunique : TagsUnique handlers') (tag : String) (h : Handler)
    (hh : (byTag handlers).lookup tag = some h) : (byTag handlers').lookup tag = some h := by
  obtain ⟨hmem, htag, hne⟩ := byTag_lookup_some hh
  rw [byTag_lookup, if_neg hne]
  -- Some handler of that tag is found, and there is only one.
  have hsome : (handlers'.reverse.find? fun h => decide (h.tag = tag)).isSome = true := by
    rw [find?_isSome]
    exact ⟨h, mem_reverse.mpr (hsub hmem), by simp [htag]⟩
  obtain ⟨h', hh'⟩ := Option.isSome_iff_exists.mp hsome
  have htag' : h'.tag = tag := by simpa using find?_some hh'
  have hmem' : h' ∈ handlers' := mem_reverse.mp (mem_of_find?_eq_some hh')
  rw [hh', hunique h' hmem' h (hsub hmem) (htag'.trans htag.symm) (htag' ▸ hne)]

/-- **Taking away handlers, the default or override targets closes no loop.** -/
theorem loopbackLoops_mono {g g' : LoopGraph} {handlers handlers' : List Handler}
    (h : loopbackLoops g' handlers' = none) (hg : g.Stored) (hrules : g.rules = g'.rules)
    (hbalancers : g.balancers = g'.balancers)
    (hdefault : ∀ h, g.default = some h → g'.default = some h)
    (htarget : ∀ tag b, g.balancers.lookup tag = some b → g.target b ≠ "" →
      g'.target b = g.target b)
    (hsub : handlers ⊆ handlers') (hunique : TagsUnique handlers') :
    loopbackLoops g handlers = none := by
  have hg' : g'.Stored := by
    refine ⟨?_, ?_⟩
    · rw [← hbalancers]
      exact hg.tag_eq
    · rw [← hrules, ← hbalancers]
      exact hg.rule_balancer
  have hle : (g.withHandlers handlers).Below (g'.withHandlers handlers') := by
    refine ⟨hrules, hbalancers, byTag_mono hsub hunique, fun tag htag => ?_, hdefault, htarget⟩
    obtain ⟨h, hh⟩ := exists_lookup_of_mem (mem_sortedKeys.mp htag)
    exact mem_sortedKeys.mpr (mem_of_lookup (byTag_mono hsub hunique tag h hh))
  rw [loopbackLoops_eq_none_iff hg'] at h
  rw [loopbackLoops_eq_none_iff hg]
  refine h.mono fun x y hxy => ⟨?_, ?_⟩
  · obtain ⟨handler, hmem, hview⟩ := mem_loopStates.mp hxy.1
    exact mem_loopStates.mpr ⟨handler, hsub hmem, hview⟩
  · exact hle.possible ⟨hg.tag_eq, hg.rule_balancer⟩ hxy.2

end XrayCore.Router
