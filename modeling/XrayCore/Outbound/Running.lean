/-
  XrayCore.Outbound.Running

  The running configuration under concurrent calls: `AddHandler`,
  `RemoveHandler` (`app/proxyman/outbound/outbound.go`) and the routing changes of
  `XrayCore.Router.Reload`.

  A thread is where a call stands between two critical sections, with what it has
  read so far; `System.exec` lets any thread take its next one.  All but
  `RemoveHandler` hold the `graph` lock from before their check until after they
  publish, so nothing but removals comes between, and a removal closes no loop.
  The one exception is the default handler: `AddHandler` reads it before its check
  and finds out at its commit that it is gone.  `AddsDefaultChecked` excludes that.

  What the checks read of the router changes only under `graph`, which the reader
  holds, so a whole check is one step here.
-/

import XrayCore.Outbound.Manager
import XrayCore.Router.Monotone
import XrayCore.Router.Reload

namespace XrayCore.Outbound

open Relation Machine Router List Option Function

/-! ## The system -/

/-- A call. -/
inductive Op where
  | addHandler (h : Handler)
  | removeHandler (tag : String)
  | routing (call : Call)

/-- Where a call stands: in front of which critical section. -/
inductive Thread where
  | idle
  /-- `AddHandler` in front of reading `running`, and of `graph`. -/
  | addEntry (h : Handler)
  | addWait (h : Handler)
  /-- With `graph` held, in front of `GetHandler`, `GetDefaultHandler`, `ListHandlers`
      and the check. -/
  | addLocked (h : Handler)
  | addTag (h : Handler)
  | addDefault (h : Handler) (default : Option Handler)
  | addList (h : Handler) (default : Option Handler) (list : List Handler)
  /-- The check passed: in front of the section that adds the handler. -/
  | addCommit (h : Handler) (default : Option Handler) (list : List Handler)
  /-- The manager was not running: the same section, without `graph`. -/
  | addUnchecked (h : Handler)
  | remove (tag : String)
  /-- A routing change in front of `graph`, `ListHandlers`, `GetDefaultHandler` and the
      rest. -/
  | routingWait (call : Call)
  | routingLocked (call : Call)
  | routingList (call : Call) (list : List Handler)
  | routingReady (call : Call) (list : List Handler) (default : Option Handler)
  /-- In front of giving `graph` back. -/
  | release

/-- The state that the calls share, and the calls. -/
structure System where
  manager : Manager
  router : RouterState
  /-- Who holds `graph`. -/
  graph : Option ℕ
  threads : ℕ → Thread

/-- What a critical section finds that is neither the manager nor the router. -/
structure Env where
  observes : String → Bool
  matcherError : RoutingRule → Option String
  webhookError : WebhookConfig → Option String
  startError : Handler → Option String

/-- What a routing change sees that has read the handlers. -/
def Env.context (env : Env) (list : List Handler) (default : Option Handler) : Context :=
  { graphGuard := true, handlers := list, default := default, observes := env.observes,
    matcherError := env.matcherError, webhookError := env.webhookError }

/-- `checkLoops`, the router being the loop checker. -/
def checkLoops (env : Env) (r : RouterState) (handlers : List Handler) (default : Option Handler) :
    Option String × RouterState :=
  match checkDialerProxyCycles handlers with
  | some err => (some err, r)
  | none => checkLoopbackLoops (env.context handlers default) r handlers default

def System.setThread (s : System) (tid : ℕ) (t : Thread) : System :=
  { s with threads := update s.threads tid t }

/-- The next critical section of a thread: `none` while it has to wait for `graph`
    or has nothing to do. -/
def System.step (s : System) (tid : ℕ) (env : Env) : Option System :=
  match s.threads tid with
  | .idle => none
  | .addEntry h => s.setThread tid (if s.manager.running then .addWait h else .addUnchecked h)
  | .addWait h =>
    if s.graph = none then some ({ s with graph := some tid }.setThread tid (.addLocked h))
    else none
  | .addLocked h =>
    -- The tag is in use: "existing tag found".
    if h.tag ≠ "" ∧ (s.manager.getHandler h.tag).isSome then s.setThread tid .release
    else s.setThread tid (.addTag h)
  | .addTag h => s.setThread tid (.addDefault h s.manager.defaultHandler)
  | .addDefault h default => s.setThread tid (.addList h default s.manager.listHandlers)
  | .addList h default list =>
    match checkLoops env s.router (list ++ [h]) (some (default.getD h)) with
    | (some _, r) => some ({ s with router := r }.setThread tid .release)
    | (none, r) => some ({ s with router := r }.setThread tid (.addCommit h default list))
  | .addCommit h _ _ =>
    match s.manager.commit h (env.startError h) with
    | .error _ => s.setThread tid .release
    | .ok m => some ({ s with manager := m }.setThread tid .release)
  | .addUnchecked h =>
    match s.manager.commit h (env.startError h) with
    | .error _ => s.setThread tid .idle
    | .ok m => some ({ s with manager := m }.setThread tid .idle)
  | .remove tag =>
    if hne : tag ≠ "" then some ({ s with manager := s.manager.remove tag hne }.setThread tid .idle)
    else s.setThread tid .idle
  | .routingWait call =>
    if s.graph = none then some ({ s with graph := some tid }.setThread tid (.routingLocked call))
    else none
  | .routingLocked call => s.setThread tid (.routingList call s.manager.listHandlers)
  | .routingList call list => s.setThread tid (.routingReady call list s.manager.defaultHandler)
  | .routingReady call list default =>
    some ({ s with router := (call.exec (env.context list default) s.router).2 }.setThread tid
      .release)
  | .release => some ({ s with graph := none }.setThread tid .idle)

/-- A call begins, or a thread takes its next critical section. -/
inductive Action where
  | call (tid : ℕ) (op : Op)
  | step (tid : ℕ) (env : Env)

def Op.entry : Op → Thread
  | .addHandler h => .addEntry h
  | .removeHandler tag => .remove tag
  | .routing call => .routingWait call

def System.exec (s : System) : Action → Option System
  | .call tid op =>
    match s.threads tid with
    | .idle => s.setThread tid op.entry
    | _ => none
  | .step tid env => s.step tid env

/-! ## The property -/

/-- What the loop check reads of the published configuration. -/
def System.loopGraph (s : System) : LoopGraph :=
  s.router.loopGraph s.router.rules s.router.balancers.map ∅ s.manager.defaultHandler

/-- The published handlers, rules, balancers and overrides satisfy both checks. -/
def System.LoopFree (s : System) : Prop :=
  checkDialerProxyCycles s.manager.listHandlers = none ∧
    loopbackLoops s.loopGraph s.manager.listHandlers = none

/-- A state that the start check accepted: the manager runs, there is no routing
    script, and no call has begun. -/
structure System.Started (s : System) : Prop where
  router : Router.Inv s.router
  script : s.router.script = false
  running : s.manager.running = true
  graph : s.graph = none
  threads : ∀ tid, s.threads tid = .idle
  accepted : ∃ env,
    (checkLoops env s.router s.manager.listHandlers s.manager.defaultHandler).1 = none

/-- An `AddHandler` that makes its handler the default one has checked it as that:
    the manager had no default when the call looked either. -/
def System.AddsDefaultChecked (s : System) (action : Action) : Prop :=
  ∀ tid env h default list, action = .step tid env → s.threads tid = .addCommit h default list →
    s.manager.defaultHandler = none → default = none

/-! ## Routing changes -/

theorem lookup_singleton (tag target x : String) :
    (AList.singleton tag target : AList fun _ : String => String).lookup x =
      if x = tag then some target else none := by
  by_cases hx : x = tag
  · subst hx
    simp [AList.lookup, AList.singleton]
  · simp [AList.lookup, AList.singleton, hx]

variable {r : RouterState}

theorem stored_of_inv (hr : Router.Inv r) (override : AList (fun _ : String => String))
    (default : Option Handler) : (r.loopGraph r.rules r.balancers.map override default).Stored := by
  refine ⟨hr.mapOk.tag_eq, fun rule hrule b hb => ?_⟩
  have hok := hr.ruleOk rule hrule
  unfold RuleOk at hok
  split_ifs at hok with hempty
  · rw [hok] at hb
    simp at hb
  · obtain ⟨b', hb', hlook⟩ := hok
    obtain rfl : b' = b := by simpa [hb'] using hb
    show r.balancers.map.lookup b'.tag = some b'
    rwa [hr.mapOk.tag_eq _ _ hlook]

section Routing

variable {m : Manager} {list : List Handler} {default : Option Handler}

/-- What the guard accepted for the handlers that were read is loop free for those
    that are left. -/
theorem loopbackLoops_of_guard {env : Env} {r : RouterState} {rules : List Rule}
    {map : BalancerMap} {override : AList (fun _ : String => String)} {g : LoopGraph}
    (hscript : r.script = false) (hsub : m.listHandlers ⊆ list) (hunique : TagsUnique list)
    (hdefault : ∀ h, m.defaultHandler = some h → default = some h)
    (hguard : guardRouting (env.context list default) r rules map override = none)
    (hg : g.Stored) (hrules : g.rules = rules) (hmap : g.balancers = map)
    (hgdefault : g.default = m.defaultHandler)
    (htarget : ∀ tag b, g.balancers.lookup tag = some b → g.target b ≠ "" →
      (r.loopGraph rules map override default).target b = g.target b) :
    loopbackLoops g m.listHandlers = none := by
  have hcheck := checkLoopbacks_of_guardRouting (by rfl) hguard
  rw [checkLoopbacks, hscript] at hcheck
  refine loopbackLoops_mono hcheck hg hrules hmap (fun h hh => ?_) htarget hsub hunique
  rw [hgdefault] at hh
  exact hdefault h hh

/-- **A routing change leaves the configuration loop free**, whatever was removed
    since it read the handlers. -/
theorem loopbackLoops_exec (env : Env) (call : Call) {r : RouterState} (hr : Router.Inv r)
    (hscript : r.script = false) (hsub : m.listHandlers ⊆ list) (hunique : TagsUnique list)
    (hdefault : ∀ h, m.defaultHandler = some h → default = some h)
    (hfree : loopbackLoops (r.loopGraph r.rules r.balancers.map ∅ m.defaultHandler)
      m.listHandlers = none) {r' : RouterState}
    (hr' : (call.exec (env.context list default) r).2 = r') :
    loopbackLoops (r'.loopGraph r'.rules r'.balancers.map ∅ m.defaultHandler) m.listHandlers =
      none ∧
      r'.script = false := by
  have hinv := hr.exec (env.context list default) call
  rw [hr'] at hinv
  have hstored := stored_of_inv hinv ∅ m.defaultHandler
  cases call with
  | reloadRules config shouldAppend =>
    simp only [Call.exec] at hr'
    rcases reloadRules_cases (env.context list default) config shouldAppend hr with
      ⟨err, r₁, hres, hsame, -, hsc, -⟩ |
      ⟨r₁, map, rules, hres, hsame, hsc, -, -, -, -, -, hguard⟩
    · obtain rfl : r₁ = r' := by rw [← hr', hres]
      refine ⟨?_, hsc.trans hscript⟩
      rw [RouterState.loopGraph, hsame.rules, hsame.balancers, hsame.override]
      exact hfree
    · obtain rfl : publish r₁ map rules shouldAppend = r' := by rw [← hr', hres]
      refine ⟨?_, hsc.trans hscript⟩
      exact loopbackLoops_of_guard (hsc.trans hscript) hsub hunique hdefault hguard hstored rfl rfl
        rfl fun _ _ _ _ => rfl
  | removeRule tag =>
    simp only [Call.exec] at hr'
    rcases removeRule_cases (env.context list default) tag r with ⟨_, hres⟩ | ⟨_, hres, hguard⟩
    · obtain rfl : r = r' := by rw [← hr', hres]
      exact ⟨hfree, hscript⟩
    · rw [hres] at hr'
      subst hr'
      exact ⟨loopbackLoops_of_guard hscript hsub hunique hdefault hguard hstored rfl rfl rfl
        fun _ _ _ _ => rfl, hscript⟩
  | setOverrideTarget tag target =>
    simp only [Call.exec] at hr'
    rcases setOverrideTarget_cases (env.context list default) tag target r with
      ⟨_, hres⟩ | ⟨b, hb, hres, hguard⟩
    · obtain rfl : r = r' := by rw [← hr', hres]
      exact ⟨hfree, hscript⟩
    · rw [hres] at hr'
      subst hr'
      refine ⟨?_, hscript⟩
      rcases hguard with rfl | hguard
      · -- A target that is cleared is one edge less.
        refine loopbackLoops_mono hfree hstored rfl rfl (fun h hh => hh) (fun key b' hb' hset => ?_)
          (List.Subset.refl _) m.tagsUnique_listHandlers
        simp only [LoopGraph.target, RouterState.loopGraph, AList.lookup_empty, getD_none]
          at hset ⊢
        split_ifs at hset ⊢ with haddr
        · exact absurd rfl hset
        · rfl
      · refine loopbackLoops_of_guard hscript hsub hunique hdefault hguard hstored rfl rfl rfl ?_
        intro key b' hb' _
        -- The balancer at the address of `b` is the one stored under `tag`.
        have hkey : b'.tag = key := hr.mapOk.tag_eq key b' hb'
        simp only [LoopGraph.target, RouterState.loopGraph, AList.lookup_empty, getD_none]
        by_cases htag : b'.tag = tag
        · have hbb : b' = b := by
            rw [← hkey, htag] at hb'
            exact some.inj (hb'.symm.trans hb)
          subst hbb
          simp [htag, lookup_singleton]
        · have haddr : b'.addr ≠ b.addr := fun heq =>
            htag (hkey.trans (hr.mapOk.addr_inj key tag b' b hb' hb heq))
          simp [haddr, htag, lookup_singleton]
  | checkLoopbackLoops =>
    simp only [Call.exec] at hr'
    rcases checkLoopbackLoops_cases (env.context list default) r list default with
      ⟨_, hres⟩ | ⟨_, hres⟩
    · obtain rfl : { r with started := true } = r' := by
        rw [← hr']
        exact (congrArg Prod.snd hres).symm
      exact ⟨hfree, hscript⟩
    · obtain rfl : r = r' := by
        rw [← hr']
        exact (congrArg Prod.snd hres).symm
      exact ⟨hfree, hscript⟩

end Routing

/-! ## What every section keeps -/

/-- The thread is past taking `graph` and has not given it back. -/
@[grind] def Thread.holds : Thread → Bool
  | .addLocked _ | .addTag _ | .addDefault _ _ | .addList _ _ _ | .addCommit _ _ _
  | .routingLocked _ | .routingList _ _ | .routingReady _ _ _ | .release => true
  | _ => false

/-- `list` was read since `graph` was taken. -/
def Snapshot (m : Manager) (list : List Handler) : Prop :=
  m.listHandlers ⊆ list ∧ TagsUnique list

/-- `default` was read since `graph` was taken. -/
def DefaultRead (m : Manager) (default : Option Handler) : Prop :=
  ∀ h, m.defaultHandler = some h → default = some h

/-- The tag of `h` is not in use in `list`. -/
def FreshIn (h : Handler) (list : List Handler) : Prop :=
  h.tag ≠ "" → ∀ x ∈ list, x.tag ≠ h.tag

/-- Both checks passed for `list` and `h`. -/
def Checked (r : RouterState) (h : Handler) (default : Option Handler) (list : List Handler) :
    Prop :=
  checkDialerProxyCycles (list ++ [h]) = none ∧
    loopbackLoops (r.loopGraph r.rules r.balancers.map ∅ (some (default.getD h)))
      (list ++ [h]) = none

/-- What a thread knows while it holds `graph`. -/
@[grind] def Knows (m : Manager) (r : RouterState) : Thread → Prop
  | .addTag h => FreshIn h m.listHandlers
  | .addDefault h default => FreshIn h m.listHandlers ∧ DefaultRead m default
  | .addList h default list => FreshIn h list ∧ DefaultRead m default ∧ Snapshot m list
  | .addCommit h default list =>
    FreshIn h list ∧ DefaultRead m default ∧ Snapshot m list ∧ Checked r h default list
  | .routingList _ list => Snapshot m list
  | .routingReady _ list default => Snapshot m list ∧ DefaultRead m default
  | _ => True

/-- What holds between any two critical sections. -/
structure Safe (s : System) : Prop where
  router : Router.Inv s.router
  script : s.router.script = false
  running : s.manager.running = true
  loopFree : s.LoopFree
  lock : ∀ tid, (s.threads tid).holds = true → s.graph = some tid
  knows : ∀ tid, Knows s.manager s.router (s.threads tid)
  checked : ∀ tid h, s.threads tid ≠ .addUnchecked h

theorem knows_of_not_holds (m : Manager) (r : RouterState) {t : Thread} (h : t.holds = false) :
    Knows m r t := by
  cases t <;> trivial

/-- A removal takes no knowledge away. -/
theorem knows_of_subset {m m' : Manager} {t : Thread} (h : Knows m r t)
    (hsub : m'.listHandlers ⊆ m.listHandlers)
    (hdefault : ∀ h, m'.defaultHandler = some h → m.defaultHandler = some h) : Knows m' r t := by
  have hread : ∀ default, DefaultRead m default → DefaultRead m' default :=
    fun default hd x hx => hd x (hdefault x hx)
  have hsnap : ∀ list, Snapshot m list → Snapshot m' list :=
    fun list hl => ⟨fun x hx => hl.1 (hsub hx), hl.2⟩
  have hfresh : ∀ x, FreshIn x m.listHandlers → FreshIn x m'.listHandlers :=
    fun x hx hne y hy => hx hne y (hsub hy)
  cases t with
  | addTag x => exact hfresh x h
  | addDefault x default => exact ⟨hfresh x h.1, hread _ h.2⟩
  | addList x default list => exact ⟨h.1, hread _ h.2.1, hsnap _ h.2.2⟩
  | addCommit x default list => exact ⟨h.1, hread _ h.2.1, hsnap _ h.2.2.1, h.2.2.2⟩
  | routingList call list => exact hsnap _ h
  | routingReady call list default => exact ⟨hsnap _ h.1, hread _ h.2⟩
  | _ => trivial

section Keep

variable {s : System} {tid : ℕ} {held t : Thread}

/-- A thread goes on and nothing else changes, but who holds `graph`. -/
theorem Safe.setThread (hs : Safe s) {graph : Option ℕ}
    (hgraph : ∀ other, other ≠ tid → (s.threads other).holds = true → graph = some other)
    (hlock : t.holds = true → graph = some tid) (hknows : Knows s.manager s.router t)
    (hchecked : ∀ h, t ≠ .addUnchecked h) : Safe ({ s with graph := graph }.setThread tid t) := by
  refine ⟨hs.router, hs.script, hs.running, hs.loopFree, fun other => ?_, fun other => ?_,
    fun other h => ?_⟩
  all_goals
    by_cases hother : other = tid
    · subst hother
      simp only [System.setThread, update_self]
      first | exact hlock | exact hknows | exact hchecked h
    · simp only [System.setThread, update_of_ne hother]
      first | exact hgraph other hother | exact hs.knows other | exact hs.checked other h

/-- The holder of `graph` changes the manager or the router: nobody else knows
    anything. -/
theorem Safe.setHolder (hs : Safe s) (ht : s.threads tid = held) (hholds : held.holds = true)
    {m : Manager} {r : RouterState} (hrouter : Router.Inv r) (hscript : r.script = false)
    (hrunning : m.running = true)
    (hfree : ({ s with manager := m, router := r } : System).LoopFree)
    (hlock : t.holds = true) (hknows : Knows m r t) :
    Safe ({ s with manager := m, router := r }.setThread tid t) := by
  have hgraph := hs.lock tid (ht ▸ hholds)
  have hnot : ∀ other, other ≠ tid → (s.threads other).holds = false := by
    intro other hother
    by_contra hh
    have := hs.lock other (by simpa using hh)
    rw [hgraph, some.injEq] at this
    exact hother this.symm
  refine ⟨hrouter, hscript, hrunning, hfree, fun other => ?_, fun other => ?_, fun other h => ?_⟩
  all_goals
    by_cases hother : other = tid
    · subst hother
      simp only [System.setThread, update_self]
      first
        | exact fun _ => hgraph
        | exact hknows
        | (intro heq
           rw [heq] at hlock
           simp [Thread.holds] at hlock)
    · simp only [System.setThread, update_of_ne hother]
      first
        | exact hs.lock other
        | exact knows_of_not_holds _ _ (hnot other hother)
        | exact hs.checked other h

/-- A removal keeps everything. -/
theorem Safe.remove (hs : Safe s) {tag : String} (hne : tag ≠ "") :
    Safe ({ s with manager := s.manager.remove tag hne }.setThread tid .idle) := by
  have hsub := s.manager.listHandlers_remove tag hne
  have hdefault : ∀ h, (s.manager.remove tag hne).defaultHandler = some h →
      s.manager.defaultHandler = some h := fun h => Manager.defaultHandler_remove
  have hunique := s.manager.tagsUnique_listHandlers
  refine ⟨hs.router, hs.script, hs.running, ⟨?_, ?_⟩, fun other => ?_, fun other => ?_,
    fun other h => ?_⟩
  · exact checkDialerProxyCycles_mono hsub hunique hs.loopFree.1
  · exact loopbackLoops_mono hs.loopFree.2 (stored_of_inv hs.router ∅ _) rfl rfl hdefault
      (fun _ _ _ _ => rfl) hsub hunique
  all_goals
    by_cases hother : other = tid
    · subst hother
      simp [System.setThread, Thread.holds, Knows]
    · simp only [System.setThread, update_of_ne hother]
      first
        | exact hs.lock other
        | exact knows_of_subset (hs.knows other) hsub hdefault
        | exact hs.checked other h

/-- Taking `graph` while nobody holds it. -/
theorem Safe.acquire (hs : Safe s) (hfree : s.graph = none) (hknows : Knows s.manager s.router t)
    (hchecked : ∀ h, t ≠ .addUnchecked h) :
    Safe ({ s with graph := some tid }.setThread tid t) := by
  refine hs.setThread (fun other _ hholds => ?_) (fun _ => rfl) hknows hchecked
  rw [hs.lock other hholds] at hfree
  simp at hfree

/-- A section of the holder of `graph` that only reads. -/
theorem Safe.read (hs : Safe s) (ht : s.threads tid = held) (hholds : held.holds = true)
    (hknows : Knows s.manager s.router t) (hlock : t.holds = true) : Safe (s.setThread tid t) := by
  refine hs.setThread (fun other _ => hs.lock other) (fun _ => hs.lock tid (ht ▸ hholds)) hknows ?_
  rintro h rfl
  simp [Thread.holds] at hlock

theorem FreshIn.tagsUnique {h : Handler} {list : List Handler} (hfresh : FreshIn h list)
    (hunique : TagsUnique list) : TagsUnique (list ++ [h]) := by
  intro x hx y hy htag hne
  rw [mem_append, mem_singleton] at hx hy
  rcases hx with hx | rfl <;> rcases hy with hy | rfl
  · exact hunique x hx y hy htag hne
  · exact absurd htag (hfresh (htag ▸ hne) x hx)
  · exact absurd htag.symm (hfresh hne y hy)
  · rfl

/-- The section that adds the handler, when the default it leaves was checked. -/
theorem Safe.commit (hs : Safe s) {h : Handler} {default : Option Handler} {list : List Handler}
    (ht : s.threads tid = .addCommit h default list)
    (hdefault : s.manager.defaultHandler = none → default = none)
    (hfresh : h.tag ∉ s.manager.taggedHandler) :
    Safe ({ s with manager := s.manager.add h hfresh }.setThread tid .release) := by
  have hk := hs.knows tid
  rw [ht] at hk
  obtain ⟨hnew, hread, ⟨hsub, hunique⟩, hdial, hloop⟩ := hk
  have hunique' := hnew.tagsUnique hunique
  have hsub' : (s.manager.add h hfresh).listHandlers ⊆ list ++ [h] := by
    intro x hx
    rcases mem_append.mp (s.manager.listHandlers_add h hfresh hx) with hx | hx
    · exact mem_append_left _ (hsub hx)
    · exact mem_append_right _ hx
  have hdef : ∀ x, (s.manager.add h hfresh).defaultHandler = some x →
      some (default.getD h) = some x := by
    intro x hx
    cases hold : s.manager.defaultHandler with
    | none => simpa [Manager.add, hold, hdefault hold] using hx
    | some d => simpa [Manager.add, hold, hread d hold] using hx
  refine hs.setHolder ht rfl hs.router hs.script hs.running
    ⟨?_, ?_⟩ rfl trivial
  · exact checkDialerProxyCycles_mono hsub' hunique' hdial
  · exact loopbackLoops_mono hloop (stored_of_inv hs.router ∅ _) rfl rfl hdef
      (fun _ _ _ _ => rfl) hsub' hunique'

end Keep

/-- A check that passed, and what it changes. -/
theorem checkLoops_cases (env : Env) (hscript : r.script = false) (handlers : List Handler)
    (default : Option Handler) :
    ((checkLoops env r handlers default).2 = r ∨
      (checkLoops env r handlers default).2 = { r with started := true }) ∧
    ((checkLoops env r handlers default).1 = none → checkDialerProxyCycles handlers = none ∧
      loopbackLoops (r.loopGraph r.rules r.balancers.map ∅ default) handlers = none) := by
  unfold checkLoops
  cases hdial : checkDialerProxyCycles handlers with
  | some err => simp
  | none =>
    simp only [checkLoopbackLoops]
    split
    · simp
    · refine ⟨Or.inr rfl, fun hnone => ⟨trivial, ?_⟩⟩
      simpa [checkLoopbacks, hscript] using hnone

/-- One critical section. -/
theorem Safe.step {s s' : System} (hs : Safe s) {tid : ℕ} {env : Env}
    (hdefault : s.AddsDefaultChecked (.step tid env)) (h : s.step tid env = some s') : Safe s' := by
  have hk := hs.knows tid
  cases ht : s.threads tid with
  | idle => simp [System.step, ht] at h
  | addEntry x =>
    simp only [System.step, ht, hs.running, if_true, some.injEq] at h
    subst h
    exact hs.setThread (fun other _ => hs.lock other) (by simp [Thread.holds]) trivial (by simp)
  | addWait x =>
    simp only [System.step, ht] at h
    split_ifs at h with hfree
    obtain rfl := some.inj h
    exact hs.acquire hfree trivial (by simp)
  | addLocked x =>
    simp only [System.step, ht] at h
    split_ifs at h with hused
    · obtain rfl := some.inj h
      exact hs.read ht rfl trivial rfl
    · obtain rfl := some.inj h
      refine hs.read ht rfl (fun hne y hy htag => hused ⟨hne, ?_⟩) rfl
      have hy' := (Manager.mem_listHandlers.mp hy).resolve_left fun hin =>
        hne (htag ▸ s.manager.untagged_tag y hin)
      rw [Manager.getHandler, ← htag, hy']
      rfl
  | addTag x =>
    rw [ht] at hk
    simp only [System.step, ht, some.injEq] at h
    subst h
    exact hs.read ht rfl ⟨hk, fun _ hx => hx⟩ rfl
  | addDefault x default =>
    rw [ht] at hk
    simp only [System.step, ht, some.injEq] at h
    subst h
    exact hs.read ht rfl ⟨hk.1, hk.2, List.Subset.refl _, s.manager.tagsUnique_listHandlers⟩ rfl
  | addList x default list =>
    rw [ht] at hk
    obtain ⟨hrouter, hpassed⟩ :=
      checkLoops_cases env hs.script (list ++ [x]) (some (default.getD x))
    simp only [System.step, ht] at h
    -- The check changes nothing but `started`, so all that is known still holds.
    generalize hres : checkLoops env s.router (list ++ [x]) (some (default.getD x)) = res
      at h hrouter hpassed
    obtain ⟨err, r⟩ := res
    have hinv : Router.Inv r ∧ r.script = false ∧
        ({ s with router := r } : System).LoopFree ∧
        (Checked s.router x default list → Checked r x default list) := by
      rcases hrouter with rfl | rfl
      · exact ⟨hs.router, hs.script, hs.loopFree, fun h => h⟩
      · exact ⟨hs.router.of_unchanged ⟨rfl, rfl, rfl, rfl⟩ (le_refl _), hs.script, hs.loopFree,
          fun h => h⟩
    obtain ⟨hinv, hscript, hfree, hcarry⟩ := hinv
    cases err with
    | some err =>
      obtain rfl := some.inj h
      exact hs.setHolder ht rfl hinv hscript hs.running hfree rfl trivial
    | none =>
      obtain rfl := some.inj h
      exact hs.setHolder ht rfl hinv hscript hs.running hfree rfl
        ⟨hk.1, hk.2.1, hk.2.2, hcarry (hpassed rfl)⟩
  | addCommit x default list =>
    simp only [System.step, ht] at h
    rcases s.manager.commit_cases x (env.startError x) with ⟨err, hres⟩ | ⟨hfresh, hres⟩
    · rw [hres] at h
      obtain rfl := some.inj h
      exact hs.read ht rfl trivial rfl
    · rw [hres] at h
      obtain rfl := some.inj h
      exact hs.commit ht (hdefault tid env x default list rfl ht) hfresh
  | addUnchecked x => exact absurd ht (hs.checked tid x)
  | remove tag =>
    simp only [System.step, ht] at h
    split_ifs at h with hne
    · obtain rfl := some.inj h
      exact hs.remove hne
    · obtain rfl := some.inj h
      exact hs.setThread (fun other _ => hs.lock other) (by simp [Thread.holds]) trivial (by simp)
  | routingWait call =>
    simp only [System.step, ht] at h
    split_ifs at h with hfree
    obtain rfl := some.inj h
    exact hs.acquire hfree trivial (by simp)
  | routingLocked call =>
    simp only [System.step, ht, some.injEq] at h
    subst h
    exact hs.read ht rfl ⟨List.Subset.refl _, s.manager.tagsUnique_listHandlers⟩ rfl
  | routingList call list =>
    rw [ht] at hk
    simp only [System.step, ht, some.injEq] at h
    subst h
    exact hs.read ht rfl ⟨hk, fun _ hx => hx⟩ rfl
  | routingReady call list default =>
    rw [ht] at hk
    obtain ⟨⟨hsub, hunique⟩, hread⟩ := hk
    simp only [System.step, ht, some.injEq] at h
    subst h
    obtain ⟨hfree, hscript⟩ := loopbackLoops_exec env call hs.router hs.script hsub hunique hread
      hs.loopFree.2 rfl
    exact hs.setHolder ht rfl (hs.router.exec (env.context list default) call) hscript hs.running
      ⟨hs.loopFree.1, hfree⟩ rfl trivial
  | release =>
    simp only [System.step, ht, some.injEq] at h
    subst h
    have hgraph := hs.lock tid (by simp [ht, Thread.holds])
    refine hs.setThread (fun other hother hholds => ?_) (by simp [Thread.holds]) trivial (by simp)
    have := hs.lock other hholds
    rw [hgraph, some.injEq] at this
    exact absurd this.symm hother

theorem Safe.exec {s s' : System} (hs : Safe s) {action : Action}
    (hdefault : s.AddsDefaultChecked action) (h : s.exec action = some s') : Safe s' := by
  cases action with
  | step tid env => exact hs.step hdefault h
  | call tid op =>
    simp only [System.exec] at h
    split at h
    · obtain rfl := some.inj h
      refine hs.setThread (fun other _ => hs.lock other) ?_ ?_ ?_
      all_goals cases op <;> simp [Op.entry, Thread.holds, Knows]
    · simp at h

theorem System.Started.safe {s : System} (hs : s.Started) : Safe s := by
  obtain ⟨env, hacc⟩ := hs.accepted
  obtain ⟨hdial, hloop⟩ := (checkLoops_cases env hs.script _ _).2 hacc
  refine ⟨hs.router, hs.script, hs.running, ⟨hdial, hloop⟩, fun tid => ?_, fun tid => ?_,
    fun tid h => ?_⟩
  all_goals simp [hs.threads tid, Thread.holds, Knows]

/-- A critical section of some thread, or the beginning of a call. -/
def System.Step (s s' : System) : Prop := ∃ action, s.exec action = some s'

/-- The same, with the default handler of an `AddHandler` checked. -/
def System.CheckedStep (s s' : System) : Prop :=
  ∃ action, s.AddsDefaultChecked action ∧ s.exec action = some s'

/-! ## The running configuration -/

/-- An outbound that ends, and a loopback. -/
def plainHandler : Handler :=
  { tag := "direct", view := some { dialerProxy := "", loopbackInbound := none },
    settingsType := "xray.proxy.freedom.Config" }

def loopbackHandler : Handler :=
  { tag := "lo", view := some { dialerProxy := "", loopbackInbound := some "back" },
    settingsType := "xray.proxy.loopback.Config" }

/-- A running manager with one handler, which is the default, and no rules. -/
def startedSystem : System :=
  { manager := { Manager.new.add plainHandler (by simp [Manager.new]) with running := true }
    router := .empty false, graph := none, threads := fun _ => .idle }

/-- Nothing is observed and nothing fails. -/
def quietEnv : Env :=
  { observes := fun _ => false, matcherError := fun _ => none, webhookError := fun _ => none,
    startError := fun _ => none }

theorem startedSystem_started : startedSystem.Started :=
  ⟨Router.Inv.empty false, rfl, rfl, rfl, fun _ => rfl, quietEnv, by decide⟩

/-- An `AddHandler` from its first critical section to the last. -/
def addedRun : List Action :=
  .call 0 (.addHandler loopbackHandler) :: List.replicate 8 (.step 0 quietEnv)

/-- The check of an `AddHandler`, the removal of the default handler, and the commit. -/
def removedDefaultRun : List Action :=
  .call 0 (.addHandler loopbackHandler) :: List.replicate 6 (.step 0 quietEnv) ++
    [.call 1 (.removeHandler "direct"), .step 1 quietEnv, .step 0 quietEnv]

/-- **The running configuration has no loop**, from any state that the start check
    accepted and through any interleaving of calls in which no `AddHandler` makes
    its handler the default one after it has seen another. -/
theorem running_loop_free (s s' : System) (hs : s.Started)
    (hrun : ReflTransGen System.CheckedStep s s') : s'.LoopFree := by
  refine (reach_closed (fun x hx y hxy => ?_) hs.safe hrun).loopFree
  obtain ⟨action, hdefault, hexec⟩ := hxy
  exact hx.exec hdefault hexec

/-- A loopback is added behind a default handler that stays. -/
theorem running_loop_free_added :
    ∃ s', ReflTransGen System.CheckedStep startedSystem s' ∧
      loopbackHandler ∈ s'.manager.listHandlers ∧ s'.LoopFree := by
  -- With a default handler in every state there is nothing to meet.
  have hstep : ∀ s a s', (if s.manager.defaultHandler.isSome then s.exec a else none) = some s' →
      System.CheckedStep s s' := by
    intro s a s' h
    split_ifs at h with hsome
    refine ⟨a, fun _ _ _ _ _ _ _ hnone => ?_, h⟩
    simp [hnone] at hsome
  have hrun : (run (fun s a => if s.manager.defaultHandler.isSome then System.exec s a else none)
      addedRun startedSystem).any fun s' =>
        decide (loopbackHandler ∈ s'.manager.listHandlers) := by decide
  obtain ⟨s', hs', hmem⟩ := (any_eq_true _ _).mp hrun
  have hreach := reach_of_run hstep addedRun hs'
  exact ⟨s', hreach, by simpa using hmem,
    running_loop_free startedSystem s' startedSystem_started hreach⟩

/-- The loopback was checked behind the default handler and becomes the default
    handler itself: what it feeds back comes to it again. -/
theorem running_loop_removed_default :
    ∃ s s', System.Started s ∧ ReflTransGen System.Step s s' ∧ ¬ s'.LoopFree := by
  have hrun : (run System.exec removedDefaultRun startedSystem).any fun s' =>
      (loopbackLoops s'.loopGraph s'.manager.listHandlers).isSome := by decide
  obtain ⟨s', hs', hloop⟩ := (any_eq_true _ _).mp hrun
  refine ⟨startedSystem, s', startedSystem_started,
    reach_of_run (fun s a s' h => ⟨a, h⟩) removedDefaultRun hs', fun hfree => ?_⟩
  rw [hfree.2] at hloop
  simp at hloop

end XrayCore.Outbound
