/-
  XrayCore.Router.MemberStatus

  The status of a balancer as the level above reads it (`app/router/member_status.go`).

  A `statusReader` asks for each balancer once and marks it before it knows the answer.  On
  a map that `checkBalancerGraph` accepts no balancer is asked for while its own answer is
  being worked out, so the marks are never seen, and the answers are those of the equation
  `level`, which has one solution.
-/

import XrayCore.Router.Chain

namespace XrayCore.Router

open Relation XrayCore.Graph List Option Function

/-! ## Statuses -/

/-- `HealthPingMeasurementResult`. -/
structure HealthPing where
  all : ℤ
  fail : ℤ
  deviation : ℤ
  average : ℤ
  max : ℤ
  min : ℤ
  deriving DecidableEq

/-- `OutboundStatus`. -/
structure OutboundStatus where
  alive : Bool
  delay : ℤ
  lastErrorReason : String
  outboundTag : String
  lastSeenTime : ℤ
  lastTryTime : ℤ
  healthPing : Option HealthPing
  trackedFrom : String
  forceDown : Bool
  forceDownReason : String
  forceDownSince : ℤ
  deriving DecidableEq

/-- `&OutboundStatus{}`. -/
def OutboundStatus.zero : OutboundStatus := ⟨false, 0, "", "", 0, 0, none, "", false, "", 0⟩

/-- The status of the balancer `tag`: the measurement it comes from, under its tag. -/
def OutboundStatus.retag (tag : String) (s : OutboundStatus) : OutboundStatus :=
  { s with outboundTag := tag, trackedFrom := "" }

/-- What `newStatusReader` keeps of an observation: of each tag the last status. -/
def observedOf (statuses : List OutboundStatus) : AList (fun _ : String => OutboundStatus) :=
  statuses.foldl (fun m s => m.insert s.outboundTag s) ∅

/-- What a reader reads: the balancers and their override targets, the observation, and of the
    outbound manager what selectors match and which handlers are blackholes. -/
structure StatusEnv where
  m : BalancerMap
  override : Balancer → String
  observed : AList (fun _ : String => OutboundStatus)
  select : Option (List String → List String)
  blackhole : String → Bool

/-- The candidates of a balancer, none if they cannot be selected. -/
def StatusEnv.candidates (env : StatusEnv) (b : Balancer) : List String :=
  match selectOutbounds ⟨env.select, "", fun _ => "", none⟩ b with
  | .error _ => []
  | .ok candidates => candidates

/-! ## The reader -/

/-- What the loop over the candidates has found. -/
structure Tally where
  best : Option OutboundStatus
  dead : Option OutboundStatus
  unknown : Bool

def Tally.add (t : Tally) : Option OutboundStatus → Tally
  | none => { t with unknown := true }
  | some s =>
    if s.alive then
      { t with best := match t.best with
        | none => some s
        | some best => if s.delay < best.delay then some s else some best }
    else { t with dead := t.dead.or (some s) }

/-- `statusReader`, what changes of it. -/
structure Reader where
  memo : String → Option OutboundStatus
  done : List String

/-- Once every candidate is down and there is no other fallback. -/
def downStatus : Option OutboundStatus → OutboundStatus
  | none => .zero
  | some dead => { dead with alive := false, delay := 0 }

/-- `statusReader.fallback`, which asks for a balancer by `ask`. -/
def readFallback (env : StatusEnv) (ask : String → Reader → Reader × Option OutboundStatus)
    (b : Balancer) (dead : Option OutboundStatus) (r : Reader) : Reader × Option OutboundStatus :=
  if b.fallbackTag = "" ∨ env.blackhole b.fallbackTag then (r, some (downStatus dead))
  else if b.fallbackTag ∈ env.m then ask b.fallbackTag r
  else (r, env.observed.lookup b.fallbackTag)

/-- The loop of `statusReader.balancer` over the candidates. -/
def readCandidates (env : StatusEnv) (ask : String → Reader → Reader × Option OutboundStatus)
    (b : Balancer) (st : Reader × Tally) (candidate : String) : Reader × Tally :=
  if candidate ∈ b.members then
    let a := ask candidate st.1
    (a.1, st.2.add a.2)
  else (st.1, st.2.add (env.observed.lookup candidate))

/-- `statusReader.balancer`, for calls that are nested at most `n` deep. -/
def readBalancer (env : StatusEnv) : ℕ → String → Reader → Reader × Option OutboundStatus
  | 0, _, r => (r, none)
  | n + 1, tag, r =>
    if tag ∈ r.done then (r, r.memo tag)
    else
      let r := { r with done := tag :: r.done }
      match env.m.lookup tag with
      | none => (r, none)
      | some b =>
        let a :=
          if env.override b ≠ "" then (r, env.observed.lookup (env.override b))
          else
            let c := (env.candidates b).foldl (readCandidates env (readBalancer env n) b)
              (r, ⟨none, none, false⟩)
            match c.2.best with
            | some best => (c.1, some best)
            | none =>
              if c.2.unknown then (c.1, none)
              else readFallback env (readBalancer env n) b c.2.dead c.1
        let status := a.2.map (OutboundStatus.retag tag)
        ({ a.1 with memo := update a.1.memo tag status }, status)

/-- A reader asked for one balancer after the other. -/
def readAll (env : StatusEnv) (n : ℕ) (tags : List String) : Reader :=
  tags.foldl (fun r tag => (readBalancer env n tag r).1) ⟨fun _ => none, []⟩

/-! ## What the status should be -/

/-- The status of a candidate, given those of the balancers. -/
def candidateStatus (env : StatusEnv) (status : String → Option OutboundStatus) (b : Balancer)
    (candidate : String) : Option OutboundStatus :=
  if candidate ∈ b.members then status candidate else env.observed.lookup candidate

/-- The status of a level, given those of the balancers: its override target's; else that of the
    first of the alive candidates with the least delay; else unknown if some candidate is; else
    its fallback's, where a blackhole or no fallback is down. -/
noncomputable def level (env : StatusEnv) (status : String → Option OutboundStatus) (tag : String) :
    Option OutboundStatus :=
  (env.m.lookup tag).bind fun b =>
    let known := (env.candidates b).map (candidateStatus env status b)
    let reduced := known.filterMap id
    Option.map (OutboundStatus.retag tag) <|
      if env.override b ≠ "" then env.observed.lookup (env.override b)
      else (((reduced.filter (·.alive)).argmin OutboundStatus.delay).or <|
        if none ∈ known then none
        else if b.fallbackTag = "" ∨ env.blackhole b.fallbackTag then
          some (downStatus (reduced.find? (!·.alive)))
        else if b.fallbackTag ∈ env.m then status b.fallbackTag
        else env.observed.lookup b.fallbackTag)

/-- The loop over the candidates finds the best, the first dead and whether one is unknown. -/
theorem foldl_tally_add (l : List (Option OutboundStatus)) (t : Tally) :
    l.foldl Tally.add t =
      { best := ((l.filterMap id).filter (·.alive)).foldl
          (argAux fun b c => OutboundStatus.delay b < OutboundStatus.delay c) t.best
        dead := t.dead.or ((l.filterMap id).find? (!·.alive))
        unknown := t.unknown || decide (none ∈ l) } := by
  induction l generalizing t with
  | nil => simp
  | cons s l ih =>
    rw [foldl_cons, ih]
    cases s with
    | none => simp [Tally.add]
    | some s =>
      by_cases ha : s.alive = true
      · cases hbest : t.best <;> simp [Tally.add, ha, hbest, argAux]
      · simp [Tally.add, ha]

theorem tally_eq (l : List (Option OutboundStatus)) :
    l.foldl Tally.add ⟨none, none, false⟩ =
      { best := ((l.filterMap id).filter (·.alive)).argmin OutboundStatus.delay
        dead := (l.filterMap id).find? (!·.alive)
        unknown := decide (none ∈ l) } := by
  rw [foldl_tally_add, none_or, Bool.false_or]
  rfl

/-! ## One solution -/

section Solution

variable {env : StatusEnv}

/-- No walk from the balancer has `n` edges. -/
def Within (m : BalancerMap) (n : ℕ) (tag : String) : Prop :=
  ∀ walk, (tag :: walk).IsChain (BalancerEdge m) → walk.length < n

variable {m : BalancerMap}

theorem Within.next {n : ℕ} {x y : String} (h : Within m (n + 1) x) (hedge : BalancerEdge m x y) :
    Within m n y :=
  fun walk hwalk => Nat.lt_of_succ_lt_succ (h (y :: walk) (hwalk.cons_cons hedge))

theorem mem_of_isChain {x : String} {walk : List String}
    (h : (x :: walk).IsChain (BalancerEdge m)) : ∀ y ∈ walk, y ∈ m := by
  induction walk generalizing x with
  | nil => exact nofun
  | cons y walk ih =>
    rw [isChain_cons_cons] at h
    obtain ⟨⟨b, -, hy, -⟩, hrest⟩ := h
    exact forall_mem_cons.mpr ⟨hy, ih hrest⟩

theorem within_keys (hm : GraphOk m) (tag : String) :
    Within m (m.keys.length + 1) tag := fun _ hwalk =>
  Nat.lt_succ_of_le <| hm.acyclic.chain_length_le hwalk.tail fun x hx =>
    AList.mem_keys.mp (mem_of_isChain hwalk x hx)

variable {s : String → Option OutboundStatus}

/-- A level depends on the balancers it leads to. -/
theorem level_congr (hm : GraphOk env.m) {s' : String → Option OutboundStatus} {tag : String}
    (h : ∀ y, BalancerEdge env.m tag y → s y = s' y) : level env s tag = level env s' tag := by
  unfold level
  cases hb : env.m.lookup tag with
  | none => rfl
  | some b =>
    have hmembers : candidateStatus env s b = candidateStatus env s' b := by
      funext c
      unfold candidateStatus
      split
      · rename_i hc
        exact h c ⟨b, hb, hm.member_mem tag b hb c hc, .inl hc⟩
      · rfl
    have hfallback : (if b.fallbackTag ∈ env.m then s b.fallbackTag
        else env.observed.lookup b.fallbackTag) = if b.fallbackTag ∈ env.m then s' b.fallbackTag
        else env.observed.lookup b.fallbackTag := by
      split
      · rename_i hin
        exact h _ ⟨b, hb, hin, .inr rfl⟩
      · rfl
    simp only [bind_some, hmembers, hfallback]

/-- The equation, unfolded `n` times. -/
noncomputable def unfoldLevel (env : StatusEnv) : ℕ → String → Option OutboundStatus
  | 0 => fun _ => none
  | n + 1 => level env (unfoldLevel env n)

/-- A solution is what `n` unfoldings give, where no walk is as long as that. -/
theorem eq_unfoldLevel (hm : GraphOk env.m) (hs : ∀ tag, s tag = level env s tag) (n : ℕ)
    (tag : String) (hn : Within env.m n tag) : s tag = unfoldLevel env n tag := by
  induction n generalizing tag with
  | zero => exact absurd (hn [] (by simp)) (Nat.lt_irrefl 0)
  | succ n ih => exact (hs tag).trans (level_congr hm fun y hy => ih y (hn.next hy))

theorem unfoldLevel_succ (hm : GraphOk env.m) (n : ℕ) (tag : String) (hn : Within env.m n tag) :
    unfoldLevel env (n + 1) tag = unfoldLevel env n tag := by
  induction n generalizing tag with
  | zero => exact absurd (hn [] (by simp)) (Nat.lt_irrefl 0)
  | succ n ih => exact level_congr hm fun y hy => ih y (hn.next hy)

theorem exists_solution (hm : GraphOk env.m) :
    ∃ s : String → Option OutboundStatus, ∀ tag, s tag = level env s tag :=
  ⟨unfoldLevel env (env.m.keys.length + 1), fun tag =>
    (unfoldLevel_succ hm _ tag (within_keys hm tag)).symm⟩

/-! ## What the reader finds -/

variable {status : String → Option OutboundStatus}

/-- What the reader has is right, but for the balancers that are being worked out. -/
structure Reader.Right (status : String → Option OutboundStatus) (r : Reader) (busy : List String) :
    Prop where
  known : ∀ t ∈ r.done, t ∉ busy → r.memo t = status t
  unset : ∀ t, t ∉ r.done → r.memo t = none

/-- The answer is the status `s`, and the reader stays right. -/
structure Answers (status : String → Option OutboundStatus) (r : Reader) (busy : List String)
    (s : Option OutboundStatus) (a : Reader × Option OutboundStatus) : Prop where
  answer : a.2 = s
  right : a.1.Right status busy
  grows : r.done ⊆ a.1.done

variable {ask : String → Reader → Reader × Option OutboundStatus}

theorem foldl_readCandidates (env : StatusEnv) {b : Balancer} {busy : List String}
    (hask : ∀ c ∈ b.members, ∀ r : Reader, r.Right status busy →
      Answers status r busy (status c) (ask c r)) (cs : List String) (st : Reader × Tally)
    (hst : st.1.Right status busy) :
    let c := cs.foldl (readCandidates env ask b) st
    c.2 = (cs.map (candidateStatus env status b)).foldl Tally.add st.2 ∧
      c.1.Right status busy ∧ st.1.done ⊆ c.1.done := by
  induction cs generalizing st with
  | nil => exact ⟨rfl, hst, List.Subset.refl _⟩
  | cons c cs ih =>
    rw [foldl_cons, map_cons, foldl_cons, readCandidates, candidateStatus]
    by_cases hc : c ∈ b.members
    · obtain ⟨ha, hr, hg⟩ := hask c hc st.1 hst
      rw [if_pos hc, if_pos hc, ← ha]
      obtain ⟨h1, h2, h3⟩ := ih ((ask c st.1).1, st.2.add (ask c st.1).2) hr
      exact ⟨h1, h2, List.Subset.trans hg h3⟩
    · rw [if_neg hc, if_neg hc]
      exact ih (st.1, st.2.add (env.observed.lookup c)) hst

/-- A level that asks rightly is read rightly. -/
theorem answers_level {tag : String} {b : Balancer} {busy : List String} (hm : GraphOk env.m)
    (hb : env.m.lookup tag = some b)
    (hask : ∀ y, BalancerEdge env.m tag y → ∀ r : Reader, r.Right status busy →
      Answers status r busy (status y) (ask y r)) {r : Reader} (hr : r.Right status busy) :
    let a :=
      if env.override b ≠ "" then (r, env.observed.lookup (env.override b))
      else
        let c := (env.candidates b).foldl (readCandidates env ask b) (r, ⟨none, none, false⟩)
        match c.2.best with
        | some best => (c.1, some best)
        | none => if c.2.unknown then (c.1, none) else readFallback env ask b c.2.dead c.1
    a.2.map (OutboundStatus.retag tag) = level env status tag ∧ a.1.Right status busy ∧
      r.done ⊆ a.1.done := by
  unfold level
  rw [hb, bind_some]
  by_cases hover : env.override b ≠ ""
  · simp only [if_pos hover]
    exact ⟨trivial, hr, List.Subset.refl _⟩
  simp only [if_neg hover]
  obtain ⟨htally, hright, hgrows⟩ := foldl_readCandidates env
    (fun c hc => hask c ⟨b, hb, hm.member_mem tag b hb c hc, .inl hc⟩) (env.candidates b)
    (r, ⟨none, none, false⟩) hr
  rw [tally_eq] at htally
  simp only [htally]
  cases argmin OutboundStatus.delay _ with
  | some best => exact ⟨rfl, hright, hgrows⟩
  | none =>
    simp only [none_or, decide_eq_true_eq]
    split
    · exact ⟨rfl, hright, hgrows⟩
    · unfold readFallback
      split
      · exact ⟨rfl, hright, hgrows⟩
      · split
        · rename_i hin
          obtain ⟨ha, har, hag⟩ := hask b.fallbackTag ⟨b, hb, hin, .inr rfl⟩ _ hright
          exact ⟨by rw [ha], har, List.Subset.trans hgrows hag⟩
        · exact ⟨rfl, hright, hgrows⟩

/-- A balancer that leads to none that is being worked out is read rightly. -/
theorem answers_readBalancer (hm : GraphOk env.m) (hs : ∀ tag, status tag = level env status tag)
    (n : ℕ) (tag : String) (hn : Within env.m n tag) (busy : List String)
    (hbusy : ∀ p ∈ busy, TransGen (BalancerEdge env.m) p tag) (r : Reader)
    (hr : r.Right status busy) : Answers status r busy (status tag) (readBalancer env n tag r) := by
  induction n generalizing tag busy r with
  | zero => exact absurd (hn [] (by simp)) (Nat.lt_irrefl 0)
  | succ n ih =>
    have hnot : tag ∉ busy := fun h => hm.acyclic tag (hbusy tag h)
    rw [readBalancer]
    by_cases hdone : tag ∈ r.done
    · rw [if_pos hdone]
      exact ⟨hr.known tag hdone hnot, hr, List.Subset.refl _⟩
    rw [if_neg hdone]
    have hmarked : Reader.Right status { r with done := tag :: r.done } (tag :: busy) := by
      refine ⟨fun t ht htb => ?_, fun t ht => hr.unset t fun h => ht (mem_cons_of_mem _ h)⟩
      rw [mem_cons, not_or] at htb
      exact hr.known t ((mem_cons.mp ht).resolve_left htb.1) htb.2
    cases hb : env.m.lookup tag with
    | none =>
      have hnone : status tag = none := by rw [hs, level, hb, bind_none]
      refine ⟨hnone.symm, ⟨fun t ht htb => ?_, hmarked.unset⟩, subset_cons_self _ _⟩
      by_cases htag : t = tag
      · rw [htag, hnone]
        exact hr.unset tag hdone
      · exact hr.known t ((mem_cons.mp ht).resolve_left htag) htb
    | some b =>
      have hask : ∀ y, BalancerEdge env.m tag y → ∀ r : Reader, r.Right status (tag :: busy) →
          Answers status r (tag :: busy) (status y) (readBalancer env n y r) := by
        intro y hy r' hr'
        refine ih y (hn.next hy) (tag :: busy) (forall_mem_cons.mpr ⟨.single hy, ?_⟩) r' hr'
        exact fun p hp => (hbusy p hp).tail hy
      obtain ⟨hstatus, hright, hgrows⟩ := answers_level hm hb hask hmarked
      rw [← hs tag] at hstatus
      refine ⟨hstatus, ⟨fun t ht htb => ?_, fun t ht => ?_⟩, fun t ht => ?_⟩
      · by_cases htag : t = tag
        · subst htag
          exact (update_self _ _ _).trans hstatus
        · refine (update_of_ne htag _ _).trans (hright.known t ht ?_)
          rw [mem_cons, not_or]
          exact ⟨htag, htb⟩
      · have htag : t ≠ tag := fun h => ht (h ▸ hgrows mem_cons_self)
        exact (update_of_ne htag _ _).trans (hright.unset t ht)
      · exact hgrows (mem_cons_of_mem _ ht)

theorem right_readAll (hm : GraphOk env.m) (hs : ∀ tag, status tag = level env status tag) {n : ℕ}
    (hn : env.m.keys.length < n) (tags : List String) : (readAll env n tags).Right status [] := by
  unfold readAll
  have hstart : Reader.Right status ⟨fun _ => none, []⟩ [] := ⟨nofun, fun _ _ => rfl⟩
  revert hstart
  generalize (⟨fun _ => none, []⟩ : Reader) = r
  induction tags generalizing r with
  | nil => exact fun hr => hr
  | cons tag tags ih =>
    intro hr
    rw [foldl_cons]
    have hw : Within env.m n tag := fun walk hwalk =>
      Nat.lt_of_lt_of_le (within_keys hm tag walk hwalk) hn
    exact ih _ (answers_readBalancer hm hs n tag hw [] nofun r hr).right

end Solution

/-- On an accepted map the recursive definition of the statuses has one solution, and that is
    what a reader answers, whatever it was asked for before. -/
theorem readBalancer_bubbles (env : StatusEnv) (hcheck : checkBalancerGraph env.m = none) :
    ∃ status : String → Option OutboundStatus,
      (∀ tag, status tag = level env status tag) ∧
      (∀ s : String → Option OutboundStatus, (∀ tag, s tag = level env s tag) → s = status) ∧
      ∀ (n : ℕ) (before : List String) (tag : String), env.m.keys.length < n →
        (readBalancer env n tag (readAll env n before)).2 = status tag := by
  have hm := (checkBalancerGraph_eq_none_iff env.m).mp hcheck
  obtain ⟨status, hs⟩ := exists_solution hm
  refine ⟨status, hs, fun s hs' => ?_, fun n before tag hn => ?_⟩
  · funext tag
    rw [eq_unfoldLevel hm hs _ tag (within_keys hm tag),
      eq_unfoldLevel hm hs' _ tag (within_keys hm tag)]
  · have hw : Within env.m n tag := fun walk hwalk =>
      Nat.lt_of_lt_of_le (within_keys hm tag walk hwalk) hn
    exact (answers_readBalancer hm hs n tag hw [] nofun _ (right_readAll hm hs hn before)).answer

/-- The nested balancers: the member of `inner` is down, and `spare` is overridden. -/
def nestedEnv : StatusEnv where
  m := nestedBalancers
  override b := if b.tag = "spare" then "direct" else ""
  observed := observedOf [{ OutboundStatus.zero with outboundTag := "edge" },
    { OutboundStatus.zero with outboundTag := "direct", alive := true, delay := 7 }]
  select := some id
  blackhole _ := false

theorem readBalancer_bubbles_nested : checkBalancerGraph nestedEnv.m = none ∧
    ∃ status : String → Option OutboundStatus, (∀ tag, status tag = level nestedEnv status tag) ∧
      status "outer" =
        some { OutboundStatus.zero with outboundTag := "outer", alive := true, delay := 7 } := by
  have hcheck : checkBalancerGraph nestedEnv.m = none := by decide
  obtain ⟨status, hs, -, hread⟩ := readBalancer_bubbles nestedEnv hcheck
  refine ⟨hcheck, status, hs, ?_⟩
  rw [← hread 4 ["spare", "inner"] "outer" (by decide)]
  decide

end XrayCore.Router
