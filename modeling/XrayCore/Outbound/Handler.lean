/-
  XrayCore.Outbound.Handler

  What the loop checks read of an outbound handler (`features/outbound/loops.go`).

  A handler dials through the handler that its `dialerProxy` names, and a
  loopback feeds its connections back into routing under an inbound tag.
  `LoopbackReached` follows the dialers with a bound on the hops;
  `loopbackReached_iff` says that the bound loses nothing: it finds the loopback
  that a connection through the handler comes to, whenever there is one.
-/

import XrayCore.Graph.Cycle

namespace XrayCore.Outbound

open Relation XrayCore.Graph List

/-! ## Handlers -/

/-- `LoopView` of a handler that has one. -/
structure LoopView where
  /-- The tag of the handler this one dials through, `""` for none. -/
  dialerProxy : String
  /-- The inbound tag that a loopback feeds. -/
  loopbackInbound : Option String
  deriving DecidableEq, Repr

/-- An outbound handler. -/
structure Handler where
  tag : String
  view : Option LoopView
  /-- `ProxySettings().GetType()`. -/
  settingsType : String
  deriving DecidableEq, Repr

/-- `map[string]outbound.Handler`. -/
abbrev HandlerMap := AList (fun _ : String => Handler)

/-- The tagged handlers of a list, a later one in place of an earlier one of the
    same tag. -/
def byTag (handlers : List Handler) : HandlerMap :=
  handlers.foldl (fun m h => if h.tag = "" then m else m.insert h.tag h) ∅

/-- A handler's tag, or `(untagged)`. -/
def handlerName (h : Handler) : String :=
  if h.tag = "" then "(untagged)" else h.tag

/-- The loop of `LoopbackReached` for `n` more hops, those in `hops` done. -/
def reachedFrom (handlers : HandlerMap) :
    ℕ → List String → Option Handler → Option (String × String)
  | 0, _, _ => none
  | _ + 1, _, none => none
  | n + 1, hops, some h =>
    match h.view with
    | none => none
    | some view =>
      match view.loopbackInbound with
      | some inbound => some (inbound, " via ".intercalate (hops ++ [handlerName h]))
      | none =>
        if view.dialerProxy = "" then none
        else reachedFrom handlers n (hops ++ [handlerName h]) (handlers.lookup view.dialerProxy)

/-- `LoopbackReached`: the inbound tag and the path. -/
def loopbackReached (h : Option Handler) (handlers : HandlerMap) : Option (String × String) :=
  reachedFrom handlers (handlers.keys.length + 1) [] h

/-! ## What a connection comes to -/

/-- `h` hands its connections on to `h'`. -/
def Dials (handlers : HandlerMap) (h h' : Handler) : Prop :=
  ∃ view, h.view = some view ∧ view.loopbackInbound = none ∧ view.dialerProxy ≠ "" ∧
    handlers.lookup view.dialerProxy = some h'

/-- A connection that `h` takes is fed back into routing under `inbound`. -/
def Feeds (handlers : HandlerMap) (h : Handler) (inbound : String) : Prop :=
  ∃ last, ReflTransGen (Dials handlers) h last ∧
    ∃ view, last.view = some view ∧ view.loopbackInbound = some inbound

section Reached

variable {handlers : HandlerMap}

/-- Only what a connection comes to is found. -/
theorem feeds_of_reachedFrom {inbound path : String} :
    ∀ (n : ℕ) (hops : List String) (h : Handler),
      reachedFrom handlers n hops (some h) = some (inbound, path) →
      Feeds handlers h inbound := by
  intro n
  induction n with
  | zero => simp [reachedFrom]
  | succ n ih =>
    intro hops h hres
    rw [reachedFrom] at hres
    cases hview : h.view with
    | none => simp [hview] at hres
    | some view =>
      simp only [hview] at hres
      cases hloop : view.loopbackInbound with
      | some tag =>
        simp only [hloop, Option.some.injEq, Prod.mk.injEq] at hres
        exact ⟨h, .refl, view, hview, by rw [hloop, hres.1]⟩
      | none =>
        simp only [hloop] at hres
        split_ifs at hres with hempty
        cases hnext : handlers.lookup view.dialerProxy with
        | none =>
          rw [hnext] at hres
          cases n <;> simp [reachedFrom] at hres
        | some h' =>
          rw [hnext] at hres
          obtain ⟨last, hwalk, hlast⟩ := ih _ h' hres
          exact ⟨last, hwalk.head ⟨view, hview, hloop, hempty, hnext⟩, hlast⟩

/-- A walk of dialers to a loopback is found when it has room. -/
theorem reachedFrom_of_chain {inbound : String} :
    ∀ (walk : List Handler) (n : ℕ) (hops : List String) (h : Handler),
      walk.length < n → (h :: walk).IsChain (Dials handlers) →
      (∃ view, ((h :: walk).getLast (by simp)).view = some view ∧
        view.loopbackInbound = some inbound) →
      ∃ path, reachedFrom handlers n hops (some h) = some (inbound, path) := by
  intro walk
  induction walk with
  | nil =>
    rintro n hops h hn - ⟨view, hview, hloop⟩
    obtain ⟨n, rfl⟩ := Nat.exists_eq_add_one_of_ne_zero (Nat.ne_of_gt hn)
    rw [getLast_singleton] at hview
    refine ⟨" via ".intercalate (hops ++ [handlerName h]), ?_⟩
    simp only [reachedFrom, hview, hloop]
  | cons h' walk ih =>
    intro n hops h hn hchain hlast
    obtain ⟨n, rfl⟩ := Nat.exists_eq_add_one_of_ne_zero (Nat.ne_of_gt (Nat.zero_lt_of_lt hn))
    rw [isChain_cons_cons] at hchain
    obtain ⟨⟨view, hview, hloop, hempty, hnext⟩, hchain⟩ := hchain
    rw [getLast_cons (by simp)] at hlast
    rw [length_cons, Nat.add_lt_add_iff_right] at hn
    obtain ⟨path, hpath⟩ := ih n (hops ++ [handlerName h]) h' hn hchain hlast
    exact ⟨path, by simp only [reachedFrom, hview, hloop, hempty, if_false, hnext, hpath]⟩

/-- Every handler of a walk but the first is one of the map. -/
theorem mem_entries_of_chain :
    ∀ (walk : List Handler) (h : Handler), (h :: walk).IsChain (Dials handlers) →
      ∀ x ∈ walk, x ∈ handlers.entries.map Sigma.snd := by
  intro walk
  induction walk with
  | nil => simp
  | cons h' walk ih =>
    intro h hchain x hx
    rw [isChain_cons_cons] at hchain
    obtain ⟨⟨view, -, -, -, hnext⟩, hchain⟩ := hchain
    rcases mem_cons.mp hx with rfl | hx
    · exact mem_map.mpr ⟨_, AList.mem_lookup_iff.mp hnext, rfl⟩
    · exact ih h' hchain x hx

/-- **`LoopbackReached` finds exactly the loopback that a handler feeds.** -/
theorem loopbackReached_iff (handlers : HandlerMap) (h : Handler) (inbound : String) :
    (∃ path, loopbackReached (some h) handlers = some (inbound, path)) ↔
      Feeds handlers h inbound := by
  refine ⟨fun ⟨path, hpath⟩ => feeds_of_reachedFrom _ _ _ hpath, ?_⟩
  rintro ⟨last, hwalk, hlast⟩
  -- A walk without repetition has at most one handler besides those of the map.
  obtain ⟨walk, hchain, hnodup, hend⟩ := exists_nodup_walk hwalk
  have hlen : walk.length ≤ (handlers.entries.map Sigma.snd).length :=
    (hnodup.of_cons.subperm (mem_entries_of_chain walk h hchain)).length_le
  rw [length_map] at hlen
  have hkeys : handlers.keys.length = handlers.entries.length := by
    simp [AList.keys, keys]
  refine reachedFrom_of_chain walk _ [] h (by omega) hchain ?_
  rw [hend]
  exact hlast

end Reached

/-- A tag is mapped to the last handler that has it. -/
theorem byTag_lookup (handlers : List Handler) (tag : String) :
    (byTag handlers).lookup tag =
      if tag = "" then none else handlers.reverse.find? (fun h => decide (h.tag = tag)) := by
  induction handlers using reverseRecOn with
  | nil => simp [byTag]
  | append_singleton handlers x ih =>
    have hstep : byTag (handlers ++ [x]) =
        if x.tag = "" then byTag handlers else (byTag handlers).insert x.tag x := by
      rw [byTag, foldl_append]
      rfl
    rw [hstep, reverse_append, reverse_singleton, singleton_append,
      find?_cons]
    by_cases htag : x.tag = tag
    · subst htag
      by_cases hempty : x.tag = ""
      · simp [hempty, ih]
      · simp [hempty]
    · have hne : tag ≠ x.tag := fun h => htag h.symm
      simp only [htag, decide_false]
      rw [← ih]
      split_ifs
      · rfl
      · rw [AList.lookup_insert_ne hne]

theorem byTag_lookup_some {handlers : List Handler} {tag : String} {h : Handler}
    (hh : (byTag handlers).lookup tag = some h) : h ∈ handlers ∧ h.tag = tag ∧ tag ≠ "" := by
  rw [byTag_lookup] at hh
  split_ifs at hh with hempty
  refine ⟨mem_reverse.mp (mem_of_find?_eq_some hh), ?_, hempty⟩
  simpa using find?_some hh

/-- Whatever is fed is the inbound tag of some handler, when the first one is. -/
theorem exists_loopback_of_feeds {handlers : List Handler} {h : Handler} {inbound : String}
    (hh : h ∈ handlers) (hfeeds : Feeds (byTag handlers) h inbound) :
    ∃ last ∈ handlers, ∃ view, last.view = some view ∧ view.loopbackInbound = some inbound := by
  obtain ⟨last, hwalk, hlast⟩ := hfeeds
  refine ⟨last, ?_, hlast⟩
  cases hwalk with
  | refl => exact hh
  | tail _ hstep =>
    obtain ⟨view, -, -, -, hnext⟩ := hstep
    exact (byTag_lookup_some hnext).1

end XrayCore.Outbound
