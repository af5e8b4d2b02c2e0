/-
  XrayCore.Strmatcher.ACAutomaton

  A group of matchers as an Aho-Corasick automaton.

  Patterns and inputs are read from the right, over an alphabet of 39 letters into which
  the bytes are folded.  Adding a pattern only makes trie edges; `build` goes over the
  nodes breadth first and fills the edges that are missing with those of the fail node.
  The fail field of a node skips to the next node on its fail path that has `Substr`
  values.
-/

import XrayCore.Strmatcher.Matchers

namespace XrayCore.Strmatcher

/-! ## Nodes -/

/-- `acCharset`: letters in either case, the hyphen, the dot and the digits; all other bytes
    are one letter. -/
def acCharset (c : UInt8) : Fin 39 :=
  if h : 0x61 ≤ c ∧ c ≤ 0x7a then
    ⟨c.toNat - 0x60, by have := UInt8.le_iff_toNat_le.mp h.2; simp at this; omega⟩
  else if h : 0x41 ≤ c ∧ c ≤ 0x5a then
    ⟨c.toNat - 0x40, by have := UInt8.le_iff_toNat_le.mp h.2; simp at this; omega⟩
  else if c = 0x2d then 27
  else if c = 0x2e then 28
  else if h : 0x30 ≤ c ∧ c ≤ 0x39 then
    ⟨c.toNat - 0x13, by have := UInt8.le_iff_toNat_le.mp h.2; simp at this; omega⟩
  else 0

/-- The letters of a string, from the right. -/
def letters (s : Bytes) : List (Fin 39) := s.reverse.map acCharset

/-- `acNode`.  An index is a number of any size: memory for 2³² nodes, where `uint32` ends, is not
    there. -/
structure AcNode where
  next : Fin 39 → ℕ
  /-- Whether the edge is an `acTrieEdge`. -/
  edge : Fin 39 → Bool
  fail : ℕ
  /-- `match`. -/
  entry : ℕ

/-- `acNode{}`. -/
def AcNode.zero : AcNode := ⟨fun _ => 0, fun _ => false, 0, 0⟩

/-- An edge is written, with its kind. -/
def AcNode.setEdge (node : AcNode) (edgeIdx : Fin 39) (nextIdx : ℕ) (trie : Bool) : AcNode where
  next := Function.update node.next edgeIdx nextIdx
  edge := Function.update node.edge edgeIdx trie
  fail := node.fail
  entry := node.entry

/-- `acValue`. -/
abbrev AcValue := MatcherType → List UInt32

/-- `ACAutomatonMatcherGroup`. -/
structure ACAutomaton where
  nodes : List AcNode
  values : List AcValue

namespace ACAutomaton

/-- `NewACAutomatonMatcherGroup`. -/
def new : ACAutomaton := ⟨[AcNode.zero], [fun _ => []]⟩

def size (ac : ACAutomaton) : ℕ := ac.nodes.length

def node (ac : ACAutomaton) (i : ℕ) : AcNode := ac.nodes.getD i AcNode.zero

def value (ac : ACAutomaton) (i : ℕ) : AcValue := ac.values.getD i fun _ => []

/-- A node is written to. -/
def modify (ac : ACAutomaton) (i : ℕ) (f : AcNode → AcNode) : ACAutomaton :=
  { ac with nodes := ac.nodes.modify i f }

/-- `addNode`. -/
def addNode (ac : ACAutomaton) : ACAutomaton := { ac with nodes := ac.nodes ++ [AcNode.zero] }

/-- `addMatchEntry`. -/
def addMatchEntry (ac : ACAutomaton) : ACAutomaton :=
  { ac with values := ac.values ++ [fun _ => []] }

/-! ## Adding patterns -/

/-- A new trie edge, to a new node. -/
def addEdge (ac : ACAutomaton) (nodeIdx : ℕ) (edgeIdx : Fin 39) : ACAutomaton :=
  ac.addNode.modify nodeIdx fun node => node.setEdge edgeIdx ac.size true

/-- The loop of `addPattern`: the node of a path, with new nodes where there are none. -/
def descend (ac : ACAutomaton) (nodeIdx : ℕ) : List (Fin 39) → ACAutomaton × ℕ
  | [] => (ac, nodeIdx)
  | edgeIdx :: path =>
    let nextIdx := (ac.node nodeIdx).next edgeIdx
    if nextIdx = 0 then (ac.addEdge nodeIdx edgeIdx).descend ac.size path
    else ac.descend nextIdx path

/-- A value is added to the entry of a node. -/
def addValue (ac : ACAutomaton) (i : ℕ) (t : MatcherType) (value : UInt32) : ACAutomaton :=
  { ac with values := ac.values.modify i fun v => Function.update v t (v t ++ [value]) }

/-- A node gets an entry of its own. -/
def newEntry (ac : ACAutomaton) (nodeIdx : ℕ) : ACAutomaton :=
  ac.addMatchEntry.modify nodeIdx fun node => { node with entry := ac.values.length }

/-- A value is registered at a node, with a new entry if it has none. -/
def register (ac : ACAutomaton) (nodeIdx : ℕ) (t : MatcherType) (value : UInt32) : ACAutomaton :=
  let ac := if (ac.node nodeIdx).entry = 0 then ac.newEntry nodeIdx else ac
  ac.addValue (ac.node nodeIdx).entry t value

/-- `addPattern`. -/
def addPattern (ac : ACAutomaton) (nodeIdx : ℕ) (pattern : Bytes) (t : MatcherType)
    (value : UInt32) : ACAutomaton × ℕ :=
  let (ac, nodeIdx) := ac.descend nodeIdx (letters pattern)
  (ac.register nodeIdx t value, nodeIdx)

/-- `AddFullMatcher`, `AddDomainMatcher` and `AddSubstrMatcher`. -/
def add (ac : ACAutomaton) (m : Matcher) (value : UInt32) : ACAutomaton :=
  let (ac, node) := ac.addPattern 0 m.pattern m.type value
  match m.type with
  -- for a part of a domain
  | .domain => (ac.addPattern node [dot] m.type value).1
  | _ => ac

/-- A new group with these matchers. -/
def ofMatchers (ms : List (Matcher × UInt32)) : ACAutomaton :=
  ms.foldl (fun ac m => ac.add m.1 m.2) new

/-! ## Building -/

/-- What `Build` works with. -/
structure Building where
  ac : ACAutomaton
  fail : ℕ → ℕ
  queue : List ℕ

/-- The body of the inner loop of `Build`. -/
def buildEdge (nodeIdx failNode : ℕ) (b : Building) (edgeIdx : Fin 39) : Building :=
  let nextIdx := (b.ac.node nodeIdx).next edgeIdx
  let failIdx := (b.ac.node failNode).next edgeIdx
  if nextIdx ≠ 0 then
    let entry := (b.ac.node failIdx).entry
    -- the fail path is compressed to nodes with `Substr` values
    let fail :=
      if entry ≠ 0 ∧ b.ac.value entry .substr ≠ [] then failIdx else (b.ac.node failIdx).fail
    { ac := b.ac.modify nextIdx fun node => { node with fail }
      fail := Function.update b.fail nextIdx failIdx
      queue := b.queue ++ [nextIdx] }
  else { b with ac := b.ac.modify nodeIdx fun node => node.setEdge edgeIdx failIdx false }

/-- A node is taken from the queue. -/
def buildNode (b : Building) (nodeIdx : ℕ) : Building :=
  (List.finRange 39).foldl (buildEdge nodeIdx (b.fail nodeIdx)) b

/-- The outer loop of `Build`, for at most so many nodes. -/
def buildLoop : ℕ → Building → Building
  | 0, b => b
  | n + 1, b =>
    match b.queue with
    | [] => b
    | nodeIdx :: queue => buildLoop n (buildNode { b with queue } nodeIdx)

/-- The queue at the start: the children of the root. -/
def rootQueue (ac : ACAutomaton) : List ℕ :=
  ((List.finRange 39).map (ac.node 0).next).filter (· ≠ 0)

/-- `Build`.  No node comes into the queue twice, so as many turns as there are nodes are
    enough. -/
def build (ac : ACAutomaton) : ACAutomaton :=
  (buildLoop ac.size ⟨ac, fun _ => 0, ac.rootQueue⟩).ac

/-! ## Matching -/

/-- The walk over the fail path.  Both variables are assigned at once, so the node is that of
    the index before. -/
def failWalk (ac : ACAutomaton) : ℕ → ℕ → ℕ → List (List UInt32)
  | 0, _, _ => []
  | n + 1, failIdx, failNode =>
    if failIdx = 0 then []
    else ac.value (ac.node failNode).entry .substr ::
      failWalk ac n (ac.node failNode).fail failIdx

/-- What `Match` works with. -/
structure Scan where
  node : ℕ
  fullMatch : Bool
  suffixMatches : List (List UInt32)
  substrMatches : List (List UInt32)

/-- The body of the loop of `Match`; the walk has no more than two turns for each node. -/
def scanByte (ac : ACAutomaton) (s : Scan) (c : UInt8) : Scan :=
  let edge := acCharset c
  let fullMatch := s.fullMatch && (ac.node s.node).edge edge
  let node := (ac.node s.node).next edge
  let fail := (ac.node node).fail
  let walked := s.substrMatches ++ ac.failWalk (2 * ac.size) fail fail
  let values := ac.value (ac.node node).entry
  if (ac.node node).entry ≠ 0 then
    { node, fullMatch
      substrMatches := if values .substr ≠ [] then walked ++ [values .substr] else walked
      suffixMatches :=
        if fullMatch ∧ c = dot ∧ values .domain ≠ [] then s.suffixMatches ++ [values .domain]
        else s.suffixMatches }
  else { node, fullMatch, substrMatches := walked, suffixMatches := s.suffixMatches }

/-- `CompositeMatchesReverse`. -/
def compositeMatchesReverse (matched : List (List UInt32)) : List UInt32 := matched.reverse.flatten

/-- The loop of `Match`. -/
def scan (ac : ACAutomaton) (input : Bytes) : Scan :=
  input.reverse.foldl ac.scanByte ⟨0, true, [], []⟩

/-- What is added at the end of the input. -/
def wholeMatches (ac : ACAutomaton) (s : Scan) : List (List UInt32) :=
  if s.fullMatch ∧ (ac.node s.node).entry ≠ 0 then
    [ac.value (ac.node s.node).entry .domain, ac.value (ac.node s.node).entry .full].filter (· ≠ [])
  else []

/-- `Match`. -/
def matchValues (ac : ACAutomaton) (input : Bytes) : List UInt32 :=
  let s := ac.scan input
  compositeMatchesReverse (s.substrMatches ++ (s.suffixMatches ++ ac.wholeMatches s))

/-- The loop of `MatchAny`, over the input from the right. -/
def matchAnyFrom (ac : ACAutomaton) : ℕ → Bool → Bytes → Bool
  | node, fullMatch, [] => fullMatch && (ac.node node).entry ≠ 0
  | node, fullMatch, c :: rest =>
    let edge := acCharset c
    let fullMatch := fullMatch && (ac.node node).edge edge
    let node := (ac.node node).next edge
    let values := ac.value (ac.node node).entry
    if (ac.node node).fail ≠ 0 then true
    else if (ac.node node).entry ≠ 0 ∧ values .substr ≠ [] then true
    else if (ac.node node).entry ≠ 0 ∧ fullMatch ∧ c = dot ∧ values .domain ≠ [] then true
    else ac.matchAnyFrom node fullMatch rest

/-- `MatchAny`. -/
def matchAny (ac : ACAutomaton) (input : Bytes) : Bool := ac.matchAnyFrom 0 true input.reverse

end ACAutomaton

end XrayCore.Strmatcher
