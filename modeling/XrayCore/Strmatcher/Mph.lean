/-
  XrayCore.Strmatcher.Mph

  A group of `Full` and `Domain` matchers as a minimal perfect hash table.

  Each pattern is a record in one string, `arena`.  `build` sorts the patterns, writes their
  records and looks for seeds that put all of them into different slots; matching hashes
  the input from the right and looks up each part that stands behind a dot.  A read out of
  range, checked or not, gives no answer here (`none`).
-/

import XrayCore.Strmatcher.Matchers
import XrayCore.Table.Buckets
import XrayCore.Table.Groups
import XrayCore.Wire.Uvarint

namespace XrayCore.Strmatcher

open Table Wire

/-! ## Patterns -/

/-- The kinds of an added pattern. -/
inductive MphKind where
  | full
  | parent
  | domain
deriving DecidableEq

/-- `mphFull`, `mphParent` and `mphDomain`. -/
def MphKind.flag : MphKind → UInt32
  | .full => 0x40000000
  | .parent => 0x20000000
  | .domain => 0x80000000

/-- `mphKinds`, the order in which the values are reported. -/
def mphKinds : List MphKind := [.full, .parent, .domain]

def mphOffMask : UInt32 := 0x1fffffff

/-- `mphMultipliers`. -/
def mphMultipliers : List UInt64 :=
  [0x9e3779b97f4a7c15, 0xc2b2ae3d27d4eb4f, 0x165667b19e3779f9, 0x27d4eb2f165667c5]

def errMphCollision : String := "strmatcher: suffix hash collision in MphMatcherGroup"

def errMphBuilt : String := "strmatcher: MphMatcherGroup is already built"

/-- `mphEntry`. -/
structure MphEntry where
  off : ℕ
  value : UInt32
  n : ℕ
  kind : MphKind

/-- `MphMatcherGroup`. -/
structure MphMatcherGroup where
  arena : Bytes
  level0 : List UInt16
  level1 : List UInt32
  fp : Bytes
  n0 : UInt32
  n1 : UInt32
  mul : UInt64
  single : UInt32
  multi : Bool
  buf : Bytes
  entries : List MphEntry

namespace MphMatcherGroup

/-- `NewMphMatcherGroup`. -/
def new : MphMatcherGroup := ⟨[], [], [], [], 0, 0, 0, 0, false, [], []⟩

/-- The entries of a pattern that starts at `off`: one with a leading dot also stands for the
    subdomains of what follows. -/
def newEntries (pattern : Bytes) (kind : MphKind) (value : UInt32) (off : ℕ) : List MphEntry :=
  ⟨off, value, pattern.length, kind⟩ ::
    if pattern.head? = some dot then [⟨off + 1, value, pattern.length - 1, .parent⟩] else []

/-- `add`; it panics if the group is built. -/
def add (toLower : Bytes → Bytes) (g : MphMatcherGroup) (pattern : Bytes)
    (kind : MphKind) (value : UInt32) : Option MphMatcherGroup :=
  if g.arena ≠ [] then none
  else some { g with
    buf := g.buf ++ toLower pattern
    entries := g.entries ++ newEntries (toLower pattern) kind value g.buf.length }

/-- `AddFullMatcher`. -/
def addFullMatcher (toLower : Bytes → Bytes) (g : MphMatcherGroup) (pattern : Bytes)
    (value : UInt32) : Option MphMatcherGroup := g.add toLower pattern .full value

/-- `AddDomainMatcher`. -/
def addDomainMatcher (toLower : Bytes → Bytes) (g : MphMatcherGroup) (pattern : Bytes)
    (value : UInt32) : Option MphMatcherGroup := g.add toLower pattern .domain value

/-- A call of `AddFullMatcher` or of `AddDomainMatcher`. -/
inductive Call where
  | full (pattern : Bytes) (value : UInt32)
  | domain (pattern : Bytes) (value : UInt32)

def call (toLower : Bytes → Bytes) (g : MphMatcherGroup) : Call → Option MphMatcherGroup
  | .full pattern value => g.addFullMatcher toLower pattern value
  | .domain pattern value => g.addDomainMatcher toLower pattern value

/-- A new group after some calls. -/
def ofCalls (toLower : Bytes → Bytes) (calls : List Call) : Option MphMatcherGroup :=
  calls.foldlM (call toLower) new

/-! ## Records -/

/-- The pattern of an entry. -/
def keyOf (g : MphMatcherGroup) (e : MphEntry) : Bytes := (g.buf.drop e.off).take e.n

/-- `key`. -/
def key (g : MphMatcherGroup) (i : ℕ) : Bytes := ((g.entries[i]?).map g.keyOf).getD []

/-- The values of equal patterns, each once. -/
def collect (entries : List MphEntry) : MphKind → List UInt32 :=
  entries.foldl (fun vals e =>
    if e.value ∈ vals e.kind then vals
    else Function.update vals e.kind (vals e.kind ++ [e.value])) fun _ => []

/-- The length of a pattern; 255 means that it follows. -/
def lengthBytes (n : ℕ) : Bytes := if n < 255 then [UInt8.ofNat n] else 255 :: uvarint n

/-- The values of a kind, if there are any. -/
def valueBytes (vals : List UInt32) : Bytes :=
  if vals = [] then [] else uvarint vals.length ++ vals.flatMap fun x => uvarint x.toNat

/-- What is written for a pattern. -/
def recordBytes (multi : Bool) (k : Bytes) (vals : MphKind → List UInt32) : Bytes :=
  lengthBytes k.length ++ k ++ if multi then mphKinds.flatMap fun t => valueBytes (vals t) else []

/-- The flags of a record are set above its offset. -/
def recordWord (off : ℕ) (vals : MphKind → List UInt32) : UInt32 :=
  mphKinds.foldl (fun rec t => if vals t = [] then rec else rec ||| t.flag) (UInt32.ofNat off)

/-- The records that were written, and their words. -/
structure Written where
  arena : Bytes
  recs : List UInt32

/-- The record of a group of equal patterns. -/
def writeRecord (g : MphMatcherGroup) (w : Written) (group : Bytes × List ℕ) : Written :=
  let vals := collect (group.2.filterMap (g.entries[·]?))
  { arena := w.arena ++ recordBytes g.multi group.1 vals
    recs := w.recs ++ [recordWord w.arena.length vals] }

/-- `order`: the entries by their patterns, equal ones as they were added. -/
def order (g : MphMatcherGroup) : List ℕ :=
  sortedByKey (fun i => (g.key i).map UInt8.toNat) g.entries.length

/-- Whether there is more than one value. -/
def setMulti (g : MphMatcherGroup) : MphMatcherGroup :=
  match g.entries with
  | [] => { g with multi := false }
  | e :: rest => { g with single := e.value, multi := (e :: rest).any (·.value ≠ e.value) }

/-- `writeRecords`. -/
def writeRecords (g : MphMatcherGroup) : MphMatcherGroup × List UInt32 :=
  let g := g.setMulti
  let w := (neighbours g.key g.entries.length g.order).foldl g.writeRecord ⟨[], []⟩
  -- a lookup may point behind a pattern, and empty slots need a record
  let arena := w.arena ++ [0] ++ if w.recs = [] then [0] else []
  ({ g with arena, buf := [], entries := [] }, w.recs)

/-! ## Reading records -/

/-- A part of a string. -/
def part (s : Bytes) (p n : ℕ) : Option Bytes :=
  if p + n ≤ s.length then some ((s.drop p).take n) else none

/-- `uvarint`. -/
def uvarint (g : MphMatcherGroup) (p : ℕ) : Option (ℕ × ℕ) :=
  (readUvarint (g.arena.drop p) 0 0).map fun r => (r.1, p + r.2)

/-- `recSpan`. -/
def recSpan (g : MphMatcherGroup) (off : ℕ) : Option (ℕ × ℕ) := do
  let n ← g.arena[off]?
  if n = 255 then
    let r ← g.uvarint (off + 1)
    return (r.2, r.1)
  else return (off + 1, n.toNat)

/-- `recKey`. -/
def recKey (g : MphMatcherGroup) (rec : UInt32) : Option Bytes := do
  let span ← g.recSpan (rec &&& mphOffMask).toNat
  part g.arena span.1 span.2

end MphMatcherGroup

/-! ## Hashes -/

/-- `mphHash`, from the right. -/
def mphHash (mul : UInt64) (s : Bytes) : UInt64 :=
  s.foldr (fun c h => h * mul + c.toUInt64) 0

/-- `mphMix`. -/
def mphMix (h : UInt64) : UInt64 :=
  let h := h ^^^ h >>> 32
  let h := h * 0xd6e8feb86659fd93
  h ^^^ h >>> 32

/-- `bucket`. -/
def mphBucket (n0 : UInt32) (f : UInt64) : ℕ := (((f >>> 32) * n0.toUInt64) >>> 32).toUInt32.toNat

/-- `slot`. -/
def mphSlot (n1 : UInt32) (f : UInt64) (seed : UInt16) : ℕ :=
  let x := ((f ^^^ seed.toUInt64 * 0x9e3779b97f4a7c15) * 0xc4ceb9fe1a85ec53) >>> 32
  ((x * n1.toUInt64) >>> 32).toUInt32.toNat

/-! ## Placing -/

/-- The tables that are filled. -/
structure MphTables where
  level0 : List UInt16
  level1 : List UInt32
  fp : Bytes
  occupied : List Bool

/-- The slots of the records of a bucket under a seed, if all of them are free and no two
    records share one. -/
def seedSlots (n1 : UInt32) (occupied : List Bool) (seed : UInt16) :
    List UInt64 → List ℕ → Option (List ℕ)
  | [], slots => some slots
  | h :: hashes, slots =>
    let s := mphSlot n1 h seed
    if occupied.getD s false ∨ s ∈ slots then none
    else seedSlots n1 occupied seed hashes (slots ++ [s])

/-- The first seed that fits, of `n` seeds from `seed` on. -/
def searchSeed (n1 : UInt32) (occupied : List Bool) (hashes : List UInt64) :
    ℕ → ℕ → Option (UInt16 × List ℕ)
  | 0, _ => none
  | n + 1, seed =>
    match seedSlots n1 occupied (UInt16.ofNat seed) hashes [] with
    | some slots => some (UInt16.ofNat seed, slots)
    | none => searchSeed n1 occupied hashes n (seed + 1)

/-- A record is put into its slot. -/
def MphTables.put (t : MphTables) (s : ℕ) (rec : UInt32) (hash : UInt64) : MphTables :=
  { t with
    occupied := t.occupied.set s true
    level1 := t.level1.set s rec
    fp := t.fp.set s hash.toUInt8 }

/-- The records of a bucket are put into their slots. -/
def MphTables.putAll (t : MphTables) (slots : List ℕ) (members : List (UInt32 × UInt64)) :
    MphTables :=
  (slots.zip members).foldl (fun (t : MphTables) x => t.put x.1 x.2.1 x.2.2) t

/-- The loop over the buckets, the largest first; `members` are the words and hashes of the
    records of a bucket. -/
def placeBuckets (n1 : UInt32) (members : ℕ → List (UInt32 × UInt64)) :
    List ℕ → MphTables → Except String MphTables
  | [], t => .ok t
  | b :: buckets, t =>
    let hashes := (members b).map Prod.snd
    -- the other buckets are empty, too
    if members b = [] then .ok t
    else if ¬ hashes.Nodup then .error errMphCollision
    else
      match searchSeed n1 t.occupied hashes 65536 0 with
      | none => .error "strmatcher: no seed found for a bucket in MphMatcherGroup"
      | some (seed, slots) =>
        let t := t.putAll slots (members b)
        placeBuckets n1 members buckets { t with level0 := t.level0.set b seed }

/-- The records of a bucket, from where the counts put it. -/
def bucketRecords (n0 : ℕ) (keys : List ℕ) (recs : List (UInt32 × UInt64)) (b : ℕ) :
    List (UInt32 × UInt64) :=
  let start := bucketStarts n0 keys
  let members := ((bucketMembers n0 keys).drop (start.getD b 0)).take
    (start.getD (b + 1) 0 - start.getD b 0)
  members.filterMap (recs[·]?)

/-- The buckets by their size, the largest first. -/
def bucketOrder (n0 : ℕ) (keys : List ℕ) : List ℕ :=
  let size b := (bucketStarts n0 keys).getD (b + 1) 0 - (bucketStarts n0 keys).getD b 0
  (List.range n0).insertionSort fun a b => size b ≤ size a

namespace MphMatcherGroup

/-- `place`. -/
def place (g : MphMatcherGroup) (recs : List UInt32) (hashes : List UInt64) :
    Except String MphMatcherGroup := do
  let r := recs.length
  let n0 := max 1 (r / 3)
  let n1 := max 1 (r + r / 99)
  let keys := hashes.map (mphBucket (UInt32.ofNat n0))
  let t ← placeBuckets (UInt32.ofNat n1) (bucketRecords n0 keys (recs.zip hashes))
    (bucketOrder n0 keys)
    ⟨List.replicate n0 0, List.replicate n1 0, List.replicate n1 0, List.replicate n1 false⟩
  return { g with
    n0 := UInt32.ofNat n0
    n1 := UInt32.ofNat n1
    level0 := t.level0
    level1 := t.level1
    fp := t.fp }

/-- The loop of `Build` over the multipliers. -/
def buildWith (g : MphMatcherGroup) (recs : List UInt32) (keys : List Bytes) :
    List UInt64 → Except String MphMatcherGroup
  | [] => .error errMphCollision
  | mul :: muls =>
    match place { g with mul } recs (keys.map fun k => mphMix (mphHash mul k)) with
    | .ok g => .ok g
    | .error err => if err = errMphCollision then g.buildWith recs keys muls else .error err

/-- `Build`; reading the patterns back cannot fail. -/
def build (g : MphMatcherGroup) : Except String MphMatcherGroup :=
  if g.arena ≠ [] then .error errMphBuilt
  else if g.buf.length > 0xffffffff then .error "too many rules for MphMatcherGroup"
  else
    let w := g.writeRecords
    if w.1.arena.length > mphOffMask.toNat then .error "too many rules for MphMatcherGroup"
    else w.1.buildWith w.2 (w.2.map fun rec => (w.1.recKey rec).getD []) mphMultipliers

/-! ## Matching -/

/-- The end of `lookup`: whether the record of a slot is that of the string. -/
def compareRecord (g : MphMatcherGroup) (e : UInt32) (s : Bytes) : Option UInt32 :=
  if s.length < 255 then do
    -- a record whose length byte is that of the string has as many bytes behind it
    let n ← g.arena[(e &&& mphOffMask).toNat]?
    if n.toNat ≠ s.length then return 0
    let k ← part g.arena ((e &&& mphOffMask).toNat + 1) s.length
    return if k = s then e else 0
  else do
    let k ← g.recKey e
    return if k = s then e else 0

/-- `lookup`; the reads are not checked. -/
def lookup (g : MphMatcherGroup) (h : UInt64) (s : Bytes) : Option UInt32 := do
  let f := mphMix h
  let seed ← g.level0[mphBucket g.n0 f]?
  let fp ← g.fp[mphSlot g.n1 f seed]?
  if fp ≠ f.toUInt8 then return 0
  let e ← g.level1[mphSlot g.n1 f seed]?
  g.compareRecord e s

/-- The values of a kind, from `p` on: as many as there are, and where they end. -/
def readValues (g : MphMatcherGroup) : ℕ → ℕ → Option (List UInt32 × ℕ)
  | 0, p => some ([], p)
  | count + 1, p => do
    let v ← g.uvarint p
    let rest ← g.readValues count v.2
    return (UInt32.ofNat v.1 :: rest.1, rest.2)

/-- The values of the kinds that a record has, from `p` on, where they are asked for. -/
def readKinds (g : MphMatcherGroup) (e want : UInt32) : List MphKind → ℕ → Option (List UInt32)
  | [], _ => some []
  | t :: kinds, p =>
    if e &&& t.flag = 0 then g.readKinds e want kinds p
    else do
      let count ← g.uvarint p
      let vals ← g.readValues count.1 count.2
      let rest ← g.readKinds e want kinds vals.2
      return if want &&& t.flag ≠ 0 then vals.1 ++ rest else rest

/-- What `appendValues` appends. -/
def appendValues (g : MphMatcherGroup) (e want : UInt32) : Option (List UInt32) :=
  if ¬ g.multi then
    some ((mphKinds.filter fun t => e &&& want &&& t.flag ≠ 0).map fun _ => g.single)
  else if e &&& want = 0 then some []
  else do
    let span ← g.recSpan (e &&& mphOffMask).toNat
    g.readKinds e want mphKinds (span.1 + span.2)

/-- What a subdomain asks for. -/
def parentFlags : UInt32 := MphKind.flag .domain ||| MphKind.flag .parent

/-- What the domain itself asks for. -/
def exactFlags : UInt32 := MphKind.flag .full ||| MphKind.flag .domain

/-- The loop of `Match`: the hash of what was read, and the parents that were found. -/
def parents (g : MphMatcherGroup) : Bytes → Option (UInt64 × List UInt32)
  | [] => some (0, [])
  | c :: rest => do
    let s ← g.parents rest
    let h := s.1 * g.mul + c.toUInt64
    if c = dot then
      let e ← g.lookup s.1 rest
      return (h, if e &&& parentFlags ≠ 0 then s.2 ++ [e] else s.2)
    else return (h, s.2)

/-- `Match`. -/
def matchValues (g : MphMatcherGroup) (input : Bytes) : Option (List UInt32) := do
  let s ← g.parents input
  let exact ← g.lookup s.1 input
  if exact &&& exactFlags = 0 ∧ s.2 = [] then return []
  let result ← g.appendValues exact exactFlags
  let others ← s.2.reverse.mapM fun e => g.appendValues e parentFlags
  return result ++ others.flatten

/-- The loop of `MatchAny`: the hash of what was read, unless it has returned. -/
def anyParent (g : MphMatcherGroup) : Bytes → Option (Option UInt64)
  | [] => some (some 0)
  | c :: rest => do
    match ← g.anyParent rest with
    | none => return none
    | some h =>
      if c = dot then
        let e ← g.lookup h rest
        if e &&& parentFlags ≠ 0 then return none
      return some (h * g.mul + c.toUInt64)

/-- `MatchAny`. -/
def matchAny (g : MphMatcherGroup) (input : Bytes) : Option Bool := do
  match ← g.anyParent input with
  | none => return true
  | some h =>
    let e ← g.lookup h input
    return e &&& exactFlags ≠ 0

end MphMatcherGroup

end XrayCore.Strmatcher
