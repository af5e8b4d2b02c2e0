/-
  XrayCore.Stats.DomainTraffic

  Traffic per domain, in buckets of time that a consumer reads page by page.

  A bucket is keyed by the nanoseconds of its start, and numbered by a sequence of its own.
  `Record` adds to the bucket of its moment, `Snapshot` returns the buckets behind a cursor
  that are over; both drop buckets that are older than the retention, by two cutoffs.

  Times are whole numbers of nanoseconds since the zero time, and `unixNano` is what 64 bits
  keep of the distance to the Unix epoch.
-/

import XrayCore.Bytes.Slice
import XrayCore.Machine.Result

namespace XrayCore.Stats

open Machine

/-- A Go string. -/
abbrev Text : Type := Bytes

/-! ## Times -/

/-- The Unix epoch. -/
def epoch : ℤ := 62135596800 * 10 ^ 9

/-- `Truncate`, for a positive duration: down to a multiple of it since the zero time. -/
def truncate (t d : ℤ) : ℤ := t - t % d

/-- `UnixNano`. -/
def unixNano (t : ℤ) : ℤ := wrap64 (t - epoch)

/-! ## Buckets -/

/-- `DomainTrafficEntry`. -/
structure DomainTrafficEntry where
  user : Text
  domain : Text
  uplinkBytes : UInt64
  downlinkBytes : UInt64
  deriving DecidableEq

def saturatingAdd (current delta : UInt64) : UInt64 :=
  if ~~~0 - current < delta then ~~~0 else current + delta

/-- The two counters of an entry grow. -/
def DomainTrafficEntry.add (e : DomainTrafficEntry) (uplinkBytes downlinkBytes : UInt64) :
    DomainTrafficEntry :=
  { e with
    uplinkBytes := saturatingAdd e.uplinkBytes uplinkBytes
    downlinkBytes := saturatingAdd e.downlinkBytes downlinkBytes }

def noEntry : DomainTrafficEntry := ⟨[], [], 0, 0⟩

/-- `domainTrafficBucket`; its map as a list, the keys all different. -/
structure DomainTrafficBucket where
  start : ℤ
  sequence : ℕ
  entries : List (Text × DomainTrafficEntry)
  other : DomainTrafficEntry
  unknown : DomainTrafficEntry

/-- What `newDomainTraffic` keeps of the configuration. -/
structure Settings where
  interval : ℤ
  retention : ℤ
  maxDomains : ℕ
  hinterval : 10 ^ 9 ≤ interval
  hretention : 10 ^ 9 ≤ retention

/-- `domainTraffic`; the map of buckets in the order in which they were put into it. -/
structure DomainTraffic where
  bootID : Text
  settings : Settings
  lastTime : ℤ
  buckets : List (ℤ × DomainTrafficBucket)
  lastSeen : Text → Option ℤ
  nextSeq : ℕ

/-- A number of seconds, or the default for none. -/
def seconds (n default : UInt32) : ℤ := (if n = 0 then default else n).toNat * 10 ^ 9

theorem le_seconds {n default : UInt32} (h : default ≠ 0) : 10 ^ 9 ≤ seconds n default := by
  have hpos : ∀ m : UInt32, m ≠ 0 → 1 ≤ m.toNat := by
    intro m hm
    have hne : m.toNat ≠ 0 := fun hz => hm (UInt32.toNat_inj.mp hz)
    omega
  unfold seconds
  split
  · have := hpos default h
    omega
  · next hn =>
    have := hpos n hn
    omega

/-- `newDomainTraffic` of an enabled configuration. -/
def newDomainTraffic (bootID : Text) (bucketIntervalSeconds retentionSeconds maxDomains : UInt32) :
    DomainTraffic where
  bootID := bootID
  settings :=
    { interval := seconds bucketIntervalSeconds 5
      retention := seconds retentionSeconds 300
      maxDomains := if maxDomains = 0 then 4096 else maxDomains.toNat
      hinterval := le_seconds (by decide)
      hretention := le_seconds (by decide) }
  lastTime := 0
  buckets := []
  lastSeen _ := none
  nextSeq := 1

/-- `strings.TrimSpace` and `strings.ToLower`. -/
structure TextFunctions where
  trimSpace : Text → Text
  toLower : Text → Text

def unknownText : Text := [117, 110, 107, 110, 111, 119, 110]

def normalizeDomainTrafficDomain (text : TextFunctions) (domain : Text) : Text :=
  let trimmed := text.trimSpace domain
  let domain := text.toLower (if trimmed.getLast? = some 46 then trimmed.dropLast else trimmed)
  if domain = [] then unknownText else domain

namespace DomainTraffic

variable (d : DomainTraffic)

/-- `nowLocked`: the time never goes back. -/
def nowLocked (clock : ℤ) : ℤ × DomainTraffic :=
  if clock < d.lastTime then (d.lastTime, d) else (clock, { d with lastTime := clock })

/-- `domainExistsLocked`. -/
def domainExistsLocked (domain : Text) : Bool :=
  d.buckets.any fun b => b.2.entries.any fun e => e.1 = domain

/-- `pruneLocked`. -/
def pruneLocked (now : ℤ) : DomainTraffic :=
  let cutoff := unixNano (truncate (now - d.settings.retention) d.settings.interval)
  let d := { d with buckets := d.buckets.filter fun b => ¬ b.1 < cutoff }
  { d with lastSeen := fun domain =>
    if d.domainExistsLocked domain then d.lastSeen domain else none }

/-- `domainsLocked`, up to the order of the map. -/
def domainsLocked : List Text := (d.buckets.flatMap fun b => b.2.entries.map (·.1)).dedup

/-- The loop of `ensureDomainLocked` for the domain that was seen least recently. -/
def oldest : List Text → Option (Text × ℤ) → Option (Text × ℤ)
  | [], best => best
  | candidate :: rest, best =>
    let lastSeen := (d.lastSeen candidate).getD 0
    match best with
    | none => oldest rest (some (candidate, lastSeen))
    | some (text, oldestSeen) =>
      oldest rest (if lastSeen < oldestSeen then some (candidate, lastSeen)
        else some (text, oldestSeen))

/-- `ensureDomainLocked`: the state with room for one more domain, `none` where there is none;
    `order` is the order in which the map is read. -/
def ensureDomainLocked (order : List Text → List Text) (domain : Text) : Option DomainTraffic :=
  if d.domainExistsLocked domain then some d
  else if d.domainsLocked.length < d.settings.maxDomains then some d
  else match d.oldest (order d.domainsLocked) none with
    | none => none
    | some (oldest, _) => some
      { d with
        buckets := d.buckets.map fun b =>
          (b.1, { b.2 with entries := b.2.entries.filter fun e => e.1 ≠ oldest })
        lastSeen := Function.update d.lastSeen oldest none }

/-- The bucket of a key changes. -/
def modifyBucket (key : ℤ) (f : DomainTrafficBucket → DomainTrafficBucket) : DomainTraffic :=
  { d with buckets := d.buckets.map fun b => if b.1 = key then (b.1, f b.2) else b }

/-- The bucket that `Record` adds to, a new one if there is none. -/
def openBucket (start : ℤ) : ℕ × DomainTraffic :=
  let key := unixNano start
  match d.buckets.find? fun b => b.1 = key with
  | some (_, bucket) => (bucket.sequence, d)
  | none => (d.nextSeq,
    { d with
      buckets := d.buckets ++ [(key, ⟨start, d.nextSeq, [], noEntry, noEntry⟩)]
      nextSeq := (d.nextSeq + 1) % 2 ^ 64 })

/-- What `Record` adds to the bucket of a key. -/
def addTraffic (order : List Text → List Text) (now key : ℤ) (user domain : Text)
    (uplinkBytes downlinkBytes : UInt64) : DomainTraffic :=
  if domain = unknownText ∧ user = [] then
    d.modifyBucket key fun b => { b with unknown := b.unknown.add uplinkBytes downlinkBytes }
  else
    let identity := user ++ [0] ++ domain
    let known := d.buckets.any fun b => b.1 = key && b.2.entries.any fun e => e.1 = identity
    let ready :=
      if known then some d
      else (d.ensureDomainLocked order identity).map fun d =>
        d.modifyBucket key fun b =>
          { b with entries := b.entries ++ [(identity, ⟨user, domain, 0, 0⟩)] }
    match ready with
    | none => d
    | some d =>
      let d := { d with lastSeen := Function.update d.lastSeen identity (some now) }
      d.modifyBucket key fun b =>
        { b with entries := b.entries.map fun e =>
            if e.1 = identity then (e.1, e.2.add uplinkBytes downlinkBytes) else e }

/-- `Record` at a reading of the clock: the number of the bucket it adds to, and the state after
    it. -/
def record (text : TextFunctions) (order : List Text → List Text) (clock : ℤ) (domain : Text)
    (uplinkBytes downlinkBytes : UInt64) (users : List Text) : ℕ × DomainTraffic :=
  let (now, d) := d.nowLocked clock
  let start := truncate now d.settings.interval
  let (sequence, d) := (d.pruneLocked start).openBucket start
  (sequence, d.addTraffic order now (unixNano start) (users.headD [])
    (normalizeDomainTrafficDomain text domain) uplinkBytes downlinkBytes)

end DomainTraffic

/-! ## Pages -/

/-- `DomainTrafficBucket` of a response. -/
structure Page where
  bootID : Text
  sequence : ℕ
  startUnix : ℤ
  endUnix : ℤ
  entries : List DomainTrafficEntry
  other : DomainTrafficEntry
  unknown : DomainTrafficEntry
  deriving DecidableEq

/-- The arguments of `Snapshot`, and the order in which the map of a bucket is read. -/
structure Query where
  afterBootID : Text
  afterSequence : ℕ
  maxBuckets : UInt32
  order : List DomainTrafficEntry → List DomainTrafficEntry

/-- `DomainTrafficSnapshot`. -/
structure Snapshot where
  bootID : Text
  oldestSequence : ℕ
  latestSequence : ℕ
  hasGap : Bool
  buckets : List Page
  deriving DecidableEq

namespace DomainTraffic

variable (d : DomainTraffic)

/-- The order of Go strings. -/
def textLe (a b : Text) : Bool := decide (a.map UInt8.toNat ≤ b.map UInt8.toNat)

/-- A bucket as it is returned. The entries of several users for one domain come in any order. -/
def page (q : Query) (b : DomainTrafficBucket) : Page where
  bootID := d.bootID
  sequence := b.sequence
  startUnix := (b.start - epoch) / 10 ^ 9
  endUnix := (b.start + d.settings.interval - epoch) / 10 ^ 9
  entries := (q.order (b.entries.map (·.2))).insertionSort fun x y => textLe x.domain y.domain
  other := b.other
  unknown := b.unknown

/-- The loop of `Snapshot`. -/
def collect (now : ℤ) (q : Query) : List DomainTrafficBucket → List Page → List Page
  | [], pages => pages
  | b :: rest, pages =>
    if q.afterBootID = d.bootID ∧ b.sequence ≤ q.afterSequence then collect now q rest pages
    else if b.start + d.settings.interval > now then collect now q rest pages
    else
      let pages := pages ++ [d.page q b]
      if q.maxBuckets > 0 ∧ UInt32.ofNat pages.length ≥ q.maxBuckets then pages
      else collect now q rest pages

/-- The buckets in the order of their keys. -/
def sorted : List DomainTrafficBucket :=
  (d.buckets.insertionSort fun x y => x.1 ≤ y.1).map (·.2)

/-- What `Snapshot` returns of the buckets that are left at a time. -/
def respond (now : ℤ) (q : Query) : Snapshot :=
  match d.sorted with
  | [] => ⟨d.bootID, 0, 0, false, []⟩
  | first :: rest =>
    { bootID := d.bootID
      oldestSequence := first.sequence
      latestSequence := ((first :: rest).getLast (List.cons_ne_nil first rest)).sequence
      hasGap := q.afterBootID = d.bootID ∧ first.sequence > q.afterSequence ∧
        first.sequence - q.afterSequence > 1
      buckets := d.collect now q (first :: rest) [] }

/-- `Snapshot` at a reading of the clock. -/
def snapshot (clock : ℤ) (q : Query) : Snapshot × DomainTraffic :=
  let (now, d) := d.nowLocked clock
  let d := d.pruneLocked now
  (d.respond now q, d)

end DomainTraffic

end XrayCore.Stats
