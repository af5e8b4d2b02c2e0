/-
  XrayCore.Kcp.SendingWindow

  The segments that were pushed and not acknowledged yet, and the count of those in flight.

  A segment is counted when it is flushed for the first time.  `Remove` takes one off the
  count, whether the segment was counted or not, and `Clear` does not count at all; so the
  count is right in the runs in which they only meet the segments for which that is right
  (`Kept`), and with it the rate of losses that is reported (`exact_of_kept`).
-/

import XrayCore.Kcp.Segment
import XrayCore.Machine.Run

namespace XrayCore.Kcp

open List Option

/-! ## The window -/

/-- A `DataSegment` in the window; `writes` is how often it was handed to the writer. -/
structure WindowSegment extends DataSegment where
  timeout : UInt32
  transmit : UInt32
  writes : ℕ

/-- A segment is written once more. -/
def WindowSegment.written (seg : WindowSegment) (current rto : UInt32) : WindowSegment :=
  { seg with
    timeout := current + rto
    timestamp := current
    transmit := seg.transmit + 1
    writes := seg.writes + 1 }

/-- `SendingWindow`. -/
structure SendingWindow where
  cache : List WindowSegment
  totalInFlightSize : UInt32

namespace SendingWindow

/-- `NewSendingWindow`. -/
def new : SendingWindow := ⟨[], 0⟩

/-- `Push`. -/
def push (sw : SendingWindow) (number : UInt32) (b : Bytes) : SendingWindow :=
  { sw with cache := sw.cache ++ [⟨⟨0, 0, 0, number, 0, b⟩, 0, 0, 0⟩] }

/-- `Clear`. -/
def clear (sw : SendingWindow) (una : UInt32) : SendingWindow :=
  { sw with cache := sw.cache.dropWhile fun seg => seg.number < una }

/-- The visitor of `HandleFastAck`, from the front on. -/
def fastAck (number rto : UInt32) : List WindowSegment → List WindowSegment
  | [] => []
  | seg :: segs =>
    if number = seg.number ∨ number - seg.number > 0x7FFFFFFF then seg :: segs
    else
      let seg := if seg.transmit > 0 ∧ seg.timeout > rto / 3 then
        { seg with timeout := seg.timeout - rto / 3 } else seg
      seg :: fastAck number rto segs

/-- `HandleFastAck`. -/
def handleFastAck (sw : SendingWindow) (number rto : UInt32) : SendingWindow :=
  { sw with cache := fastAck number rto sw.cache }

/-- What `Flush` counts. -/
structure Counts where
  total : UInt32
  lost : UInt32
  inFlightSize : UInt32

/-- A segment is written once more. -/
def Counts.add (c : Counts) (seg : WindowSegment) : Counts where
  total := if seg.transmit = 0 then c.total + 1 else c.total
  lost := if seg.transmit = 0 then c.lost else c.lost + 1
  inFlightSize := c.inFlightSize + 1

/-- The visitor of `Flush`, from the front on. -/
def visit (current rto maxInFlightSize : UInt32) :
    Counts → List WindowSegment → List WindowSegment × Counts
  | c, [] => ([], c)
  | c, seg :: segs =>
    if current - seg.timeout ≥ 0x7FFFFFFF then
      let r := visit current rto maxInFlightSize c segs
      (seg :: r.1, r.2)
    else
      let c := c.add seg
      if c.inFlightSize < maxInFlightSize then
        let r := visit current rto maxInFlightSize c segs
        (seg.written current rto :: r.1, r.2)
      else (seg.written current rto :: segs, c)

/-- `Flush`, with the rate that `onPacketLoss` is called with. -/
def flush (sw : SendingWindow) (current rto maxInFlightSize : UInt32) :
    SendingWindow × Option UInt32 :=
  let r := visit current rto maxInFlightSize ⟨sw.totalInFlightSize, 0, 0⟩ sw.cache
  (⟨r.1, r.2.total⟩,
    if 0 < r.2.inFlightSize ∧ r.2.total ≠ 0 then some (r.2.lost * 100 / r.2.total) else none)

/-- The loop of `Remove`: the segment it finds, and the others. -/
def find (number : UInt32) : List WindowSegment → Option (WindowSegment × List WindowSegment)
  | [] => none
  | seg :: segs =>
    if seg.number > number then none
    else if seg.number = number then some (seg, segs)
    else (find number segs).map fun r => (r.1, seg :: r.2)

/-- `Remove`. -/
def remove (sw : SendingWindow) (number : UInt32) : Bool × SendingWindow :=
  match find number sw.cache with
  | none => (false, sw)
  | some (_, cache) =>
    (true, ⟨cache,
      if sw.totalInFlightSize > 0 then sw.totalInFlightSize - 1 else sw.totalInFlightSize⟩)

/-! ## Runs -/

/-- The calls on a window. -/
inductive Call where
  | push (number : UInt32) (b : Bytes)
  | flush (current rto maxInFlightSize : UInt32)
  | clear (una : UInt32)
  | remove (number : UInt32)
  | handleFastAck (number rto : UInt32)

/-- What a call leaves. -/
def step (sw : SendingWindow) : Call → Option SendingWindow
  | .push number b => some (sw.push number b)
  | .flush current rto maxInFlightSize => some (sw.flush current rto maxInFlightSize).1
  | .clear una => some (sw.clear una)
  | .remove number => some (sw.remove number).2
  | .handleFastAck number rto => some (sw.handleFastAck number rto)

/-- The segments that were transmitted. -/
def inFlight (segs : List WindowSegment) : ℕ := segs.countP fun seg => 0 < seg.writes

/-- The segments that a flush transmitted once more. -/
def retransmitted (segs segs' : List WindowSegment) : ℕ :=
  (segs.zip segs').countP fun p => 0 < p.1.writes ∧ p.1.writes < p.2.writes

/-- The calls that count right: `Clear` meets no segment that was transmitted, and `Remove`
    none that was not, unless none was.  The numbers stay within their 32 bits. -/
def Kept (sw : SendingWindow) : Call → Prop
  | .push _ _ => (sw.cache.length + 1) * 100 < 2 ^ 32
  | .flush _ _ _ => ∀ seg ∈ sw.cache, seg.writes + 1 < 2 ^ 32
  | .clear una => ∀ seg ∈ sw.cache.takeWhile (fun seg => seg.number < una), seg.writes = 0
  | .remove number => ∀ seg cache, find number sw.cache = some (seg, cache) →
      0 < seg.writes ∨ inFlight sw.cache = 0
  | .handleFastAck _ _ => True

/-! ## What a flush does -/

/-- What holds of the segments in the window and the number of their transmissions. -/
def Numbered (seg : WindowSegment) : Prop := seg.transmit = UInt32.ofNat seg.writes

theorem Numbered.written {seg : WindowSegment} (h : Numbered seg) (current rto : UInt32) :
    Numbered (seg.written current rto) := by
  show seg.transmit + 1 = UInt32.ofNat (seg.writes + 1)
  rw [h, UInt32.ofNat_add]
  rfl

theorem Numbered.transmit_eq_zero {seg : WindowSegment} (h : Numbered seg)
    (hwrites : seg.writes + 1 < 2 ^ 32) : seg.transmit = 0 ↔ seg.writes = 0 := by
  rw [h, ← UInt32.toNat_inj, UInt32.toNat_ofNat']
  show seg.writes % 2 ^ 32 = 0 ↔ _
  omega

theorem inFlight_cons (seg : WindowSegment) (segs : List WindowSegment) :
    inFlight (seg :: segs) = inFlight segs + if 0 < seg.writes then 1 else 0 := by
  simp [inFlight, countP_cons]

/-- What a visit leaves of the segments and the counts. -/
structure Visited (c : Counts) (segs : List WindowSegment)
    (r : List WindowSegment × Counts) : Prop where
  length : r.1.length = segs.length
  numbered : ∀ seg ∈ r.1, Numbered seg
  total : r.2.total.toNat + inFlight segs = c.total.toNat + inFlight r.1
  lost : r.2.lost.toNat = c.lost.toNat + retransmitted segs r.1

theorem retransmitted_cons (seg seg' : WindowSegment) (segs segs' : List WindowSegment) :
    retransmitted (seg :: segs) (seg' :: segs') = retransmitted segs segs' +
      if 0 < seg.writes ∧ seg.writes < seg'.writes then 1 else 0 := by
  simp [retransmitted, countP_cons]

theorem retransmitted_self (segs : List WindowSegment) : retransmitted segs segs = 0 := by
  induction segs with
  | nil => rfl
  | cons seg segs ih =>
    rw [retransmitted_cons, ih, if_neg fun h => Nat.lt_irrefl _ h.2]

/-- No segment is visited any more. -/
theorem visited_self {segs : List WindowSegment} (h : ∀ seg ∈ segs, Numbered seg) (c : Counts) :
    Visited c segs (segs, c) where
  length := rfl
  numbered := h
  total := rfl
  lost := by rw [retransmitted_self]; rfl

variable {c : Counts} {seg : WindowSegment} {segs : List WindowSegment}
  {r : List WindowSegment × Counts}

/-- It is not time for a segment. -/
theorem Visited.skip (h : Visited c segs r) (hseg : Numbered seg) :
    Visited c (seg :: segs) (seg :: r.1, r.2) where
  length := congrArg (· + 1) h.length
  numbered := forall_mem_cons.mpr ⟨hseg, h.numbered⟩
  total := by
    have htotal := h.total
    dsimp only
    rw [inFlight_cons, inFlight_cons]
    omega
  lost := by
    rw [retransmitted_cons, if_neg fun h => Nat.lt_irrefl _ h.2]
    exact h.lost

/-- A segment is written, and counted the first time and as lost from then on. -/
theorem Visited.written (current rto : UInt32) (hseg : Numbered seg)
    (hwrites : seg.writes + 1 < 2 ^ 32) (htotal : c.total.toNat + 1 < 2 ^ 32)
    (hlost : c.lost.toNat + 1 < 2 ^ 32) (h : Visited (c.add seg) segs r) :
    Visited c (seg :: segs) (seg.written current rto :: r.1, r.2) where
  length := congrArg (· + 1) h.length
  numbered := forall_mem_cons.mpr ⟨hseg.written current rto, h.numbered⟩
  total := by
    have hrest := h.total
    have hone : (1 : UInt32).toNat = 1 := rfl
    have hpos : 0 < (seg.written current rto).writes := Nat.succ_pos seg.writes
    dsimp only
    rw [inFlight_cons, inFlight_cons, if_pos hpos]
    rw [Counts.add] at hrest
    simp only [hseg.transmit_eq_zero hwrites] at hrest
    split at hrest
    · rw [UInt32.toNat_add] at hrest
      rw [if_neg (by omega)]
      omega
    · rw [if_pos (by omega)]
      omega
  lost := by
    have hrest := h.lost
    have hone : (1 : UInt32).toNat = 1 := rfl
    have hmore : seg.writes < (seg.written current rto).writes := Nat.lt_succ_self seg.writes
    dsimp only
    rw [retransmitted_cons]
    rw [Counts.add] at hrest
    simp only [hseg.transmit_eq_zero hwrites] at hrest
    split at hrest
    · rw [if_neg (by omega)]
      omega
    · rw [UInt32.toNat_add] at hrest
      rw [if_pos ⟨by omega, hmore⟩]
      omega

theorem Counts.toNat_total_add_le (c : Counts) (seg : WindowSegment) :
    (c.add seg).total.toNat ≤ c.total.toNat + 1 ∧ (c.add seg).lost.toNat ≤ c.lost.toNat + 1 := by
  have hone : (1 : UInt32).toNat = 1 := rfl
  unfold Counts.add
  dsimp only
  split
  · rw [UInt32.toNat_add]
    omega
  · rw [UInt32.toNat_add]
    omega

/-- A visit counts right, as long as the numbers have room. -/
theorem visited (current rto maxInFlightSize : UInt32) (hsegs : ∀ seg ∈ segs, Numbered seg)
    (hwrites : ∀ seg ∈ segs, seg.writes + 1 < 2 ^ 32)
    (htotal : c.total.toNat + segs.length < 2 ^ 32) (hlost : c.lost.toNat + segs.length < 2 ^ 32) :
    Visited c segs (visit current rto maxInFlightSize c segs) := by
  induction segs generalizing c with
  | nil => exact visited_self hsegs c
  | cons seg segs ih =>
    obtain ⟨hseg, hsegs⟩ := forall_mem_cons.mp hsegs
    obtain ⟨hwrite, hwrites⟩ := forall_mem_cons.mp hwrites
    rw [length_cons] at htotal hlost
    unfold visit
    split
    · exact (ih hsegs hwrites (by omega) (by omega)).skip hseg
    · have hadd := c.toNat_total_add_le seg
      dsimp only
      split
      · exact (ih hsegs hwrites (by omega) (by omega)).written current rto hseg hwrite
          (by omega) (by omega)
      · exact (visited_self hsegs _).written current rto hseg hwrite (by omega) (by omega)

/-! ## The count -/

/-- The count is right, and the numbers have room. -/
structure Inv (sw : SendingWindow) : Prop where
  total : sw.totalInFlightSize.toNat = inFlight sw.cache
  room : sw.cache.length * 100 < 2 ^ 32
  numbered : ∀ seg ∈ sw.cache, Numbered seg

theorem inFlight_le_length (segs : List WindowSegment) : inFlight segs ≤ segs.length :=
  countP_le_length

variable {sw sw' : SendingWindow}

theorem Inv.visited (h : sw.Inv) (current rto maxInFlightSize : UInt32)
    (hwrites : ∀ seg ∈ sw.cache, seg.writes + 1 < 2 ^ 32) :
    Visited ⟨sw.totalInFlightSize, 0, 0⟩ sw.cache
      (visit current rto maxInFlightSize ⟨sw.totalInFlightSize, 0, 0⟩ sw.cache) := by
  have hle := inFlight_le_length sw.cache
  have hroom := h.room
  have htotal := h.total
  have hzero : (0 : UInt32).toNat = 0 := rfl
  apply SendingWindow.visited current rto maxInFlightSize h.numbered hwrites
  · show sw.totalInFlightSize.toNat + _ < _
    omega
  · show (0 : UInt32).toNat + _ < _
    omega

theorem Inv.flush (h : sw.Inv) (current rto maxInFlightSize : UInt32)
    (hwrites : ∀ seg ∈ sw.cache, seg.writes + 1 < 2 ^ 32) :
    (sw.flush current rto maxInFlightSize).1.Inv := by
  have hvisited := h.visited current rto maxInFlightSize hwrites
  refine ⟨?_, ?_, hvisited.numbered⟩
  · have htotal := hvisited.total
    dsimp only at htotal
    rw [h.total] at htotal
    exact Nat.add_right_cancel (htotal.trans (Nat.add_comm ..))
  · have hroom := h.room
    rw [← hvisited.length] at hroom
    exact hroom

theorem inFlight_append (segs segs' : List WindowSegment) :
    inFlight (segs ++ segs') = inFlight segs + inFlight segs' :=
  countP_append

theorem Inv.push (h : sw.Inv) (number : UInt32) (b : Bytes)
    (hroom : (sw.cache.length + 1) * 100 < 2 ^ 32) : (sw.push number b).Inv := by
  refine ⟨?_, ?_, ?_⟩
  · show _ = inFlight (sw.cache ++ _)
    rw [inFlight_append]
    exact h.total
  · show (sw.cache ++ _).length * 100 < _
    rw [length_append]
    exact hroom
  · exact forall_mem_append.mpr ⟨h.numbered, forall_mem_singleton.mpr rfl⟩

/-- What `Clear` takes away. -/
theorem inFlight_clear (sw : SendingWindow) (una : UInt32) :
    inFlight (sw.cache.takeWhile fun seg => seg.number < una) + inFlight (sw.clear una).cache =
      inFlight sw.cache := by
  rw [← inFlight_append]
  exact congrArg inFlight (takeWhile_append_dropWhile ..)

theorem inFlight_eq_zero {segs : List WindowSegment} :
    inFlight segs = 0 ↔ ∀ seg ∈ segs, seg.writes = 0 := by
  rw [inFlight, countP_eq_zero]
  simp

theorem Inv.clear (h : sw.Inv) (una : UInt32) (hkept : sw.Kept (.clear una)) :
    (sw.clear una).Inv := by
  refine ⟨?_, ?_, fun seg hseg => h.numbered seg ((dropWhile_sublist _).subset hseg)⟩
  · have hcut := sw.inFlight_clear una
    rw [inFlight_eq_zero.mpr hkept, Nat.zero_add] at hcut
    exact h.total.trans hcut.symm
  · have hlen : (sw.clear una).cache.length ≤ sw.cache.length :=
      (dropWhile_sublist _).length_le
    have hroom := h.room
    omega

variable {number : UInt32}

/-- What `Remove` takes away. -/
theorem perm_of_find {segs rest : List WindowSegment} {seg : WindowSegment}
    (h : find number segs = some (seg, rest)) : segs.Perm (seg :: rest) := by
  induction segs generalizing rest with
  | nil => nomatch h
  | cons head segs ih =>
    unfold find at h
    split at h
    · nomatch h
    · split at h
      · obtain ⟨rfl, rfl⟩ := Prod.mk.inj (some.inj h)
        exact .refl _
      · obtain ⟨⟨seg', rest'⟩, hfind, hr⟩ := map_eq_some_iff.mp h
        obtain ⟨rfl, rfl⟩ := Prod.mk.inj hr
        exact ((ih hfind).cons head).trans (.swap ..)

theorem inFlight_find {segs rest : List WindowSegment} {seg : WindowSegment}
    (h : find number segs = some (seg, rest)) :
    inFlight segs = inFlight rest + if 0 < seg.writes then 1 else 0 := by
  rw [← inFlight_cons]
  exact (perm_of_find h).countP_eq _

/-- `Remove` takes one off the count, if there is one. -/
theorem toNat_remove (total : UInt32) :
    (if total > 0 then total - 1 else total).toNat = total.toNat - 1 := by
  have hzero : (0 : UInt32).toNat = 0 := rfl
  have hone : (1 : UInt32).toNat = 1 := rfl
  split
  · next hpos =>
    have hpos := UInt32.lt_iff_toNat_lt.mp hpos
    rw [UInt32.toNat_sub_of_le _ _ (UInt32.le_iff_toNat_le.mpr (by omega))]
    rfl
  · next hpos =>
    have hpos := UInt32.le_iff_toNat_le.mp (UInt32.not_lt.mp hpos)
    omega

theorem Inv.remove (h : sw.Inv) (number : UInt32) (hkept : sw.Kept (.remove number)) :
    (sw.remove number).2.Inv := by
  unfold SendingWindow.remove
  split
  · exact h
  · next seg rest hfind =>
    have hcount := inFlight_find hfind
    have hperm := perm_of_find hfind
    refine ⟨?_, ?_, fun seg' hseg' => h.numbered seg' (hperm.mem_iff.mpr (.tail _ hseg'))⟩
    · show UInt32.toNat (if _ then _ else _) = inFlight rest
      rw [toNat_remove, h.total]
      rcases hkept seg rest hfind with hsent | hnone
      · rw [if_pos hsent] at hcount
        omega
      · omega
    · have hlen := hperm.length_eq
      have hroom := h.room
      rw [length_cons] at hlen
      show rest.length * 100 < _
      omega

theorem writes_fastAck (number rto : UInt32) (segs : List WindowSegment) :
    (fastAck number rto segs).map (fun seg => (seg.transmit, seg.writes)) =
      segs.map fun seg => (seg.transmit, seg.writes) := by
  induction segs with
  | nil => rfl
  | cons seg segs ih =>
    unfold fastAck
    split
    · rfl
    · dsimp only
      rw [map_cons, ih, map_cons]
      split <;> rfl

theorem Inv.handleFastAck (h : sw.Inv) (number rto : UInt32) :
    (sw.handleFastAck number rto).Inv := by
  have hmap := writes_fastAck number rto sw.cache
  refine ⟨?_, ?_, ?_⟩
  · -- the count is one of transmissions, which stay as they are
    have hcount : ∀ segs : List WindowSegment, inFlight segs =
        (segs.map fun seg => (seg.transmit, seg.writes)).countP fun p => 0 < p.2 := fun segs => by
      rw [countP_map]
      rfl
    show _ = inFlight (fastAck number rto sw.cache)
    rw [hcount, hmap, ← hcount]
    exact h.total
  · have hlen := congrArg length hmap
    rw [length_map, length_map] at hlen
    show (fastAck number rto sw.cache).length * 100 < _
    rw [hlen]
    exact h.room
  · intro seg hseg
    have hmem : (seg.transmit, seg.writes) ∈
        sw.cache.map fun seg => (seg.transmit, seg.writes) := by
      rw [← hmap]
      exact mem_map_of_mem hseg
    obtain ⟨old, hold, heq⟩ := mem_map.mp hmem
    obtain ⟨htransmit, hwrites⟩ := Prod.mk.inj heq
    show seg.transmit = UInt32.ofNat seg.writes
    rw [← htransmit, ← hwrites]
    exact h.numbered old hold

theorem Inv.step {call : Call} (h : sw.Inv) (hkept : sw.Kept call)
    (hstep : sw.step call = some sw') : sw'.Inv := by
  cases call with
  | push number b =>
    obtain rfl : sw.push number b = sw' := some.inj hstep
    exact h.push number b hkept
  | flush current rto maxInFlightSize =>
    obtain rfl : (sw.flush current rto maxInFlightSize).1 = sw' := some.inj hstep
    exact h.flush current rto maxInFlightSize hkept
  | clear una =>
    obtain rfl : sw.clear una = sw' := some.inj hstep
    exact h.clear una hkept
  | remove number =>
    obtain rfl : (sw.remove number).2 = sw' := some.inj hstep
    exact h.remove number hkept
  | handleFastAck number rto =>
    obtain rfl : sw.handleFastAck number rto = sw' := some.inj hstep
    exact h.handleFastAck number rto

/-- A `Clear` that is not kept leaves the count too high. -/
theorem Inv.clear_wrong (h : sw.Inv) {una : UInt32} (hkept : ¬ sw.Kept (.clear una)) :
    inFlight (sw.clear una).cache < (sw.clear una).totalInFlightSize.toNat := by
  have hcut := sw.inFlight_clear una
  have hsome : inFlight (sw.cache.takeWhile fun seg => seg.number < una) ≠ 0 := fun hzero =>
    hkept (inFlight_eq_zero.mp hzero)
  show _ < sw.totalInFlightSize.toNat
  rw [h.total]
  omega

/-- A `Remove` that is not kept leaves the count too low. -/
theorem Inv.remove_wrong (h : sw.Inv) (hkept : ¬ sw.Kept (.remove number)) :
    (sw.remove number).2.totalInFlightSize.toNat < inFlight (sw.remove number).2.cache := by
  unfold SendingWindow.remove
  split
  · next hnone => exact absurd (fun seg rest hfind => nomatch hnone.symm.trans hfind) hkept
  · next seg rest hfind =>
    have hcount := inFlight_find hfind
    have hunsent : ¬ (0 < seg.writes ∨ inFlight sw.cache = 0) := by
      intro hsent
      apply hkept
      intro seg' rest' hfind'
      obtain ⟨rfl, rfl⟩ := Prod.mk.inj (some.inj (hfind.symm.trans hfind'))
      exact hsent
    show UInt32.toNat (if _ then _ else _) < inFlight rest
    rw [toNat_remove, h.total]
    rw [if_neg fun hsent => hunsent (.inl hsent)] at hcount
    omega

/-- The rate that a flush reports. -/
theorem Inv.rate_eq (h : sw.Inv) {current rto maxInFlightSize rate : UInt32}
    (hkept : sw.Kept (.flush current rto maxInFlightSize))
    (hrate : (sw.flush current rto maxInFlightSize).2 = some rate) :
    rate.toNat = retransmitted sw.cache (sw.flush current rto maxInFlightSize).1.cache * 100 /
      inFlight (sw.flush current rto maxInFlightSize).1.cache := by
  have hvisited := h.visited current rto maxInFlightSize hkept
  have htotal := (h.flush current rto maxInFlightSize hkept).total
  have hlost := hvisited.lost
  unfold SendingWindow.flush at hrate
  dsimp only at hrate hlost
  split at hrate
  · obtain rfl := some.inj hrate
    -- no more segments are lost than there are, so a hundred times that has room
    have hle : retransmitted sw.cache (visit current rto maxInFlightSize
        ⟨sw.totalInFlightSize, 0, 0⟩ sw.cache).1 ≤ sw.cache.length := by
      refine Nat.le_trans countP_le_length ?_
      rw [length_zip]
      exact Nat.min_le_left ..
    have hroom := h.room
    have hzero : (0 : UInt32).toNat = 0 := rfl
    have hhundred : (100 : UInt32).toNat = 100 := rfl
    rw [UInt32.toNat_div, UInt32.toNat_mul, hlost, hzero, hhundred, Nat.zero_add,
      Nat.mod_eq_of_lt (by omega)]
    exact congrArg _ htotal
  · nomatch hrate

/-- In every run whose calls count right, the count is that of the segments transmitted, and
    so is the rate of losses that a flush reports by it; and any other `Clear` or `Remove`
    leaves it wrong. -/
theorem exact_of_kept {calls : List Call} (hkept : Machine.Along step Kept calls new)
    (hrun : Machine.run step calls new = some sw) :
    sw.totalInFlightSize.toNat = inFlight sw.cache ∧
      (∀ current rto maxInFlightSize rate, sw.Kept (.flush current rto maxInFlightSize) →
        (sw.flush current rto maxInFlightSize).2 = some rate →
          rate.toNat = retransmitted sw.cache (sw.flush current rto maxInFlightSize).1.cache * 100 /
            inFlight (sw.flush current rto maxInFlightSize).1.cache) ∧
      (∀ una, ¬ sw.Kept (.clear una) →
        (sw.clear una).totalInFlightSize.toNat ≠ inFlight (sw.clear una).cache) ∧
      ∀ number, ¬ sw.Kept (.remove number) →
        (sw.remove number).2.totalInFlightSize.toNat ≠ inFlight (sw.remove number).2.cache := by
  have hnew : new.Inv := ⟨rfl, by decide, fun _ h => absurd h not_mem_nil⟩
  have hinv := Machine.Along.run_closed
    (fun _ _ _ hs hp hstep => Inv.step hs hp hstep) hnew hkept hrun
  exact ⟨hinv.total, fun _ _ _ _ => hinv.rate_eq, fun _ h => Nat.ne_of_gt (hinv.clear_wrong h),
    fun _ h => Nat.ne_of_lt (hinv.remove_wrong h)⟩

/-- A segment that is sent twice: all that is in flight was lost. -/
theorem exact_of_kept_twice :
    ∃ sw, Machine.run step [.push 1 [0], .flush 0 100 8] new = some sw ∧
      sw.totalInFlightSize.toNat = inFlight sw.cache ∧
      (sw.flush 200 100 8).2 = some 100 ∧ (100 : UInt32).toNat = 1 * 100 / 1 := by
  have hkept : Machine.Along step Kept [.push 1 [0], .flush 0 100 8] new := by
    have hroom : (new.cache.length + 1) * 100 < 2 ^ 32 := by decide
    refine ⟨hroom, fun sw hsw => ⟨?_, fun _ _ => trivial⟩⟩
    obtain rfl : new.push 1 [0] = sw := some.inj hsw
    show ∀ seg ∈ (new.push 1 [0]).cache, seg.writes + 1 < 2 ^ 32
    decide
  obtain ⟨htotal, hrate, -⟩ := exact_of_kept hkept rfl
  have hwrites : ∀ seg ∈ ((new.push 1 [0]).flush 0 100 8).1.cache, seg.writes + 1 < 2 ^ 32 := by
    decide
  exact ⟨_, rfl, htotal, rfl, hrate 200 100 8 100 hwrites rfl⟩

/-- `Clear` forgets the count: with one segment in flight it stands at two, and where all was
    lost a half is reported. -/
theorem clear_leaves_count :
    ∃ sw, Machine.run step
        [.push 1 [0], .flush 0 100 8, .clear 2, .push 2 [0], .flush 0 100 8] new = some sw ∧
      sw.totalInFlightSize = 2 ∧ inFlight sw.cache = 1 ∧ (sw.flush 200 100 8).2 = some 50 ∧
      retransmitted sw.cache (sw.flush 200 100 8).1.cache = 1 :=
  ⟨_, rfl, rfl, rfl, rfl, rfl⟩

end SendingWindow

end XrayCore.Kcp
