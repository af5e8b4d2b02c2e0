/-
  XrayCore.Kcp.Config

  What the configuration of mKCP lets through, and what is computed from it.

  The capacities are multiplied in 32 bits, and the packet size is held against no upper
  bound: the sizes come out right, and a segment fits its buffer, exactly if the capacities
  are below 4096 and the packets at most as large as a buffer (`safe_iff_of_build`).
-/

import XrayCore.Kcp.Segment
import XrayCore.Machine.Run

namespace XrayCore.Kcp

open Machine List Option

/-- `Config`. -/
structure Config where
  mtu : UInt32
  tti : UInt32
  uplinkCapacity : UInt32
  downlinkCapacity : UInt32
  cwndMultiplier : UInt32
  maxSendingWindow : UInt32

namespace Config

/-- The one that `CreateTransportConfig` gives. -/
def default : Config := ⟨1350, 50, 5, 20, 1, 2 * 1024 * 1024⟩

/-- Division, which stops the program if it is by zero. -/
def div (a b : UInt32) : Option UInt32 := if b = 0 then none else some (a / b)

/-- `GetSendingBufferSize`. -/
def getSendingBufferSize (c : Config) : Option UInt32 := div c.maxSendingWindow c.mtu

/-- How many packets of a capacity there are in an interval, at least 8. -/
def inFlightSize (c : Config) (capacity : UInt32) : Option UInt32 := do
  let packets ← div (capacity * 1024 * 1024) c.mtu
  let intervals ← div 1000 c.tti
  let size ← div packets intervals
  return if size < 8 then 8 else size

/-- `GetSendingInFlightSize`. -/
def getSendingInFlightSize (c : Config) : Option UInt32 := c.inFlightSize c.uplinkCapacity

/-- `GetReceivingInFlightSize`. -/
def getReceivingInFlightSize (c : Config) : Option UInt32 := c.inFlightSize c.downlinkCapacity

end Config

/-- `KCPConfig`, what is given of it. -/
structure KCPConfig where
  mtu : Option UInt32
  tti : Option UInt32
  upCap : Option UInt32
  downCap : Option UInt32
  cwndMultiplier : Option UInt32
  maxSendingWindow : Option UInt32

/-- `KCPConfig.Build`. -/
def KCPConfig.build (c : KCPConfig) : Result Config := do
  let config : Config := ⟨c.mtu.getD Config.default.mtu, c.tti.getD Config.default.tti,
    c.upCap.getD Config.default.uplinkCapacity, c.downCap.getD Config.default.downlinkCapacity,
    c.cwndMultiplier.getD Config.default.cwndMultiplier,
    c.maxSendingWindow.getD Config.default.maxSendingWindow⟩
  reject (config.mtu < 21) "MTU must be at least 21"
  reject (config.tti < 10 ∨ config.tti > 1000) "TTI must be between 10 and 1000"
  reject (config.cwndMultiplier < 1) "CwndMultiplier must be at least 1"
  let size ← checked config.getSendingBufferSize
  reject (size = 0) s!"MaxSendingWindow must be at least {config.mtu}"
  return config

/-! ## Writing -/

/-- `ByteSize`. -/
def Segment.byteSize : Segment → ℕ
  | .data s => 2 + 1 + 1 + 4 + 4 + 4 + 2 + s.payload.length
  | .ack s => 2 + 1 + 1 + 4 + 4 + 4 + 1 + s.numberList.length * 4
  | .cmdOnly _ => 2 + 1 + 1 + 4 + 4 + 4

/-- `SimpleSegmentWriter.Write`: what is written, `none` where `Extend` stops the program. -/
def Segment.write (seg : Segment) : Option Bytes :=
  if Buf.size < seg.byteSize then none else some seg.serialize

/-- An `io.Reader`: what it gives for a slice of some length, and the error if there is one. -/
structure Reader (ρ : Type) where
  read : ρ → ℕ → Bytes × Option String × ρ
  hread : ∀ r n, (read r n).1.length ≤ n

/-- `bytes.Reader`. -/
def bytesReader : Reader Bytes where
  read r n := if r = [] then ([], some "EOF", []) else (r.take n, none, r.drop n)
  hread r n := by
    split
    · exact Nat.zero_le n
    · exact List.length_take_le n r

/-- The state of `writeMultiBufferInternal`: the buffer at hand, the reader, and what was pushed. -/
structure Writing (ρ : Type) where
  b : Option Bytes
  reader : ρ
  pushed : List Bytes

/-- What a turn of the loop meets: if the connection is active, if the worker takes the buffer, and
    if waiting for room ends without an error. -/
structure Turn where
  active : Bool
  accepted : Bool
  waited : Bool

/-- `mss`. -/
def Config.mss (c : Config) : UInt32 := c.mtu - 18

/-- The buffer to push: the one at hand, or a new one that is read through `io.LimitReader`;
    `none` where reading gives an error. -/
def Config.nextBuffer {ρ : Type} (c : Config) (reader : Reader ρ) (w : Writing ρ) :
    Option (Bytes × ρ) :=
  match w.b with
  | some b => some (b, w.reader)
  | none =>
    match reader.read w.reader (min Buf.size c.mss.toNat) with
    | (data, none, r) => some (data, r)
    | (_, some _, _) => none

/-- A turn of the loop of `writeMultiBufferInternal`, `none` where it returns. -/
def Config.writeTurn {ρ : Type} (c : Config) (reader : Reader ρ) (w : Writing ρ) (t : Turn) :
    Option (Writing ρ) := do
  guard t.active
  let next ← c.nextBuffer reader w
  if t.accepted then return ⟨none, next.2, w.pushed ++ [next.1]⟩
  else
    guard t.waited
    return ⟨some next.1, next.2, w.pushed⟩

/-! ## What is safe -/

/-- What `inFlightSize` is to be, in numbers without a bound. -/
def Config.InFlight (c : Config) (capacity : UInt32) (size : Option UInt32) : Prop :=
  ∃ n, size = some n ∧
    n.toNat = max 8 (capacity.toNat * 1024 * 1024 / c.mtu.toNat / (1000 / c.tti.toNat))

/-- Both sizes are right, and all that is pushed can be written. -/
structure Config.Safe (c : Config) : Prop where
  sending : c.InFlight c.uplinkCapacity c.getSendingInFlightSize
  receiving : c.InFlight c.downlinkCapacity c.getReceivingInFlightSize
  write : ∀ {ρ : Type} (reader : Reader ρ) (r : ρ) (turns : List Turn) (w : Writing ρ),
    run (c.writeTurn reader) turns ⟨none, r, []⟩ = some w →
    ∀ b ∈ w.pushed, ∀ seg : DataSegment, seg.payload = b → ((Segment.data seg).write).isSome

/-- What `Build` has looked at. -/
structure Config.Accepted (c : Config) : Prop where
  mtu : 21 ≤ c.mtu.toNat
  tti : 10 ≤ c.tti.toNat ∧ c.tti.toNat ≤ 1000

theorem KCPConfig.accepted_of_build {c : KCPConfig} {config : Config}
    (h : c.build.run = some (.ok config)) : config.Accepted := by
  unfold build at h
  dsimp only at h
  obtain ⟨_, hmtu, h⟩ := Result.bind_ok h
  obtain ⟨_, htti, h⟩ := Result.bind_ok h
  obtain ⟨_, -, h⟩ := Result.bind_ok h
  obtain ⟨_, -, h⟩ := Result.bind_ok h
  obtain ⟨_, -, h⟩ := Result.bind_ok h
  replace hmtu := Result.reject_ok hmtu
  replace htti := Result.reject_ok htti
  obtain rfl := Except.ok.inj (some.inj h)
  rw [UInt32.lt_iff_toNat_lt] at hmtu
  rw [gt_iff_lt, UInt32.lt_iff_toNat_lt, UInt32.lt_iff_toNat_lt] at htti
  exact ⟨Nat.le_of_not_lt hmtu, Nat.le_of_not_lt fun hlt => htti (.inl hlt),
    Nat.le_of_not_lt fun hlt => htti (.inr hlt)⟩

/-! ## The sizes -/

namespace Config

variable {c : Config}

theorem div_eq {a b : UInt32} (hb : 0 < b.toNat) :
    ∃ q, div a b = some q ∧ q.toNat = a.toNat / b.toNat := by
  refine ⟨a / b, if_neg ?_, UInt32.toNat_div a b⟩
  rintro rfl
  exact absurd hb (Nat.lt_irrefl 0)

/-- The product wraps at 4096. -/
theorem toNat_capacity (capacity : UInt32) :
    (capacity * 1024 * 1024).toNat = capacity.toNat % 4096 * 1024 * 1024 := by
  have h1024 : (1024 : UInt32).toNat = 1024 := rfl
  rw [UInt32.toNat_mul, UInt32.toNat_mul, h1024]
  omega

theorem Accepted.inFlightSize_eq (hc : c.Accepted) (capacity : UInt32) :
    ∃ n, c.inFlightSize capacity = some n ∧ n.toNat =
      max 8 (capacity.toNat % 4096 * 1024 * 1024 / c.mtu.toNat / (1000 / c.tti.toNat)) := by
  have hticks : 0 < 1000 / c.tti.toNat := Nat.div_pos hc.tti.2 (by have := hc.tti.1; omega)
  obtain ⟨packets, hpackets, hval⟩ := div_eq (a := capacity * 1024 * 1024) (b := c.mtu)
    (by have := hc.mtu; omega)
  obtain ⟨intervals, hintervals, htval⟩ := div_eq (a := 1000) (b := c.tti)
    (by have := hc.tti.1; omega)
  have h1000 : (1000 : UInt32).toNat = 1000 := rfl
  rw [h1000] at htval
  obtain ⟨size, hsize, hsval⟩ := div_eq (a := packets) (b := intervals) (htval ▸ hticks)
  rw [hval, htval, toNat_capacity] at hsval
  refine ⟨if size < 8 then 8 else size, ?_, ?_⟩
  · rw [inFlightSize, hpackets, hintervals]
    show (div packets intervals).bind _ = _
    rw [hsize]
    rfl
  · rw [← hsval]
    have h8 : (8 : UInt32).toNat = 8 := rfl
    split
    · next hlt =>
      rw [UInt32.lt_iff_toNat_lt, h8] at hlt
      omega
    · next hlt =>
      rw [UInt32.lt_iff_toNat_lt, h8] at hlt
      omega

/-- What is lost when the product wraps is more than a division by the largest packet and the
    largest number of intervals can hide. -/
theorem wrapped_ne {capacity mtu ticks : ℕ} (hcap : 4096 ≤ capacity) (hmtu : 0 < mtu)
    (hsize : mtu ≤ 8192) (hticks : 0 < ticks) (hmost : ticks ≤ 100) :
    max 8 (capacity % 4096 * 1024 * 1024 / mtu / ticks) <
      max 8 (capacity * 1024 * 1024 / mtu / ticks) := by
  have hmax : ∀ a b : ℕ, a + 5242 ≤ b → max 8 a < max 8 b := by omega
  have hpackets : capacity % 4096 * 1024 * 1024 / mtu + 524288 ≤ capacity * 1024 * 1024 / mtu := by
    have hmul : 524288 * mtu ≤ 524288 * 8192 := Nat.mul_le_mul_left _ hsize
    rw [← Nat.add_mul_div_right _ _ hmtu]
    exact Nat.div_le_div_right (by omega)
  have hsizes : capacity % 4096 * 1024 * 1024 / mtu / ticks + 5242 ≤
      capacity * 1024 * 1024 / mtu / ticks := by
    have hmul : 5242 * ticks ≤ 5242 * 100 := Nat.mul_le_mul_left _ hmost
    rw [← Nat.add_mul_div_right _ _ hticks]
    exact Nat.div_le_div_right (by omega)
  exact hmax _ _ hsizes

theorem Accepted.inFlight_of_lt (hc : c.Accepted) {capacity : UInt32}
    (hlt : capacity.toNat < 4096) : c.InFlight capacity (c.inFlightSize capacity) := by
  obtain ⟨n, hn, hval⟩ := hc.inFlightSize_eq capacity
  rw [Nat.mod_eq_of_lt hlt] at hval
  exact ⟨n, hn, hval⟩

theorem Accepted.lt_of_inFlight (hc : c.Accepted) (hsize : c.mtu.toNat ≤ 8192) {capacity : UInt32}
    (h : c.InFlight capacity (c.inFlightSize capacity)) : capacity.toNat < 4096 := by
  obtain ⟨n, hn, hval⟩ := hc.inFlightSize_eq capacity
  obtain ⟨n', hn', hval'⟩ := h
  obtain rfl := some.inj (hn.symm.trans hn')
  by_contra hge
  have hticks : 0 < 1000 / c.tti.toNat := Nat.div_pos hc.tti.2 (by have := hc.tti.1; omega)
  have hmost : 1000 / c.tti.toNat ≤ 1000 / 10 := Nat.div_le_div_left hc.tti.1 (by omega)
  have hne := wrapped_ne (Nat.le_of_not_lt hge) (by have := hc.mtu; omega) hsize hticks hmost
  omega

/-! ## What is pushed -/

theorem Accepted.toNat_mss (hc : c.Accepted) : c.mss.toNat = c.mtu.toNat - 18 := by
  have h18 : (18 : UInt32).toNat = 18 := rfl
  have hle : (18 : UInt32) ≤ c.mtu := by
    rw [UInt32.le_iff_toNat_le, h18]
    have := hc.mtu
    omega
  rw [mss, UInt32.toNat_sub_of_le _ _ hle, h18]

/-- No buffer is longer than what was asked for. -/
def Bounded {ρ : Type} (c : Config) (w : Writing ρ) : Prop :=
  (∀ b ∈ w.b, b.length ≤ min Buf.size c.mss.toNat) ∧
    ∀ b ∈ w.pushed, b.length ≤ min Buf.size c.mss.toNat

theorem Bounded.writeTurn {ρ : Type} {reader : Reader ρ} {w w' : Writing ρ} (hw : c.Bounded w)
    {t : Turn} (h : c.writeTurn reader w t = some w') : c.Bounded w' := by
  obtain ⟨-, -, h⟩ := bind_eq_some_iff.mp h
  obtain ⟨⟨b, r⟩, hb, h⟩ := bind_eq_some_iff.mp h
  have hlen : b.length ≤ min Buf.size c.mss.toNat := by
    unfold nextBuffer at hb
    split at hb
    · next b' hb' =>
      obtain ⟨rfl, -⟩ := Prod.mk.inj (some.inj hb)
      exact hw.1 _ hb'
    · split at hb
      · next data r' hread =>
        obtain ⟨rfl, -⟩ := Prod.mk.inj (some.inj hb)
        have hbound := reader.hread w.reader (min Buf.size c.mss.toNat)
        rw [hread] at hbound
        exact hbound
      · nomatch hb
  dsimp only at h
  split at h
  · obtain rfl := some.inj h
    refine ⟨nofun, fun b' hb' => ?_⟩
    rcases mem_append.mp hb' with hold | hnew
    · exact hw.2 b' hold
    · rw [mem_singleton.mp hnew]
      exact hlen
  · obtain ⟨-, -, h⟩ := bind_eq_some_iff.mp h
    obtain rfl := some.inj h
    refine ⟨fun b' hb' => ?_, hw.2⟩
    rw [← some.inj hb']
    exact hlen

theorem write_of_fits {seg : DataSegment} (h : seg.payload.length + 18 ≤ Buf.size) :
    ((Segment.data seg).write).isSome := by
  rw [Segment.write, if_neg]
  · rfl
  · show ¬ Buf.size < 18 + seg.payload.length
    omega

/-- A configuration that `Build` takes is safe exactly if its packets fit a buffer and its
    capacities do not wrap. -/
theorem safe_iff_of_build {j : KCPConfig} (h : j.build.run = some (.ok c)) :
    c.Safe ↔ c.mtu.toNat ≤ 8192 ∧ c.uplinkCapacity.toNat < 4096 ∧
      c.downlinkCapacity.toNat < 4096 := by
  have hc := j.accepted_of_build h
  have hmss := hc.toNat_mss
  have hsize : Buf.size = 8192 := rfl
  constructor
  · intro hsafe
    have hmtu : c.mtu.toNat ≤ 8192 := by
      -- a reader with a whole buffer of bytes, and one turn
      by_contra hlarge
      have hpushed := hsafe.write bytesReader (replicate Buf.size 0) [⟨true, true, true⟩]
        ⟨none, drop _ _, [take (min Buf.size c.mss.toNat) (replicate Buf.size 0)]⟩
        rfl _ (mem_singleton_self _) ⟨0, 0, 0, 0, 0, _⟩ rfl
      rw [Segment.write, if_pos] at hpushed
      · nomatch hpushed
      · show Buf.size < 18 + (take _ _).length
        rw [length_take, length_replicate, hmss]
        omega
    exact ⟨hmtu, hc.lt_of_inFlight hmtu hsafe.sending, hc.lt_of_inFlight hmtu hsafe.receiving⟩
  · rintro ⟨hmtu, hup, hdown⟩
    refine ⟨hc.inFlight_of_lt hup, hc.inFlight_of_lt hdown, ?_⟩
    intro ρ reader r turns w hrun b hb seg hseg
    have hstart : c.Bounded (⟨none, r, []⟩ : Writing ρ) := by
      constructor
      · exact nofun
      · exact nofun
    have hbounded : c.Bounded w :=
      run_closed (fun _ _ _ _ hw hturn => Bounded.writeTurn hw hturn) hstart hrun
    have hlen := hbounded.2 b hb
    apply write_of_fits
    rw [hseg]
    have := hc.mtu
    omega

theorem safe_of_largest : Config.Safe ⟨8192, 50, 4095, 4095, 1, 2 * 1024 * 1024⟩ :=
  (safe_iff_of_build (j := ⟨some 8192, none, some 4095, some 4095, none, none⟩) rfl).mpr (by decide)

/-- Packets of 8193 bytes are let through, and stop the program; a capacity of 4096 gives the
    smallest size. -/
theorem build_takes_unsafe :
    ((⟨some 8193, none, some 4096, none, none, none⟩ : KCPConfig).build.run.map
      fun r => r.toOption.map fun c => (c.getSendingInFlightSize,
        (Segment.data ⟨0, 0, 0, 0, 0, List.replicate c.mss.toNat 0⟩).write)) =
      some (some (some 8, none)) := by
  decide +kernel

end Config

end XrayCore.Kcp
