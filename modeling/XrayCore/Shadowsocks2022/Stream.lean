/-
  XrayCore.Shadowsocks2022.Stream

  The header of a TCP request, and the salts that were seen.

  The timestamp of a header is compared with the whole seconds of the clock, and then, by
  another reading of it and after more of the request was read, the salt is looked up in
  the replay filter.  The filter forgets a salt 60 seconds after it was taken, or later; a
  timestamp can be good for almost 61.
-/

import XrayCore.Antireplay.ReplayFilter
import XrayCore.Machine.Run
import XrayCore.Shadowsocks2022.Header

namespace XrayCore.Shadowsocks2022

open Antireplay Bytes Machine Protocol Wire

/-! ## Reading a header -/

/-- `IncreaseNonce`. -/
def increaseNonce : Bytes → Bytes
  | [] => []
  | b :: rest => if b + 1 ≠ 0 then (b + 1) :: rest else (b + 1) :: increaseNonce rest

/-- `StreamReader`, with what its connection still holds. -/
structure StreamReader where
  reader : Bytes
  cipher : Opening
  nonce : Bytes

/-- `NewStreamReader`. -/
def StreamReader.new (conn : Bytes) (cipher : Opening) : StreamReader :=
  ⟨conn, cipher, List.replicate 12 0⟩

/-- `ClientRequestHeader`. -/
structure ClientRequestHeader where
  destination : Destination
  earlyData : Bytes

/-- The end of `ReadClientRequestHeaderWithFixed`: the variable header. -/
def parseVarHeader (plainVar : Bytes) : Result ClientRequestHeader := do
  let (dest, addrLen) ← parseAddressPort plainVar
  reject (plainVar.length < addrLen + 2) errPacketTooShort
  let padding ← checked (slice plainVar addrLen (addrLen + 2))
  let paddingLen := bigEndian padding
  reject (plainVar.length < addrLen + 2 + paddingLen) errNoPadding
  let earlyData := plainVar.drop (addrLen + 2 + paddingLen)
  reject (paddingLen = 0 ∧ earlyData.length = 0)
    "request without payload and padding is not allowed"
  return ⟨{ dest with network := .tcp }, earlyData⟩

/-- `ReadClientRequestHeaderWithFixed`. -/
def readClientRequestHeaderWithFixed (outOfRange now : ℤ) (reader : StreamReader)
    (fixedChunk : Bytes) : Result (StreamReader × ClientRequestHeader) := do
  let plainFixed ← found (reader.cipher reader.nonce fixedChunk)
    "failed to decrypt client request header"
  let nonce := increaseNonce reader.nonce
  let headerType ← checked (index plainFixed 0)
  reject (headerType ≠ headerTypeClient) errBadHeaderType
  let epoch ← checked (slice plainFixed 1 9)
  reject (timestampDiff outOfRange now (bigEndian epoch) > 30) errBadTimestamp
  let len ← checked (slice plainFixed 9 11)
  let varHeaderLen := bigEndian len
  reject (varHeaderLen = 0) errInvalidRequest
  let needed := varHeaderLen + aeadTagSize
  reject (reader.reader.length < needed) "unexpected EOF"
  let plainVar ← found (reader.cipher nonce (reader.reader.take needed))
    "failed to decrypt variable request header"
  let header ← parseVarHeader plainVar
  return (⟨reader.reader.drop needed, reader.cipher, increaseNonce nonce⟩, header)

/-- A header that is read has a timestamp near the clock, as the code compares them. -/
theorem read_timestamp {out now : ℤ} {reader : StreamReader} {chunk : Bytes}
    {r : StreamReader × ClientRequestHeader}
    (h : (readClientRequestHeaderWithFixed out now reader chunk).run = some (.ok r)) :
    ∃ plain epoch, reader.cipher reader.nonce chunk = some plain ∧ slice plain 1 9 = some epoch ∧
      timestampDiff out now (bigEndian epoch) ≤ 30 := by
  unfold readClientRequestHeaderWithFixed at h
  obtain ⟨plain, hplain, h⟩ := Result.bind_ok h
  obtain ⟨_, -, h⟩ := Result.bind_ok h
  obtain ⟨_, -, h⟩ := Result.bind_ok h
  obtain ⟨epoch, hepoch, h⟩ := Result.bind_ok h
  obtain ⟨_, hdiff, -⟩ := Result.bind_ok h
  exact ⟨plain, epoch, Result.found_ok hplain, Result.checked_ok hepoch,
    not_lt.mp (Result.reject_ok hdiff)⟩

/-! ## A request -/

/-- What the server has: its key, and the ciphers it makes of keys. -/
structure Keys where
  psk : Bytes
  keySaltLength : ℕ
  /-- `DeriveSessionSubKey` -/
  deriveSessionSubKey : Bytes → Bytes → ℕ → Bytes
  /-- `NewAEAD` -/
  newAEAD : Bytes → Except String Opening
  /-- what a double out of range becomes as an integer -/
  outOfRange : ℤ

/-- A connection: what it sends, when its timestamp is looked at and when its salt is, and
    whether its deadline can be taken off. -/
structure Presentation (K : Type) where
  salt : Bytes
  fixedChunk : Bytes
  conn : Bytes
  headerTime : K
  filterTime : K
  deadlineErr : Option String
deriving DecidableEq

section Server

variable {K : Type} [Field K] [LinearOrder K] [FloorRing K]

/-- `InitServerStream`, and the filter it leaves. -/
def initServerStream (k : Keys) (p : Presentation K) (saltFilter : ReplayFilter Bytes K) :
    Option (Except String (StreamReader × ClientRequestHeader)) × ReplayFilter Bytes K :=
  match k.newAEAD (k.deriveSessionSubKey k.psk (p.salt.take k.keySaltLength) k.keySaltLength) with
  | .error err => (some (.error err), saltFilter)
  | .ok aead =>
    match (readClientRequestHeaderWithFixed k.outOfRange ⌊p.headerTime⌋
        (StreamReader.new p.conn aead) p.fixedChunk).run with
    | none => (none, saltFilter)
    | some (.error err) => (some (.error err), saltFilter)
    | some (.ok request) =>
      let checked := saltFilter.check p.filterTime p.salt
      if checked.1 then
        match p.deadlineErr with
        | some err => (some (.error err), checked.2)
        | none => (some (.ok request), checked.2)
      else (some (.error "salt not unique"), checked.2)

/-- Whether `InitServerStream` takes a request. -/
def accepts (k : Keys) (p : Presentation K) (saltFilter : ReplayFilter Bytes K) : Bool :=
  match (initServerStream k p saltFilter).1 with
  | some (.ok _) => true
  | _ => false

/-! ## Runs -/

/-- An inbound: its filter, the last time the filter was used, and what was accepted. -/
structure Inbound (K : Type) where
  saltFilter : ReplayFilter Bytes K
  clock : K
  accepted : List (Presentation K)

/-- A new inbound, with a filter of 60 seconds. -/
def Inbound.new (now : K) : Inbound K := ⟨.new 60 now, now, []⟩

/-- The next connection whose salt is looked at. -/
def Inbound.step (k : Keys) (i : Inbound K) (p : Presentation K) : Option (Inbound K) :=
  if i.clock ≤ p.filterTime ∧ p.headerTime ≤ p.filterTime then
    some {
      saltFilter := (initServerStream k p i.saltFilter).2
      clock := p.filterTime
      accepted := if accepts k p i.saltFilter then p :: i.accepted else i.accepted }
  else none

/-- The timestamp in the header of a request. -/
def headerTimestamp (k : Keys) (salt fixedChunk : Bytes) : Option ℤ := do
  let aead ← (k.newAEAD
    (k.deriveSessionSubKey k.psk (salt.take k.keySaltLength) k.keySaltLength)).toOption
  let plainFixed ← aead (List.replicate 12 0) fixedChunk
  let epoch ← slice plainFixed 1 9
  return wrap64 (bigEndian epoch)

variable {k : Keys} {p : Presentation K} {filter : ReplayFilter Bytes K}

/-- A request leaves the filter or checks its salt. -/
theorem initServerStream_cases (k : Keys) (p : Presentation K)
    (filter : ReplayFilter Bytes K) :
    ((initServerStream k p filter).2 = filter ∧ accepts k p filter = false) ∨
      ((initServerStream k p filter).2 = (filter.check p.filterTime p.salt).2 ∧
        (accepts k p filter = true → (filter.check p.filterTime p.salt).1 = true)) := by
  unfold accepts initServerStream
  split
  · exact .inl ⟨rfl, rfl⟩
  · split
    · exact .inl ⟨rfl, rfl⟩
    · exact .inl ⟨rfl, rfl⟩
    · simp only
      split
      · next htaken =>
        split
        · exact .inr ⟨rfl, nofun⟩
        · exact .inr ⟨rfl, fun _ => htaken⟩
      · exact .inr ⟨rfl, nofun⟩

/-- What holds of an inbound: each salt it accepted is remembered for an interval. -/
structure Inbound.Inv (i : Inbound K) : Prop where
  interval : i.saltFilter.interval = 60
  ordered : ∀ p ∈ i.accepted, p.headerTime ≤ p.filterTime
  remembers : ∀ p ∈ i.accepted, i.clock ≤ p.filterTime + 60 →
    i.saltFilter.Remembers p.salt p.filterTime

variable [IsStrictOrderedRing K]

theorem Inbound.Inv.step {i i' : Inbound K} (h : i.Inv) (hstep : i.step k p = some i') :
    i'.Inv := by
  unfold Inbound.step at hstep
  split at hstep
  swap
  · nomatch hstep
  next htime =>
  obtain rfl := Option.some.inj hstep
  have hold : ∀ q ∈ i.accepted, p.filterTime ≤ q.filterTime + 60 →
      i.saltFilter.Remembers q.salt q.filterTime := fun q hq hle =>
    h.remembers q hq (htime.1.trans hle)
  rcases initServerStream_cases k p i.saltFilter with ⟨hfilter, hnot⟩ | ⟨hfilter, htaken⟩
  · simp only [hfilter, hnot, Bool.false_eq_true, if_false]
    exact ⟨h.interval, h.ordered, hold⟩
  · have hkept : ∀ q ∈ i.accepted, p.filterTime ≤ q.filterTime + 60 →
        (i.saltFilter.check p.filterTime p.salt).2.Remembers q.salt q.filterTime := by
      intro q hq hle
      apply (hold q hq hle).of_check
      rw [h.interval]
      exact hle
    simp only [hfilter]
    split
    · next haccepts =>
      constructor
      · rw [ReplayFilter.interval_check]
        exact h.interval
      · exact List.forall_mem_cons.mpr ⟨htime.2, h.ordered⟩
      · intro q hq hle
        rcases List.mem_cons.mp hq with rfl | hq
        · apply ReplayFilter.remembers_of_check
          · rw [h.interval]
            norm_num
          · exact htaken haccepts
        · exact hkept q hq hle
    · exact ⟨(ReplayFilter.interval_check ..).trans h.interval, h.ordered, hkept⟩

theorem Inbound.inv_of_run {now : K} {ps : List (Presentation K)} {i : Inbound K}
    (h : run (Inbound.step k) ps (Inbound.new now) = some i) : i.Inv := by
  have hreach := @reach_of_run _ _ _ (fun i i' => ∃ p, Inbound.step k i p = some i')
    (fun i p i' hstep => ⟨p, hstep⟩) ps _ _ h
  have hstart : (Inbound.new now).Inv := ⟨rfl, nofun, nofun⟩
  exact reach_closed (fun i hinv i' ⟨p, hstep⟩ => hinv.step hstep) hstart hreach

/-- The timestamp of a header is within 30 seconds of the clock it was compared with. -/
def InTolerance (k : Keys) (p : Presentation K) : Prop :=
  ∃ epoch, headerTimestamp k p.salt p.fixedChunk = some epoch ∧ |⌊p.headerTime⌋ - epoch| ≤ 30

/-- The salt is looked at no later than 30 seconds after the timestamp of the header. -/
def InTime (k : Keys) (p : Presentation K) : Prop :=
  ∃ epoch : ℤ, headerTimestamp k p.salt p.fixedChunk = some epoch ∧ p.filterTime ≤ epoch + 30

/-- The timestamp of the header is more than 30 whole seconds behind the clock it is compared
    with. -/
def Expired (k : Keys) (p : Presentation K) : Prop :=
  ∃ epoch, headerTimestamp k p.salt p.fixedChunk = some epoch ∧ epoch + 30 < ⌊p.headerTime⌋ ∧
    ⌊p.headerTime⌋ < epoch + 2 ^ 53

omit [IsStrictOrderedRing K] in
theorem accepts_of_expired (h : Expired k p) : accepts k p filter = false := by
  obtain ⟨epoch, hepoch, hlate, hnear⟩ := h
  rw [headerTimestamp] at hepoch
  unfold accepts initServerStream
  cases haead : k.newAEAD
      (k.deriveSessionSubKey k.psk (p.salt.take k.keySaltLength) k.keySaltLength) with
  | error err => rfl
  | ok aead =>
    cases hread : (readClientRequestHeaderWithFixed k.outOfRange ⌊p.headerTime⌋
        (StreamReader.new p.conn aead) p.fixedChunk).run with
    | none => simp only [hread]
    | some r =>
      cases r with
      | error err => simp only [hread]
      | ok request =>
        -- the timestamp that was compared is this one
        obtain ⟨plain, stamp, hplain, hstamp, hdiff⟩ := read_timestamp hread
        have hopen : aead (List.replicate 12 0) p.fixedChunk = some plain := hplain
        simp only [haead, Except.toOption, Option.bind_eq_bind, Option.bind_some, hopen, hstamp,
          Option.pure_def, Option.some.injEq] at hepoch
        subst hepoch
        exact absurd hdiff (not_le.mpr (lt_timestampDiff _ hlate hnear))

/-- After any run an accepted request is rejected when its salt and header are presented again
    and its salt is looked at in time, or its timestamp has expired. -/
theorem accepted_request_rejected (k : Keys) (now : K) (ps : List (Presentation K)) (i : Inbound K)
    (hrun : run (Inbound.step k) ps (Inbound.new now) = some i) (p : Presentation K)
    (hp : p ∈ i.accepted) (htolerance : InTolerance k p) (q : Presentation K)
    (hsame : q.salt = p.salt ∧ q.fixedChunk = p.fixedChunk) (hlater : i.clock ≤ q.filterTime)
    (htime : InTime k q ∨ Expired k q) : accepts k q i.saltFilter = false := by
  rcases htime with ⟨epoch', hepoch', hsoon⟩ | hexpired
  swap
  · exact accepts_of_expired hexpired
  have hinv := Inbound.inv_of_run hrun
  obtain ⟨epoch, hepoch, hwindow⟩ := htolerance
  rw [hsame.1, hsame.2, hepoch] at hepoch'
  obtain rfl := Option.some.inj hepoch'
  -- the salt was taken at most 60 seconds ago
  have hfloor : (epoch : K) ≤ (⌊p.headerTime⌋ : K) + 30 := by
    have := abs_le.mp hwindow
    have hle : epoch ≤ ⌊p.headerTime⌋ + 30 := by linarith
    exact_mod_cast hle
  have hwithin : q.filterTime ≤ p.filterTime + 60 := by
    have := Int.floor_le p.headerTime
    have := hinv.ordered p hp
    linarith
  have hremembers := hinv.remembers p hp (hlater.trans hwithin)
  have hcheck : (i.saltFilter.check q.filterTime q.salt).1 = false := by
    rw [hsame.1]
    apply hremembers.check_eq_false
    rw [hinv.interval]
    exact hwithin
  rcases initServerStream_cases k q i.saltFilter with ⟨-, hnot⟩ | ⟨-, htaken⟩
  · exact hnot
  · apply Bool.eq_false_iff.mpr
    intro haccepts
    rw [htaken haccepts] at hcheck
    nomatch hcheck

end Server

/-! ## A request that is accepted twice -/

/-- A server whose ciphers only add a tag. -/
def tagged : Keys where
  psk := []
  keySaltLength := 1
  deriveSessionSubKey _ _ _ := []
  newAEAD _ := .ok fun _ ciphertext => some (ciphertext.take (ciphertext.length - 16))
  outOfRange := 0

/-- A request with a salt and a timestamp, for port 80 of 1.1.1.1 with one byte of padding. -/
def requestAt (salt epoch : UInt8) (time : ℚ) : Presentation ℚ where
  salt := [salt]
  fixedChunk := [0, 0, 0, 0, 0, 0, 0, 0, epoch, 0, 10] ++ List.replicate 16 0
  conn := [1, 1, 1, 1, 1, 0, 80, 0, 1, 0] ++ List.replicate 16 0
  headerTime := time
  filterTime := time
  deadlineErr := none

theorem accepted_request_rejected_after_ten_seconds :
    ∃ i, run (Inbound.step tagged) [requestAt 1 130 100] (Inbound.new (40 : ℚ)) = some i ∧
      requestAt 1 130 100 ∈ i.accepted ∧
        accepts tagged (requestAt 1 130 110) i.saltFilter = false := by
  have hrun : (run (Inbound.step tagged) [requestAt 1 130 100] (Inbound.new (40 : ℚ))).map
      (fun i => (i.accepted, i.clock)) = some ([requestAt 1 130 100], 100) := by decide +kernel
  obtain ⟨i, hi, hends⟩ := Option.map_eq_some_iff.mp hrun
  obtain ⟨haccepted, hclock⟩ := Prod.mk.inj hends
  have hmem : requestAt 1 130 100 ∈ i.accepted := by
    rw [haccepted]
    exact List.mem_singleton_self _
  have hstamp : headerTimestamp tagged (requestAt 1 130 100).salt (requestAt 1 130 100).fixedChunk =
      some 130 := by decide
  refine ⟨i, hi, hmem, accepted_request_rejected tagged 40 _ i hi _ hmem ⟨130, hstamp, ?_⟩ _
    ⟨rfl, rfl⟩ ?_ (.inl ⟨130, hstamp, ?_⟩)⟩
  · decide
  · rw [hclock]
    decide
  · decide +kernel

/-- The filter starts at 40.05; a request comes at 100 with a timestamp 30 seconds ahead, another
    at 100.1, and the first again at 160.5, when its timestamp is 30 whole seconds behind. -/
theorem request_accepted_twice :
    (run (Inbound.step tagged) [requestAt 1 130 100, requestAt 2 130 (1001 / 10),
      requestAt 1 130 (321 / 2)] (Inbound.new (801 / 20 : ℚ))).map
        (fun i => i.accepted.map fun p => (p.salt, p.filterTime)) =
      some [([1], 321 / 2), ([2], 1001 / 10), ([1], 100)] := by
  decide +kernel

end XrayCore.Shadowsocks2022
