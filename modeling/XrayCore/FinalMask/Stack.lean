/-
  XrayCore.FinalMask.Stack

  A stack of masks on a packet connection, `headerManagerConn`.

  `WriteTo` puts the payload behind the room for all headers and lets the layers work from the
  last to the first, with one running sum of the room that is left; `ReadFrom` lets them work
  from the first to the last on ever smaller slices. `encodeLayers` is what the layers make of a
  payload, whatever the arrays are.

  What an array has no room for is written to a copy and lost. A `WriteTo` that would need more
  than its array panics at the next slice; an original mask that cannot fill its last word on
  the way in leaves the packet as it was, checks the copy, and accepts.
-/

import XrayCore.FinalMask.Layer

namespace XrayCore.FinalMask

open Bytes Option Layer

/-- `UDPSize`. -/
def UDPSize : ℕ := 4096

/-- The room for all headers. -/
def headers (layers : List Layer) : ℕ := (layers.map Layer.size).sum

/-- What all layers add to the tail. -/
def tags (layers : List Layer) : ℕ := (layers.map Layer.overhead).sum

@[simp] theorem headers_nil : headers [] = 0 := rfl

@[simp] theorem headers_cons (l : Layer) (rest : List Layer) :
    headers (l :: rest) = l.size + headers rest := rfl

@[simp] theorem tags_nil : tags [] = 0 := rfl

@[simp] theorem tags_cons (l : Layer) (rest : List Layer) :
    tags (l :: rest) = l.overhead + tags rest := rfl

theorem tags_tail_le (layers : List Layer) : tags layers.tail ≤ tags layers := by
  cases layers with
  | nil => exact Nat.le_refl 0
  | cons l rest => exact Nat.le_add_left (tags rest) l.overhead

/-! ## Writing -/

/-- The variables of the loop of `WriteTo`: the room that is left, what was written behind it, and
    the array. -/
structure Flight where
  sum : ℕ
  n : ℕ
  mem : Bytes

variable (c : MaskCiphers)

/-- One turn of the loop of `WriteTo`. -/
def writeLayer (l : Layer) (draw : Draw) (f : Flight) : Flight × Layer :=
  let (n, mem, l') := l.writeTo c draw f.mem (f.sum - l.size) (f.n + l.size)
  (⟨f.sum - l.size, n, mem⟩, l')

/-- The loop of `WriteTo`, from the last layer to the first; `none` where it slices too far. -/
def writeLayers : List Layer → (ℕ → Draw) → Flight → Option (Flight × List Layer)
  | [], _, f => some (f, [])
  | l :: rest, draws, f =>
    match writeLayers rest (fun i => draws (i + 1)) f with
    | none => none
    | some (f, rest) =>
      if f.sum + f.n > f.mem.length then none
      else some ((writeLayer c l (draws 0) f).1, (writeLayer c l (draws 0) f).2 :: rest)

/-- `WriteTo`, on a pooled buffer: the datagram it sends, if any, and the layers after it; `none`
    where it panics. -/
def writeTo (layers : List Layer) (draws : ℕ → Draw) (pool : Vector UInt8 8192) (p : Bytes) :
    Option (Option Bytes × List Layer) :=
  if headers layers + p.length > UDPSize then some (none, layers)
  else
    match writeLayers c layers draws
      ⟨headers layers, p.length, blit pool.toList (headers layers) p⟩ with
    | none => none
    | some (f, layers) =>
      if f.n > UDPSize then some (none, layers) else some (some (sub f.mem 0 f.n), layers)

/-! ## Reading -/

/-- The loop of `ReadFrom` over the layers: where what is left starts and how long it is, or the
    error of a layer; `none` where it slices too far. -/
def readLayers : List Layer → Bytes → ℕ → ℕ → Option (Except String (ℕ × ℕ × Bytes))
  | [], mem, start, len => some (.ok (start, len, mem))
  | l :: rest, mem, start, len =>
    match l.readFrom c mem start len with
    | none => none
    | some (.error e) => some (.error e)
    | some (.ok (n, mem)) =>
      if start + l.size + n > mem.length then none
      else readLayers rest mem (start + l.size) n

/-- The slice that `ReadFrom` is given, of an array that may go on behind it. -/
structure Target where
  array : Bytes
  len : ℕ
  hlen : len ≤ array.length

/-- `ReadFrom` takes its own buffer if it is given too little. -/
def Target.own (p : Target) : Bool := p.len < UDPSize

/-- The array that the layers work in. -/
def Target.work (p : Target) (pool : Vector UInt8 8192) : Bytes :=
  if p.own then pool.toList else p.array

/-- The capacity of that array. -/
def Target.capacity (p : Target) : ℕ := if p.own then 8192 else p.array.length

/-- The turn of the loop of `ReadFrom` that a datagram arrives in: what it returns, `some none`
    where it drops the datagram and waits for the next, `none` where it panics. -/
def readFrom (layers : List Layer) (p : Target) (pool : Vector UInt8 8192)
    (datagram : Bytes) : Option (Option Bytes) :=
  let packet := datagram.take (if p.own then UDPSize else p.len)
  if packet.length < headers layers then some none
  else
    match readLayers c layers (blit (p.work pool) 0 packet) 0 packet.length with
    | none => none
    | some (.error _) => some none
    | some (.ok (start, len, mem)) => some (some ((sub mem start len).take p.len))

/-! ## What the layers make of a payload -/

def encodeLayers : List Layer → (ℕ → Draw) → Bytes → Bytes
  | [], _, payload => payload
  | l :: rest, draws, payload =>
    l.encode c (draws 0) (encodeLayers rest (fun i => draws (i + 1)) payload)

variable {c}

theorem length_encodeLayers (hc : c.Lawful) (layers : List Layer) (draws : ℕ → Draw)
    (payload : Bytes) :
    (encodeLayers c layers draws payload).length
      = headers layers + payload.length + tags layers := by
  induction layers generalizing draws with
  | nil => simp [encodeLayers]
  | cons l rest ih =>
    rw [encodeLayers, length_encode hc, ih, headers_cons, tags_cons]
    omega

/-- With room for every slice the loop of `WriteTo` ends, and has counted headers and tags. -/
theorem writeLayers_some (hc : c.Lawful) (layers : List Layer) (draws : ℕ → Draw) (f : Flight)
    (hsum : headers layers ≤ f.sum) (hroom : f.sum + f.n + tags layers.tail ≤ f.mem.length) :
    ∃ f' layers', writeLayers c layers draws f = some (f', layers') ∧
      f'.sum = f.sum - headers layers ∧ f'.n = headers layers + f.n + tags layers ∧
      f'.mem.length = f.mem.length := by
  induction layers generalizing draws with
  | nil => exact ⟨f, [], rfl, by simp, by simp, rfl⟩
  | cons l rest ih =>
    simp only [headers_cons, List.tail_cons] at hsum hroom
    have htail := tags_tail_le rest
    obtain ⟨f₁, rest', hrest, hsum₁, hn₁, hmem₁⟩ :=
      ih (fun i => draws (i + 1)) (by omega) (by omega)
    refine ⟨(writeLayer c l (draws 0) f₁).1, (writeLayer c l (draws 0) f₁).2 :: rest', ?_, ?_,
      ?_, ?_⟩
    · simp only [writeLayers, hrest]
      rw [if_neg (by omega)]
    · simp only [writeLayer, headers_cons]
      omega
    · simp only [writeLayer, headers_cons, tags_cons, writeTo_fst]
      omega
    · rw [← hmem₁]
      exact length_writeTo hc l _ (by omega) (by omega)

/-- Without it the loop panics. -/
theorem writeLayers_none (hc : c.Lawful) (layers : List Layer) (draws : ℕ → Draw) (f : Flight)
    (hsum : headers layers ≤ f.sum) (hfits : f.sum + f.n ≤ f.mem.length)
    (hroom : f.mem.length < f.sum + f.n + tags layers.tail) :
    writeLayers c layers draws f = none := by
  induction layers generalizing draws with
  | nil =>
    simp only [List.tail_nil, tags_nil] at hroom
    omega
  | cons l rest ih =>
    simp only [headers_cons, List.tail_cons] at hsum hroom
    rcases Nat.lt_or_ge f.mem.length (f.sum + f.n + tags rest.tail) with hrest | hrest
    · rw [writeLayers, ih _ (by omega) hrest]
    · obtain ⟨f₁, rest', hsome, hsum₁, hn₁, hmem₁⟩ :=
        writeLayers_some hc rest (fun i => draws (i + 1)) f (by omega) hrest
      simp only [writeLayers, hsome]
      rw [if_pos (by omega)]

variable {layers : List Layer} {payload : Bytes} {draws : ℕ → Draw}

/-- The loop of `WriteTo` puts into the array what the layers make of the payload. -/
theorem writeLayers_encode (hc : c.Lawful) {layers' : List Layer} {f f' : Flight}
    (hrun : writeLayers c layers draws f = some (f', layers')) (hn : f.n = payload.length)
    (hpayload : sub f.mem f.sum payload.length = payload) (hsum : headers layers ≤ f.sum)
    (hroom : f.sum + f.n + tags layers + 3 ≤ f.mem.length) :
    sub f'.mem f'.sum (encodeLayers c layers draws payload).length
      = encodeLayers c layers draws payload := by
  induction layers generalizing draws f' layers' with
  | nil =>
    obtain ⟨rfl, rfl⟩ := Prod.mk.inj (some.inj hrun)
    exact hpayload
  | cons l rest ih =>
    simp only [headers_cons, tags_cons] at hsum hroom
    have htail := tags_tail_le rest
    obtain ⟨f₁, rest', hrest, hsum₁, hn₁, hmem₁⟩ :=
      writeLayers_some hc rest (fun i => draws (i + 1)) f (by omega) (by omega)
    have hinner := ih hrest (by omega) (by omega)
    have hlength := length_encodeLayers hc rest (fun i => draws (i + 1)) payload
    simp only [writeLayers, hrest] at hrun
    rw [if_neg (by omega)] at hrun
    obtain ⟨rfl, -⟩ := Prod.mk.inj (some.inj hrun)
    -- the slice of the layer is its header and what the layers behind it wrote
    have hslice : f₁.n = (encodeLayers c rest (fun i => draws (i + 1)) payload).length := by omega
    have hstart : f₁.sum - l.size + l.size = f₁.sum := by omega
    rw [encodeLayers, writeLayer]
    dsimp only
    rw [hslice]
    apply writeTo_encode hc l (draws 0)
    · rw [hstart]
      exact hinner
    · omega

variable {peer : List Layer}

/-- The stack after a `WriteTo` is the same up to its counters. -/
theorem writeLayers_matches {layers' : List Layer} {f f' : Flight}
    (hrun : writeLayers c layers draws f = some (f', layers'))
    (hpeer : List.Forall₂ Layer.Matches layers peer) : List.Forall₂ Layer.Matches layers' peer := by
  induction hpeer generalizing draws f' layers' with
  | nil =>
    obtain ⟨-, rfl⟩ := Prod.mk.inj (some.inj hrun)
    exact .nil
  | @cons l l' rest rest' hl _ ih =>
    rw [writeLayers] at hrun
    split at hrun
    · cases hrun
    · next f₁ rest₁ hrest =>
      split at hrun
      · cases hrun
      · obtain ⟨-, rfl⟩ := Prod.mk.inj (some.inj hrun)
        exact .cons (writeTo_matches hl ..) (ih hrest)

/-! ## What a peer finds -/

/-- The array has room for all that `ReadFrom` appends on a packet that starts at a place in it. -/
def Opens (capacity : ℕ) : List Layer → ℕ → ℕ → Prop
  | [], _, _ => True
  | l :: rest, start, len => start + len + l.fillsTo len ≤ capacity ∧
    Opens capacity rest (start + l.size) (len - l.size - l.overhead)

instance decidableOpens (capacity : ℕ) :
    (layers : List Layer) → (start len : ℕ) → Decidable (Opens capacity layers start len)
  | [], _, _ => isTrue trivial
  | l :: rest, start, len =>
    have := decidableOpens capacity rest (start + l.size) (len - l.size - l.overhead)
    inferInstanceAs (Decidable (_ ∧ _))

/-- The loop of `ReadFrom` of a peer ends with the payload. -/
theorem readLayers_encode (hc : c.Lawful) (hpeer : List.Forall₂ Layer.Matches layers peer)
    {mem : Bytes} {start : ℕ}
    (hpacket : sub mem start (encodeLayers c layers draws payload).length
      = encodeLayers c layers draws payload)
    (hshort : (encodeLayers c layers draws payload).length < 65536)
    (hopens : Opens mem.length layers start (encodeLayers c layers draws payload).length) :
    ∃ mem', readLayers c peer mem start (encodeLayers c layers draws payload).length
        = some (.ok (start + headers layers, payload.length, mem')) ∧
      sub mem' (start + headers layers) payload.length = payload := by
  induction hpeer generalizing draws mem start with
  | nil => exact ⟨mem, rfl, hpacket⟩
  | @cons l l' rest rest' hl _ ih =>
    obtain ⟨hsize, hoverhead, hfills⟩ := matches_size hl
    obtain ⟨hroom, hopens⟩ := hopens
    simp only [encodeLayers] at hpacket hshort hroom hopens ⊢
    generalize hinner : encodeLayers c rest (fun i => draws (i + 1)) payload = inner at *
    have hlength := length_encode hc l (draws 0) inner
    obtain ⟨mem₁, hread, hmem₁, hsub⟩ := readFrom_decode hpacket
      (decode_encode hc hl (draws 0) (by omega)) (by omega) (by rw [← hfills]; exact hroom)
    have hleft : (l.encode c (draws 0) inner).length - l.size - l.overhead = inner.length := by
      omega
    rw [hleft, ← hmem₁, ← hinner] at hopens
    rw [← hsize, ← hinner] at hsub
    obtain ⟨mem₂, hrest, hpayload⟩ := ih hsub (by rw [hinner]; omega) hopens
    refine ⟨mem₂, ?_, ?_⟩
    · simp only [readLayers, hread]
      rw [if_neg (by omega), ← hsize, ← hinner, hrest, headers_cons, Nat.add_assoc]
    · rw [headers_cons, ← Nat.add_assoc]
      exact hpayload

theorem headers_matches (hpeer : List.Forall₂ Layer.Matches layers peer) :
    headers layers = headers peer := by
  induction hpeer with
  | nil => rfl
  | cons hl _ ih => rw [headers_cons, headers_cons, (matches_size hl).1, ih]

/-- `ReadFrom` can take back a payload: it is given enough bytes for it, and every layer finds the
    room it fills. -/
def Target.Fits (p : Target) (layers : List Layer) (payload : Bytes) : Prop :=
  payload.length ≤ p.len ∧
    Opens p.capacity layers 0 (headers layers + payload.length + tags layers)

instance (p : Target) (layers : List Layer) (payload : Bytes) :
    Decidable (p.Fits layers payload) := inferInstanceAs (Decidable (_ ∧ _))

theorem Target.length_work (p : Target) (pool : Vector UInt8 8192) :
    (p.work pool).length = p.capacity := by
  unfold Target.work Target.capacity
  split
  · exact Vector.length_toList
  · rfl

/-- A datagram of at most `UDPSize` bytes is read whole, and fits the array. -/
theorem Target.takes (p : Target) :
    UDPSize ≤ (if p.own then UDPSize else p.len) ∧ UDPSize ≤ p.capacity := by
  have hlen := p.hlen
  unfold Target.capacity Target.own UDPSize
  rcases Nat.lt_or_ge p.len 4096 with hown | hown
  · simp [hown]
  · simp only [decide_eq_true_eq, if_neg (Nat.not_lt.mpr hown)]
    omega

theorem readFrom_encode (hc : c.Lawful) (hpeer : List.Forall₂ Layer.Matches layers peer)
    (hshort : (encodeLayers c layers draws payload).length ≤ UDPSize) {p : Target}
    (hfits : p.Fits layers payload) (pool : Vector UInt8 8192) :
    readFrom c peer p pool (encodeLayers c layers draws payload) = some (some payload) := by
  have hlength := length_encodeLayers hc layers draws payload
  obtain ⟨htakes, hcapacity⟩ := p.takes
  have hroom : 0 + (encodeLayers c layers draws payload).length ≤ (p.work pool).length := by
    rw [p.length_work pool]
    omega
  have hmem : (blit (p.work pool) 0 (encodeLayers c layers draws payload)).length = p.capacity :=
    (length_blit hroom).trans (p.length_work pool)
  obtain ⟨mem', hread, hpayload⟩ := readLayers_encode hc hpeer (sub_blit hroom)
    (Nat.lt_of_le_of_lt hshort (by decide)) (by rw [hmem, hlength]; exact hfits.2)
  unfold readFrom
  dsimp only
  rw [List.take_of_length_le (by omega), if_neg (by rw [← headers_matches hpeer]; omega), hread]
  dsimp only
  rw [hpayload, List.take_of_length_le hfits.1]

/-! ## What `WriteTo` does -/

/-- The three ways of a `WriteTo`: it drops a payload that does not fit with the headers, it panics
    where tags do not fit the buffer, or it has what the layers make of the payload, and sends it
    if that fits a datagram. -/
theorem writeTo_cases (hc : c.Lawful) (hpeer : List.Forall₂ Layer.Matches layers peer)
    (draws : ℕ → Draw) (pool : Vector UInt8 8192) (payload : Bytes) :
    (UDPSize < headers layers + payload.length ∧
      writeTo c layers draws pool payload = some (none, layers)) ∨
    (headers layers + payload.length ≤ UDPSize ∧
      8192 < headers layers + payload.length + tags layers.tail ∧
      writeTo c layers draws pool payload = none) ∨
    (headers layers + payload.length ≤ UDPSize ∧
      headers layers + payload.length + tags layers.tail ≤ 8192 ∧
      ∃ layers', List.Forall₂ Layer.Matches layers' peer ∧
        writeTo c layers draws pool payload =
          some (if headers layers + payload.length + tags layers ≤ UDPSize
            then some (encodeLayers c layers draws payload) else none, layers')) := by
  rcases Nat.lt_or_ge UDPSize (headers layers + payload.length) with hlong | hshort
  · exact .inl ⟨hlong, if_pos hlong⟩
  refine .inr ?_
  have hpool : pool.toList.length = 8192 := Vector.length_toList
  have hfits : headers layers + payload.length ≤ pool.toList.length := by
    rw [hpool]
    exact Nat.le_trans hshort (by decide)
  have hmem : (blit pool.toList (headers layers) payload).length = 8192 :=
    (length_blit hfits).trans hpool
  have hpayload := sub_blit hfits
  unfold writeTo
  rw [if_neg (Nat.not_lt.mpr hshort)]
  generalize blit pool.toList (headers layers) payload = mem at hmem hpayload ⊢
  rw [hpool] at hfits
  rcases Nat.lt_or_ge 8192 (headers layers + payload.length + tags layers.tail) with hover | hroom
  · refine .inl ⟨hshort, hover, ?_⟩
    rw [writeLayers_none hc layers draws _ (Nat.le_refl _) (hmem ▸ hfits) (hmem ▸ hover)]
  obtain ⟨f, layers', hrun, hsum, hn, -⟩ :=
    writeLayers_some hc layers draws ⟨headers layers, payload.length, mem⟩ (Nat.le_refl _)
      (hmem ▸ hroom)
  refine .inr ⟨hshort, hroom, layers', writeLayers_matches hrun hpeer, ?_⟩
  rw [hrun]
  dsimp only at hsum hn ⊢
  rcases Nat.lt_or_ge UDPSize (headers layers + payload.length + tags layers) with hbig | hsmall
  · rw [if_pos (by omega), if_neg (by omega)]
  · have hencode := writeLayers_encode hc hrun rfl hpayload (Nat.le_refl _) (by
      dsimp only
      simp only [UDPSize] at hsmall
      omega)
    rw [length_encodeLayers hc, ← hn, hsum, Nat.sub_self] at hencode
    rw [if_neg (by omega), if_pos hsmall, hencode]

/-- What `WriteTo` does with a payload, and a peer with what it sent.

    It panics exactly if headers and payload are at most `UDPSize` bytes and the tags behind the
    first layer do not fit the pooled buffer with them; else it sends exactly if headers, payload
    and tags are at most `UDPSize` bytes, one datagram of that many bytes, and its counters stay
    those of a peer. Where the array of the peer has the room that its layers fill, `ReadFrom`
    returns the payload. -/
theorem mask_stack_inverts (hc : c.Lawful) {layers peer : List Layer}
    (hpeer : List.Forall₂ Layer.Matches layers peer) (draws : ℕ → Draw)
    (pool : Vector UInt8 8192) (payload : Bytes) :
    (writeTo c layers draws pool payload = none ↔ headers layers + payload.length ≤ UDPSize ∧
      8192 < headers layers + payload.length + tags layers.tail) ∧
    ∀ sent layers', writeTo c layers draws pool payload = some (sent, layers') →
      List.Forall₂ Layer.Matches layers' peer ∧
      (sent.isSome ↔ headers layers + payload.length + tags layers ≤ UDPSize) ∧
      ∀ datagram, sent = some datagram →
        datagram.length ≤ UDPSize ∧
        ∀ (p : Target) (pool' : Vector UInt8 8192), p.Fits layers payload →
          readFrom c peer p pool' datagram = some (some payload) := by
  have hlength := length_encodeLayers hc layers draws payload
  obtain ⟨hlong, hwrite⟩ | ⟨hshort, hover, hwrite⟩ | ⟨hshort, hroom, after, hafter, hwrite⟩ :=
    writeTo_cases hc hpeer draws pool payload
  · rw [hwrite]
    refine ⟨iff_of_false nofun (by omega), fun sent layers' hsent => ?_⟩
    obtain ⟨rfl, rfl⟩ := Prod.mk.inj (some.inj hsent)
    exact ⟨hpeer, iff_of_false nofun (by omega), nofun⟩
  · rw [hwrite]
    exact ⟨iff_of_true rfl ⟨hshort, hover⟩, nofun⟩
  · rw [hwrite]
    refine ⟨iff_of_false nofun (by omega), fun sent layers' hsent => ?_⟩
    obtain ⟨rfl, rfl⟩ := Prod.mk.inj (some.inj hsent)
    refine ⟨hafter, ?_, fun datagram hdatagram => ?_⟩
    · split
      · next hsmall => exact iff_of_true rfl hsmall
      · next hbig => exact iff_of_false nofun hbig
    · split at hdatagram
      · next hsmall =>
        obtain rfl := some.inj hdatagram
        have hsize : (encodeLayers c layers draws payload).length ≤ UDPSize := by omega
        exact ⟨hsize, fun p pool' hfits => readFrom_encode hc hpeer hsize hfits pool'⟩
      · cases hdatagram

/-- Ciphers that hide nothing: a tag of zeros, and the salt as key. -/
def plainCiphers : MaskCiphers where
  aeadSeal _ _ plain := plain ++ List.replicate 16 0
  aeadOpen _ _ ciphertext := some (ciphertext.take (ciphertext.length - 16))
  salamanderKey _ salt := salt

theorem plainCiphers_lawful : plainCiphers.Lawful where
  hopen _ _ plain := by simp [plainCiphers]
  hlength _ _ plain := by simp [plainCiphers]

def zeroDraw : Draw := ⟨Vector.replicate 12 0, Vector.replicate 8 0, 0⟩

/-- A slice of `UDPSize` bytes with nothing behind it. -/
def page : Target := ⟨List.replicate 4096 0, 4096, Nat.le_of_eq List.length_replicate.symm⟩

/-- One layer of each kind. -/
def fourLayers : List Layer := [.header (.dtls 0 17 0), .salamander [7], .original, .aes128gcm [9]]

theorem fourLayers_match : List.Forall₂ Layer.Matches fourLayers fourLayers :=
  .cons rfl (.cons rfl (.cons trivial (.cons rfl .nil)))

theorem mask_stack_inverts_four_layers :
    ∃ datagram layers',
      writeTo plainCiphers fourLayers (fun _ => zeroDraw) (Vector.replicate 8192 0) [1, 2, 3]
        = some (some datagram, layers') ∧
      readFrom plainCiphers fourLayers page (Vector.replicate 8192 0) datagram
        = some (some [1, 2, 3]) := by
  obtain ⟨hpanic, hsends⟩ := mask_stack_inverts plainCiphers_lawful fourLayers_match
    (fun _ => zeroDraw) (Vector.replicate 8192 0) [1, 2, 3]
  cases hwrite : writeTo plainCiphers fourLayers (fun _ => zeroDraw) (Vector.replicate 8192 0)
      [1, 2, 3] with
  | none => exact absurd (hpanic.mp hwrite) (by decide)
  | some result =>
    obtain ⟨sent, layers'⟩ := result
    obtain ⟨-, hsome, hread⟩ := hsends sent layers' hwrite
    obtain ⟨datagram, rfl⟩ := isSome_iff_exists.mp (hsome.mpr (by decide))
    exact ⟨datagram, layers', rfl, (hread datagram rfl).2 page _ (by decide +kernel)⟩

/-- A DTLS header in front of the original mask. -/
def dtlsOriginal : List Layer := [.header (.dtls 0 17 0), .original]

/-- A full datagram ends where the slice ends, so that the original mask fills its last word in a
    copy: `ReadFrom` accepts it and returns bytes that are masked still. -/
theorem full_page_stays_masked :
    ∃ datagram layers',
      writeTo plainCiphers dtlsOriginal (fun _ => zeroDraw) (Vector.replicate 8192 0)
        (List.replicate 4077 0) = some (some datagram, layers') ∧
      datagram.length = 4096 ∧
      ∃ returned, readFrom plainCiphers dtlsOriginal page (Vector.replicate 8192 0) datagram
        = some (some returned) ∧ returned ≠ List.replicate 4077 0 := by
  have hmatch : List.Forall₂ Layer.Matches dtlsOriginal dtlsOriginal :=
    .cons rfl (.cons trivial .nil)
  have hlength : (List.replicate 4077 (0 : UInt8)).length = 4077 := List.length_replicate
  -- the bytes are masked by the hash in front of them
  have hread : (readFrom plainCiphers dtlsOriginal page (Vector.replicate 8192 0)
      (encodeLayers plainCiphers dtlsOriginal (fun _ => zeroDraw) (List.replicate 4077 0))).map
      (Option.map (·.head?)) = some (some (some 54)) := by decide +kernel
  obtain ⟨hlong, -⟩ | ⟨-, hover, -⟩ | ⟨-, -, layers', -, hwrite⟩ :=
    writeTo_cases plainCiphers_lawful hmatch (fun _ => zeroDraw) (Vector.replicate 8192 0)
      (List.replicate 4077 0)
  · rw [hlength] at hlong
    exact absurd hlong (by decide)
  · rw [hlength] at hover
    exact absurd hover (by decide)
  rw [hlength, if_pos (by decide)] at hwrite
  refine ⟨_, layers', hwrite, ?_, ?_⟩
  · rw [length_encodeLayers plainCiphers_lawful, hlength]
    rfl
  · obtain ⟨turn, hturn, hhead⟩ := map_eq_some_iff.mp hread
    obtain ⟨returned, rfl, hfirst⟩ := Option.map_eq_some_iff.mp hhead
    refine ⟨returned, hturn, ?_⟩
    rintro rfl
    cases hfirst

end XrayCore.FinalMask
