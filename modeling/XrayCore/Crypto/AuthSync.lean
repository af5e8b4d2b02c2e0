/-
  XrayCore.Crypto.AuthSync

  The reader of sealed chunks gives what the writer was given.

  The writer and the reader move the states of their links by themselves.  They stay
  together as long as each chunk makes both do the same steps in the same order:
  padding, size, text (`Lawful`, `Sealed`).  What a reader still has to give is kept
  over its calls, also when it stops between a size and its chunk (`Holds`).
-/

import XrayCore.Crypto.Auth

namespace XrayCore.Crypto

open Buf List

variable {σ : Type}

/-! ## Links whose two sides agree -/

/-- From the same state, one side reads what the other wrote, and both move on alike. -/
structure Lawful (l : Link σ) : Prop where
  sizeBytes_pos : 0 < l.sizeBytes
  paddingLen_le : ∀ s, (l.paddingLen s).1 ≤ l.maxPadding
  length_encodeSize : ∀ s n, (l.encodeSize s n).1.length = l.sizeBytes
  decodeSize_encodeSize : ∀ s n, l.overhead ≤ n → n < 65536 →
    l.decodeSize s (l.encodeSize s n).1 = (.ok n, (l.encodeSize s n).2)
  openText_sealText : ∀ s x, ∃ text s', l.sealText s x = (.ok text, s') ∧
    text.length = x.length + l.overhead ∧ l.openText s text = (.ok x, s')

/-- The text and the padding of a chunk, as a reader in state `s` opens it. -/
structure Body (l : Link σ) (s : σ) (payload : Bytes) (pad : ℕ) (bytes : Bytes)
    (s' : σ) : Prop where
  split : ∃ text padding, bytes = text ++ padding ∧ text.length = payload.length + l.overhead ∧
    padding.length = pad ∧ l.openText s text = (.ok payload, s')
  le_size : payload.length + l.overhead + pad ≤ size

/-- A chunk as the writer seals it in state `s`. -/
def Sealed (l : Link σ) (s : σ) (payload bytes : Bytes) (s' : σ) : Prop :=
  let pad := l.paddingLen s
  let head := l.encodeSize pad.2 (payload.length + l.overhead + pad.1)
  ∃ body, bytes = head.1 ++ body ∧ Body l head.2 payload pad.1 body s'

theorem Body.length_eq {l : Link σ} {s s' : σ} {payload bytes : Bytes} {pad : ℕ}
    (h : Body l s payload pad bytes s') : bytes.length = payload.length + l.overhead + pad := by
  obtain ⟨text, padding, rfl, htext, hpadding, -⟩ := h.split
  rw [length_append, htext, hpadding]

/-- Its size has two bytes. -/
theorem Body.size_lt {l : Link σ} {s s' : σ} {payload bytes : Bytes} {pad : ℕ}
    (h : Body l s payload pad bytes s') : payload.length + l.overhead + pad < 65536 := by
  have hle := h.le_size
  rw [size] at hle
  omega

namespace AuthenticationWriter

variable {l : Link σ}

/-- A chunk that fits the buffer is sealed. -/
theorem sealChunk_spec (hl : Lawful l) (w : AuthenticationWriter σ) (b : Bytes)
    (h : l.sizeBytes + (b.length + l.overhead) + (l.paddingLen w.state).1 ≤ size) :
    ∃ bytes w', sealChunk l w b = (.ok bytes, w') ∧ Sealed l w.state b bytes w'.state := by
  have hmod : (b.length + l.overhead + (l.paddingLen w.state).1) % 65536 =
      b.length + l.overhead + (l.paddingLen w.state).1 := by
    rw [size] at h
    exact Nat.mod_eq_of_lt (by omega)
  obtain ⟨text, s', hseal, hlen, hopen⟩ := hl.openText_sealText (l.encodeSize
    (l.paddingLen w.state).2 (b.length + l.overhead + (l.paddingLen w.state).1)).2 b
  refine ⟨_, ⟨s', fun i => w.random ((l.paddingLen w.state).1 + i)⟩, ?_, _,
    append_assoc _ _ _, ⟨_, w.randomBytes (l.paddingLen w.state).1, rfl, hlen, ?_, hopen⟩, ?_⟩
  · simp only [sealChunk]
    rw [if_neg (Nat.not_lt.mpr h), hmod, hseal]
  · rw [randomBytes, length_map, length_range]
  · omega

/-- A chunk that does not fit takes a padding length and nothing else. -/
theorem sealChunk_too_large (w : AuthenticationWriter σ) (b : Bytes)
    (h : size < l.sizeBytes + (b.length + l.overhead) + (l.paddingLen w.state).1) :
    sealChunk l w b =
      (.error (errTooLarge (l.sizeBytes + (b.length + l.overhead) + (l.paddingLen w.state).1)),
        { w with state := (l.paddingLen w.state).2 }) := by
  simp only [sealChunk]
  rw [if_pos h]

end AuthenticationWriter

/-! ## What a reader still has to give -/

/-- Chunks with these payloads, up to the end of the bytes or to an empty chunk. -/
inductive Wire (l : Link σ) : σ → List Bytes → Bytes → Prop
  | nil (s : σ) : Wire l s [] []
  | ended {s s' : σ} {bytes : Bytes} (more : Bytes) (h : Sealed l s [] bytes s') :
    Wire l s [] (bytes ++ more)
  | cons {s s' : σ} {payload bytes more : Bytes} {payloads : List Bytes}
    (hne : payload ≠ []) (h : Sealed l s payload bytes s') (hmore : Wire l s' payloads more) :
    Wire l s (payload :: payloads) (bytes ++ more)

/-- The reader is to give these payloads and then the end. -/
inductive Holds (l : Link σ) (r : AuthenticationReader σ) : List Bytes → Prop
  | ready {payloads : List Bytes} (hsize : r.hasSize = false) (hdone : r.done = false)
    (h : Wire l r.state payloads r.reader.available) : Holds l r payloads
  /-- the size of the next chunk was read by a call before -/
  | sized {s' : σ} {payload bytes more : Bytes} {payloads : List Bytes}
    (hsize : r.hasSize = true) (hdone : r.done = false) (hne : payload ≠ [])
    (hn : r.size = payload.length + l.overhead + r.paddingLen)
    (hbody : Body l r.state payload r.paddingLen bytes s')
    (havailable : r.reader.available = bytes ++ more) (hmore : Wire l s' payloads more) :
    Holds l r (payload :: payloads)
  | finished (hdone : r.done = true) : Holds l r []

namespace AuthenticationReader

variable {l : Link σ} {r : AuthenticationReader σ}

variable {payload : Bytes}

/-- The size in front of a chunk. -/
theorem readSize_sealed (hl : Lawful l) {bytes more : Bytes} {s' : σ}
    (hsize : r.hasSize = false) (h : Sealed l r.state payload bytes s')
    (havailable : r.reader.available = bytes ++ more) :
    ∃ (r' : AuthenticationReader σ) (pad : ℕ) (body : Bytes),
      readSize l r = (.ok (payload.length + l.overhead + pad, pad), r') ∧
      r'.hasSize = false ∧ r'.done = r.done ∧ Body l r'.state payload pad body s' ∧
      r'.reader.available = body ++ more := by
  obtain ⟨body, rfl, hbody⟩ := h
  have hlen := hl.length_encodeSize (l.paddingLen r.state).2
    (payload.length + l.overhead + (l.paddingLen r.state).1)
  rw [append_assoc] at havailable
  obtain ⟨reader, hread, hrest⟩ : ∃ reader, r.reader.readFull l.sizeBytes =
      (.ok (r.reader.available.take l.sizeBytes), reader) ∧
      reader.available = r.reader.available.drop l.sizeBytes := by
    apply BufferedReader.readFull_available
    rw [havailable, length_append, hlen]
    omega
  rw [havailable, take_left' hlen] at hread
  rw [havailable, drop_left' hlen] at hrest
  have hdecode := hl.decodeSize_encodeSize (l.paddingLen r.state).2
    (payload.length + l.overhead + (l.paddingLen r.state).1) (by omega) hbody.size_lt
  refine ⟨{ r with reader := reader, state := _ }, (l.paddingLen r.state).1, body, ?_, hsize, rfl,
    hbody, hrest⟩
  rw [readSize, hsize, if_neg Bool.false_ne_true, hread]
  simp only [hdecode]

variable {payloads : List Bytes}

/-- The size of the next chunk, whether it was read before or not. -/
theorem readSize_holds (hl : Lawful l) (h : Holds l r (payload :: payloads)) :
    ∃ (r' : AuthenticationReader σ) (pad : ℕ) (body more : Bytes) (s' : σ),
      readSize l r = (.ok (payload.length + l.overhead + pad, pad), r') ∧
      r.done = false ∧ payload ≠ [] ∧ r'.hasSize = false ∧ r'.done = false ∧
      Body l r'.state payload pad body s' ∧ r'.reader.available = body ++ more ∧
      Wire l s' payloads more := by
  cases h with
  | ready hsize hdone h =>
    generalize hbytes : r.reader.available = bytes at h
    cases h with
    | cons hne hsealed hmore =>
      obtain ⟨r', pad, body, hread, hsize', hdone', hbody, hrest⟩ :=
        readSize_sealed hl hsize hsealed hbytes
      exact ⟨r', pad, body, _, _, hread, hdone, hne, hsize', hdone'.trans hdone, hbody,
        hrest, hmore⟩
  | sized hsize hdone hne hn hbody havailable hmore =>
    refine ⟨{ r with hasSize := false }, r.paddingLen, _, _, _, ?_, hdone, hne, rfl, hdone, hbody,
      havailable, hmore⟩
    rw [readSize, hsize, if_pos rfl, hn]

/-- A chunk is opened. -/
theorem readChunk_body {body more : Bytes} {pad : ℕ} {s' : σ}
    (hbody : Body l r.state payload pad body s') (havailable : r.reader.available = body ++ more)
    (mb : List Bytes) :
    ∃ r' : AuthenticationReader σ,
      readChunk l r (payload.length + l.overhead + pad) pad mb = (.read, r', mb ++ [payload]) ∧
      r'.hasSize = r.hasSize ∧ r'.done = r.done ∧ r'.state = s' ∧ r'.reader.available = more := by
  have hlen := hbody.length_eq
  obtain ⟨reader, hread, hrest⟩ : ∃ reader,
      r.reader.readFull (payload.length + l.overhead + pad) =
        (.ok (r.reader.available.take (payload.length + l.overhead + pad)), reader) ∧
      reader.available = r.reader.available.drop (payload.length + l.overhead + pad) := by
    apply BufferedReader.readFull_available
    rw [havailable, length_append, hlen]
    omega
  rw [havailable, take_left' hlen] at hread
  rw [havailable, drop_left' hlen] at hrest
  obtain ⟨text, padding, rfl, htext, hpadding, hopen⟩ := hbody.split
  -- the padding is cut off
  have hcut : bytesTo (text ++ padding) (↑(payload.length + l.overhead + pad) - ↑pad) = text := by
    rw [bytesTo, if_neg (by omega)]
    have htake : ((↑(payload.length + l.overhead + pad) - ↑pad : ℤ)).toNat = text.length := by
      omega
    rw [htake, take_left' rfl]
  refine ⟨{ r with reader := reader, state := s' }, ?_, rfl, rfl, rfl, hrest⟩
  rw [readChunk, hread]
  simp only [hcut, hopen]
  rw [if_pos hbody.le_size]

/-- One read when there is a payload to give: it is given, or the read was soft and nothing is
    lost. -/
theorem readInternal_cons (hl : Lawful l) (h : Holds l r (payload :: payloads)) (soft : Bool)
    (mb : List Bytes) :
    (∃ r', readInternal l soft r mb = (.read, r', mb ++ [payload]) ∧ Holds l r' payloads) ∨
    (soft = true ∧ ∃ r', readInternal l soft r mb = (.soft, r', mb) ∧
      Holds l r' (payload :: payloads)) := by
  rw [readInternal]
  by_cases hwait : (soft && decide (r.reader.bufferedBytes < l.sizeBytes)) = true
  · rw [if_pos hwait]
    exact .inr ⟨(Bool.and_eq_true_iff.mp hwait).1, r, rfl, h⟩
  obtain ⟨r', pad, body, more, s', hread, hdone, hne, hsize', hdone', hbody, hrest, hmore⟩ :=
    readSize_holds hl h
  rw [if_neg hwait, hdone, if_neg Bool.false_ne_true, hread]
  -- the empty chunk alone is as long as its overhead and padding
  have hnonempty : payload.length + l.overhead + pad ≠ (l.overhead + pad) % 65536 := by
    have hlen := length_pos_of_ne_nil hne
    have hle := Nat.mod_le (l.overhead + pad) 65536
    omega
  simp only []
  rw [if_neg hnonempty]
  by_cases hshort :
      (soft && decide (payload.length + l.overhead + pad > r'.reader.bufferedBytes)) = true
  · rw [if_pos hshort]
    exact .inr ⟨(Bool.and_eq_true_iff.mp hshort).1, _, rfl,
      .sized rfl hdone' hne rfl hbody hrest hmore⟩
  · rw [if_neg hshort]
    obtain ⟨r'', hchunk, hsize'', hdone'', rfl, rfl⟩ := readChunk_body hbody hrest mb
    exact .inl ⟨r'', hchunk, .ready (hsize''.trans hsize') (hdone''.trans hdone') hmore⟩

/-- One read when there is no payload left. -/
theorem readInternal_nil (hl : Lawful l) (h : Holds l r []) (soft : Bool)
    (mb : List Bytes) :
    (∃ r', readInternal l soft r mb = (.failed .eof, r', mb) ∧ Holds l r' []) ∨
    (soft = true ∧ ∃ r', readInternal l soft r mb = (.soft, r', mb) ∧ Holds l r' []) := by
  rw [readInternal]
  by_cases hwait : (soft && decide (r.reader.bufferedBytes < l.sizeBytes)) = true
  · rw [if_pos hwait]
    exact .inr ⟨(Bool.and_eq_true_iff.mp hwait).1, r, rfl, h⟩
  rw [if_neg hwait]
  left
  cases h with
  | finished hdone =>
    rw [hdone, if_pos rfl]
    exact ⟨r, rfl, .finished hdone⟩
  | ready hsize hdone h =>
    rw [hdone, if_neg Bool.false_ne_true]
    generalize hbytes : r.reader.available = bytes at h
    cases h with
    | nil =>
      have hread := BufferedReader.readFull_nil hl.sizeBytes_pos hbytes
      rw [readSize, hsize, if_neg Bool.false_ne_true, hread]
      exact ⟨_, rfl, .ready rfl hdone (.nil _)⟩
    | ended more hsealed =>
      obtain ⟨r', pad, body, hread, -, -, hbody, -⟩ := readSize_sealed hl hsize hsealed hbytes
      have hempty : ([] : Bytes).length + l.overhead + pad = (l.overhead + pad) % 65536 := by
        have hlt := hbody.size_lt
        rw [length_nil, Nat.zero_add] at hlt ⊢
        exact (Nat.mod_eq_of_lt hlt).symm
      rw [hread]
      simp only []
      rw [if_pos hempty]
      exact ⟨_, rfl, .finished rfl⟩

/-- The soft reads give some of the payloads, in order, and no error. -/
theorem readSoft_holds (hl : Lawful l) (n : ℕ) (h : Holds l r payloads) (mb : List Bytes) :
    ∃ got rest r', readSoft l n r mb = (.ok (mb ++ got), r') ∧ payloads = got ++ rest ∧
      Holds l r' rest := by
  induction n generalizing r payloads mb with
  | zero => exact ⟨[], payloads, r, by rw [readSoft, append_nil], rfl, h⟩
  | succ n ih =>
    cases payloads with
    | nil =>
      rcases readInternal_nil hl h true mb with ⟨r', hread, h'⟩ | ⟨-, r', hread, h'⟩
      all_goals exact ⟨[], [], r', by rw [readSoft, hread, append_nil], rfl, h'⟩
    | cons payload payloads =>
      rcases readInternal_cons hl h true mb with ⟨r', hread, h'⟩ | ⟨-, r', hread, h'⟩
      · obtain ⟨got, rest, r'', hsoft, rfl, h''⟩ := ih h' (mb ++ [payload])
        refine ⟨payload :: got, rest, r'', ?_, rfl, h''⟩
        rw [readSoft, hread]
        simp only [hsoft, append_assoc, singleton_append]
      · exact ⟨[], payload :: payloads, r', by rw [readSoft, hread, append_nil], rfl, h'⟩

/-- A call gives at least the next payload. -/
theorem readMultiBuffer_cons (hl : Lawful l) (h : Holds l r (payload :: payloads)) :
    ∃ got rest r', readMultiBuffer l r = (.ok (payload :: got), r') ∧ payloads = got ++ rest ∧
      Holds l r' rest := by
  rcases readInternal_cons hl h false [] with ⟨r', hread, h'⟩ | ⟨hsoft, -⟩
  · obtain ⟨got, rest, r'', hrest, hpayloads, h''⟩ := readSoft_holds hl 15 h' [payload]
    refine ⟨got, rest, r'', ?_, hpayloads, h''⟩
    rw [readMultiBuffer, hread]
    exact hrest
  · exact absurd hsoft Bool.false_ne_true

/-- A call at the end. -/
theorem readMultiBuffer_nil (hl : Lawful l) (h : Holds l r []) :
    ∃ r', readMultiBuffer l r = (.error .eof, r') := by
  rcases readInternal_nil hl h false [] with ⟨r', hread, -⟩ | ⟨hsoft, -⟩
  · exact ⟨r', by rw [readMultiBuffer, hread]⟩
  · exact absurd hsoft Bool.false_ne_true

/-- The calls give the payloads, in order, and then the end. -/
theorem readAll_holds (hl : Lawful l) (h : Holds l r payloads) :
    ∃ outs : List (List Bytes), outs.flatten = payloads ∧
      ∀ fuel, outs.length < fuel → readAll l fuel r = (outs, some .eof) := by
  -- a call gives at least one payload
  induction hn : payloads.length using Nat.strongRecOn generalizing r payloads with
  | _ n ih =>
    cases payloads with
    | nil =>
      obtain ⟨r', hread⟩ := readMultiBuffer_nil hl h
      refine ⟨[], rfl, fun fuel hfuel => ?_⟩
      obtain ⟨fuel, rfl⟩ := Nat.exists_eq_add_of_lt hfuel
      rw [readAll, hread]
    | cons payload payloads =>
      obtain ⟨got, rest, r', hread, rfl, h'⟩ := readMultiBuffer_cons hl h
      have hlt : rest.length < n := by
        rw [length_cons, length_append] at hn
        omega
      obtain ⟨outs, rfl, hall⟩ := ih rest.length hlt h' rfl
      refine ⟨(payload :: got) :: outs, rfl, fun fuel hfuel => ?_⟩
      rw [length_cons] at hfuel
      obtain ⟨fuel, rfl⟩ : ∃ m, fuel = m + 1 := ⟨fuel - 1, by omega⟩
      rw [readAll, hread]
      simp only [hall fuel (by omega)]

/-- A new reader of what such chunks put on the transport, however it is cut. -/
theorem readAll_wire (hl : Lawful l) {s : σ} {reader : BufferedReader}
    (h : Wire l s payloads reader.available) :
    ∃ outs : List (List Bytes), outs.flatten = payloads ∧
      ∀ fuel, outs.length < fuel → readAll l fuel (new s reader) = (outs, some .eof) :=
  readAll_holds hl (.ready rfl rfl h)

end AuthenticationReader

/-! ## What a writer adds -/

/-- Between the two states the writer added these chunks. -/
def Adds (l : Link σ) (s s' : σ) (payloads : List Bytes) (bytes : Bytes) : Prop :=
  ∀ rest more, Wire l s' rest more → Wire l s (payloads ++ rest) (bytes ++ more)

namespace Adds

variable {l : Link σ} {s s' s'' : σ} {payloads payloads' : List Bytes}
  {bytes bytes' : Bytes}

theorem refl (l : Link σ) (s : σ) : Adds l s s [] [] := fun _ _ h => h

theorem trans (h : Adds l s s' payloads bytes) (h' : Adds l s' s'' payloads' bytes') :
    Adds l s s'' (payloads ++ payloads') (bytes ++ bytes') := by
  intro rest more hwire
  rw [append_assoc, append_assoc]
  exact h _ _ (h' _ _ hwire)

theorem of_sealed {payload : Bytes} (hne : payload ≠ []) (h : Sealed l s payload bytes s') :
    Adds l s s' [payload] bytes :=
  fun _ _ hwire => .cons hne h hwire

end Adds

namespace AuthenticationWriter

variable {l : Link σ}

/-- There is room for a byte, whatever the padding. -/
def Roomy (l : Link σ) : Prop := l.sizeBytes + l.overhead + l.maxPadding < size

variable {mb : List Bytes}

/-- One call and then the others. -/
theorem writeAll_cons {transferType : TransferType} {w w' : AuthenticationWriter σ}
    {bytes : Bytes} (h : writeMultiBuffer l transferType w mb = some (.ok bytes, w'))
    (calls : List (List Bytes)) :
    writeAll l transferType w (mb :: calls) =
      (writeAll l transferType w' calls).map (Except.map (bytes ++ ·)) := by
  rw [writeAll, h]

/-- The chunk of a packet fits the buffer, with the padding that is next. -/
def Fits (l : Link σ) (s : σ) (b : Bytes) : Prop :=
  l.sizeBytes + (b.length + l.overhead) + (l.paddingLen s).1 ≤ size

instance (l : Link σ) (s : σ) (b : Bytes) : Decidable (Fits l s b) :=
  inferInstanceAs (Decidable (_ ≤ _))

/-- The packets whose chunk fits the buffer when their turn comes. -/
def fitting (l : Link σ) : AuthenticationWriter σ → List Bytes → List Bytes
  | _, [] => []
  | w, b :: mb =>
    if b = [] then fitting l w mb
    else if Fits l w.state b then b :: fitting l (sealChunk l w b).2 mb
    else fitting l (sealChunk l w b).2 mb

/-- Every packet finds the writer without padding, or fits when its turn comes. -/
def Steady (l : Link σ) : AuthenticationWriter σ → List Bytes → Prop
  | _, [] => True
  | w, b :: mb =>
    if b = [] then Steady l w mb
    else (l.padding = none ∨ Fits l w.state b) ∧ Steady l (sealChunk l w b).2 mb

/-- Without padding a packet that is left out leaves the state as it was. -/
theorem sealChunk_left_out {w : AuthenticationWriter σ} {b : Bytes}
    (hpadding : l.padding = none) (h : ¬ Fits l w.state b) :
    ∃ e, sealChunk l w b = (.error e, w) := by
  have hnone : l.paddingLen w.state = (0, w.state) := by rw [Link.paddingLen, hpadding]
  have hseal := sealChunk_too_large w b (Nat.lt_of_not_le h)
  rw [hnone] at hseal
  exact ⟨_, hseal⟩

/-- The packets that fit are added, and no other. -/
theorem writePacket_spec (hl : Lawful l) (w : AuthenticationWriter σ) (h : Steady l w mb) :
    Adds l w.state (writePacket l w mb).2.state (fitting l w mb) (writePacket l w mb).1 := by
  induction mb generalizing w with
  | nil => exact .refl l w.state
  | cons b mb ih =>
    rw [Steady] at h
    rw [fitting, writePacket]
    by_cases hb : b = []
    · rw [if_pos hb] at h ⊢
      rw [if_pos hb]
      exact ih w h
    rw [if_neg hb] at h ⊢
    rw [if_neg hb]
    by_cases hfits : Fits l w.state b
    · obtain ⟨chunk, w', hseal, hsealed⟩ := sealChunk_spec hl w b hfits
      rw [hseal] at h
      rw [if_pos hfits, hseal]
      exact (Adds.of_sealed hb hsealed).trans (ih w' h.2)
    · obtain ⟨e, hseal⟩ := sealChunk_left_out (h.1.resolve_right hfits) hfits
      rw [hseal] at h
      rw [if_neg hfits, hseal]
      exact ih w h.2

/-- The writer behind a packet, whether it was sealed or left out. -/
theorem writePacket_cons_snd (w : AuthenticationWriter σ) {b : Bytes} (hb : b ≠ [])
    (mb : List Bytes) :
    (writePacket l w (b :: mb)).2 = (writePacket l (sealChunk l w b).2 mb).2 := by
  rw [writePacket, if_neg hb]
  rcases sealChunk l w b with ⟨_ | _, _⟩ <;> rfl

/-- The packets of two calls, one after the other. -/
theorem fitting_append (w : AuthenticationWriter σ) (mb mb' : List Bytes) :
    fitting l w (mb ++ mb') = fitting l w mb ++ fitting l (writePacket l w mb).2 mb' := by
  induction mb generalizing w with
  | nil => rfl
  | cons b mb ih =>
    rw [cons_append, fitting, fitting]
    by_cases hb : b = []
    · rw [if_pos hb, if_pos hb, writePacket, if_pos hb]
      exact ih w
    rw [if_neg hb, if_neg hb, ih, writePacket_cons_snd w hb]
    by_cases hfits : Fits l w.state b
    · rw [if_pos hfits, if_pos hfits, cons_append]
    · rw [if_neg hfits, if_neg hfits]

theorem steady_append (w : AuthenticationWriter σ) {mb' : List Bytes}
    (h : Steady l w (mb ++ mb')) : Steady l w mb ∧ Steady l (writePacket l w mb).2 mb' := by
  induction mb generalizing w with
  | nil => exact ⟨trivial, h⟩
  | cons b mb ih =>
    rw [cons_append, Steady] at h
    rw [Steady]
    by_cases hb : b = []
    · rw [if_pos hb] at h ⊢
      rw [writePacket, if_pos hb]
      exact ih w h
    rw [if_neg hb] at h ⊢
    rw [writePacket_cons_snd w hb]
    obtain ⟨hsteady, hnext⟩ := ih _ h.2
    exact ⟨⟨h.1, hsteady⟩, hnext⟩

/-- The calls of a writer of packets. -/
theorem writeAll_packet (hl : Lawful l) (w : AuthenticationWriter σ)
    {calls : List (List Bytes)} (hne : ∀ mb ∈ calls, mb.flatten ≠ [])
    (h : Steady l w calls.flatten) :
    ∃ bytes, writeAll l .packet w calls = some (.ok bytes) ∧
      Wire l w.state (fitting l w calls.flatten) bytes := by
  induction calls generalizing w with
  | nil => exact ⟨[], rfl, .nil w.state⟩
  | cons mb calls ih =>
    rw [flatten_cons] at h
    obtain ⟨hsteady, hnext⟩ := steady_append w h
    obtain ⟨rest, hrest, hwire⟩ := ih _ (fun mb' hmb => hne mb' (mem_cons_of_mem _ hmb)) hnext
    have hwrite : writeMultiBuffer l .packet w mb =
        some (.ok (writePacket l w mb).1, (writePacket l w mb).2) := by
      rw [writeMultiBuffer, if_neg (hne mb mem_cons_self)]
    refine ⟨(writePacket l w mb).1 ++ rest, by rw [writeAll_cons hwrite, hrest]; rfl, ?_⟩
    rw [flatten_cons, fitting_append]
    exact writePacket_spec hl w hsteady _ _ hwire

end AuthenticationWriter

end XrayCore.Crypto
