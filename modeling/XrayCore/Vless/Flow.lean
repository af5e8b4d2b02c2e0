/-
  XrayCore.Vless.Flow

  What is written to one side of VLESS encryption is read from the other, and no key is used
  twice with one nonce.

  Between the sides lie whole records, sealed one after the other by the cipher that the
  reader has now; sealing them all gives the cipher that the writer has.
-/

import XrayCore.Machine.Run
import XrayCore.Vless.CommonConn

namespace XrayCore.Vless

open Buf Bytes List BufferedReader

section

variable (c : CommonConn)

/-! ## Records one after the other -/

/-- Records of some pieces, and the cipher after them. -/
def sealAll (a : AEAD) : List Bytes → List Sealing × AEAD
  | [] => ([], a)
  | b :: bs =>
    let first := sealRecord c a b
    let rest := sealAll first.2 bs
    (first.1 :: rest.1, rest.2)

/-- The bytes of records. -/
def recordBytes (ss : List Sealing) : Bytes := ss.flatMap Sealing.record

/-- A piece that fits into a record. -/
def Fits (b : Bytes) : Prop := b ≠ [] ∧ b.length ≤ 8192

theorem sealAll_append (a : AEAD) (bs cs : List Bytes) :
    sealAll c a (bs ++ cs) =
      ((sealAll c a bs).1 ++
          (sealAll c (sealAll c a bs).2 cs).1,
        (sealAll c (sealAll c a bs).2 cs).2) := by
  induction bs generalizing a with
  | nil => rfl
  | cons b bs ih =>
    rw [cons_append, sealAll, ih, sealAll]
    rfl

theorem recordBytes_append (ss ts : List Sealing) :
    recordBytes (ss ++ ts) = recordBytes ss ++ recordBytes ts := flatMap_append

/-- What a write does: its data goes out in pieces that fit, behind what is sent first. -/
structure Wrote (w : WriteSide) (b : Bytes) (bs : List Bytes)
    (out : List (Bytes × Sealing) × WriteSide) : Prop where
  pieces : bs.flatten = b
  fits : ∀ x ∈ bs, Fits x
  sealings : out.1.map Prod.snd = (sealAll c w.aead bs).1
  aead : out.2.aead = (sealAll c w.aead bs).2
  sent : (out.1.map Prod.fst).flatten ++ out.2.preWrite.getD [] =
    w.preWrite.getD [] ++ recordBytes (sealAll c w.aead bs).1
  unsent : out.2.preWrite ≠ none → out.2.preWrite = w.preWrite ∧ out.1 = [] ∧ bs = []

theorem write_wrote (w : WriteSide) (b : Bytes) : ∃ bs, Wrote c w b bs (write c w b) := by
  induction hcount : b.length using Nat.strongRecOn generalizing w b with
  | ind count ih =>
    subst hcount
    rw [write]
    split
    case isTrue hnil =>
      refine ⟨[], hnil.symm, nofun, rfl, rfl, ?_, fun _ => ⟨rfl, rfl, rfl⟩⟩
      exact (append_nil _).symm
    case isFalse hne =>
      have hpos := length_pos_of_ne_nil hne
      obtain ⟨bs, hbs⟩ := ih (b.drop 8192).length (by rw [length_drop]; omega)
        ⟨none, (sealRecord c w.aead (b.take 8192)).2⟩ (b.drop 8192) rfl
      have hfits : Fits (b.take 8192) := ⟨by simpa using hne, length_take_le _ _⟩
      refine ⟨b.take 8192 :: bs, ?_, ?_, ?_, hbs.aead, ?_, ?_⟩
      · rw [flatten_cons, hbs.pieces, take_append_drop]
      · exact forall_mem_cons.mpr ⟨hfits, hbs.fits⟩
      · exact congrArg (_ :: ·) hbs.sealings
      · have hsent := hbs.sent
        simp only [Option.getD_none, nil_append] at hsent
        simp only [map_cons, flatten_cons, sealAll, recordBytes, flatMap_cons,
          append_assoc]
        rw [hsent, recordBytes]
      · intro hunsent
        obtain ⟨hnone, -, -⟩ := hbs.unsent hunsent
        exact absurd hnone hunsent

/-! ## Reading a record -/

/-- What is left of a record lies within the memory. -/
def ReadSide.Ok (r : ReadSide) : Prop := r.inputFrom ≤ r.inputTo ∧ r.inputTo ≤ r.rawInput.length

variable {r : ReadSide}

theorem ReadSide.Ok.length_input (h : r.Ok) : r.input.length = r.inputTo - r.inputFrom := by
  rw [ReadSide.input, length_drop, length_take, Nat.min_eq_left h.2]

theorem length_sealRecord (hc : c.ciphers.Lawful) (a : AEAD) (b : Bytes) :
    ∃ ciphertext, (sealRecord c a b).1.record =
        encodeHeader (b.length + 16) ++ ciphertext ∧
      ciphertext = (a.sealNext c.ciphers none b (encodeHeader (b.length + 16))).1 ∧
      ciphertext.length = b.length + 16 :=
  ⟨_, rfl, rfl, hc.length_seal _ _ _ _ _⟩

/-- What a read leaves of the reader. -/
structure ReadTo (r r' : ReadSide) (a' : AEAD) (left : Bytes) : Prop where
  ok : r'.Ok
  peerAEAD : r'.peerAEAD = some a'
  peerPadding : r'.peerPadding = r.peerPadding
  input : r'.input = left

variable {conn : BufferedReader}

/-- A record is opened, and the cipher takes the step that sealing it took. -/
theorem readRecord_ok (hc : c.ciphers.Lawful) (hr : r.Ok) (hinput : r.input = []) (a : AEAD) (n : ℕ)
    {b rest : Bytes} (hb : Fits b)
    (hconn : conn.available = (sealRecord c a b).1.record ++ rest) :
    ∃ r' conn', readRecord c r a n conn = (.ok (b.take n), r', conn') ∧
      ReadTo r r' (sealRecord c a b).2 (b.drop n) ∧ conn'.available = rest := by
  obtain ⟨ciphertext, hrecord, hcipher, hlength⟩ := length_sealRecord c hc a b
  have hpos := length_pos_of_ne_nil hb.1
  have hle := hb.2
  have hempty : r.inputTo - r.inputFrom = 0 := by
    rw [← hr.length_input, hinput, length_nil]
  rw [hrecord, append_assoc] at hconn
  -- The header comes first, and then as many bytes as it says.
  obtain ⟨conn₁, hread₁, hconn₁⟩ := readFull_available (r := conn) (n := 5) (by
    rw [hconn, length_append]
    exact Nat.le_add_right 5 _)
  have htake₁ : conn.available.take 5 = encodeHeader (b.length + 16) := by
    rw [hconn]
    exact take_left' rfl
  have hdrop₁ : conn₁.available = ciphertext ++ rest := by
    rw [hconn₁, hconn]
    exact drop_left' rfl
  obtain ⟨conn₂, hread₂, hconn₂⟩ :=
    readFull_available (r := conn₁) (n := b.length + 16) (by
      rw [hdrop₁, length_append, hlength]
      exact Nat.le_add_right _ _)
  have htake₂ : conn₁.available.take (b.length + 16) = ciphertext := by
    rw [hdrop₁, ← hlength]
    exact take_left
  have hdrop₂ : conn₂.available = rest := by
    rw [hconn₂, hdrop₁, ← hlength]
    exact drop_left
  rw [htake₁] at hread₁
  rw [htake₂] at hread₂
  have hopen : a.openNext c.ciphers none ciphertext (encodeHeader (b.length + 16)) =
      (.ok b, a.step) := by
    rw [hcipher]
    exact a.openNext_sealNext c.ciphers hc b _
  have hmemory : (ciphertext ++ r.rawInput.drop (b.length + 16)).take (b.length + 16) =
      ciphertext := by
    rw [← hlength]
    exact take_left
  have hnext : (if a.nonce = maxNonce
      then c.newAEAD (encodeHeader (b.length + 16) ++ ciphertext) else a.step) =
        (sealRecord c a b).2 := by
    rw [hcipher]
    rfl
  rw [readRecord, hread₁]
  simp only [decodeHeader_encodeHeader (show 17 ≤ b.length + 16 by omega)
    (show b.length + 16 ≤ 16640 by omega), hread₂, hopen, hmemory, hnext, Nat.add_sub_cancel]
  split
  case isTrue hfull =>
    rw [take_of_length_le hfull]
    refine ⟨_, conn₂, rfl, ⟨⟨hr.1, ?_⟩, rfl, rfl, ?_⟩, hdrop₂⟩
    · have hto := hr.2
      dsimp only
      rw [length_append, length_drop, hlength]
      omega
    · rw [drop_of_length_le hfull]
      apply eq_nil_of_length_eq_zero
      rw [ReadSide.input, length_drop, length_take]
      dsimp only
      omega
  case isFalse hpart =>
    have hlt : n < b.length := Nat.lt_of_not_le hpart
    refine ⟨_, conn₂, rfl, ⟨⟨Nat.le_of_lt hlt, ?_⟩, rfl, rfl, ?_⟩, hdrop₂⟩
    · rw [length_append]
      exact Nat.le_add_right _ _
    · rw [ReadSide.input]
      exact congrArg (drop n) take_left

variable {a : AEAD} {bs : List Bytes}

/-- What `Read` comes to once the cipher is there, with records of `bs` to come: it returns the next
    bytes, or there are none. -/
theorem readWith_ok (hc : c.ciphers.Lawful) (hr : r.Ok) (ha : r.peerAEAD = some a)
    (hpadding : r.peerPadding = none) {n : ℕ} (hn : 0 < n) (hbs : ∀ x ∈ bs, Fits x)
    (hconn : conn.available = recordBytes (sealAll c a bs).1) :
    (r.input = [] ∧ bs = [] ∧
      readWith c r a n conn = (.error .eof, r, ⟨[], [], []⟩)) ∨
    ∃ out r' conn' a' bs', readWith c r a n conn = (.ok out, r', conn') ∧
      out ≠ [] ∧ out.length ≤ n ∧ ReadTo r r' a' r'.input ∧ (∀ x ∈ bs', Fits x) ∧
      conn'.available = recordBytes (sealAll c a' bs').1 ∧
      (sealAll c a' bs').2 = (sealAll c a bs).2 ∧
      r.input ++ bs.flatten = out ++ r'.input ++ bs'.flatten := by
  rw [readWith, hpadding]
  simp only [readWith.readInput]
  split
  case isTrue hleft =>
    -- The next bytes are left of a record.
    right
    refine ⟨_, _, conn, a, bs, rfl, ?_, ?_, ⟨?_, ha, rfl, rfl⟩, hbs, hconn, rfl, ?_⟩
    · simp [hn.ne', ne_nil_of_length_pos hleft]
    · exact length_take_le _ _
    · have hfrom := hr.1
      rw [hr.length_input]
      refine ⟨?_, hr.2⟩
      dsimp only
      omega
    · have hdrop : ReadSide.input { r with inputFrom := r.inputFrom + min n r.input.length } =
          r.input.drop n := by
        rw [ReadSide.input, ← drop_drop, ← ReadSide.input]
        rcases Nat.le_total n r.input.length with hle | hle
        · rw [Nat.min_eq_left hle]
        · rw [Nat.min_eq_right hle, drop_of_length_le hle, drop_length]
      rw [hdrop, take_append_drop]
  case isFalse hnone =>
    have hinput : r.input = [] := eq_nil_of_length_eq_zero (Nat.eq_zero_of_not_pos hnone)
    cases bs with
    | nil =>
      left
      refine ⟨hinput, rfl, ?_⟩
      rw [readRecord, readFull_nil (by decide) hconn]
    | cons b bs =>
      right
      rw [sealAll, recordBytes, flatMap_cons, ← recordBytes] at hconn
      have hb := hbs b mem_cons_self
      obtain ⟨r', conn', hread, hto, hconn'⟩ :=
        readRecord_ok c hc hr hinput a n hb hconn
      refine ⟨_, r', conn', _, bs, hread, ?_, ?_, { hto with input := rfl },
        fun x hx => hbs x (mem_cons_of_mem _ hx), hconn', rfl, ?_⟩
      · simp [hn.ne', hb.1]
      · exact length_take_le _ _
      · rw [hinput, hto.input, take_append_drop]
        rfl

/-! ## The two sides -/

/-- One direction of two connections, with what was written, sealed and read. -/
structure Link where
  writer : WriteSide
  reader : ReadSide
  conn : BufferedReader
  written : Bytes
  sealings : List Sealing
  got : Bytes

/-- A `Write`, after which the carrier holds its bytes behind the others in pieces of any kind, or a
    `Read` that returns.  A `Read` that finds too few bytes waits. -/
inductive LinkStep : Link → Link → Prop
  | write {s : Link} (b : Bytes) (conn' : BufferedReader)
      (hconn : conn'.available = s.conn.available ++
        ((write c s.writer b).1.map Prod.fst).flatten) :
      LinkStep s { s with
        writer := (write c s.writer b).2
        conn := conn'
        written := s.written ++ b
        sealings := s.sealings ++ (write c s.writer b).1.map Prod.snd }
  | read {s : Link} {n : ℕ} {out : Bytes} {r' : ReadSide} {conn' : BufferedReader}
      (h : read c s.reader n s.conn = (.ok out, r', conn')) :
      LinkStep s { s with reader := r', conn := conn', got := s.got ++ out }

/-- What the reader waits for before the records: sixteen bytes that its cipher is made from, or
    nothing if it has one. -/
inductive Greeting (r : ReadSide) : Bytes → AEAD → Prop
  | known {a : AEAD} (h : r.peerAEAD = some a) : Greeting r [] a
  | random {random : Bytes} (h : r.peerAEAD = none) (hinput : r.input = [])
      (hlength : random.length = 16) : Greeting r random (c.newAEAD random)

/-- What holds between any two steps. -/
structure Flows (s : Link) (greeting : Bytes) (a : AEAD) (bs : List Bytes) : Prop where
  expects : Greeting c s.reader greeting a
  fits : ∀ x ∈ bs, Fits x
  bytes : s.conn.available ++ s.writer.preWrite.getD [] =
    greeting ++ recordBytes (sealAll c a bs).1
  aead : s.writer.aead = (sealAll c a bs).2
  data : s.written = s.got ++ s.reader.input ++ bs.flatten
  ok : s.reader.Ok
  padding : s.reader.peerPadding = none
  unsent : s.writer.preWrite.getD [] ≠ [] → s.conn.available = [] ∧ bs = []

variable {greeting : Bytes} {s : Link}

theorem Flows.write (h : Flows c s greeting a bs) (b : Bytes)
    (conn' : BufferedReader)
    (hconn : conn'.available = s.conn.available ++
      ((Vless.write c s.writer b).1.map Prod.fst).flatten) :
    ∃ bs', Flows c { s with
        writer := (Vless.write c s.writer b).2
        conn := conn'
        written := s.written ++ b
        sealings := s.sealings ++ (Vless.write c s.writer b).1.map Prod.snd }
      greeting a bs' := by
  obtain ⟨cs, hcs⟩ := write_wrote c s.writer b
  have hsplit := sealAll_append c a bs cs
  refine ⟨bs ++ cs, h.expects, ?_, ?_, ?_, ?_, h.ok, h.padding, ?_⟩
  · exact forall_mem_append.mpr ⟨h.fits, hcs.fits⟩
  · rw [hconn, append_assoc, hcs.sent, ← append_assoc, h.bytes, hsplit, recordBytes_append,
      h.aead, append_assoc]
  · rw [hcs.aead, hsplit, h.aead]
  · rw [flatten_append, hcs.pieces, ← append_assoc]
    exact congrArg (· ++ b) h.data
  · intro hunsent
    have hsome : (Vless.write c s.writer b).2.preWrite ≠ none := by
      intro hnone
      exact hunsent (congrArg (Option.getD · []) hnone)
    obtain ⟨hsame, hnone, rfl⟩ := hcs.unsent hsome
    obtain ⟨havailable, rfl⟩ := h.unsent (hsame ▸ hunsent)
    refine ⟨?_, rfl⟩
    rw [hconn, havailable, hnone]
    rfl

/-- The first sixteen bytes were read or there are none, and everything else was sent. -/
theorem Flows.readWith (hc : c.ciphers.Lawful) (h : Flows c s greeting a bs) {n : ℕ}
    (hn : 0 < n) (hr : r.Ok) (ha : r.peerAEAD = some a) (hpadding : r.peerPadding = none)
    (hinput : r.input = s.reader.input)
    (hconn : conn.available = recordBytes (sealAll c a bs).1)
    (hsent : s.writer.preWrite.getD [] = []) :
    (s.got = s.written ∧ ∃ r' conn',
      Vless.readWith c r a n conn = (.error .eof, r', conn')) ∨
    ∃ out r' conn' a' bs', Vless.readWith c r a n conn = (.ok out, r', conn') ∧
      out ≠ [] ∧ out.length ≤ n ∧
      Flows c { s with reader := r', conn := conn', got := s.got ++ out } [] a' bs' := by
  rcases readWith_ok c hc hr ha hpadding hn h.fits hconn with
    ⟨hnone, rfl, hread⟩ | ⟨out, r', conn', a', bs', hread, hout, hle, hto, hfits, hconn',
      haead, hdata⟩
  · refine .inl ⟨?_, _, _, hread⟩
    rw [h.data, ← hinput, hnone, append_nil, flatten_nil, append_nil]
  · refine .inr ⟨out, r', conn', a', bs', hread, hout, hle,
      ⟨.known hto.peerAEAD, hfits, ?_, h.aead.trans haead.symm, ?_, hto.ok,
        hto.peerPadding.trans hpadding, fun hunsent => absurd hsent hunsent⟩⟩
    · rw [hsent, append_nil, hconn', nil_append]
    · rw [h.data, append_assoc, ← hinput, hdata]
      simp only [append_assoc]

/-- What a `Read` of some bytes comes to: the next bytes, or a wait because all was read. -/
theorem Flows.read (hc : c.ciphers.Lawful) (h : Flows c s greeting a bs) {n : ℕ}
    (hn : 0 < n) :
    (s.got = s.written ∧ ∃ r' conn',
      Vless.read c s.reader n s.conn = (.error .eof, r', conn')) ∨
    ∃ out r' conn' a' bs',
      Vless.read c s.reader n s.conn = (.ok out, r', conn') ∧
      out ≠ [] ∧ out.length ≤ n ∧
      Flows c { s with reader := r', conn := conn', got := s.got ++ out } [] a' bs' := by
  have hbytes := h.bytes
  rw [Vless.read, if_neg (Nat.ne_of_gt hn)]
  cases h.expects with
  | known ha =>
    -- With the cipher known, nothing can be unsent.
    have hsent : s.writer.preWrite.getD [] = [] := by
      by_contra hunsent
      obtain ⟨havailable, rfl⟩ := h.unsent hunsent
      rw [havailable] at hbytes
      exact hunsent hbytes
    rw [hsent, append_nil, nil_append] at hbytes
    rw [ha]
    exact h.readWith c hc hn h.ok ha h.padding rfl hbytes hsent
  | random hnone hinput hlength =>
    rw [hnone]
    by_cases hunsent : s.writer.preWrite.getD [] = []
    · rw [hunsent, append_nil] at hbytes
      obtain ⟨conn₁, hread₁, hconn₁⟩ := readFull_available (r := s.conn) (n := 16) (by
        rw [hbytes, length_append, hlength]
        exact Nat.le_add_right _ _)
      have htake : s.conn.available.take 16 = greeting := by
        rw [hbytes, take_left' hlength]
      rw [hbytes, drop_left' hlength] at hconn₁
      rw [hread₁, htake]
      exact h.readWith c hc hn h.ok rfl h.padding rfl hconn₁ hunsent
    · obtain ⟨havailable, rfl⟩ := h.unsent hunsent
      rw [readFull_nil (by decide) havailable]
      refine .inl ⟨?_, _, _, rfl⟩
      rw [h.data, hinput, append_nil, flatten_nil, append_nil]

/-! ## Keys and nonces -/

/-- The key and the nonce of a record. -/
def Sealing.use (s : Sealing) : Bytes × Bytes := (s.key, s.nonce)

/-- The contexts that the keys of some records were derived from, and the one of the key after
    them: the first, and each record that was the last of its key. -/
def contexts (ctx : Bytes) (ss : List Sealing) : List Bytes :=
  ctx :: (ss.filter Sealing.last).map Sealing.record

/-- The order in which the nonces of a key are used: zero comes last. -/
def rank (nonce : Bytes) : ℕ := if value nonce = 0 then 2 ^ 96 else value nonce

/-- What was used before: keys of contexts in the past, or the present one with nonces that are not
    above the last one. -/
structure Uses (ctx : Bytes) (ss : List Sealing) (a : AEAD) (past : List Bytes)
    (present : Bytes) : Prop where
  contexts_eq : contexts ctx ss = past ++ [present]
  key : a.key = c.deriveKey present
  old : ∀ s ∈ ss, (∃ p ∈ past, s.key = c.deriveKey p) ∨
    s.key = a.key ∧ rank s.nonce ≤ value a.nonce
  nodup : (past ++ [present]).Nodup → (ss.map Sealing.use).Nodup

variable {past : List Bytes} {ctx present : Bytes} {ss : List Sealing}

/-- A record whose nonce comes after those of its key, which is not one of the past. -/
theorem Uses.nodup_concat
    (hderive : Function.Injective c.deriveKey)
    (h : Uses c ctx ss a past present) {s : Sealing} (hkey : s.key = a.key)
    (hrank : value a.nonce < rank s.nonce) (hdistinct : (past ++ [present]).Nodup) :
    ((ss ++ [s]).map Sealing.use).Nodup := by
  rw [map_append, map_singleton, nodup_append]
  refine ⟨h.nodup hdistinct, nodup_singleton _, ?_⟩
  intro u hu v hv huv
  obtain ⟨t, ht, rfl⟩ := mem_map.mp hu
  rw [mem_singleton.mp hv] at huv
  obtain ⟨hsame, hnonce⟩ := Prod.mk.inj huv
  rcases h.old t ht with ⟨p, hp, hpast⟩ | ⟨-, hle⟩
  · -- A key of the past has another context.
    have heq : p = present := by
      apply hderive
      rw [← hpast, ← h.key, hsame, hkey]
    rw [nodup_append] at hdistinct
    exact hdistinct.2.2 p hp present (mem_singleton_self _) heq
  · rw [hnonce] at hle
    omega

theorem Uses.sealRecord (hderive : Function.Injective c.deriveKey)
    (h : Uses c ctx ss a past present) (b : Bytes) :
    ∃ past' present', Uses c ctx (ss ++ [(Vless.sealRecord c a b).1])
      (Vless.sealRecord c a b).2 past' present' := by
  have hkey : (Vless.sealRecord c a b).1.key = a.key := rfl
  have hnonce : (Vless.sealRecord c a b).1.nonce = a.step.nonce := rfl
  by_cases hmax : a.nonce = maxNonce
  · -- The last nonce of the key: the record is the context of the next one.
    have hlast : (Vless.sealRecord c a b).1.last = true := decide_eq_true hmax
    have hnext : (Vless.sealRecord c a b).2 =
        c.newAEAD (Vless.sealRecord c a b).1.record := if_pos hmax
    have hrank : value a.nonce < rank (Vless.sealRecord c a b).1.nonce := by
      rw [hnonce, rank, if_pos (AEAD.value_step_max hmax)]
      exact a.value_nonce_lt
    refine ⟨past ++ [present], (Vless.sealRecord c a b).1.record, ?_, ?_, ?_, ?_⟩
    · rw [contexts, filter_append, filter_singleton, hlast, map_append, cond_true,
        ← cons_append]
      exact congrArg (· ++ _) h.contexts_eq
    · rw [hnext]
      rfl
    · intro s hs
      rcases mem_append.mp hs with hs | hs
      · rcases h.old s hs with ⟨p, hp, hpast⟩ | ⟨hsame, -⟩
        · exact .inl ⟨p, mem_append_left _ hp, hpast⟩
        · exact .inl ⟨present, mem_append_right _ (mem_singleton_self _), hsame.trans h.key⟩
      · rw [mem_singleton.mp hs]
        exact .inl ⟨present, mem_append_right _ (mem_singleton_self _), hkey.trans h.key⟩
    · intro hdistinct
      exact h.nodup_concat c hderive hkey hrank (nodup_append.mp hdistinct).1
  · have hlast : (Vless.sealRecord c a b).1.last = false := decide_eq_false hmax
    have hnext : (Vless.sealRecord c a b).2 = a.step := if_neg hmax
    have hstep := AEAD.value_step hmax
    have hrank : rank (Vless.sealRecord c a b).1.nonce = value a.nonce + 1 := by
      rw [hnonce, rank, if_neg (by omega), hstep]
    refine ⟨past, present, ?_, ?_, ?_, ?_⟩
    · rw [contexts, filter_append, filter_singleton, hlast, cond_false, append_nil]
      exact h.contexts_eq
    · rw [hnext]
      exact h.key
    · rw [hnext]
      intro s hs
      rcases mem_append.mp hs with hs | hs
      · rcases h.old s hs with hpast | ⟨hsame, hle⟩
        · exact .inl hpast
        · exact .inr ⟨hsame, by omega⟩
      · rw [mem_singleton.mp hs]
        exact .inr ⟨hkey, by omega⟩
    · exact h.nodup_concat c hderive hkey (by omega)

theorem Uses.sealAll (hderive : Function.Injective c.deriveKey)
    (h : Uses c ctx ss a past present) (bs : List Bytes) :
    ∃ past' present', Uses c ctx (ss ++ (Vless.sealAll c a bs).1)
      (Vless.sealAll c a bs).2 past' present' := by
  induction bs generalizing ss a past present with
  | nil => exact ⟨past, present, by rw [Vless.sealAll, append_nil]; exact h⟩
  | cons b bs ih =>
    obtain ⟨past₁, present₁, h₁⟩ := h.sealRecord c hderive b
    obtain ⟨past₂, present₂, h₂⟩ := ih h₁
    refine ⟨past₂, present₂, ?_⟩
    rw [append_assoc] at h₂
    exact h₂

/-! ## Whole runs -/

/-- The two sides start with one cipher, or the reader is sent the sixteen bytes that the cipher of
    the writer was made from. -/
inductive SharedStart (s : Link) (ctx : Bytes) : Prop
  | known {a : AEAD} (hwriter : s.writer = ⟨none, a⟩) (hreader : s.reader.peerAEAD = some a)
      (hkey : a.key = c.deriveKey ctx)
  | random (hwriter : s.writer = ⟨some ctx, c.newAEAD ctx⟩)
      (hlength : ctx.length = 16) (hreader : s.reader.peerAEAD = none)

/-- Nothing was written or read yet. -/
structure LinkStart (s : Link) (ctx : Bytes) : Prop where
  shared : SharedStart c s ctx
  written : s.written = []
  sealings : s.sealings = []
  got : s.got = []
  conn : s.conn.available = []
  ok : s.reader.Ok
  input : s.reader.input = []
  padding : s.reader.peerPadding = none

/-- What holds along every run. -/
structure LinkInv (ctx : Bytes) (s : Link) : Prop where
  flows : ∃ greeting a bs, Flows c s greeting a bs
  uses : ∃ past present, Uses c ctx s.sealings s.writer.aead past present

theorem LinkStart.inv (h : LinkStart c s ctx) :
    LinkInv c ctx s := by
  have hdata : s.written = s.got ++ s.reader.input ++ [].flatten := by
    rw [h.written, h.got, h.input]
    rfl
  have hcontexts : contexts ctx s.sealings = [] ++ [ctx] := by
    rw [h.sealings]
    rfl
  have hnone : ∀ t ∈ s.sealings, False := by
    rw [h.sealings]
    nofun
  have hnodup : (s.sealings.map Sealing.use).Nodup := by
    rw [h.sealings]
    exact nodup_nil
  cases h.shared with
  | @known a hwriter hreader hkey =>
    refine ⟨⟨[], a, [], .known hreader, nofun, ?_, ?_, hdata, h.ok, h.padding, ?_⟩,
      ⟨[], ctx, hcontexts, ?_, fun t ht => (hnone t ht).elim, fun _ => hnodup⟩⟩
    · rw [h.conn, hwriter]
      rfl
    · rw [hwriter]
      rfl
    · intro hunsent
      exact ⟨h.conn, rfl⟩
    · rw [hwriter]
      exact hkey
  | random hwriter hlength hreader =>
    refine ⟨⟨ctx, _, [], .random hreader h.input hlength, nofun, ?_, ?_, hdata, h.ok,
      h.padding, ?_⟩,
      ⟨[], ctx, hcontexts, ?_, fun t ht => (hnone t ht).elim, fun _ => hnodup⟩⟩
    · rw [h.conn, hwriter]
      exact (append_nil _).symm
    · rw [hwriter]
      rfl
    · intro hunsent
      exact ⟨h.conn, rfl⟩
    · rw [hwriter]
      rfl

theorem LinkStep.inv (hc : c.ciphers.Lawful)
    (hderive : Function.Injective c.deriveKey) {s' : Link}
    (hstep : LinkStep c s s') (h : LinkInv c ctx s) :
    LinkInv c ctx s' := by
  obtain ⟨greeting, a, bs, hflows⟩ := h.flows
  cases hstep with
  | write b conn' hconn =>
    refine ⟨⟨greeting, a, hflows.write c b conn' hconn⟩, ?_⟩
    obtain ⟨past, present, huses⟩ := h.uses
    obtain ⟨cs, hcs⟩ := write_wrote c s.writer b
    have hnext := huses.sealAll c hderive cs
    rw [← hcs.sealings, ← hcs.aead] at hnext
    exact hnext
  | @read n out r' conn' hread =>
    refine ⟨?_, h.uses⟩
    rcases Nat.eq_zero_or_pos n with rfl | hn
    · -- A read of no bytes leaves everything as it was.
      rw [Vless.read, if_pos rfl] at hread
      obtain ⟨hout, hrest⟩ := Prod.mk.inj hread
      obtain ⟨rfl, rfl⟩ := Prod.mk.inj hrest
      rw [← Except.ok.inj hout, append_nil]
      exact ⟨greeting, a, bs, hflows⟩
    · rcases hflows.read c hc hn with
        ⟨-, r₁, conn₁, hblocked⟩ | ⟨out₁, r₁, conn₁, a₁, bs₁, hread₁, -, -, hflows₁⟩
      · rw [hread] at hblocked
        cases hblocked
      · rw [hread] at hread₁
        obtain ⟨hout, hrest⟩ := Prod.mk.inj hread₁
        obtain ⟨rfl, rfl⟩ := Prod.mk.inj hrest
        rw [Except.ok.inj hout]
        exact ⟨[], a₁, bs₁, hflows₁⟩

theorem Flows.got_begins (h : Flows c s greeting a bs) : s.got <+: s.written :=
  ⟨s.reader.input ++ bs.flatten, by rw [h.data, append_assoc]⟩

/-- What is read is what was written, in order, with no error on the way and across every change of
    the key: a read returns the next bytes, and waits only when all was read.  As long as no record
    that ends a key repeats a context, no two records have one key and one nonce. -/
theorem vless_stream_round_trip (hc : c.ciphers.Lawful)
    (hderive : Function.Injective c.deriveKey)
    {ctx : Bytes} {s₀ s : Link} (hstart : LinkStart c s₀ ctx)
    (hreach : Relation.ReflTransGen (LinkStep c) s₀ s) :
    s.got <+: s.written ∧
      (∀ n, 0 < n →
        (s.got = s.written ∧ ∃ r' conn',
          Vless.read c s.reader n s.conn = (.error .eof, r', conn')) ∨
        ∃ out r' conn', Vless.read c s.reader n s.conn = (.ok out, r', conn') ∧
          out ≠ [] ∧ out.length ≤ n ∧ s.got ++ out <+: s.written) ∧
      ((contexts ctx s.sealings).Nodup → (s.sealings.map Sealing.use).Nodup) := by
  have hinv : LinkInv c ctx s :=
    Machine.reach_closed (P := LinkInv c ctx)
      (fun _ h _ hstep => hstep.inv c hc hderive h)
      (hstart.inv c) hreach
  obtain ⟨greeting, a, bs, hflows⟩ := hinv.flows
  obtain ⟨past, present, huses⟩ := hinv.uses
  refine ⟨hflows.got_begins c, ?_, ?_⟩
  · intro n hn
    rcases hflows.read c hc hn with
      hblocked | ⟨out, r', conn', a', bs', hread, hout, hle, hflows'⟩
    · exact .inl hblocked
    · exact .inr ⟨out, r', conn', hread, hout, hle, hflows'.got_begins c⟩
  · intro hdistinct
    apply huses.nodup
    rw [← huses.contexts_eq]
    exact hdistinct

end

/-- Ciphers that add sixteen zeros, and keys that are their contexts. -/
def plainCiphers : Ciphers where
  deriveKey ctx _ := ctx
  sealText _ _ _ plaintext _ := plaintext ++ List.replicate 16 0
  openText _ _ _ ciphertext _ := .ok (ciphertext.take (ciphertext.length - 16))

theorem plainCiphers_lawful : plainCiphers.Lawful where
  open_seal useAES key nonce plaintext additionalData := by
    simp only [plainCiphers, length_append, length_replicate, Nat.add_sub_cancel,
      take_left]
  length_seal useAES key nonce plaintext additionalData := by
    simp only [plainCiphers, length_append, length_replicate]

def plainConn : CommonConn := ⟨plainCiphers, false, [1]⟩

/-- Two sides whose nonce is the highest. -/
def lastNonceStart : Link :=
  ⟨⟨none, ⟨false, [7], maxNonce, rfl⟩⟩, ⟨false, some ⟨false, [7], maxNonce, rfl⟩, none, [], 0, 0⟩,
    ⟨[], [], []⟩, [], [], []⟩

/-- The first record is the last of its key, and reads go on. -/
theorem vless_stream_round_trip_lastNonce :
    LinkStart plainConn lastNonceStart [7] ∧
      ∃ s, Relation.ReflTransGen (LinkStep plainConn) lastNonceStart s ∧
        s.written = [1, 2, 3] ∧ s.got = [] ∧
        ∃ out r' conn', read plainConn s.reader 2 s.conn = (.ok out, r', conn') ∧
          out ≠ [] ∧ s.got ++ out <+: s.written := by
  have hstart : LinkStart plainConn lastNonceStart [7] :=
    ⟨.known rfl rfl rfl, rfl, rfl, rfl, rfl, ⟨Nat.le_refl 0, Nat.le_refl 0⟩, rfl, rfl⟩
  have hwrite := LinkStep.write (c := plainConn) (s := lastNonceStart) [1, 2, 3]
    ⟨((write plainConn lastNonceStart.writer [1, 2, 3]).1.map Prod.fst).flatten, [], []⟩
    (append_nil _)
  have hreach := Relation.ReflTransGen.single hwrite
  obtain ⟨-, hread, -⟩ := vless_stream_round_trip plainConn plainCiphers_lawful
    (fun _ _ h => h) hstart hreach
  refine ⟨hstart, _, hreach, rfl, rfl, ?_⟩
  rcases hread 2 (by decide) with ⟨hgot, -⟩ | ⟨out, r', conn', hout, hne, -, hbegin⟩
  · cases hgot
  · exact ⟨out, r', conn', hout, hne, hbegin⟩

end XrayCore.Vless
