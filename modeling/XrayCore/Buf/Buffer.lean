/-
  XrayCore.Buf.Buffer

  Buffers of a fixed size, and reading into them.

  `Takes m front a` is what makes reads into a buffer compose: with room for `front` the
  read takes exactly that off the stream and gives `a`, whatever follows and whatever the
  buffer holds; without it there is an error.  `Safe P m Q` says that a read does not stop
  the program, on any stream.
-/

import XrayCore.Bytes.Slice
import XrayCore.Machine.Result

namespace XrayCore.Buf

open Bytes Machine List

/-- `Size` of a regular buffer. -/
def size : ℕ := 8192

/-- `Buffer`: the bytes of `v` from `start` to `stop`, the `end` of the source. -/
structure Buffer where
  v : Bytes
  start : ℕ
  stop : ℕ
  start_le : start ≤ stop
  stop_le : stop ≤ v.length

namespace Buffer

variable (b : Buffer)

/-- `Bytes`. -/
def bytes : Bytes := (b.v.take b.stop).drop b.start

/-- `Len`. -/
def len : ℕ := b.stop - b.start

/-- `Byte`. -/
def byte (i : ℤ) : Option UInt8 :=
  if b.start + i < 0 then none else index b.v (b.start + i).toNat

/-- `BytesFrom`, from a position that counts from the end if it is negative. -/
def bytesFrom (from' : ℤ) : Option Bytes :=
  let i := b.start + if from' < 0 then from' + b.len else from'
  if i < 0 then none else slice b.v i.toNat b.stop

/-- Some more bytes behind the others. -/
def fill (bs : Bytes) (h : b.stop + bs.length ≤ b.v.length) : Buffer where
  v := b.v.take b.stop ++ (bs ++ b.v.drop (b.stop + bs.length))
  start := b.start
  stop := b.stop + bs.length
  start_le := Nat.le_trans b.start_le (Nat.le_add_right _ _)
  stop_le := by
    rw [List.length_append, List.length_append, List.length_take, List.length_drop]
    omega

variable {b}

theorem length_bytes : b.bytes.length = b.len := by
  have hstop := b.stop_le
  rw [bytes, length_drop, length_take, len]
  omega

theorem length_fill {bs : Bytes} (h : b.stop + bs.length ≤ b.v.length) :
    (b.fill bs h).v.length = b.v.length := by
  rw [fill, length_append, length_append, length_take, length_drop]
  omega

theorem bytes_fill {bs : Bytes} (h : b.stop + bs.length ≤ b.v.length) :
    (b.fill bs h).bytes = b.bytes ++ bs := by
  have hlen : (b.v.take b.stop).length = b.stop := by
    rw [length_take, Nat.min_eq_left b.stop_le]
  show ((b.v.take b.stop ++ (bs ++ _)).take (b.stop + bs.length)).drop b.start = _
  rw [← append_assoc, take_left' (by rw [length_append, hlen]),
    drop_append_of_le_length (by rw [hlen]; exact b.start_le)]
  rfl

variable {ys xs : Bytes}

/-- What `BytesFrom` gives of a buffer in two parts, from the second. -/
theorem drop_start_add (h : b.bytes = xs ++ ys) :
    (b.v.take b.stop).drop (b.start + xs.length) = ys := by
  rw [← drop_drop, show (b.v.take b.stop).drop b.start = xs ++ ys from h, drop_left]

theorem len_of_bytes (h : b.bytes = xs ++ ys) : b.len = xs.length + ys.length := by
  rw [← length_bytes, h, length_append]

theorem byte_last {x : UInt8} (h : b.bytes = xs ++ [x]) : b.byte (b.len - 1) = some x := by
  have hlen := len_of_bytes h
  rw [length_singleton] at hlen
  have hpos : ((b.start : ℤ) + (b.len - 1)).toNat = b.start + xs.length := by omega
  have hlt : b.start + xs.length < b.stop := by
    rw [len] at hlen
    omega
  -- the byte at that place is the first of what lies from there on
  have hdrop : ((b.v.take b.stop).drop (b.start + xs.length))[0]? = some x := by
    rw [drop_start_add h]
    rfl
  rw [getElem?_drop, Nat.add_zero, getElem?_take_of_lt hlt] at hdrop
  rw [byte, if_neg (by omega), hpos]
  exact hdrop

theorem bytesFrom_neg (h : b.bytes = xs ++ ys) (hys : ys ≠ []) :
    b.bytesFrom (-(ys.length : ℤ)) = some ys := by
  have hlen := len_of_bytes h
  have hpos := length_pos_of_ne_nil hys
  have hstop : b.len = b.stop - b.start := rfl
  have hpos' : ((b.start : ℤ) + (-(ys.length : ℤ) + b.len)).toNat = b.start + xs.length := by omega
  unfold bytesFrom
  dsimp only
  rw [if_pos (show -(ys.length : ℤ) < 0 by omega),
    if_neg (show ¬ (b.start : ℤ) + (-(ys.length : ℤ) + b.len) < 0 by omega), hpos',
    slice_of_le (by omega) b.stop_le, drop_start_add h]

theorem bytesFrom_zero : b.bytesFrom 0 = some b.bytes := by
  have hpos : ((b.start : ℤ) + 0).toNat = b.start := by omega
  unfold bytesFrom
  dsimp only
  rw [if_neg (Int.lt_irrefl 0), if_neg (by omega), hpos, slice_of_le b.start_le b.stop_le]
  rfl

/-- The positions that the reads below compute are numbers of 32 bits. -/
def Small (b : Buffer) : Prop := b.v.length + 255 < 2 ^ 31

end Buffer

/-! ## Reading into a buffer -/

/-- Code that reads a stream into a buffer.  The bytes are those that the stream still has; what
    an error leaves of the two is not kept. -/
abbrev Reading := StateT (Buffer × Bytes) Result

/-- `ReadFullFrom`. -/
def readFullFrom (n : ℕ) : Reading Unit := fun (b, input) =>
  -- a sum that wraps is negative, so it passes the comparison and is no bound of a slice
  if 2 ^ 31 ≤ b.stop + n then checked none
  else if hroom : b.stop + n ≤ b.v.length then
    if hinput : n ≤ input.length then
      have h : b.stop + (input.take n).length ≤ b.v.length := by
        rw [List.length_take, Nat.min_eq_left hinput]
        exact hroom
      pure ((), b.fill (input.take n) h, input.drop n)
    else throw (if input = [] then "EOF" else "unexpected EOF")
  else throw "out of bound: "

variable {α β : Type}

variable {front : Bytes} {b : Buffer}

theorem run_readFullFrom (h : b.stop + front.length ≤ b.v.length) (hb : b.Small)
    (rest : Bytes) :
    (readFullFrom front.length (b, front ++ rest)).run =
      some (.ok ((), b.fill front h, rest)) := by
  rw [Buffer.Small] at hb
  have htake : (front ++ rest).take front.length = front := take_left
  rw [readFullFrom, if_neg (by omega), dif_pos h, dif_pos (by rw [length_append]; omega)]
  simp only [htake, drop_left]
  rfl

/-- `ReadFullFrom`, and something read off the buffer then. -/
def readInto (n : ℕ) (g : Buffer → Option α) : Reading α := do
  readFullFrom n
  let (b, _) ← get
  checked (g b)

/-- `ReadFullFrom` of one byte, and the last byte. -/
def readByte : Reading UInt8 := readInto 1 fun b => b.byte (b.len - 1)

/-- `ReadFullFrom` of some bytes, and `BytesFrom` of as many from the end. -/
def readTail (n : ℕ) : Reading Bytes := readInto n fun b => b.bytesFrom (-(n : ℤ))

/-! ## What a read takes -/

/-- A buffer of the same size, with some more bytes. -/
structure Buffer.Grown (b : Buffer) (front : Bytes) (b' : Buffer) : Prop where
  length_eq : b'.v.length = b.v.length
  stop_eq : b'.stop = b.stop + front.length
  bytes_eq : b'.bytes = b.bytes ++ front

theorem Buffer.grown_fill {bs : Bytes} (h : b.stop + bs.length ≤ b.v.length) :
    b.Grown bs (b.fill bs h) :=
  ⟨length_fill h, rfl, bytes_fill h⟩

variable {x : Bytes}

theorem Buffer.Grown.trans {b' b'' : Buffer} {y : Bytes} (h : b.Grown x b')
    (h' : b'.Grown y b'') : b.Grown (x ++ y) b'' where
  length_eq := h'.length_eq.trans h.length_eq
  stop_eq := by rw [h'.stop_eq, h.stop_eq, length_append, Nat.add_assoc]
  bytes_eq := by rw [h'.bytes_eq, h.bytes_eq, append_assoc]

theorem Buffer.Grown.small {b' : Buffer} (h : b.Grown x b') (hb : b.Small) : b'.Small := by
  rw [Small, h.length_eq]
  exact hb

/-- With room for `front` the read takes exactly that and gives `a`; without there is an error. -/
def Takes (m : Reading α) (front : Bytes) (a : α) : Prop :=
  ∀ (b : Buffer) (rest : Bytes), b.Small →
    (b.stop + front.length ≤ b.v.length → ∃ b', b.Grown front b' ∧
      (m (b, front ++ rest)).run = some (.ok (a, b', rest))) ∧
    (b.v.length < b.stop + front.length →
      ∃ err, (m (b, front ++ rest)).run = some (.error err))

variable {a : α} {f : α → Reading β} {m : Reading α}

/-- What comes of a read that gave a value, or an error, in front of another. -/
theorem run_bind_ok {s s' : Buffer × Bytes} (h : (m s).run = some (.ok (a, s'))) :
    ((m >>= f) s).run = (f a s').run :=
  Result.run_bind_of_ok h fun x => f x.1 x.2

theorem run_bind_error (f : α → Reading β) {s : Buffer × Bytes} {err : String}
    (h : (m s).run = some (.error err)) : ((m >>= f) s).run = some (.error err) := by
  show ((m s >>= fun x => f x.1 x.2) : Result _).run = _
  rw [ExceptT.run_bind, h]
  rfl

/-- One after the other. -/
theorem Takes.bind {y : Bytes} {c : β} (hm : Takes m x a) (hf : Takes (f a) y c) :
    Takes (m >>= f) (x ++ y) c := by
  intro b rest hb
  obtain ⟨hroom, hfull⟩ := hm b (y ++ rest) hb
  rw [append_assoc, length_append]
  by_cases hx : b.stop + x.length ≤ b.v.length
  · obtain ⟨b', hgrown, hrun⟩ := hroom hx
    obtain ⟨hroom', hfull'⟩ := hf b' rest (hgrown.small hb)
    rw [hgrown.stop_eq, hgrown.length_eq] at hroom' hfull'
    rw [run_bind_ok hrun]
    refine ⟨fun h => ?_, fun h => hfull' (by omega)⟩
    obtain ⟨b'', hgrown', hrun'⟩ := hroom' (by omega)
    exact ⟨b'', hgrown.trans hgrown', hrun'⟩
  · obtain ⟨err, hrun⟩ := hfull (by omega)
    exact ⟨fun h => by omega, fun _ => ⟨err, run_bind_error f hrun⟩⟩

theorem takes_pure (a : α) : Takes (pure a : Reading α) [] a := by
  intro b rest _
  have hstop := b.stop_le
  refine ⟨fun _ => ⟨b, ⟨rfl, rfl, (append_nil _).symm⟩, rfl⟩, fun h => ?_⟩
  rw [length_nil] at h
  omega

/-- The last one, after which nothing more is taken. -/
theorem Takes.last {c : β} (hm : Takes m x a) (hf : Takes (f a) [] c) : Takes (m >>= f) x c := by
  have h := hm.bind hf
  rw [append_nil] at h
  exact h

/-- What is read off the buffer is told by the bytes that were read last. -/
theorem takes_readInto (hlen : front.length ≤ 255) {g : Buffer → Option α}
    (hg : ∀ (b : Buffer) xs, b.bytes = xs ++ front → g b = some a) :
    Takes (readInto front.length g) front a := by
  intro b rest hb
  refine ⟨fun h => ⟨b.fill front h, Buffer.grown_fill h, ?_⟩, fun h => ?_⟩
  · rw [readInto, run_bind_ok (run_readFullFrom h hb rest)]
    show (checked (g (b.fill front h)) >>= fun a => pure (a, b.fill front h, rest)).run = _
    rw [hg _ _ (Buffer.bytes_fill h)]
    rfl
  · have hstop := b.stop_le
    rw [Buffer.Small] at hb
    refine ⟨"out of bound: ", run_bind_error _ ?_⟩
    rw [readFullFrom, if_neg (by omega), dif_neg (by omega)]
    rfl

theorem takes_readByte (x : UInt8) : Takes readByte [x] x :=
  takes_readInto (Nat.le_add_left [x].length 254) fun _ _ h => Buffer.byte_last h

theorem takes_readTail {n : ℕ} (hn : front.length = n) (hne : front ≠ []) (hle : n ≤ 255) :
    Takes (readTail n) front front := by
  subst hn
  exact takes_readInto hle fun _ _ h => Buffer.bytesFrom_neg h hne

/-! ## Reads that do not stop the program -/

/-- From a buffer of which `P` holds, the read gives an error, or a value and a buffer of which `Q`
    holds. -/
def Safe (P : Buffer → Prop) (m : Reading α) (Q : α → Buffer → Prop) : Prop :=
  ∀ (b : Buffer) (input : Bytes), b.Small → P b →
    (∃ err, (m (b, input)).run = some (.error err)) ∨
    ∃ a b' rest, (m (b, input)).run = some (.ok (a, b', rest)) ∧ b'.Small ∧ Q a b'

variable {Q : α → Buffer → Prop} {P : Buffer → Prop}

theorem Safe.bind {R : β → Buffer → Prop} (hm : Safe P m Q) (hf : ∀ a, Safe (Q a) (f a) R) :
    Safe P (m >>= f) R := by
  intro b input hb hP
  obtain ⟨err, hrun⟩ | ⟨a, b', rest, hrun, hb', hQ⟩ := hm b input hb hP
  · exact .inl ⟨err, run_bind_error f hrun⟩
  · rw [run_bind_ok hrun]
    exact hf a b' rest hb' hQ

theorem Safe.weaken {P' : Buffer → Prop} (hm : Safe P m Q) (h : ∀ b, P' b → P b) : Safe P' m Q :=
  fun b input hb hP => hm b input hb (h b hP)

/-- What is known of the buffer may also be a fact that has nothing to do with it. -/
theorem Safe.of_fact {p : Prop} (h : p → Safe (fun _ => True) m Q) : Safe (fun _ => p) m Q :=
  fun b input hb hp => h hp b input hb trivial

theorem safe_pure (h : ∀ b, P b → Q a b) : Safe P (pure a) Q :=
  fun b input hb hP => .inr ⟨a, b, input, rfl, hb, h b hP⟩

theorem safe_throw (err : String) : Safe P (throw err) Q :=
  fun _ _ _ _ => .inl ⟨err, rfl⟩

/-- However many bytes are read, what is read off the buffer then is there. -/
theorem safe_readInto {n : ℕ} (hn : n ≤ 255) {g : Buffer → Option α}
    (hg : ∀ (b b' : Buffer) front, P b → front.length = n → b'.bytes = b.bytes ++ front →
      ∃ a, g b' = some a ∧ Q a b') : Safe P (readInto n g) Q := by
  intro b input hb hP
  have hstop := b.stop_le
  have hsmall := hb
  rw [Buffer.Small] at hsmall
  by_cases hroom : b.stop + n ≤ b.v.length
  · by_cases hinput : n ≤ input.length
    · obtain ⟨front, rest, rfl, rfl⟩ : ∃ front rest, input = front ++ rest ∧ front.length = n :=
        ⟨input.take n, input.drop n, (take_append_drop n input).symm,
          by rw [length_take, Nat.min_eq_left hinput]⟩
      obtain ⟨a, ha, hQ⟩ := hg b _ front hP rfl (Buffer.bytes_fill hroom)
      refine .inr ⟨a, b.fill front hroom, rest, ?_, (Buffer.grown_fill hroom).small hb, hQ⟩
      rw [readInto, run_bind_ok (run_readFullFrom hroom hb rest)]
      show (checked (g (b.fill front hroom)) >>= fun a => pure (a, _, _)).run = _
      rw [ha]
      rfl
    · refine .inl ⟨if input = [] then "EOF" else "unexpected EOF", run_bind_error _ ?_⟩
      rw [readFullFrom, if_neg (by omega), dif_pos hroom, dif_neg hinput]
      rfl
  · refine .inl ⟨"out of bound: ", run_bind_error _ ?_⟩
    rw [readFullFrom, if_neg (by omega), dif_neg hroom]
    rfl

/-- A byte that was read is in the buffer. -/
theorem safe_readByte : Safe P readByte fun _ b => b.bytes ≠ [] := by
  refine safe_readInto (Nat.le_add_left 1 254) fun b b' front _ hlen h => ?_
  obtain ⟨x, rfl⟩ := length_eq_one_iff.mp hlen
  refine ⟨x, Buffer.byte_last h, ?_⟩
  rw [h]
  exact append_ne_nil_of_right_ne_nil _ (cons_ne_nil _ _)

/-- As many bytes as were asked for; all of the buffer for none at all. -/
theorem safe_readTail {n : ℕ} (hn : n ≤ 255) :
    Safe (fun b => n = 0 → b.bytes ≠ []) (readTail n) fun bs _ =>
      bs ≠ [] ∧ (n ≠ 0 → bs.length = n) := by
  refine safe_readInto hn fun b b' front hP hlen h => ?_
  by_cases hzero : n = 0
  · subst hzero
    obtain rfl := length_eq_zero_iff.mp hlen
    rw [append_nil] at h
    refine ⟨b'.bytes, Buffer.bytesFrom_zero, ?_, fun hne => absurd rfl hne⟩
    rw [h]
    exact hP rfl
  · have hne : front ≠ [] := ne_nil_of_length_pos (by omega)
    subst hlen
    exact ⟨front, Buffer.bytesFrom_neg h hne, hne, fun _ => rfl⟩

end XrayCore.Buf
