/-
  XrayCore.Vision.Padding

  Padding a buffer of Vision, and taking the padding off again.

  How much padding there is comes from four settings, in 32 bits and with a sign.  It stops
  the program where a draw has nothing to draw from, or where the padding comes out
  negative; the settings for which neither can happen are just those of `safe_iff`.
-/

import XrayCore.Buf.Buffer

namespace XrayCore.Vision

open List Option

/-! ## Padding -/

/-- A number in 32 bits with a sign. -/
def int32 (n : ℤ) : ℤ := (n + 2 ^ 31) % 2 ^ 32 - 2 ^ 31

/-- `rand.Int`: a number below a bound, `none` if there is none. -/
def randInt (max draw : ℕ) : Option ℕ := if max = 0 then none else some (draw % max)

/-- The two bytes of a length. -/
def lengthBytes (n : ℕ) : Bytes := [UInt8.ofNat (n >>> 8), UInt8.ofNat n]

/-- `Buffer.Write` into a regular buffer: what does not fit is lost. -/
def write (b data : Bytes) : Bytes := b ++ data.take (Buf.size - b.length)

/-- `Buffer.Extend` of a regular buffer, `none` where the slice is out of range. -/
def extend (b : Bytes) (n : ℤ) : Option Bytes :=
  if 0 ≤ n ∧ b.length + n ≤ Buf.size then some (b ++ List.replicate n.toNat 0) else none

/-- The padding that `XtlsPadding` draws, before it is bounded. -/
def drawPadding (contentLen : ℕ) (longPadding : Bool) (s0 s1 s2 s3 : UInt32) (draw : ℕ) :
    Option ℤ :=
  if contentLen < int32 s0.toNat ∧ longPadding then
    (randInt s1.toNat draw).map fun l : ℕ => int32 (int32 (int32 l + int32 s2.toNat) - contentLen)
  else (randInt s3.toNat draw).map fun l : ℕ => int32 l

/-- `XtlsPadding`, with what is drawn; `none` where the program stops. -/
def xtlsPadding (content : Bytes) (command : UInt8) (userUUID : Option Bytes)
    (longPadding : Bool) (testseed : List UInt32) (draw : ℕ) : Option Bytes :=
  match testseed with
  | s0 :: s1 :: s2 :: s3 :: _ => do
    let drawn ← drawPadding content.length longPadding s0 s1 s2 s3 draw
    let most : ℤ := Buf.size - 21 - content.length
    let paddingLen := if drawn > most then most else drawn
    let newbuffer := write [] (userUUID.getD [])
    let newbuffer := write newbuffer
      (command :: (lengthBytes content.length ++ lengthBytes paddingLen.toNat))
    extend (write newbuffer content) paddingLen
  | _ => none

/-! ## Unpadding -/

/-- What `TrafficState` has for one direction. -/
structure Direction where
  remainingCommand : ℤ
  remainingContent : ℤ
  remainingPadding : ℤ
  currentCommand : ℕ
deriving DecidableEq

namespace Direction

/-- The initial state, with a command that is left from before. -/
def initial (currentCommand : ℕ) : Direction := ⟨-1, -1, -1, currentCommand⟩

/-- A byte of the head of a block. -/
def readCommand (s : Direction) (data : UInt8) : Direction :=
  let s := match s.remainingCommand with
    | 5 => { s with currentCommand := data.toNat }
    | 4 => { s with remainingContent := (data.toNat <<< 8 : ℕ) }
    | 3 => { s with remainingContent := s.remainingContent.lor data.toNat }
    | 2 => { s with remainingPadding := (data.toNat <<< 8 : ℕ) }
    | 1 => { s with remainingPadding := s.remainingPadding.lor data.toNat }
    | _ => s
  { s with remainingCommand := s.remainingCommand - 1 }

/-- One turn of the loop, up to the check for the end of a block: the state, what is left of the
    buffer, and what was written. -/
def turn (s : Direction) (b : Bytes) : Direction × Bytes × Bytes :=
  if 0 < s.remainingCommand then (s.readCommand (b.getD 0 0), b.drop 1, [])
  else if 0 < s.remainingContent then
    let len := min s.remainingContent.toNat b.length
    ({ s with remainingContent := s.remainingContent - len }, b.drop len, b.take len)
  else
    let len := min s.remainingPadding.toNat b.length
    ({ s with remainingPadding := s.remainingPadding - len }, b.drop len, [])

/-- Nothing is left of a block. -/
def blockDone (s : Direction) : Bool :=
  s.remainingCommand ≤ 0 ∧ s.remainingContent ≤ 0 ∧ s.remainingPadding ≤ 0

variable {b : Bytes}

/-- What a turn leaves comes before what was there: it takes some bytes, or nothing was left of the
    block. -/
theorem turn_decreases (s t : Direction) (hb : b ≠ []) (ht : t.blockDone = false) :
    Prod.Lex (· < ·) (· < ·) ((s.turn b).2.1.length, if t.blockDone then 1 else 0)
      (b.length, if s.blockDone then 1 else 0) := by
  have hpos := length_pos_iff.mpr hb
  rw [ht]
  by_cases hs : s.blockDone
  · have hle : (s.turn b).2.1.length ≤ b.length := by
      unfold turn
      split
      · rw [length_drop]
        omega
      · split
        · rw [length_drop]
          omega
        · rw [length_drop]
          omega
    rw [hs]
    rcases Nat.lt_or_eq_of_le hle with hlt | heq
    · exact .left _ _ hlt
    · rw [heq]
      exact .right _ (by decide)
  · apply Prod.Lex.left
    simp only [blockDone, decide_eq_true_eq] at hs
    unfold turn
    split
    · rw [length_drop]
      omega
    · split
      · rw [length_drop]
        omega
      · rw [length_drop]
        omega

/-- The loop of `XtlsUnpadding`: the state after it, and the buffer that was written. -/
def unpad (s : Direction) (b newbuffer : Bytes) : Direction × Bytes :=
  if _hb : b = [] then (s, newbuffer)
  else
    let s' := (s.turn b).1
    let b' := (s.turn b).2.1
    let newbuffer := newbuffer ++ (s.turn b).2.2
    if _hdone : s'.blockDone then
      if s'.currentCommand = 0 then unpad { s' with remainingCommand := 5 } b' newbuffer
      else (initial s'.currentCommand, newbuffer ++ b')
    else unpad s' b' newbuffer
termination_by (b.length, if s.blockDone then 1 else 0)
decreasing_by
  · exact turn_decreases s _ _hb
      (decide_eq_false fun h => absurd h.1 (show ¬ (5 : ℤ) ≤ 0 by decide))
  · exact turn_decreases s _ _hb (Bool.eq_false_iff.mpr _hdone)

/-- `XtlsUnpadding`, for a user. -/
def xtlsUnpadding (userUUID : Bytes) (s : Direction) (b : Bytes) :
    Direction × Bytes :=
  if s.remainingCommand = -1 ∧ s.remainingContent = -1 ∧ s.remainingPadding = -1 then
    if 21 ≤ b.length ∧ userUUID = b.take 16 then
      unpad { s with remainingCommand := 5 } (b.drop 16) []
    else (s, b)
  else unpad s b []

/-! ## A whole block -/

/-- What comes after a turn. -/
def afterTurn (s : Direction) (b newbuffer : Bytes) : Direction × Bytes :=
  if s.blockDone then
    if s.currentCommand = 0 then unpad { s with remainingCommand := 5 } b newbuffer
    else (initial s.currentCommand, newbuffer ++ b)
  else unpad s b newbuffer

theorem unpad_of_ne_nil (s : Direction) (hb : b ≠ []) (newbuffer : Bytes) :
    s.unpad b newbuffer =
      afterTurn (s.turn b).1 (s.turn b).2.1 (newbuffer ++ (s.turn b).2.2) := by
  rw [unpad, dif_neg hb]
  rfl

variable {s : Direction}

theorem afterTurn_of_done (hs : s.blockDone) (newbuffer : Bytes) :
    (s.afterTurn [] newbuffer).2 = newbuffer := by
  rw [afterTurn, if_pos hs]
  split
  · rw [unpad, dif_pos rfl]
  · exact append_nil _

theorem afterTurn_of_not_done (hs : ¬ s.blockDone) (hb : b ≠ []) (newbuffer : Bytes) :
    s.afterTurn b newbuffer =
      afterTurn (s.turn b).1 (s.turn b).2.1 (newbuffer ++ (s.turn b).2.2) := by
  rw [afterTurn, if_neg hs, unpad_of_ne_nil s hb]

theorem afterTurn_padding (padding command : ℕ) (newbuffer : Bytes) :
    (afterTurn ⟨0, 0, padding, command⟩ (List.replicate padding 0) newbuffer).2 = newbuffer := by
  rcases Nat.eq_zero_or_pos padding with rfl | hpos
  · exact afterTurn_of_done rfl newbuffer
  · have hdone : ¬ (⟨0, 0, padding, command⟩ : Direction).blockDone := by
      simp only [blockDone, decide_eq_true_eq]
      omega
    have hne : replicate padding (0 : UInt8) ≠ [] := by
      rw [ne_eq, replicate_eq_nil_iff]
      omega
    have hturn : (⟨0, 0, padding, command⟩ : Direction).turn (replicate padding 0) =
        (⟨0, 0, 0, command⟩, [], []) := by
      simp [turn]
    rw [afterTurn_of_not_done hdone hne, hturn, append_nil]
    exact afterTurn_of_done rfl newbuffer

/-- Behind the head of a block, its content is written and its padding is not. -/
theorem afterTurn_block (content : Bytes) (padding command : ℕ) (newbuffer : Bytes) :
    (afterTurn ⟨0, content.length, padding, command⟩
      (content ++ List.replicate padding 0) newbuffer).2 = newbuffer ++ content := by
  by_cases hne : content = []
  · rw [hne, append_nil]
    exact afterTurn_padding padding command newbuffer
  · have hpos := length_pos_iff.mpr hne
    have hdone : ¬ (⟨0, content.length, padding, command⟩ : Direction).blockDone := by
      simp only [blockDone, decide_eq_true_eq]
      omega
    have hturn : (⟨0, content.length, padding, command⟩ : Direction).turn
        (content ++ replicate padding 0) =
          (⟨0, 0, padding, command⟩, replicate padding 0, content) := by
      have hlen : min content.length (content ++ replicate padding 0).length =
          content.length := by
        rw [length_append]
        omega
      simp only [turn, Int.lt_irrefl, if_false]
      rw [if_pos (by omega), Int.toNat_natCast, hlen, drop_left, take_left, Int.sub_self]
    rw [afterTurn_of_not_done hdone (by simp [hne]), hturn]
    exact afterTurn_padding padding command _

theorem remainingCommand_readCommand (s : Direction) (data : UInt8) :
    (s.readCommand data).remainingCommand = s.remainingCommand - 1 := by
  unfold readCommand
  dsimp only
  split
  · rfl
  · rfl
  · rfl
  · rfl
  · rfl
  · rfl

/-- A byte of the head that is not the last of it. -/
theorem unpad_command (hs : 1 < s.remainingCommand) (data : UInt8) (b newbuffer : Bytes) :
    s.unpad (data :: b) newbuffer = (s.readCommand data).unpad b newbuffer := by
  have hturn : s.turn (data :: b) = (s.readCommand data, b, []) := if_pos (by omega)
  have hdone : ¬ (s.readCommand data).blockDone := by
    have hcommand := s.remainingCommand_readCommand data
    simp only [blockDone, decide_eq_true_eq]
    omega
  rw [unpad_of_ne_nil s (cons_ne_nil _ _), hturn, append_nil, afterTurn, if_neg hdone]

theorem lengthBytes_or {n : ℕ} (h : n < 65536) :
    (UInt8.ofNat (n >>> 8)).toNat <<< 8 ||| (UInt8.ofNat n).toNat = n := by
  have hlow : (UInt8.ofNat n).toNat = n % 256 := UInt8.toNat_ofNat'
  have hhigh : (UInt8.ofNat (n >>> 8)).toNat = n / 256 := by
    rw [UInt8.toNat_ofNat', Nat.shiftRight_eq_div_pow]
    exact Nat.mod_eq_of_lt (by omega)
  rw [hlow, hhigh, ← Nat.shiftLeft_add_eq_or_of_lt (Nat.mod_lt n (by decide)), Nat.shiftLeft_eq]
  exact Nat.div_add_mod' n 256

/-- The head of a block is read byte by byte. -/
theorem unpad_block (hs : s.remainingCommand = 5) (command : UInt8) {content : Bytes}
    {padding : ℕ} (hcontent : content.length < 65536) (hpadding : padding < 65536)
    (newbuffer : Bytes) :
    (s.unpad (command :: (lengthBytes content.length ++ lengthBytes padding) ++
      (content ++ List.replicate padding 0)) newbuffer).2 = newbuffer ++ content := by
  obtain ⟨rc, rcontent, rpadding, current⟩ := s
  obtain rfl : rc = 5 := hs
  -- four bytes of the head, and the last one
  let hi := (UInt8.ofNat (content.length >>> 8)).toNat <<< 8
  let lo := (UInt8.ofNat content.length).toNat
  let phi := (UInt8.ofNat (padding >>> 8)).toNat <<< 8
  let plo := (UInt8.ofNat padding).toNat
  show (unpad _ (command :: UInt8.ofNat _ :: UInt8.ofNat _ :: UInt8.ofNat _ :: UInt8.ofNat _ ::
    (content ++ replicate padding 0)) newbuffer).2 = _
  rw [unpad_command (show (1 : ℤ) < 5 by decide)]
  show (unpad ⟨4, rcontent, rpadding, command.toNat⟩ _ _).2 = _
  rw [unpad_command (show (1 : ℤ) < 4 by decide)]
  show (unpad ⟨3, hi, rpadding, command.toNat⟩ _ _).2 = _
  rw [unpad_command (show (1 : ℤ) < 3 by decide)]
  show (unpad ⟨2, (hi ||| lo : ℕ), rpadding, command.toNat⟩ _ _).2 = _
  rw [unpad_command (show (1 : ℤ) < 2 by decide)]
  show (unpad ⟨1, (hi ||| lo : ℕ), phi, command.toNat⟩ _ _).2 = _
  rw [unpad_of_ne_nil _ (cons_ne_nil _ _)]
  show (afterTurn ⟨0, (hi ||| lo : ℕ), (phi ||| plo : ℕ), command.toNat⟩
    (content ++ replicate padding 0) (newbuffer ++ [])).2 = _
  rw [lengthBytes_or hcontent, lengthBytes_or hpadding, append_nil]
  exact afterTurn_block content padding command.toNat newbuffer

end Direction

/-! ## What is safe -/

/-- A block with its padding, after the id if there is one. -/
def block (userUUID : Option Bytes) (command : UInt8) (content : Bytes)
    (padding : ℕ) : Bytes :=
  userUUID.getD [] ++ (command :: (lengthBytes content.length ++ lengthBytes padding) ++
    (content ++ List.replicate padding 0))

/-- Where a block is expected: at the start, with the id in front; or after another block. -/
def Direction.Expects (s : Direction) (user : Bytes) : Option Bytes → Prop
  | some id => id = user ∧
    s.remainingCommand = -1 ∧ s.remainingContent = -1 ∧ s.remainingPadding = -1
  | none => s.remainingCommand = 5

/-- Settings with which padding never stops the program: a block of at most the size of a buffer
    comes of it, which says how much padding it has, and unpadding gives the content. -/
def Safe (testseed : List UInt32) : Prop :=
  ∀ content : Bytes, content.length ≤ Buf.size - 21 →
  ∀ (command : UInt8) (userUUID : Option Bytes), (∀ id ∈ userUUID, id.length = 16) →
  ∀ (longPadding : Bool) (draw : ℕ), ∃ padding,
    xtlsPadding content command userUUID longPadding testseed draw =
      some (block userUUID command content padding) ∧
    (block userUUID command content padding).length ≤ Buf.size ∧
    ∀ (s : Direction) (user : Bytes), s.Expects user userUUID →
      (s.xtlsUnpadding user (block userUUID command content padding)).2 = content

variable {userUUID : Option Bytes}

theorem length_block (command : UInt8) (content : Bytes) (padding : ℕ) :
    (block userUUID command content padding).length =
      (userUUID.getD []).length + 5 + content.length + padding := by
  simp only [block, lengthBytes, length_append, length_cons, length_nil, length_replicate]
  omega

theorem xtlsUnpadding_block {s : Direction} {user : Bytes} (hs : s.Expects user userUUID)
    (hid : ∀ id ∈ userUUID, id.length = 16) (command : UInt8) {content : Bytes} {padding : ℕ}
    (hcontent : content.length < 65536) (hpadding : padding < 65536) :
    (s.xtlsUnpadding user (block userUUID command content padding)).2 = content := by
  cases userUUID with
  | some id =>
    obtain ⟨rfl, hinitial⟩ := hs
    have hlen : id.length = 16 := hid id rfl
    have htake : (block (some id) command content padding).take 16 = id := take_left' hlen
    have hdrop : (block (some id) command content padding).drop 16 =
        command :: (lengthBytes content.length ++ lengthBytes padding) ++
          (content ++ replicate padding 0) := drop_left' hlen
    have hlong : 21 ≤ (block (some id) command content padding).length := by
      rw [length_block]
      show 21 ≤ id.length + 5 + _ + _
      omega
    rw [Direction.xtlsUnpadding, if_pos hinitial, if_pos ⟨hlong, htake.symm⟩, hdrop,
      Direction.unpad_block rfl command hcontent hpadding]
    rfl
  | none =>
    have hother : ¬ (s.remainingCommand = -1 ∧ s.remainingContent = -1 ∧
        s.remainingPadding = -1) := by
      rintro ⟨hcommand, -⟩
      exact absurd (hcommand.symm.trans hs) (by decide)
    rw [Direction.xtlsUnpadding, if_neg hother]
    exact Direction.unpad_block hs command hcontent hpadding []

theorem write_of_fits {b data : Bytes} (h : b.length + data.length ≤ Buf.size) :
    write b data = b ++ data := by
  rw [write, take_of_length_le (by omega)]

section

variable {content : Bytes} {command : UInt8} {userUUID : Option Bytes}
  {longPadding : Bool} {s0 s1 s2 s3 : UInt32} {rest : List UInt32} {draw : ℕ}

/-- A draw that is not negative gives a block, with at most the padding that fits. -/
theorem xtlsPadding_of_drawn (command : UInt8) (rest : List UInt32) {drawn : ℤ}
    (hcontent : content.length ≤ Buf.size - 21)
    (hid : ∀ id ∈ userUUID, id.length = 16)
    (hdrawn : drawPadding content.length longPadding s0 s1 s2 s3 draw = some drawn)
    (hpos : 0 ≤ drawn) : ∃ padding,
      xtlsPadding content command userUUID longPadding (s0 :: s1 :: s2 :: s3 :: rest) draw =
        some (block userUUID command content padding) ∧
      (block userUUID command content padding).length ≤ Buf.size := by
  have hsize : Buf.size = 8192 := rfl
  have huuid : (userUUID.getD []).length ≤ 16 := by
    cases userUUID with
    | some id => exact Nat.le_of_eq (hid id rfl)
    | none => exact Nat.zero_le 16
  obtain ⟨padding, hpadding, hmost⟩ : ∃ padding : ℕ,
      (if drawn > (Buf.size : ℤ) - 21 - content.length then (Buf.size : ℤ) - 21 - content.length
        else drawn) = padding ∧ content.length + padding ≤ Buf.size - 21 := by
    split
    · exact ⟨Buf.size - 21 - content.length, by omega, by omega⟩
    · exact ⟨drawn.toNat, by omega, by omega⟩
  have hhead : (command :: (lengthBytes content.length ++ lengthBytes padding)).length = 5 := rfl
  refine ⟨padding, ?_, by rw [length_block]; omega⟩
  rw [xtlsPadding, hdrawn, bind_eq_bind, bind_some]
  dsimp only
  have hid' : write [] (userUUID.getD []) = userUUID.getD [] :=
    write_of_fits (by rw [length_nil]; omega)
  rw [hpadding, Int.toNat_natCast, hid',
    write_of_fits (b := userUUID.getD []) (by rw [hhead]; omega),
    write_of_fits (by rw [length_append, hhead]; omega), extend, if_pos]
  · rw [Int.toNat_natCast, block, append_assoc, append_assoc]
  · rw [length_append, length_append, hhead]
    omega

/-- Where it does not stop, what was drawn is not negative. -/
theorem drawn_of_xtlsPadding {out : Bytes}
    (h : xtlsPadding content command userUUID longPadding (s0 :: s1 :: s2 :: s3 :: rest) draw =
      some out) :
    ∃ drawn, drawPadding content.length longPadding s0 s1 s2 s3 draw = some drawn ∧ 0 ≤ drawn := by
  rw [xtlsPadding, bind_eq_bind] at h
  obtain ⟨drawn, hdrawn, h⟩ := bind_eq_some_iff.mp h
  refine ⟨drawn, hdrawn, ?_⟩
  dsimp only at h
  generalize hpadding : (if drawn > (Buf.size : ℤ) - 21 - content.length
    then (Buf.size : ℤ) - 21 - content.length else drawn) = padding at h
  unfold extend at h
  split at h
  · next hfits =>
    have hle := hfits.1
    rw [← hpadding] at hle
    split at hle
    · omega
    · exact hle
  · nomatch h

end

theorem int32_nonneg_iff {x : ℤ} (hlow : -2 ^ 31 ≤ x) (hhigh : x < 2 ^ 32) :
    0 ≤ int32 x ↔ 0 ≤ x ∧ x < 2 ^ 31 := by
  unfold int32
  omega

theorem int32_add (a b : ℤ) : int32 (int32 a + b) = int32 (a + b) := by
  unfold int32
  omega

/-- The sum is the one without a bound, in 32 bits. -/
theorem int32_sum (l s n : ℤ) : int32 (int32 (int32 l + int32 s) - n) = int32 (l + s - n) := by
  rw [Int.sub_eq_add_neg, int32_add, Int.add_assoc, int32_add, Int.add_left_comm, int32_add,
    Int.add_left_comm, ← Int.add_assoc, ← Int.sub_eq_add_neg]

theorem randInt_nonneg_iff (max draw : ℕ) (f : ℕ → ℤ) :
    (∃ drawn, (randInt max draw).map f = some drawn ∧ 0 ≤ drawn) ↔
      max ≠ 0 ∧ 0 ≤ f (draw % max) := by
  unfold randInt
  by_cases hmax : max = 0
  · rw [if_pos hmax]
    exact ⟨fun ⟨_, h, _⟩ => (nomatch h), fun h => absurd hmax h.1⟩
  · rw [if_neg hmax]
    refine ⟨fun ⟨drawn, h, hpos⟩ => ⟨hmax, ?_⟩, fun h => ⟨_, rfl, h.2⟩⟩
    rw [some.inj h]
    exact hpos

/-- The long padding is drawn for content that is shorter than a first setting without a sign. -/
theorem lt_int32_iff (n : ℕ) (s0 : UInt32) :
    n < int32 s0.toNat ↔ n < s0.toNat ∧ s0.toNat < 2 ^ 31 := by
  have h0 := s0.toNat_lt
  unfold int32
  omega

section

variable {n : ℕ} {longPadding : Bool} {s0 s1 s2 s3 : UInt32}

theorem long_nonneg_iff (hlong : n < s0.toNat ∧ s0.toNat < 2 ^ 31) (draw : ℕ) :
    (∃ drawn, drawPadding n true s0 s1 s2 s3 draw = some drawn ∧ 0 ≤ drawn) ↔
      s1.toNat ≠ 0 ∧ 0 ≤ int32 ((draw % s1.toNat : ℕ) + s2.toNat - n) := by
  rw [drawPadding, if_pos ⟨(lt_int32_iff n s0).mpr hlong, rfl⟩, randInt_nonneg_iff, int32_sum]

theorem short_nonneg_iff (hshort : ¬ (n < s0.toNat ∧ s0.toNat < 2 ^ 31) ∨ longPadding = false)
    (draw : ℕ) :
    (∃ drawn, drawPadding n longPadding s0 s1 s2 s3 draw = some drawn ∧ 0 ≤ drawn) ↔
      s3.toNat ≠ 0 ∧ 0 ≤ int32 (draw % s3.toNat : ℕ) := by
  rw [drawPadding, if_neg, randInt_nonneg_iff]
  rintro ⟨hlt, hpadding⟩
  rcases hshort with hshort | hshort
  · exact hshort ((lt_int32_iff n s0).mp hlt)
  · rw [hshort] at hpadding
    nomatch hpadding

end

/-- The settings with which padding is safe: the short draw has something to draw from and fits 32
    bits with a sign; and so does the long one, whatever content it is for, if there is any. -/
theorem safe_iff (s0 s1 s2 s3 : UInt32) (rest : List UInt32) :
    Safe (s0 :: s1 :: s2 :: s3 :: rest) ↔
      (1 ≤ s3.toNat ∧ s3.toNat ≤ 2 ^ 31) ∧
      (s0.toNat = 0 ∨ 2 ^ 31 ≤ s0.toNat ∨
        1 ≤ s1.toNat ∧ min (s0.toNat - 1) 8171 ≤ s2.toNat ∧ s1.toNat + s2.toNat ≤ 2 ^ 31) := by
  have h1 := s1.toNat_lt
  have h2 := s2.toNat_lt
  have h3 := s3.toNat_lt
  have hsize : Buf.size = 8192 := rfl
  constructor
  · intro hsafe
    -- what was drawn is not negative, for any content, draw and kind of padding
    have hdrawn : ∀ n ≤ 8171, ∀ longPadding draw, ∃ drawn,
        drawPadding n longPadding s0 s1 s2 s3 draw = some drawn ∧ 0 ≤ drawn := by
      intro n hn longPadding draw
      obtain ⟨padding, hpad, -⟩ := hsafe (replicate n 0)
        (by rw [length_replicate]; exact hn) 0 none nofun longPadding draw
      have h := drawn_of_xtlsPadding hpad
      rwa [length_replicate] at h
    refine ⟨?_, ?_⟩
    · obtain ⟨hsome, hpos⟩ := (short_nonneg_iff (.inr rfl) (s3.toNat - 1)).mp
        (hdrawn 0 (Nat.zero_le _) false _)
      rw [Nat.mod_eq_of_lt (by omega), int32_nonneg_iff (by omega) (by omega)] at hpos
      omega
    · by_cases hs0 : 0 < s0.toNat ∧ s0.toNat < 2 ^ 31
      · have hlong : ∀ n ≤ min (s0.toNat - 1) 8171, ∀ draw,
            s1.toNat ≠ 0 ∧ 0 ≤ int32 ((draw % s1.toNat : ℕ) + s2.toNat - n) := by
          intro n hn draw
          exact (long_nonneg_iff (by omega) draw).mp (hdrawn n (by omega) true draw)
        obtain ⟨hsome, -⟩ := hlong 0 (Nat.zero_le _) 0
        refine .inr (.inr ⟨by omega, ?_, ?_⟩)
        · -- the most content, and nothing drawn
          obtain ⟨-, hpos⟩ := hlong _ (Nat.le_refl _) 0
          rw [Nat.zero_mod, int32_nonneg_iff (by omega) (by omega)] at hpos
          omega
        · -- no content, and as much drawn as leaves 31 bits
          by_contra hlarge
          have hlt : 2 ^ 31 - s2.toNat < s1.toNat := by omega
          obtain ⟨-, hpos⟩ := hlong 0 (Nat.zero_le _) (2 ^ 31 - s2.toNat)
          rw [Nat.mod_eq_of_lt hlt, int32_nonneg_iff (by omega) (by omega)] at hpos
          omega
      · omega
  · rintro ⟨⟨hsome, hmost⟩, hlong⟩ content hcontent command userUUID hid longPadding draw
    have hdrawn : ∃ drawn, drawPadding content.length longPadding s0 s1 s2 s3 draw = some drawn ∧
        0 ≤ drawn := by
      by_cases hcond : (content.length < s0.toNat ∧ s0.toNat < 2 ^ 31) ∧ longPadding
      · obtain ⟨hs0, rfl⟩ := hcond
        obtain ⟨hsome1, hleast, hsum⟩ : 1 ≤ s1.toNat ∧ min (s0.toNat - 1) 8171 ≤ s2.toNat ∧
            s1.toNat + s2.toNat ≤ 2 ^ 31 := by
          rcases hlong with hzero | hlarge | hlong
          · omega
          · omega
          · exact hlong
        have hmod := Nat.mod_lt draw hsome1
        rw [long_nonneg_iff hs0, int32_nonneg_iff (by omega) (by omega)]
        omega
      · have hshort : ¬ (content.length < s0.toNat ∧ s0.toNat < 2 ^ 31) ∨ longPadding = false := by
          cases longPadding with
          | true => exact .inl fun h => hcond ⟨h, rfl⟩
          | false => exact .inr rfl
        have hmod := Nat.mod_lt draw hsome
        rw [short_nonneg_iff hshort, int32_nonneg_iff (by omega) (by omega)]
        omega
    obtain ⟨drawn, hdrawn, hpos⟩ := hdrawn
    obtain ⟨padding, hpad, hlen⟩ := xtlsPadding_of_drawn command rest hcontent hid hdrawn hpos
    refine ⟨padding, hpad, hlen, fun s user hs => ?_⟩
    rw [length_block] at hlen
    exact xtlsUnpadding_block hs hid command (by omega) (by omega)

/-- Settings of zero stop the program at the first draw. -/
theorem zero_seed_stops : xtlsPadding [] 0 none true [0, 0, 0, 0] 0 = none := by
  decide

end XrayCore.Vision
