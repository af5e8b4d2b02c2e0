/-
  XrayCore.Tun.Checksum

  The checksums of the segments that the tun stack makes.

  The bytes are added up eight at a time in 64 bits, with the carry in a variable of its
  own, and folded into 16 bits at the end.  What comes of it is the Internet checksum of
  the pseudo header, the header and the payload (`transportChecksum_eq`).
-/

import XrayCore.Bytes.OnesComplement

namespace XrayCore.Tun

open Bytes Wire List

/-- `bits.Add64`: the sum and the carry. -/
def add64 (x y carry : ℕ) : ℕ × ℕ := ((x + y + carry) % 2 ^ 64, (x + y + carry) / 2 ^ 64)

/-- A number added to a sum and its carry. -/
def add (a : ℕ × ℕ) (x : ℕ) : ℕ × ℕ := add64 a.1 x a.2

/-- The first loop of `sum`, and what it leaves. -/
def sum32 (a : ℕ × ℕ) (b : Bytes) : (ℕ × ℕ) × Bytes :=
  if 32 ≤ b.length then
    let a := add a (bigEndian (b.take 8))
    let a := add a (bigEndian ((b.drop 8).take 8))
    let a := add a (bigEndian ((b.drop 16).take 8))
    let a := add a (bigEndian ((b.drop 24).take 8))
    sum32 a (b.drop 32)
  else (a, b)
termination_by b.length
decreasing_by
  rw [List.length_drop]
  omega

/-- The second loop of `sum`, and what it leaves. -/
def sum8 (a : ℕ × ℕ) (b : Bytes) : (ℕ × ℕ) × Bytes :=
  if 8 ≤ b.length then sum8 (add a (bigEndian (b.take 8))) (b.drop 8) else (a, b)
termination_by b.length
decreasing_by
  rw [List.length_drop]
  omega

/-- Some bytes, if there are as many. -/
def sumFew (n : ℕ) (a : (ℕ × ℕ) × Bytes) : (ℕ × ℕ) × Bytes :=
  if n ≤ a.2.length then (add a.1 (bigEndian (a.2.take n)), a.2.drop n) else a

/-- `sum`. -/
def sum (b : Bytes) (s : ℕ) : ℕ :=
  let r := sum32 (s, 0) b
  let r := sum8 r.1 r.2
  let r := sumFew 4 r
  let r := sumFew 2 r
  let a := if r.2.length = 1 then add r.1 ((r.2.getD 0 0).toNat <<< 8) else r.1
  let a := add64 a.1 0 a.2
  (a.1 + a.2) % 2 ^ 64

/-- A step of `checksum`. -/
def foldBits (w s : ℕ) : ℕ := (s >>> w) + (s &&& (2 ^ w - 1))

/-- `checksum`. -/
def checksum (s : ℕ) : UInt16 :=
  let s := foldBits 32 s
  let s := foldBits 16 s
  let s := foldBits 16 s
  let s := foldBits 16 s
  ~~~ UInt16.ofNat s

/-- `pseudoSum`. -/
def pseudoSum (ip : Bytes) (proto : UInt8) (size : ℕ) : ℕ :=
  let addresses := if ip.length = 40 then ip.drop 8 else (ip.take 20).drop 12
  sum addresses ((proto.toNat + size) % 2 ^ 64)

/-- `transportChecksum`. -/
def transportChecksum (ip : Bytes) (proto : UInt8) (header payload : Bytes) : UInt16 :=
  checksum (sum payload (sum header (pseudoSum ip proto (header.length + payload.length))))

/-- The pseudo header of a segment of some size, with a length of that many words: one for IPv4,
    two for IPv6. -/
def pseudoHeader (ip : Bytes) (proto : UInt8) (lengthWords size : ℕ) : Bytes :=
  if ip.length = 40 then ip.drop 8 ++ (putBigEndian (2 * lengthWords) size ++ [0, 0, 0, proto])
  else (ip.take 20).drop 12 ++ ([0, proto] ++ putBigEndian (2 * lengthWords) size)

/-! ## The sum -/

/-- A sum and its carry stand for a number, with the words that are still to be added. -/
structure Stands (n : ℕ) (a : ℕ × ℕ) (b : Bytes) : Prop where
  hsum : a.1 < 2 ^ 64
  hcarry : a.2 ≤ 1
  hrep : rep (a.1 + a.2 + (words b).sum) = rep n

theorem rep_add64 (t : ℕ) : rep (t % 2 ^ 64 + t / 2 ^ 64) = rep t := by
  by_cases ht : t = 0
  · subst ht
    rfl
  · have hsplit : t = t % 2 ^ 64 + t / 2 ^ 64 + 65535 * (281479271743489 * (t / 2 ^ 64)) := by omega
    conv_rhs => rw [hsplit]
    exact (rep_carry _ (by omega)).symm

/-- Adding a number that the next words add up to. -/
theorem Stands.add {n x : ℕ} {a : ℕ × ℕ} {b rest : Bytes} (h : Stands n a b)
    (hx : x < 2 ^ 64) (hwords : ∀ m, rep (m + x + (words rest).sum) = rep (m + (words b).sum)) :
    Stands n (add a x) rest := by
  obtain ⟨hsum, hcarry, hrep⟩ := h
  refine ⟨Nat.mod_lt _ (by decide), ?_, ?_⟩
  · show (a.1 + x + a.2) / 2 ^ 64 ≤ 1
    omega
  · show rep ((a.1 + x + a.2) % 2 ^ 64 + (a.1 + x + a.2) / 2 ^ 64 + _) = _
    rw [rep_add_congr (rep_add64 _), Nat.add_right_comm a.1, hwords, hrep]

theorem Stands.take {n : ℕ} {a : ℕ × ℕ} {b : Bytes} (h : Stands n a b) {w : ℕ} (hw : w ≤ 8)
    (heven : w % 2 = 0) (hlen : w ≤ b.length) :
    Stands n (Tun.add a (bigEndian (b.take w))) (b.drop w) := by
  have htake : (b.take w).length = w := length_take_of_le hlen
  apply h.add
  · refine Nat.lt_of_lt_of_le (bigEndian_lt _) ?_
    rw [htake]
    exact Nat.pow_le_pow_right (by decide : 0 < 256) hw
  · intro m
    have hsplit : (words b).sum = (words (b.take w)).sum + (words (b.drop w)).sum := by
      rw [← sum_append, ← words_append (by rw [htake]; exact heven), take_append_drop]
    have hrep : rep (bigEndian (b.take w)) = rep (words (b.take w)).sum :=
      rep_bigEndian (by rw [htake]; exact heven)
    rw [hsplit, Nat.add_assoc, Nat.add_left_comm, ← rep_rep_add, hrep, rep_rep_add,
      Nat.add_left_comm]

theorem Stands.sum32 {n : ℕ} {a : ℕ × ℕ} {b : Bytes} (h : Stands n a b) :
    Stands n (Tun.sum32 a b).1 (Tun.sum32 a b).2 := by
  rw [Tun.sum32]
  split
  · next hlen =>
    have h8 := (h.take (w := 8) (by omega) rfl (by omega)).take (w := 8) (by omega) rfl
      (by rw [length_drop]; omega)
    rw [drop_drop] at h8
    have h24 := h8.take (w := 8) (by omega) rfl (by rw [length_drop]; omega)
    rw [drop_drop] at h24
    have h32 := h24.take (w := 8) (by omega) rfl (by rw [length_drop]; omega)
    rw [drop_drop] at h32
    exact h32.sum32
  · exact h
termination_by b.length
decreasing_by
  rw [length_drop]
  omega

theorem Stands.sum8 {n : ℕ} {a : ℕ × ℕ} {b : Bytes} (h : Stands n a b) :
    Stands n (Tun.sum8 a b).1 (Tun.sum8 a b).2 ∧ (Tun.sum8 a b).2.length < 8 := by
  rw [Tun.sum8]
  split
  · next hlen => exact (h.take (by omega) rfl hlen).sum8
  · next hlen => exact ⟨h, Nat.lt_of_not_le hlen⟩
termination_by b.length
decreasing_by
  rw [length_drop]
  omega

theorem Stands.sumFew {n : ℕ} {r : (ℕ × ℕ) × Bytes} (h : Stands n r.1 r.2) {w : ℕ}
    (hw : w ≤ 8) (heven : w % 2 = 0) (hlen : r.2.length < 2 * w) :
    Stands n (Tun.sumFew w r).1 (Tun.sumFew w r).2 ∧ (Tun.sumFew w r).2.length < w := by
  unfold Tun.sumFew
  split
  · next hle =>
    refine ⟨h.take hw heven hle, ?_⟩
    rw [length_drop]
    omega
  · next hlt => exact ⟨h, by omega⟩

/-- What `sum` gives stands for its start and the words of the bytes. -/
theorem sum_spec {s : ℕ} (hs : s < 2 ^ 64) (b : Bytes) :
    sum b s < 2 ^ 64 ∧ rep (sum b s) = rep (s + (words b).sum) := by
  have hstart : Stands (s + (words b).sum) (s, 0) b := ⟨hs, Nat.zero_le 1, rfl⟩
  obtain ⟨h8, hlen8⟩ := hstart.sum32.sum8
  obtain ⟨h4, hlen4⟩ := h8.sumFew (w := 4) (by omega) rfl hlen8
  obtain ⟨h2, hlen2⟩ := h4.sumFew (w := 2) (by omega) rfl hlen4
  unfold sum
  dsimp only
  generalize Tun.sumFew 2 _ = r at h2 hlen2 ⊢
  -- at most one byte is left, the high one of its word
  have hlast : Stands (s + (words b).sum)
      (if r.2.length = 1 then add r.1 ((r.2.getD 0 0).toNat <<< 8) else r.1) [] := by
    obtain ⟨a, rest⟩ := r
    match rest, hlen2 with
    | [], _ => exact h2
    | [x], _ =>
      have hx : x.toNat <<< 8 = x.toNat * 256 := Nat.shiftLeft_eq _ _
      have := x.toNat_lt
      show Stands _ (add a (x.toNat <<< 8)) []
      refine h2.add (by omega) fun m => ?_
      rw [hx, words, words, sum_singleton, sum_nil, Nat.add_zero]
  generalize (if r.2.length = 1 then add r.1 ((r.2.getD 0 0).toNat <<< 8) else r.1) = a at hlast ⊢
  obtain ⟨hsum, hcarry, hrep⟩ := hlast
  show ((a.1 + 0 + a.2) % 2 ^ 64 + (a.1 + 0 + a.2) / 2 ^ 64) % 2 ^ 64 < 2 ^ 64 ∧
    rep (((a.1 + 0 + a.2) % 2 ^ 64 + (a.1 + 0 + a.2) / 2 ^ 64) % 2 ^ 64) = _
  have hfits : (a.1 + 0 + a.2) % 2 ^ 64 + (a.1 + 0 + a.2) / 2 ^ 64 < 2 ^ 64 := by omega
  rw [Nat.mod_eq_of_lt hfits]
  exact ⟨hfits, (rep_add64 _).trans hrep⟩

/-! ## The checksum -/

theorem foldBits_eq (w s : ℕ) : foldBits w s = s / 2 ^ w + s % 2 ^ w := by
  rw [foldBits, Nat.shiftRight_eq_div_pow, Nat.and_two_pow_sub_one_eq_mod]

theorem rep_foldBits_sixteen (s : ℕ) : rep (foldBits 16 s) = rep s := by
  rw [foldBits_eq]
  exact rep_high_add_low s

theorem rep_foldBits_thirtyTwo (s : ℕ) : rep (foldBits 32 s) = rep s := by
  rw [foldBits_eq]
  by_cases hs : s = 0
  · subst hs
    rfl
  · have hsplit : s = s / 2 ^ 32 + s % 2 ^ 32 + 65535 * (65537 * (s / 2 ^ 32)) := by omega
    conv_rhs => rw [hsplit]
    exact (rep_carry _ (by omega)).symm

/-- Four steps are enough to fold 64 bits. -/
theorem checksum_eq {s : ℕ} (hs : s < 2 ^ 64) : (checksum s).toNat = 65535 - rep s := by
  have hrep : rep (foldBits 16 (foldBits 16 (foldBits 16 (foldBits 32 s)))) = rep s := by
    rw [rep_foldBits_sixteen, rep_foldBits_sixteen, rep_foldBits_sixteen, rep_foldBits_thirtyTwo]
  have hle : foldBits 16 (foldBits 16 (foldBits 16 (foldBits 32 s))) ≤ 65535 := by
    have h1 : foldBits 32 s < 2 ^ 33 := by
      rw [foldBits_eq]
      omega
    generalize foldBits 32 s = s1 at h1 ⊢
    have h2 : foldBits 16 s1 < 3 * 2 ^ 16 := by
      rw [foldBits_eq]
      omega
    generalize foldBits 16 s1 = s2 at h2 ⊢
    have h3 : foldBits 16 s2 ≤ 65537 := by
      rw [foldBits_eq]
      omega
    generalize foldBits 16 s2 = s3 at h3 ⊢
    rw [foldBits_eq]
    omega
  rw [← hrep, rep_of_le hle]
  show (~~~ UInt16.ofNat _).toNat = _
  rw [UInt16.toNat_not, UInt16.toNat_ofNat', Nat.mod_eq_of_lt (by omega)]
  rfl

theorem rep_length {n w : ℕ} (h : n < 65536 ^ w) :
    rep (words (putBigEndian (2 * w) n)).sum = rep n := by
  rw [← rep_bigEndian (by rw [length_putBigEndian]; omega), bigEndian_putBigEndian, Nat.pow_mul]
  show rep (n % 65536 ^ w) = rep n
  rw [Nat.mod_eq_of_lt h]

section

variable {ip header payload : Bytes} {proto : UInt8}

theorem length_pseudoHeader {w size : ℕ} (hip : 20 ≤ ip.length) :
    (pseudoHeader ip proto w size).length % 2 = 0 := by
  unfold pseudoHeader
  split
  · simp only [length_append, length_drop, length_putBigEndian, length_cons,
      length_nil]
    omega
  · simp only [length_append, length_drop, length_take, length_putBigEndian,
      length_cons, length_nil]
    omega

theorem pseudoSum_spec (proto : UInt8) {w size : ℕ} (hip : 20 ≤ ip.length) (hint : size < 2 ^ 63)
    (hsize : size < 65536 ^ w) :
    pseudoSum ip proto size < 2 ^ 64 ∧
      rep (pseudoSum ip proto size) = rep (words (pseudoHeader ip proto w size)).sum := by
  have hproto := proto.toNat_lt
  have hmod : (proto.toNat + size) % 2 ^ 64 = proto.toNat + size := Nat.mod_eq_of_lt (by omega)
  have hlength := rep_length hsize
  have heven : (putBigEndian (2 * w) size).length % 2 = 0 := by
    rw [length_putBigEndian]
    omega
  have hplace : ∀ sum, rep (proto.toNat + size + sum) =
      rep (sum + ((words (putBigEndian (2 * w) size)).sum + proto.toNat)) := by
    intro sum
    have hcongr := rep_add_congr hlength (sum + proto.toNat)
    rw [Nat.add_left_comm sum, hcongr]
    congr 1
    omega
  unfold pseudoSum pseudoHeader
  dsimp only
  rw [hmod]
  split
  · next hv6 =>
    obtain ⟨hlt, hrep⟩ := sum_spec (s := proto.toNat + size) (by omega) (ip.drop 8)
    have hlast : (words [0, 0, 0, proto]).sum = proto.toNat := by
      show 0 + (0 * 256 + proto.toNat + 0) = _
      omega
    refine ⟨hlt, hrep.trans ?_⟩
    rw [words_append (by rw [length_drop]; omega), words_append heven, sum_append,
      sum_append, hlast, hplace]
  · next hv4 =>
    obtain ⟨hlt, hrep⟩ := sum_spec (s := proto.toNat + size) (by omega) ((ip.take 20).drop 12)
    have hfirst : (words [0, proto]).sum = proto.toNat := by
      show 0 * 256 + proto.toNat + 0 = _
      omega
    refine ⟨hlt, hrep.trans ?_⟩
    have htwo : ([0, proto] : Bytes).length % 2 = 0 := Nat.mod_self 2
    rw [words_append (by rw [length_drop, length_take]; omega), words_append htwo,
      List.sum_append, List.sum_append, hfirst, Nat.add_comm proto.toNat (List.sum _), hplace]

/-- The sum of a whole segment, of which the header is even. -/
theorem sum_segment {w : ℕ} (hip : 20 ≤ ip.length) (heven : header.length % 2 = 0)
    (size : ℕ) :
    onesSum (words (pseudoHeader ip proto w size ++ (header ++ payload))) =
      rep ((words (pseudoHeader ip proto w size)).sum + (words header).sum +
        (words payload).sum) := by
  rw [onesSum_eq (words_le _), words_append (length_pseudoHeader hip), words_append heven,
    sum_append, sum_append, Nat.add_assoc]

theorem toNat_transportChecksum (proto : UInt8) {w : ℕ} (hip : 20 ≤ ip.length)
    (hint : header.length + payload.length < 2 ^ 63)
    (hsize : header.length + payload.length < 65536 ^ w) :
    (transportChecksum ip proto header payload).toNat = 65535 -
      rep ((words (pseudoHeader ip proto w (header.length + payload.length))).sum +
        (words header).sum + (words payload).sum) := by
  obtain ⟨hlt, hrep⟩ := pseudoSum_spec proto hip hint hsize
  obtain ⟨hlt', hrep'⟩ := sum_spec hlt header
  obtain ⟨hlt'', hrep''⟩ := sum_spec hlt' payload
  rw [transportChecksum, checksum_eq hlt'', hrep'', rep_add_congr hrep',
    rep_add_congr (rep_add_congr hrep _)]

/-- The checksum is the Internet checksum of the pseudo header, the header and the payload; and with
    it in place of a field that was zero, all of it adds up to 0xffff. -/
theorem transportChecksum_eq {w : ℕ} (hip : 20 ≤ ip.length) (heven : header.length % 2 = 0)
    (hint : header.length + payload.length < 2 ^ 63)
    (hsize : header.length + payload.length < 65536 ^ w) :
    (transportChecksum ip proto header payload).toNat = 0xffff - onesSum (words
      (pseudoHeader ip proto w (header.length + payload.length) ++ (header ++ payload))) ∧
    ∀ before after, header = before ++ ([0, 0] ++ after) → before.length % 2 = 0 →
      onesSum (words (pseudoHeader ip proto w (header.length + payload.length) ++
        (before ++ (putUint16 (transportChecksum ip proto header payload) ++ after) ++
          payload))) = 0xffff := by
  have hcheck := toNat_transportChecksum proto hip hint hsize
  refine ⟨by rw [sum_segment hip heven, hcheck], ?_⟩
  intro before after hheader hbefore
  generalize transportChecksum ip proto header payload = check at hcheck ⊢
  generalize header.length + payload.length = size at hcheck ⊢
  have hfilled : (before ++ (putUint16 check ++ after)).length % 2 = 0 := by
    rw [hheader, length_append, length_append] at heven
    rw [length_append, length_append, length_putUint16]
    exact heven
  have hzero : (words header).sum = (words before).sum + (words after).sum := by
    rw [hheader, words_append hbefore, words_append rfl, sum_append, sum_append]
    show _ + (0 * 256 + 0 + 0 + _) = _
    omega
  have hfield : (words (putUint16 check)).sum = check.toNat := by
    rw [← bigEndian_putUint16 check]
    show _ * 256 + _ + 0 = (0 * 256 + _) * 256 + _
    omega
  have hfieldEven : (putUint16 check).length % 2 = 0 := Nat.mod_self 2
  rw [sum_segment hip hfilled, words_append hbefore, words_append hfieldEven, sum_append,
    sum_append, hfield]
  rw [hzero] at hcheck
  -- the checksum is what the rest lacks to 0xffff
  have hle := rep_le ((words (pseudoHeader ip proto w size)).sum +
    ((words before).sum + (words after).sum) + (words payload).sum)
  calc rep ((words (pseudoHeader ip proto w size)).sum +
        ((words before).sum + (check.toNat + (words after).sum)) + (words payload).sum)
      = rep ((words (pseudoHeader ip proto w size)).sum +
          ((words before).sum + (words after).sum) + (words payload).sum + check.toNat) := by
        congr 1
        omega
    _ = rep 65535 := by
        rw [← rep_rep_add]
        congr 1
        omega
    _ = 0xffff := rep_of_le (Nat.le_refl _)

/-- A port, the checksum and another word, and an odd payload. -/
theorem transportChecksum_odd :
    let ip := List.replicate 12 0 ++ [10, 0, 0, 1, 10, 0, 0, 2]
    onesSum (words (pseudoHeader ip 6 1 7 ++ ([0, 80] ++ (putUint16
      (transportChecksum ip 6 [0, 80, 0, 0, 1, 187] [1]) ++ [1, 187]) ++ [1]))) = 0xffff :=
  (@transportChecksum_eq _ [0, 80, 0, 0, 1, 187] [1] 6 1 (by decide) rfl (by decide)
    (by decide)).2 [0, 80] [1, 187] rfl rfl

end

end XrayCore.Tun
