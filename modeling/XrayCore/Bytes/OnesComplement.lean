/-
  XrayCore.Bytes.OnesComplement

  One's complement sums of 16-bit words, with the carry added back.

  Such a sum is the sum of the words modulo 65535, where 0 is left to words that are all 0
  and 65535 stands for the other multiples (`onesSum_eq`).  A number in base 65536 has the
  same representative as the sum of its digits (`rep_bigEndian`).
-/

import XrayCore.Wire.Parser

namespace XrayCore.Bytes

open Wire List

/-- The sum of two words, with the carry added back. -/
def onesAdd (a b : ℕ) : ℕ := (a + b) % 65536 + (a + b) / 65536

/-- The one's complement sum. -/
def onesSum (ws : List ℕ) : ℕ := ws.foldl onesAdd 0

/-- Bytes as words, padded with a zero byte. -/
def words : Bytes → List ℕ
  | [] => []
  | [x] => [x.toNat * 256]
  | x :: y :: bs => (x.toNat * 256 + y.toNat) :: words bs

/-- The representative of a number modulo 65535. -/
def rep (n : ℕ) : ℕ := if n = 0 then 0 else (n - 1) % 65535 + 1

theorem rep_of_le {n : ℕ} (h : n ≤ 65535) : rep n = n := by
  unfold rep
  split
  · omega
  · omega

theorem rep_le (n : ℕ) : rep n ≤ 65535 := by
  unfold rep
  split
  · omega
  · omega

theorem rep_rep_add (a b : ℕ) : rep (rep a + b) = rep (a + b) := by
  by_cases ha : a = 0
  · subst ha
    rfl
  · have hrep : rep a = (a - 1) % 65535 + 1 := if_neg ha
    rw [hrep, rep, rep, if_neg (by omega), if_neg (by omega)]
    omega

theorem rep_add_congr {a b : ℕ} (h : rep a = rep b) (c : ℕ) : rep (a + c) = rep (b + c) := by
  rw [← rep_rep_add a, h, rep_rep_add]

theorem rep_carry {n : ℕ} (q : ℕ) (hn : n ≠ 0) : rep (n + 65535 * q) = rep n := by
  rw [rep, rep, if_neg (by omega), if_neg hn]
  omega

/-- The high digits of a number can be added to its lowest. -/
theorem rep_high_add_low (n : ℕ) : rep (n / 65536 + n % 65536) = rep n := by
  by_cases hn : n = 0
  · subst hn
    rfl
  · have hsplit : n = n / 65536 + n % 65536 + 65535 * (n / 65536) := by omega
    conv_rhs => rw [hsplit]
    exact (rep_carry _ (by omega)).symm

theorem onesAdd_rep (a : ℕ) {b : ℕ} (hb : b ≤ 65535) : onesAdd (rep a) b = rep (a + b) := by
  have ha := rep_le a
  have hsum : onesAdd (rep a) b ≤ 65535 := by
    unfold onesAdd
    omega
  rw [← rep_of_le hsum, onesAdd, Nat.add_comm, rep_high_add_low, rep_rep_add]

theorem onesSum_eq {ws : List ℕ} (h : ∀ w ∈ ws, w ≤ 65535) : onesSum ws = rep ws.sum := by
  induction ws using reverseRecOn with
  | nil => rfl
  | append_singleton ws w ih =>
    obtain ⟨hws, hw⟩ := forall_mem_append.mp h
    have hfold : onesSum (ws ++ [w]) = onesAdd (onesSum ws) w := by
      rw [onesSum, foldl_append]
      rfl
    rw [hfold, ih hws, onesAdd_rep _ (hw w (mem_singleton_self w)), sum_append,
      sum_singleton]

theorem words_append {xs ys : Bytes} (h : xs.length % 2 = 0) :
    words (xs ++ ys) = words xs ++ words ys := by
  induction xs using words.induct with
  | case1 => rfl
  | case2 x => exact absurd h Nat.one_ne_zero
  | case3 x y xs ih =>
    have heven : xs.length % 2 = 0 := by
      rw [length_cons, length_cons] at h
      omega
    show (x.toNat * 256 + y.toNat) :: words (xs ++ ys) = _ :: (words xs ++ words ys)
    rw [ih heven]

theorem words_le (bs : Bytes) : ∀ w ∈ words bs, w ≤ 65535 := by
  induction bs using words.induct with
  | case1 => exact nofun
  | case2 x =>
    intro w hw
    rw [mem_singleton.mp hw]
    have := x.toNat_lt
    omega
  | case3 x y bs ih =>
    intro w hw
    rcases mem_cons.mp hw with rfl | hw
    · have := x.toNat_lt
      have := y.toNat_lt
      omega
    · exact ih w hw

/-- A number of an even number of bytes has the representative of the sum of its words. -/
theorem rep_bigEndian {bs : Bytes} (h : bs.length % 2 = 0) :
    rep (bigEndian bs) = rep (words bs).sum := by
  have hfold : ∀ n, rep (bs.foldl (fun n b => n * 256 + b.toNat) n) =
      rep (n + (words bs).sum) := by
    induction bs using words.induct with
    | case1 => exact fun n => rfl
    | case2 x => exact absurd h Nat.one_ne_zero
    | case3 x y bs ih =>
      intro n
      have heven : bs.length % 2 = 0 := by
        rw [length_cons, length_cons] at h
        omega
      rw [foldl_cons, foldl_cons, ih heven, words, sum_cons, ← Nat.add_assoc]
      apply rep_add_congr
      have hsplit : (n * 256 + x.toNat) * 256 + y.toNat =
          n + (x.toNat * 256 + y.toNat) + 65535 * n := by omega
      by_cases hzero : n + (x.toNat * 256 + y.toNat) = 0
      · rw [hsplit, hzero, show n = 0 by omega]
      · rw [hsplit, rep_carry n hzero]
  rw [bigEndian, hfold, Nat.zero_add]

end XrayCore.Bytes
