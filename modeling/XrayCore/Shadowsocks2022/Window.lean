/-
  XrayCore.Shadowsocks2022.Window

  The packet ids that a session has seen: a ring of words, of which the one that a new
  highest id comes to is emptied first.

  An id that was added is not taken again (`Holds.check_eq_false`): it is either too far
  behind the highest, or its bit is still set.  And the bits of the words that the ring
  holds are those of the ids taken and no others (`Exact`), so that over any ids
  `taken_iff` says which the window takes.
-/

import Mathlib

namespace XrayCore.Shadowsocks2022

open List Function

/-- `swBlockBits`. -/
def swBlockBits : ℕ := 64

/-- `swRingBlocks`. -/
def swRingBlocks : ℕ := 128

/-- `swSize`. -/
def swSize : ℕ := (swRingBlocks - 1) * swBlockBits

/-- `SlidingWindow`; the words of the ring by their index. -/
structure SlidingWindow where
  last : ℕ
  ring : ℕ → ℕ

namespace SlidingWindow

/-- A window that has seen nothing. -/
def empty : SlidingWindow := ⟨0, fun _ => 0⟩

/-- `Check`. -/
def check (f : SlidingWindow) (counter : ℕ) : Bool :=
  if counter > f.last then true
  else if f.last - counter > swSize then false
  else (f.ring (counter / swBlockBits % swRingBlocks) >>> (counter % swBlockBits)) &&& 1 == 0

/-- The loop of `Add`: the next `n` words behind `i` are emptied. -/
def clearBlocks (ring : ℕ → ℕ) : ℕ → ℕ → ℕ → ℕ
  | 0, _ => ring
  | n + 1, i => clearBlocks (update ring ((i + 1) % swRingBlocks) 0) n ((i + 1) % swRingBlocks)

/-- The part of `Add` for a new highest id. -/
def advance (f : SlidingWindow) (counter : ℕ) : SlidingWindow :=
  if counter > f.last then
    let diff := min (counter / swBlockBits - f.last / swBlockBits) swRingBlocks
    ⟨counter, clearBlocks f.ring diff (f.last / swBlockBits)⟩
  else f

/-- `Add`. -/
def add (f : SlidingWindow) (counter : ℕ) : SlidingWindow :=
  let f := f.advance counter
  let i := counter / swBlockBits % swRingBlocks
  { f with ring := update f.ring i (f.ring i ||| 1 <<< (counter % swBlockBits)) }

/-- `CheckAndAdd`. -/
def checkAndAdd (f : SlidingWindow) (counter : ℕ) : Bool × SlidingWindow :=
  if f.check counter then (true, f.add counter) else (false, f)

/-! ## What a window has seen -/

/-- The bit of an id. -/
def Marked (f : SlidingWindow) (counter : ℕ) : Prop :=
  (f.ring (counter / swBlockBits % swRingBlocks)).testBit (counter % swBlockBits) = true

/-- An id was added. -/
structure Holds (f : SlidingWindow) (counter : ℕ) : Prop where
  le : counter ≤ f.last
  marked : f.last - counter ≤ swSize → f.Marked counter

variable {counter : ℕ} {f : SlidingWindow}

theorem Holds.check_eq_false (h : f.Holds counter) : f.check counter = false := by
  unfold check
  rw [if_neg (Nat.not_lt.mpr h.le)]
  split
  · rfl
  · next hnear =>
    have hbit := h.marked (Nat.not_lt.mp hnear)
    rw [Marked, Nat.testBit_eq_decide_div_mod_eq, decide_eq_true_eq] at hbit
    rw [Nat.and_one_is_mod, Nat.shiftRight_eq_div_pow, hbit]
    rfl

/-- Only the words behind `i` are emptied. -/
theorem clearBlocks_of_ne (n i : ℕ) (ring : ℕ → ℕ) {j : ℕ}
    (h : ∀ d < n, (i + 1 + d) % swRingBlocks ≠ j) : clearBlocks ring n i j = ring j := by
  induction n generalizing i ring with
  | zero => rfl
  | succ n ih =>
    have hhead : (i + 1) % swRingBlocks ≠ j := h 0 (Nat.succ_pos n)
    rw [clearBlocks, ih, update_of_ne hhead.symm]
    intro d hd
    have hnext := h (d + 1) (Nat.succ_lt_succ hd)
    rw [Nat.add_assoc, Nat.mod_add_mod, show i + 1 + (1 + d) = i + 1 + (d + 1) by omega]
    exact hnext

theorem last_add (f : SlidingWindow) (counter : ℕ) : (f.add counter).last = max f.last counter := by
  unfold add advance
  split
  · next h => exact (Nat.max_eq_right (Nat.le_of_lt h)).symm
  · next h => exact (Nat.max_eq_left (Nat.not_lt.mp h)).symm

/-- What is added is marked. -/
theorem marked_add (f : SlidingWindow) (counter : ℕ) : (f.add counter).Marked counter := by
  unfold Marked add
  simp only
  rw [update_self, Nat.testBit_or, Nat.one_shiftLeft, Nat.testBit_two_pow_self, Bool.or_true]

variable {c : ℕ}

/-- Setting a bit keeps the others. -/
theorem Marked.setBit (h : f.Marked c) (counter : ℕ) :
    (update f.ring (counter / swBlockBits % swRingBlocks)
      (f.ring (counter / swBlockBits % swRingBlocks) ||| 1 <<< (counter % swBlockBits))
        (c / swBlockBits % swRingBlocks)).testBit (c % swBlockBits) = true := by
  by_cases hsame : c / swBlockBits % swRingBlocks = counter / swBlockBits % swRingBlocks
  · rw [hsame, update_self, Nat.testBit_or, ← hsame, show Nat.testBit _ _ = true from h,
      Bool.true_or]
  · rw [update_of_ne hsame]
    exact h

/-- What is near enough to the new highest id is not in an emptied word. -/
theorem Marked.advance (h : f.Marked c) (hc : c ≤ f.last)
    (hnear : max f.last counter - c ≤ swSize) : (f.advance counter).Marked c := by
  unfold SlidingWindow.advance
  split
  · next hnew =>
    rw [Nat.max_eq_right (Nat.le_of_lt hnew)] at hnear
    unfold Marked
    simp only
    rw [clearBlocks_of_ne]
    · exact h
    · intro d hd heq
      simp only [swSize, swRingBlocks, swBlockBits] at *
      omega
  · exact h

theorem Holds.add (h : f.Holds c) (counter : ℕ) : (f.add counter).Holds c := by
  constructor
  · rw [last_add]
    exact Nat.le_trans h.le (Nat.le_max_left _ _)
  · intro hnear
    rw [last_add] at hnear
    have hold : f.Marked c := h.marked (by omega)
    exact (hold.advance h.le hnear).setBit counter

theorem holds_add (f : SlidingWindow) (counter : ℕ) : (f.add counter).Holds counter := by
  refine ⟨?_, fun _ => f.marked_add counter⟩
  rw [last_add]
  exact Nat.le_max_right _ _

/-! ## Exactly what was taken -/

/-- A word has its place in the ring: it is not ahead of the word of the highest id, and
    the ring has not come round to it. -/
def InRing (f : SlidingWindow) (counter : ℕ) : Prop :=
  counter / swBlockBits ≤ f.last / swBlockBits ∧
    f.last / swBlockBits < counter / swBlockBits + swRingBlocks

/-- The window has taken these ids and no others. -/
structure Exact (f : SlidingWindow) (taken : List ℕ) : Prop where
  le : ∀ c ∈ taken, c ≤ f.last
  last : f.last = 0 ∨ f.last ∈ taken
  marked : ∀ c, f.InRing c → (f.Marked c ↔ c ∈ taken)

theorem exact_empty : empty.Exact [] where
  le _ hc := absurd hc not_mem_nil
  last := .inl rfl
  marked c _ := by simp [Marked, empty]

theorem clearBlocks_of_zero (n i : ℕ) (ring : ℕ → ℕ) {j : ℕ} (h : ring j = 0) :
    clearBlocks ring n i j = 0 := by
  induction n generalizing i ring with
  | zero => exact h
  | succ n ih =>
    apply ih
    by_cases hj : j = (i + 1) % swRingBlocks
    · rw [hj, update_self]
    · rw [update_of_ne hj, h]

/-- The words behind `i` are emptied. -/
theorem clearBlocks_of_lt (n i : ℕ) (ring : ℕ → ℕ) {d : ℕ} (h : d < n) :
    clearBlocks ring n i ((i + 1 + d) % swRingBlocks) = 0 := by
  induction n generalizing i ring d with
  | zero => exact absurd h (Nat.not_lt_zero d)
  | succ n ih =>
    cases d with
    | zero => exact clearBlocks_of_zero n _ _ (update_self ..)
    | succ d =>
      have hnext := ih ((i + 1) % swRingBlocks) (update ring ((i + 1) % swRingBlocks) 0)
        (Nat.lt_of_succ_lt_succ h)
      rw [Nat.add_assoc, Nat.mod_add_mod, show i + 1 + (1 + d) = i + 1 + (d + 1) by omega] at hnext
      exact hnext

theorem advance_of_lt (h : f.last < counter) :
    f.advance counter = ⟨counter, clearBlocks f.ring
      (min (counter / swBlockBits - f.last / swBlockBits) swRingBlocks)
      (f.last / swBlockBits)⟩ :=
  if_pos h

theorem advance_of_le (h : counter ≤ f.last) : f.advance counter = f :=
  if_neg (Nat.not_lt.mpr h)

/-- A new highest id keeps the words that stay in the ring, and those that come in are
    empty. -/
theorem marked_advance (hnew : f.last < counter) (hc : (f.advance counter).InRing c) :
    (f.advance counter).Marked c ↔ f.InRing c ∧ f.Marked c := by
  have hblocks : f.last / swBlockBits ≤ counter / swBlockBits := Nat.div_le_div_right hnew.le
  rw [advance_of_lt hnew] at hc ⊢
  unfold InRing at hc ⊢
  unfold Marked
  simp only at hc ⊢
  rcases Nat.lt_or_ge (f.last / swBlockBits) (c / swBlockBits) with hahead | hbehind
  · -- the word comes in with this id
    obtain ⟨d, hd, hword⟩ : ∃ d < min (counter / swBlockBits - f.last / swBlockBits) swRingBlocks,
        (f.last / swBlockBits + 1 + d) % swRingBlocks = c / swBlockBits % swRingBlocks := by
      refine ⟨(c / swBlockBits - f.last / swBlockBits - 1) % swRingBlocks, ?_, ?_⟩
      · simp only [swRingBlocks] at hc ⊢
        omega
      · simp only [swRingBlocks] at hc ⊢
        omega
    rw [← hword, clearBlocks_of_lt _ _ _ hd, Nat.zero_testBit]
    simp [Nat.not_le.mpr hahead]
  · -- the word was there before, and none of the emptied ones has its place
    rw [clearBlocks_of_ne]
    · have hring : f.last / swBlockBits < c / swBlockBits + swRingBlocks := by omega
      simp [hbehind, hring]
    · intro d hd heq
      simp only [swRingBlocks] at hc hd heq
      omega

/-- What `Check` lets through has its word in the ring when its bit is set. -/
theorem inRing_advance (hcheck : f.check counter = true) : (f.advance counter).InRing counter := by
  unfold check at hcheck
  split at hcheck
  · next hnew =>
    rw [advance_of_lt hnew]
    exact ⟨le_rfl, Nat.lt_add_of_pos_right (by decide)⟩
  · next hold =>
    rw [advance_of_le (Nat.not_lt.mp hold)]
    split at hcheck
    · nomatch hcheck
    · simp only [InRing, swSize, swRingBlocks, swBlockBits] at *
      omega

/-- Two ids of words in the ring have one bit only if they are one. -/
theorem eq_of_same_bit (hc : f.InRing c) (hcounter : f.InRing counter)
    (hword : c / swBlockBits % swRingBlocks = counter / swBlockBits % swRingBlocks)
    (hbit : c % swBlockBits = counter % swBlockBits) : c = counter := by
  simp only [InRing, swRingBlocks, swBlockBits] at *
  omega

/-- Adding sets the bit of the id and no other. -/
theorem marked_add_iff (hc : (f.advance counter).InRing c)
    (hcounter : (f.advance counter).InRing counter) :
    (f.add counter).Marked c ↔ (f.advance counter).Marked c ∨ c = counter := by
  refine ⟨?_, ?_⟩
  · intro h
    unfold add Marked at h
    simp only at h
    by_cases hword : c / swBlockBits % swRingBlocks = counter / swBlockBits % swRingBlocks
    · rw [hword, update_self, Nat.testBit_or, Bool.or_eq_true, Nat.one_shiftLeft,
        Nat.testBit_two_pow, decide_eq_true_eq] at h
      refine h.imp (fun hold => ?_) (fun hbit => eq_of_same_bit hc hcounter hword hbit.symm)
      rw [Marked, hword]
      exact hold
    · rw [update_of_ne hword] at h
      exact .inl h
  · rintro (hold | rfl)
    · exact hold.setBit counter
    · exact f.marked_add c

namespace Exact

variable {f : SlidingWindow} {taken : List ℕ} {counter : ℕ}

/-- What `Check` finds. -/
theorem check_iff (h : f.Exact taken) (counter : ℕ) :
    f.check counter = true ↔
      f.last < counter ∨ f.last ≤ counter + swSize ∧ counter ∉ taken := by
  unfold check
  split
  · next hnew => simp [hnew]
  · next hold =>
    split
    · next hfar =>
      have : ¬ f.last ≤ counter + swSize := by omega
      simp [hold, this]
    · next hnear =>
      have hring : f.InRing counter := by
        simp only [InRing, swSize, swRingBlocks, swBlockBits] at *
        omega
      have hsize : f.last ≤ counter + swSize := by omega
      rw [← h.marked counter hring, Marked, Nat.testBit_eq_decide_div_mod_eq, Nat.and_one_is_mod,
        Nat.shiftRight_eq_div_pow]
      simp only [beq_iff_eq, hsize, hold, false_or, true_and, decide_eq_true_eq]
      omega

/-- An id that is taken is one of those taken from then on, and the others stay. -/
theorem add (h : f.Exact taken) (hcheck : f.check counter = true) :
    (f.add counter).Exact (counter :: taken) where
  le c hc := by
    rw [last_add]
    rcases mem_cons.mp hc with rfl | hc
    · exact Nat.le_max_right ..
    · exact (h.le c hc).trans (Nat.le_max_left ..)
  last := by
    rw [last_add]
    rcases Nat.le_total f.last counter with hle | hle
    · rw [Nat.max_eq_right hle]
      exact .inr (mem_cons_self ..)
    · rw [Nat.max_eq_left hle]
      exact h.last.imp_right (mem_cons_of_mem _)
  marked c hc := by
    have hc' : (f.advance counter).InRing c := hc
    rw [marked_add_iff hc' (inRing_advance hcheck), mem_cons, or_comm]
    apply or_congr_right
    rcases Nat.lt_or_ge f.last counter with hnew | hold
    · rw [marked_advance hnew hc']
      refine ⟨fun hmarked => (h.marked c hmarked.1).mp hmarked.2, fun hmem => ?_⟩
      -- the ids taken so far are not ahead of the old highest one
      have hring : f.InRing c := by
        refine ⟨Nat.div_le_div_right (h.le c hmem), ?_⟩
        have hle : f.last / swBlockBits ≤ counter / swBlockBits := Nat.div_le_div_right hnew.le
        rw [advance_of_lt hnew] at hc'
        exact hle.trans_lt hc'.2
      exact ⟨hring, (h.marked c hring).mpr hmem⟩
    · rw [advance_of_le hold] at hc' ⊢
      exact h.marked c hc'

theorem checkAndAdd (h : f.Exact taken) (counter : ℕ) :
    (f.checkAndAdd counter).2.Exact
      (if (f.checkAndAdd counter).1 then counter :: taken else taken) := by
  unfold SlidingWindow.checkAndAdd
  split
  · next hcheck => exact h.add hcheck
  · exact h

end Exact

/-- Calls of `CheckAndAdd` on a zero window: the window they leave, and the ids taken. -/
def afterCalls : List ℕ → SlidingWindow × List ℕ
  | [] => (empty, [])
  | counter :: earlier =>
    let before := afterCalls earlier
    let r := before.1.checkAndAdd counter
    (r.2, if r.1 then counter :: before.2 else before.2)

/-- In every run the window is exact for the ids it took; the calls are given latest first. -/
theorem exact_afterCalls (calls : List ℕ) : (afterCalls calls).1.Exact (afterCalls calls).2 := by
  induction calls with
  | nil => exact exact_empty
  | cons counter earlier ih => exact ih.checkAndAdd counter

/-- An id is taken if it is new and either ahead of all ids taken, or not further than the
    size of the window behind the highest of them. -/
theorem Exact.taken_iff {taken : List ℕ} (h : f.Exact taken) (c : ℕ) :
    (f.checkAndAdd c).1 = true ↔ c ∉ taken ∧
      ((∀ a ∈ taken, a < c) ∧ (0 < c ∨ 0 ∉ taken) ∨
        ∃ m ∈ taken, (∀ a ∈ taken, a ≤ m) ∧ m ≤ c + swSize) := by
  have hfirst : (f.checkAndAdd c).1 = f.check c := by
    unfold SlidingWindow.checkAndAdd
    split
    · next hcheck => exact hcheck.symm
    · next hcheck => exact (Bool.eq_false_iff.mpr hcheck).symm
  rw [hfirst, h.check_iff]
  refine ⟨?_, ?_⟩
  · rintro (hnew | ⟨hnear, hmem⟩)
    · have hahead : ∀ a ∈ taken, a < c := fun a ha => (h.le a ha).trans_lt hnew
      exact ⟨fun hmem => lt_irrefl c (hahead c hmem), .inl ⟨hahead, .inl (by omega)⟩⟩
    · refine ⟨hmem, ?_⟩
      rcases h.last with hzero | hlast
      · -- nothing but `0` can have been taken
        rcases Nat.eq_zero_or_pos c with rfl | hpos
        · refine .inl ⟨fun a ha => ?_, .inr hmem⟩
          have hle := h.le a ha
          obtain rfl : a = 0 := by omega
          exact absurd ha hmem
        · refine .inl ⟨fun a ha => ?_, .inl hpos⟩
          have hle := h.le a ha
          omega
      · exact .inr ⟨f.last, hlast, h.le, hnear⟩
  · rintro ⟨hmem, ⟨hahead, -⟩ | ⟨m, hm, hmax, hnear⟩⟩
    · rcases h.last with hzero | hlast
      · exact .inr ⟨by omega, hmem⟩
      · exact .inl (hahead f.last hlast)
    · rcases h.last with hzero | hlast
      · exact .inr ⟨by omega, hmem⟩
      · exact .inr ⟨(hmax f.last hlast).trans hnear, hmem⟩

theorem nodup_afterCalls (calls : List ℕ) : (afterCalls calls).2.Nodup := by
  induction calls with
  | nil => exact nodup_nil
  | cons counter earlier ih =>
    unfold afterCalls
    simp only
    split
    · next htaken =>
      exact nodup_cons.mpr
        ⟨(((exact_afterCalls earlier).taken_iff counter).mp htaken).1, ih⟩
    · exact ih

/-- After any calls on a zero window, a call takes an id exactly when it was not taken before
    and is ahead of all that were, or at most 8128 behind the highest of them; and no id is
    taken twice. -/
theorem taken_exactly (calls : List ℕ) :
    (∀ c, ((afterCalls calls).1.checkAndAdd c).1 = true ↔ c ∉ (afterCalls calls).2 ∧
      ((∀ a ∈ (afterCalls calls).2, a < c) ∧ (0 < c ∨ 0 ∉ (afterCalls calls).2) ∨
        ∃ m ∈ (afterCalls calls).2, (∀ a ∈ (afterCalls calls).2, a ≤ m) ∧ m ≤ c + 8128)) ∧
      (afterCalls calls).2.Nodup :=
  ⟨(exact_afterCalls calls).taken_iff, nodup_afterCalls calls⟩

-- the ring has come round: `1` has the place of `8193`, and is too old
example : (afterCalls [8193, 1]).2 = [8193, 1] ∧
    ((afterCalls [8193, 1]).1.checkAndAdd 64).1 = false ∧
    ((afterCalls [8193, 1]).1.checkAndAdd 65).1 = true := by
  decide +kernel

end SlidingWindow

end XrayCore.Shadowsocks2022
