/-
  XrayCore.Heap.Binary

  Binary heaps in an array, with the least key at the root, as the usual sifting
  keeps them.

  The order is stated for any function on the places of the tree (`Ordered`), with
  what may be wrong while an element rises (`OrderedUp`) or sinks (`OrderedDown`).
  An array gives such a function by `keyAt`, the places past its end being above
  all keys.  `MinHeap` carries the order; `push` adds an element, and `pop` takes
  out one whose key is least: of equal keys, the one at the root.
-/

import Mathlib

namespace XrayCore.Heap

open List

/-! ## Order on the places of a tree -/

section Order

variable {κ : Type}

/-- The places with two of them exchanged. -/
def swapped (k : ℕ → κ) (i j : ℕ) : ℕ → κ :=
  fun c => if c = i then k j else if c = j then k i else k c

@[simp] theorem swapped_left (k : ℕ → κ) (i j : ℕ) : swapped k i j i = k j := if_pos rfl

@[simp] theorem swapped_right (k : ℕ → κ) (i j : ℕ) : swapped k i j j = k i := by
  unfold swapped
  by_cases h : j = i
  · rw [if_pos h, h]
  · rw [if_neg h, if_pos rfl]

theorem swapped_of_ne (k : ℕ → κ) {i j c : ℕ} (hi : c ≠ i) (hj : c ≠ j) :
    swapped k i j c = k c := by
  rw [swapped, if_neg hi, if_neg hj]

def parent (c : ℕ) : ℕ := (c - 1) / 2

theorem parent_lt {c : ℕ} (hc : 0 < c) : parent c < c := by
  unfold parent
  omega

/-- The children of `i` are the two places behind twice `i`. -/
theorem parent_eq_iff {c i : ℕ} (hc : 0 < c) : parent c = i ↔ c = 2 * i + 1 ∨ c = 2 * i + 2 := by
  unfold parent
  omega

variable [LinearOrder κ]

/-- No place is below its parent. -/
def Ordered (k : ℕ → κ) : Prop := ∀ c, 0 < c → k (parent c) ≤ k c

/-- Only the element at `j` may be below its parent. -/
structure OrderedUp (k : ℕ → κ) (j : ℕ) : Prop where
  except : ∀ c, 0 < c → c ≠ j → k (parent c) ≤ k c
  grand : 0 < j → ∀ c, 0 < c → parent c = j → k (parent j) ≤ k c

/-- Only the element at `i` may be above its children. -/
structure OrderedDown (k : ℕ → κ) (i : ℕ) : Prop where
  except : ∀ c, 0 < c → parent c ≠ i → k (parent c) ≤ k c
  grand : 0 < i → ∀ c, 0 < c → parent c = i → k (parent i) ≤ k c

variable {k : ℕ → κ} {i j : ℕ}

theorem Ordered.root_le (h : Ordered k) (c : ℕ) : k 0 ≤ k c := by
  induction c using Nat.strong_induction_on with
  | _ c ih =>
    rcases Nat.eq_zero_or_pos c with rfl | hc
    · exact le_refl _
    · exact (ih (parent c) (parent_lt hc)).trans (h c hc)

/-- An element that is in order with its parent has risen far enough. -/
theorem OrderedUp.finish (h : OrderedUp k j) (hstop : 0 < j → k (parent j) ≤ k j) :
    Ordered k := by
  intro c hc
  by_cases hcj : c = j
  · rw [hcj] at hc ⊢
    exact hstop hc
  · exact h.except c hc hcj

/-- One that is below its parent changes places with it. -/
theorem OrderedUp.move (h : OrderedUp k j) (hj : 0 < j) (hlt : k j < k (parent j)) :
    OrderedUp (swapped k (parent j) j) (parent j) := by
  have hparent := parent_lt hj
  -- the parent is in order with its own parent, which the exchange leaves alone
  have hup : 0 < parent j → k (parent (parent j)) ≤ k (parent j) := fun hpos =>
    h.except (parent j) hpos (Nat.ne_of_lt hparent)
  constructor
  · intro c hc hne
    by_cases hcj : c = j
    · rw [hcj, swapped_left, swapped_right]
      exact le_of_lt hlt
    · rw [swapped_of_ne k hne hcj]
      by_cases hpj : parent c = j
      · rw [hpj, swapped_right]
        exact h.grand hj c hc hpj
      · by_cases hpp : parent c = parent j
        · rw [hpp, swapped_left]
          exact (le_of_lt hlt).trans (hpp ▸ h.except c hc hcj)
        · rw [swapped_of_ne k hpp hpj]
          exact h.except c hc hcj
  · intro hpos c hc hpc
    have hpp := parent_lt hpos
    rw [swapped_of_ne k (by omega) (by omega)]
    by_cases hcj : c = j
    · rw [hcj, swapped_right]
      exact hup hpos
    · have hcp : c ≠ parent j := by
        have := parent_lt hc
        omega
      rw [swapped_of_ne k hcp hcj]
      exact (hup hpos).trans (hpc ▸ h.except c hc hcj)

/-- An element that is in order with its children has sunk far enough. -/
theorem OrderedDown.finish (h : OrderedDown k i)
    (hstop : ∀ c, 0 < c → parent c = i → k i ≤ k c) : Ordered k := by
  intro c hc
  by_cases hpc : parent c = i
  · rw [hpc]
    exact hstop c hc hpc
  · exact h.except c hc hpc

/-- One that is above its least child changes places with it. -/
theorem OrderedDown.move (h : OrderedDown k i) (hj : 0 < j) (hpj : parent j = i)
    (hleast : ∀ c, 0 < c → parent c = i → k j ≤ k c) (hlt : k j < k i) :
    OrderedDown (swapped k i j) j := by
  have hij : i < j := by
    rw [← hpj]
    exact parent_lt hj
  constructor
  · intro c hc hne
    by_cases hci : c = i
    · -- `j` comes up below the parent of `i`
      rw [hci] at hc ⊢
      have hpi := parent_lt hc
      rw [swapped_left, swapped_of_ne k (by omega) (by omega)]
      exact h.grand hc j hj hpj
    · by_cases hpc : parent c = i
      · rw [hpc, swapped_left]
        by_cases hcj : c = j
        · rw [hcj, swapped_right]
          exact le_of_lt hlt
        · rw [swapped_of_ne k hci hcj]
          exact hleast c hc hpc
      · have hcj : c ≠ j := fun heq => hpc (heq ▸ hpj)
        rw [swapped_of_ne k hpc hne, swapped_of_ne k hci hcj]
        exact h.except c hc hpc
  · intro _ c hc hpc
    have hlt := parent_lt hc
    rw [hpj, swapped_left, swapped_of_ne k (by omega) (by omega)]
    have hle := h.except c hc (by omega)
    rwa [hpc] at hle

end Order

/-! ## Sifting in an array -/

section Sift

variable {α κ : Type} (key : α → κ)

/-- The key at a place, above all keys past the end. -/
def keyAt (h : Array α) (i : ℕ) : WithTop κ :=
  match h[i]? with
  | some x => key x
  | none => ⊤

theorem keyAt_eq_top {h : Array α} {i : ℕ} (hi : h.size ≤ i) : keyAt key h i = ⊤ := by
  rw [keyAt, Array.getElem?_eq_none hi]

theorem keyAt_of_getElem? {h : Array α} {i : ℕ} {x : α} (hx : h[i]? = some x) :
    keyAt key h i = key x := by
  rw [keyAt, hx]

theorem keyAt_push_of_ne {h : Array α} (x : α) {c : ℕ} (hc : c ≠ h.size) :
    keyAt key (h.push x) c = keyAt key h c := by
  rw [keyAt, keyAt, Array.getElem?_push, if_neg hc]

theorem keyAt_pop_of_lt {h : Array α} {c : ℕ} (hc : c < h.size - 1) :
    keyAt key h.pop c = keyAt key h c := by
  rw [keyAt, keyAt, Array.getElem?_pop, if_pos hc]

theorem keyAt_swap {h : Array α} {i j : ℕ} (hi : i < h.size) (hj : j < h.size) :
    keyAt key (h.swap i j hi hj) = swapped (keyAt key h) i j := by
  funext c
  unfold keyAt swapped
  rw [Array.getElem?_swap]
  by_cases hci : c = i
  · subst hci
    by_cases hcj : j = c
    · simp [hcj, hi]
    · simp [hcj, hj]
  · by_cases hcj : c = j
    · subst hcj
      simp [hci, hi]
    · simp [hci, hcj, Ne.symm hci, Ne.symm hcj]

variable [LinearOrder κ]

/-- `up`: the element at `j` rises while it is below its parent. -/
def up (h : Array α) (j : ℕ) : Array α :=
  if hj : 0 < j ∧ j < h.size then
    have hparent := parent_lt hj.1
    if keyAt key h j < keyAt key h (parent j) then
      up (h.swap (parent j) j (hparent.trans hj.2) hj.2) (parent j)
    else h
  else h
termination_by j
decreasing_by exact hparent

/-- The child with the lesser key; of equal ones the left. -/
def leastChild (h : Array α) (i : ℕ) : ℕ :=
  if keyAt key h (2 * i + 2) < keyAt key h (2 * i + 1) then 2 * i + 2 else 2 * i + 1

/-- `down`: the element at `i` sinks while it is above its lesser child. -/
def down (h : Array α) (i : ℕ) : Array α :=
  if hj : leastChild key h i < h.size then
    have hi : i < leastChild key h i := by
      unfold leastChild
      split_ifs <;> omega
    if keyAt key h (leastChild key h i) < keyAt key h i then
      down (h.swap i (leastChild key h i) (hi.trans hj) hj) (leastChild key h i)
    else h
  else h
termination_by h.size - i
decreasing_by
  rw [Array.size_swap]
  omega

variable {key} {h : Array α}

variable (key) in
theorem perm_up (h : Array α) (j : ℕ) : (up key h j).Perm h := by
  fun_induction up key h j with
  | case1 h j hj hparent hlt ih => exact ih.trans (Array.swap_perm _ _)
  | case2 h j hj hparent hlt => exact .refl _
  | case3 h j hj => exact .refl _

variable (key) in
theorem perm_down (h : Array α) (i : ℕ) : (down key h i).Perm h := by
  fun_induction down key h i with
  | case1 h i hj hi hlt ih => exact ih.trans (Array.swap_perm _ _)
  | case2 h i hj hi hlt => exact .refl _
  | case3 h i hj => exact .refl _

theorem ordered_up {j : ℕ} (hj : j < h.size) (hup : OrderedUp (keyAt key h) j) :
    Ordered (keyAt key (up key h j)) := by
  fun_induction up key h j with
  | case1 h j hbounds hparent hlt ih =>
    apply ih
    · rw [Array.size_swap]
      exact hparent.trans hbounds.2
    · rw [keyAt_swap key]
      exact hup.move hbounds.1 hlt
  | case2 h j hbounds hparent hlt => exact hup.finish fun _ => not_lt.mp hlt
  | case3 h j hbounds => exact hup.finish fun hpos => absurd ⟨hpos, hj⟩ hbounds

variable (key h) in
theorem leastChild_le {i c : ℕ} (hc : 0 < c) (hpc : parent c = i) :
    keyAt key h (leastChild key h i) ≤ keyAt key h c := by
  unfold leastChild
  rcases (parent_eq_iff hc).mp hpc with rfl | rfl
  · split_ifs with hlt
    · exact le_of_lt hlt
    · exact le_refl _
  · split_ifs with hlt
    · exact le_refl _
    · exact not_lt.mp hlt

variable (key h) in
theorem parent_leastChild (i : ℕ) :
    0 < leastChild key h i ∧ parent (leastChild key h i) = i := by
  unfold leastChild
  split_ifs
  · exact ⟨by omega, (parent_eq_iff (by omega)).mpr (Or.inr rfl)⟩
  · exact ⟨by omega, (parent_eq_iff (by omega)).mpr (Or.inl rfl)⟩

theorem ordered_down {i : ℕ} (hdown : OrderedDown (keyAt key h) i) :
    Ordered (keyAt key (down key h i)) := by
  fun_induction down key h i with
  | case1 h i hj hi hlt ih =>
    apply ih
    rw [keyAt_swap key]
    obtain ⟨hpos, hparent⟩ := parent_leastChild key h i
    exact hdown.move hpos hparent (fun c => leastChild_le key h) hlt
  | case2 h i hj hi hlt =>
    apply hdown.finish
    intro c hc hpc
    exact (not_lt.mp hlt).trans (leastChild_le key h hc hpc)
  | case3 h i hj =>
    -- even the lesser child lies past the end
    apply hdown.finish
    intro c hc hpc
    have htop := leastChild_le key h hc hpc
    rw [keyAt_eq_top key (Nat.not_lt.mp hj), top_le_iff] at htop
    rw [htop]
    exact le_top

end Sift

/-! ## Heaps -/

/-- An array in heap order. -/
structure MinHeap {α κ : Type} [LinearOrder κ] (key : α → κ) where
  arr : Array α
  ordered : Ordered (keyAt key arr)

namespace MinHeap

variable {α κ : Type} [LinearOrder κ] {key : α → κ}

def toList (h : MinHeap key) : List α := h.arr.toList

def size (h : MinHeap key) : ℕ := h.arr.size

def empty : MinHeap key where
  arr := #[]
  ordered := fun c _ => by simp [keyAt]

/-- Behind the last place there is nothing to be out of order with. -/
theorem orderedUp_push (h : MinHeap key) (x : α) :
    OrderedUp (keyAt key (h.arr.push x)) h.arr.size := by
  have htop : ∀ c, h.arr.size < c → keyAt key (h.arr.push x) c = ⊤ := fun c hc =>
    keyAt_eq_top key (by rw [Array.size_push]; omega)
  constructor
  · intro c hc hne
    rcases Nat.lt_or_gt_of_ne hne with hlt | hgt
    · have hparent := parent_lt hc
      rw [keyAt_push_of_ne key x hne, keyAt_push_of_ne key x (by omega)]
      exact h.ordered c hc
    · rw [htop c hgt]
      exact le_top
  · intro _ c hc hpc
    have hparent := parent_lt hc
    rw [htop c (by omega)]
    exact le_top

/-- The new element comes last and rises. -/
def push (h : MinHeap key) (x : α) : MinHeap key where
  arr := up key (h.arr.push x) h.arr.size
  ordered := ordered_up (by rw [Array.size_push]; omega) (h.orderedUp_push x)

theorem perm_push (h : MinHeap key) (x : α) : (h.push x).toList.Perm (x :: h.toList) := by
  have hperm := (perm_up key (h.arr.push x) h.arr.size).toList
  rw [Array.toList_push] at hperm
  exact hperm.trans (perm_append_singleton _ _)

theorem size_push (h : MinHeap key) (x : α) : (h.push x).size = h.size + 1 := by
  have hlength := (h.perm_push x).length_eq
  simpa [toList, size] using hlength

/-- The array with the root taken out and the last element in its place. -/
def withoutRoot (h : MinHeap key) (h0 : 0 < h.arr.size) : Array α :=
  (h.arr.swap 0 (h.arr.size - 1) h0 (Nat.sub_lt h0 Nat.one_pos)).pop

theorem orderedDown_withoutRoot (h : MinHeap key) (h0 : 0 < h.arr.size) :
    OrderedDown (keyAt key (h.withoutRoot h0)) 0 := by
  have hsize : (h.withoutRoot h0).size = h.arr.size - 1 := by
    rw [withoutRoot, Array.size_pop, Array.size_swap]
  have hkey : ∀ c, 0 < c → c < h.arr.size - 1 →
      keyAt key (h.withoutRoot h0) c = keyAt key h.arr c := by
    intro c hc hlt
    rw [withoutRoot, keyAt_pop_of_lt key (by rw [Array.size_swap]; exact hlt), keyAt_swap key,
      swapped_of_ne _ (by omega) (by omega)]
  constructor
  · intro c hc hpc
    have hparent := parent_lt hc
    by_cases hlt : c < h.arr.size - 1
    · rw [hkey c hc hlt, hkey (parent c) (by omega) (by omega)]
      exact h.ordered c hc
    · rw [keyAt_eq_top key (h := h.withoutRoot h0) (i := c) (by omega)]
      exact le_top
  · intro h0
    exact absurd h0 (Nat.lt_irrefl 0)

/-- The root, and the heap in which the last element has taken its place and sunk. -/
def pop (h : MinHeap key) : Option (α × MinHeap key) :=
  if h0 : 0 < h.arr.size then
    some (h.arr[0],
      { arr := down key (h.withoutRoot h0) 0
        ordered := ordered_down (h.orderedDown_withoutRoot h0) })
  else none

theorem pop_eq_none_iff (h : MinHeap key) : h.pop = none ↔ h.toList = [] := by
  unfold pop toList
  split_ifs with h0
  · simp only [false_iff, Array.toList_eq_nil_iff]
    intro heq
    simp [heq] at h0
  · simpa using Array.size_eq_zero_iff.mp (by omega)

theorem perm_withoutRoot (h : MinHeap key) (h0 : 0 < h.arr.size) :
    h.toList.Perm (h.arr[0] :: (h.withoutRoot h0).toList) := by
  have hlast : h.arr.size - 1 < h.arr.size := Nat.sub_lt h0 Nat.one_pos
  have hswap := (Array.swap_perm h0 hlast).toList
  have hne : (h.arr.swap 0 (h.arr.size - 1) h0 hlast).toList ≠ [] := by
    rw [← length_pos_iff, Array.length_toList, Array.size_swap]
    exact h0
  -- after the exchange the root is the last element
  have hback : (h.arr.swap 0 (h.arr.size - 1) h0 hlast).toList.getLast hne = h.arr[0] := by
    simp [getLast_eq_getElem]
  rw [toList, withoutRoot, Array.toList_pop, ← hback]
  refine hswap.symm.trans ?_
  have happend := dropLast_concat_getLast hne
  have hperm := perm_append_singleton
    ((h.arr.swap 0 (h.arr.size - 1) h0 hlast).toList.getLast hne)
    (h.arr.swap 0 (h.arr.size - 1) h0 hlast).toList.dropLast
  rwa [happend] at hperm

theorem perm_of_pop {h h' : MinHeap key} {x : α} (hpop : h.pop = some (x, h')) :
    h.toList.Perm (x :: h'.toList) := by
  unfold pop at hpop
  split_ifs at hpop with h0
  obtain ⟨rfl, rfl⟩ := Prod.mk.inj (Option.some.inj hpop)
  have hdown := (perm_down key (h.withoutRoot h0) 0).toList
  exact (h.perm_withoutRoot h0).trans (hdown.symm.cons _)

/-- No key in the heap is below that of the root. -/
theorem le_of_pop {h h' : MinHeap key} {x y : α} (hpop : h.pop = some (x, h'))
    (hy : y ∈ h.toList) : key x ≤ key y := by
  unfold pop at hpop
  split_ifs at hpop with h0
  obtain ⟨rfl, -⟩ := Prod.mk.inj (Option.some.inj hpop)
  obtain ⟨i, hi⟩ := mem_iff_getElem?.mp hy
  rw [toList, Array.getElem?_toList] at hi
  have hroot := h.ordered.root_le i
  rw [keyAt_of_getElem? key hi, keyAt_of_getElem? key (Array.getElem?_eq_getElem h0)] at hroot
  exact WithTop.coe_le_coe.mp hroot

end MinHeap

end XrayCore.Heap
