/-
  XrayCore.Cache.Lru

  The LRU cache that is read by key and by value.

  An element of the linked list is a number, and `element` what it holds; `order` is the
  list from its front. Each of the two maps points to elements. `Put` of a key that is
  there replaces what the element holds and leaves the map of values alone, so that the
  maps only agree as long as callers put new keys with new values: `Lru.Ok` is that
  agreement, and `entries` the pairs the cache then stands for.
-/

import Mathlib

namespace XrayCore.Cache

open List Option Function

/-- `lru`, for keys and values of any kind. -/
structure Lru (K V : Type) where
  capacity : ℤ
  order : List ℕ
  element : ℕ → Option (K × V)
  keyToElement : K → Option ℕ
  valueToElement : V → Option ℕ
  allocated : ℕ

variable {K V : Type}

namespace Lru

/-- `NewLru`. -/
def new (capacity : ℤ) : Lru K V := ⟨capacity, [], fun _ => none, fun _ => none, fun _ => none, 0⟩

/-- `MoveToFront`. -/
def moveToFront (l : Lru K V) (e : ℕ) : Lru K V := { l with order := e :: l.order.erase e }

/-- `Get`. -/
def get (l : Lru K V) (key : K) : Option V × Lru K V :=
  match l.keyToElement key with
  | some e => ((l.element e).map Prod.snd, l.moveToFront e)
  | none => (none, l)

/-- `GetKeyFromValue`. -/
def getKeyFromValue (l : Lru K V) (value : V) : Option K × Lru K V :=
  match l.valueToElement value with
  | some e => ((l.element e).map Prod.fst, l.moveToFront e)
  | none => (none, l)

/-- `PeekKeyFromValue`. -/
def peekKeyFromValue (l : Lru K V) (value : V) : Option K :=
  match l.valueToElement value with
  | some e => (l.element e).map Prod.fst
  | none => none

section Put

variable [DecidableEq K] [DecidableEq V]

/-- What `Put` does with a new key before it looks at the capacity. -/
def push (l : Lru K V) (key : K) (value : V) : Lru K V :=
  { l with
    order := l.allocated :: l.order
    element := update l.element l.allocated (some (key, value))
    keyToElement := update l.keyToElement key (some l.allocated)
    valueToElement := update l.valueToElement value (some l.allocated)
    allocated := l.allocated + 1 }

/-- The element at the back goes, with its entries in both maps. -/
def removeBack (l : Lru K V) : Lru K V :=
  match l.order.getLast?.bind l.element with
  | some (key, value) => { l with
      order := l.order.dropLast
      keyToElement := update l.keyToElement key none
      valueToElement := update l.valueToElement value none }
  | none => l

/-- `Put`. -/
def put (l : Lru K V) (key : K) (value : V) : Lru K V :=
  match l.keyToElement key with
  | some e => { l with element := update l.element e (some (key, value)) }.moveToFront e
  | none =>
    let l := l.push key value
    if (l.order.length : ℤ) > l.capacity then l.removeBack else l

end Put

/-! ## Agreement of the maps -/

/-- The pairs in the cache, the last used first. -/
def entries (l : Lru K V) : List (K × V) := l.order.filterMap l.element

/-- The maps point to the elements of the list and to nothing else. -/
structure Ok (l : Lru K V) : Prop where
  hnodup : l.order.Nodup
  helement : ∀ e ∈ l.order, e < l.allocated ∧ (l.element e).isSome
  hkey : ∀ key e, l.keyToElement key = some e ↔
    e ∈ l.order ∧ ∃ value, l.element e = some (key, value)
  hvalue : ∀ value e, l.valueToElement value = some e ↔
    e ∈ l.order ∧ ∃ key, l.element e = some (key, value)

theorem ok_new (capacity : ℤ) : (new capacity : Lru K V).Ok where
  hnodup := nodup_nil
  helement _ h := (nomatch h)
  hkey _ _ := ⟨fun h => (nomatch h), fun h => (nomatch h.1)⟩
  hvalue _ _ := ⟨fun h => (nomatch h), fun h => (nomatch h.1)⟩

theorem mem_entries {l : Lru K V} {key : K} {value : V} :
    (key, value) ∈ l.entries ↔ ∃ e ∈ l.order, l.element e = some (key, value) :=
  mem_filterMap

namespace Ok

variable {l : Lru K V}

theorem length_entries (h : l.Ok) : l.entries.length = l.order.length := by
  unfold entries
  have hall := fun e he => (h.helement e he).2
  generalize l.order = order at hall
  induction order with
  | nil => rfl
  | cons e order ih =>
    obtain ⟨kv, hkv⟩ := isSome_iff_exists.mp (hall e (mem_cons_self ..))
    rw [filterMap_cons_some hkv, length_cons, length_cons,
      ih fun x hx => hall x (mem_cons_of_mem _ hx)]

/-- What is found through one of the maps is the other part of a pair. -/
theorem found {I C : Type} {index : I → Option ℕ} {pair : I → C → K × V} (other : K × V → C)
    (hindex : ∀ i e, index i = some e ↔ e ∈ l.order ∧ ∃ x, l.element e = some (pair i x))
    (hother : ∀ i x, other (pair i x) = x) (i : I) (x : C) :
    ((index i).bind fun e => (l.element e).map other) = some x ↔ pair i x ∈ l.entries := by
  rw [entries, mem_filterMap]
  constructor
  · intro hx
    obtain ⟨e, he, hx⟩ := bind_eq_some_iff.mp hx
    obtain ⟨hmem, y, hy⟩ := (hindex i e).mp he
    rw [hy, map_some, hother] at hx
    exact ⟨e, hmem, some.inj hx ▸ hy⟩
  · rintro ⟨e, hmem, hx⟩
    rw [(hindex i e).mpr ⟨hmem, x, hx⟩, bind_some, hx, map_some, hother]

end Ok

/-! ## Reading -/

/-- Reading changes the order of a cache only. -/
structure Kept (l l' : Lru K V) : Prop where
  hok : l'.Ok
  hentries : ∀ k v, (k, v) ∈ l'.entries ↔ (k, v) ∈ l.entries
  hcapacity : l'.capacity = l.capacity
  hlength : l'.order.length = l.order.length

namespace Ok

variable {l : Lru K V}

theorem kept (h : l.Ok) : Kept l l := ⟨h, fun _ _ => Iff.rfl, rfl, rfl⟩

theorem moveToFront {e : ℕ} (h : l.Ok) (he : e ∈ l.order) : Kept l (l.moveToFront e) := by
  have hperm := perm_cons_erase he
  have hmem (x : ℕ) : x ∈ (l.moveToFront e).order ↔ x ∈ l.order := hperm.symm.mem_iff
  refine ⟨⟨hperm.nodup_iff.mp h.hnodup, ?_, ?_, ?_⟩, ?_, rfl, hperm.length_eq.symm⟩
  · intro x hx
    exact h.helement x ((hmem x).mp hx)
  · intro key x
    rw [hmem]
    exact h.hkey key x
  · intro value x
    rw [hmem]
    exact h.hvalue value x
  · intro k v
    simp only [mem_entries, hmem]
    rfl

/-- `Get` finds the value of a key. -/
theorem get (h : l.Ok) (key : K) :
    (∀ value, (l.get key).1 = some value ↔ (key, value) ∈ l.entries) ∧ Kept l (l.get key).2 := by
  have hfound := found Prod.snd h.hkey (fun _ _ => rfl) key
  revert hfound
  unfold Lru.get
  cases hpoint : l.keyToElement key with
  | none => exact fun hfound => ⟨hfound, h.kept⟩
  | some e => exact fun hfound => ⟨hfound, h.moveToFront ((h.hkey key e).mp hpoint).1⟩

/-- `GetKeyFromValue` finds the key of a value. -/
theorem getKeyFromValue (h : l.Ok) (value : V) :
    (∀ key, (l.getKeyFromValue value).1 = some key ↔ (key, value) ∈ l.entries) ∧
      Kept l (l.getKeyFromValue value).2 := by
  have hfound := found Prod.fst h.hvalue (fun _ _ => rfl) value
  revert hfound
  unfold Lru.getKeyFromValue
  cases hpoint : l.valueToElement value with
  | none => exact fun hfound => ⟨hfound, h.kept⟩
  | some e => exact fun hfound => ⟨hfound, h.moveToFront ((h.hvalue value e).mp hpoint).1⟩

theorem value_unique (h : l.Ok) {key : K} {v w : V} (hin : (key, v) ∈ l.entries)
    (hin' : (key, w) ∈ l.entries) : v = w := by
  rw [← (h.get key).1] at hin hin'
  exact some.inj (hin.symm.trans hin')

theorem key_unique (h : l.Ok) {j k : K} {value : V} (hin : (j, value) ∈ l.entries)
    (hin' : (k, value) ∈ l.entries) : j = k := by
  rw [← (h.getKeyFromValue value).1] at hin hin'
  exact some.inj (hin.symm.trans hin')

theorem peekKeyFromValue_isSome (h : l.Ok) (value : V) :
    (l.peekKeyFromValue value).isSome ↔ ∃ key, (key, value) ∈ l.entries := by
  have hsame : l.peekKeyFromValue value = (l.getKeyFromValue value).1 := by
    unfold Lru.peekKeyFromValue Lru.getKeyFromValue
    split <;> rfl
  rw [hsame, isSome_iff_exists]
  exact exists_congr fun key => (h.getKeyFromValue value).1 key

end Ok

/-! ## A new pair -/

namespace Ok

variable [DecidableEq K] [DecidableEq V] {l : Lru K V}

section Index

variable {I : Type} [DecidableEq I] {index : I → Option ℕ} {order front : List ℕ} {e₀ : ℕ} {i₀ : I}
  {holds holds' : ℕ → I → Prop}

/-- A map to the elements, without the one at the back. -/
theorem index_erase (hindex : ∀ i e, index i = some e ↔ e ∈ order ∧ holds e i)
    (hsplit : ∀ e, e ∈ order ↔ e ∈ front ∨ e = e₀) (hapart : e₀ ∉ front)
    (hback : ∀ i, holds e₀ i ↔ i = i₀) (i : I) (e : ℕ) :
    update index i₀ none i = some e ↔ e ∈ front ∧ holds e i := by
  by_cases hi : i = i₀
  · subst hi
    rw [update_self]
    refine ⟨nofun, ?_⟩
    -- another element would be the one at the back
    rintro ⟨he, hheld⟩
    have hpoint := (hindex i e).mpr ⟨(hsplit e).mpr (.inl he), hheld⟩
    rw [(hindex i e₀).mpr ⟨(hsplit e₀).mpr (.inr rfl), (hback i).mpr rfl⟩] at hpoint
    cases hpoint
    exact absurd he hapart
  · rw [update_of_ne hi, hindex, hsplit]
    constructor
    · rintro ⟨he | rfl, hheld⟩
      · exact ⟨he, hheld⟩
      · exact absurd ((hback i).mp hheld) hi
    · rintro ⟨he, hheld⟩
      exact ⟨.inl he, hheld⟩

/-- A map to the elements, with a new one. -/
theorem index_insert (hindex : ∀ i e, index i = some e ↔ e ∈ order ∧ holds e i)
    (hfresh : e₀ ∉ order) (hnew : ∀ i, holds' e₀ i ↔ i = i₀)
    (hold : ∀ e ∈ order, ∀ i, holds' e i ↔ holds e i) (hnone : ∀ e ∈ order, ¬holds e i₀)
    (i : I) (e : ℕ) :
    update index i₀ (some e₀) i = some e ↔ e ∈ e₀ :: order ∧ holds' e i := by
  by_cases he : e = e₀
  · subst he
    by_cases hi : i = i₀
    · simp [hi, hnew]
    · simp [hi, hnew, hindex, hfresh]
  · by_cases hi : i = i₀
    · subst hi
      simp only [update_self, some.injEq, mem_cons, he, false_or]
      exact ⟨fun h => absurd h.symm he, fun h => absurd ((hold e h.1 i).mp h.2) (hnone e h.1)⟩
    · rw [update_of_ne hi, hindex, mem_cons, or_iff_right he]
      exact and_congr_right fun hmem => (hold e hmem i).symm

end Index

/-- Without the element at the back, both maps lose what it held. -/
theorem removeBack (h : l.Ok) (hne : l.order ≠ []) :
    l.removeBack.Ok ∧ l.removeBack.order = l.order.dropLast ∧
      (∀ k v, (k, v) ∈ l.removeBack.entries → (k, v) ∈ l.entries) := by
  obtain ⟨front, back, horder⟩ : ∃ front back, l.order = front ++ [back] :=
    ⟨_, _, (dropLast_append_getLast hne).symm⟩
  have hback : back ∈ l.order := by simp [horder]
  have hnodup := h.hnodup
  rw [horder, nodup_append] at hnodup
  have hapart : back ∉ front := fun hmem => hnodup.2.2 back hmem back (by simp) rfl
  have hsplit (e : ℕ) : e ∈ l.order ↔ e ∈ front ∨ e = back := by simp [horder]
  obtain ⟨⟨key, value⟩, hheld⟩ := isSome_iff_exists.mp (h.helement back hback).2
  have hdrop : l.order.dropLast = front := by rw [horder, dropLast_concat]
  have hresult : l.removeBack = { l with
      order := front
      keyToElement := update l.keyToElement key none
      valueToElement := update l.valueToElement value none } := by
    unfold Lru.removeBack
    rw [horder, getLast?_concat, bind_some, hheld, dropLast_concat]
  rw [hresult]
  refine ⟨⟨hnodup.1, ?_, ?_, ?_⟩, hdrop.symm, ?_⟩
  · intro e he
    exact h.helement e ((hsplit e).mpr (.inl he))
  · exact index_erase h.hkey hsplit hapart fun k => by simp [hheld, eq_comm]
  · exact index_erase h.hvalue hsplit hapart fun v => by simp [hheld, eq_comm]
  · intro k v hin
    obtain ⟨e, he, hv⟩ := mem_entries.mp hin
    exact mem_entries.mpr ⟨e, (hsplit e).mpr (.inl he), hv⟩

/-- A new key with a new value, at the front. -/
theorem push (h : l.Ok) {key : K} {value : V} (hkey : ∀ v, (key, v) ∉ l.entries)
    (hvalue : ∀ k, (k, value) ∉ l.entries) :
    (l.push key value).Ok ∧
      ∀ k v, (k, v) ∈ (l.push key value).entries ↔ (k, v) = (key, value) ∨ (k, v) ∈ l.entries := by
  have hfresh : l.allocated ∉ l.order := fun hmem => Nat.lt_irrefl _ (h.helement _ hmem).1
  have hne (e : ℕ) (he : e ∈ l.order) : e ≠ l.allocated := fun heq => hfresh (heq ▸ he)
  -- an element holds the new pair if it is the new one, else what it held
  have hheld (e : ℕ) (he : e ∈ l.allocated :: l.order) (k : K) (v : V) :
      update l.element l.allocated (some (key, value)) e = some (k, v) ↔
        (e = l.allocated ∧ (k, v) = (key, value)) ∨ (e ∈ l.order ∧ l.element e = some (k, v)) := by
    rcases mem_cons.mp he with rfl | he
    · simp only [update_self, some.injEq, true_and, hfresh, false_and, or_false]
      exact eq_comm
    · simp [hne e he, he]
  refine ⟨⟨nodup_cons.mpr ⟨hfresh, h.hnodup⟩, ?_, ?_, ?_⟩, ?_⟩
  · intro e he
    rcases mem_cons.mp he with rfl | he
    · exact ⟨Nat.lt_succ_self _, by simp [Lru.push]⟩
    · refine ⟨Nat.lt_succ_of_lt (h.helement e he).1, ?_⟩
      simpa [Lru.push, update_of_ne (hne e he)] using (h.helement e he).2
  · refine index_insert h.hkey hfresh (fun k => by simp [Lru.push, eq_comm]) ?_ ?_
    · intro e he k
      simp [Lru.push, hne e he]
    · rintro e he ⟨v, hv⟩
      exact hkey v (mem_entries.mpr ⟨e, he, hv⟩)
  · refine index_insert h.hvalue hfresh (fun v => by simp [Lru.push, eq_comm]) ?_ ?_
    · intro e he v
      simp [Lru.push, hne e he]
    · rintro e he ⟨k, hk⟩
      exact hvalue k (mem_entries.mpr ⟨e, he, hk⟩)
  · intro k v
    rw [mem_entries, mem_entries]
    constructor
    · rintro ⟨e, he, hv⟩
      rcases (hheld e he k v).mp hv with ⟨-, heq⟩ | ⟨he, hv⟩
      · exact .inl heq
      · exact .inr ⟨e, he, hv⟩
    · rintro (heq | ⟨e, he, hv⟩)
      · exact ⟨l.allocated, mem_cons_self ..,
          (hheld _ (mem_cons_self ..) k v).mpr (.inl ⟨rfl, heq⟩)⟩
      · exact ⟨e, mem_cons_of_mem _ he,
          (hheld e (mem_cons_of_mem _ he) k v).mpr (.inr ⟨he, hv⟩)⟩

/-- `Put` of a new key with a new value keeps the agreement of the maps and the bound on the
    size, and brings in no other pair. -/
theorem put (h : l.Ok) {key : K} {value : V} (hkey : ∀ v, (key, v) ∉ l.entries)
    (hvalue : ∀ k, (k, value) ∉ l.entries) (hsize : (l.order.length : ℤ) ≤ max l.capacity 0) :
    (l.put key value).Ok ∧ (l.put key value).capacity = l.capacity ∧
      ((l.put key value).order.length : ℤ) ≤ max l.capacity 0 ∧
      ∀ k v, (k, v) ∈ (l.put key value).entries → (k, v) = (key, value) ∨ (k, v) ∈ l.entries := by
  have hnone : l.keyToElement key = none := by
    cases hpoint : l.keyToElement key with
    | none => rfl
    | some e =>
      obtain ⟨he, v, hv⟩ := (h.hkey key e).mp hpoint
      exact absurd (mem_entries.mpr ⟨e, he, hv⟩) (hkey v)
  obtain ⟨hok, hentries⟩ := h.push hkey hvalue
  have hlength : (l.push key value).order.length = l.order.length + 1 := rfl
  unfold Lru.put
  rw [hnone]
  dsimp only
  split
  · obtain ⟨hok', horder, hsub⟩ := hok.removeBack (by simp [Lru.push])
    refine ⟨hok', ?_, ?_, fun k v hin => (hentries k v).mp (hsub k v hin)⟩
    · unfold Lru.removeBack
      split <;> rfl
    · rw [horder, length_dropLast, hlength]
      omega
  · next hroom =>
    refine ⟨hok, rfl, ?_, fun k v => (hentries k v).mp⟩
    have hcap : (l.push key value).capacity = l.capacity := rfl
    omega

end Ok

end Lru

end XrayCore.Cache
