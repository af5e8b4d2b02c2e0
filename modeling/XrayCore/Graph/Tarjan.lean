/-
  XrayCore.Graph.Tarjan

  Tarjan's strongly connected components over a graph with labelled edges,
  as a recursive procedure that keeps `index`, `low`, `onStack` and `stack`
  in one record, and its correctness for every finite graph.

  The graph is given by `edges : V → List E` and `dst : E → V`; two edges may
  lead to the same vertex and carry different labels.  Recursion is on a fuel
  that only has to exceed the number of vertices not visited yet, so
  `components_spec` speaks about the fuel `components` itself passes.

  The proof keeps the list `gray` of the vertices whose visit is going on.
  `Inv` says what holds of the record between two steps; `Visited` says what
  one visit does to it.
-/

import XrayCore.Machine.Run

namespace XrayCore.Graph

open Relation Machine List Function

variable {V E : Type} [LinearOrder V]

/-! ## The procedure -/

/-- What the procedure keeps.  `index` is a map because its size is read; of
    `low` and `onStack` only entries (zero by default) are read.  The top of
    `stack` is its head. -/
structure Tarjan (V : Type) where
  index : AList (fun _ : V => ℕ)
  low : V → ℕ
  onStack : V → Bool
  stack : List V
  out : List (List V)

/-- The number of a vertex, zero for one that has none. -/
def Tarjan.num (st : Tarjan V) (v : V) : ℕ := (st.index.lookup v).getD 0

/-- How many vertices have a number. -/
def Tarjan.count (st : Tarjan V) : ℕ := st.index.keys.length

/-- Nothing is visited. -/
def Tarjan.init : Tarjan V :=
  { index := ∅, low := fun _ => 0, onStack := fun _ => false, stack := [], out := [] }

/-- `v` gets the next number and goes on the stack. -/
def Tarjan.enter (v : V) (st : Tarjan V) : Tarjan V :=
  { st with
    index := st.index.insert v st.count
    low := update st.low v st.count
    onStack := update st.onStack v true
    stack := v :: st.stack }

/-- `low[v] = min(low[v], n)`. -/
def Tarjan.relax (v : V) (n : ℕ) (st : Tarjan V) : Tarjan V :=
  { st with low := update st.low v (min (st.low v) n) }

/-- The vertices popped down to `v`, and what stays. -/
def popUntil (v : V) : List V → List V × List V
  | [] => ([], [])
  | w :: rest =>
    if w = v then ([w], rest) else (w :: (popUntil v rest).1, (popUntil v rest).2)

/-- The vertices down to `v` are a component. -/
def Tarjan.emit (v : V) (st : Tarjan V) : Tarjan V :=
  { st with
    onStack := fun w => if w ∈ (popUntil v st.stack).1 then false else st.onStack w
    stack := (popUntil v st.stack).2
    out := st.out ++ [(popUntil v st.stack).1.insertionSort (· ≤ ·)] }

/-- One edge of `v`, which leads to `w`; `go` visits a vertex without a number. -/
def Tarjan.follow (go : V → Tarjan V → Tarjan V) (v w : V) (st : Tarjan V) : Tarjan V :=
  match st.index.lookup w with
  | none => (go w st).relax v ((go w st).low w)
  | some i => if st.onStack w then st.relax v i else st

/-- Visit `v`, which has no number yet. -/
def visit (edges : V → List E) (dst : E → V) : ℕ → V → Tarjan V → Tarjan V
  | 0, _, st => st
  | fuel + 1, v, st =>
    let st := (edges v).foldl (fun st e => st.follow (visit edges dst fuel) v (dst e)) (st.enter v)
    if st.low v = st.num v then st.emit v else st

/-- One visit for each of `tags` that has no number yet. -/
def visitAll (edges : V → List E) (dst : E → V) (fuel : ℕ) (tags : List V)
    (st : Tarjan V) : Tarjan V :=
  tags.foldl (fun st v => if v ∈ st.index then st else visit edges dst fuel v st) st

/-- The vertices a visit from `tags` can meet. -/
def vertices (tags : List V) (edges : V → List E) (dst : E → V) : List V :=
  tags ++ (tags.flatMap edges).map dst

/-- The strongly connected components of what `tags` reach, each sorted. -/
def components (tags : List V) (edges : V → List E) (dst : E → V) : List (List V) :=
  (visitAll edges dst (vertices tags edges dst).length tags Tarjan.init).out

/-! ## Reachability -/

/-- An edge leads from `x` to `y`. -/
def Edge (edges : V → List E) (dst : E → V) (x y : V) : Prop := ∃ e ∈ edges x, dst e = y

/-! ## Small facts about the steps -/

@[simp] theorem enter_stack (v : V) (st : Tarjan V) : (st.enter v).stack = v :: st.stack := rfl

@[simp] theorem enter_out (v : V) (st : Tarjan V) : (st.enter v).out = st.out := rfl

@[simp] theorem enter_low_self (v : V) (st : Tarjan V) : (st.enter v).low v = st.count := by
  simp [Tarjan.enter]

variable {x v : V}

theorem enter_low_of_ne (st : Tarjan V) (h : x ≠ v) : (st.enter v).low x = st.low x := by
  simp [Tarjan.enter, h]

@[simp] theorem mem_enter_index (st : Tarjan V) :
    x ∈ (st.enter v).index ↔ x = v ∨ x ∈ st.index := by
  simp [Tarjan.enter]

@[simp] theorem enter_num_self (v : V) (st : Tarjan V) : (st.enter v).num v = st.count := by
  simp [Tarjan.enter, Tarjan.num]

theorem enter_num_of_ne (st : Tarjan V) (h : x ≠ v) : (st.enter v).num x = st.num x := by
  simp [Tarjan.enter, Tarjan.num, AList.lookup_insert_ne h]

variable {st : Tarjan V}

theorem enter_count (hv : v ∉ st.index) : (st.enter v).count = st.count + 1 := by
  have hk : v ∉ st.index.keys := by rwa [← AList.mem_keys]
  simp [Tarjan.enter, Tarjan.count, AList.keys_insert, erase_of_not_mem hk]

@[simp] theorem relax_stack (v : V) (n : ℕ) (st : Tarjan V) : (st.relax v n).stack = st.stack := rfl

@[simp] theorem relax_num (v : V) (n : ℕ) (st : Tarjan V) : (st.relax v n).num = st.num := rfl

@[simp] theorem relax_low_self (v : V) (n : ℕ) (st : Tarjan V) :
    (st.relax v n).low v = min (st.low v) n := by
  simp [Tarjan.relax]

theorem relax_low_of_ne (n : ℕ) (st : Tarjan V) (h : x ≠ v) : (st.relax v n).low x = st.low x := by
  simp [Tarjan.relax, h]

/-- Popping down to `v` takes what lies above it, and `v`. -/
theorem popUntil_append {new rest : List V} (hv : v ∉ new) :
    popUntil v (new ++ v :: rest) = (new ++ [v], rest) := by
  induction new with
  | nil => simp [popUntil]
  | cons w new ih =>
    have hw : w ≠ v := fun h => hv (by simp [h])
    have hnew : v ∉ new := fun h => hv (by simp [h])
    simp [popUntil, hw, ih hnew]

/-! ## The invariant -/

/-- What holds between two steps while the vertices `gray` are being visited. -/
structure Inv (R : V → V → Prop) (gray : List V) (st : Tarjan V) : Prop where
  sorted : st.stack.Pairwise (fun a b => st.num b < st.num a)
  num_lt : ∀ x ∈ st.index, st.num x < st.count
  onStack_iff : ∀ x, st.onStack x = true ↔ x ∈ st.stack
  visited_iff : ∀ x, x ∈ st.index ↔ x ∈ st.stack ∨ ∃ c ∈ st.out, x ∈ c
  not_emitted : ∀ x ∈ st.stack, ∀ c ∈ st.out, x ∉ c
  gray_sub : ∀ g ∈ gray, g ∈ st.stack
  nonempty : ∀ c ∈ st.out, c ≠ []
  closed : ∀ x, (∃ c ∈ st.out, x ∈ c) → ∀ y, R x y → ∃ c ∈ st.out, y ∈ c
  scc : ∀ c ∈ st.out, ∀ x ∈ c, ∀ y, y ∈ c ↔ ReflTransGen R x y ∧ ReflTransGen R y x
  to_gray : ∀ x ∈ st.stack, ∃ g ∈ gray, st.num g ≤ st.num x ∧ ReflTransGen R x g
  from_gray : ∀ g ∈ gray, ∀ x ∈ st.stack, st.num g ≤ st.num x → ReflTransGen R g x
  black : ∀ x ∈ st.stack, x ∉ gray → ∀ y, R x y → y ∈ st.index

/-- `st'` comes from `st` by visits: numbers stay, later ones are larger. -/
structure Extends (st st' : Tarjan V) : Prop where
  mem : ∀ x ∈ st.index, x ∈ st'.index
  num : ∀ x ∈ st.index, st'.num x = st.num x
  fresh : ∀ x ∈ st'.index, x ∉ st.index → st.count ≤ st'.num x
  count : st.count ≤ st'.count

theorem Extends.refl (st : Tarjan V) : Extends st st :=
  ⟨fun _ h => h, fun _ _ => rfl, fun _ h h' => absurd h h', le_rfl⟩

variable {st' : Tarjan V}

theorem Extends.trans {st'' : Tarjan V} (h : Extends st st') (h' : Extends st' st'') :
    Extends st st'' where
  mem x hx := h'.mem x (h.mem x hx)
  num x hx := by rw [h'.num x (h.mem x hx), h.num x hx]
  fresh x hx hn := by
    by_cases hx' : x ∈ st'.index
    · rw [h'.num x hx']
      exact h.fresh x hx' hn
    · exact h.count.trans (h'.fresh x hx hx')
  count := h.count.trans h'.count

theorem Extends.relax (h : Extends st st') (v : V) (n : ℕ) : Extends st (st'.relax v n) :=
  ⟨h.mem, h.num, h.fresh, h.count⟩

variable {R : V → V → Prop} {gray : List V}

theorem Inv.mem_index (h : Inv R gray st) (hx : x ∈ st.stack) : x ∈ st.index :=
  (h.visited_iff x).mpr (Or.inl hx)

theorem Inv.stack_nodup (h : Inv R gray st) : st.stack.Nodup :=
  h.sorted.imp fun hab heq => by rw [heq] at hab; exact lt_irrefl _ hab

/-- `relax` touches nothing that the invariant reads. -/
theorem Inv.relax (h : Inv R gray st) (v : V) (n : ℕ) : Inv R gray (st.relax v n) :=
  ⟨h.sorted, h.num_lt, h.onStack_iff, h.visited_iff, h.not_emitted, h.gray_sub, h.nonempty,
    h.closed, h.scc, h.to_gray, h.from_gray, h.black⟩

theorem Inv.init (R : V → V → Prop) : Inv R [] (Tarjan.init : Tarjan V) := by
  constructor <;> simp [Tarjan.init]

theorem enter_extends (hv : v ∉ st.index) : Extends st (st.enter v) where
  mem x hx := by simp [hx]
  num x hx := enter_num_of_ne st (ne_of_mem_of_not_mem hx hv)
  fresh x hx hn := by
    obtain rfl : x = v := by simpa [hn] using hx
    simp
  count := by rw [enter_count hv]; omega

/-- Entering a vertex that every gray one reaches makes it gray. -/
theorem Inv.enter (h : Inv R gray st) (hv : v ∉ st.index)
    (hreach : ∀ g ∈ gray, ReflTransGen R g v) : Inv R (v :: gray) (st.enter v) := by
  have hne : ∀ x ∈ st.stack, x ≠ v := fun x hx heq => hv (heq ▸ h.mem_index hx)
  have hnum : ∀ x ∈ st.stack, (st.enter v).num x = st.num x := fun x hx =>
    enter_num_of_ne st (hne x hx)
  have hlt : ∀ x ∈ st.stack, st.num x < st.count := fun x hx => h.num_lt x (h.mem_index hx)
  constructor
  case sorted =>
    rw [enter_stack, pairwise_cons]
    refine ⟨fun x hx => ?_, h.sorted.imp_of_mem fun {a b} ha hb hab => ?_⟩
    · rw [enter_num_self, hnum x hx]
      exact hlt x hx
    · rw [hnum a ha, hnum b hb]
      exact hab
  case num_lt =>
    intro x hx
    rw [enter_count hv]
    by_cases hxv : x = v
    · subst hxv
      simp
    · rw [enter_num_of_ne st hxv]
      have := h.num_lt x (by simpa [hxv] using hx)
      omega
  case onStack_iff =>
    intro x
    by_cases hxv : x = v
    · simp [Tarjan.enter, hxv]
    · simp [Tarjan.enter, hxv, h.onStack_iff]
  case visited_iff =>
    intro x
    rw [mem_enter_index, h.visited_iff x, enter_stack, enter_out, mem_cons, or_assoc]
  case not_emitted =>
    intro x hx c hc hxc
    rcases mem_cons.mp hx with rfl | hx
    · exact hv ((h.visited_iff x).mpr (Or.inr ⟨c, hc, hxc⟩))
    · exact h.not_emitted x hx c hc hxc
  case gray_sub =>
    intro g hg
    rcases mem_cons.mp hg with rfl | hg
    · simp
    · exact mem_cons_of_mem _ (h.gray_sub g hg)
  case nonempty => exact h.nonempty
  case closed => exact h.closed
  case scc => exact h.scc
  case to_gray =>
    intro x hx
    rcases mem_cons.mp hx with rfl | hx
    · exact ⟨x, by simp, le_rfl, .refl⟩
    · obtain ⟨g, hg, hle, hxg⟩ := h.to_gray x hx
      refine ⟨g, mem_cons_of_mem _ hg, ?_, hxg⟩
      rw [hnum x hx, hnum g (h.gray_sub g hg)]
      exact hle
  case from_gray =>
    intro g hg x hx hle
    rcases mem_cons.mp hg with rfl | hg'
    · rcases mem_cons.mp hx with rfl | hx
      · exact .refl
      · rw [enter_num_self, hnum x hx] at hle
        exact absurd (hlt x hx) (not_lt.mpr hle)
    · rcases mem_cons.mp hx with rfl | hx
      · exact hreach g hg'
      · rw [hnum x hx, hnum g (h.gray_sub g hg')] at hle
        exact h.from_gray g hg' x hx hle
  case black =>
    intro x hx hxg y hxy
    rcases mem_cons.mp hx with rfl | hx
    · exact absurd mem_cons_self hxg
    · have := h.black x hx (fun hg => hxg (mem_cons_of_mem _ hg)) y hxy
      simp [this]

/-! ## One visit -/

/-- What a visit of `v` does: everything it meets is numbered, what stays on
    the stack lies above the old stack, and `low v` bounds from below every
    number of the old stack that an edge from there leads to. -/
structure Visited (R : V → V → Prop) (gray : List V) (v : V) (st st' : Tarjan V) : Prop where
  inv : Inv R gray st'
  ext : Extends st st'
  mem : v ∈ st'.index
  low_eq : ∀ x ∈ st.index, st'.low x = st.low x
  attained : v ∈ st'.stack → ∃ y ∈ st'.stack, st'.num y = st'.low v ∧ ReflTransGen R v y
  popped : v ∉ st'.stack → st'.low v = st'.num v
  bound : ∃ new, st'.stack = new ++ st.stack ∧ (∀ x ∈ new, x ∉ st.index) ∧
    ∀ x ∈ new, ∀ y ∈ st.stack, R x y → st'.low v ≤ st'.num y

/-- The loop over the edges of `v`, after those that lead to `seen`.  `st` is
    the record before `v` was entered. -/
structure Scanned (R : V → V → Prop) (gray : List V) (v : V) (st : Tarjan V) (seen : List V)
    (st' : Tarjan V) : Prop where
  inv : Inv R (v :: gray) st'
  ext : Extends (st.enter v) st'
  low_eq : ∀ x ∈ st.index, st'.low x = st.low x
  low_le : st'.low v ≤ st'.num v
  attained : ∃ y ∈ st'.stack, st'.num y = st'.low v ∧ ReflTransGen R v y
  bound : ∃ new, st'.stack = new ++ v :: st.stack ∧ (∀ x ∈ new, x ∉ st.index) ∧
    ∀ x ∈ new, ∀ y ∈ st.stack, R x y → st'.low v ≤ st'.num y
  seen_mem : ∀ y ∈ seen, y ∈ st'.index
  seen_low : ∀ y ∈ seen, y ∈ st.stack → st'.low v ≤ st'.num y

section Visit

variable {R : V → V → Prop} {gray : List V} {v : V} {st st' : Tarjan V} {seen : List V}

theorem Scanned.mem_self (h : Scanned R gray v st seen st') : v ∈ st'.index :=
  h.ext.mem v (by simp)

theorem Scanned.num_self (h : Scanned R gray v st seen st') : st'.num v = st.count := by
  rw [h.ext.num v (by simp), enter_num_self]

theorem Scanned.ext_start (h : Scanned R gray v st seen st') (hv : v ∉ st.index) :
    Extends st st' :=
  (enter_extends hv).trans h.ext

theorem scanned_enter (hinv : Inv R gray st) (hv : v ∉ st.index)
    (hreach : ∀ g ∈ gray, ReflTransGen R g v) : Scanned R gray v st [] (st.enter v) where
  inv := hinv.enter hv hreach
  ext := Extends.refl _
  low_eq x hx := enter_low_of_ne st (ne_of_mem_of_not_mem hx hv)
  low_le := by simp
  attained := ⟨v, by simp, by simp, .refl⟩
  bound := ⟨[], by simp, by simp, by simp⟩
  seen_mem := by simp
  seen_low := by simp

/-- An edge to a vertex that is on the stack. -/
theorem Scanned.relax_num (h : Scanned R gray v st seen st') (hv : v ∉ st.index) {w : V}
    (hvw : R v w) (hw : w ∈ st'.stack) :
    Scanned R gray v st (w :: seen) (st'.relax v (st'.num w)) where
  inv := h.inv.relax v _
  ext := h.ext.relax v _
  low_eq x hx := by
    rw [relax_low_of_ne _ _ (ne_of_mem_of_not_mem hx hv)]
    exact h.low_eq x hx
  low_le := by
    rw [relax_low_self]
    exact (min_le_left _ _).trans h.low_le
  attained := by
    rw [relax_low_self]
    rcases min_choice (st'.low v) (st'.num w) with hmin | hmin
    · rw [hmin]
      exact h.attained
    · rw [hmin]
      exact ⟨w, hw, rfl, .single hvw⟩
  bound := by
    obtain ⟨new, hstack, hfresh, hlow⟩ := h.bound
    refine ⟨new, hstack, hfresh, fun x hx y hy hxy => ?_⟩
    rw [relax_low_self]
    exact (min_le_left _ _).trans (hlow x hx y hy hxy)
  seen_mem y hy := by
    rcases mem_cons.mp hy with rfl | hy
    · exact h.inv.mem_index hw
    · exact h.seen_mem y hy
  seen_low y hy hst := by
    rw [relax_low_self]
    rcases mem_cons.mp hy with rfl | hy
    · exact min_le_right _ _
    · exact (min_le_left _ _).trans (h.seen_low y hy hst)

/-- An edge to a vertex of a finished component. -/
theorem Scanned.skip (h : Scanned R gray v st seen st') {w : V} (hw : w ∈ st'.index)
    (hstack : w ∉ st'.stack) : Scanned R gray v st (w :: seen) st' where
  inv := h.inv
  ext := h.ext
  low_eq := h.low_eq
  low_le := h.low_le
  attained := h.attained
  bound := h.bound
  seen_mem y hy := by
    rcases mem_cons.mp hy with rfl | hy
    · exact hw
    · exact h.seen_mem y hy
  seen_low y hy hst := by
    rcases mem_cons.mp hy with rfl | hy
    · obtain ⟨new, hnew, -, -⟩ := h.bound
      exact absurd (by simp [hnew, hst]) hstack
    · exact h.seen_low y hy hst

/-- An edge to a vertex without a number, after that vertex was visited. -/
theorem Scanned.visited (h : Scanned R gray v st seen st') (hv : v ∉ st.index) {w : V}
    {st'' : Tarjan V} (hvw : R v w) (hw : w ∉ st'.index)
    (hvis : Visited R (v :: gray) w st' st'') :
    Scanned R gray v st (w :: seen) (st''.relax v (st''.low w)) := by
  have hvmem := h.mem_self
  have hlowv : st''.low v = st'.low v := hvis.low_eq v hvmem
  have hnumv : st''.num v = st'.num v := hvis.ext.num v hvmem
  obtain ⟨new, hstack, hfresh, hlow⟩ := h.bound
  obtain ⟨new', hstack', hfresh', hlow'⟩ := hvis.bound
  have hold : ∀ y ∈ st.stack, y ∈ st'.stack := fun y hy => by simp [hstack, hy]
  have hnum : ∀ y ∈ st'.stack, st''.num y = st'.num y := fun y hy =>
    hvis.ext.num y (h.inv.mem_index hy)
  constructor
  case inv => exact hvis.inv.relax v _
  case ext => exact (h.ext.trans hvis.ext).relax v _
  case low_eq =>
    intro x hx
    rw [relax_low_of_ne _ _ (ne_of_mem_of_not_mem hx hv),
      hvis.low_eq x ((h.ext_start hv).mem x hx), h.low_eq x hx]
  case low_le =>
    rw [relax_low_self, Graph.relax_num, hlowv, hnumv]
    exact (min_le_left _ _).trans h.low_le
  case attained =>
    rw [relax_low_self, Graph.relax_num, relax_stack, hlowv]
    by_cases hle : st'.low v ≤ st''.low w
    · rw [min_eq_left hle]
      obtain ⟨y, hy, hyn, hvy⟩ := h.attained
      exact ⟨y, by simp [hstack', hy], by rw [hnum y hy, hyn], hvy⟩
    · rw [min_eq_right (by omega)]
      -- `w` is still on the stack: a popped vertex has `low = num`, which is above `num v`
      have hwstack : w ∈ st''.stack := by
        by_contra hpop
        have h1 := hvis.popped hpop
        have h2 := hvis.ext.fresh w hvis.mem hw
        have h3 := h.inv.num_lt v hvmem
        have h4 := h.low_le
        omega
      obtain ⟨y, hy, hyn, hwy⟩ := hvis.attained hwstack
      exact ⟨y, hy, hyn, .head hvw hwy⟩
  case bound =>
    refine ⟨new' ++ new, by simp [hstack', hstack], fun x hx => ?_, fun x hx y hy hxy => ?_⟩
    · rcases mem_append.mp hx with hx | hx
      · exact fun hxst => hfresh' x hx ((h.ext_start hv).mem x hxst)
      · exact hfresh x hx
    · rw [relax_low_self, Graph.relax_num]
      rcases mem_append.mp hx with hx | hx
      · exact (min_le_right _ _).trans (hlow' x hx y (hold y hy) hxy)
      · rw [hlowv, hnum y (hold y hy)]
        exact (min_le_left _ _).trans (hlow x hx y hy hxy)
  case seen_mem =>
    exact forall_mem_cons.mpr ⟨hvis.mem, fun y hy => hvis.ext.mem y (h.seen_mem y hy)⟩
  case seen_low =>
    intro y hy hst
    rcases mem_cons.mp hy with rfl | hy
    · exact absurd (h.inv.mem_index (hold y hst)) hw
    · rw [relax_low_self, Graph.relax_num, hlowv, hnum y (hold y hst)]
      exact (min_le_left _ _).trans (h.seen_low y hy hst)

variable {new : List V}

/-- The edges of `v` that lead back into the old stack bound `low v`. -/
theorem Scanned.old_stack_low (h : Scanned R gray v st seen st') (hall : ∀ y, R v y → y ∈ seen)
    (hlow : ∀ x ∈ new, ∀ y ∈ st.stack, R x y → st'.low v ≤ st'.num y) {x y : V}
    (hx : x ∈ new ++ [v]) (hxy : R x y) (hy : y ∈ st.stack) : st'.low v ≤ st'.num y := by
  rcases mem_append.mp hx with hx | hx
  · exact hlow x hx y hy hxy
  · obtain rfl : x = v := by simpa using hx
    exact h.seen_low y (hall y hxy) hy

/-- The visit ends and `v` stays on the stack: `low v` is the number of a
    vertex below it, through which everything above reaches a gray one. -/
theorem Scanned.stay (h : Scanned R gray v st seen st') (hinv : Inv R gray st)
    (hv : v ∉ st.index) (hall : ∀ y, R v y → y ∈ seen) (hne : st'.low v ≠ st'.num v) :
    Visited R gray v st st' := by
  obtain ⟨new, hstack, hfresh, hlow⟩ := h.bound
  have hext := h.ext_start hv
  have hlt : st'.low v < st'.num v := lt_of_le_of_ne h.low_le hne
  have hvstack : v ∈ st'.stack := by simp [hstack]
  have hnum : ∀ y ∈ st.stack, st'.num y = st.num y := fun y hy =>
    hext.num y (hinv.mem_index hy)
  have hvgray : v ∉ gray := fun hg => hv (hinv.mem_index (hinv.gray_sub v hg))
  -- a vertex of the stack with a smaller number than `v` was there before
  have hbelow : ∀ y ∈ st'.stack, st'.num y < st'.num v → y ∈ st.stack := by
    intro y hy hyv
    have hyold : y ∈ st.index := by
      by_contra hn
      have h1 := hext.fresh y (h.inv.mem_index hy) hn
      have h2 := h.num_self
      omega
    rw [hstack, mem_append, mem_cons] at hy
    rcases hy with hy | rfl | hy
    · exact absurd hyold (hfresh y hy)
    · exact absurd hyold hv
    · exact hy
  have hvgray_reach : ∃ g ∈ gray, st'.num g ≤ st'.num v ∧ ReflTransGen R v g := by
    obtain ⟨y, hy, hyn, hvy⟩ := h.attained
    have hyold := hbelow y hy (by omega)
    obtain ⟨g, hg, hle, hyg⟩ := hinv.to_gray y hyold
    refine ⟨g, hg, ?_, hvy.trans hyg⟩
    rw [hnum g (hinv.gray_sub g hg)]
    rw [hnum y hyold] at hyn
    omega
  constructor
  case inv =>
    refine { h.inv with gray_sub := ?_, to_gray := ?_, from_gray := ?_, black := ?_ }
    · exact fun g hg => h.inv.gray_sub g (mem_cons_of_mem _ hg)
    · intro x hx
      obtain ⟨g, hg, hle, hxg⟩ := h.inv.to_gray x hx
      rcases mem_cons.mp hg with rfl | hg
      · obtain ⟨g', hg', hle', hvg'⟩ := hvgray_reach
        exact ⟨g', hg', hle'.trans hle, hxg.trans hvg'⟩
      · exact ⟨g, hg, hle, hxg⟩
    · exact fun g hg => h.inv.from_gray g (mem_cons_of_mem _ hg)
    · intro x hx hxg y hxy
      by_cases hxv : x = v
      · subst hxv
        exact h.seen_mem y (hall y hxy)
      · exact h.inv.black x hx (by simp [hxv, hxg]) y hxy
  case ext => exact hext
  case mem => exact h.mem_self
  case low_eq => exact h.low_eq
  case attained => exact fun _ => h.attained
  case popped => exact fun hpop => absurd hvstack hpop
  case bound =>
    refine ⟨new ++ [v], by simp [hstack], fun x hx => ?_, fun x hx y hy hxy => ?_⟩
    · rcases mem_append.mp hx with hx | hx
      · exact hfresh x hx
      · obtain rfl : x = v := by simpa using hx
        exact hv
    · exact h.old_stack_low hall hlow hx hxy hy

/-- When `low v = num v`, what lies on the stack down to `v` is left only by
    edges into components that are finished. -/
theorem Scanned.component_closed (h : Scanned R gray v st seen st') (hinv : Inv R gray st)
    (hv : v ∉ st.index) (hall : ∀ y, R v y → y ∈ seen) (heq : st'.low v = st'.num v)
    (hstack : st'.stack = new ++ v :: st.stack)
    (hlow : ∀ x ∈ new, ∀ y ∈ st.stack, R x y → st'.low v ≤ st'.num y) :
    ∀ x, (x ∈ new ++ [v] ∨ ∃ c ∈ st'.out, x ∈ c) →
      ∀ y, R x y → y ∈ new ++ [v] ∨ ∃ c ∈ st'.out, y ∈ c := by
  intro x hx y hxy
  rcases hx with hx | hx
  · have hnodup := h.inv.stack_nodup
    rw [hstack] at hnodup
    have hyvis : y ∈ st'.index := by
      rcases mem_append.mp hx with hx' | hx'
      · refine h.inv.black x (by simp [hstack, hx']) ?_ y hxy
        intro hg
        have hold : x ∈ v :: st.stack := by
          rcases mem_cons.mp hg with rfl | hg
          · simp
          · exact mem_cons_of_mem _ (hinv.gray_sub x hg)
        exact (disjoint_of_nodup_append hnodup) hx' hold
      · obtain rfl : x = v := by simpa using hx'
        exact h.seen_mem y (hall y hxy)
    rcases (h.inv.visited_iff y).mp hyvis with hy | hy
    · by_cases hyst : y ∈ st.stack
      · have h1 := h.old_stack_low hall hlow hx hxy hyst
        have h2 := (h.ext_start hv).num y (hinv.mem_index hyst)
        have h3 := hinv.num_lt y (hinv.mem_index hyst)
        have h4 := h.num_self
        omega
      · left
        rw [hstack] at hy
        simpa [hyst] using hy
    · exact Or.inr hy
  · exact Or.inr (h.inv.closed x hx y hxy)

/-- Every vertex on the stack down to `v` reaches `v`. -/
theorem Scanned.component_reaches (h : Scanned R gray v st seen st') (hinv : Inv R gray st)
    (hv : v ∉ st.index) (hall : ∀ y, R v y → y ∈ seen) (heq : st'.low v = st'.num v)
    (hstack : st'.stack = new ++ v :: st.stack)
    (hlow : ∀ x ∈ new, ∀ y ∈ st.stack, R x y → st'.low v ≤ st'.num y) {x : V}
    (hx : x ∈ new ++ [v]) : ReflTransGen R x v := by
  have hxstack : x ∈ st'.stack := by
    rw [hstack]
    rcases mem_append.mp hx with hx | hx
    · simp [hx]
    · simp [mem_singleton.mp hx]
  obtain ⟨g, hg, -, hxg⟩ := h.inv.to_gray x hxstack
  have hgin : g ∈ new ++ [v] ∨ ∃ c ∈ st'.out, g ∈ c :=
    reach_closed (h.component_closed hinv hv hall heq hstack hlow) (Or.inl hx) hxg
  rcases mem_cons.mp hg with rfl | hg'
  · exact hxg
  · -- an older gray vertex lies below `v`, where no path from the component leads
    exfalso
    have hgold := hinv.gray_sub g hg'
    rcases hgin with hgin | ⟨c, hc, hgc⟩
    · have hnodup := h.inv.stack_nodup
      rw [hstack, ← singleton_append, ← append_assoc] at hnodup
      exact (disjoint_of_nodup_append hnodup) hgin hgold
    · exact h.inv.not_emitted g (by simp [hstack, hgold]) c hc hgc

/-- The visit ends with a component: the vertices on the stack down to `v`. -/
theorem Scanned.emit (h : Scanned R gray v st seen st') (hinv : Inv R gray st)
    (hv : v ∉ st.index) (hall : ∀ y, R v y → y ∈ seen) (heq : st'.low v = st'.num v) :
    Visited R gray v st (st'.emit v) := by
  obtain ⟨new, hstack, hfresh, hlow⟩ := h.bound
  have hext := h.ext_start hv
  have hnodup := h.inv.stack_nodup
  rw [hstack] at hnodup
  have hvnew : v ∉ new := fun hn => (disjoint_of_nodup_append hnodup) hn (by simp)
  have hpop : popUntil v st'.stack = (new ++ [v], st.stack) := by
    rw [hstack]
    exact popUntil_append hvnew
  have hstack' : (st'.emit v).stack = st.stack := by simp [Tarjan.emit, hpop]
  have hout' : (st'.emit v).out = st'.out ++ [(new ++ [v]).insertionSort (· ≤ ·)] := by
    simp only [Tarjan.emit, hpop]
  have hindex : (st'.emit v).index = st'.index := rfl
  have hnum' : (st'.emit v).num = st'.num := rfl
  have hnum : ∀ y ∈ st.stack, st'.num y = st.num y := fun y hy =>
    hext.num y (hinv.mem_index hy)
  have hcomp_stack : ∀ x, x ∈ new ++ [v] → x ∈ st'.stack := by
    intro x hx
    rw [hstack, ← singleton_append, ← append_assoc]
    exact mem_append_left _ hx
  have hdisj : ∀ x ∈ new ++ [v], x ∉ st.stack := by
    rw [← singleton_append, ← append_assoc] at hnodup
    exact fun x hx hx' => (disjoint_of_nodup_append hnodup) hx hx'
  have hemitted : ∀ x, (∃ c ∈ (st'.emit v).out, x ∈ c) ↔
      x ∈ new ++ [v] ∨ ∃ c ∈ st'.out, x ∈ c := by
    intro x
    simp only [hout', mem_append, mem_singleton (b := insertionSort _ _), or_and_right,
      exists_or, exists_eq_left, mem_insertionSort]
    exact or_comm
  -- the component: its edges stay in it or lead to what is out, and it is reached from `v` and back
  have hclosed := h.component_closed hinv hv hall heq hstack hlow
  have hto : ∀ x ∈ new ++ [v], ReflTransGen R x v := fun _ hx =>
    h.component_reaches hinv hv hall heq hstack hlow hx
  have hfrom : ∀ x ∈ new ++ [v], ReflTransGen R v x := by
    intro x hx
    refine h.inv.from_gray v (by simp) x (hcomp_stack x hx) ?_
    rcases mem_append.mp hx with hx' | hx'
    · rw [h.num_self]
      exact hext.fresh x (h.inv.mem_index (hcomp_stack x hx)) (hfresh x hx')
    · rw [mem_singleton.mp hx']
  constructor
  case inv =>
    constructor
    case sorted =>
      rw [hstack', hnum']
      have := h.inv.sorted
      rw [hstack] at this
      exact (pairwise_cons.mp (pairwise_append.mp this).2.1).2
    case num_lt => exact h.inv.num_lt
    case onStack_iff =>
      intro x
      rw [hstack']
      simp only [Tarjan.emit, hpop]
      split_ifs with hx
      · simp [hdisj x hx]
      · rw [h.inv.onStack_iff, hstack]
        simp only [mem_append, mem_cons, not_mem_nil, or_false] at hx ⊢
        tauto
    case visited_iff =>
      intro x
      rw [hemitted, hstack', hindex, h.inv.visited_iff, hstack]
      simp only [mem_append, mem_cons, not_mem_nil, or_false]
      tauto
    case not_emitted =>
      intro x hx c hc hxc
      rw [hstack'] at hx
      rcases (hemitted x).mp ⟨c, hc, hxc⟩ with hx' | ⟨c', hc', hxc'⟩
      · exact hdisj x hx' hx
      · exact h.inv.not_emitted x (by simp [hstack, hx]) c' hc' hxc'
    case gray_sub =>
      rw [hstack']
      exact hinv.gray_sub
    case nonempty =>
      intro c hc
      rw [hout', mem_append, mem_singleton] at hc
      rcases hc with hc | rfl
      · exact h.inv.nonempty c hc
      · intro hnil
        have hvin : v ∈ (new ++ [v]).insertionSort (· ≤ ·) := by simp
        rw [hnil] at hvin
        simp at hvin
    case closed =>
      intro x hx y hxy
      rw [hemitted] at hx ⊢
      exact hclosed x hx y hxy
    case scc =>
      intro c hc x hxc y
      rw [hout', mem_append, mem_singleton] at hc
      rcases hc with hc | rfl
      · exact h.inv.scc c hc x hxc y
      · rw [mem_insertionSort] at hxc ⊢
        refine ⟨fun hy => ⟨(hto x hxc).trans (hfrom y hy), (hto y hy).trans (hfrom x hxc)⟩, ?_⟩
        rintro ⟨hxy, hyx⟩
        rcases reach_closed hclosed (Or.inl hxc) hxy with hy | hy
        · exact hy
        · -- nothing leads back from what is out already
          obtain ⟨c, hc, hxc'⟩ := reach_closed h.inv.closed hy hyx
          exact absurd hxc' (h.inv.not_emitted x (hcomp_stack x hxc) c hc)
    case to_gray =>
      intro x hx
      rw [hstack'] at hx
      obtain ⟨g, hg, hle, hxg⟩ := hinv.to_gray x hx
      refine ⟨g, hg, ?_, hxg⟩
      rw [hnum', hnum x hx, hnum g (hinv.gray_sub g hg)]
      exact hle
    case from_gray =>
      intro g hg x hx hle
      rw [hstack'] at hx
      rw [hnum', hnum x hx, hnum g (hinv.gray_sub g hg)] at hle
      exact hinv.from_gray g hg x hx hle
    case black =>
      intro x hx hxg y hxy
      rw [hstack'] at hx
      exact hext.mem y (hinv.black x hx hxg y hxy)
  case ext => exact ⟨hext.mem, hext.num, hext.fresh, hext.count⟩
  case mem => exact h.mem_self
  case low_eq => exact h.low_eq
  case attained =>
    intro hvs
    rw [hstack'] at hvs
    exact absurd (hinv.mem_index hvs) hv
  case popped => exact fun _ => heq
  case bound => exact ⟨[], by simp [hstack'], by simp, by simp⟩

end Visit

/-! ## The whole procedure -/

/-- The vertices of `U` without a number. -/
def whites (U : Finset V) (st : Tarjan V) : Finset V := U.filter (· ∉ st.index)

theorem Extends.whites_subset {U : Finset V} (h : Extends st st') : whites U st' ⊆ whites U st := by
  intro x hx
  simp only [whites, Finset.mem_filter] at hx ⊢
  exact ⟨hx.1, fun hxs => hx.2 (h.mem x hxs)⟩

theorem whites_enter_lt {U : Finset V} (hU : v ∈ U) (hv : v ∉ st.index) :
    (whites U (st.enter v)).card < (whites U st).card := by
  apply Finset.card_lt_card
  refine ⟨(enter_extends hv).whites_subset, fun hsub => ?_⟩
  have hmem : v ∈ whites U (st.enter v) := hsub (by simp [whites, hU, hv])
  simp [whites] at hmem

section Procedure

variable {edges : V → List E} {dst : E → V} {U : Finset V}

variable {go : V → Tarjan V → Tarjan V}

/-- One edge, when `go` visits as it should. -/
theorem Scanned.follow {R : V → V → Prop} {gray seen : List V} {v w : V} {st st' : Tarjan V}
    (h : Scanned R gray v st seen st') (hv : v ∉ st.index) (hvw : R v w)
    (hgo : w ∉ st'.index → Visited R (v :: gray) w st' (go w st')) :
    Scanned R gray v st (w :: seen) (st'.follow go v w) := by
  unfold Tarjan.follow
  cases hlook : st'.index.lookup w with
  | none =>
    have hw : w ∉ st'.index := AList.lookup_eq_none.mp hlook
    exact h.visited hv hvw hw (hgo hw)
  | some i =>
    have hnum : st'.num w = i := by simp [Tarjan.num, hlook]
    have hw : w ∈ st'.index := AList.lookup_isSome.mp (by simp [hlook])
    by_cases hon : st'.onStack w = true
    · simp only [hon, if_true]
      rw [← hnum]
      exact h.relax_num hv hvw ((h.inv.onStack_iff _).mp hon)
    · simp only [hon]
      exact h.skip hw (fun hs => hon ((h.inv.onStack_iff _).mpr hs))

/-- The loop over the edges of `v`. -/
theorem Scanned.loop {gray : List V} {v : V} {st : Tarjan V} (hv : v ∉ st.index)
    (hgo : ∀ w st' seen, Edge edges dst v w → Scanned (Edge edges dst) gray v st seen st' →
      w ∉ st'.index → Visited (Edge edges dst) (v :: gray) w st' (go w st')) :
    ∀ (todo : List E) (seen : List V) (st' : Tarjan V), (∀ e ∈ todo, e ∈ edges v) →
      Scanned (Edge edges dst) gray v st seen st' →
      ∃ seen', (∀ e ∈ todo, dst e ∈ seen') ∧ (∀ y ∈ seen, y ∈ seen') ∧
        Scanned (Edge edges dst) gray v st seen'
          (todo.foldl (fun st e => st.follow go v (dst e)) st') := by
  intro todo
  induction todo with
  | nil => exact fun seen st' _ h => ⟨seen, by simp, fun _ hy => hy, h⟩
  | cons e todo ih =>
    intro seen st' htodo h
    have hedge : Edge edges dst v (dst e) := ⟨e, htodo e (by simp), rfl⟩
    obtain ⟨seen', hdone, hsub, hres⟩ := ih (dst e :: seen) _
      (fun e' he' => htodo e' (by simp [he'])) (h.follow hv hedge (hgo _ st' seen hedge h))
    refine ⟨seen', ?_, fun y hy => hsub y (by simp [hy]), hres⟩
    exact forall_mem_cons.mpr ⟨hsub _ (by simp), hdone⟩

/-- One visit, for every fuel that is not below the number of vertices left. -/
theorem visit_spec (hU : ∀ x y, Edge edges dst x y → y ∈ U) :
    ∀ (fuel : ℕ) (gray : List V) (v : V) (st : Tarjan V), Inv (Edge edges dst) gray st →
      v ∈ U → v ∉ st.index → (∀ g ∈ gray, ReflTransGen (Edge edges dst) g v) →
      (whites U st).card ≤ fuel →
      Visited (Edge edges dst) gray v st (visit edges dst fuel v st) := by
  intro fuel
  induction fuel with
  | zero =>
    intro gray v st _ hvU hv _ hfuel
    have hmem : v ∈ whites U st := by simp [whites, hvU, hv]
    rw [Finset.card_eq_zero.mp (Nat.le_zero.mp hfuel)] at hmem
    simp at hmem
  | succ fuel ih =>
    intro gray v st hinv hvU hv hreach hfuel
    have hwhite := whites_enter_lt hvU hv
    have hgo : ∀ w st' seen, Edge edges dst v w → Scanned (Edge edges dst) gray v st seen st' →
        w ∉ st'.index →
        Visited (Edge edges dst) (v :: gray) w st' (visit edges dst fuel w st') := by
      intro w st' seen hvw h hw
      refine ih (v :: gray) w st' h.inv (hU _ _ hvw) hw (fun g hg => ?_) ?_
      · rcases mem_cons.mp hg with rfl | hg
        · exact .single hvw
        · exact (hreach g hg).tail hvw
      · have := Finset.card_le_card (h.ext.whites_subset (U := U))
        omega
    obtain ⟨seen, hdone, -, hscan⟩ := Scanned.loop hv hgo (edges v) [] (st.enter v)
      (fun _ he => he) (scanned_enter hinv hv hreach)
    have hall : ∀ y, Edge edges dst v y → y ∈ seen := by
      rintro y ⟨e, he, rfl⟩
      exact hdone e he
    rw [visit]
    split_ifs with heq
    · exact hscan.emit hinv hv hall heq
    · exact hscan.stay hinv hv hall heq

/-- The loop over all vertices leaves nothing on the stack. -/
theorem visitAll_spec (hU : ∀ x y, Edge edges dst x y → y ∈ U) {fuel : ℕ} :
    ∀ (tags : List V) (st : Tarjan V), Inv (Edge edges dst) [] st → (∀ v ∈ tags, v ∈ U) →
      (whites U st).card ≤ fuel →
      Inv (Edge edges dst) [] (visitAll edges dst fuel tags st) ∧
        Extends st (visitAll edges dst fuel tags st) ∧
        ∀ v ∈ tags, v ∈ (visitAll edges dst fuel tags st).index := by
  intro tags
  induction tags with
  | nil => exact fun st hinv _ _ => ⟨hinv, Extends.refl st, by simp⟩
  | cons v tags ih =>
    intro st hinv htags hfuel
    have hstep : ∀ st' : Tarjan V, Inv (Edge edges dst) [] st' → Extends st st' → v ∈ st'.index →
        Inv (Edge edges dst) [] (visitAll edges dst fuel tags st') ∧
          Extends st (visitAll edges dst fuel tags st') ∧
          ∀ w ∈ v :: tags, w ∈ (visitAll edges dst fuel tags st').index := by
      intro st' hinv' hext hv
      obtain ⟨h1, h2, h3⟩ := ih st' hinv' (fun w hw => htags w (by simp [hw]))
        ((Finset.card_le_card hext.whites_subset).trans hfuel)
      exact ⟨h1, hext.trans h2, forall_mem_cons.mpr ⟨h2.mem v hv, h3⟩⟩
    simp only [visitAll, foldl_cons] at hstep ⊢
    split_ifs with hv
    · exact hstep st hinv (Extends.refl st) hv
    · have hvis := visit_spec hU fuel [] v st hinv (htags v (by simp)) hv (by simp) hfuel
      exact hstep _ hvis.inv hvis.ext hvis.mem

end Procedure

/-- **Correctness of `components`.**  On a graph whose edges start at `tags`,
    the lists returned are non-empty, cover `tags`, and each holds exactly the
    vertices that share a cycle with any of its members. -/
theorem components_spec {edges : V → List E} (dst : E → V) {tags : List V}
    (hedges : ∀ x, x ∉ tags → edges x = []) :
    (∀ v ∈ tags, ∃ c ∈ components tags edges dst, v ∈ c) ∧
      (∀ c ∈ components tags edges dst, c ≠ []) ∧
      ∀ c ∈ components tags edges dst, ∀ x ∈ c, ∀ y,
        y ∈ c ↔ ReflTransGen (Edge edges dst) x y ∧ ReflTransGen (Edge edges dst) y x := by
  have hU : ∀ x y, Edge edges dst x y → y ∈ (vertices tags edges dst).toFinset := by
    rintro x y ⟨e, he, rfl⟩
    have hx : x ∈ tags := by
      by_contra hx
      rw [hedges x hx] at he
      simp at he
    simp only [vertices, mem_toFinset, mem_append, mem_map, mem_flatMap]
    exact Or.inr ⟨e, ⟨x, hx, he⟩, rfl⟩
  have hfuel : (whites (vertices tags edges dst).toFinset (Tarjan.init : Tarjan V)).card ≤
      (vertices tags edges dst).length :=
    (Finset.card_filter_le _ _).trans (toFinset_card_le _)
  obtain ⟨hinv, -, hmem⟩ := visitAll_spec hU tags Tarjan.init (Inv.init _)
    (fun v hv => by simp [vertices, hv]) hfuel
  refine ⟨fun v hv => ?_, hinv.nonempty, hinv.scc⟩
  rcases (hinv.visited_iff v).mp (hmem v hv) with hstack | hout
  · obtain ⟨g, hg, -⟩ := hinv.to_gray v hstack
    simp at hg
  · exact hout

end XrayCore.Graph
