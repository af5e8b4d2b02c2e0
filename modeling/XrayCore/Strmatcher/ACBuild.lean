/-
  XrayCore.Strmatcher.ACBuild

  Building the automaton.

  Nodes are taken from the queue in the order of their depth.  When a node is taken, all
  nodes of less depth are done, among them its fail node, and all nodes of its own depth
  have been met, so that their fail paths are there.  Of the fail node's edges the
  missing ones are copied, which by `longest_append` is just what they have to be.  In the
  end every edge leads to the longest suffix that is a word of the trie (`Built`).
-/

import XrayCore.Strmatcher.ACTrie
import XrayCore.Words.Longest

namespace XrayCore.Strmatcher.ACAutomaton

open Words List Function

/-! ## What is built -/

/-- A path with `Substr` values, other than that of the root. -/
def IsSubstr (entries : List Entry) (w : List (Fin 39)) : Prop :=
  w ≠ [] ∧ valuesAt entries w .substr ≠ []

instance (entries : List Entry) : DecidablePred (IsSubstr entries) := fun _ =>
  inferInstanceAs (Decidable (_ ∧ _))

/-- The longest suffix with `Substr` values. -/
def firstSubstr (entries : List Entry) (w : List (Fin 39)) : List (Fin 39) :=
  (w.tails.filter (IsSubstr entries)).head?.getD []

/-- The automaton: a trie whose other edges lead to the longest suffix that is a word. -/
structure Built (ac : ACAutomaton) (label : ℕ → List (Fin 39)) (entries : List Entry) : Prop where
  trie : Trie ac label
  holds : Holds ac label entries
  used : Used ac label entries
  words : ∀ w, IsWord entries w ↔ ∃ i < ac.size, label i = w
  next : ∀ i < ac.size, ∀ a, (ac.node i).next a < ac.size ∧
    label ((ac.node i).next a) = longest (IsWord entries) (label i ++ [a])
  fail : ∀ i < ac.size, (ac.node i).fail < ac.size ∧
    label (ac.node i).fail = firstSubstr entries (label i).tail

variable {w : List (Fin 39)} {entries : List Entry}

theorem isWord_of_isSubstr (h : IsSubstr entries w) : IsWord entries w := by
  obtain ⟨_, hne⟩ := h
  rw [valuesAt, Ne, map_eq_nil_iff, filter_eq_nil_iff] at hne
  push Not at hne
  obtain ⟨e, he, hpath⟩ := hne
  rw [decide_eq_true_iff] at hpath
  exact .inr ⟨e, he, hpath.1 ▸ prefix_rfl⟩

/-- The first suffix with values is the same for the longest suffix that is a word. -/
theorem firstSubstr_longest (entries : List Entry) (w : List (Fin 39)) :
    firstSubstr entries (longest (IsWord entries) w) = firstSubstr entries w := by
  rw [firstSubstr, firstSubstr, filter_tails_longest fun _ => isWord_of_isSubstr]

theorem firstSubstr_of_isSubstr (h : IsSubstr entries w) : firstSubstr entries w = w := by
  rw [firstSubstr, filter_tails_of_ne_nil h.1, if_pos h]
  rfl

theorem firstSubstr_of_not_isSubstr (h : ¬ IsSubstr entries w) :
    firstSubstr entries w = firstSubstr entries w.tail := by
  cases w with
  | nil => rfl
  | cons a w =>
    rw [firstSubstr, filter_tails_of_ne_nil (cons_ne_nil a w), if_neg h]
    rfl

theorem firstSubstr_nil (entries : List Entry) : firstSubstr entries [] = [] := by
  have hnil : decide (IsSubstr entries []) = false := decide_eq_false fun h => h.1 rfl
  show (filter _ [[]]).head?.getD [] = []
  rw [filter_singleton, hnil]
  rfl

/-! ## The invariant -/

/-- The edges that were gone over: those of the nodes that are done, and some of the node at
    hand. -/
def Seen (done : List ℕ) (cur : ℕ) (seen : List (Fin 39)) (i : ℕ) (a : Fin 39) : Prop :=
  i ∈ done ∨ i = cur ∧ a ∈ seen

/-- The nodes that were met. -/
def Met (done : List ℕ) (cur : ℕ) (queue : List ℕ) (i : ℕ) : Prop :=
  i ∈ done ∨ i = cur ∨ i ∈ queue

/-- What holds while `cur` is at hand and some of its edges were gone over. -/
structure Inv (label : ℕ → List (Fin 39)) (entries : List Entry) (b : Building)
    (done : List ℕ) (cur : ℕ) (seen : List (Fin 39)) : Prop where
  trie : Trie b.ac label
  holds : Holds b.ac label entries
  used : Used b.ac label entries
  words : ∀ w, IsWord entries w ↔ ∃ i < b.ac.size, label i = w
  lt : ∀ i, Met done cur b.queue i → i < b.ac.size
  nodup : (done ++ cur :: b.queue).Nodup
  root : 0 ∈ done ∨ cur = 0
  next : ∀ i < b.ac.size, ∀ a, Seen done cur seen i a → (b.ac.node i).next a < b.ac.size ∧
    label ((b.ac.node i).next a) = longest (IsWord entries) (label i ++ [a])
  plain : ∀ i < b.ac.size, ∀ a, ¬ Seen done cur seen i a → (b.ac.node i).edge a = false →
    (b.ac.node i).next a = 0
  met : ∀ i < b.ac.size, ∀ a, (b.ac.node i).edge a = true →
    (Seen done cur seen i a ↔ Met done cur b.queue ((b.ac.node i).next a))
  fail : ∀ i, Met done cur b.queue i → b.fail i < b.ac.size ∧
    label (b.fail i) = longest (IsWord entries) (label i).tail ∧
    (b.ac.node i).fail < b.ac.size ∧
    label (b.ac.node i).fail = firstSubstr entries (label i).tail
  depth : ∀ q ∈ b.queue,
    (label cur).length ≤ (label q).length ∧ (label q).length ≤ (label cur).length + 1
  sorted : b.queue.Pairwise fun q r => (label q).length ≤ (label r).length

namespace Inv

variable {label : ℕ → List (Fin 39)} {entries : List Entry} {b : Building} {done : List ℕ}
  {cur : ℕ} {seen : List (Fin 39)} {a : Fin 39}

theorem seen_cons_iff {i : ℕ} {a' : Fin 39} :
    Seen done cur (a :: seen) i a' ↔ Seen done cur seen i a' ∨ i = cur ∧ a' = a := by
  rw [Seen, Seen, mem_cons]
  constructor
  · rintro (hdone | ⟨rfl, rfl | hseen⟩)
    · exact .inl (.inl hdone)
    · exact .inr ⟨rfl, rfl⟩
    · exact .inl (.inr ⟨rfl, hseen⟩)
  · rintro ((hdone | ⟨rfl, hseen⟩) | ⟨rfl, rfl⟩)
    · exact .inl hdone
    · exact .inr ⟨rfl, .inr hseen⟩
    · exact .inr ⟨rfl, .inl rfl⟩

section

variable (h : Inv label entries b done cur seen)
include h

theorem cur_lt : cur < b.ac.size := h.lt cur (.inr (.inl rfl))

/-- What is not done is at least as deep as the node at hand. -/
theorem depth_le : ∀ i < b.ac.size, i ∉ done → (label cur).length ≤ (label i).length := by
  intro i hi hdone
  induction hn : (label i).length using Nat.strong_induction_on generalizing i with
  | h n ih =>
    by_cases hzero : i = 0
    · subst hzero
      rw [h.root.resolve_left hdone, h.trie.root]
      exact Nat.zero_le _
    · obtain ⟨k, hk, a, hedge, rfl⟩ := h.trie.parent i hi hzero
      have hlen : (label k).length + 1 = n := by
        rw [← hn, (h.trie.child k hk a hedge).2, length_append]
        rfl
      by_cases hkdone : k ∈ done
      · -- a child of what is done was met
        rcases (h.met k hk a hedge).mp (.inl hkdone) with hmet | hmet | hmet
        · exact absurd hmet hdone
        · rw [hmet] at hn
          omega
        · have := (h.depth _ hmet).1
          omega
      · have := ih (label k).length (by omega) k hk hkdone rfl
        omega

/-- What is no deeper than the node at hand was met. -/
theorem met_of_length_le {i : ℕ} (hi : i < b.ac.size)
    (hlen : (label i).length ≤ (label cur).length) : Met done cur b.queue i := by
  by_cases hzero : i = 0
  · subst hzero
    rcases h.root with hroot | hroot
    · exact .inl hroot
    · exact .inr (.inl hroot.symm)
  · obtain ⟨k, hk, a, hedge, rfl⟩ := h.trie.parent i hi hzero
    have hkdone : k ∈ done := by
      by_contra hkdone
      have := h.depth_le k hk hkdone
      rw [(h.trie.child k hk a hedge).2, length_append, length_singleton] at hlen
      omega
    exact (h.met k hk a hedge).mp (.inl hkdone)

theorem label_cur_ne_nil (hcur : cur ≠ 0) : label cur ≠ [] := by
  intro hnil
  exact hcur (h.trie.inj cur h.cur_lt 0 h.trie.pos (hnil.trans h.trie.root.symm))

/-- The edge of the fail node is what the missing edge has to be. -/
theorem failIdx_spec (hcur : cur ≠ 0) (a : Fin 39) :
    (b.ac.node (b.fail cur)).next a < b.ac.size ∧
      label ((b.ac.node (b.fail cur)).next a) =
        longest (IsWord entries) ((label cur).tail ++ [a]) := by
  obtain ⟨hlt, hlabel, _⟩ := h.fail cur (.inr (.inl rfl))
  have hdone : b.fail cur ∈ done := by
    by_contra hdone
    have hle := h.depth_le _ hlt hdone
    rw [hlabel] at hle
    have hsuffix := (longest_suffix (P := IsWord entries) (label cur).tail).length_le
    have hpos := length_pos_of_ne_nil (h.label_cur_ne_nil hcur)
    rw [length_tail] at hsuffix
    omega
  obtain ⟨hnext, hlabel'⟩ := h.next _ hlt a (.inl hdone)
  refine ⟨hnext, ?_⟩
  rw [hlabel', hlabel]
  exact (longest_append (isWord_nil entries) (fun _ _ => isWord_of_append) _ a).symm

theorem not_seen (ha : a ∉ seen) : ¬ Seen done cur seen cur a := by
  rintro (hdone | ⟨_, hseen⟩)
  · exact (nodup_append.mp h.nodup).2.2 cur hdone cur (mem_cons_self ..) rfl
  · exact ha hseen

/-- A missing edge leads to a word that is not in the trie. -/
theorem not_isWord (hedge : (b.ac.node cur).edge a = false) :
    ¬ IsWord entries (label cur ++ [a]) := by
  rw [h.words]
  rintro ⟨j, hj, hlabel⟩
  nomatch hedge.symm.trans (h.trie.edge_of_label h.cur_lt hj hlabel).1

/-- A missing edge is copied from the fail node. -/
theorem failEdge (hcur : cur ≠ 0) (ha : a ∉ seen)
    (hedge : (b.ac.node cur).edge a = false) :
    Inv label entries
      { b with ac := b.ac.modify cur fun node =>
          node.setEdge a ((b.ac.node (b.fail cur)).next a) false }
      done cur (a :: seen) := by
  obtain ⟨hfailLt, hfailLabel⟩ := h.failIdx_spec hcur a
  generalize (b.ac.node (b.fail cur)).next a = failIdx at hfailLt hfailLabel ⊢
  generalize hac : (b.ac.modify cur fun node => node.setEdge a failIdx false) = ac'
  obtain ⟨hself, hother, hsize, hvalues⟩ := b.ac.modified h.cur_lt hac
  -- nothing else changes but this edge
  have hedge' := b.ac.keeps AcNode.edge h.cur_lt (update_eq_self_iff.mpr hedge.symm) hac
  have hentry := b.ac.keeps AcNode.entry h.cur_lt rfl hac
  have hfail := b.ac.keeps AcNode.fail h.cur_lt rfl hac
  have hnext : ∀ i a', ¬ (i = cur ∧ a' = a) → (ac'.node i).next a' = (b.ac.node i).next a' := by
    intro i a' hne
    by_cases hi : i = cur
    · subst hi
      rw [hself]
      exact AcNode.next_setEdge_of_ne _ (fun ha' => hne ⟨rfl, ha'⟩) ..
    · rw [hother i hi]
  have hne : ∀ i a', (b.ac.node i).edge a' = true → ¬ (i = cur ∧ a' = a) := by
    rintro i a' htrue ⟨rfl, rfl⟩
    nomatch hedge.symm.trans htrue
  constructor
  · exact h.trie.congr hsize hedge' fun i a' htrue => hnext i a' (hne i a' htrue)
  · exact h.holds.congr hsize hentry hvalues
  · exact h.used.congr hsize hentry
  · intro w
    rw [h.words]
    simp only [hsize]
  · intro i hmet
    simp only [hsize]
    exact h.lt i hmet
  · exact h.nodup
  · exact h.root
  · intro i hi a' hseen
    simp only [hsize] at hi ⊢
    by_cases hia : i = cur ∧ a' = a
    · obtain ⟨rfl, rfl⟩ := hia
      have hnot := h.not_isWord hedge
      obtain ⟨x, xs, hx⟩ := exists_cons_of_ne_nil (h.label_cur_ne_nil hcur)
      rw [hself, AcNode.next_setEdge_self, hfailLabel]
      rw [hx] at hnot ⊢
      exact ⟨hfailLt, (longest_of_not_mem hnot).symm⟩
    · rw [hnext i a' hia]
      exact h.next i hi a' ((seen_cons_iff.mp hseen).resolve_right hia)
  · intro i hi a' hseen hfalse
    simp only [hsize] at hi
    have hia : ¬ (i = cur ∧ a' = a) := fun hia => hseen (seen_cons_iff.mpr (.inr hia))
    simp only [hedge'] at hfalse
    rw [hnext i a' hia]
    exact h.plain i hi a' (fun hs => hseen (seen_cons_iff.mpr (.inl hs))) hfalse
  · intro i hi a' htrue
    simp only [hsize] at hi
    simp only [hedge'] at htrue
    rw [hnext i a' (hne i a' htrue), seen_cons_iff, or_iff_left (hne i a' htrue)]
    exact h.met i hi a' htrue
  · intro i hmet
    simp only [hsize, hfail]
    exact h.fail i hmet
  · exact h.depth
  · exact h.sorted

/-- The fail path of a child, compressed to nodes with `Substr` values. -/
theorem fail_spec {failIdx : ℕ} (hlt : failIdx < b.ac.size)
    (hlen : (label failIdx).length ≤ (label cur).length) :
    (if (b.ac.node failIdx).entry ≠ 0 ∧
      b.ac.value (b.ac.node failIdx).entry .substr ≠ [] then failIdx
      else (b.ac.node failIdx).fail) < b.ac.size ∧
    label (if (b.ac.node failIdx).entry ≠ 0 ∧ b.ac.value (b.ac.node failIdx).entry .substr ≠ [] then
      failIdx else (b.ac.node failIdx).fail) = firstSubstr entries (label failIdx) := by
  split
  · next hentry =>
    refine ⟨hlt, ?_⟩
    rw [h.holds.values failIdx hlt] at hentry
    by_cases hnil : label failIdx = []
    · rw [hnil, firstSubstr_nil]
    · rw [firstSubstr_of_isSubstr ⟨hnil, hentry.2⟩]
  · next hentry =>
    obtain ⟨_, _, hfail, hlabel⟩ := h.fail failIdx (h.met_of_length_le hlt hlen)
    refine ⟨hfail, ?_⟩
    have hnot : ¬ IsSubstr entries (label failIdx) := by
      rintro ⟨_, hvalues⟩
      rw [← h.holds.values failIdx hlt] at hvalues
      refine hentry ⟨fun hzero => hvalues ?_, hvalues⟩
      rw [hzero]
      exact h.holds.zero _
    rw [hlabel, firstSubstr_of_not_isSubstr hnot]

/-- A child is put into the queue, with its fail path. -/
theorem trieEdge (hcur : cur ≠ 0) (ha : a ∉ seen)
    (hedge : (b.ac.node cur).edge a = true) {failIdx fail : ℕ} (hfailLt : failIdx < b.ac.size)
    (hfailLabel : label failIdx = longest (IsWord entries) ((label cur).tail ++ [a]))
    (hfail : fail < b.ac.size ∧ label fail = firstSubstr entries (label failIdx)) :
    Inv label entries
      { ac := b.ac.modify ((b.ac.node cur).next a) fun node => { node with fail }
        fail := update b.fail ((b.ac.node cur).next a) failIdx
        queue := b.queue ++ [(b.ac.node cur).next a] }
      done cur (a :: seen) := by
  obtain ⟨hchildLt, hchildLabel⟩ := h.trie.child cur h.cur_lt a hedge
  have hnotMet : ¬ Met done cur b.queue ((b.ac.node cur).next a) := fun hmet =>
    h.not_seen ha ((h.met cur h.cur_lt a hedge).mpr hmet)
  -- no other edge leads to the child
  have honly : ∀ i < b.ac.size, ∀ a', (b.ac.node i).edge a' = true →
      (b.ac.node i).next a' = (b.ac.node cur).next a → i = cur ∧ a' = a := by
    intro i hi a' hedge' heq
    have hlabel := (h.trie.child i hi a' hedge').2
    rw [heq, hchildLabel] at hlabel
    obtain ⟨hlabel, haa⟩ := append_inj' hlabel rfl
    exact ⟨(h.trie.inj cur h.cur_lt i hi hlabel).symm, (head_eq_of_cons_eq haa).symm⟩
  have hchildTail : (label ((b.ac.node cur).next a)).tail = (label cur).tail ++ [a] := by
    obtain ⟨x, xs, hx⟩ := exists_cons_of_ne_nil (h.label_cur_ne_nil hcur)
    rw [hchildLabel, hx]
    rfl
  have hchildLen : (label ((b.ac.node cur).next a)).length = (label cur).length + 1 := by
    rw [hchildLabel, length_append]
    rfl
  generalize hc : (b.ac.node cur).next a = c at *
  generalize hac : (b.ac.modify c fun node => { node with fail }) = ac'
  obtain ⟨hself, hother, hsize, hvalues⟩ := b.ac.modified hchildLt hac
  have hnext := b.ac.keeps AcNode.next hchildLt rfl hac
  have hedge' := b.ac.keeps AcNode.edge hchildLt rfl hac
  have hentry := b.ac.keeps AcNode.entry hchildLt rfl hac
  have hmet : ∀ i, Met done cur (b.queue ++ [c]) i ↔ Met done cur b.queue i ∨ i = c := by
    intro i
    rw [Met, Met, mem_append, mem_singleton, or_assoc, or_assoc]
  constructor
  · exact h.trie.congr hsize hedge' fun i a' _ => congrFun (hnext i) a'
  · exact h.holds.congr hsize hentry hvalues
  · exact h.used.congr hsize hentry
  · intro w
    rw [h.words]
    simp only [hsize]
  · intro i hi
    simp only [hsize]
    rcases (hmet i).mp hi with hi | rfl
    · exact h.lt i hi
    · exact hchildLt
  · show (done ++ cur :: (b.queue ++ [c])).Nodup
    rw [← cons_append, ← append_assoc]
    refine nodup_append.mpr ⟨h.nodup, nodup_singleton c, fun i hi j hj hij => ?_⟩
    rw [mem_singleton] at hj
    rw [hij, hj] at hi
    apply hnotMet
    rcases mem_append.mp hi with hi | hi
    · exact .inl hi
    · exact .inr (mem_cons.mp hi)
  · exact h.root
  · intro i hi a' hseen
    simp only [hsize, hnext] at hi ⊢
    by_cases hia : i = cur ∧ a' = a
    · obtain ⟨rfl, rfl⟩ := hia
      rw [hc, ← hchildLabel]
      exact ⟨hchildLt, (longest_of_mem ((h.words _).mpr ⟨c, hchildLt, rfl⟩)).symm⟩
    · exact h.next i hi a' ((seen_cons_iff.mp hseen).resolve_right hia)
  · intro i hi a' hseen hfalse
    simp only [hsize, hnext, hedge'] at hi hfalse ⊢
    exact h.plain i hi a' (fun hs => hseen (seen_cons_iff.mpr (.inl hs))) hfalse
  · intro i hi a' htrue
    simp only [hsize, hnext, hedge'] at hi htrue ⊢
    rw [seen_cons_iff, hmet, h.met i hi a' htrue]
    refine or_congr Iff.rfl ⟨?_, honly i hi a' htrue⟩
    rintro ⟨rfl, rfl⟩
    exact hc
  · intro i hi
    simp only [hsize]
    rcases (hmet i).mp hi with hi' | rfl
    · have hne : i ≠ c := fun hic => hnotMet (hic ▸ hi')
      rw [hother i hne, update_of_ne hne]
      exact h.fail i hi'
    · rw [hself, update_self, hchildTail, ← firstSubstr_longest, ← hfailLabel]
      exact ⟨hfailLt, rfl, hfail⟩
  · refine forall_mem_append.mpr ⟨h.depth, forall_mem_singleton.mpr ?_⟩
    rw [hchildLen]
    exact ⟨Nat.le_succ _, Nat.le_refl _⟩
  · refine pairwise_append.mpr ⟨h.sorted, pairwise_singleton _ c, fun q hq r hr => ?_⟩
    rw [mem_singleton.mp hr, hchildLen]
    exact (h.depth q hq).2

/-- One edge of the node at hand. -/
theorem buildEdge (hcur : cur ≠ 0) (ha : a ∉ seen) :
    Inv label entries (ACAutomaton.buildEdge cur (b.fail cur) b a) done cur (a :: seen) ∧
      (ACAutomaton.buildEdge cur (b.fail cur) b a).fail cur = b.fail cur := by
  obtain ⟨hfailLt, hfailLabel⟩ := h.failIdx_spec hcur a
  rw [ACAutomaton.buildEdge]
  cases hedge : (b.ac.node cur).edge a with
  | true =>
    have hne := h.trie.next_ne_zero h.cur_lt hedge
    have hlen : (label ((b.ac.node (b.fail cur)).next a)).length ≤ (label cur).length := by
      have hsuffix := (longest_suffix (P := IsWord entries) ((label cur).tail ++ [a])).length_le
      have hpos := length_pos_of_ne_nil (h.label_cur_ne_nil hcur)
      rw [← hfailLabel, length_append, length_tail, length_singleton] at hsuffix
      omega
    rw [if_pos hne]
    refine ⟨h.trieEdge hcur ha hedge hfailLt hfailLabel (h.fail_spec hfailLt hlen), ?_⟩
    -- the child is not the node at hand
    refine update_of_ne (fun hself => ?_) ..
    have hlabel := congrArg length (h.trie.child cur h.cur_lt a hedge).2
    rw [← hself, length_append, length_singleton] at hlabel
    omega
  | false =>
    have hzero := h.plain cur h.cur_lt a (h.not_seen ha) hedge
    rw [if_neg (not_not.mpr hzero)]
    exact ⟨h.failEdge hcur ha hedge, rfl⟩

/-- The next node is taken from the queue. -/
theorem pop (hall : ∀ a, a ∈ seen) {q : ℕ}
    {queue : List ℕ} (hqueue : b.queue = q :: queue) :
    Inv label entries { b with queue } (done ++ [cur]) q [] ∧ q ≠ 0 := by
  have hmet : ∀ i, Met (done ++ [cur]) q queue i ↔ Met done cur b.queue i := by
    intro i
    rw [Met, Met, hqueue, mem_append, mem_singleton, mem_cons, or_assoc]
  have hseen : ∀ i a, Seen (done ++ [cur]) q [] i a ↔ Seen done cur seen i a := by
    intro i a
    rw [Seen, Seen, mem_append, mem_singleton, or_assoc]
    refine or_congr Iff.rfl ⟨?_, fun hi => .inl hi.1⟩
    rintro (hi | ⟨_, hnil⟩)
    · exact ⟨hi, hall a⟩
    · nomatch hnil
  have hsorted := h.sorted
  rw [hqueue, pairwise_cons] at hsorted
  have hdepth := h.depth
  rw [hqueue] at hdepth
  refine ⟨⟨h.trie, h.holds, h.used, h.words, fun i hi => h.lt i ((hmet i).mp hi), ?_, ?_,
    fun i hi a hs => h.next i hi a ((hseen i a).mp hs),
    fun i hi a hs => h.plain i hi a fun hs' => hs ((hseen i a).mpr hs'),
    fun i hi a htrue => (hseen i a).trans ((h.met i hi a htrue).trans (hmet _).symm),
    fun i hi => h.fail i ((hmet i).mp hi), fun r hr => ?_, hsorted.2⟩, ?_⟩
  · rw [append_assoc]
    exact hqueue ▸ h.nodup
  · rcases h.root with hroot | hroot
    · exact .inl (mem_append_left _ hroot)
    · exact .inl (mem_append_right _ (hroot ▸ mem_singleton_self _))
  · have hr' := (hdepth r (mem_cons_of_mem _ hr)).2
    have hq' := (hdepth q (mem_cons_self ..)).1
    exact ⟨hsorted.1 r hr, by omega⟩
  · -- the root was met before the queue
    rintro rfl
    have hnodup := h.nodup
    rw [hqueue] at hnodup
    obtain ⟨_, hnodup, hdisjoint⟩ := nodup_append.mp hnodup
    rcases h.root with hroot | hroot
    · exact hdisjoint 0 hroot 0 (mem_cons_of_mem _ (mem_cons_self ..)) rfl
    · exact (nodup_cons.mp hnodup).1 (hroot ▸ mem_cons_self ..)

/-- With an empty queue all nodes are done. -/
theorem built (hall : ∀ a, a ∈ seen)
    (hqueue : b.queue = []) : Built b.ac label entries := by
  have hmet : ∀ i < b.ac.size, i ∈ done ∨ i = cur := by
    intro i hi
    induction hn : (label i).length using Nat.strong_induction_on generalizing i with
    | h n ih =>
      by_cases hzero : i = 0
      · subst hzero
        rcases h.root with hroot | hroot
        · exact .inl hroot
        · exact .inr hroot.symm
      · obtain ⟨k, hk, a, hedge, rfl⟩ := h.trie.parent i hi hzero
        have hlen : (label k).length < n := by
          rw [← hn, (h.trie.child k hk a hedge).2, length_append]
          exact Nat.lt_succ_self _
        have hseen : Seen done cur seen k a := by
          rcases ih _ hlen k hk rfl with hdone | hcur
          · exact .inl hdone
          · exact .inr ⟨hcur, hall a⟩
        rcases (h.met k hk a hedge).mp hseen with hdone | hcur | hmem
        · exact .inl hdone
        · exact .inr hcur
        · rw [hqueue] at hmem
          nomatch hmem
  refine ⟨h.trie, h.holds, h.used, h.words, fun i hi a => h.next i hi a ?_, fun i hi => ?_⟩
  · rcases hmet i hi with hdone | hcur
    · exact .inl hdone
    · exact .inr ⟨hcur, hall a⟩
  · refine (h.fail i ?_).2.2
    rcases hmet i hi with hdone | hcur
    · exact .inl hdone
    · exact .inr (.inl hcur)

/-- No node is met twice. -/
theorem length_le : done.length + 1 + b.queue.length ≤ b.ac.size := by
  have hsubset : done ++ cur :: b.queue ⊆ range b.ac.size := by
    intro i hi
    rw [mem_range]
    apply h.lt
    rcases mem_append.mp hi with hi | hi
    · exact .inl hi
    · exact .inr (mem_cons.mp hi)
  have hle := (h.nodup.subperm hsubset).length_le
  rw [length_append, length_cons, length_range] at hle
  omega

end

/-- All edges of the node at hand. -/
theorem buildNode (h : Inv label entries b done cur []) (hcur : cur ≠ 0) :
    ∃ seen, (∀ a, a ∈ seen) ∧ Inv label entries (ACAutomaton.buildNode b cur) done cur seen := by
  -- edge by edge, from any state with the same fail node
  suffices hfold : ∀ (edges : List (Fin 39)) (b' : Building) (seen : List (Fin 39)),
      Inv label entries b' done cur seen → b'.fail cur = b.fail cur → edges.Nodup →
      (∀ a ∈ edges, a ∉ seen) →
      ∃ seen', (∀ a, a ∈ seen ∨ a ∈ edges → a ∈ seen') ∧
        Inv label entries (edges.foldl (ACAutomaton.buildEdge cur (b.fail cur)) b') done cur
          seen' by
    obtain ⟨seen, hall, hinv⟩ := hfold (finRange 39) b [] h rfl (nodup_finRange 39)
      fun _ _ => not_mem_nil
    exact ⟨seen, fun a => hall a (.inr (mem_finRange a)), hinv⟩
  intro edges
  induction edges with
  | nil =>
    intro b' seen h' _ _ _
    exact ⟨seen, fun a ha => ha.resolve_right not_mem_nil, h'⟩
  | cons a edges ih =>
    intro b' seen h' hfail hnodup hnew
    obtain ⟨hinv, hfail'⟩ := h'.buildEdge hcur (hnew a (mem_cons_self ..))
    rw [hfail] at hinv hfail'
    obtain ⟨hnotmem, hnodup⟩ := nodup_cons.mp hnodup
    have hnew' : ∀ a' ∈ edges, a' ∉ a :: seen := by
      intro a' ha' hmem
      rcases mem_cons.mp hmem with rfl | hmem
      · exact hnotmem ha'
      · exact hnew a' (mem_cons_of_mem _ ha') hmem
    obtain ⟨seen', hall, hinv'⟩ := ih _ _ hinv hfail' hnodup hnew'
    refine ⟨seen', fun a' ha' => hall a' ?_, hinv'⟩
    rcases ha' with hseen | hedges
    · exact .inl (mem_cons_of_mem _ hseen)
    · rcases mem_cons.mp hedges with rfl | hedges
      · exact .inl (mem_cons_self ..)
      · exact .inr hedges

end Inv

/-! ## The loop -/

theorem size_buildEdge (i f : ℕ) (b : Building) (a : Fin 39) :
    (buildEdge i f b a).ac.size = b.ac.size := by
  rw [buildEdge]
  split
  · exact size_modify ..
  · exact size_modify ..

theorem size_buildNode (b : Building) (i : ℕ) : (buildNode b i).ac.size = b.ac.size := by
  rw [buildNode]
  generalize b.fail i = f
  induction finRange 39 generalizing b with
  | nil => rfl
  | cons a edges ih =>
    rw [foldl_cons, ih, size_buildEdge]

section Loop

variable {label : ℕ → List (Fin 39)} {entries : List Entry}

/-- With a turn for each node that is not done the loop comes to its end. -/
theorem built_buildLoop (n : ℕ) {b : Building} {done : List ℕ} {cur : ℕ} {seen : List (Fin 39)}
    (h : Inv label entries b done cur seen) (hall : ∀ a, a ∈ seen)
    (hn : b.ac.size ≤ done.length + 1 + n) : Built (buildLoop n b).ac label entries := by
  induction n generalizing b done cur seen with
  | zero =>
    have hle := h.length_le
    refine h.built hall (eq_nil_of_length_eq_zero ?_)
    omega
  | succ n ih =>
    rw [buildLoop]
    cases hqueue : b.queue with
    | nil => exact h.built hall hqueue
    | cons q queue =>
      obtain ⟨hpop, hne⟩ := h.pop hall hqueue
      obtain ⟨seen', hall', hnode⟩ := hpop.buildNode hne
      refine ih hnode hall' ?_
      rw [size_buildNode, length_append, length_singleton]
      show b.ac.size ≤ _
      omega

variable {ac : ACAutomaton}

theorem mem_rootQueue (h : Trie ac label) (hplain : Plain ac) {q : ℕ} :
    q ∈ ac.rootQueue ↔ ∃ a, (ac.node 0).edge a = true ∧ (ac.node 0).next a = q := by
  rw [rootQueue, mem_filter, mem_map]
  constructor
  · rintro ⟨⟨a, _, rfl⟩, hne⟩
    exact ⟨a, (h.edge_iff hplain h.pos).mpr (of_decide_eq_true hne), rfl⟩
  · rintro ⟨a, hedge, rfl⟩
    exact ⟨⟨a, mem_finRange a, rfl⟩, decide_eq_true (h.next_ne_zero h.pos hedge)⟩

theorem length_of_mem_rootQueue (h : Trie ac label) (hplain : Plain ac) {q : ℕ}
    (hq : q ∈ ac.rootQueue) : q < ac.size ∧ ∃ a, label q = [a] := by
  obtain ⟨a, hedge, rfl⟩ := (mem_rootQueue h hplain).mp hq
  obtain ⟨hlt, hlabel⟩ := h.child 0 h.pos a hedge
  rw [h.root] at hlabel
  exact ⟨hlt, a, hlabel⟩

theorem nodup_rootQueue (h : Trie ac label) (hplain : Plain ac) : (0 :: ac.rootQueue).Nodup := by
  refine nodup_cons.mpr ⟨fun hmem => ?_, ?_⟩
  · obtain ⟨_, a, hlabel⟩ := length_of_mem_rootQueue h hplain hmem
    nomatch h.root.symm.trans hlabel
  · -- two edges of the root that lead to the same node are the same
    rw [rootQueue, List.Nodup, pairwise_filter, pairwise_map]
    refine (nodup_finRange 39).imp_of_mem ?_
    intro a a' _ _ hne hnext hnext' heq
    have hedge : ∀ {c}, decide ((ac.node 0).next c ≠ 0) = true → (ac.node 0).edge c = true :=
      fun hc => (h.edge_iff hplain h.pos).mpr (of_decide_eq_true hc)
    have hlabel := (h.child 0 h.pos a (hedge hnext)).2
    rw [heq, (h.child 0 h.pos a' (hedge hnext')).2] at hlabel
    exact hne (head_eq_of_cons_eq (append_cancel_left hlabel)).symm

/-- At the start the root is at hand, with all its edges gone over. -/
theorem inv_start (h : Represents ac label entries) (hneeded : Needed ac label entries) :
    Inv label entries ⟨ac, fun _ => 0, ac.rootQueue⟩ [] 0 (List.finRange 39) := by
  have hseen : ∀ i a, Seen [] 0 (finRange 39) i a ↔ i = 0 := by
    intro i a
    rw [Seen, or_iff_right not_mem_nil, and_iff_left (mem_finRange a)]
  have hmet : ∀ i, Met [] 0 ac.rootQueue i → i = 0 ∨ i ∈ ac.rootQueue := fun i hi =>
    hi.resolve_left not_mem_nil
  have hwords := h.isWord_iff hneeded
  refine ⟨h.trie, h.holds, h.used, hwords, fun i hi => ?_, nodup_rootQueue h.trie h.plain,
    .inr rfl, fun i hi a hs => ?_, fun i hi a hs => h.plain.next i hi a, fun i hi a hedge => ?_,
    fun i hi => ?_, fun q hq => ?_, ?_⟩
  · rcases hmet i hi with rfl | hi
    · exact h.trie.pos
    · exact (length_of_mem_rootQueue h.trie h.plain hi).1
  · obtain rfl := (hseen i a).mp hs
    show (ac.node 0).next a < ac.size ∧ _
    rw [h.trie.root, nil_append]
    cases hedge : (ac.node 0).edge a with
    | true =>
      obtain ⟨hlt, hlabel⟩ := h.trie.child 0 hi a hedge
      rw [h.trie.root, nil_append] at hlabel
      refine ⟨hlt, ?_⟩
      rw [hlabel, longest_of_mem ((hwords _).mpr ⟨_, hlt, hlabel⟩)]
    | false =>
      -- without an edge the letter alone is not a word
      have hnot : ¬ IsWord entries [a] := by
        rw [hwords]
        rintro ⟨j, hj, hlabel⟩
        have hlabel' : label j = label 0 ++ [a] := by
          rw [h.trie.root]
          exact hlabel
        nomatch hedge.symm.trans (h.trie.edge_of_label hi hj hlabel').1
      show (ac.node 0).next a < ac.size ∧ _
      rw [h.plain.next 0 hi a hedge, longest_of_not_mem hnot, h.trie.root]
      exact ⟨h.trie.pos, rfl⟩
  · rw [hseen]
    constructor
    · rintro rfl
      exact .inr (.inr ((mem_rootQueue h.trie h.plain).mpr ⟨a, hedge, rfl⟩))
    · intro hi'
      rcases hmet _ hi' with hzero | hmem
      · exact absurd hzero (h.trie.next_ne_zero hi hedge)
      · obtain ⟨a', hedge', hnext⟩ := (mem_rootQueue h.trie h.plain).mp hmem
        have hlabel := (h.trie.child 0 h.trie.pos a' hedge').2
        rw [hnext, (h.trie.child i hi a hedge).2] at hlabel
        exact h.trie.inj i hi 0 h.trie.pos (append_inj' hlabel rfl).1
  · have hlt : i < ac.size := by
      rcases hmet i hi with rfl | hi
      · exact h.trie.pos
      · exact (length_of_mem_rootQueue h.trie h.plain hi).1
    have htail : (label i).tail = [] := by
      rcases hmet i hi with rfl | hi
      · rw [h.trie.root]
        rfl
      · obtain ⟨_, a, hlabel⟩ := length_of_mem_rootQueue h.trie h.plain hi
        rw [hlabel]
        rfl
    show 0 < ac.size ∧ label 0 = _ ∧ (ac.node i).fail < ac.size ∧ label (ac.node i).fail = _
    rw [htail, firstSubstr_nil, h.plain.fail i hlt, h.trie.root]
    exact ⟨h.trie.pos, rfl, h.trie.pos, rfl⟩
  · obtain ⟨_, a, hlabel⟩ := length_of_mem_rootQueue h.trie h.plain hq
    rw [hlabel, h.trie.root]
    exact ⟨Nat.zero_le _, Nat.le_refl _⟩
  · refine (pairwise_of_forall_mem_list fun q hq r hr => ?_)
    obtain ⟨_, a, hlabel⟩ := length_of_mem_rootQueue h.trie h.plain hq
    obtain ⟨_, a', hlabel'⟩ := length_of_mem_rootQueue h.trie h.plain hr
    rw [hlabel, hlabel']
    exact Nat.le_refl _

/-- `Build` makes the automaton of the trie. -/
theorem built_build (h : Represents ac label entries) (hneeded : Needed ac label entries) :
    Built ac.build label entries :=
  built_buildLoop ac.size (inv_start h hneeded) mem_finRange (by
    show ac.size ≤ 0 + 1 + ac.size
    omega)

end Loop

end XrayCore.Strmatcher.ACAutomaton
