/-
  XrayCore.Xdns.Resp

  Responses, and the buffers that both ends take from one pool.

  `decode` puts together what the answers of a response carry.  A TXT record carries
  it whole; of the other types each record is a fragment, with its number in front and,
  in the first, the count.  The fragments are put in order, and two of one number or
  a count above their own number give nothing (`length_assemble`).
-/

import XrayCore.Xdns.Domain

namespace XrayCore.Xdns

open Bytes List

/-! ## Buffers -/

/-- The buffers of `pool4K`. -/
def poolSize : ℕ := 4096

/-- A pooled buffer cut to `len(bs)` after `bs` was appended to its empty front.  Bytes
    that do not fit make `append` go on in another array, and then the cut reaches
    past the end of the buffer. -/
def pooled (bs : Bytes) : Option Bytes := if bs.length ≤ poolSize then some bs else none

theorem pooled_eq_none_iff {bs : Bytes} : pooled bs = none ↔ poolSize < bs.length := by
  unfold pooled
  split_ifs with h
  · simp only [false_iff, Nat.not_lt]
    exact h
  · simp only [true_iff]
    exact Nat.not_le.mp h

/-! ## Room in a response -/

/-- `Resp`.  `cap` is how many bytes the response may carry; it can be negative. -/
structure Resp where
  msg : Message
  domain : Domain
  edns0 : UInt16
  cap : ℤ
deriving DecidableEq

/-- The room in records of `single` bytes each of which carries `bytes`: each spends one
    on its number, the first one more on their count. -/
def recordRoom (left single bytes : ℤ) : ℤ :=
  let n := min (left.tdiv single) 255
  bytes * n - n - 1

/-- The room in one TXT record, whose strings of up to 255 bytes each spend one on their
    length. -/
def textRoom (left : ℤ) : ℤ :=
  let left := left - (2 + 2 + 2 + 4 + 2)
  let n := left.tdiv 255
  let m := left.tmod 255
  255 * n - n + if m > 1 then m - 1 else 0

/-- The room in a response to a question, which repeats it. -/
def respCap (q : Question) (domain : Domain) (edns0 : UInt16) : ℤ :=
  let size : ℤ := min (max edns0.toNat 512) (max domain.edns0.toNat 512)
  let left := size - 12 - q.name.length - 1 - 2 - 2
  let left := if edns0 > 0 then left - (1 + 2 + 2 + 4 + 2 + 0) else left
  if q.type = typeA then recordRoom left (2 + 2 + 2 + 4 + 2 + 4) 4
  else if q.type = typeCNAME then recordRoom left (2 + 2 + 2 + 4 + 2 + domain.lenMax) domain.cap
  else if q.type = typeTXT then textRoom left
  else if q.type = typeAAAA then recordRoom left (2 + 2 + 2 + 4 + 2 + 16) 16
  else 0

/-- `NewResp`. -/
def newResp (msg : Message) (domain : Domain) (edns0 : UInt16) : Option Resp :=
  if msg.header.response then some { msg, domain, edns0 := 0, cap := 0 }
  else (index msg.questions 0).map fun q => { msg, domain, edns0, cap := respCap q domain edns0 }

/-- A message with a question always gives a response. -/
theorem exists_newResp {msg : Message} {q : Question} (hq : msg.questions = [q])
    (domain : Domain) (edns0 : UInt16) : ∃ r, newResp msg domain edns0 = some r := by
  unfold newResp
  split_ifs with h
  · exact ⟨_, rfl⟩
  · rw [hq]
    exact ⟨_, rfl⟩

/-! ## Fragments -/

/-- A fragment is never empty: its first byte is its number. -/
structure Fragment where
  number : UInt8
  rest : Bytes
deriving DecidableEq

/-- The fragment in bytes, of which there are none in a name that carries nothing. -/
def Fragment.ofBytes : Bytes → Option Fragment
  | [] => none
  | number :: rest => some { number, rest }

/-- The fragment that a record below the domain carries, if its type is the one asked for. -/
def Domain.fragment (d : Domain) (qtype : UInt16) (a : Resource) : Option (Option Fragment) :=
  match d.isDomain a.name with
  | none => none
  | some false => some none
  | some true =>
    if a.type ≠ qtype then some none
    else
      match a.body with
      | .a address => some (Fragment.ofBytes address.toList)
      | .cname target => (d.decode target).map Fragment.ofBytes
      | .aaaa address => some (Fragment.ofBytes address.toList)
      | _ => some none

/-- The loop over the answers. -/
def Domain.fragments (d : Domain) (qtype : UInt16) : List Resource → Option (List Fragment)
  | [] => some []
  | a :: rest =>
    match d.fragment qtype a, d.fragments qtype rest with
    | some (some f), some fs => some (f :: fs)
    | some none, some fs => some fs
    | _, _ => none

/-- The fragments after the first one, each of another number than the one before it. -/
def joinRest (before : UInt8) : List Fragment → Option Bytes
  | [] => some []
  | f :: fs => if f.number = before then none else (joinRest f.number fs).map (f.rest ++ ·)

/-- What fragments in order carry; `none` stands for the returns of zero. -/
def join : List Fragment → Option Bytes
  | [] => none
  | f :: fs =>
    match f.rest with
    | [] => none
    | total :: data =>
      if total.toNat > fs.length + 1 then none else (joinRest f.number fs).map (data ++ ·)

/-- The order by number.  `sort.Slice` does not say what it does with equal ones, and two
    of them never give anything. -/
def Fragment.le (f g : Fragment) : Prop := f.number ≤ g.number

instance : DecidableRel Fragment.le := fun f g => inferInstanceAs (Decidable (f.number ≤ g.number))

def assemble (fs : List Fragment) : Bytes := (join (fs.insertionSort Fragment.le)).getD []

/-- The strings of an answer that is the only one, below the domain and of type TXT. -/
def Domain.text (d : Domain) (answers : List Resource) : Option Bytes :=
  match answers with
  | [a] =>
    (d.isDomain a.name).map fun owned =>
      match a.body with
      | .txt strings => if owned then strings.flatten else []
      | _ => []
  | _ => some []

/-- `Resp.Decode`: the bytes that it appends to its buffer. -/
def Resp.decode (r : Resp) : Option Bytes :=
  match index r.msg.questions 0 with
  | none => none
  | some q =>
    if q.type = typeTXT then r.domain.text r.msg.answers
    else (r.domain.fragments q.type r.msg.answers).map assemble

/-! ## What the fragments carry -/

/-- The fragment of a record that is of the type asked for and below the domain. -/
def Domain.fragmentOf (d : Domain) (qtype : UInt16) (a : Resource) : Option Fragment :=
  if d.Covers a.name ∧ a.type = qtype then
    match a.body with
    | .a address => Fragment.ofBytes address.toList
    | .cname target => Fragment.ofBytes (d.payload target)
    | .aaaa address => Fragment.ofBytes address.toList
    | _ => none
  else none

theorem Domain.fragment_eq (d : Domain) (qtype : UInt16) (a : Resource) :
    d.fragment qtype a = some (d.fragmentOf qtype a) := by
  unfold fragment fragmentOf
  rw [isDomain_eq]
  by_cases hcovers : d.Covers a.name
  · by_cases htype : a.type = qtype
    · simp only [hcovers, htype, decide_true, ne_eq, not_true, if_false, and_self, if_true]
      cases a.body with
      | cname target => simp only [decode_eq, Option.map_some]
      | _ => rfl
    · simp [hcovers, htype]
  · simp [hcovers]

theorem Domain.fragments_eq (d : Domain) (qtype : UInt16) (answers : List Resource) :
    d.fragments qtype answers = some (answers.filterMap (d.fragmentOf qtype)) := by
  induction answers with
  | nil => rfl
  | cons a rest ih =>
    rw [fragments, fragment_eq, ih, filterMap_cons]
    cases d.fragmentOf qtype a with
    | none => rfl
    | some f => rfl

/-- Text is no longer than the strings of its record. -/
theorem Domain.exists_text (d : Domain) {answers : List Resource} {n : ℕ}
    (hn : ∀ a ∈ answers, ∀ strings, a.body = .txt strings → strings.flatten.length ≤ n) :
    ∃ bs, d.text answers = some bs ∧ bs.length ≤ n := by
  match answers, hn with
  | [], _ => exact ⟨[], rfl, Nat.zero_le _⟩
  | _ :: _ :: _, _ => exact ⟨[], rfl, Nat.zero_le _⟩
  | [a], hn =>
    rw [text, isDomain_eq, Option.map_some]
    refine ⟨_, rfl, ?_⟩
    cases hbody : a.body with
    | txt strings =>
      dsimp only
      split_ifs
      · exact hn a mem_cons_self strings hbody
      · exact Nat.zero_le _
    | _ => exact Nat.zero_le _

instance : Std.Total Fragment.le := ⟨fun _ _ => UInt8.le_total _ _⟩

instance : IsTrans Fragment Fragment.le := ⟨fun _ _ _ => UInt8.le_trans⟩

variable {fs : List Fragment}

/-- In order and above `before`, fragments are joined if no number comes twice. -/
theorem joinRest_eq_some_iff {before : UInt8} {out : Bytes}
    (hbefore : ∀ f ∈ fs, before ≤ f.number) (hsorted : fs.Pairwise Fragment.le) :
    joinRest before fs = some out ↔
      (before :: fs.map Fragment.number).Nodup ∧ out = (fs.map Fragment.rest).flatten := by
  induction fs generalizing before out with
  | nil => simp [joinRest, eq_comm]
  | cons f fs ih =>
    obtain ⟨hle, hfs⟩ := pairwise_cons.mp hsorted
    unfold joinRest
    by_cases heq : f.number = before
    · simp [heq]
    · -- the number before is below that of `f`, and so below all the others
      have hlt : before < f.number :=
        UInt8.lt_of_le_of_ne (hbefore f mem_cons_self) (Ne.symm heq)
      have hnot : before ∉ (f :: fs).map Fragment.number := by
        rw [mem_map]
        rintro ⟨g, hg, rfl⟩
        rcases mem_cons.mp hg with rfl | hg
        · exact heq rfl
        · exact UInt8.not_le.mpr hlt (hle g hg)
      rw [if_neg heq, Option.map_eq_some_iff]
      constructor
      · rintro ⟨more, hmore, rfl⟩
        obtain ⟨hnodup, rfl⟩ := (ih hle hfs).mp hmore
        exact ⟨nodup_cons.mpr ⟨hnot, hnodup⟩, rfl⟩
      · rintro ⟨hnodup, rfl⟩
        exact ⟨_, (ih hle hfs).mpr ⟨(nodup_cons.mp hnodup).2, rfl⟩, rfl⟩

/-- Fragments whose data together is longer than a buffer, and that are all there as far
    as can be seen: no number comes twice, and the first counts no more than there are. -/
structure Overlong (fs : List Fragment) : Prop where
  distinct : (fs.map Fragment.number).Nodup
  counted : ∃ f ∈ fs, (∀ g ∈ fs, f.number ≤ g.number) ∧
    ∃ total ∈ f.rest.head?, total.toNat ≤ fs.length
  long : poolSize + 1 < (fs.map fun f => f.rest.length).sum

theorem Overlong.perm {gs : List Fragment} (h : Overlong fs) (hperm : fs.Perm gs) :
    Overlong gs where
  distinct := (hperm.map _).nodup_iff.mp h.distinct
  counted := by
    obtain ⟨f, hf, hmin, total, htotal, hle⟩ := h.counted
    refine ⟨f, hperm.mem_iff.mp hf, fun g hg => hmin g (hperm.mem_iff.mpr hg), total, htotal, ?_⟩
    rw [← hperm.length_eq]
    exact hle
  long := by
    rw [← (hperm.map _).sum_nat]
    exact h.long

variable {f : Fragment}

/-- The least number in fragments in order is that of the first. -/
theorem Overlong.head_counted (h : Overlong (f :: fs)) (hsorted : (f :: fs).Pairwise Fragment.le) :
    ∃ total ∈ f.rest.head?, total.toNat ≤ (f :: fs).length := by
  obtain ⟨g, hg, hmin, hcount⟩ := h.counted
  rcases mem_cons.mp hg with rfl | hgs
  · exact hcount
  · have heq : f.number = g.number :=
      UInt8.le_antisymm ((pairwise_cons.mp hsorted).1 g hgs) (hmin f mem_cons_self)
    rw [inj_on_of_nodup_map h.distinct mem_cons_self hg heq]
    exact hcount

/-- Fragments that are joined have a count in the first, no larger than their number. -/
theorem join_cons_of_pos {n : ℕ} (h : n < ((join (f :: fs)).getD []).length) :
    ∃ total data more, f.rest = total :: data ∧ total.toNat ≤ fs.length + 1 ∧
      joinRest f.number fs = some more ∧ join (f :: fs) = some (data ++ more) := by
  unfold join at h ⊢
  cases hrest : f.rest with
  | nil => simp [hrest] at h
  | cons total data =>
    simp only [hrest] at h ⊢
    by_cases hcount : total.toNat > fs.length + 1
    · simp [hcount] at h
    · rw [if_neg hcount] at h ⊢
      cases hjoin : joinRest f.number fs with
      | none => simp [hjoin] at h
      | some more => exact ⟨total, data, more, rfl, Nat.not_lt.mp hcount, rfl, rfl⟩

/-- All that the fragments carry behind their numbers, without the count. -/
theorem length_joined {total : UInt8} {data : Bytes} (hrest : f.rest = total :: data)
    (fs : List Fragment) :
    (data ++ (fs.map Fragment.rest).flatten).length + 1 =
      ((f :: fs).map fun f => f.rest.length).sum := by
  rw [map_cons, sum_cons, hrest, length_append, length_flatten, map_map,
    length_cons]
  show _ = data.length + 1 + (fs.map fun f => f.rest.length).sum
  have hcomp : length ∘ Fragment.rest = fun f : Fragment => f.rest.length := rfl
  rw [hcomp]
  omega

theorem join_overflows_iff (hsorted : fs.Pairwise Fragment.le) :
    poolSize < ((join fs).getD []).length ↔ Overlong fs := by
  cases fs with
  | nil =>
    refine ⟨fun h => absurd h (Nat.not_lt_zero _), fun h => ?_⟩
    obtain ⟨f, hf, -⟩ := h.counted
    exact absurd hf not_mem_nil
  | cons f fs =>
    obtain ⟨hle, hfs⟩ := pairwise_cons.mp hsorted
    constructor
    · intro h
      obtain ⟨total, data, more, hrest, hcount, hmore, hout⟩ := join_cons_of_pos h
      obtain ⟨hnodup, rfl⟩ := (joinRest_eq_some_iff hle hfs).mp hmore
      have hlength := length_joined hrest fs
      rw [hout, Option.getD_some] at h
      refine ⟨hnodup, ⟨f, mem_cons_self, ?_, total, ?_, hcount⟩, by omega⟩
      · exact forall_mem_cons.mpr ⟨UInt8.le_refl _, hle⟩
      · rw [hrest]
        rfl
    · intro h
      obtain ⟨total, htotal, hcount⟩ := h.head_counted hsorted
      obtain ⟨data, hrest⟩ := head?_eq_some_iff.mp htotal
      have hlength := length_joined hrest fs
      have hlong := h.long
      have hmore := (joinRest_eq_some_iff hle hfs).mpr ⟨h.distinct, rfl⟩
      have hnot : ¬ total.toNat > fs.length + 1 := Nat.not_lt.mpr hcount
      rw [join, hrest]
      dsimp only
      rw [if_neg hnot, hmore]
      show poolSize < (data ++ (fs.map Fragment.rest).flatten).length
      omega

/-- What `Decode` appends outgrows its buffer exactly for such fragments. -/
theorem assemble_overflows_iff (fs : List Fragment) :
    poolSize < (assemble fs).length ↔ Overlong fs := by
  have hperm := perm_insertionSort Fragment.le fs
  rw [assemble, join_overflows_iff (pairwise_insertionSort Fragment.le fs)]
  exact ⟨fun h => h.perm hperm, fun h => h.perm hperm.symm⟩

theorem Fragment.length_ofBytes {bs : Bytes} (h : Fragment.ofBytes bs = some f) :
    bs.length = f.rest.length + 1 := by
  cases bs with
  | nil => simp [ofBytes] at h
  | cons number rest =>
    obtain rfl := Option.some.inj h
    rfl

/-- Fragments of at most sixteen bytes fit a buffer: they have at most 256 numbers. -/
theorem not_overlong_of_short (hshort : ∀ f ∈ fs, f.rest.length ≤ 15) : ¬ Overlong fs := by
  intro h
  have hcard : fs.length ≤ 256 := by
    have hnodup := h.distinct.map fun _ _ => UInt8.toFin_inj.mp
    have hle := hnodup.length_le_card
    rwa [length_map, length_map, Fintype.card_fin] at hle
  have hsum : (fs.map fun f => f.rest.length).sum ≤ fs.length * 15 := by
    have hle := sum_le_card_nsmul (fs.map fun f => f.rest.length) 15 (by simpa using hshort)
    rwa [length_map, smul_eq_mul] at hle
  have hlong := h.long
  unfold poolSize at hlong
  omega

/-- Only names can be longer than that. -/
theorem Domain.length_fragmentOf_le {d : Domain} {qtype : UInt16} {a : Resource}
    (htype : qtype ≠ typeCNAME) (h : d.fragmentOf qtype a = some f) : f.rest.length ≤ 15 := by
  unfold fragmentOf at h
  split_ifs at h with hmatch
  have hbody : a.body.type = qtype := hmatch.2
  cases hb : a.body with
  | a address =>
    rw [hb] at h
    have hlength := Fragment.length_ofBytes h
    rw [Vector.length_toList] at hlength
    omega
  | aaaa address =>
    rw [hb] at h
    have hlength := Fragment.length_ofBytes h
    rw [Vector.length_toList] at hlength
    omega
  | cname target => exact absurd (hbody.symm.trans (congrArg Body.type hb)) htype
  | _ => simp [hb] at h

end XrayCore.Xdns
