/-
  XrayCore.Xdns.Capacity

  The names that carry data below a domain.

  The letters of base32 are cut into labels and put in front of the domain's name.  For a
  domain that `NewDomain` made there is always room for as many bytes as its capacity, and
  the bytes are read back; but the name of the domain is what was configured, as it stands,
  and the name as a whole has only labels that can be packed exactly if that one has
  (`carries_iff`).
-/

import XrayCore.Xdns.Domain

namespace XrayCore.Xdns

open Bytes List

/-! ## Names that carry data -/

def toLower (bs : Bytes) : Bytes := bs.map lower

/-- The letters cut into labels, each with the dot behind it.  Without room in a label the loop of
    the source would not end; `NewDomain` refuses such a limit. -/
def cutLabels (labelLimit : ℕ) (b : Bytes) : Bytes :=
  if b = [] ∨ labelLimit = 0 then []
  else b.take labelLimit ++ 46 :: cutLabels labelLimit (b.drop labelLimit)
termination_by b.length
decreasing_by
  rename_i hroom
  obtain ⟨hb, hlimit⟩ := not_or.mp hroom
  have hpos := List.length_pos_of_ne_nil hb
  rw [List.length_drop]
  omega

/-- `Encode`: `none` is its panic. -/
def Domain.encode (d : Domain) (data : Bytes) : Option Name :=
  let b := cutLabels d.labelLimit (toLower (encodeBase32 data)) ++ d.name.data
  if h : b.length ≤ 254 then some ⟨b, by omega⟩ else none

/-- The loop of the library that packs a name, with so many bytes of a label before: no label is
    empty or longer than 63, and the last one has its dot. -/
def labelsOk : ℕ → Bytes → Bool
  | n, [] => n = 0
  | n, c :: cs => if c = 46 then (1 ≤ n ∧ n ≤ 63) && labelsOk 0 cs else labelsOk (n + 1) cs

/-- A name that carries some bytes: it is made, not too long, can be packed, and gives the bytes. -/
def Domain.Carries (d : Domain) (data : Bytes) : Prop :=
  ∃ name, d.encode data = some name ∧ name.length ≤ 254 ∧ labelsOk 0 name.data ∧
    d.decode name = some data

/-! ## Domains that are made -/

/-- `NewDomain` made the domain, whatever the libraries answered it. -/
def Domain.Accepted (d : Domain) : Prop :=
  ∃ toASCII newName domain lenLimit labelLimit types edns0,
    newDomain toASCII newName domain lenLimit labelLimit types edns0 = .ok d

/-- What such a domain is like. -/
structure Domain.Limits (d : Domain) : Prop where
  lenLimit_le : d.lenLimit ≤ 255
  name_lt : d.name.length < d.lenLimit
  labelLimit_pos : 0 < d.labelLimit
  labelLimit_le : d.labelLimit ≤ 63
  cap_eq : d.cap = decodedLen (letterRoom d.name.length d.lenLimit d.labelLimit)

variable {d : Domain}

theorem Domain.Accepted.limits (h : d.Accepted) : d.Limits := by
  obtain ⟨toASCII, newName, domain, lenLimit, labelLimit, types, edns0, h⟩ := h
  rw [newDomain] at h
  -- each check that fails gives an error
  have hcheck : ∀ {c : Prop} [Decidable c] {e : String} {rest : Except String Domain},
      (if c then throw e else rest) = .ok d → ¬ c ∧ rest = .ok d := by
    intro c _ e rest hif
    by_cases hc : c
    · rw [if_pos hc] at hif
      cases hif
    · rw [if_neg hc] at hif
      exact ⟨hc, hif⟩
  obtain ⟨-, h⟩ := hcheck h
  obtain ⟨hlen, h⟩ := hcheck h
  obtain ⟨hlimit, h⟩ := hcheck h
  obtain ⟨-, h⟩ := hcheck h
  obtain ⟨-, h⟩ := hcheck h
  obtain ⟨-, h⟩ := hcheck h
  split at h
  · cases h
  · cases h
  rename_i name _ _
  obtain ⟨hroom, h⟩ := hcheck h
  by_cases hcap : decodedLen (letterRoom name.length lenLimit.toNat labelLimit.toNat) < 17
  · rw [if_pos hcap] at h
    cases h
  rw [if_neg hcap] at h
  obtain rfl := Except.ok.inj h
  have hpos : 0 < labelLimit.toNat := by
    -- labels without letters have no room
    rcases Nat.eq_zero_or_pos labelLimit.toNat with hzero | hpos
    · rw [hzero] at hcap
      simp only [letterRoom, Nat.zero_add, Nat.mod_one, Nat.mul_zero, gt_iff_lt, Nat.not_lt_zero,
        if_false] at hcap
      exact absurd hcap (by decide)
    · exact hpos
  exact {
    lenLimit_le := by simp only []; omega
    name_lt := by simp only []; omega
    labelLimit_pos := hpos
    labelLimit_le := by simp only []; omega
    cap_eq := rfl }

/-! ## How long a name gets -/

theorem encodedLen_mono {m n : ℕ} (h : m ≤ n) : encodedLen m ≤ encodedLen n := by
  unfold encodedLen
  omega

theorem encodedLen_decodedLen_le (n : ℕ) : encodedLen (decodedLen n) ≤ n := by
  unfold encodedLen decodedLen
  omega

theorem length_encodeBase32 (data : Bytes) :
    (encodeBase32 data).length = encodedLen data.length := by
  rw [encodeBase32, length_map]
  fun_induction letterValues data with
  | case1 a b c d e rest ih =>
    simp only [length_cons, ih]
    unfold encodedLen
    omega
  | case2 a b c d => simp [encodedLen]
  | case3 a b c => simp [encodedLen]
  | case4 a b => simp [encodedLen]
  | case5 a => simp [encodedLen]
  | case6 => simp [encodedLen]

variable {labelLimit : ℕ}

/-- So many full labels and one that may not be full: each has a dot. -/
theorem length_cutLabels_le (n : ℕ) {more : ℕ} (hmore : more ≤ labelLimit) :
    ∀ b : Bytes, b.length ≤ n * labelLimit + more → (cutLabels labelLimit b).length ≤
      n * (labelLimit + 1) + if more = 0 then 0 else more + 1 := by
  induction n with
  | zero =>
    intro b hb
    rw [Nat.zero_mul, Nat.zero_add] at hb
    rw [cutLabels]
    split
    · exact Nat.zero_le _
    · next hnot =>
      obtain ⟨hne, -⟩ := not_or.mp hnot
      have hpos := length_pos_of_ne_nil hne
      have hrest : b.drop labelLimit = [] := drop_eq_nil_of_le (by omega)
      rw [hrest, cutLabels, if_pos (.inl rfl), if_neg (by omega), length_append,
        length_take, length_singleton]
      omega
  | succ n ih =>
    intro b hb
    rw [cutLabels]
    split
    · exact Nat.zero_le _
    · have hrest := ih (b.drop labelLimit) (by
        rw [length_drop, Nat.succ_mul] at *
        omega)
      rw [length_append, length_cons, length_take, Nat.succ_mul]
      omega

variable {data : Bytes}

/-- There is room for the capacity. -/
theorem Domain.Limits.length_le (hd : d.Limits) (hcap : data.length ≤ d.cap) :
    (cutLabels d.labelLimit (toLower (encodeBase32 data)) ++ d.name.data).length ≤ 254 := by
  have hletters : (toLower (encodeBase32 data)).length ≤
      letterRoom d.name.length d.lenLimit d.labelLimit := by
    rw [toLower, length_map, length_encodeBase32]
    rw [hd.cap_eq] at hcap
    exact Nat.le_trans (encodedLen_mono hcap) (encodedLen_decodedLen_le _)
  have hname := hd.name_lt
  have hlen := hd.lenLimit_le
  have hpos := hd.labelLimit_pos
  have hlength : d.name.data.length = d.name.length := rfl
  rw [length_append, hlength]
  unfold letterRoom at hletters
  dsimp only at hletters
  -- what the limit leaves is full labels with their dots, and a rest
  have hroom := Nat.div_add_mod (d.lenLimit - d.name.length - 1) (d.labelLimit + 1)
  have hleft := Nat.mod_lt (d.lenLimit - d.name.length - 1) (Nat.succ_pos d.labelLimit)
  rw [Nat.mul_comm] at hroom
  generalize (d.lenLimit - d.name.length - 1) / (d.labelLimit + 1) = n at hletters hroom
  generalize (d.lenLimit - d.name.length - 1) % (d.labelLimit + 1) = left at *
  split at hletters
  · have hcut := length_cutLabels_le n (show left - 1 ≤ d.labelLimit by omega) _ hletters
    rw [if_neg (by omega)] at hcut
    omega
  · have hcut := length_cutLabels_le n (Nat.zero_le d.labelLimit) _ hletters
    rw [if_pos rfl] at hcut
    omega

/-! ## What a name carries -/

theorem filter_cutLabels (hlimit : 0 < labelLimit) (b : Bytes) :
    (cutLabels labelLimit b).filter (fun c => c ≠ 46) = b.filter fun c => c ≠ 46 := by
  fun_induction cutLabels labelLimit b with
  | case1 b h =>
    rcases h with rfl | rfl
    · rfl
    · omega
  | case2 b h ih =>
    have hdot : (46 :: cutLabels labelLimit (b.drop labelLimit)).filter (fun c => c ≠ 46) =
        (cutLabels labelLimit (b.drop labelLimit)).filter fun c => c ≠ 46 :=
      filter_cons_of_neg (by simp)
    rw [filter_append, hdot, ih, ← filter_append, take_append_drop]

theorem cutLabels_ne_nil (hlimit : 0 < labelLimit) {b : Bytes} (hb : b ≠ []) :
    cutLabels labelLimit b ≠ [] := by
  have hnot : ¬ (b = [] ∨ labelLimit = 0) := by
    rintro (h | h)
    · exact hb h
    · omega
  rw [cutLabels, if_neg hnot]
  exact append_ne_nil_of_right_ne_nil _ (cons_ne_nil _ _)

/-- The letters of a name are those that base32 gave. -/
theorem letters_encoded (hlimit : 0 < labelLimit) (data : Bytes) :
    letters (cutLabels labelLimit (toLower (encodeBase32 data))) = encodeBase32 data := by
  have hletter : ∀ c ∈ encodeBase32 data, lower c ≠ 46 ∧
      (if 97 ≤ lower c ∧ lower c ≤ 122 then lower c - 32 else lower c) = c :=
    forall_mem_encodeBase32 (by decide) data
  have hfilter : (toLower (encodeBase32 data)).filter (fun c => c ≠ 46) =
      toLower (encodeBase32 data) := by
    rw [filter_eq_self]
    intro c hc
    obtain ⟨c', hc', rfl⟩ := mem_map.mp hc
    exact decide_eq_true (hletter c' hc').1
  rw [letters, filter_cutLabels hlimit, hfilter, toUpper, toLower, map_map]
  conv_rhs => rw [← map_id (encodeBase32 data)]
  exact map_congr_left fun c hc => (hletter c hc).2

theorem encodeBase32_ne_nil (h : data ≠ []) : encodeBase32 data ≠ [] := by
  intro hnil
  have hdecode := decodeBase32_encodeBase32 data
  rw [hnil] at hdecode
  exact h (Option.some.inj hdecode).symm

theorem Domain.data_of_encode {name : Name} (h : d.encode data = some name) :
    name.data = cutLabels d.labelLimit (toLower (encodeBase32 data)) ++ d.name.data := by
  rw [encode] at h
  split at h
  · exact congrArg Name.data (Option.some.inj h).symm
  · cases h

/-- What a name was made to carry is read from it. -/
theorem Domain.decode_encode {d : Domain} {data : Bytes} {name : Name}
    (hlimit : 0 < d.labelLimit) (hdata : data ≠ []) (h : d.encode data = some name) :
    d.decode name = some data := by
  have hne : toLower (encodeBase32 data) ≠ [] := by
    rw [toLower, ne_eq, map_eq_nil_iff]
    exact encodeBase32_ne_nil hdata
  have hpos := length_pos_of_ne_nil (cutLabels_ne_nil hlimit hne)
  have hletters := letters_encoded hlimit data
  have hname := data_of_encode h
  generalize cutLabels d.labelLimit (toLower (encodeBase32 data)) = text at hpos hletters hname
  have hfront : name.length - d.name.length = text.length := by
    rw [Name.length, hname, length_append]
    exact Nat.add_sub_cancel _ _
  have hcovers : d.Covers name := by
    refine ⟨by omega, ?_⟩
    rw [hfront, hname, drop_left]
  rw [decode_eq, payload, if_pos hcovers, hfront, hname, take_left, hletters,
    decodeBase32_encodeBase32]
  rfl

/-! ## Labels -/

theorem labelsOk_label {label : Bytes} (hdot : ∀ c ∈ label, c ≠ 46) (rest : Bytes)
    (n : ℕ) : labelsOk n (label ++ 46 :: rest) =
      (decide (1 ≤ n + label.length ∧ n + label.length ≤ 63) && labelsOk 0 rest) := by
  induction label generalizing n with
  | nil => rw [nil_append, labelsOk, if_pos rfl, length_nil, Nat.add_zero]
  | cons c label ih =>
    rw [cons_append, labelsOk, if_neg (hdot c (mem_cons_self ..)),
      ih fun c hc => hdot c (mem_cons_of_mem _ hc), length_cons,
      show n + 1 + label.length = n + (label.length + 1) by omega]

/-- The labels that are cut are neither empty nor too long. -/
theorem labelsOk_cutLabels (hlimit : labelLimit ≤ 63) (rest : Bytes) {b : Bytes}
    (hdot : ∀ c ∈ b, c ≠ 46) : labelsOk 0 (cutLabels labelLimit b ++ rest) = labelsOk 0 rest := by
  fun_induction cutLabels labelLimit b with
  | case1 b h => rfl
  | case2 b h ih =>
    obtain ⟨hb, hzero⟩ := not_or.mp h
    have hpos := length_pos_of_ne_nil hb
    have hlabel : ∀ c ∈ b.take labelLimit, c ≠ 46 := fun c hc => hdot c (mem_of_mem_take hc)
    rw [append_assoc, cons_append, labelsOk_label hlabel,
      ih fun c hc => hdot c (mem_of_mem_drop hc), length_take,
      decide_eq_true (by omega), Bool.true_and]

/-- A name can be packed exactly if that of its domain can. -/
theorem Domain.labelsOk_encode (hlimit : d.labelLimit ≤ 63) {name : Name}
    (h : d.encode data = some name) : labelsOk 0 name.data = labelsOk 0 d.name.data := by
  rw [data_of_encode h]
  apply labelsOk_cutLabels hlimit
  intro c hc
  obtain ⟨c', hc', rfl⟩ := mem_map.mp hc
  exact forall_mem_encodeBase32 (P := fun c => lower c ≠ 46) (by decide) data c' hc'

/-! ## The capacity -/

/-- A domain that `NewDomain` made carries every byte string that its capacity allows exactly if the
    labels of its own name can be packed: the name is always made, short enough and read back. -/
theorem Domain.carries_iff {d : Domain} (hd : d.Accepted) {data : Bytes} (hdata : data ≠ [])
    (hcap : data.length ≤ d.cap) :
    (∃ name, d.encode data = some name ∧ name.length ≤ 254 ∧ d.decode name = some data) ∧
      (d.Carries data ↔ labelsOk 0 d.name.data) := by
  have hlimits := hd.limits
  have hlen := hlimits.length_le hcap
  obtain ⟨name, hname⟩ : ∃ name, d.encode data = some name := ⟨_, dif_pos hlen⟩
  have hshort : name.length ≤ 254 := by
    rw [Name.length, data_of_encode hname]
    exact hlen
  have hdecode := decode_encode hlimits.labelLimit_pos hdata hname
  have hlabels := labelsOk_encode hlimits.labelLimit_le hname
  refine ⟨⟨name, hname, hshort, hdecode⟩, ?_, ?_⟩
  · rintro ⟨name', hname', -, hok, -⟩
    rw [← labelsOk_encode hlimits.labelLimit_le hname']
    exact hok
  · intro hok
    refine ⟨name, hname, hshort, ?_, hdecode⟩
    rw [hlabels]
    exact hok

/-- The domain `t` is such a one. -/
theorem Domain.carries_of_t : (domainT [typeTXT]).Carries [1, 2, 3] :=
  (carries_iff ⟨.ok, asciiName, "t", 253, 63, [typeTXT], 0, by decide⟩ (by decide)
    (by decide)).2.mpr (by decide)

/-- A domain configured with a dot at its end is taken as it stands: the empty label stays in every
    name below it. -/
theorem Domain.dot_is_kept : ∃ d, newDomain .ok asciiName "t." 253 63 [typeTXT] 0 = .ok d ∧
    17 ≤ d.cap ∧ ∀ data, ¬ d.Carries data := by
  refine ⟨{ domainT [typeTXT] with name := ⟨[116, 46, 46], by decide⟩, lenMax := 253 }, ?_, ?_, ?_⟩
  · decide
  · decide
  · rintro data ⟨name, hname, -, hok, -⟩
    rw [labelsOk_encode (by decide) hname] at hok
    exact absurd hok (by decide)

end XrayCore.Xdns
