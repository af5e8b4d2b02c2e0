/-
  XrayCore.Strmatcher.MphCombiner

  Several hash table matchers that share the hashes of an input.

  The combiner hashes the parts of an input behind its dots once, with the first of the
  multipliers, and gives them to every matcher.  A matcher that was built with another
  multiplier hashes on its own.
-/

import XrayCore.Strmatcher.ACAutomaton
import XrayCore.Strmatcher.MphMatch

namespace XrayCore.Strmatcher

open List Option

/-! ## Shared hashes -/

/-- `mphSuffix`. -/
structure MphSuffix where
  h : UInt64
  off : ℕ

/-- The loop of `mphSuffixes` over the input from `off` on. -/
def mphSuffixesFrom (mul : UInt64) (off : ℕ) : Bytes → List MphSuffix × UInt64
  | [] => ([], 0)
  | c :: rest =>
    let s := mphSuffixesFrom mul (off + 1) rest
    (if c = dot then s.1 ++ [⟨s.2, off + 1⟩] else s.1, s.2 * mul + c.toUInt64)

/-- `mphSuffixes`. -/
def mphSuffixes (mul : UInt64) (input : Bytes) : List MphSuffix × UInt64 :=
  mphSuffixesFrom mul 0 input

/-- The slice of a string from `off` on. -/
def sliceFrom (s : Bytes) (off : ℕ) : Option Bytes :=
  if off ≤ s.length then some (s.drop off) else none

namespace MphMatcherGroup

/-- The loop of `matchAnyHashed`. -/
def anyHashed (g : MphMatcherGroup) (input : Bytes) : List MphSuffix → Option Bool
  | [] => some false
  | p :: parents => do
    let e ← g.lookup p.h (← sliceFrom input p.off)
    if e &&& parentFlags ≠ 0 then return true
    g.anyHashed input parents

/-- `matchAnyHashed`. -/
def matchAnyHashed (g : MphMatcherGroup) (input : Bytes) (parents : List MphSuffix)
    (h mul : UInt64) : Option Bool :=
  if g.mul ≠ mul then g.matchAny input
  else do
    if ← g.anyHashed input parents then return true
    let e ← g.lookup h input
    return e &&& exactFlags ≠ 0

end MphMatcherGroup

/-! ## Matchers -/

/-- What is added to a matcher; of a regular expression only what it matches is kept. -/
inductive AnyMatcher where
  | plain (m : Matcher)
  | regex (isMatch : Bytes → Bool)

/-- `MphValueMatcher`. -/
structure MphValueMatcher where
  mph : Option MphMatcherGroup
  ac : Option ACAutomaton
  regex : Option (List ((Bytes → Bool) × UInt32))

namespace MphValueMatcher

/-- `NewMphValueMatcher`. -/
def new : MphValueMatcher := ⟨none, none, none⟩

/-- `Add`. -/
def add (toLower : Bytes → Bytes) (g : MphValueMatcher) (matcher : AnyMatcher)
    (value : UInt32) : Option MphValueMatcher :=
  match matcher with
  | .plain ⟨.full, pattern⟩ => do
    let mph ← (g.mph.getD .new).addFullMatcher toLower pattern value
    return { g with mph := some mph }
  | .plain ⟨.domain, pattern⟩ => do
    let mph ← (g.mph.getD .new).addDomainMatcher toLower pattern value
    return { g with mph := some mph }
  | .plain ⟨.substr, pattern⟩ =>
    some { g with ac := some ((g.ac.getD .new).add ⟨.substr, pattern⟩ value) }
  | .regex isMatch => some { g with regex := some (g.regex.getD [] ++ [(isMatch, value)]) }

/-- `Build`. -/
def build (g : MphValueMatcher) : Except String MphValueMatcher := do
  let mph ← match g.mph with
    | some mph => some <$> mph.build
    | none => pure none
  return { g with mph, ac := g.ac.map ACAutomaton.build }

/-- A new matcher after some calls of `Add`. -/
def ofAdds (toLower : Bytes → Bytes) (adds : List (AnyMatcher × UInt32)) :
    Option MphValueMatcher :=
  adds.foldlM (fun g a => g.add toLower a.1 a.2) new

/-- The part of `MatchAny` behind the hash table. -/
def matchOthers (g : MphValueMatcher) (input : Bytes) : Bool :=
  (g.ac.any fun ac => ac.matchAny input) || g.regex.any fun regex => regex.any fun m => m.1 input

/-- `MatchAny`. -/
def matchAny (g : MphValueMatcher) (input : Bytes) : Option Bool := do
  if let some mph := g.mph then
    if ← mph.matchAny input then return true
  return g.matchOthers input

/-- `matchAnyHashed`. -/
def matchAnyHashed (g : MphValueMatcher) (input : Bytes) (parents : List MphSuffix)
    (h mul : UInt64) : Option Bool := do
  if let some mph := g.mph then
    if ← mph.matchAnyHashed input parents h mul then return true
  return g.matchOthers input

end MphValueMatcher

/-! ## The combiner -/

/-- `MphValueMatcherCombiner`. -/
structure MphValueMatcherCombiner where
  matchers : List MphValueMatcher
  values : List UInt32

namespace MphValueMatcherCombiner

/-- `Add`. -/
def add (s : MphValueMatcherCombiner) (m : MphValueMatcher) (value : UInt32) :
    MphValueMatcherCombiner where
  matchers := s.matchers ++ [m]
  values := s.values ++ [value]

/-- A new combiner after some calls of `Add`. -/
def ofAdds (adds : List (MphValueMatcher × UInt32)) : MphValueMatcherCombiner :=
  adds.foldl (fun s a => s.add a.1 a.2) ⟨[], []⟩

/-- The multiplier that is shared, `mphMultipliers[0]`. -/
def sharedMul : UInt64 := mphMultipliers.headD 0

/-- The loop of `Match`, from the matcher `i` on. -/
def matchFrom (s : MphValueMatcherCombiner) (input : Bytes) (parents : List MphSuffix)
    (h : UInt64) : ℕ → List MphValueMatcher → Option (List UInt32)
  | _, [] => some []
  | i, m :: matchers => do
    if ← m.matchAnyHashed input parents h sharedMul then
      let value ← s.values[i]?
      let rest ← s.matchFrom input parents h (i + 1) matchers
      return value :: rest
    else s.matchFrom input parents h (i + 1) matchers

/-- `Match`. -/
def matchValues (s : MphValueMatcherCombiner) (input : Bytes) : Option (List UInt32) :=
  if s.matchers = [] then some []
  else
    let shared := mphSuffixes sharedMul input
    s.matchFrom input shared.1 shared.2 0 s.matchers

/-- The loop of `MatchAny`. -/
def anyOf (input : Bytes) (parents : List MphSuffix) (h : UInt64) :
    List MphValueMatcher → Option Bool
  | [] => some false
  | m :: matchers => do
    if ← m.matchAnyHashed input parents h sharedMul then return true
    anyOf input parents h matchers

/-- `MatchAny`; one matcher has nothing to share. -/
def matchAny (s : MphValueMatcherCombiner) (input : Bytes) : Option Bool :=
  match s.matchers with
  | [] => some false
  | [m] => m.matchAny input
  | matchers =>
    let shared := mphSuffixes sharedMul input
    anyOf input shared.1 shared.2 matchers

end MphValueMatcherCombiner

/-! ## Hashing once or for each matcher -/

namespace MphMatcherGroup

theorem anyHashed_append (g : MphMatcherGroup) (input : Bytes) (ps qs : List MphSuffix) :
    g.anyHashed input (ps ++ qs) =
      (g.anyHashed input ps).bind fun found =>
        if found then some true else g.anyHashed input qs := by
  induction ps with
  | nil => rfl
  | cons p ps ih =>
    rw [cons_append, anyHashed, anyHashed]
    cases sliceFrom input p.off with
    | none => rfl
    | some s =>
      simp only [bind_eq_bind, bind_some]
      cases g.lookup p.h s with
      | none => rfl
      | some e =>
        simp only [bind_some]
        split
        · rfl
        · exact ih

/-- The loop over the shared hashes goes as that over the input. -/
theorem anyParent_eq_anyHashed (g : MphMatcherGroup) (front rest : Bytes) :
    g.anyParent rest =
      (g.anyHashed (front ++ rest) (mphSuffixesFrom g.mul front.length rest).1).map fun found =>
        if found then none else some (mphSuffixesFrom g.mul front.length rest).2 := by
  induction rest generalizing front with
  | nil => rfl
  | cons c rest ih =>
    have hslice : sliceFrom (front ++ c :: rest) (front.length + 1) = some rest := by
      rw [sliceFrom, if_pos (by rw [length_append, length_cons]; omega), ← drop_drop,
        drop_left]
      rfl
    have hstep := ih (front ++ [c])
    rw [append_assoc, singleton_append, length_append, length_singleton] at hstep
    rw [anyParent, hstep, mphSuffixesFrom]
    by_cases hdot : c = dot
    · simp only [if_pos hdot, anyHashed_append]
      cases g.anyHashed (front ++ c :: rest) (mphSuffixesFrom g.mul (front.length + 1) rest).1 with
      | none => rfl
      | some found =>
        cases found with
        | true => rfl
        | false =>
          simp only [anyHashed, hslice, bind_eq_bind, bind_some, map_some,
            Bool.false_eq_true, if_false]
          cases g.lookup (mphSuffixesFrom g.mul (front.length + 1) rest).2 rest with
          | none => rfl
          | some e =>
            simp only [bind_some]
            split <;> rfl
    · simp only [if_neg hdot]
      cases g.anyHashed (front ++ c :: rest) (mphSuffixesFrom g.mul (front.length + 1) rest).1 with
      | none => rfl
      | some found => cases found <;> rfl

/-- Matching with shared hashes is matching. -/
theorem matchAnyHashed_eq (g : MphMatcherGroup) (mul : UInt64) (input : Bytes) :
    g.matchAnyHashed input (mphSuffixes mul input).1 (mphSuffixes mul input).2 mul =
      g.matchAny input := by
  rw [matchAnyHashed]
  by_cases hmul : g.mul = mul
  · subst hmul
    rw [if_neg (not_not.mpr rfl), matchAny, anyParent_eq_anyHashed g [] input, nil_append,
      length_nil, mphSuffixes]
    cases g.anyHashed input (mphSuffixesFrom g.mul 0 input).1 with
    | none => rfl
    | some found => cases found <;> rfl
  · rw [if_pos hmul]

end MphMatcherGroup

theorem MphValueMatcher.matchAnyHashed_eq (g : MphValueMatcher) (mul : UInt64) (input : Bytes) :
    g.matchAnyHashed input (mphSuffixes mul input).1 (mphSuffixes mul input).2 mul =
      g.matchAny input := by
  rw [matchAnyHashed, matchAny]
  cases g.mph with
  | none => rfl
  | some mph => simp only [mph.matchAnyHashed_eq]

/-! ## Built matchers -/

/-- A matcher that was built from what was added to it. -/
def MphValueMatcher.Built (toLower : Bytes → Bytes) (m : MphValueMatcher) : Prop :=
  ∃ adds g, ofAdds toLower adds = some g ∧ g.build = .ok m

/-- A matcher that was built answers. -/
theorem MphValueMatcher.Built.exists_matchAny {toLower : Bytes → Bytes}
    {m : MphValueMatcher} (h : m.Built toLower) (input : Bytes) :
    ∃ b, m.matchAny input = some b := by
  obtain ⟨adds, g, hadds, hbuild⟩ := h
  rw [matchAny]
  cases hm : m.mph with
  | none => exact ⟨_, rfl⟩
  | some mph =>
    have hgroup : ∃ g₀ : MphMatcherGroup, g₀.build = .ok mph := by
      cases hg : g.mph with
      | none =>
        simp only [build, hg] at hbuild
        obtain rfl := Except.ok.inj hbuild
        nomatch hm
      | some g₀ =>
        simp only [build, hg] at hbuild
        cases hg₀ : g₀.build with
        | error err =>
          rw [hg₀] at hbuild
          nomatch hbuild
        | ok mph' =>
          rw [hg₀] at hbuild
          obtain rfl := Except.ok.inj hbuild
          obtain rfl := some.inj hm
          exact ⟨g₀, hg₀⟩
    obtain ⟨g₀, hg₀⟩ := hgroup
    obtain ⟨recs, keys, hready⟩ := MphMatcherGroup.build_spec hg₀
    simp only [hready.matchAny, bind_eq_bind, bind_some]
    split <;> exact ⟨_, rfl⟩

/-! ## The combiner and its matchers -/

namespace MphValueMatcherCombiner

theorem ofAdds_eq (adds : List (MphValueMatcher × UInt32)) :
    ofAdds adds = ⟨adds.map Prod.fst, adds.map Prod.snd⟩ := by
  have hrun : ∀ s : MphValueMatcherCombiner, adds.foldl (fun s a => s.add a.1 a.2) s =
      ⟨s.matchers ++ adds.map Prod.fst, s.values ++ adds.map Prod.snd⟩ := by
    induction adds with
    | nil =>
      intro s
      simp
    | cons a adds ih =>
      intro s
      rw [foldl_cons, ih]
      simp [add]
  exact hrun ⟨[], []⟩

variable {input : Bytes}

theorem matchFrom_eq {s : MphValueMatcherCombiner} (done rest : List (MphValueMatcher × UInt32))
    (hvalues : s.values = (done ++ rest).map Prod.snd)
    (hbuilt : ∀ x ∈ rest, ∃ b, x.1.matchAny input = some b) :
    s.matchFrom input (mphSuffixes sharedMul input).1 (mphSuffixes sharedMul input).2 done.length
        (rest.map Prod.fst) =
      some ((rest.filter fun x => x.1.matchAny input = some true).map Prod.snd) := by
  induction rest generalizing done with
  | nil => rfl
  | cons x rest ih =>
    obtain ⟨⟨b, hb⟩, hrest⟩ := forall_mem_cons.mp hbuilt
    have hvalue : s.values[done.length]? = some x.2 := by
      rw [hvalues, map_append, getElem?_append_right (by rw [length_map])]
      simp
    have hnext := ih (done ++ [x]) (by rw [append_assoc]; exact hvalues) hrest
    rw [length_append, length_singleton] at hnext
    rw [map_cons, matchFrom, x.1.matchAnyHashed_eq, hb]
    cases b with
    | false =>
      rw [filter_cons_of_neg (by simp [hb])]
      exact hnext
    | true =>
      rw [filter_cons_of_pos (by simp [hb])]
      simp only [bind_eq_bind, bind_some, if_true, hvalue, hnext]
      rfl

theorem anyOf_eq {adds : List (MphValueMatcher × UInt32)}
    (hbuilt : ∀ x ∈ adds, ∃ b, x.1.matchAny input = some b) :
    anyOf input (mphSuffixes sharedMul input).1 (mphSuffixes sharedMul input).2
      (adds.map Prod.fst) =
      some (adds.any fun x => x.1.matchAny input = some true) := by
  induction adds with
  | nil => rfl
  | cons x adds ih =>
    obtain ⟨⟨b, hb⟩, hrest⟩ := forall_mem_cons.mp hbuilt
    rw [map_cons, anyOf, x.1.matchAnyHashed_eq, any_cons, hb, ih hrest]
    cases b <;> rfl

/-- Built matchers in a combiner match as each of them does alone. -/
theorem combiner_matches_as_alone (toLower : Bytes → Bytes)
    (adds : List (MphValueMatcher × UInt32)) (hbuilt : ∀ x ∈ adds, x.1.Built toLower)
    (input : Bytes) :
    (∀ x ∈ adds, ∃ b, x.1.matchAny input = some b) ∧
      (ofAdds adds).matchValues input =
        some ((adds.filter fun x => x.1.matchAny input = some true).map Prod.snd) ∧
      (ofAdds adds).matchAny input = some (adds.any fun x => x.1.matchAny input = some true) := by
  have hanswer : ∀ x ∈ adds, ∃ b, x.1.matchAny input = some b :=
    fun x hx => (hbuilt x hx).exists_matchAny input
  refine ⟨hanswer, ?_, ?_⟩
  · rw [ofAdds_eq, matchValues]
    by_cases hnil : adds = []
    · subst hnil
      rfl
    · rw [if_neg (by simpa using hnil)]
      exact matchFrom_eq [] adds rfl hanswer
  · rw [ofAdds_eq, matchAny]
    rcases adds with _ | ⟨x, _ | ⟨y, adds⟩⟩
    · rfl
    · obtain ⟨b, hb⟩ := hanswer x (mem_singleton_self x)
      simp only [map_cons, map_nil, any_cons, any_nil, hb]
      cases b <;> rfl
    · exact anyOf_eq hanswer

/-- The matcher of some patterns. -/
def builtOf (adds : List (AnyMatcher × UInt32)) : MphValueMatcher :=
  ((MphValueMatcher.ofAdds id adds).bind fun g => g.build.toOption).getD .new

theorem built_builtOf {adds : List (AnyMatcher × UInt32)}
    (h : ((MphValueMatcher.ofAdds id adds).bind fun g => g.build.toOption).isSome) :
    (builtOf adds).Built id := by
  obtain ⟨m, hm⟩ := isSome_iff_exists.mp h
  obtain ⟨g, hg, hbuild⟩ := bind_eq_some_iff.mp hm
  refine ⟨adds, g, hg, ?_⟩
  rw [builtOf, hm, getD_some]
  cases hok : g.build with
  | error err =>
    rw [hok] at hbuild
    nomatch hbuild
  | ok m' =>
    rw [hok] at hbuild
    rw [some.inj hbuild]

/-- `domain:b` for 7, and the strings of one byte and `keyword:c` for 8. -/
def twoMatchers : List (MphValueMatcher × UInt32) :=
  [(builtOf [(.plain ⟨.domain, [98]⟩, 0)], 7),
    (builtOf [(.regex fun s => s.length == 1, 0), (.plain ⟨.substr, [99]⟩, 0)], 8)]

theorem combiner_matches_as_alone_twoMatchers :
    (ofAdds twoMatchers).matchValues [97, 46, 98] = some [7] ∧
      (ofAdds twoMatchers).matchAny [97, 46, 98] = some true ∧
      (ofAdds twoMatchers).matchValues [98] = some [7, 8] := by
  have hbuilt : ∀ x ∈ twoMatchers, x.1.Built id := by
    intro x hx
    rcases mem_cons.mp hx with rfl | hx
    · exact @built_builtOf [(.plain ⟨.domain, [98]⟩, 0)] (by decide)
    · obtain rfl := mem_singleton.mp hx
      exact @built_builtOf [(.regex fun s => s.length == 1, 0), (.plain ⟨.substr, [99]⟩, 0)]
        (by decide)
  obtain ⟨-, hmatch, hany⟩ := combiner_matches_as_alone id twoMatchers hbuilt [97, 46, 98]
  obtain ⟨-, hboth, -⟩ := combiner_matches_as_alone id twoMatchers hbuilt [98]
  rw [hmatch, hany, hboth]
  exact ⟨by decide +kernel, by decide +kernel, by decide +kernel⟩

end MphValueMatcherCombiner

end XrayCore.Strmatcher
