/-
  XrayCore.Geodata.DomainRules

  Domain rules, how they are parsed (`common/geodata/rule_parser.go`) and the cache of their
  matchers (`common/geodata/domain_matcher.go`).

  The key of a list of rules is their texts one after the other, each with a comma behind.
  The value of a rule may have commas of its own, so the key does not tell where a rule ends,
  nor does it tell a file from a type.  It determines rules that are `Plain`: what follows a
  comma in them does not look like the next rule.
-/

import XrayCore.Table.Sift

namespace XrayCore.Geodata

open List

/-! ## Rules -/

/-- `Domain_Type`. -/
inductive DomainType where
  | substr
  | regex
  | domain
  | full
  deriving DecidableEq

instance : Fintype DomainType where
  elems := {.substr, .regex, .domain, .full}
  complete := by intro t; cases t <;> decide

/-- `Domain_Type.String`. -/
def DomainType.name : DomainType → List Char
  | .substr => "Substr".toList
  | .regex => "Regex".toList
  | .domain => "Domain".toList
  | .full => "Full".toList

/-- `Domain`. -/
@[ext]
structure Domain where
  type : DomainType
  value : List Char
  deriving DecidableEq

/-- `GeoSiteRule`: the domains of a file that have a code and attributes. -/
@[ext]
structure GeoSiteRule where
  file : List Char
  code : List Char
  attrs : List Char
  deriving DecidableEq

/-- `DomainRule`. -/
inductive DomainRule where
  | custom (domain : Domain)
  | geosite (rule : GeoSiteRule)
  deriving DecidableEq

/-- What the parser needs from elsewhere: the cases of letters, and whether a file has a code.
    No upper case of a letter is an `@`. -/
structure RuleEnv where
  toUpper : List Char → List Char
  toLower : List Char → List Char
  checkFile : List Char → List Char → Option String
  at_toUpper : ∀ s, '@' ∉ s → '@' ∉ toUpper s

/-- `strings.Cut` at one character. -/
def cut (c : Char) (s : List Char) : List Char × Option (List Char) :=
  match s.dropWhile (· ≠ c) with
  | [] => (s, none)
  | _ :: rest => (s.takeWhile (· ≠ c), some rest)

/-- What follows a beginning of the rule. -/
def after (start : String) (rule : List Char) : Option (List Char) :=
  rule.dropPrefix? start.toList

/-- `parseGeoSiteRule`. -/
def parseGeoSiteRule (env : RuleEnv) (rule : List Char) : Except String GeoSiteRule :=
  match cut ':' rule with
  | (_, none) => .error "syntax error"
  | (file, some codeWithAttrs) =>
    if file = [] then .error "empty file"
    else if codeWithAttrs.getLast? = some '@' ∨ ['@', '@'] <:+: codeWithAttrs then
      .error "empty attr"
    else
      let (code, attrs) := cut '@' codeWithAttrs
      if code = [] then .error "empty code"
      else
        match env.checkFile file (env.toUpper code) with
        | some err => .error err
        | none => .ok ⟨file, env.toUpper code, env.toLower (attrs.getD [])⟩

/-- `parseCustomDomainRule`. -/
def parseCustomDomainRule (rule : List Char) (defaultType : DomainType) : Except String Domain :=
  if let some value := after "regexp:" rule then .ok ⟨.regex, value⟩
  else if let some value := after "domain:" rule then .ok ⟨.domain, value⟩
  else if let some value := after "full:" rule then .ok ⟨.full, value⟩
  else if let some value := after "keyword:" rule then .ok ⟨.substr, value⟩
  else if let some substr := after "dotless:" rule then
    if substr = [] then .ok ⟨.regex, "^[^.]*$".toList⟩
    else if '.' ∉ substr then
      .ok ⟨.regex, "^[^.]*".toList ++ substr ++ "[^.]*$".toList⟩
    else .error "substr in dotless rule should not contain a dot"
  else .ok ⟨defaultType, rule⟩

/-- The loop of `ParseDomainRules` for one rule; an error comes with the rule. -/
def parseDomainRule (env : RuleEnv) (defaultType : DomainType) (rule : List Char) :
    Except (List Char × String) DomainRule :=
  let r := match after "geosite:" rule with
    | some rest => "ext:geosite.dat:".toList ++ rest
    | none => rule
  let parsed :=
    match ((after "ext:" r).or (after "ext-domain:" r)).or (after "ext-site:" r) with
    | some rest => (parseGeoSiteRule env rest).map DomainRule.geosite
    | none => (parseCustomDomainRule r defaultType).map DomainRule.custom
  parsed.mapError (rule, ·)

/-- `ParseDomainRules`. -/
def parseDomainRules (env : RuleEnv) (rules : List (List Char)) (defaultType : DomainType) :
    Except (List Char × String) (List DomainRule) :=
  rules.mapM (parseDomainRule env defaultType)

/-! ## The matchers -/

namespace DomainRule

def isGeosite : DomainRule → Bool
  | .custom _ => false
  | .geosite _ => true

/-- What a rule adds to the key. -/
def text : DomainRule → List Char
  | .custom d => d.type.name ++ ':' :: d.value ++ [',']
  | .geosite g => g.file ++ ':' :: (g.code ++ '@' :: g.attrs) ++ [',']

end DomainRule

/-- `buildDomainRulesKey`. -/
def buildDomainRulesKey (rules : List DomainRule) : List Char :=
  if rules.any DomainRule.isGeosite then rules.flatMap DomainRule.text else []

/-- How a matcher is made: what each rule adds, under its index, and `Build`. -/
structure MatcherBuilder (M : Type) where
  new : M
  add : M → DomainRule → ℕ → Except String M
  build : M → Except String M

variable {M : Type}

/-- `MphDomainMatcherFactory.BuildMatcher` without a cache. -/
def MatcherBuilder.make (b : MatcherBuilder M) (rules : List DomainRule) : Except String M := do
  if rules.isEmpty then throw "empty domain rule list"
  let g ← rules.zipIdx.foldlM (fun g r => b.add g r.1 r.2) b.new
  b.build g

/-- The matchers that are still in use, `shared`. -/
abbrev Shared (M : Type) := AList (fun _ : List Char => M)

/-- `MphDomainMatcherFactory.BuildMatcher`: the cache after it, and the matcher. -/
def buildMatcher (b : MatcherBuilder M) (shared : Shared M) (rules : List DomainRule) :
    Shared M × Except String M :=
  let key := buildDomainRulesKey rules
  if key = [] then (shared, b.make rules)
  else
    match shared.lookup key with
    | some g => (shared, .ok g)
    | none =>
      match b.make rules with
      | .error err => (shared, .error err)
      | .ok g => (shared.insert key g, .ok g)

/-- A list of rules that the parser can return. -/
def Parsed (env : RuleEnv) (rules : List DomainRule) : Prop :=
  ∃ texts defaultType, parseDomainRules env texts defaultType = .ok rules

/-- Text that begins like a rule of the key: with a type, or with a file and a code. -/
def Begins (piece : List Char) : Prop :=
  (∃ t : DomainType, t.name ++ [':'] <+: piece) ∨ '@' ∈ piece.dropWhile (· ≠ ':')

/-- No piece behind a comma begins like a rule. -/
def Tame (s : List Char) : Prop :=
  ∀ x ∈ s.tails, x.head? = some ',' → ¬ Begins (x.tail.takeWhile (· ≠ ','))

/-- A rule with a tame value, or with tame code and attributes and a file that is not called
    like a type; neither the file nor the code has a comma. -/
def DomainRule.Plain : DomainRule → Prop
  | .custom d => Tame d.value
  | .geosite g => (∀ t : DomainType, g.file ≠ t.name) ∧ ',' ∉ g.file ∧ ',' ∉ g.code ∧
      Tame (g.code ++ '@' :: g.attrs)

instance (r : DomainRule) : Decidable r.Plain := by
  cases r <;> unfold DomainRule.Plain Tame Begins <;> infer_instance

/-- What the parser makes sure of. -/
def DomainRule.Clear : DomainRule → Prop
  | .custom _ => True
  | .geosite g => ':' ∉ g.file ∧ '@' ∉ g.code

theorem not_mem_fst_cut (c : Char) (s : List Char) : c ∉ (cut c s).1 := by
  unfold cut
  split
  · rename_i hnil
    exact fun hc => by simpa using dropWhile_eq_nil_iff.mp hnil c hc
  · exact fun hc => by simpa using mem_takeWhile_imp hc

variable {env : RuleEnv}

theorem clear_of_parseGeoSiteRule {s : List Char} {g : GeoSiteRule}
    (h : parseGeoSiteRule env s = .ok g) : (DomainRule.geosite g).Clear := by
  rcases hcut : cut ':' s with ⟨file, _ | codeWithAttrs⟩
  · rw [parseGeoSiteRule, hcut] at h
    nomatch h
  · simp only [parseGeoSiteRule, hcut] at h
    split_ifs at h
    split at h
    · nomatch h
    · obtain rfl := Except.ok.inj h
      have hfile := not_mem_fst_cut ':' s
      rw [hcut] at hfile
      exact ⟨hfile, env.at_toUpper _ (not_mem_fst_cut '@' codeWithAttrs)⟩

theorem clear_of_parseDomainRule {t : DomainType} {s : List Char} {r : DomainRule}
    (h : parseDomainRule env t s = .ok r) : r.Clear := by
  cases r with
  | custom => trivial
  | geosite g =>
    simp only [parseDomainRule] at h
    split at h
    · rename_i rest _
      cases hg : parseGeoSiteRule env rest with
      | error err => rw [hg] at h; nomatch h
      | ok g' =>
        rw [hg] at h
        cases h
        exact clear_of_parseGeoSiteRule hg
    · cases hd : parseCustomDomainRule _ t with
      | error err => rw [hd] at h; nomatch h
      | ok d => rw [hd] at h; nomatch h

variable {rules : List DomainRule}

theorem Parsed.clear (h : Parsed env rules) : ∀ r ∈ rules, r.Clear := by
  obtain ⟨texts, t, h⟩ := h
  induction texts generalizing rules with
  | nil =>
    cases h
    exact nofun
  | cons s texts ih =>
    rw [parseDomainRules, mapM_cons] at h
    cases hs : parseDomainRule env t s with
    | error err => rw [hs] at h; nomatch h
    | ok r =>
      cases hrest : parseDomainRules env texts t with
      | error err => rw [hs, ← parseDomainRules, hrest] at h; nomatch h
      | ok rs =>
        rw [hs, ← parseDomainRules, hrest] at h
        cases h
        exact forall_mem_cons.mpr ⟨clear_of_parseDomainRule hs, ih hrest⟩

theorem DomainType.separators (t : DomainType) : ',' ∉ t.name ∧ ':' ∉ t.name := by
  cases t <;> decide

namespace DomainRule

/-- What stands before the first colon of a rule's text, and what stands behind it. -/
def parts : DomainRule → List Char × List Char
  | .custom d => (d.type.name, d.value)
  | .geosite g => (g.file, g.code ++ '@' :: g.attrs)

variable {r r' : DomainRule}

theorem Plain.parts (h : r.Plain) : ',' ∉ r.parts.1 ∧ Tame r.parts.2 := by
  cases r with
  | custom d => exact ⟨d.type.separators.1, h⟩
  | geosite g => exact ⟨h.2.1, h.2.2.2⟩

theorem Clear.parts (h : r.Clear) : ':' ∉ r.parts.1 := by
  cases r with
  | custom d => exact d.type.separators.2
  | geosite g => exact h.1

end DomainRule

/-- What is cached was made from rules that were asked for. -/
def CachedFrom (b : MatcherBuilder M) (asked : List (List DomainRule)) (shared : Shared M) : Prop :=
  ∀ key g, shared.lookup key = some g →
    ∃ rules ∈ asked, buildDomainRulesKey rules = key ∧ b.make rules = .ok g

/-- Two lists of a run with the same key are the same. -/
def OneKey (asked : List (List DomainRule)) : Prop :=
  ∀ rules ∈ asked, ∀ rules' ∈ asked, buildDomainRulesKey rules = buildDomainRulesKey rules' →
    buildDomainRulesKey rules ≠ [] → rules = rules'

variable {asked : List (List DomainRule)}

theorem CachedFrom.build {b : MatcherBuilder M} {shared : Shared M} (h : CachedFrom b asked shared)
    (hkey : OneKey asked) (hin : rules ∈ asked) :
    (buildMatcher b shared rules).2 = b.make rules ∧
      CachedFrom b asked (buildMatcher b shared rules).1 := by
  unfold buildMatcher
  by_cases hempty : buildDomainRulesKey rules = []
  · rw [if_pos hempty]
    exact ⟨rfl, h⟩
  rw [if_neg hempty]
  cases hlook : shared.lookup (buildDomainRulesKey rules) with
  | some g =>
    obtain ⟨rules', hin', heq, hmake⟩ := h _ g hlook
    obtain rfl := hkey rules' hin' rules hin heq (heq ▸ hempty)
    exact ⟨hmake.symm, h⟩
  | none =>
    cases hmake : b.make rules with
    | error err => exact ⟨rfl, h⟩
    | ok g =>
      refine ⟨rfl, fun key g' hg' => ?_⟩
      rcases Table.lookup_insert_eq_some.mp hg' with ⟨rfl, rfl⟩ | ⟨-, hg'⟩
      · exact ⟨rules, hin, rfl, hmake⟩
      · exact h key g' hg'

end XrayCore.Geodata
