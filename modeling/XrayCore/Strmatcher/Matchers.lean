/-
  XrayCore.Strmatcher.Matchers

  The matchers of a single pattern, for strings of bytes: the whole string, a domain with
  its subdomains, or a part of the string.  What a group of matchers answers is compared
  with these.
-/

import XrayCore.Bytes.Slice

namespace XrayCore.Strmatcher

open List

/-- `Type`, without the regular expressions. -/
inductive MatcherType where
  | full
  | domain
  | substr
deriving DecidableEq

/-- `FullMatcher`, `DomainMatcher` and `SubstrMatcher`. -/
structure Matcher where
  type : MatcherType
  pattern : Bytes
deriving DecidableEq

/-- The dot. -/
def dot : UInt8 := 0x2e

/-- `strings.HasSuffix`. -/
def hasSuffix (s suffix : Bytes) : Bool := suffix.isSuffixOf s

/-- `strings.Contains`. -/
def contains (s substr : Bytes) : Bool := s.tails.any substr.isPrefixOf

/-- `Match` of a matcher. -/
def Matcher.isMatch (m : Matcher) (s : Bytes) : Bool :=
  match m.type with
  | .full => m.pattern == s
  | .domain =>
    hasSuffix s m.pattern &&
      (s.length == m.pattern.length || s[s.length - m.pattern.length - 1]? == some dot)
  | .substr => contains s m.pattern

theorem contains_iff {s substr : Bytes} :
    contains s substr = true ↔ ∃ t, t <:+ s ∧ substr <+: t := by
  rw [contains, any_eq_true]
  simp only [mem_tails, isPrefixOf_iff_prefix]

/-- A domain matcher takes its pattern, alone or after a dot. -/
theorem isMatch_domain_iff {pattern s : Bytes} :
    Matcher.isMatch ⟨.domain, pattern⟩ s = true ↔
      s = pattern ∨ (dot :: pattern) <:+ s := by
  rw [Matcher.isMatch, Bool.and_eq_true, hasSuffix, isSuffixOf_iff_suffix, Bool.or_eq_true,
    beq_iff_eq, beq_iff_eq]
  constructor
  · rintro ⟨⟨front, rfl⟩, h⟩
    rw [length_append] at h
    rcases eq_nil_or_concat front with rfl | ⟨front, c, rfl⟩
    · exact .inl rfl
    · rw [concat_eq_append] at h ⊢
      -- the byte before the pattern is the last one in front of it
      have hc :
          (front ++ [c] ++ pattern)[(front ++ [c]).length + pattern.length - pattern.length - 1]?
          = some c := by simp
      rcases h with h | h
      · rw [length_append, length_singleton] at h
        omega
      · obtain rfl : c = dot := Option.some.inj (hc.symm.trans h)
        refine .inr ⟨front, ?_⟩
        rw [append_assoc]
        rfl
  · rintro (rfl | ⟨front, rfl⟩)
    · exact ⟨suffix_rfl, .inl rfl⟩
    · refine ⟨⟨front ++ [dot], by rw [append_assoc]; rfl⟩, .inr ?_⟩
      have hlen : (front ++ dot :: pattern).length - pattern.length - 1 = front.length := by
        rw [length_append, length_cons]
        omega
      rw [hlen, getElem?_append_right (Nat.le_refl _), Nat.sub_self]
      rfl

end XrayCore.Strmatcher
