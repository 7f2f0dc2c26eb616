import RootedGlob.Proofs.Glob.Matching
import RootedGlob.Proofs.Glob.PlainText
import RootedGlob.Proofs.Path.Ancestors

/-!
# Which files a combined glob selects

A combined glob selects a file if one of its alternatives matches the location that the first names
of the file spell (`Combined.isMatch_iff`). If no alternative has wildcards or classes, these first
names have to be one of the alternatives (`Combined.isMatch_iff_mem`).
-/

namespace RootedGlob.Glob

open RootedGlob.Path

/-- A pattern without wildcards and classes matches its own text only. -/
theorem matches_iff_eq {alternative : Text} (verbatim : ∀ c ∈ alternative, isVerbatim c)
    {pattern : Pattern} (compiles : Pattern.compile alternative = .ok pattern) {text : Text} :
    Matches pattern.tokens text ↔ text = alternative := by
  have same := compile_of_isVerbatim verbatim
  rw [compiles, Except.ok.injEq] at same
  rw [← Glob.isMatch_iff compiles, same, Pattern.isMatch, decide_eq_true_iff, run_literal_iff]

theorem isCanonical_plainText {path : Text} (absolute : isAbsolute path) (absent : '\\' ∉ path) :
    IsCanonical (plainText path) := by
  have plain : '\\' ∉ plainText path := by
    intro inside
    rcases mem_of_mem_plainText absent inside with found | same | same
    · exact absent found
    · exact absurd same (by decide)
    · exact absurd same (by decide)
  rw [plainText_of_not_mem absolute absent] at plain ⊢
  exact isCanonical_spelled (fun _ => isName_of_mem_location) plain

theorem plainText_of_isCanonical {path : Text} (canonical : IsCanonical path) : plainText path = path := by
  rw [plainText_of_not_mem canonical.isAbsolute canonical.noBackslash, ← canonical.spelling]

namespace Combined

variable {source : Text} {glob : Combined}

theorem isBlankText_of_mem (compiled : compile source = .ok glob) {pattern : Pattern}
    (member : pattern ∈ glob.patterns) : Text.isBlankText source = false := by
  by_contra blank
  rw [compile, if_pos (by simpa using blank)] at compiled
  cases compiled
  cases member

theorem compile_of_mem (compiled : compile source = .ok glob) :
    ∀ pattern ∈ glob.patterns, Pattern.compile pattern.text = .ok pattern := by
  intro pattern member
  have filled := isBlankText_of_mem compiled member
  obtain ⟨texts, patterns, -, traversed, rfl⟩ := (compile_eq_ok_iff filled).mp compiled
  obtain ⟨text, -, found⟩ :=
    exists_of_forall₂ (mapM_eq_ok_iff.mp traversed) (mem_of_mem_eraseDupsBy member)
  rw [compileAlternative_eq_ok_iff] at found
  rwa [text_of_compile found]

theorem matchesText_iff (compiled : compile source = .ok glob) {text : Text} :
    glob.matchesText text ↔ ∃ alternative ∈ glob.alternatives, ∃ pattern,
      Pattern.compile alternative = .ok pattern ∧ Matches pattern.tokens text := by
  rw [matchesText, List.any_eq_true]
  constructor
  · rintro ⟨pattern, member, matched⟩
    have compiles := compile_of_mem compiled pattern member
    exact ⟨_, List.mem_map_of_mem member, pattern, compiles, (Glob.isMatch_iff compiles).mp matched⟩
  · rintro ⟨alternative, member, pattern, compiles, matched⟩
    obtain ⟨other, among, rfl⟩ := List.mem_map.mp member
    have same := compile_of_mem compiled other among
    rw [compiles, Except.ok.injEq] at same
    subst same
    exact ⟨pattern, among, (Glob.isMatch_iff compiles).mpr matched⟩

/-- Of a path without backslashes, the ancestors are matched as they are. -/
theorem isMatch_iff_ancestor {path : Text} (absent : '\\' ∉ path) :
    glob.isMatch path ↔ ∃ ancestor ∈ ancestors path, ancestor ≠ [] ∧ glob.matchesText ancestor := by
  rw [isMatch, List.any_eq_true]
  refine exists_congr fun ancestor => and_congr_right fun member => ?_
  have kept : '\\' ∉ ancestor := fun inside =>
    absent ((prefix_of_mem_ancestors member).subset inside)
  rw [Folders.slashed_of_not_mem kept, Bool.and_eq_true, bne_iff_ne]

/-- A combined glob selects a file if an alternative matches it or a folder above it. -/
theorem isMatch_iff (compiled : compile source = .ok glob) {names : List Text}
    (proper : ∀ name ∈ names, IsName name) (absent : '\\' ∉ spelled names) :
    glob.isMatch (spelled names) ↔ ∃ front, front <+: names
      ∧ ∃ alternative ∈ glob.alternatives, ∃ pattern, Pattern.compile alternative = .ok pattern
        ∧ Matches pattern.tokens (spelled front) := by
  rw [isMatch_iff_ancestor absent]
  constructor
  · rintro ⟨ancestor, member, -, matched⟩
    obtain ⟨front, start, rfl⟩ := (mem_ancestors_spelled proper).mp member
    exact ⟨front, start, (matchesText_iff compiled).mp matched⟩
  · rintro ⟨front, start, matched⟩
    refine ⟨spelled front, (mem_ancestors_spelled proper).mpr ⟨front, start, rfl⟩, ?_⟩
    exact ⟨by simp [spelled], (matchesText_iff compiled).mpr matched⟩

/-- Alternatives without wildcards and classes select what lies at or below them. -/
theorem isMatch_iff_mem (compiled : compile source = .ok glob)
    (verbatim : ∀ alternative ∈ glob.alternatives, ∀ c ∈ alternative, isVerbatim c)
    {names : List Text} (proper : ∀ name ∈ names, IsName name) (absent : '\\' ∉ spelled names) :
    glob.isMatch (spelled names) ↔ ∃ front, front <+: names ∧ spelled front ∈ glob.alternatives := by
  rw [isMatch_iff compiled proper absent]
  constructor
  · rintro ⟨front, start, alternative, member, pattern, compiles, matched⟩
    rw [matches_iff_eq (verbatim alternative member) compiles] at matched
    exact ⟨front, start, matched ▸ member⟩
  · rintro ⟨front, start, member⟩
    have compiles := compile_of_isVerbatim (verbatim _ member)
    exact ⟨front, start, _, member, _, compiles,
      (matches_iff_eq (verbatim _ member) compiles).mpr rfl⟩

end Combined

end RootedGlob.Glob
