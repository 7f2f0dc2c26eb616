import RootedGlob.Glob.Combined
import RootedGlob.Proofs.Brace.Denotation
import RootedGlob.Proofs.Lists
import RootedGlob.Proofs.Path.Location

/-!
# What a combined glob is compiled from

A combined glob compiles exactly if its source expands and the plain text of every expansion
compiles, and its alternatives are these plain texts without later occurrences. So a combined glob
that denotes what several smaller ones denote has the alternatives of these
(`alternatives_eq_of_parts`).
-/

namespace RootedGlob.Glob

open Brace RootedGlob.Path

/-- Whether the plain text of an expansion compiles. -/
def Compiles (alternative : Text) : Prop :=
  ∃ pattern, Pattern.compile (plainText alternative) = .ok pattern

theorem text_of_compile {text : Text} {pattern : Pattern}
    (compiled : Pattern.compile text = .ok pattern) : pattern.text = text := by
  rw [Pattern.compile] at compiled
  cases tokens : compileFrom none false text with
  | error => simp [tokens, Except.map] at compiled
  | ok found =>
    simp only [tokens, Except.map, Except.ok.injEq] at compiled
    rw [← compiled]

theorem compileAlternative_eq_ok_iff {alternative : Text} {pattern : Pattern} :
    compileAlternative alternative = .ok pattern
      ↔ Pattern.compile (plainText alternative) = .ok pattern := by
  rw [compileAlternative]
  cases Pattern.compile (plainText alternative) <;> simp [Except.mapError]

theorem plainText_of_isAbsolute {path : Text} (absolute : isAbsolute path) :
    plainText path = unescape (spelled (location path)) := by
  rw [plainText, dropTrailingSeparator_normalize absolute]

/-- A source that is not blank compiles exactly if it expands to texts that compile. -/
theorem Combined.compile_eq_ok_iff {source : Text} (filled : Text.isBlankText source = false)
    {glob : Combined} :
    Combined.compile source = .ok glob ↔ ∃ texts patterns, expand source = .ok texts
      ∧ texts.mapM compileAlternative = .ok patterns
      ∧ glob = ⟨source, patterns.eraseDupsBy fun a b => a.text == b.text⟩ := by
  rw [Combined.compile]
  simp only [filled, Bool.false_eq_true, if_false]
  cases expand source with
  | error => simp [Except.mapError, bind, Except.bind]
  | ok texts =>
    cases traversed : texts.mapM compileAlternative with
    | error => simp [Except.mapError, bind, Except.bind, traversed]
    | ok patterns =>
      simp [Except.mapError, bind, Except.bind, pure, Except.pure, traversed, eq_comm]

theorem Combined.alternatives_eq {source : Text} {glob : Combined}
    (filled : Text.isBlankText source = false) (compiled : Combined.compile source = .ok glob) :
    ∃ texts, expand source = .ok texts ∧ (∀ text ∈ texts, Compiles text)
      ∧ glob.alternatives = (texts.map plainText).eraseDups := by
  obtain ⟨texts, patterns, expanded, traversed, rfl⟩ :=
    (Combined.compile_eq_ok_iff filled).mp compiled
  have found := mapM_eq_ok_iff.mp traversed
  refine ⟨texts, expanded, ?_, ?_⟩
  · intro text member
    obtain ⟨pattern, -, ok⟩ := exists_of_forall₂ (found.flip) member
    exact ⟨pattern, compileAlternative_eq_ok_iff.mp ok⟩
  · -- The patterns are compiled one by one, so they have the texts of the expansions.
    have same : patterns.map Pattern.text = texts.map plainText := by
      clear traversed compiled expanded
      induction found with
      | nil => rfl
      | cons head _ ih =>
        rw [List.map_cons, List.map_cons, ih,
          text_of_compile (compileAlternative_eq_ok_iff.mp head)]
    have erased := map_eraseDupsBy Pattern.text patterns
    rw [same] at erased
    exact erased

theorem Combined.exists_compile {source : Text} {texts : List Text}
    (filled : Text.isBlankText source = false) (expanded : expand source = .ok texts)
    (compiles : ∀ text ∈ texts, Compiles text) :
    ∃ glob, Combined.compile source = .ok glob
      ∧ glob.alternatives = (texts.map plainText).eraseDups := by
  obtain ⟨patterns, found⟩ := exists_forall₂ fun text member =>
    (compiles text member).imp fun _ => compileAlternative_eq_ok_iff.mpr
  have compiled := (Combined.compile_eq_ok_iff filled).mpr
    ⟨texts, patterns, expanded, mapM_eq_ok_iff.mpr found, rfl⟩
  obtain ⟨texts', expanded', -, same⟩ := Combined.alternatives_eq filled compiled
  rw [expanded, Except.ok.injEq] at expanded'
  subst expanded'
  exact ⟨_, compiled, same⟩

/-- A combined glob that denotes what its parts denote has their alternatives. -/
theorem Combined.alternatives_eq_of_parts {source : Text} {parts : List Text} {glob : Combined}
    (filled : Text.isBlankText source = false) (compiled : Combined.compile source = .ok glob)
    (nonblank : ∀ part ∈ parts, Text.isBlankText part = false)
    (closed : ∀ part ∈ parts, depthAfter 0 (lex part) = 0)
    (groups : ∀ part ∈ parts, countGroups part ≤ countGroups source)
    (same : (denoted (lex source)).map plainText
      = (parts.flatMap fun part => denoted (lex part)).map plainText) :
    ∃ globs, parts.mapM Combined.compile = .ok globs
      ∧ glob.alternatives = (globs.flatMap Combined.alternatives).eraseDups := by
  obtain ⟨texts, expanded, compiles, whole⟩ := Combined.alternatives_eq filled compiled
  obtain ⟨few, -, room, rfl⟩ := expand_eq_ok_iff.mp expanded
  -- What a part denotes is among what the whole denotes, so the limits and the compiling of the whole
  -- do for the part.
  have each : ∀ part ∈ parts, ∃ glob, Combined.compile part = .ok glob
      ∧ glob.alternatives = ((denoted (lex part)).map plainText).eraseDups := by
    intro part member
    have inside : (denoted (lex part)).Sublist (parts.flatMap fun part => denoted (lex part)) :=
      List.sublist_flatten_of_mem (List.mem_map_of_mem member)
    have total := congrArg List.length same
    simp only [List.length_map] at total
    refine Combined.exists_compile (nonblank part member) (expand_eq_ok_iff.mpr
      ⟨Nat.le_trans (groups part member) few, closed part member, ?_, rfl⟩) ?_
    · have := inside.length_le
      omega
    · intro text found
      have among : plainText text ∈ (denoted (lex source)).map plainText := by
        rw [same]
        exact List.mem_map_of_mem (inside.subset found)
      obtain ⟨other, denotes, plain⟩ := List.mem_map.mp among
      obtain ⟨pattern, ok⟩ := compiles other denotes
      exact ⟨pattern, plain ▸ ok⟩
  obtain ⟨globs, found⟩ := exists_forall₂ each
  refine ⟨globs, mapM_eq_ok_iff.mpr (found.imp fun _ _ => And.left), ?_⟩
  -- Each part drops its own doubles first, which makes no difference once the doubles of the whole are
  -- dropped.
  have all : globs.flatMap Combined.alternatives = (parts.map fun part =>
      (denoted (lex part)).map plainText).flatMap List.eraseDups := by
    clear each same groups closed nonblank
    induction found with
    | nil => rfl
    | cons head _ ih => rw [List.flatMap_cons, List.map_cons, List.flatMap_cons, ih, head.2]
  rw [whole, same, all, eraseDups_flatMap_eraseDups, List.map_flatMap, List.flatMap_def]

end RootedGlob.Glob
