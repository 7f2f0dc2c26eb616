import RootedGlob.Proofs.Anchoring.Climbing
import RootedGlob.Proofs.Anchoring.Decomposition
import RootedGlob.Proofs.Glob.Literal

/-!
# Folders and patterns that are read literally

Inert texts hold nothing that pattern lists, groups or globs read, but may hold `..`. Normalization
keeps them inert and does not move them, so a folder joined with a single inert pattern renders both
(`renders_join_inert`). With several patterns, or several folders, the join renders them as long as
nothing climbs over a mark of their groups (`renders_join_group`, `renders_join_groups`).
-/

namespace RootedGlob.Anchoring

open RootedGlob.Path Brace Glob PatternList

/-- A text that is read the same by pattern lists, groups and globs. -/
def IsInert (text : Text) : Prop :=
  ∀ c ∈ text, c ∉ ['{', '}', '[', ']', '(', ')', ',', '*', '?', '\\']

instance (text : Text) : Decidable (IsInert text) :=
  List.decidableBAll _ text

namespace IsInert

variable {text : Text}

theorem flat (inert : IsInert text) : IsFlat text := by
  intro c member
  have absent := inert c member
  simp only [List.mem_cons, List.not_mem_nil, or_false, not_or] at absent
  simp [isFlatChar, absent]

theorem verbatim (inert : IsInert text) : ∀ c ∈ text, isVerbatim c := by
  intro c member
  have absent := inert c member
  simp only [List.mem_cons, List.not_mem_nil, or_false, not_or] at absent
  simp [isVerbatim, absent]

theorem unescaped (inert : IsInert text) : unescape text = text :=
  unescape_of_not_mem fun member => inert _ member (by decide)

theorem of_mem_segments (inert : IsInert text) {segment : Text} (member : segment ∈ segments text) :
    IsInert segment := fun c inside => inert c (mem_of_mem_segments member inside)

theorem append {first second : Text} (one : IsInert first) (two : IsInert second) :
    IsInert (first ++ second) := List.forall_mem_append.mpr ⟨one, two⟩

theorem separated (inert : IsInert text) : IsInert (separator :: text) :=
  List.forall_mem_cons.mpr ⟨by decide, inert⟩

theorem ofSegments {names : List Text} (inert : ∀ name ∈ names, IsInert name) :
    IsInert (ofSegments names) := by
  cases names with
  | nil => decide
  | cons name names =>
    rw [ofSegments_cons]
    refine append (inert name List.mem_cons_self) fun c member => ?_
    obtain ⟨other, inside, found⟩ := List.mem_flatMap.mp member
    rcases List.mem_cons.mp found with rfl | found
    · decide
    · exact inert other (List.mem_cons_of_mem _ inside) c found

theorem spelled {names : List Text} (inert : ∀ name ∈ names, IsInert name) :
    IsInert (spelled names) := (ofSegments inert).separated

theorem spelled_location (inert : IsInert text) : IsInert (Path.spelled (location text)) :=
  spelled fun _ member => inert.of_mem_segments (mem_segments_of_mem_location member)

end IsInert

theorem isInert_inside {token : Text} (inert : IsInert token) : IsInert (inside token) := by
  apply IsInert.ofSegments
  intro name member
  rcases List.mem_append.mp member with parent | member
  · rw [List.eq_of_mem_replicate parent]
    decide
  · have walked := List.mem_reverse.mp (List.mem_of_mem_drop member)
    rcases mem_of_mem_foldl walked with none | found
    · cases none
    · exact inert.of_mem_segments found

/-- Normalization does not move an absolute path. -/
theorem samePlace_normalize {path : Text} (absolute : isAbsolute path) :
    SamePlace (normalize path) path := by
  have proper : ∀ name ∈ location path, IsName name := fun _ => isName_of_mem_location
  have moved {other : Text} (same : location other = location path) : stand other = stand path :=
    List.reverse_injective same
  rw [normalize_of_isAbsolute absolute]
  split
  · next inner =>
    refine ⟨?_, absolute, ?_⟩
    · obtain ⟨name, names, same⟩ := List.exists_cons_of_ne_nil inner.1
      rw [same]
      rfl
    · rw [stand_separator]
      exact moved (location_rooted proper)
  · exact ⟨isAbsolute_spelled _, absolute, moved (location_spelled proper)⟩

theorem isInert_normalize {path : Text} (absolute : isAbsolute path) (inert : IsInert path) :
    IsInert (normalize path) := by
  have named := inert.spelled_location
  rw [normalize_of_isAbsolute absolute]
  split
  · next inner =>
    rw [spelled_eq, if_neg inner.1] at named
    exact named.append (by decide)
  · exact named

theorem isAbsolute_append {front : Text} (absolute : isAbsolute front) (back : Text) :
    isAbsolute (front ++ back) := by
  obtain ⟨rest, rfl⟩ := isAbsolute_iff.mp absolute
  rfl

theorem renders_of_isInert {pattern original : Text} (one : IsInert pattern) (two : IsInert original)
    (same : SamePlace pattern original) : Renders pattern original := by
  refine ⟨one.flat.whole, ?_, ?_⟩
  · rw [countGroups_of_isFlat one.flat, countGroups_of_isFlat two.flat]
  · rw [denoted_of_isFlat one.flat, denoted_of_isFlat two.flat]
    exact .cons same .nil

/-- A folder as it stands in a workspace, without anything that patterns read. -/
structure IsInertFolder (folder : Text) : Prop where
  canonical : IsCanonical folder
  inert : IsInert folder

theorem IsInertFolder.plain {folder : Text} (inert : IsInertFolder folder) : IsPlainFolder folder :=
  ⟨inert.canonical, inert.inert.flat⟩

theorem isInertFolder_of_isLiteral {folder : Text} (canonical : IsCanonical folder)
    (literal : IsLiteral folder) : IsInertFolder folder := by
  refine ⟨canonical, fun c inside => ?_⟩
  have slashed : c ≠ '\\' := fun same => canonical.noBackslash (same ▸ inside)
  have absent := literal c inside
  simp only [List.mem_cons, List.not_mem_nil, or_false, not_or] at absent ⊢
  simp [absent, slashed]

theorem renders_join_inert {folder pattern : Text} (inert : IsInertFolder folder)
    (behind : IsInert pattern) : Renders (join [folder, pattern]) (folder ++ separator :: pattern) := by
  have whole : IsInert (folder ++ separator :: pattern) :=
    inert.inert.append behind.separated
  have absolute := isAbsolute_append inert.canonical.isAbsolute (separator :: pattern)
  rw [join_pair inert.plain.nonempty]
  by_cases empty : pattern = []
  · rw [if_pos empty]
    refine renders_of_isInert (isInert_normalize inert.canonical.isAbsolute inert.inert) whole ?_
    have kept := samePlace_normalize inert.canonical.isAbsolute
    refine ⟨kept.absolute, absolute, kept.place.trans ?_⟩
    rw [empty, stand_separator]
  · rw [if_neg empty]
    exact renders_of_isInert (isInert_normalize absolute whole) whole (samePlace_normalize absolute)

theorem isWhole_of_isInert {patterns : List Text} (inert : ∀ pattern ∈ patterns, IsInert pattern) :
    ∀ pattern ∈ patterns, IsWhole pattern := fun pattern member => (inert pattern member).flat.whole

theorem countGroups_alternation_of_isInert {patterns : List Text}
    (inert : ∀ pattern ∈ patterns, IsInert pattern) :
    countGroups (alternation patterns) = if 2 ≤ patterns.length then 1 else 0 := by
  have none : (patterns.map countGroups).sum = 0 := by
    rw [List.sum_eq_zero_iff_forall_eq_nat]
    intro count member
    obtain ⟨pattern, among, rfl⟩ := List.mem_map.mp member
    exact countGroups_of_isFlat (inert pattern among).flat
  rw [countGroups_alternation (isWhole_of_isInert inert), none, Nat.zero_add]

theorem countGroups_pair {folders patterns : List Text} (some : folders ≠ [])
    (inert : ∀ folder ∈ folders, IsInert folder) (filled : patterns ≠ [])
    (behind : ∀ pattern ∈ patterns, IsInert pattern) :
    countGroups (alternation folders ++ separator :: alternation patterns)
      = (if 2 ≤ folders.length then 1 else 0) + if 2 ≤ patterns.length then 1 else 0 := by
  have one := (denoted_alternation_of_isWhole some (isWhole_of_isInert inert)).1
  have two := (denoted_alternation_of_isWhole filled (isWhole_of_isInert behind)).1
  rw [countGroups_separator one.unguarded two.unguarded, countGroups_alternation_of_isInert inert,
    countGroups_alternation_of_isInert behind]

/-- One folder joined with inert patterns, none of which climbs inside their group. -/
theorem renders_join_group {folder : Text} {patterns : List Text} (inert : IsInertFolder folder)
    (filled : patterns ≠ []) (behind : ∀ pattern ∈ patterns, IsInert pattern)
    (stays : 2 ≤ patterns.length → ∀ pattern ∈ patterns, climbs 0 (interior pattern) = false) :
    Renders (join [folder, alternation patterns]) (folder ++ separator :: alternation patterns) := by
  by_cases several : 2 ≤ patterns.length
  · have whole := (denoted_alternation_of_isWhole filled (isWhole_of_isInert behind)).1
    apply renders_join_folder inert.plain whole
    apply takesFlat_segments
    obtain ⟨count, counted⟩ :=
      exists_climbs_append (dotDot_not_mem_folder inert.canonical) 0
    rw [segments_append, counted, alternation_of_several several, climbs_group filled,
      List.any_eq_false]
    intro pattern member
    rw [stays several pattern member]
    decide
  · match patterns, filled with
    | [single], _ => exact renders_join_inert inert (behind single List.mem_cons_self)
    | _ :: _ :: _, _ => simp at several

/-- Several folders joined with inert patterns. A single pattern has no group of its own, and must
not climb over the group of the folders. -/
theorem renders_join_groups {folders patterns : List Text} (several : 2 ≤ folders.length)
    (inert : ∀ folder ∈ folders, IsInertFolder folder) (filled : patterns ≠ [])
    (behind : ∀ pattern ∈ patterns, IsInert pattern ∧ pattern ≠ [])
    (alone : ∀ pattern, patterns = [pattern] → climbs 0 (segments pattern) = false)
    (stays : 2 ≤ patterns.length → ∀ pattern ∈ patterns, climbs 0 (interior pattern) = false) :
    Renders (join [alternation folders, alternation patterns])
      (alternation folders ++ separator :: alternation patterns) := by
  have wholes := isWhole_of_isInert fun pattern member => (behind pattern member).1
  have whole := (denoted_alternation_of_isWhole filled wholes).1
  apply renders_join_folders several (fun folder member => (inert folder member).plain) whole
    (alternation_ne_nil filled fun pattern member => (behind pattern member).2)
  apply takesFlat_segments
  -- A group climbs if one of its patterns does in its inner segments; a single pattern stands for itself.
  by_cases many : 2 ≤ patterns.length
  · rw [alternation_of_several many, climbs_group filled, List.any_eq_false]
    intro pattern member
    rw [stays many pattern member]
    decide
  · match patterns, filled with
    | [single], _ => exact alone single rfl
    | _ :: _ :: _, _ => simp at many

end RootedGlob.Anchoring
