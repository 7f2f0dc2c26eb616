import RootedGlob.Proofs.Anchoring.Placement
import RootedGlob.Proofs.Anchoring.Rendering

/-!
# The tokens of an anchored pattern list one by one

The alternatives of an anchored list are few, because tokens of one folder share a group, and so do
the general ones. If every join renders its folders and patterns, these alternatives
comprise the tokens one by one, each behind its folder or behind every folder
(`comprise_alternatives`).
-/

namespace RootedGlob.Anchoring

open RootedGlob.Path Brace

/-- The tokens of a list one by one: the absolute ones, those that belong to a folder behind the folder,
and the general ones behind every folder. -/
def layout (folders tokens : List Text) (below everywhere : Text → Text) : List Text :=
  tokens.filter isAbsolute
    ++ (mentioned folders tokens).flatMap (fun folder =>
      (naming folders tokens folder).map fun token => folder ++ separator :: below token)
    ++ folders.flatMap fun folder =>
      (tokens.filter (isGeneral folders)).map fun token => folder ++ separator :: everywhere token

/-- Patterns that together denote the places of some parts. -/
structure Comprise (patterns parts : List Text) : Prop where
  wholes : ∀ pattern ∈ patterns, IsWhole pattern
  partWholes : ∀ part ∈ parts, IsWhole part
  places : List.Forall₂ SamePlace (patterns.flatMap fun pattern => denoted (lex pattern))
    (parts.flatMap fun part => denoted (lex part))
  groups : ∀ part ∈ parts, ∃ pattern ∈ patterns, countGroups part ≤ countGroups pattern

namespace Comprise

theorem nil : Comprise [] [] := ⟨by simp, by simp, .nil, by simp⟩

theorem append {first second third fourth : List Text} (one : Comprise first second)
    (two : Comprise third fourth) : Comprise (first ++ third) (second ++ fourth) := by
  refine ⟨?_, ?_, ?_, ?_⟩
  · exact List.forall_mem_append.mpr ⟨one.wholes, two.wholes⟩
  · exact List.forall_mem_append.mpr ⟨one.partWholes, two.partWholes⟩
  · rw [List.flatMap_append, List.flatMap_append]
    exact List.rel_append one.places two.places
  · intro part member
    rcases List.mem_append.mp member with inside | inside
    · obtain ⟨pattern, among, few⟩ := one.groups part inside
      exact ⟨pattern, List.mem_append_left _ among, few⟩
    · obtain ⟨pattern, among, few⟩ := two.groups part inside
      exact ⟨pattern, List.mem_append_right _ among, few⟩

theorem flatMap {α : Type} {f g : α → List Text} {xs : List α}
    (each : ∀ x ∈ xs, Comprise (f x) (g x)) : Comprise (xs.flatMap f) (xs.flatMap g) := by
  induction xs with
  | nil => exact nil
  | cons x xs ih =>
    rw [List.flatMap_cons, List.flatMap_cons]
    exact (each x List.mem_cons_self).append
      (ih fun other member => each other (List.mem_cons_of_mem _ member))

theorem trans {first second third : List Text} (one : Comprise first second)
    (two : Comprise second third) : Comprise first third := by
  refine ⟨one.wholes, two.partWholes, forall₂_trans one.places two.places SamePlace.trans, ?_⟩
  intro part member
  obtain ⟨middle, among, few⟩ := two.groups part member
  obtain ⟨pattern, inside, fewer⟩ := one.groups middle among
  exact ⟨pattern, inside, Nat.le_trans few fewer⟩

theorem of_renders {pattern part : Text} (renders : Renders pattern part) (whole : IsWhole part) :
    Comprise [pattern] [part] := by
  refine ⟨by simpa using renders.whole, by simpa using whole, by simpa using renders.places, ?_⟩
  simp [renders.groups]

theorem map {α : Type} {f g : α → Text} {xs : List α}
    (each : ∀ x ∈ xs, Renders (f x) (g x) ∧ IsWhole (g x)) : Comprise (xs.map f) (xs.map g) := by
  rw [List.map_eq_flatMap, List.map_eq_flatMap]
  exact flatMap fun x member => of_renders (each x member).1 (each x member).2

/-- A pattern that renders folders with a group behind them comprises each of them with each member
of the group behind it. -/
theorem of_group {folders patterns : List Text} {pattern : Text} (nonempty : folders ≠ [])
    (plain : ∀ folder ∈ folders, IsPlainFolder folder) (filled : patterns ≠ [])
    (wholes : ∀ pattern ∈ patterns, IsWhole pattern)
    (renders : Renders pattern (alternation folders ++ separator :: alternation patterns)) :
    Comprise [pattern]
      (folders.flatMap fun folder => patterns.map fun part => folder ++ separator :: part) := by
  have places := renders.places
  rw [denoted_folders_patterns nonempty plain filled wholes] at places
  obtain ⟨group, -⟩ := denoted_alternation_folders nonempty plain
  obtain ⟨closed, -⟩ := denoted_alternation_of_isWhole filled wholes
  refine ⟨by simpa using renders.whole, ?_, by simpa using places, ?_⟩
  · intro part member
    obtain ⟨folder, among, inside⟩ := List.mem_flatMap.mp member
    obtain ⟨behind, found, rfl⟩ := List.mem_map.mp inside
    exact (plain folder among).flat.whole.append (isFlat_separator.whole.append (wholes _ found))
  · intro part member
    obtain ⟨folder, among, inside⟩ := List.mem_flatMap.mp member
    obtain ⟨behind, found, rfl⟩ := List.mem_map.mp inside
    have flat := (plain folder among).flat
    have one := (wholes behind found).unguarded
    -- A part has the groups of one of the patterns behind the folders, so no more than all of them.
    have least := countGroups_le_alternation wholes found
    refine ⟨pattern, List.mem_singleton_self _, ?_⟩
    rw [renders.groups, countGroups_separator flat.unguarded one, countGroups_of_isFlat flat,
      countGroups_separator group.unguarded closed.unguarded]
    omega

end Comprise

theorem Renders.refl {pattern : Text} (whole : IsWhole pattern) (absolute : isAbsolute pattern) :
    Renders pattern pattern :=
  renders_of_alike absolute absolute whole (.refl _)

/-- What the joins of a list of tokens have to preserve. -/
structure Placeable (folders tokens : List Text) : Prop where
  absolute : ∀ token ∈ tokens, isAbsolute token → IsWhole token
  inside : ∀ token ∈ tokens, (home? folders token).isSome → IsWhole (inside token)
  spread : ∀ token ∈ tokens, isGeneral folders token → IsWhole (spread token)
  joinsInside : ∀ folder ∈ mentioned folders tokens,
    Renders (join [folder, alternation ((naming folders tokens folder).map Anchoring.inside)])
      (folder ++ separator :: alternation ((naming folders tokens folder).map Anchoring.inside))
  joinsSpread : tokens.filter (isGeneral folders) ≠ [] →
    Renders (join [alternation folders,
        alternation ((tokens.filter (isGeneral folders)).map Anchoring.spread)])
      (alternation folders
        ++ separator :: alternation ((tokens.filter (isGeneral folders)).map Anchoring.spread))

/-- The alternatives of an anchored list comprise its tokens one by one. -/
theorem comprise_alternatives {folders tokens : List Text} (nonempty : folders ≠ [])
    (plain : ∀ folder ∈ folders, IsPlainFolder folder) (placeable : Placeable folders tokens) :
    Comprise ((Plan.ofTokens folders tokens).alternatives folders)
      (layout folders tokens inside spread) := by
  rw [ofTokens_eq, Plan.alternatives, layout]
  -- The three kinds of alternatives, in their order: absolute tokens, those that name a folder, and the
  -- rest.
  refine (Comprise.append ?_ ?_).append ?_
  · have same : ∀ token ∈ tokens.filter isAbsolute, Renders token token ∧ IsWhole token := by
      intro token member
      obtain ⟨among, absolute⟩ := List.mem_filter.mp member
      have whole := placeable.absolute token among absolute
      exact ⟨.refl whole absolute, whole⟩
    simpa using Comprise.map same
  · rw [List.map_map, List.map_eq_flatMap]
    refine Comprise.flatMap fun folder member => ?_
    have filled : (naming folders tokens folder).map inside ≠ [] := by
      simpa using naming_ne_nil member
    have wholes : ∀ pattern ∈ (naming folders tokens folder).map inside, IsWhole pattern := by
      intro pattern inner
      obtain ⟨named, naming, rfl⟩ := List.mem_map.mp inner
      obtain ⟨one, two⟩ := mem_naming.mp naming
      exact placeable.inside named one (by simp [two])
    have single : ∀ other ∈ [folder], IsPlainFolder other := by
      simpa using plain folder (mem_of_mem_mentioned member)
    -- A named folder is a group of one folder.
    have group := Comprise.of_group (List.cons_ne_nil folder []) single filled wholes
      (placeable.joinsInside folder member)
    simpa [List.map_map, Function.comp_def] using group
  · simp only [List.map_eq_nil_iff]
    -- Without such a token there is no alternative for it, and nothing to comprise.
    by_cases empty : tokens.filter (isGeneral folders) = []
    · have none : folders.flatMap (fun folder => [].map fun token : Text =>
          folder ++ separator :: spread token) = [] := List.flatMap_eq_nil_iff.mpr fun _ _ => rfl
      rw [if_pos empty, empty, none]
      exact Comprise.nil
    · rw [if_neg empty]
      have wholes : ∀ pattern ∈ (tokens.filter (isGeneral folders)).map spread,
          IsWhole pattern := by
        intro pattern inner
        obtain ⟨token, member, rfl⟩ := List.mem_map.mp inner
        obtain ⟨among, general⟩ := List.mem_filter.mp member
        exact placeable.spread token among general
      have group := Comprise.of_group nonempty plain (by simpa using empty) wholes
        (placeable.joinsSpread empty)
      simpa [List.map_map, Function.comp_def] using group

/-- Tokens may be put behind their folders in another spelling. -/
theorem comprise_layout {folders tokens : List Text} {below everywhere below' everywhere' : Text → Text}
    (absolute : ∀ token ∈ tokens, isAbsolute token → IsWhole token)
    (named : ∀ token ∈ tokens, ∀ folder, home? folders token = some folder →
      Renders (folder ++ separator :: below token) (folder ++ separator :: below' token)
        ∧ IsWhole (folder ++ separator :: below' token))
    (other : ∀ token ∈ tokens, isGeneral folders token → ∀ folder ∈ folders,
      Renders (folder ++ separator :: everywhere token) (folder ++ separator :: everywhere' token)
        ∧ IsWhole (folder ++ separator :: everywhere' token)) :
    Comprise (layout folders tokens below everywhere) (layout folders tokens below' everywhere') := by
  refine (Comprise.append ?_ ?_).append ?_
  · have same : ∀ token ∈ tokens.filter isAbsolute, Renders token token ∧ IsWhole token := by
      intro token member
      obtain ⟨among, rooted⟩ := List.mem_filter.mp member
      have whole := absolute token among rooted
      exact ⟨.refl whole rooted, whole⟩
    simpa using Comprise.map same
  · refine Comprise.flatMap fun folder _ => Comprise.map fun token member => ?_
    obtain ⟨among, found⟩ := mem_naming.mp member
    exact named token among folder found
  · refine Comprise.flatMap fun folder member => Comprise.map fun token inner => ?_
    obtain ⟨among, general⟩ := List.mem_filter.mp inner
    exact other token among general folder member

end RootedGlob.Anchoring
