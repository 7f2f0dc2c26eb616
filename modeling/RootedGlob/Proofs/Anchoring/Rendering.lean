import RootedGlob.Anchoring
import RootedGlob.Proofs.Anchoring.Spelling
import RootedGlob.Proofs.Path.Joining
import RootedGlob.Proofs.Workspace.Folders

/-!
# Patterns that denote the same places

One pattern renders another if it denotes, one for one and in the same order, absolute paths of the
same locations. Joining a folder, or the group of all folders, with a group of patterns renders every
folder with every pattern behind it, as long as normalization does not let a `..` take away anything
but a flat name (`renders_join_folder`, `renders_join_folders`).
-/

namespace RootedGlob.Anchoring

open RootedGlob.Path Brace

/-- Two absolute paths of one location. -/
structure SamePlace (first second : Text) : Prop where
  absolute : isAbsolute first
  absolute' : isAbsolute second
  place : stand first = stand second

theorem SamePlace.trans {first second third : Text} (one : SamePlace first second)
    (two : SamePlace second third) : SamePlace first third :=
  ⟨one.absolute, two.absolute', one.place.trans two.place⟩

/-- A whole pattern that denotes the places that another one denotes. -/
structure Renders (pattern original : Text) : Prop where
  whole : IsWhole pattern
  groups : countGroups pattern = countGroups original
  places : List.Forall₂ SamePlace (denoted (lex pattern)) (denoted (lex original))

theorem countGroups_separator {front back : Text} (one : IsUnguarded front)
    (two : IsUnguarded back) :
    countGroups (front ++ separator :: back) = countGroups front + countGroups back := by
  have mark : countGroups [separator] = 0 := by decide +kernel
  rw [← List.singleton_append, countGroups_append one (isUnguarded_append.mpr ⟨by decide, two⟩),
    countGroups_append (by decide) two, mark, Nat.zero_add]

theorem isFlat_separator : IsFlat [separator] := by decide

theorem isAbsolute_of_mem_denoted {pattern : Text} (whole : IsWhole pattern)
    (absolute : isAbsolute pattern) : ∀ text ∈ denoted (lex pattern), isAbsolute text := by
  obtain ⟨rest, rfl⟩ := isAbsolute_iff.mp absolute
  have behind : IsWhole rest := .of_append isFlat_separator.whole whole
  rw [← List.singleton_append, denoted_flat_append isFlat_separator behind]
  intro text member
  obtain ⟨inner, -, rfl⟩ := List.mem_map.mp member
  rfl

/-- Spellings of a whole pattern are whole and denote spellings of the same texts. -/
theorem alike_denoted {pattern original : Text} (whole : IsWhole original)
    (alike : Alike (pattern ++ [separator]) (original ++ [separator])) :
    IsWhole pattern ∧ countGroups pattern = countGroups original
      ∧ List.Forall₂ (fun text other => Alike (text ++ [separator]) (other ++ [separator]))
        (denoted (lex pattern)) (denoted (lex original)) := by
  -- The separator behind both closes the last segment, so that the two can be compared at all. It is
  -- flat and falls away again.
  have closed := whole.append isFlat_separator.whole
  have unguarded := (isUnguarded_iff_of_alike alike).mpr closed.unguarded
  have inner := (isUnguarded_append.mp unguarded).1
  have same := isSealed_of_alike alike unguarded
  rw [closed.closed, lex_append inner isFlat_separator.unguarded,
    isSealed_append_isFlat 0 _ isFlat_separator] at same
  have wholeToo : IsWhole pattern := ⟨inner, same⟩
  have groups := countGroups_of_alike alike unguarded
  rw [countGroups_append inner isFlat_separator.unguarded,
    countGroups_append whole.unguarded isFlat_separator.unguarded] at groups
  have texts := forall₂_denoted alike unguarded
  rw [denoted_append_flat wholeToo isFlat_separator, denoted_append_flat whole isFlat_separator,
    List.forall₂_map_left_iff, List.forall₂_map_right_iff] at texts
  exact ⟨wholeToo, by omega, texts⟩

theorem renders_of_alike {pattern original : Text} (absolute : isAbsolute pattern)
    (absolute' : isAbsolute original) (whole : IsWhole original)
    (alike : Alike (pattern ++ [separator]) (original ++ [separator])) :
    Renders pattern original := by
  obtain ⟨wholeToo, groups, texts⟩ := alike_denoted whole alike
  refine ⟨wholeToo, groups, ?_⟩
  have one := isAbsolute_of_mem_denoted wholeToo absolute
  have two := isAbsolute_of_mem_denoted whole absolute'
  refine List.forall₂_iff_zip.mpr ⟨texts.length_eq, fun {text other} member => ?_⟩
  have places := stand_eq_of_alike (List.forall₂_zip texts member)
  rw [stand_separator, stand_separator] at places
  exact ⟨one text (List.of_mem_zip member).1, two other (List.of_mem_zip member).2, places⟩

/-- Behind a pattern that denotes absolute paths, the rest may be spelled in any way. -/
theorem renders_append {front pattern original : Text} (before : IsWhole front)
    (absolute : ∀ text ∈ denoted (lex front), isAbsolute text) (whole : IsWhole original)
    (alike : Alike (pattern ++ [separator]) (original ++ [separator])) :
    Renders (front ++ pattern) (front ++ original) := by
  obtain ⟨wholeToo, groups, texts⟩ := alike_denoted whole alike
  refine ⟨before.append wholeToo, ?_, ?_⟩
  · rw [countGroups_append before.unguarded wholeToo.unguarded,
      countGroups_append before.unguarded whole.unguarded, groups]
  · rw [denoted_append before wholeToo, denoted_append before whole]
    -- The texts in front multiply with those behind, one row for each of them.
    clear before
    generalize denoted (lex front) = starts at absolute ⊢
    induction starts with
    | nil => exact .nil
    | cons start starts ih =>
      rw [product_cons, product_cons]
      refine List.rel_append ?_ (ih fun text member => absolute text (List.mem_cons_of_mem _ member))
      rw [List.forall₂_map_left_iff, List.forall₂_map_right_iff]
      refine texts.imp fun text other alike => ?_
      -- Both begin with the same absolute text, and the same text in front changes no location.
      obtain ⟨rest, same⟩ := isAbsolute_iff.mp (absolute start List.mem_cons_self)
      have places := stand_eq_of_alike (alike.append_left start)
      rw [← List.append_assoc, ← List.append_assoc, stand_separator, stand_separator] at places
      exact ⟨by rw [same]; rfl, by rw [same]; rfl, places⟩

/-- A folder whose text holds nothing that a pattern reads. -/
structure IsPlainFolder (folder : Text) : Prop where
  canonical : IsCanonical folder
  flat : IsFlat folder

theorem IsPlainFolder.nonempty {folder : Text} (plain : IsPlainFolder folder) : folder ≠ [] := by
  obtain ⟨rest, same⟩ := isAbsolute_iff.mp plain.canonical.isAbsolute
  simp [same]

/-- A folder joined with a pattern renders the folder with the pattern behind it. -/
theorem renders_join_folder {folder pattern : Text} (plain : IsPlainFolder folder)
    (whole : IsWhole pattern) (takes : TakesFlat [] (segments (folder ++ separator :: pattern))) :
    Renders (join [folder, pattern]) (folder ++ separator :: pattern) := by
  have absolute : isAbsolute (folder ++ separator :: pattern) := by
    obtain ⟨rest, same⟩ := isAbsolute_iff.mp plain.canonical.isAbsolute
    rw [same]
    rfl
  have original : IsWhole (folder ++ separator :: pattern) :=
    plain.flat.whole.append (isFlat_separator.whole.append whole)
  have normal : isAbsolute (normalize (folder ++ separator :: pattern)) := by
    rw [normalize_of_isAbsolute absolute]
    split
    · next inner =>
      obtain ⟨name, names, same⟩ := List.exists_cons_of_ne_nil inner.1
      rw [same]
      rfl
    · rfl
  rw [join_pair plain.nonempty]
  -- An empty pattern is left out of the join, so only the separator in front of it is missing.
  by_cases empty : pattern = []
  · subst empty
    obtain ⟨names, proper, same⟩ := plain.canonical.names
    have kept : normalize folder = folder := by rw [same, normalize_spelled proper]
    rw [if_pos rfl, kept]
    exact renders_of_alike plain.canonical.isAbsolute absolute original (alike_closed folder).symm
  · rw [if_neg empty]
    exact renders_of_alike normal absolute original (alike_normalize absolute takes)

/-- A segment that has no `..` in front of a comma. -/
def CutsName (segment : Text) : Prop :=
  ∀ front back, segment = front ++ ',' :: back → front ≠ dotDot

/-- The segments of a folder: nothing before the first separator, names, and a last segment that is no
`..`. None of them holds a comma. -/
theorem IsPlainFolder.exists_segments {folder : Text} (plain : IsPlainFolder folder) :
    ∃ names last, segments folder = [] :: (names ++ [last]) ∧ (∀ name ∈ names, IsName name)
      ∧ last ≠ dotDot ∧ ∀ segment ∈ names ++ [last], ',' ∉ segment := by
  obtain ⟨inner, proper, same⟩ := plain.canonical.names
  have comma {segment : Text} (member : segment ∈ segments folder) : ',' ∉ segment := by
    intro inside
    have flat := plain.flat ',' (mem_of_mem_segments member inside)
    cases flat
  obtain ⟨names, last, split, all, notParent⟩ : ∃ names last,
      segments folder = [] :: (names ++ [last]) ∧ (∀ name ∈ names, IsName name) ∧ last ≠ dotDot := by
    rw [same, spelled_eq]
    -- The root is a separator with nothing on both sides.
    rcases List.eq_nil_or_concat inner with rfl | ⟨names, last, rfl⟩
    · exact ⟨[], [], rfl, by simp, by decide⟩
    · rw [List.concat_eq_append] at proper ⊢
      rw [if_neg (by simp), segments_rooted fun name member => (proper name member).single]
      exact ⟨names, last, rfl, fun name member => proper name (List.mem_append_left _ member),
        (proper last (by simp)).notParent⟩
  refine ⟨names, last, split, all, notParent, fun segment member => comma ?_⟩
  rw [split]
  exact List.mem_cons_of_mem _ member

/-- The segments of folders in a row: nothing before the first one, then names, then some text. -/
theorem exists_segments_joined {folders : List Text} (nonempty : folders ≠ [])
    (plain : ∀ folder ∈ folders, IsPlainFolder folder) :
    ∃ names last, segments (joined folders) = [] :: (names ++ [last])
      ∧ ∀ name ∈ names, IsName name ∧ CutsName name := by
  induction folders with
  | nil => exact absurd rfl nonempty
  | cons folder folders ih =>
    obtain ⟨names, last, split, all, notParent, bare⟩ :=
      (plain folder List.mem_cons_self).exists_segments
    have own : ∀ name ∈ names, IsName name ∧ CutsName name := by
      intro name member
      refine ⟨all name member, fun front back cut => ?_⟩
      exact absurd (by simp [cut]) (bare name (List.mem_append_left _ member))
    cases folders with
    | nil => exact ⟨names, last, by rwa [joined, List.intercalate_singleton], own⟩
    | cons next folders =>
      obtain ⟨others, final, rest, allRest⟩ := ih (List.cons_ne_nil _ _)
        fun other member => plain other (List.mem_cons_of_mem _ member)
      -- The last segment of one folder and the empty first one of the next are glued by the comma.
      obtain ⟨front, end', start, back, one, two, whole⟩ :=
        exists_segments_append folder (joined (next :: folders)) (c := ',') (by decide)
      rw [split, ← List.cons_append] at one
      obtain ⟨rfl, same⟩ := List.append_inj' one rfl
      rw [List.singleton_inj] at same
      rw [rest, List.cons.injEq] at two
      obtain ⟨rfl, rfl⟩ := two
      subst same
      refine ⟨names ++ (last ++ [',']) :: others, final, ?_, ?_⟩
      · rw [joined, List.intercalate_cons_cons, ← joined, List.append_assoc, List.singleton_append,
          whole]
        simp
      · intro name member
        rcases List.mem_append.mp member with before | member
        · exact own name before
        · rcases List.mem_cons.mp member with rfl | behind
          · have glued : separator ∉ last ++ [','] := by
              have member : last ++ [','] ∈ segments (folder ++ ',' :: joined (next :: folders)) := by
                simp [whole]
              exact not_mem_of_mem_segments member
            refine ⟨isName_of_mem (c := ',') (by simp) (by decide) glued, ?_⟩
            intro front back cut
            -- The last name of a folder has no comma of its own, so the cut is behind it.
            have ends := (List.append_cons_inj_of_notMem (bare last (by simp)) (by simp)).mp cut
            rw [← ends.1]
            exact notParent
          · exact allRest name behind

theorem not_mem_of_exists_segments {path last : Text} {front : List Text}
    (split : segments path = front ++ [last]) : separator ∉ last := by
  have member : last ∈ segments path := by simp [split]
  exact not_mem_of_mem_segments member

/-- The group of several folders is a path of names that stay: an opening brace, names, and the end
of the last folder with the closing brace. -/
theorem exists_segments_alternation {folders : List Text} (several : 2 ≤ folders.length)
    (plain : ∀ folder ∈ folders, IsPlainFolder folder) :
    ∃ names last, segments (alternation folders) = ['{'] :: (names ++ [last ++ ['}']])
      ∧ (∀ name ∈ names, IsName name ∧ CutsName name)
      ∧ ∀ name ∈ ['{'] :: (names ++ [last ++ ['}']]), IsName name := by
  have nonempty : folders ≠ [] := List.ne_nil_of_length_pos (by omega)
  obtain ⟨names, last, split, all⟩ := exists_segments_joined nonempty plain
  -- The closing brace is glued to the last segment of the folders, the opening one to the empty first
  -- one.
  obtain ⟨front, final, one, closed⟩ :=
    exists_segments_concat (joined folders) (c := '}') (by decide)
  rw [split, ← List.cons_append] at one
  obtain ⟨rfl, same⟩ := List.append_inj' one rfl
  rw [List.singleton_inj] at same
  subst same
  obtain ⟨next, back, two, opened⟩ :=
    exists_segments_cons (joined folders ++ ['}']) (c := '{') (by decide)
  rw [closed, List.cons_append, List.cons.injEq] at two
  obtain ⟨rfl, rfl⟩ := two
  rw [alternation_of_several several, List.cons_append]
  refine ⟨names, last, opened, all, ?_⟩
  intro name member
  simp only [List.mem_cons, List.mem_append, List.not_mem_nil, or_false] at member
  rcases member with rfl | inside | rfl
  · exact isName_of_mem (c := '{') (by simp) (by decide) (by decide)
  · exact (all name inside).1
  · rw [← List.cons_append] at split
    exact isName_of_mem (c := '}') (by simp) (by decide)
      (by simpa using ⟨not_mem_of_exists_segments split, by decide⟩)

theorem denoted_alternation_folders {folders : List Text} (nonempty : folders ≠ [])
    (plain : ∀ folder ∈ folders, IsPlainFolder folder) :
    IsWhole (alternation folders) ∧ denoted (lex (alternation folders)) = folders := by
  obtain ⟨whole, found⟩ := denoted_alternation_of_isWhole nonempty fun folder member =>
    (plain folder member).flat.whole
  refine ⟨whole, found.trans ?_⟩
  have each : folders.flatMap (denoted ∘ lex) = folders.flatMap fun folder => [folder] :=
    List.flatMap_congr fun folder member => denoted_of_isFlat (plain folder member).flat
  rw [each]
  simp

/-- All folders joined with a pattern render every folder with the pattern behind it. -/
theorem renders_join_folders {folders : List Text} {pattern : Text} (several : 2 ≤ folders.length)
    (plain : ∀ folder ∈ folders, IsPlainFolder folder) (whole : IsWhole pattern)
    (filled : pattern ≠ []) (takes : TakesFlat [] (segments pattern)) :
    Renders (join [alternation folders, pattern])
      (alternation folders ++ separator :: pattern) := by
  have nonempty : folders ≠ [] := List.ne_nil_of_length_pos (by omega)
  obtain ⟨group, found⟩ := denoted_alternation_folders nonempty plain
  obtain ⟨names, last, split, -, proper⟩ := exists_segments_alternation several plain
  obtain ⟨tail, normal, -, alike⟩ := normalize_append split proper takes
  have text : alternation folders ≠ [] := by
    rw [alternation_of_several several]
    simp
  rw [join_pair text, if_neg filled, normal]
  refine renders_append group ?_ (isFlat_separator.whole.append whole) alike
  rw [found]
  exact fun folder member => (plain folder member).canonical.isAbsolute

/-- Folders with a group of patterns behind them denote what the folders denote with each of the
patterns behind them. -/
theorem denoted_folders_patterns {folders patterns : List Text} (nonempty : folders ≠ [])
    (plain : ∀ folder ∈ folders, IsPlainFolder folder) (filled : patterns ≠ [])
    (wholes : ∀ pattern ∈ patterns, IsWhole pattern) :
    denoted (lex (alternation folders ++ separator :: alternation patterns))
      = (folders.flatMap fun folder => patterns.map fun pattern =>
          folder ++ separator :: pattern).flatMap fun text => denoted (lex text) := by
  obtain ⟨group, found⟩ := denoted_alternation_folders nonempty plain
  obtain ⟨closed, texts⟩ := denoted_alternation_of_isWhole filled wholes
  have each (folder : Text) (member : folder ∈ folders) (pattern : Text) (among : pattern ∈ patterns) :
      denoted (lex (folder ++ separator :: pattern))
        = (denoted (lex pattern)).map fun text => folder ++ separator :: text := by
    have front : IsFlat (folder ++ [separator]) :=
      isFlat_append.mpr ⟨(plain folder member).flat, isFlat_separator⟩
    have same := denoted_flat_append front (wholes pattern among)
    simpa using same
  rw [← List.singleton_append, denoted_append group (isFlat_separator.whole.append closed), found,
    denoted_flat_append isFlat_separator closed, texts, List.flatMap_assoc, product]
  -- Both sides are rows of the product now, one folder after the other.
  refine List.flatMap_congr fun folder member => ?_
  rw [List.flatMap_map, List.map_map, List.map_flatMap]
  refine List.flatMap_congr fun pattern among => ?_
  rw [each folder member pattern among]
  rfl

end RootedGlob.Anchoring
