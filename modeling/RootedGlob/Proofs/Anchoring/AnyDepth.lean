import RootedGlob.Proofs.Anchoring.Inert
import RootedGlob.Proofs.Glob.Segments
import RootedGlob.Proofs.Glob.Selection

/-!
# What a pattern that names no folder selects

A single token whose first segment is no folder stands at any depth below every folder. Anchoring puts
the folders into one group with the token behind it, so the combined glob denotes as many places as
there are folders (`renders_anchor`), and compiles if these are not too many. It selects a file if
some folder covers it and consecutive names below the folder fit the segments of the token
(`isMatch_anchor_iff`).
-/

namespace RootedGlob.Anchoring

open RootedGlob.Path Brace Glob PatternList

/-- A token that applies to every folder at any depth: a relative path of name patterns whose first
segment is the name of no folder. -/
structure IsNamePath (folders : List Text) (token : Text) : Prop where
  proper : ∀ segment ∈ segments token, IsNamePattern segment
  dotless : token.head? ≠ some '.'
  unnamed : ∀ folder ∈ folders, basename folder ≠ firstSegment token

namespace IsNamePath

variable {folders : List Text} {token : Text}

theorem name (general : IsNamePath folders token) : ∀ segment ∈ segments token, IsName segment :=
  fun segment member => (general.proper segment member).name

theorem filled (general : IsNamePath folders token) : token ≠ [] := by
  rintro rfl
  exact (general.name [] (by rw [segments_nil]; exact List.mem_cons_self)).nonempty rfl

theorem flat (general : IsNamePath folders token) : IsFlat (rooted (anyDepth :: segments token)) := by
  intro c member
  obtain ⟨segment, among, inside⟩ := List.mem_flatMap.mp member
  rcases List.mem_cons.mp inside with rfl | inside
  · decide
  · rcases List.mem_cons.mp among with rfl | among
    · rw [List.eq_of_mem_replicate (n := 2) inside]
      decide
    · have absent := (general.proper segment among).plain c inside
      simp only [List.mem_cons, List.not_mem_nil, or_false, not_or] at absent
      simp [isFlatChar, absent]

theorem isName_deep (general : IsNamePath folders token) :
    ∀ name ∈ anyDepth :: segments token, IsName name := by
  refine List.forall_mem_cons.mpr ⟨?_, general.name⟩
  exact isName_of_mem (c := '*') (by decide) (by decide) (by decide)

theorem isGeneral (general : IsNamePath folders token) : isGeneral folders token := by
  obtain ⟨first, names, split, whole⟩ := exists_segments token
  have relative : isAbsolute token = false := by
    rw [whole]
    exact isAbsolute_append_of_isName (general.name first (by rw [split]; exact List.mem_cons_self)) _
  simpa [Anchoring.isGeneral, relative] using general.unnamed

theorem isInner (general : IsNamePath folders token) : IsInner token := by
  have flat : IsFlat token := by
    intro c member
    have inside : c ∈ rooted (segments token) := by
      rw [rooted_segments]
      exact List.mem_cons_of_mem _ member
    exact general.flat c (List.mem_cons_of_mem _ (List.mem_append_right _ inside))
  exact ⟨general.filled, flat.whole, dotDot_not_mem_names general.name⟩

/-- Behind its `**` the token keeps its spelling. -/
theorem separator_spread (general : IsNamePath folders token) :
    separator :: spread token = rooted (anyDepth :: segments token) := by
  have path : anyDepth ++ separator :: token = anyDepth ++ rooted (segments token) := by
    rw [rooted_segments]
  have proper := general.isName_deep
  have resolved : resolve (anyDepth ++ rooted (segments token)) = anyDepth :: segments token := by
    have relative : isAbsolute (anyDepth ++ rooted (segments token)) = false := rfl
    rw [resolve, relative, segments_append_rooted _ fun name member => (general.name name member).single,
      segments_single (by decide), List.singleton_append, foldl_walk_names false [] proper]
    simp
  have unclosed : endsWithSeparator (anyDepth ++ rooted (segments token)) = false := by
    have ends := endsWithSeparator_rooted proper
    rwa [rooted_cons, endsWithSeparator, List.getLast?_cons_of_ne_nil] at ends
    simp [anyDepth]
  rw [spread, if_neg general.dotless, join_pair (by decide), if_neg general.filled, path,
    normalize_of_resolve rfl resolved (by decide), if_neg (by simp [unclosed]), rooted_cons]

/-- A place at any depth below a folder is compiled from its spelling. -/
theorem plainText_eq (general : IsNamePath folders token) {folder text : Text}
    (plain : IsPlainFolder folder)
    (place : SamePlace text (folder ++ rooted (anyDepth :: segments token))) :
    plainText text = spelled (location folder ++ anyDepth :: segments token) := by
  have same : location text = location folder ++ anyDepth :: segments token := by
    rw [← location_append_rooted folder general.isName_deep, location, place.place, location]
  rw [plainText_of_isAbsolute place.absolute, same]
  apply unescape_of_not_mem
  intro member
  rcases mem_spelled member with slash | ⟨name, among, inside⟩
  · exact absurd slash (by decide)
  · rcases List.mem_append.mp among with above | below
    · exact plain.canonical.noBackslash
        (mem_of_mem_segments (mem_segments_of_mem_location above) inside)
    · have flat := general.flat '\\' (List.mem_flatMap.mpr ⟨name, below, List.mem_cons_of_mem _ inside⟩)
      exact absurd flat (by decide)

end IsNamePath

section Anchor

variable {folders : List Text} {list token : Text} (nonempty : folders ≠ [])
  (plain : ∀ folder ∈ folders, IsPlainFolder folder) (single : tokens list = [token])
  (general : IsNamePath folders token)

include nonempty plain single general

/-- Anchoring a general token puts it, at any depth, behind the group of all folders. -/
theorem renders_anchor :
    Renders (anchor folders list) (alternation folders ++ rooted (anyDepth :: segments token)) := by
  obtain ⟨relative, unnamed⟩ := isGeneral_iff.mp general.isGeneral
  have others : [token].filter (isGeneral folders) = [token] := by simp [general.isGeneral]
  have placeable := @placeable_of_isInner folders [token] nonempty plain (by
    simpa using general.isInner)
  have renders := placeable.joinsSpread (by simp [others])
  have joined : anchor folders list = join [alternation folders, spread token] := by
    rw [anchor, single, ofTokens_eq, Plan.alternatives, others]
    simp [mentioned, relative, unnamed, alternation]
  rw [others, List.map_singleton, alternation, general.separator_spread] at renders
  rwa [joined]

theorem countGroups_anchor_le_one : countGroups (anchor folders list) ≤ 1 := by
  have renders := renders_anchor nonempty plain single general
  have wholes : ∀ folder ∈ folders, IsWhole folder := fun folder member =>
    (plain folder member).flat.whole
  have none : (folders.map countGroups).sum = 0 :=
    List.sum_eq_zero (List.forall_mem_map.mpr fun folder member =>
      countGroups_of_isFlat (plain folder member).flat)
  rw [renders.groups, countGroups_append (denoted_alternation_of_isWhole nonempty wholes).1.unguarded
    general.flat.unguarded, countGroups_of_isFlat general.flat, countGroups_alternation wholes, none]
  split <;> decide

/-- The places that an anchored general token denotes are those of the token below each folder. -/
theorem map_plainText_anchor : (denoted (lex (anchor folders list))).map plainText
    = folders.map fun folder => spelled (location folder ++ anyDepth :: segments token) := by
  have places := (renders_anchor nonempty plain single general).places
  obtain ⟨group, found⟩ := denoted_alternation_folders nonempty plain
  rw [denoted_append_flat group general.flat, found, List.forall₂_map_right_iff] at places
  have each {folder text : Text} (member : folder ∈ folders) :=
    @general.plainText_eq _ _ folder text (plain folder member)
  -- From here on only the places of the texts count, not how anchoring came to them.
  clear nonempty plain single general group found
  generalize denoted (lex (anchor folders list)) = texts at places
  induction places with
  | nil => rfl
  | cons head _ ih =>
    rw [List.map_cons, List.map_cons, each List.mem_cons_self head,
      ih fun member => each (List.mem_cons_of_mem _ member)]

/-- With a general token, an anchored list expands exactly if there are not too many folders. -/
theorem expand_anchor_iff {texts : List Text} : expand (anchor folders list) = .ok texts
    ↔ folders.length ≤ maxExpansions ∧ texts = denoted (lex (anchor folders list)) := by
  have renders := renders_anchor nonempty plain single general
  have few := countGroups_anchor_le_one nonempty plain single general
  have total := congrArg List.length (map_plainText_anchor nonempty plain single general)
  rw [List.length_map, List.length_map] at total
  rw [expand_eq_ok_iff, total]
  have room : countGroups (anchor folders list) ≤ maxGroups := Nat.le_trans few (by decide)
  simp [room, depthAfter_of_isSealed renders.whole.closed]

end Anchor

section Compile

variable {folders : List Text} {list token : Text} (inert : ∀ folder ∈ folders, IsInertFolder folder)
  (general : IsNamePath folders token)

include inert general

/-- Below each folder stands one pattern, which matches the segments that the token fits. -/
theorem compile_deep {folder : Text} (member : folder ∈ folders) :
    ∃ pattern, Pattern.compile (spelled (location folder ++ anyDepth :: segments token)) = .ok pattern
      ∧ ∀ text, Matches pattern.tokens text ↔ ∃ behind, text = rooted (location folder) ++ '/' :: behind
        ∧ AfterDirectories (fun rest => List.Forall₂ Fits (segments token) (segments rest)) true behind :=
  compile_anyDepth (fun _ among => ((inert folder member).inert.of_mem_segments
    (mem_segments_of_mem_location among)).verbatim) (segments_ne_nil token) general.proper

variable (nonempty : folders ≠ []) (single : tokens list = [token])

include nonempty single

theorem isBlankText_anchor : Text.isBlankText (anchor folders list) = false := by
  have places := (renders_anchor nonempty (fun folder member => (inert folder member).plain) single
    general).places
  refine isBlankText_of_denoted fun text member => ?_
  obtain ⟨other, -, same⟩ := exists_of_forall₂ places.flip member
  exact same.absolute

/-- With a general token, an anchored list compiles exactly if there are not too many folders. -/
theorem compile_anchor_iff :
    (∃ glob, Combined.compile (anchor folders list) = .ok glob) ↔ folders.length ≤ maxExpansions := by
  have plain : ∀ folder ∈ folders, IsPlainFolder folder := fun folder member => (inert folder member).plain
  have filled := isBlankText_anchor inert general nonempty single
  have expands := @expand_anchor_iff _ _ _ nonempty plain single general
  constructor
  · rintro ⟨glob, compiled⟩
    obtain ⟨texts, expanded, -, -⟩ := Combined.alternatives_eq filled compiled
    exact (expands.mp expanded).1
  · intro few
    -- Every text the list denotes is that of some folder, and each of these compiles for itself.
    have compiles : ∀ text ∈ denoted (lex (anchor folders list)), Compiles text := by
      intro text member
      have among : plainText text ∈ (denoted (lex (anchor folders list))).map plainText :=
        List.mem_map_of_mem member
      rw [map_plainText_anchor nonempty plain single general] at among
      obtain ⟨folder, inside, same⟩ := List.mem_map.mp among
      obtain ⟨pattern, compiled, -⟩ := compile_deep inert general inside
      exact ⟨pattern, same ▸ compiled⟩
    obtain ⟨glob, compiled, -⟩ := Combined.exists_compile filled (expands.mpr ⟨few, rfl⟩) compiles
    exact ⟨glob, compiled⟩

/-- Its alternatives are the places of the token at any depth below each folder. -/
theorem mem_alternatives_anchor {glob : Combined}
    (compiled : Combined.compile (anchor folders list) = .ok glob) {alternative : Text} :
    alternative ∈ glob.alternatives
      ↔ ∃ folder ∈ folders, alternative = spelled (location folder ++ anyDepth :: segments token) := by
  have plain : ∀ folder ∈ folders, IsPlainFolder folder := fun folder member => (inert folder member).plain
  have filled := isBlankText_anchor inert general nonempty single
  obtain ⟨texts, expanded, -, alternatives⟩ := Combined.alternatives_eq filled compiled
  obtain ⟨-, rfl⟩ := (expand_anchor_iff nonempty plain single general).mp expanded
  rw [alternatives, map_plainText_anchor nonempty plain single general, List.mem_eraseDups, List.mem_map]
  simp only [eq_comm]

end Compile

/-- A token that names no folder selects the files in a folder that have, somewhere below the folder,
consecutive names that fit its segments. It compiles as long as there are not too many folders. -/
theorem isMatch_anchor_iff {paths : List Text} {folders : Folders} {list token : Text}
    (built : Folders.ofPaths paths = .ok folders) (nonempty : folders.paths ≠ [])
    (literal : ∀ folder ∈ folders.paths, IsLiteral folder) (single : tokens list = [token])
    (general : IsNamePath folders.paths token) :
    ((∃ glob, Combined.compile (anchor folders.paths list) = .ok glob)
        ↔ folders.paths.length ≤ maxExpansions)
      ∧ ∀ glob, Combined.compile (anchor folders.paths list) = .ok glob →
        ∀ file, IsCanonical file → file ≠ [separator] →
          (glob.isMatch file ↔ ∃ folder ∈ folders.paths, Folders.covers folder file
            ∧ ∃ run, run <:+: (location file).drop (location folder).length
              ∧ List.Forall₂ Fits (segments token) run) := by
  have inert : ∀ folder ∈ folders.paths, IsInertFolder folder := fun folder member =>
    isInertFolder_of_isLiteral (Folders.isCanonical_of_mem_paths built member) (literal folder member)
  refine ⟨compile_anchor_iff inert general nonempty single, fun glob compiled file canonical inner => ?_⟩
  have alternatives (alternative : Text) :=
    @mem_alternatives_anchor _ _ _ inert general nonempty single glob compiled alternative
  have below : ∀ name ∈ location file, IsName name := fun _ => isName_of_mem_location
  have filled : location file ≠ [] := by
    intro root
    have spelling := canonical.spelling
    rw [root] at spelling
    exact inner spelling
  -- A file is selected through one of its beginnings, a pattern through one of the folders.
  have selects := Combined.isMatch_iff compiled below (canonical.spelling ▸ canonical.noBackslash)
  rw [← canonical.spelling] at selects
  rw [selects]
  constructor
  · rintro ⟨front, start, alternative, member, pattern, compiles, matched⟩
    obtain ⟨folder, among, rfl⟩ := (alternatives alternative).mp member
    obtain ⟨same, compiles', fits⟩ := compile_deep inert general among
    rw [compiles, Except.ok.injEq] at compiles'
    subst compiles'
    have found := (exists_anyDepth_iff (fun _ => isName_of_mem_location) (segments_ne_nil token)
      general.proper below filled).mp ⟨front, start, (fits _).mp matched⟩
    exact ⟨folder, among, (Folders.covers_iff (inert folder among).canonical canonical).mpr found.1,
      found.2⟩
  · rintro ⟨folder, among, covered, run⟩
    obtain ⟨pattern, compiles, fits⟩ := compile_deep inert general among
    obtain ⟨front, start, behind⟩ := (exists_anyDepth_iff (fun _ => isName_of_mem_location)
      (segments_ne_nil token) general.proper below filled).mpr
        ⟨(Folders.covers_iff (inert folder among).canonical canonical).mp covered, run⟩
    exact ⟨front, start, _, (alternatives _).mpr ⟨folder, among, rfl⟩, pattern, compiles,
      (fits _).mpr behind⟩

theorem isMatch_anchor_iff_wildcards :
    Folders.ofPaths ["/w/a".toList, "/".toList] = .ok ⟨["/w/a".toList, "/".toList]⟩
      ∧ ["/w/a".toList, "/".toList] ≠ []
      ∧ (∀ folder ∈ ["/w/a".toList, "/".toList], IsLiteral folder)
      ∧ tokens "s?c/*.rs".toList = ["s?c/*.rs".toList]
      ∧ IsNamePath ["/w/a".toList, "/".toList] "s?c/*.rs".toList
      ∧ ∃ glob, Combined.compile (anchor ["/w/a".toList, "/".toList] "s?c/*.rs".toList) = .ok glob
        ∧ glob.isMatch "/w/a/b/src/m.rs/f".toList := by
  have built : Folders.ofPaths ["/w/a".toList, "/".toList] = .ok ⟨["/w/a".toList, "/".toList]⟩ := by
    decide +kernel
  have literal : ∀ folder ∈ ["/w/a".toList, "/".toList], IsLiteral folder := by decide
  have single : tokens "s?c/*.rs".toList = ["s?c/*.rs".toList] := by decide +kernel
  have split : segments "s?c/*.rs".toList = ["s?c".toList, "*.rs".toList] := by decide +kernel
  have general : IsNamePath ["/w/a".toList, "/".toList] "s?c/*.rs".toList := by
    refine ⟨?_, by decide, by decide⟩
    rw [split]
    decide +kernel
  obtain ⟨compiles, selects⟩ := isMatch_anchor_iff built (by decide) literal single general
  obtain ⟨glob, compiled⟩ := compiles.mpr (by decide)
  refine ⟨built, by decide, literal, single, general, glob, compiled, ?_⟩
  have place : location "/w/a/b/src/m.rs/f".toList
      = ["w".toList, "a".toList, "b".toList, "src".toList, "m.rs".toList, "f".toList] := by decide +kernel
  have canonical : IsCanonical "/w/a/b/src/m.rs/f".toList := by
    refine ⟨?_, by decide⟩
    rw [place]
    decide
  rw [selects glob compiled _ canonical (by decide)]
  refine ⟨"/w/a".toList, by decide, by decide, ["src".toList, "m.rs".toList], ?_, ?_⟩
  · rw [place]
    decide +kernel
  · rw [split]
    refine .cons ?_ (.cons ?_ .nil)
    · exact .literal (by decide) (.mark 'r' (.literal (by decide) .nothing))
    · exact .star ['m'] (.literal (by decide) (.literal (by decide) (.literal (by decide) .nothing)))

/-- One folder more than a combined glob may have texts. -/
def manyRoots : List Text := List.replicate (maxExpansions + 1) [separator]

/-- Over too many folders the simplest token does not compile, and a path with a separator at its end is
not selected for its last name. -/
theorem not_selects_manyRoots :
    Folders.ofPaths manyRoots = .ok ⟨manyRoots⟩ ∧ manyRoots ≠ []
      ∧ (∀ folder ∈ manyRoots, IsLiteral folder) ∧ tokens "x".toList = ["x".toList]
      ∧ IsNamePath manyRoots "x".toList
      ∧ (¬ ∃ glob, Combined.compile (anchor manyRoots "x".toList) = .ok glob)
      ∧ normalize "/a/x/".toList = "/a/x/".toList ∧ Folders.covers "/a".toList "/a/x/".toList
      ∧ Fits "x".toList "x".toList
      ∧ ∃ glob, Combined.compile (anchor ["/a".toList] "x".toList) = .ok glob
        ∧ ¬ glob.isMatch "/a/x/".toList := by
  have root : ∀ folder ∈ manyRoots, folder = [separator] := fun _ => List.eq_of_mem_replicate
  have filled : manyRoots ≠ [] := by simp [manyRoots]
  -- The folders are too many to compute with, so their normalization goes by their number.
  have built : Folders.ofPaths manyRoots = .ok ⟨manyRoots⟩ := by
    have each (count : Nat) : List.Forall₂ (fun path folder => Folders.normalizeFolder path = .ok folder)
        (List.replicate count [separator]) (List.replicate count [separator]) := by
      induction count with
      | zero => exact .nil
      | succ count ih => exact .cons rfl ih
    rw [Folders.ofPaths, manyRoots, mapM_eq_ok_iff.mpr (each _)]
    rfl
  have literal : ∀ folder ∈ manyRoots, IsLiteral folder := by
    intro folder member
    rw [root folder member]
    decide
  have single : tokens "x".toList = ["x".toList] := by decide +kernel
  have general : IsNamePath manyRoots "x".toList := by
    refine ⟨?_, by decide, fun folder member => ?_⟩
    · rw [segments_single (by decide), List.forall_mem_singleton]
      decide +kernel
    · rw [root folder member]
      decide
  have inert : ∀ folder ∈ manyRoots, IsInertFolder folder := fun folder member =>
    isInertFolder_of_isLiteral (Folders.isCanonical_of_mem_paths built member) (literal folder member)
  refine ⟨built, filled, literal, single, general, ?_, by decide, by decide,
    .literal (by decide) .nothing, ?_⟩
  · rw [compile_anchor_iff inert general filled single, manyRoots, List.length_replicate]
    exact Nat.not_succ_le_self _
  · -- One folder is enough for the second part, and its glob is small enough to be written down.
    refine ⟨⟨"/a/**/x".toList, [⟨"/a/**/x".toList, [.literal '/', .literal 'a', .literal '/',
      .anyDirectories, .literal 'x']⟩]⟩, ?_, ?_⟩
    · decide +kernel
    · decide +kernel

end RootedGlob.Anchoring
