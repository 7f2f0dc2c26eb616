import RootedGlob.Proofs.Anchoring.Layout
import RootedGlob.Proofs.Glob.Combined
import RootedGlob.Proofs.PatternList.Tokens

/-!
# An anchored pattern list selects what its tokens select

Anchoring wraps folders and tokens into groups and normalizes the result as one text, before the
groups are expanded; a token by itself would be expanded first and normalized afterwards. Without
`..` the order makes no difference: the alternatives of the anchored list are those of its tokens,
each put behind its folder or behind every folder (`alternatives_anchor`).
-/

namespace RootedGlob.Anchoring

open RootedGlob.Path Brace Glob PatternList

/-- The text of a token behind its first segment. -/
def behindFirst (token : Text) : Text := (token.dropWhile (· != separator)).drop 1

/-- A general token, as it is written behind every folder. -/
def written (token : Text) : Text :=
  if token.head? = some '.' then token else anyDepth ++ separator :: token

theorem firstSegment_eq {token first : Text} {names : List Text}
    (split : segments token = first :: names) :
    firstSegment token = first ∧ behindFirst token = (rooted names).drop 1 := by
  have whole : token = first ++ rooted names := by
    rw [← ofSegments_cons, ← split, ofSegments_segments]
  have single : separator ∉ first := by
    have member : first ∈ segments token := by rw [split]; exact List.mem_cons_self
    exact not_mem_of_mem_segments member
  have ordinary : ∀ c ∈ first, (c != separator) = true := by
    intro c member
    simpa using fun same : c = separator => single (same ▸ member)
  have stops : (rooted names).takeWhile (· != separator) = []
      ∧ (rooted names).dropWhile (· != separator) = rooted names := by
    cases names with
    | nil => exact ⟨rfl, rfl⟩
    | cons name names => simp
  rw [firstSegment, behindFirst, whole, List.takeWhile_append_of_pos ordinary,
    List.dropWhile_append_of_pos ordinary, stops.1, stops.2, List.append_nil]
  exact ⟨rfl, rfl⟩

theorem alike_behindFirst {token first : Text} {names : List Text}
    (split : segments token = first :: names) :
    Alike (separator :: behindFirst token ++ [separator]) (rooted names ++ [separator]) := by
  rw [(firstSegment_eq split).2]
  cases names with
  | nil => exact alike_closed []
  | cons name names => exact .refl _

/-- The path of a token inside its folder, if no `..` of the token leaves the folder. -/
theorem inside_eq {token first : Text} {names : List Text} (split : segments token = first :: names)
    (proper : IsName first) (takes : TakesFlat [] names) :
    inside token = ofSegments (names.foldl (walk true) []).reverse := by
  have whole : token = first ++ rooted names := by
    rw [← ofSegments_cons, ← split, ofSegments_segments]
  have target : resolve token = first :: (names.foldl (walk true) []).reverse := by
    have walked := foldl_walk_append false takes [first]
    rw [List.nil_append] at walked
    rw [resolve, split, whole, isAbsolute_append_of_isName proper, List.foldl_cons,
      walk_name _ _ proper, walked]
    simp
  simp [inside, Path.relative, (firstSegment_eq split).1, resolve_name proper, target,
    commonLength]

theorem alike_inside {token first : Text} {names : List Text} (split : segments token = first :: names)
    (proper : IsName first) (takes : TakesFlat [] names) :
    Alike (separator :: inside token ++ [separator]) (separator :: behindFirst token ++ [separator]) := by
  refine Alike.trans ?_ (alike_behindFirst split).symm
  have walked := alike_walk takes []
  rw [List.reverse_nil, rooted_nil, List.nil_append] at walked
  refine Alike.trans ?_ walked.symm
  rw [inside_eq split proper takes, ← spelled, spelled_eq]
  split
  · next empty =>
    rw [empty]
    exact alike_closed []
  · exact .refl _

theorem alike_spread {token : Text} (dotless : token.head? ≠ some '.')
    (takes : TakesFlat [] (segments token)) (filled : token ≠ []) :
    ∃ tail, spread token = anyDepth ++ tail
      ∧ (tail = rooted (location token) ∨ tail = rooted (location token) ++ [separator])
      ∧ Alike (tail ++ [separator]) (separator :: token ++ [separator]) := by
  have proper : ∀ name ∈ [anyDepth], IsName name := by
    intro name member
    rw [List.mem_singleton.mp member]
    exact isName_of_mem (c := '*') (by decide) (by decide) (by decide)
  rw [spread, if_neg dotless, join_pair (by decide), if_neg filled]
  exact normalize_append (segments_single (by decide)) proper takes

theorem dotDot_not_mem_append {first second : Text} {c : Char} (other : c ≠ separator)
    (notDot : c ≠ '.') (one : dotDot ∉ segments first) (two : dotDot ∉ segments second) :
    dotDot ∉ segments (first ++ c :: second) := by
  obtain ⟨front, last, next, back, before, behind, whole⟩ :=
    exists_segments_append first second other
  rw [whole]
  intro member
  rcases List.mem_append.mp member with inside | member
  · exact one (by rw [before]; exact List.mem_append_left _ inside)
  · rcases List.mem_cons.mp member with same | inside
    · have among : c ∈ dotDot := by rw [same]; simp
      simp [dotDot, notDot] at among
    · exact two (by rw [behind]; exact List.mem_cons_of_mem _ inside)

/-- Putting patterns into a group makes no `..` segment. -/
theorem dotDot_not_mem_alternation {patterns : List Text}
    (absent : ∀ pattern ∈ patterns, dotDot ∉ segments pattern) :
    dotDot ∉ segments (alternation patterns) := by
  -- Each comma glues the last segment of one pattern to the first of the next, and no glued segment is
  -- `..`.
  have inside : dotDot ∉ segments (joined patterns) := by
    induction patterns with
    | nil => decide
    | cons pattern patterns ih =>
      have rest := ih fun other member => absent other (List.mem_cons_of_mem _ member)
      have first := absent pattern List.mem_cons_self
      cases patterns with
      | nil => rwa [joined, List.intercalate_singleton]
      | cons next patterns =>
        rw [joined, List.intercalate_cons_cons, ← joined, List.append_assoc, List.singleton_append]
        exact dotDot_not_mem_append (by decide) (by decide) first rest
  cases patterns with
  | nil => decide
  | cons single patterns =>
    cases patterns with
    | nil => exact absent single List.mem_cons_self
    | cons next patterns =>
      have none : dotDot ∉ segments [] := by decide
      have closed := dotDot_not_mem_append (c := '}') (by decide) (by decide) inside none
      exact dotDot_not_mem_append (c := '{') (by decide) (by decide) none closed

theorem dotDot_not_mem_names {names : List Text} (proper : ∀ name ∈ names, IsName name) :
    dotDot ∉ names := fun member => (proper dotDot member).notParent rfl

theorem dotDot_not_mem_ofSegments {names : List Text} (proper : ∀ name ∈ names, IsName name) :
    dotDot ∉ segments (ofSegments names) := by
  by_cases empty : names = []
  · rw [empty]
    decide
  · rw [segments_ofSegments empty fun name member => (proper name member).single]
    exact dotDot_not_mem_names proper

theorem dotDot_not_mem_folder {folder : Text} (canonical : IsCanonical folder) :
    dotDot ∉ segments folder := by
  obtain ⟨names, proper, same⟩ := canonical.names
  rw [same, spelled_eq]
  split
  · decide
  · rw [segments_rooted fun name member => (proper name member).single]
    simpa [dotDot] using dotDot_not_mem_names proper

/-- What the tokens of a list have to be for the order of expansion and normalization not to
matter. -/
structure IsInner (token : Text) : Prop where
  filled : token ≠ []
  whole : IsWhole token
  noParent : dotDot ∉ segments token

/-- The name of a folder in front of a token. -/
theorem isName_firstSegment {folders : List Text} {token folder : Text}
    (plain : ∀ folder ∈ folders, IsPlainFolder folder) (filled : token ≠ [])
    (found : home? folders token = some folder) :
    IsName (firstSegment token) ∧ IsFlat (firstSegment token) := by
  obtain ⟨member, relative, named⟩ := mem_of_home? found
  obtain ⟨names, proper, same⟩ := (plain folder member).canonical.names
  have flat := (plain folder member).flat
  obtain ⟨first, rest, split, whole⟩ := exists_segments token
  -- A token whose first segment is empty is empty or absolute, and names no folder.
  have nonempty : firstSegment token ≠ [] := by
    rw [(firstSegment_eq split).1]
    rintro rfl
    cases rest with
    | nil => exact filled whole
    | cons name rest =>
      rw [whole] at relative
      cases relative
  rw [same, basename_spelled proper] at named
  -- The root has no name, so the folder ends with a name, which is the segment.
  rcases List.eq_nil_or_concat names with rfl | ⟨front, last, rfl⟩
  · exact absurd named.symm nonempty
  · rw [List.concat_eq_append] at proper same named
    have last_eq : last = firstSegment token := by simpa using named
    rw [← last_eq]
    refine ⟨proper last (by simp), fun c inside => flat c ?_⟩
    rw [same, spelled_eq, if_neg (by simp), rooted_append]
    simp [inside]

/-- Behind its folder, a token that stays inside may be spelled as it is written. -/
theorem renders_inside {folders : List Text} {token folder : Text}
    (plain : ∀ folder ∈ folders, IsPlainFolder folder) (inner : IsInner token)
    (found : home? folders token = some folder) :
    Renders (folder ++ separator :: inside token) (folder ++ separator :: behindFirst token)
      ∧ IsWhole (folder ++ separator :: behindFirst token) ∧ IsWhole (inside token)
      ∧ dotDot ∉ segments (inside token) := by
  obtain ⟨proper, flat⟩ := isName_firstSegment plain inner.filled found
  obtain ⟨first, names, split, whole⟩ := exists_segments token
  rw [(firstSegment_eq split).1] at proper flat
  have absent : dotDot ∉ names := by
    have noParent := inner.noParent
    rw [split] at noParent
    exact fun member => noParent (List.mem_cons_of_mem _ member)
  have takes := takesFlat_of_not_mem absent []
  have folderPlain := plain folder (mem_of_home? found).1
  -- The first segment is flat, so cutting it off leaves the groups of the token as they are.
  have behind : IsWhole (separator :: behindFirst token) := by
    have rest : IsWhole (rooted names) := by
      have all := inner.whole
      rw [whole] at all
      exact .of_append flat.whole all
    rw [(firstSegment_eq split).2]
    cases names with
    | nil => exact isFlat_separator.whole
    | cons name names => exact rest
  have alike := alike_inside split proper takes
  have front := folderPlain.flat.whole
  have places : ∀ text ∈ denoted (lex folder), isAbsolute text := by
    rw [denoted_of_isFlat folderPlain.flat]
    simpa using folderPlain.canonical.isAbsolute
  refine ⟨renders_append front places behind alike, front.append behind, ?_, ?_⟩
  · exact .of_append isFlat_separator.whole (alike_denoted behind alike).1
  · -- What the walk leaves of the names are names again.
    have names_inside : ∀ name ∈ (names.foldl (walk true) []).reverse, IsName name := by
      intro name member
      refine isName_of_mem_foldl (by simp) (fun segment among => ?_) name
        (List.mem_reverse.mp member)
      have found : segment ∈ segments token := by rw [split]; exact List.mem_cons_of_mem _ among
      exact not_mem_of_mem_segments found
    rw [inside_eq split proper takes]
    exact dotDot_not_mem_ofSegments names_inside

/-- Behind every folder, a general token may be spelled as it is written. -/
theorem renders_spread {folder token : Text} (plain : IsPlainFolder folder) (inner : IsInner token) :
    Renders (folder ++ separator :: spread token) (folder ++ separator :: written token)
      ∧ IsWhole (folder ++ separator :: written token) ∧ IsWhole (spread token)
      ∧ dotDot ∉ segments (spread token) ∧ spread token ≠ [] := by
  have front := plain.flat.whole.append isFlat_separator.whole
  have absolute (rest : Text) : isAbsolute (folder ++ rest) := by
    obtain ⟨names, same⟩ := isAbsolute_iff.mp plain.canonical.isAbsolute
    rw [same]
    rfl
  -- A token that begins with a dot is written as it is; any other one is spread by `**`.
  by_cases dotted : token.head? = some '.'
  · have whole := front.append inner.whole
    rw [List.append_assoc, List.singleton_append] at whole
    rw [spread, written, if_pos dotted, if_pos dotted]
    exact ⟨.refl whole (absolute _), whole, inner.whole, inner.noParent, inner.filled⟩
  · obtain ⟨tail, same, spelling, alike⟩ :=
      alike_spread dotted (takesFlat_of_not_mem inner.noParent []) inner.filled
    have any : IsFlat anyDepth := by decide
    have behind : IsWhole (separator :: token) := isFlat_separator.whole.append inner.whole
    have before : IsWhole (folder ++ [separator] ++ anyDepth) := front.append any.whole
    have places : ∀ text ∈ denoted (lex (folder ++ [separator] ++ anyDepth)), isAbsolute text := by
      rw [denoted_of_isFlat
        (isFlat_append.mpr ⟨isFlat_append.mpr ⟨plain.flat, isFlat_separator⟩, any⟩),
        List.append_assoc]
      simpa using absolute _
    have renders := renders_append before places behind alike
    have whole := before.append behind
    simp only [List.append_assoc, List.singleton_append] at renders whole
    rw [written, if_neg dotted, same]
    refine ⟨renders, whole, any.whole.append (alike_denoted behind alike).1, ?_, by simp [anyDepth]⟩
    -- The spread token is `**` with the names of its location behind it, and perhaps a separator.
    have proper : ∀ name ∈ location token, IsName name := fun _ => isName_of_mem_location
    have single : ∀ name ∈ location token, separator ∉ name := fun name member =>
      (proper name member).single
    have alone : segments anyDepth = [anyDepth] := segments_single (by decide)
    have split := segments_append_rooted anyDepth single
    rw [alone] at split
    rcases spelling with rfl | rfl
    · rw [split]
      simpa [dotDot, anyDepth] using dotDot_not_mem_names proper
    · rw [← List.append_assoc, segments_append, split, segments_nil]
      simpa [dotDot, anyDepth] using dotDot_not_mem_names proper

/-- Without `..`, every join renders its folders and patterns. -/
theorem placeable_of_isInner {folders tokens : List Text} (nonempty : folders ≠ [])
    (plain : ∀ folder ∈ folders, IsPlainFolder folder) (inner : ∀ token ∈ tokens, IsInner token) :
    Placeable folders tokens := by
  have some : ∃ folder, folder ∈ folders := List.exists_mem_of_ne_nil _ nonempty
  obtain ⟨folder₀, member₀⟩ := some
  have spreads := fun token member => (renders_spread (plain folder₀ member₀) (inner token member)).2
  constructor
  · exact fun token member _ => (inner token member).whole
  · intro token member named
    obtain ⟨folder, found⟩ := Option.isSome_iff_exists.mp named
    exact (renders_inside plain (inner token member) found).2.2.1
  · exact fun token member _ => (spreads token member).2.1
  · intro folder mention
    have folderPlain := plain folder (mem_of_mem_mentioned mention)
    have each : ∀ pattern ∈ (naming folders tokens folder).map inside,
        IsWhole pattern ∧ dotDot ∉ segments pattern := by
      intro pattern member
      obtain ⟨token, named, rfl⟩ := List.mem_map.mp member
      obtain ⟨among, found⟩ := mem_naming.mp named
      exact (renders_inside plain (inner token among) found).2.2
    have filled : (naming folders tokens folder).map inside ≠ [] := by
      simpa using naming_ne_nil mention
    -- Neither the folder nor the group has a `..`, so nothing is taken away at all.
    refine renders_join_folder folderPlain
      (denoted_alternation_of_isWhole filled fun pattern member => (each pattern member).1).1
      (takesFlat_of_not_mem ?_ [])
    rw [segments_append, List.mem_append, not_or]
    exact ⟨dotDot_not_mem_folder folderPlain.canonical,
      dotDot_not_mem_alternation fun pattern member => (each pattern member).2⟩
  · intro others
    have each : ∀ pattern ∈ (tokens.filter (isGeneral folders)).map spread,
        IsWhole pattern ∧ dotDot ∉ segments pattern ∧ pattern ≠ [] := by
      intro pattern member
      obtain ⟨token, among, rfl⟩ := List.mem_map.mp member
      exact (spreads token (List.mem_filter.mp among).1).2
    have filled : (tokens.filter (isGeneral folders)).map spread ≠ [] := by
      rwa [Ne, List.map_eq_nil_iff]
    have whole := (denoted_alternation_of_isWhole filled fun pattern member =>
      (each pattern member).1).1
    have absent := dotDot_not_mem_alternation fun pattern member => (each pattern member).2.1
    -- A single folder has no group of its own, so its join goes like that of a named folder.
    by_cases several : 2 ≤ folders.length
    · exact renders_join_folders several plain whole
        (alternation_ne_nil filled fun pattern member => (each pattern member).2.2)
        (takesFlat_of_not_mem absent [])
    · match folders, nonempty with
      | [single], _ =>
        have only := plain single List.mem_cons_self
        refine renders_join_folder only whole (takesFlat_of_not_mem ?_ [])
        rw [segments_append, List.mem_append, not_or]
        exact ⟨dotDot_not_mem_folder only.canonical, absent⟩
      | _ :: _ :: _, _ => simp at several

theorem isBlankText_of_denoted {pattern : Text}
    (absolute : ∀ text ∈ denoted (lex pattern), isAbsolute text) :
    Text.isBlankText pattern = false := by
  by_contra blank
  have chars := isBlank_of_isBlankText (by simpa using blank)
  have flat : IsFlat pattern := by
    intro c member
    have uncounted := isUncounted_of_isBlank (chars c member)
    simp only [isUncounted, Bool.and_eq_true, bne_iff_ne] at uncounted
    have comma : c ≠ ',' := by
      rintro rfl
      exact absurd (chars _ member) (by decide)
    simp [isFlatChar, uncounted, comma]
  obtain ⟨rest, rfl⟩ := isAbsolute_iff.mp (absolute pattern (by simp [denoted_of_isFlat flat]))
  exact absurd (chars separator List.mem_cons_self) (by decide)

/-- Patterns that comprise some parts have the alternatives of these parts. -/
theorem alternatives_of_comprise {patterns parts : List Text} {glob : Combined}
    (comprise : Comprise patterns parts)
    (compiled : Combined.compile (alternation patterns) = .ok glob) :
    ∃ globs, parts.mapM Combined.compile = .ok globs
      ∧ glob.alternatives = (globs.flatMap Combined.alternatives).eraseDups := by
  -- Without patterns there are no parts, and the glob is the one that selects nothing.
  by_cases nonempty : patterns = []
  · subst nonempty
    have none : parts = [] := by
      refine List.eq_nil_iff_forall_not_mem.mpr fun part member => ?_
      obtain ⟨pattern, among, -⟩ := comprise.groups part member
      simp at among
    subst none
    have blank : Combined.compile (alternation []) = .ok {} := rfl
    rw [blank, Except.ok.injEq] at compiled
    subst compiled
    exact ⟨[], rfl, rfl⟩
  · obtain ⟨whole, found⟩ := denoted_alternation_of_isWhole nonempty comprise.wholes
    have places := comprise.places
    refine Combined.alternatives_eq_of_parts ?_ compiled ?_ ?_ ?_ ?_
    · refine isBlankText_of_denoted fun text member => ?_
      rw [found] at member
      obtain ⟨other, -, same⟩ := exists_of_forall₂ places.flip member
      exact same.absolute
    · intro part member
      refine isBlankText_of_denoted fun text inside => ?_
      obtain ⟨other, -, same⟩ := exists_of_forall₂ places
        (List.mem_flatMap.mpr ⟨part, member, inside⟩)
      exact same.absolute'
    · exact fun part member => depthAfter_of_isSealed (comprise.partWholes part member).closed
    · intro part member
      obtain ⟨pattern, among, few⟩ := comprise.groups part member
      exact Nat.le_trans few (countGroups_le_alternation comprise.wholes among)
    · rw [found]
      change (patterns.flatMap fun pattern => denoted (lex pattern)).map plainText = _
      -- Two texts of one place have the same plain text, and the texts correspond one by one.
      clear found whole nonempty
      generalize (patterns.flatMap fun pattern => denoted (lex pattern)) = texts at places
      generalize (parts.flatMap fun part => denoted (lex part)) = others at places
      induction places with
      | nil => rfl
      | cons head _ ih =>
        rw [List.map_cons, List.map_cons, ih, plainText_of_isAbsolute head.absolute,
          plainText_of_isAbsolute head.absolute', location, location, head.place]

/-- A folder without the characters that pattern lists and globs read. -/
def IsLiteral (folder : Text) : Prop :=
  ∀ c ∈ folder, c ∉ ['{', '}', '[', ']', '(', ')', ',', '*', '?']

theorem isPlainFolder_of_isLiteral {folder : Text} (canonical : IsCanonical folder)
    (literal : IsLiteral folder) : IsPlainFolder folder := by
  refine ⟨canonical, fun c member => ?_⟩
  have absent := literal c member
  have slashed : c ≠ '\\' := fun same => canonical.noBackslash (same ▸ member)
  simp only [List.mem_cons, List.not_mem_nil, or_false, not_or] at absent
  simp [isFlatChar, absent, slashed]

instance (folder : Text) : Decidable (IsLiteral folder) :=
  List.decidableBAll _ folder

/-- The tokens of a list one by one: the absolute tokens, then for each folder that is mentioned, in the order
of first mention, the tokens that belong to it, then for each folder the general tokens. A token belongs to the
last folder whose name is its first segment. -/
def parts (folders : List Text) (list : Text) : List Text :=
  layout folders (tokens list) behindFirst written

/-- The alternatives of an anchored list are those of its tokens one by one, without later
occurrences. -/
theorem alternatives_anchor {paths : List Text} {folders : Folders} {list : Text} {glob : Combined}
    (built : Folders.ofPaths paths = .ok folders) (nonempty : folders.paths ≠ [])
    (literal : ∀ folder ∈ folders.paths, IsLiteral folder)
    (braced : ∀ token ∈ tokens list, IsBraced token)
    (balanced : ∀ token ∈ tokens list, IsBalanced token)
    (noParent : ∀ token ∈ tokens list, dotDot ∉ segments token)
    (compiled : Combined.compile (anchor folders.paths list) = .ok glob) :
    ∃ globs, (parts folders.paths list).mapM Combined.compile = .ok globs
      ∧ glob.alternatives = (globs.flatMap Combined.alternatives).eraseDups := by
  have plain : ∀ folder ∈ folders.paths, IsPlainFolder folder := fun folder member =>
    isPlainFolder_of_isLiteral (Folders.isCanonical_of_mem_paths built member)
      (literal folder member)
  have inner : ∀ token ∈ tokens list, IsInner token := fun token member =>
    ⟨(piece_of_mem_tokens member).2, ⟨(braced token member).unguarded,
      isSealed_of_mem_tokens member (braced token member) (balanced token member)⟩,
      noParent token member⟩
  have joined := comprise_alternatives nonempty plain (placeable_of_isInner nonempty plain inner)
  refine alternatives_of_comprise (joined.trans (comprise_layout ?_ ?_ ?_)) compiled
  · exact fun token member _ => (inner token member).whole
  · intro token member folder found
    obtain ⟨renders, whole, -⟩ := renders_inside plain (inner token member) found
    exact ⟨renders, whole⟩
  · intro token member _ folder among
    obtain ⟨renders, whole, -⟩ := renders_spread (plain folder among) (inner token member)
    exact ⟨renders, whole⟩

/-- Two folders share a name, so a token that begins with it belongs to the last one. -/
theorem alternatives_anchor_braces :
    let folders := ["/u/a".toList, "/v/a".toList, "/b".toList]
    let list := "a/{x,y}, ./z, /c, w, a/x".toList
    Folders.ofPaths ["/u/a/".toList, "/v/a".toList, "/b".toList] = .ok ⟨folders⟩
      ∧ parts folders list = ["/c".toList, "/v/a/{x,y}".toList, "/v/a/x".toList,
        "/u/a/./z".toList, "/u/a/**/w".toList, "/v/a/./z".toList, "/v/a/**/w".toList,
        "/b/./z".toList, "/b/**/w".toList]
      ∧ ∃ glob, Combined.compile (anchor folders list) = .ok glob
        ∧ glob.alternatives = ["/c".toList, "/v/a/x".toList, "/v/a/y".toList,
          "/u/a/z".toList, "/u/a/**/w".toList, "/v/a/z".toList, "/v/a/**/w".toList,
          "/b/z".toList, "/b/**/w".toList] := by
  intro folders list
  have built : Folders.ofPaths ["/u/a/".toList, "/v/a".toList, "/b".toList] = .ok ⟨folders⟩ := by
    decide +kernel
  refine ⟨built, by decide +kernel, ?_⟩
  have compiles : (Combined.compile (anchor folders list)).toOption.isSome := by decide +kernel
  cases compiled : Combined.compile (anchor folders list) with
  | error =>
    rw [compiled] at compiles
    cases compiles
  | ok glob =>
    obtain ⟨globs, found, same⟩ := alternatives_anchor built (by decide) (by decide +kernel)
      (by decide +kernel) (by decide +kernel) (by decide +kernel) compiled
    -- The parts are compiled one by one; `/v/a/x` is found twice.
    have each : ((parts folders list).mapM Combined.compile).toOption.map
        (fun globs => (globs.flatMap Combined.alternatives).eraseDups)
          = some ["/c".toList, "/v/a/x".toList, "/v/a/y".toList, "/u/a/z".toList, "/u/a/**/w".toList,
            "/v/a/z".toList, "/v/a/**/w".toList, "/b/z".toList, "/b/**/w".toList] := by
      decide +kernel
    rw [found] at each
    exact ⟨glob, rfl, same.trans (Option.some.inj each)⟩

end RootedGlob.Anchoring
