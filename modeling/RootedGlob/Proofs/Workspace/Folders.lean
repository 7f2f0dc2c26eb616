import RootedGlob.Proofs.Lists
import RootedGlob.Proofs.Path.Location
import RootedGlob.Workspace.Folders

/-!
# The folders of a workspace are spelled canonically

A path is taken for a folder if it starts at the root or with a drive (`normalizeFolder_eq`). Whatever paths a
workspace is built from, each of its folders is the one spelling of its location and has no backslash
(`isCanonical_of_mem_paths`). So whether a folder covers a file is read off their
names (`covers_spelled`), and a file lies in the workspace if some folder covers it
(`isSome_around?_iff`).
-/

namespace RootedGlob.Path

/-- A path that is the one spelling of its location. -/
structure IsCanonical (path : Text) : Prop where
  spelling : path = spelled (location path)
  noBackslash : '\\' ∉ path

theorem IsCanonical.names {path : Text} (canonical : IsCanonical path) :
    ∃ names, (∀ name ∈ names, IsName name) ∧ path = spelled names :=
  ⟨location path, fun _ => isName_of_mem_location, canonical.spelling⟩

theorem IsCanonical.isAbsolute {path : Text} (canonical : IsCanonical path) :
    Path.isAbsolute path := by
  rw [canonical.spelling]
  exact isAbsolute_spelled _

theorem isCanonical_spelled {names : List Text} (proper : ∀ name ∈ names, IsName name)
    (absent : '\\' ∉ spelled names) : IsCanonical (spelled names) :=
  ⟨by rw [location_spelled proper], absent⟩

/-- The names of a canonical path can be read off its text. -/
theorem IsCanonical.filledSegments_eq {path : Text} (canonical : IsCanonical path) :
    filledSegments path = location path := by
  obtain ⟨names, proper, rfl⟩ := canonical.names
  exact filledSegments_of_normal canonical.isAbsolute (normalize_spelled proper)

/-- A character behind a canonical path becomes part of its last name, or a name of its own. -/
theorem IsCanonical.exists_concat {path : Text} (canonical : IsCanonical path) {c : Char}
    (ordinary : c ≠ separator ∧ c ≠ '.') :
    ∃ names, (∀ name ∈ names, IsName name) ∧ (location path).length ≤ names.length
      ∧ path ++ [c] = rooted names := by
  have proper : ∀ name ∈ location path, IsName name := fun _ => isName_of_mem_location
  rw [canonical.spelling, location_spelled proper, spelled_eq]
  generalize location path = names at proper
  rcases List.eq_nil_or_concat names with rfl | ⟨front, last, rfl⟩
  · have name : IsName [c] :=
      isName_of_mem List.mem_cons_self ordinary.2 (by simpa using Ne.symm ordinary.1)
    exact ⟨[[c]], by simpa using name, Nat.zero_le _, rfl⟩
  · rw [List.concat_eq_append, List.forall_mem_append, List.forall_mem_singleton] at proper
    have name : IsName (last ++ [c]) := by
      refine isName_of_mem (c := c) (by simp) ordinary.2 ?_
      rw [List.mem_append, List.mem_singleton, not_or]
      exact ⟨proper.2.single, Ne.symm ordinary.1⟩
    refine ⟨front ++ [last ++ [c]], ?_, by simp, ?_⟩
    · rw [List.forall_mem_append, List.forall_mem_singleton]
      exact ⟨proper.1, name⟩
    · rw [List.concat_eq_append, if_neg (by simp), rooted_append, rooted_append]
      simp

theorem mem_of_mem_walk {absolute : Bool} {stack : List Text} {segment name : Text}
    (member : name ∈ walk absolute stack segment) : name ∈ stack ∨ name = segment := by
  rw [walk.eq_def] at member
  split at member
  · exact .inl member
  · split at member
    · next parent =>
      split at member
      · split at member
        · exact .inl (List.mem_cons_of_mem _ member)
        · split at member
          · exact .inl member
          · rcases List.mem_cons.mp member with rfl | member
            · exact .inr parent.symm
            · exact .inl member
      · split at member
        · cases member
        · exact .inr ((List.mem_singleton.mp member).trans parent.symm)
    · rcases List.mem_cons.mp member with rfl | member
      · exact .inr rfl
      · exact .inl member

theorem mem_of_mem_foldl {absolute : Bool} {stack names : List Text} {name : Text}
    (member : name ∈ names.foldl (walk absolute) stack) : name ∈ stack ∨ name ∈ names := by
  induction names generalizing stack with
  | nil => exact .inl member
  | cons segment names ih =>
    rcases ih member with before | later
    · rcases mem_of_mem_walk before with below | rfl
      · exact .inl below
      · exact .inr List.mem_cons_self
    · exact .inr (List.mem_cons_of_mem _ later)

/-- The names of a location are segments of the path. -/
theorem mem_segments_of_mem_location {path name : Text} (member : name ∈ location path) :
    name ∈ segments path := by
  rw [location, List.mem_reverse, stand] at member
  simpa using mem_of_mem_foldl member

theorem mem_of_mem_segments {path segment : Text} (member : segment ∈ segments path) {c : Char}
    (inside : c ∈ segment) : c ∈ path := by
  have behind : c ∈ separator :: path := by
    rw [← rooted_segments]
    exact List.mem_flatMap.mpr ⟨segment, member, List.mem_cons_of_mem _ inside⟩
  rcases List.mem_cons.mp behind with rfl | found
  · exact absurd inside (not_mem_of_mem_segments member)
  · exact found

theorem mem_spelled {names : List Text} {c : Char} (member : c ∈ spelled names) :
    c = separator ∨ ∃ name ∈ names, c ∈ name := by
  rw [spelled_eq] at member
  split at member
  · exact .inl (List.mem_singleton.mp member)
  · obtain ⟨name, inside, found⟩ := List.mem_flatMap.mp member
    rcases List.mem_cons.mp found with rfl | found
    · exact .inl rfl
    · exact .inr ⟨name, inside, found⟩

theorem mem_spelled_of_mem {names : List Text} {name : Text} (inside : name ∈ names) {c : Char}
    (found : c ∈ name) : c ∈ spelled names := by
  rw [spelled_eq, if_neg (List.ne_nil_of_mem inside)]
  exact List.mem_flatMap.mpr ⟨name, inside, List.mem_cons_of_mem _ found⟩

/-- The spelling of a location has no backslash that the path does not have. -/
theorem isCanonical_location {path : Text} (absent : '\\' ∉ path) : IsCanonical (spelled (location path)) := by
  refine isCanonical_spelled (fun _ => isName_of_mem_location) fun member => ?_
  rcases mem_spelled member with same | ⟨name, inside, found⟩
  · exact absurd same (by decide)
  · exact absent (mem_of_mem_segments (mem_segments_of_mem_location inside) found)

theorem IsCanonical.of_prefix {path : Text} (canonical : IsCanonical path) {front : List Text}
    (start : front <+: location path) : IsCanonical (spelled front) := by
  refine isCanonical_spelled (fun name inside => isName_of_mem_location (start.subset inside))
    fun member => ?_
  rcases mem_spelled member with same | ⟨name, among, inside⟩
  · exact absurd same (by decide)
  · rw [canonical.spelling] at canonical
    exact canonical.noBackslash (mem_spelled_of_mem (start.subset among) inside)

end RootedGlob.Path

namespace RootedGlob.Folders

open RootedGlob.Path

section Starting

/-- A path that starts at the root, or with a drive: an ASCII letter, a colon and a separator. -/
def StartsAtRoot (path : Text) : Prop :=
  (∃ rest, path = '/' :: rest)
    ∨ ∃ letter rest, (('a' ≤ letter ∧ letter ≤ 'z') ∨ ('A' ≤ letter ∧ letter ≤ 'Z'))
      ∧ path = letter :: ':' :: '/' :: rest

theorem isAlpha_iff {c : Char} : c.isAlpha ↔ ('a' ≤ c ∧ c ≤ 'z') ∨ ('A' ≤ c ∧ c ≤ 'Z') := by
  have letter : c.isAlpha ↔ c.isUpper ∨ c.isLower := Bool.or_eq_true_iff
  have upper : c.isUpper ↔ 'A' ≤ c ∧ c ≤ 'Z' := decide_eq_true_iff
  have lower : c.isLower ↔ 'a' ≤ c ∧ c ≤ 'z' :=
    Bool.and_eq_true_iff.trans (and_congr decide_eq_true_iff decide_eq_true_iff)
  rw [letter, upper, lower, or_comm]

theorem hasDrive_iff {path : Text} : hasDrive path ↔ ∃ letter rest,
    (('a' ≤ letter ∧ letter ≤ 'z') ∨ ('A' ≤ letter ∧ letter ≤ 'Z')) ∧ path = letter :: ':' :: '/' :: rest := by
  simp only [← isAlpha_iff]
  constructor
  · intro drive
    unfold hasDrive at drive
    split at drive
    · exact ⟨_, _, drive, rfl⟩
    · cases drive
  · rintro ⟨letter, rest, alphabetic, rfl⟩
    exact alphabetic

theorem startsAtRoot_iff {path : Text} : StartsAtRoot path ↔ isAbsolute path ∨ hasDrive path := by
  rw [StartsAtRoot, isAbsolute_iff, hasDrive_iff]
  rfl

instance (path : Text) : Decidable (StartsAtRoot path) := decidable_of_iff _ startsAtRoot_iff.symm

end Starting

/-- What is made of a path: the spelling of its location, or the fault that it starts somewhere else. -/
theorem normalizeFolder_eq (path : Text) :
    normalizeFolder path = if StartsAtRoot (Text.slashed path) then .ok (spelled (location (Text.slashed path)))
      else .error (.relativeFolder (Text.slashed path)) := by
  simp only [normalizeFolder, startsAtRoot_iff]
  by_cases drive : hasDrive (Text.slashed path)
  · -- The separator in front of a drive does not change the location.
    have absolute : isAbsolute (separator :: Text.slashed path) := rfl
    rw [if_pos drive, if_pos absolute, if_pos (.inr drive), dropTrailingSeparator_normalize absolute,
      location_separator]
  · rw [if_neg drive]
    by_cases absolute : isAbsolute (Text.slashed path)
    · rw [if_pos absolute, if_pos (.inl absolute), dropTrailingSeparator_normalize absolute]
    · rw [if_neg absolute, if_neg (by simp [absolute, drive])]

theorem normalizeFolder_eq_ok_iff {path folder : Text} : normalizeFolder path = .ok folder ↔
    StartsAtRoot (Text.slashed path) ∧ spelled (location (Text.slashed path)) = folder := by
  rw [normalizeFolder_eq]
  split <;> simp_all

theorem normalizeFolder_eq_error_iff {path : Text} {error : Error} : normalizeFolder path = .error error ↔
    ¬ StartsAtRoot (Text.slashed path) ∧ error = .relativeFolder (Text.slashed path) := by
  rw [normalizeFolder_eq]
  split <;> simp_all [eq_comm]

theorem not_mem_slashed (path : Text) : '\\' ∉ Text.slashed path := by
  intro member
  obtain ⟨c, -, same⟩ := List.mem_map.mp member
  split at same
  · exact absurd same (by decide)
  · next other => exact other same

theorem isCanonical_of_normalizeFolder {folder path : Text}
    (normalized : normalizeFolder folder = .ok path) : IsCanonical path :=
  (normalizeFolder_eq_ok_iff.mp normalized).2 ▸ isCanonical_location (not_mem_slashed folder)

/-- The folders of a workspace are canonical. -/
theorem isCanonical_of_mem_paths {paths : List Text} {folders : Folders}
    (built : ofPaths paths = .ok folders) {folder : Text} (member : folder ∈ folders.paths) :
    IsCanonical folder := by
  cases traversed : paths.mapM normalizeFolder with
  | error => simp [ofPaths, traversed, Except.map] at built
  | ok found =>
    simp only [ofPaths, traversed, Except.map, Except.ok.injEq] at built
    subst built
    obtain ⟨path, -, normalized⟩ := exists_of_forall₂ (mapM_eq_ok_iff.mp traversed) member
    exact isCanonical_of_normalizeFolder normalized

/-- A folder other than the root covers itself and what goes on behind a separator. -/
theorem covers_iff_append_separator {folder file : Text} (inner : folder ≠ [separator]) :
    covers folder file ↔ file = folder ∨ folder ++ [separator] <+: file := by
  simp only [covers, Bool.or_eq_true, beq_iff_eq, Option.bind_eq_some_iff, Text.after?_eq_some_iff, inner,
    false_or]
  refine or_congr_right ⟨?_, ?_⟩
  · rintro ⟨rest, rfl, starts⟩
    obtain ⟨more, rfl⟩ := List.head?_eq_some_iff.mp starts
    exact ⟨more, by simp⟩
  · rintro ⟨more, rfl⟩
    exact ⟨separator :: more, by simp, rfl⟩

/-- A folder covers what lies at or below its names. -/
theorem covers_spelled {outer inner : List Text} (above : ∀ name ∈ outer, IsName name)
    (below : ∀ name ∈ inner, IsName name) : covers (spelled outer) (spelled inner) ↔ outer <+: inner := by
  have single {names : List Text} (proper : ∀ name ∈ names, IsName name) :
      ∀ name ∈ names, separator ∉ name := fun name member => (proper name member).single
  simp only [covers, Bool.or_eq_true, beq_iff_eq, Option.bind_eq_some_iff, Text.after?_eq_some_iff]
  by_cases root : outer = []
  · subst root
    exact iff_of_true (.inl (.inl rfl)) (List.nil_prefix)
  · have folder : spelled outer = rooted outer := by rw [spelled_eq, if_neg root]
    constructor
    · rintro ((same | same) | ⟨rest, same, starts⟩)
      · have names := congrArg location same
        rw [location_spelled above] at names
        exact absurd names root
      · have names := congrArg location same
        rw [location_spelled below, location_spelled above] at names
        exact names ▸ List.prefix_rfl
      · obtain ⟨more, rfl⟩ : ∃ more, rest = separator :: more := by
          cases rest with
          | nil => cases starts
          | cons c more => exact ⟨more, by simpa using starts⟩
        have filled : inner ≠ [] := by
          rintro rfl
          have lengths := congrArg List.length same
          obtain ⟨name, names, rfl⟩ := List.exists_cons_of_ne_nil root
          simp [spelled, ofSegments] at lengths
        have split := congrArg segments same
        rw [folder, spelled_eq, if_neg filled, segments_append, segments_rooted (single below),
          segments_rooted (single above), List.cons_append, List.cons.injEq] at split
        rw [split.2]
        exact List.prefix_append _ _
    · rintro ⟨rest, rfl⟩
      cases rest with
      | nil =>
        left; right
        rw [List.append_nil]
      | cons name rest =>
        right
        refine ⟨rooted (name :: rest), ?_, rfl⟩
        rw [spelled_eq, if_neg (by simp), rooted_append, folder]

/-- A folder contains a normal path if it contains the location, with or without a separator at the end. -/
theorem covers_iff_of_normal {folder path : Text} (canonical : IsCanonical folder)
    (absolute : isAbsolute path) (normal : normalize path = path) :
    covers folder path ↔ covers folder (spelled (location path)) := by
  rcases eq_spelled_of_normal absolute normal with plain | ⟨filled, closed⟩
  · rw [← plain]
  · generalize location path = names at filled closed
    by_cases root : folder = [separator]
    · simp [covers, root]
    · have other : path ≠ folder := by
        intro same
        have ended := closed.symm.trans (same.trans canonical.spelling)
        exact spelled_ne_append_separator (fun _ => isName_of_mem_location) (by simp [spelled]) ended.symm
      rw [covers_iff_append_separator root, covers_iff_append_separator root, closed, List.prefix_concat_iff,
        List.append_left_inj, ← closed, or_iff_right other, eq_comm]

/-- The spelling of a location goes on behind a separator in what lies strictly below. -/
theorem prefix_spelled_iff {outer inner : List Text} (above : ∀ name ∈ outer, IsName name)
    (below : ∀ name ∈ inner, IsName name) (filled : outer ≠ []) :
    spelled outer ++ [separator] <+: spelled inner ↔ outer <+: inner ∧ outer ≠ inner := by
  have folder : spelled outer ≠ [separator] := by
    rw [show [separator] = spelled [] from rfl, Ne, spelled_inj above (by simp)]
    exact filled
  have covered := (covers_iff_append_separator folder).symm.trans (covers_spelled above below)
  rw [spelled_inj below above] at covered
  constructor
  · intro start
    refine ⟨covered.mp (.inr start), ?_⟩
    rintro rfl
    exact absurd start.length_le (by simp)
  · rintro ⟨start, other⟩
    exact (covered.mpr start).resolve_left (Ne.symm other)

theorem covers_iff {outer inner : Text} (above : IsCanonical outer) (below : IsCanonical inner) :
    covers outer inner ↔ location outer <+: location inner := by
  have found := @covers_spelled (location outer) (location inner) (fun _ => isName_of_mem_location)
    fun _ => isName_of_mem_location
  rwa [← above.spelling, ← below.spelling] at found

theorem covers_refl {path : Text} (canonical : IsCanonical path) : covers path path :=
  (covers_iff canonical canonical).mpr List.prefix_rfl

theorem covers_trans {outer middle inner : Text} (one : IsCanonical outer) (two : IsCanonical middle)
    (three : IsCanonical inner) (above : covers outer middle) (below : covers middle inner) :
    covers outer inner := by
  rw [covers_iff one two] at above
  rw [covers_iff two three] at below
  exact (covers_iff one three).mpr (above.trans below)

/-- What lies in a folder has the characters of the folder. -/
theorem mem_of_covers {outer inner : Text} (above : IsCanonical outer) (below : IsCanonical inner)
    (covered : covers outer inner) {c : Char} (other : c ≠ separator) (member : c ∈ outer) :
    c ∈ inner := by
  rw [covers_iff above below] at covered
  rw [above.spelling] at member
  rw [below.spelling]
  obtain ⟨name, among, inside⟩ := (mem_spelled member).resolve_left other
  exact mem_spelled_of_mem (covered.subset among) inside

theorem isSome_foldl_longer {best : Option Text} {folders : List Text} :
    (folders.foldl longer best).isSome ↔ best.isSome ∨ folders ≠ [] := by
  induction folders generalizing best with
  | nil => simp
  | cons folder folders ih =>
    have kept : (longer best folder).isSome := by
      cases best with
      | none => rfl
      | some other =>
        rw [longer]
        split <;> rfl
    rw [List.foldl_cons, ih]
    simp [kept]

theorem slashed_of_not_mem {text : Text} (absent : '\\' ∉ text) : Text.slashed text = text := by
  have kept : ∀ c ∈ text, (if c = '\\' then '/' else c) = id c := by
    intro c member
    have other : c ≠ '\\' := fun same => absent (same ▸ member)
    rw [if_neg other, id]
  rw [Text.slashed, List.map_congr_left kept, List.map_id]

/-- A file lies in a workspace if some folder covers it. -/
theorem isSome_around?_iff {folders : Folders} {file : Text} (absent : '\\' ∉ file) :
    (folders.around? file).isSome ↔ ∃ folder ∈ folders.paths, covers folder file := by
  rw [around?, slashed_of_not_mem absent, isSome_foldl_longer]
  simp [List.filter_eq_nil_iff]

end RootedGlob.Folders
