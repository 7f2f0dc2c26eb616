import RootedGlob.Proofs.Disk.Lookup
import RootedGlob.Proofs.Path.Components
import RootedGlob.Proofs.Path.Joining
import RootedGlob.Proofs.Workspace.Building
import RootedGlob.Workspace.Document

/-!
# Loading a workspace file

A file that can be read ends with a name (`exists_name_of_readText`), so its parent is the directory in front of
that name, up to segments that do not count. Where a path leads from the root is settled by its components, also
when its backslashes are read as separators (`location_slashed`). So every entry of a workspace file names a folder
as it is specified (`Names`), and no entry keeps the file from being loaded (`load_resolves_entries`).
-/

namespace RootedGlob

open RootedGlob.Path

namespace Path

section Slashed

theorem slashed_append (first second : Text) :
    Text.slashed (first ++ second) = Text.slashed first ++ Text.slashed second := List.map_append

/-- Reading backslashes as separators splits the segments further. -/
theorem segments_slashed (path : Text) :
    segments (Text.slashed path) = (segments path).flatMap fun segment => segments (Text.slashed segment) := by
  obtain ⟨first, names, split, whole⟩ := exists_segments path
  rw [split, whole]
  -- From here on the text is read as its segments, and the induction is on those behind the first one.
  clear split whole
  induction names generalizing first with
  | nil => simp
  | cons name names ih =>
    rw [rooted_cons, slashed_append, List.flatMap_cons, ← ih name, ← segments_append]
    rfl

/-- The walk over a segment whose backslashes are read as separators. -/
def stride (stack : List Text) (segment : Text) : List Text :=
  (segments (Text.slashed segment)).foldl (walk true) stack

theorem stride_of_not_isComponent (stack : List Text) {segment : Text} (blank : ¬ IsComponent segment) :
    stride stack segment = stack := by
  rcases not_isComponent_iff.mp blank with rfl | rfl <;> rfl

/-- Where a path leads when its backslashes are read as separators is settled by its components. -/
theorem foldl_segments_slashed (stack : List Text) (path : Text) :
    (segments (Text.slashed path)).foldl (walk true) stack = (components path).foldl stride stack := by
  rw [segments_slashed, List.foldl_flatMap, components, List.foldl_filter]
  refine List.foldl_ext _ _ _ fun below segment _ => ?_
  split
  · rfl
  · next blank => exact stride_of_not_isComponent below (by simpa using blank)

theorem location_slashed (path : Text) :
    location (Text.slashed path) = ((components path).foldl stride []).reverse := by
  rw [location, stand, foldl_segments_slashed]

/-- What is under a directory has its components in front, unless it is absolute. -/
theorem components_under (directory path : Text) : components (under directory path)
    = if isAbsolute path then components path else components directory ++ components path := by
  rw [under]
  split
  · rfl
  · split
    · next closed =>
      rcases closed with rfl | ended
      · rfl
      · obtain ⟨front, rfl⟩ := List.getLast?_eq_some_iff.mp (beq_iff_eq.mp ended)
        rw [components_append_separator, List.append_assoc]
        exact components_append front path
    · exact components_append directory path

end Slashed

end Path

namespace Workspace

/-- A file whose content is the encoding of a text is read as that text. -/
theorem readText_of_find {disk : Disk} {file : Text} {text : String}
    (found : disk.find file = .ok (.file text.toUTF8)) : disk.readText file = .ok text.toList := by
  have decoded : String.fromUTF8? text.toUTF8 = some text := dif_pos text.isValidUTF8
  rw [Disk.readText, Disk.readBytes, found]
  simp only [bind, Except.bind, decoded]

theorem exists_file_of_readText {disk : Disk} {file text : Text} (readable : disk.readText file = .ok text) :
    ∃ content, disk.find file = .ok (.file content) := by
  rw [Disk.readText, Disk.readBytes] at readable
  cases found : disk.find file with
  | error => simp [found, bind, Except.bind] at readable
  | ok tree =>
    cases tree with
    | file content => exact ⟨content, rfl⟩
    | directory | link => simp [found, bind, Except.bind] at readable

/-- The last segment of a path that leads to a file is a name. -/
theorem isName_of_find {disk : Disk} {file last : Text} {content : ByteArray}
    (found : disk.find file = .ok (.file content)) (ends : (segments file).getLast? = some last) : IsName last := by
  obtain ⟨there, located, place⟩ := Disk.find_eq_ok_iff.mp found
  have single : separator ∉ last := not_mem_of_mem_segments (List.mem_of_getLast? ends)
  by_contra other
  -- Otherwise the lookup arrives at a directory.
  have blank : last = [] ∨ last = dot ∨ last = dotDot := by
    by_contra ordinary
    push Not at ordinary
    exact other ⟨ordinary.1, ordinary.2.1, ordinary.2.2, single⟩
  obtain ⟨entries, directory⟩ := Disk.exists_directory_of_walk (Disk.walk_of_locate located) ends blank
  rw [place] at directory
  cases directory

/-- A file that can be read ends with a name. -/
theorem exists_name_of_readText {disk : Disk} {file text : Text} (readable : disk.readText file = .ok text) :
    ∃ directory name, file = directory ++ name ∧ IsClosed directory ∧ IsName name := by
  obtain ⟨content, found⟩ := exists_file_of_readText readable
  obtain ⟨front, last, split⟩ := (List.eq_nil_or_concat (segments file)).resolve_left (segments_ne_nil file)
  rw [List.concat_eq_append] at split
  have proper : IsName last := isName_of_find found (by rw [split, List.getLast?_concat])
  have whole := ofSegments_segments file
  rw [split] at whole
  by_cases alone : front = []
  · refine ⟨[], last, ?_, .inl rfl, proper⟩
    rw [← whole, alone]
    exact List.intercalate_singleton
  · refine ⟨ofSegments front ++ [separator], last, ?_, .inr ⟨_, rfl⟩, proper⟩
    rw [← whole, ofSegments_append alone (List.cons_ne_nil _ _), List.append_assoc]
    exact congrArg (ofSegments front ++ separator :: ·) List.intercalate_singleton

/-- The folder that an entry of a workspace file stands for, where the file lies in a directory. -/
inductive Names (directory entry : Text) : Text → Prop
  | absolute (starts : isAbsolute (Text.slashed entry)) :
    Names directory entry (dropTrailingSeparator (normalize (Text.slashed entry)))
  | drive {letter : Char} {rest : Text} (alphabetic : ('a' ≤ letter ∧ letter ≤ 'z') ∨ ('A' ≤ letter ∧ letter ≤ 'Z'))
    (starts : Text.slashed entry = letter :: ':' :: '/' :: rest) :
    Names directory entry (dropTrailingSeparator (normalize (separator :: Text.slashed entry)))
  | relative (elsewhere : ¬ Folders.StartsAtRoot (Text.slashed entry)) :
    Names directory entry (dropTrailingSeparator (join [Text.slashed directory, Text.slashed entry]))

section Entries

variable {base directory entry : Text}

theorem slashed_slashed (path : Text) : Text.slashed (Text.slashed path) = Text.slashed path :=
  Folders.slashed_of_not_mem (Folders.not_mem_slashed path)

theorem isAbsolute_slashed {path : Text} (absolute : isAbsolute path) : isAbsolute (Text.slashed path) := by
  obtain ⟨rest, rfl⟩ := isAbsolute_iff.mp absolute
  rfl

theorem isAbsolute_under (absolute : isAbsolute directory) (path : Text) : isAbsolute (under directory path) := by
  obtain ⟨rest, rfl⟩ := isAbsolute_iff.mp absolute
  rw [under]
  split
  · assumption
  · split <;> rfl

theorem resolveEntry_eq (base entry : Text) : resolveEntry base entry
    = if Folders.StartsAtRoot (Text.slashed entry) then Text.slashed entry else under base (Text.slashed entry) := by
  simp only [resolveEntry, Folders.startsAtRoot_iff]

theorem startsAtRoot_resolveEntry (absolute : isAbsolute base) (entry : Text) :
    Folders.StartsAtRoot (Text.slashed (resolveEntry base entry)) := by
  rw [resolveEntry_eq]
  split
  · rwa [slashed_slashed]
  · exact Folders.startsAtRoot_iff.mpr (.inl (isAbsolute_slashed (isAbsolute_under absolute _)))

/-- Joined behind an absolute path, an entry leads on from there. -/
theorem location_join_slashed (absolute : isAbsolute directory) (entry : Text) :
    dropTrailingSeparator (join [Text.slashed directory, Text.slashed entry])
      = spelled (location (Text.slashed (directory ++ separator :: entry))) := by
  have start := isAbsolute_slashed absolute
  obtain ⟨rest, whole⟩ := isAbsolute_iff.mp start
  rw [join_pair (whole ▸ List.cons_ne_nil _ _)]
  split
  · next empty =>
    -- An empty entry is left out of the join, and a separator at the end leads nowhere else.
    rw [dropTrailingSeparator_normalize start, slashed_append]
    have closing : Text.slashed (separator :: entry) = [separator] := by
      rw [Text.slashed, List.map_eq_nil_iff] at empty
      rw [empty]
      rfl
    rw [closing, location, location, stand_separator]
  · rw [dropTrailingSeparator_normalize (by rw [whole]; rfl), slashed_append]
    rfl

theorem names_resolveEntry (absolute : isAbsolute directory) (same : components base = components directory)
    (entry : Text) : Names directory entry (spelled (location (Text.slashed (resolveEntry base entry)))) := by
  rw [resolveEntry_eq]
  split
  · next starts =>
    rw [slashed_slashed]
    rcases starts with rooted | ⟨letter, rest, alphabetic, drive⟩
    · have start := isAbsolute_iff.mpr rooted
      rw [← dropTrailingSeparator_normalize start]
      exact .absolute start
    · -- A separator in front of the drive does not change where it leads.
      rw [← location_separator, ← dropTrailingSeparator_normalize rfl]
      exact .drive alphabetic drive
  · next elsewhere =>
    -- The entry is walked behind the components of the directory, in whichever way these are spelled.
    have relative : isAbsolute (Text.slashed entry) = false :=
      Bool.eq_false_iff.mpr fun starts => elsewhere (Folders.startsAtRoot_iff.mpr (.inl starts))
    have further (stack : List Text) :
        (components (Text.slashed entry)).foldl stride stack = (components entry).foldl stride stack := by
      rw [← foldl_segments_slashed, ← foldl_segments_slashed, slashed_slashed]
    have whole : location (Text.slashed (under base (Text.slashed entry)))
        = location (Text.slashed (directory ++ separator :: entry)) := by
      rw [location_slashed, location_slashed, components_under, relative, components_append, same]
      simp only [Bool.false_eq_true, if_false, List.foldl_append, further]
    rw [whole, ← location_join_slashed absolute]
    exact .relative elsewhere

/-- The directory of a file has the components of what stands in front of its name. -/
theorem baseDirectory_append {current directory name : Text} (absolute : isAbsolute current) (proper : IsName name)
    (closed : IsClosed directory) : isAbsolute (baseDirectory current (directory ++ name))
      ∧ components (baseDirectory current (directory ++ name)) = components (under current directory) := by
  obtain ⟨parent, found, same, kind⟩ := exists_parent?_append proper closed
  have placed : baseDirectory current (directory ++ name) = under current parent := by
    rw [baseDirectory, found]
    simp only [under]
    split <;> rfl
  rw [placed, components_under, components_under, kind, same]
  exact ⟨isAbsolute_under absolute parent, rfl⟩

end Entries

/-- A workspace file that can be read and parsed is loaded: there is no entry that keeps it from that. It has a
folder for each entry, in the same order, and each folder is spelled canonically. An entry that is absolute or
starts with a drive stands for itself, and every other one is joined behind the directory in front of the name of
the file, which is taken under the current directory. -/
theorem load_resolves_entries {disk : Disk} {file text : Text} {entries : List Text}
    (readable : disk.readText file = .ok text) (parsed : parse? text = some entries) :
    ∃ directory name folders, file = directory ++ name ∧ IsClosed directory ∧ IsName name
      ∧ load disk file = .ok folders
      ∧ List.Forall₂ (Names (under disk.currentPath directory)) entries folders.paths
      ∧ ∀ folder ∈ folders.paths, IsCanonical folder := by
  obtain ⟨directory, name, rfl, closed, proper⟩ := exists_name_of_readText readable
  obtain ⟨built, same⟩ := baseDirectory_append (isAbsolute_spelled disk.current) proper closed
  have absolute : isAbsolute (under disk.currentPath directory) :=
    isAbsolute_under (isAbsolute_spelled disk.current) directory
  let base := baseDirectory disk.currentPath (directory ++ name)
  let folders : Folders := ⟨(entries.map (resolveEntry base)).map fun path => spelled (location (Text.slashed path))⟩
  -- Every entry is resolved to a path that starts at the root, so none is refused.
  have stored : foldersOfEntries disk.currentPath (directory ++ name) entries = .ok folders := by
    refine Folders.ofPaths_eq_ok_iff.mpr ⟨?_, rfl⟩
    rw [List.forall_mem_map]
    exact fun entry _ => startsAtRoot_resolveEntry built entry
  refine ⟨directory, name, folders, rfl, closed, proper, ?_, ?_, fun _ => Folders.isCanonical_of_mem_paths stored⟩
  · simp only [load, readable, Except.mapError, bind, Except.bind, parsed]
    exact stored
  · have paths : folders.paths = entries.map fun entry => spelled (location (Text.slashed (resolveEntry base entry))) :=
      List.map_map
    rw [paths, List.forall₂_map_right_iff, List.forall₂_same]
    exact fun entry _ => names_resolveEntry absolute same entry

/-- Entries with a parent inside, with more parents than there are, with nothing, with a root and with a drive. -/
theorem load_resolves_entries_home :
    let text :=
      "\x7b\"folders\": [[\"a\\\\.\\\\..\\\\b/\"], [\"../../../c\"], [\"\"], [\"//opt//d/\"], [\"C:\\\\e\"]]\x7d"
    let disk : Disk := {
      root := .directory [("home".toList, .directory [("p".toList, .directory [("w".toList, .file text.toUTF8)])])]
      current := ["home".toList] }
    let entries := ["a\\.\\..\\b/".toList, "../../../c".toList, [], "//opt//d/".toList, "C:\\e".toList]
    let paths := ["/home/p/b".toList, "/c".toList, "/home/p".toList, "/opt/d".toList, "/C:/e".toList]
    disk.readText "p/w".toList = .ok text.toList ∧ parse? text.toList = some entries
      ∧ load disk "p/w".toList = .ok ⟨paths⟩ ∧ ∃ directory name, "p/w".toList = directory ++ name ∧ IsName name
        ∧ List.Forall₂ (Names (under disk.currentPath directory)) entries paths := by
  intro text disk entries paths
  have found : disk.find "p/w".toList = .ok (.file text.toUTF8) := by
    refine Disk.find_eq_ok_iff.mpr ⟨["home".toList, "p".toList, "w".toList], ?_, rfl⟩
    have segments : segments "p/w".toList = ["p".toList, "w".toList] := by decide +kernel
    rw [Disk.locate, if_neg (by decide), if_neg (by decide), if_neg (by decide +kernel), segments]
    exact (Disk.walk_eq_ok_iff (by decide +kernel) rfl rfl (by simp)).mpr ⟨rfl, by decide +kernel⟩
  have readable : disk.readText "p/w".toList = .ok text.toList := readText_of_find found
  have parsed : parse? text.toList = some entries := by decide +kernel
  obtain ⟨directory, name, folders, whole, -, proper, loaded, named, -⟩ := load_resolves_entries readable parsed
  have stored : folders = ⟨paths⟩ := by
    have built : foldersOfEntries disk.currentPath "p/w".toList entries = .ok ⟨paths⟩ := by decide +kernel
    simp only [load, readable, Except.mapError, bind, Except.bind, parsed, built, Except.ok.injEq] at loaded
    exact loaded.symm
  subst stored
  exact ⟨readable, parsed, loaded, directory, name, whole, proper, named⟩

end Workspace

end RootedGlob
