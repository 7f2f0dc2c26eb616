import Mathlib.Data.List.Nodup
import RootedGlob.Finder
import RootedGlob.Proofs.Disk.Tree
import RootedGlob.Proofs.Disk.Lookup
import RootedGlob.Proofs.Path.Ancestors
import RootedGlob.Proofs.Workspace.Folders

/-!
# Walks that pass over nothing

With hidden names and without ignore files, a walk finds every regular file of a proper tree
(`mem_walkEntries_iff`), and each of them once (`nodup_walkEntries`). Below a folder it finds the files that
the folder reaches (`mem_walk_iff`). A folder inside of another one reaches the same files as the outer one,
if it is found as a directory (`Reaches.inner`).
-/

namespace RootedGlob.Finder

open RootedGlob.Path

/-- The options of a walk that passes over nothing. -/
def everything : WalkOptions where
  hidden := true
  ignoreFiles := false

section Entries

variable {disk : Disk} {rules : Ignore.Rules} {path : Text} {names : List Text}
  {entries : List (Text × FileTree)}

theorem of_isProper_cons {name : Text} {tree : FileTree} {rest : List (Text × FileTree)}
    (proper : (FileTree.directory ((name, tree) :: rest)).IsProper) :
    name ∉ rest.map (·.1) ∧ tree.IsProper ∧ (FileTree.directory rest).IsProper := by
  obtain ⟨nodup, each⟩ := FileTree.isProper_directory_iff.mp proper
  rw [List.map_cons, List.nodup_cons] at nodup
  rw [List.forall_mem_cons] at each
  exact ⟨nodup.1, each.1.2, FileTree.isProper_directory_iff.mpr ⟨nodup.2, each.2⟩⟩

/-- A walk over the entries of a directory finds the regular files that stand there or below. -/
theorem mem_walkEntries_iff (proper : (FileTree.directory entries).IsProper) {found : List Text} :
    found ∈ walkEntries disk everything rules path names entries
      ↔ ∃ more, found = names ++ more ∧ (FileTree.directory entries).HoldsFile more := by
  -- The walk takes the entries one by one: what it finds stands below this entry or below a later one.
  fun_induction walkEntries disk everything rules path names entries with
  | case1 =>
    refine iff_of_false List.not_mem_nil ?_
    rintro ⟨more, -, holds⟩
    obtain ⟨_, _, -, impossible⟩ := holds.exists_cons
    cases impossible
  | case2 rules path names name content rest here files skipped => cases skipped
  | case3 rules path names name content rest here kept files ih =>
    obtain ⟨absent, -, others⟩ := of_isProper_cons proper
    rw [List.mem_cons, ih others]
    simp only [FileTree.holdsFile_cons_iff absent, FileTree.holdsFile_file_iff, exists_eq_right]
    constructor
    · rintro (rfl | ⟨more, rfl, holds⟩)
      · exact ⟨[name], rfl, .inl rfl⟩
      · exact ⟨more, rfl, .inr holds⟩
    · rintro ⟨more, rfl, rfl | holds⟩
      · exact .inl rfl
      · exact .inr ⟨more, rfl, holds⟩
  | case4 rules path names name inner rest here files skipped => cases skipped
  | case5 rules path names name entries rest here files kept inner ih ih' =>
    obtain ⟨absent, below, others⟩ := of_isProper_cons proper
    rw [List.mem_append, ih others, ih' below]
    simp only [FileTree.holdsFile_cons_iff absent]
    constructor
    · rintro (⟨more, rfl, holds⟩ | ⟨more, rfl, holds⟩)
      · exact ⟨name :: more, by simp [here], .inl ⟨more, rfl, holds⟩⟩
      · exact ⟨more, rfl, .inr holds⟩
    · rintro ⟨more, rfl, ⟨below, rfl, holds⟩ | holds⟩
      · exact .inl ⟨below, by simp [here], holds⟩
      · exact .inr ⟨more, rfl, holds⟩
  | case6 rules path names name target rest ih =>
    obtain ⟨absent, -, others⟩ := of_isProper_cons proper
    rw [ih others]
    simp only [FileTree.holdsFile_cons_iff absent, FileTree.not_holdsFile_link, and_false, exists_false,
      false_or]

/-- In a proper tree no file is found twice. -/
theorem nodup_walkEntries (proper : (FileTree.directory entries).IsProper) :
    (walkEntries disk everything rules path names entries).Nodup := by
  fun_induction walkEntries disk everything rules path names entries with
  | case1 => exact .nil
  | case2 rules path names name content rest here files skipped => cases skipped
  | case3 rules path names name content rest here kept files ih =>
    obtain ⟨absent, -, others⟩ := of_isProper_cons proper
    refine List.nodup_cons.mpr ⟨fun again => ?_, ih others⟩
    obtain ⟨more, same, holds⟩ := (mem_walkEntries_iff others).mp again
    obtain ⟨key, below, rfl, among⟩ := holds.exists_cons
    obtain ⟨rfl, -⟩ := List.cons.inj (List.append_cancel_left same)
    exact absent among
  | case4 rules path names name inner rest here files skipped => cases skipped
  | case5 rules path names name entries rest here files kept inner ih ih' =>
    obtain ⟨absent, below, others⟩ := of_isProper_cons proper
    -- What lies below starts with the name of the directory, and no other entry has this name.
    refine List.nodup_append.mpr ⟨ih' below, ih others, ?_⟩
    rintro found one _ two rfl
    obtain ⟨deeper, rfl, -⟩ := (mem_walkEntries_iff below).mp one
    obtain ⟨more, same, holds⟩ := (mem_walkEntries_iff others).mp two
    obtain ⟨key, _, rfl, among⟩ := holds.exists_cons
    rw [List.append_assoc] at same
    obtain ⟨rfl, -⟩ := List.cons.inj (List.append_cancel_left same)
    exact absent among
  | case6 rules path names name target rest ih => exact ih (of_isProper_cons proper).2.2

end Entries

section Reached

/-- Going down from a folder, over no links, one arrives at a regular file. -/
def Reaches (disk : Disk) (folder path : Text) : Prop :=
  ∃ entries names, disk.find folder = .ok (.directory entries)
    ∧ (FileTree.directory entries).HoldsFile names ∧ path = under folder (ofSegments names)

variable {env : Environment} {folder path : Text} (proper : env.disk.root.IsProper)

include proper

theorem isProper_of_find {tree : FileTree} (found : env.disk.find folder = .ok tree) : tree.IsProper := by
  obtain ⟨there, -, place⟩ := Disk.find_eq_ok_iff.mp found
  exact (proper.at? place).1

/-- What a folder reaches is spelled with the names that lead there from the folder. -/
theorem Reaches.exists_names (canonical : IsCanonical folder) (reached : Reaches env.disk folder path) :
    ∃ entries names, env.disk.find folder = .ok (.directory entries)
      ∧ (FileTree.directory entries).HoldsFile names ∧ (∀ name ∈ names, '\\' ∉ name)
      ∧ (∀ name ∈ location folder ++ names, IsName name) ∧ path = spelled (location folder ++ names) := by
  obtain ⟨entries, names, found, holds, rfl⟩ := reached
  obtain ⟨filled, each⟩ := holds.proper_names (isProper_of_find proper found)
  have above : ∀ name ∈ location folder, IsName name := fun _ => isName_of_mem_location
  have below : ∀ name ∈ names, IsName name := fun name member => (each name member).1
  refine ⟨entries, names, found, holds, fun name member => (each name member).2,
    List.forall_mem_append.mpr ⟨above, below⟩, ?_⟩
  rw [← under_spelled above below filled, ← canonical.spelling]

theorem Reaches.location_eq (canonical : IsCanonical folder) (reached : Reaches env.disk folder path) :
    ∃ entries names, env.disk.find folder = .ok (.directory entries)
      ∧ (FileTree.directory entries).HoldsFile names ∧ location path = location folder ++ names := by
  obtain ⟨entries, names, found, holds, -, whole, rfl⟩ := reached.exists_names proper canonical
  exact ⟨entries, names, found, holds, location_spelled whole⟩

theorem Reaches.isCanonical (canonical : IsCanonical folder) (reached : Reaches env.disk folder path) :
    IsCanonical path := by
  obtain ⟨entries, names, -, -, below, whole, rfl⟩ := reached.exists_names proper canonical
  refine isCanonical_spelled whole fun member => ?_
  obtain ⟨name, among, inside⟩ := (mem_spelled member).resolve_left (by decide)
  rcases List.mem_append.mp among with above | deeper
  · apply canonical.noBackslash
    rw [canonical.spelling]
    exact mem_spelled_of_mem above inside
  · exact below name deeper inside

theorem Reaches.covers (canonical : IsCanonical folder) (reached : Reaches env.disk folder path) :
    Folders.covers folder path := by
  rw [Folders.covers_iff canonical (reached.isCanonical proper canonical)]
  obtain ⟨entries, names, -, -, same⟩ := reached.location_eq proper canonical
  exact same ▸ List.prefix_append _ _

/-- A folder around a file that an outer folder reaches reaches the file, too, if it is a directory. -/
theorem Reaches.inner {outer : Text} (above : IsCanonical outer) (below : IsCanonical folder)
    (outside : Folders.covers outer folder) (inside : Folders.covers folder path)
    (directory : env.disk.isDirectory folder) (reached : Reaches env.disk outer path) :
    Reaches env.disk folder path := by
  have canonical := reached.isCanonical proper above
  obtain ⟨entries, names, found, ⟨content, place⟩, same⟩ := reached.location_eq proper above
  obtain ⟨between, first⟩ := (Folders.covers_iff above below).mp outside
  obtain ⟨rest, second⟩ := (Folders.covers_iff below canonical).mp inside
  have split : names = between ++ rest := by
    rw [← second, ← first, List.append_assoc] at same
    exact (List.append_cancel_left same).symm
  -- The way from the outer folder to the file leads over the inner one.
  rw [split, FileTree.at?_append, Option.bind_eq_some_iff] at place
  obtain ⟨last, place, deeper⟩ := place
  obtain ⟨inner, found'⟩ := Disk.isDirectory_iff.mp directory
  have real : ∀ target, last ≠ .link target := by
    rintro target rfl
    exact FileTree.not_holdsFile_link ⟨content, deeper⟩
  have same' : FileTree.directory inner = last := by
    refine Disk.find_below (fun _ => isName_of_mem_location) (fun name member => ?_)
      (above.spelling ▸ found) place real ?_
    · exact (((isProper_of_find proper found).at? place).2 name member).1
    · rw [first, ← below.spelling]
      exact found'
  refine ⟨inner, rest, found', ⟨content, same' ▸ deeper⟩, ?_⟩
  -- The inner folder is not the file itself, because it is a directory.
  have filled : rest ≠ [] := by
    rintro rfl
    cases same'
    cases deeper
  rw [canonical.spelling, ← second]
  conv_rhs => rw [below.spelling]
  refine (under_spelled (fun _ => isName_of_mem_location) (fun name member => ?_) filled).symm
  have among : name ∈ location path := second ▸ List.mem_append_right _ member
  exact isName_of_mem_location among

omit proper in
theorem walk_of_directory {options : WalkOptions} {entries : List (Text × FileTree)}
    (found : env.disk.find folder = .ok (.directory entries)) :
    ∃ rules, walk env options folder = some ((walkEntries env.disk options rules folder [] entries).map
      fun names => under folder (ofSegments names)) := by
  obtain ⟨there, located, -⟩ := Disk.find_eq_ok_iff.mp found
  simp only [walk, located, found]
  exact ⟨_, rfl⟩

omit proper in
theorem walk_of_not_isDirectory {options : WalkOptions} (other : ¬ env.disk.isDirectory folder) :
    walk env options folder = none := by
  rw [walk]
  split
  · next found => exact absurd (Disk.isDirectory_iff.mpr ⟨_, found⟩) other
  · rfl

theorem mem_walk_iff : path ∈ (walk env everything folder).getD [] ↔ Reaches env.disk folder path := by
  by_cases directory : env.disk.isDirectory folder
  · obtain ⟨entries, found⟩ := Disk.isDirectory_iff.mp directory
    obtain ⟨rules, walked⟩ := @walk_of_directory env folder everything entries found
    rw [walked, Option.getD_some, List.mem_map]
    simp only [mem_walkEntries_iff (isProper_of_find proper found), List.nil_append]
    constructor
    · rintro ⟨names, ⟨_, rfl, holds⟩, rfl⟩
      exact ⟨entries, names, found, holds, rfl⟩
    · rintro ⟨entries', names, found', holds, rfl⟩
      rw [found] at found'
      cases found'
      exact ⟨names, ⟨names, rfl, holds⟩, rfl⟩
  · rw [walk_of_not_isDirectory directory]
    refine iff_of_false List.not_mem_nil ?_
    rintro ⟨entries, -, found, -⟩
    exact directory (Disk.isDirectory_iff.mpr ⟨entries, found⟩)

/-- No file is found twice on one walk. -/
theorem nodup_walk (canonical : IsCanonical folder) :
    ((walk env everything folder).getD []).Nodup := by
  by_cases directory : env.disk.isDirectory folder
  · obtain ⟨entries, found⟩ := Disk.isDirectory_iff.mp directory
    obtain ⟨rules, walked⟩ := @walk_of_directory env folder everything entries found
    have whole := isProper_of_find proper found
    -- A file found on the walk has a spelling of its own, and the walk finds no list of names twice.
    have named {names : List Text} (member : names ∈ walkEntries env.disk everything rules folder [] entries) :
        names ≠ [] ∧ ∀ name ∈ names, IsName name := by
      obtain ⟨more, same, holds⟩ := (mem_walkEntries_iff whole).mp member
      rw [List.nil_append] at same
      obtain ⟨filled, each⟩ := holds.proper_names whole
      exact same ▸ ⟨filled, fun name among => (each name among).1⟩
    rw [walked, Option.getD_some]
    refine List.Nodup.map_on (fun one first two second same => ?_) (nodup_walkEntries whole)
    obtain ⟨filled, proper⟩ := named first
    obtain ⟨filled', proper'⟩ := named second
    have above : ∀ name ∈ location folder, IsName name := fun _ => isName_of_mem_location
    rw [canonical.spelling, under_spelled above proper filled, under_spelled above proper' filled',
      spelled_inj (List.forall_mem_append.mpr ⟨above, proper⟩)
        (List.forall_mem_append.mpr ⟨above, proper'⟩)] at same
    exact List.append_cancel_left same
  · rw [walk_of_not_isDirectory directory]
    exact .nil

end Reached

end RootedGlob.Finder
