import RootedGlob.Disk
import RootedGlob.Proofs.Path.Location

/-!
# Trees of files

What stands at a location of a tree is read off its directories one by one (`at?_append`). In a proper tree
every directory holds names, and each of them once, so an entry is found under its name
(`lookup_eq_some_iff_mem`), and a tree is proper exactly if its entries are
(`isProper_directory_iff`).
-/

namespace RootedGlob.FileTree

open RootedGlob.Path

theorem at?_append (tree : FileTree) (first second : List Text) :
    tree.at? (first ++ second) = (tree.at? first).bind (·.at? second) := by
  induction first generalizing tree with
  | nil => rfl
  | cons name first ih =>
    rw [List.cons_append, at?, at?, Option.bind_assoc]
    simp only [ih]

theorem at?_cons_eq_some_iff {tree found : FileTree} {name : Text} {rest : List Text} :
    tree.at? (name :: rest) = some found ↔ ∃ inner next, tree = .directory inner
      ∧ inner.lookup name = some next ∧ next.at? rest = some found := by
  rw [at?, Option.bind_eq_some_iff]
  cases tree with
  | directory inner => simp [FileTree.entries]
  | file | link => simp [FileTree.entries]

/-- Above a directory there is a directory. -/
theorem exists_directory_dropLast {tree : FileTree} {here : List Text} {inner : List (Text × FileTree)}
    (place : tree.at? here = some (.directory inner)) : ∃ outer, tree.at? here.dropLast = some (.directory outer) := by
  rcases List.eq_nil_or_concat here with rfl | ⟨front, name, rfl⟩
  · exact ⟨inner, place⟩
  · rw [List.concat_eq_append, at?_append, Option.bind_eq_some_iff] at place
    obtain ⟨_, above, below⟩ := place
    obtain ⟨outer, _, rfl, -⟩ := at?_cons_eq_some_iff.mp below
    rw [List.concat_eq_append, List.dropLast_concat]
    exact ⟨outer, above⟩

/-- What has something below it is no link. -/
theorem ne_link_of_at? {tree last : FileTree} {names : List Text} (below : tree.at? names = some last)
    (real : ∀ target, last ≠ .link target) : ∀ target, tree ≠ .link target := by
  rintro target rfl
  cases names with
  | nil =>
    cases below
    exact real target rfl
  | cons name names =>
    obtain ⟨_, _, impossible, -⟩ := at?_cons_eq_some_iff.mp below
    cases impossible

/-- Every directory of a proper tree holds names that have no backslash, and each of them once. -/
def IsProper (tree : FileTree) : Prop :=
  ∀ names inner, tree.at? names = some (.directory inner) →
    (inner.map (·.1)).Nodup ∧ ∀ entry ∈ inner, IsName entry.1 ∧ '\\' ∉ entry.1

section Entries

variable {inner : List (Text × FileTree)} {name : Text} {tree : FileTree}

theorem mem_of_lookup (found : inner.lookup name = some tree) : (name, tree) ∈ inner := by
  obtain ⟨before, behind, rfl, -⟩ := List.lookup_eq_some_iff.mp found
  simp

theorem lookup_eq_some_iff_mem (nodup : (inner.map (·.1)).Nodup) :
    inner.lookup name = some tree ↔ (name, tree) ∈ inner := by
  refine ⟨mem_of_lookup, fun member => ?_⟩
  obtain ⟨before, behind, rfl⟩ := List.append_of_mem member
  refine List.lookup_eq_some_iff.mpr ⟨before, behind, rfl, fun entry among => ?_⟩
  rw [List.map_append, List.map_cons, List.nodup_append] at nodup
  have apart := nodup.2.2 entry.1 (List.mem_map_of_mem among) name List.mem_cons_self
  simpa using Ne.symm apart

/-- A location in a directory lies below its first entry or in the other ones. -/
theorem at?_directory_cons_iff {found : FileTree} {rest : List (Text × FileTree)}
    (absent : name ∉ rest.map (·.1)) {key : Text} {more : List Text} :
    (FileTree.directory ((name, tree) :: rest)).at? (key :: more) = some found
      ↔ (key = name ∧ tree.at? more = some found)
        ∨ (FileTree.directory rest).at? (key :: more) = some found := by
  -- The name of the first entry is not used again, so it leads to nothing in the other ones.
  have behind : (FileTree.directory rest).at? (key :: more) = some found → key ∈ rest.map (·.1) := by
    intro place
    obtain ⟨_, next, same, entry, -⟩ := at?_cons_eq_some_iff.mp place
    cases same
    exact List.mem_map_of_mem (mem_of_lookup entry)
  by_cases same : key = name
  · subst same
    have first : ((key, tree) :: rest).lookup key = some tree := by simp
    rw [at?, FileTree.entries, first]
    simp only [Option.bind_some, true_and]
    exact ⟨.inl, fun either => either.resolve_right fun place => absent (behind place)⟩
  · have skip : ((name, tree) :: rest).lookup key = rest.lookup key := by
      rw [List.lookup_cons, beq_eq_false_iff_ne.mpr same]
    rw [at?, at?, FileTree.entries, FileTree.entries, skip]
    simp [same]

theorem isProper_directory_iff : (FileTree.directory inner).IsProper ↔ (inner.map (·.1)).Nodup
    ∧ ∀ entry ∈ inner, (IsName entry.1 ∧ '\\' ∉ entry.1) ∧ entry.2.IsProper := by
  constructor
  · intro proper
    obtain ⟨nodup, names⟩ := proper [] inner rfl
    refine ⟨nodup, fun entry member => ⟨names entry member, fun rest deeper found => ?_⟩⟩
    apply proper (entry.1 :: rest) deeper
    exact at?_cons_eq_some_iff.mpr ⟨inner, entry.2, rfl, (lookup_eq_some_iff_mem nodup).mpr member, found⟩
  · rintro ⟨nodup, each⟩ names deeper found
    cases names with
    | nil =>
      cases found
      exact ⟨nodup, fun entry member => (each entry member).1⟩
    | cons name rest =>
      obtain ⟨_, next, same, entry, behind⟩ := at?_cons_eq_some_iff.mp found
      cases same
      exact (each _ (mem_of_lookup entry)).2 rest deeper behind

end Entries

/-- Files and links are proper. -/
theorem isProper_of_not_isDirectory {tree : FileTree} (leaf : tree.isDirectory = false) :
    tree.IsProper := by
  intro names inner found
  cases names with
  | nil =>
    cases found
    cases leaf
  | cons =>
    obtain ⟨_, _, rfl, -⟩ := at?_cons_eq_some_iff.mp found
    cases leaf

/-- What stands in a proper tree is proper, and stands at a location of names. -/
theorem IsProper.at? {tree found : FileTree} (proper : tree.IsProper) {names : List Text}
    (place : tree.at? names = some found) :
    found.IsProper ∧ ∀ name ∈ names, IsName name ∧ '\\' ∉ name := by
  refine ⟨fun rest inner deeper => proper (names ++ rest) inner ?_, ?_⟩
  · rw [at?_append, place]
    exact deeper
  · induction names generalizing tree with
    | nil => simp
    | cons name rest ih =>
      obtain ⟨inner, next, rfl, entry, behind⟩ := at?_cons_eq_some_iff.mp place
      obtain ⟨-, each⟩ := isProper_directory_iff.mp proper
      obtain ⟨first, further⟩ := each _ (mem_of_lookup entry)
      exact List.forall_mem_cons.mpr ⟨first, ih further behind⟩

/-- Whether a regular file stands at a location of the tree. -/
def HoldsFile (tree : FileTree) (names : List Text) : Prop :=
  ∃ content, tree.at? names = some (.file content)

section HoldsFile

variable {names : List Text}

theorem holdsFile_file_iff {content : ByteArray} : (FileTree.file content).HoldsFile names ↔ names = [] := by
  cases names with
  | nil => exact iff_of_true ⟨content, rfl⟩ rfl
  | cons name names =>
    refine iff_of_false ?_ (List.cons_ne_nil name names)
    rintro ⟨_, place⟩
    obtain ⟨_, _, impossible, -⟩ := at?_cons_eq_some_iff.mp place
    cases impossible

theorem not_holdsFile_link {target : Text} : ¬ (FileTree.link target).HoldsFile names := by
  rintro ⟨content, place⟩
  exact ne_link_of_at? place (fun _ impossible => by cases impossible) target rfl

theorem HoldsFile.exists_cons {entries : List (Text × FileTree)}
    (holds : (FileTree.directory entries).HoldsFile names) :
    ∃ name more, names = name :: more ∧ name ∈ entries.map (·.1) := by
  obtain ⟨content, place⟩ := holds
  cases names with
  | nil => cases place
  | cons name more =>
    obtain ⟨_, next, same, entry, -⟩ := at?_cons_eq_some_iff.mp place
    cases same
    exact ⟨name, more, rfl, List.mem_map_of_mem (mem_of_lookup entry)⟩

/-- A file in a proper directory stands at a location of names. -/
theorem HoldsFile.proper_names {entries : List (Text × FileTree)} (proper : (FileTree.directory entries).IsProper)
    (holds : (FileTree.directory entries).HoldsFile names) :
    names ≠ [] ∧ ∀ name ∈ names, IsName name ∧ '\\' ∉ name := by
  obtain ⟨content, place⟩ := id holds
  obtain ⟨name, more, rfl, -⟩ := holds.exists_cons
  exact ⟨List.cons_ne_nil name more, (proper.at? place).2⟩

/-- The files in a directory stand below its first entry or in the other ones. -/
theorem holdsFile_cons_iff {name : Text} {tree : FileTree} {rest : List (Text × FileTree)}
    (absent : name ∉ rest.map (·.1)) : (FileTree.directory ((name, tree) :: rest)).HoldsFile names
      ↔ (∃ below, names = name :: below ∧ tree.HoldsFile below)
        ∨ (FileTree.directory rest).HoldsFile names := by
  -- No file stands at the directory itself.
  cases names with
  | nil =>
    refine iff_of_false ?_ ?_
    · rintro ⟨_, place⟩
      cases place
    · rintro (⟨_, impossible, -⟩ | ⟨_, place⟩)
      · cases impossible
      · cases place
  | cons key more =>
    simp only [HoldsFile, at?_directory_cons_iff absent, exists_or, exists_and_left, List.cons.injEq]
    refine or_congr_left ⟨?_, ?_⟩
    · rintro ⟨same, holds⟩
      exact ⟨more, ⟨same, rfl⟩, holds⟩
    · rintro ⟨_, ⟨same, rfl⟩, holds⟩
      exact ⟨same, holds⟩

end HoldsFile

end RootedGlob.FileTree
