import RootedGlob.Proofs.Disk.Tree

/-!
# Lookups on a disk

A lookup that arrives somewhere can be gone on with from there (`walk_append`), and over directories that
are no links it arrives where their names lead (`walk_eq_ok_iff`). So a path without links on the way leads
to what stands there in the tree of the disk (`find_of_at?`), and a path below a directory to what stands
in the tree of the directory (`find_below`), also where links lie on the way to the directory itself.
-/

namespace RootedGlob

open RootedGlob.Path

namespace Disk

variable {root : FileTree} {links : Nat}

/-- A lookup that arrives somewhere can be gone on with from there. -/
theorem walk_append {here ahead there : List Text} (arrived : walk root links here ahead = .ok there) :
    ∃ left, ∀ more, walk root links here (ahead ++ more) = walk root left there more := by
  -- At every name the longer lookup takes the branch that the shorter one takes.
  fun_induction walk root links here ahead with
  | case1 links here =>
    cases arrived
    exact ⟨links, fun _ => rfl⟩
  | case2 => cases arrived
  | case3 links here name rest _ place blank ih =>
    obtain ⟨left, onward⟩ := ih arrived
    refine ⟨left, fun more => ?_⟩
    rw [List.cons_append, walk.eq_def]
    simp only [place, blank, if_true]
    exact onward more
  | case4 links here rest _ place ordinary ih =>
    obtain ⟨left, onward⟩ := ih arrived
    refine ⟨left, fun more => ?_⟩
    rw [List.cons_append, walk.eq_def]
    simp only [place, ordinary, if_true, if_false]
    exact onward more
  | case5 => cases arrived
  | case6 => cases arrived
  | case7 => cases arrived
  | case8 here name rest _ place ordinary parent short target entry links ih =>
    obtain ⟨left, onward⟩ := ih arrived
    refine ⟨left, fun more => ?_⟩
    rw [List.cons_append, walk.eq_def]
    simp only [place, ordinary, parent, short, entry, if_false]
    have further := onward more
    rw [List.append_assoc] at further
    exact further
  | case9 links here name rest _ place ordinary parent short next real entry ih =>
    obtain ⟨left, onward⟩ := ih arrived
    refine ⟨left, fun more => ?_⟩
    rw [List.cons_append, walk.eq_def]
    simp only [place, ordinary, parent, short, entry, if_false]
    exact onward more
  | case10 => cases arrived

/-- A name that does not stand for a link is gone on from, unless it is too long. -/
theorem walk_cons {here rest : List Text} {name : Text} {entries : List (Text × FileTree)}
    {next : FileTree} (proper : IsName name) (place : root.at? here = some (.directory entries))
    (entry : entries.lookup name = some next) (real : ∀ target, next ≠ .link target) :
    walk root links here (name :: rest)
      = if maxName < Text.byteLength name then .error .nameTooLong
        else walk root links (here ++ [name]) rest := by
  rw [walk.eq_def]
  simp only [place, proper.nonempty, proper.notDot, proper.notParent, or_self, if_false, entry]

/-- Over directories that are no links, a lookup arrives where the names lead, if it arrives. -/
theorem walk_eq_ok_iff {here names there : List Text} {tree last : FileTree}
    (proper : ∀ name ∈ names, IsName name) (place : root.at? here = some tree)
    (below : tree.at? names = some last) (real : ∀ target, last ≠ .link target) :
    walk root links here names = .ok there
      ↔ there = here ++ names ∧ ∀ name ∈ names, Text.byteLength name ≤ maxName := by
  induction names generalizing here tree with
  | nil => simp [walk, eq_comm]
  | cons name names ih =>
    obtain ⟨entries, next, rfl, entry, behind⟩ := FileTree.at?_cons_eq_some_iff.mp below
    rw [List.forall_mem_cons] at proper
    have further : root.at? (here ++ [name]) = some next := by
      rw [FileTree.at?_append, place]
      exact FileTree.at?_cons_eq_some_iff.mpr ⟨entries, next, rfl, entry, rfl⟩
    rw [walk_cons proper.1 place entry (FileTree.ne_link_of_at? behind real), List.forall_mem_cons]
    split
    · next long => simp [Nat.not_le.mpr long]
    · next short => simp [ih proper.2 further behind, Nat.le_of_not_lt short]

/-- A lookup whose last segment is no name arrives at a directory. -/
theorem exists_directory_of_walk {here ahead there : List Text} {last : Text}
    (arrived : walk root links here ahead = .ok there) (ends : ahead.getLast? = some last)
    (other : last = [] ∨ last = dot ∨ last = dotDot) : ∃ entries, root.at? there = some (.directory entries) := by
  -- The walk goes on with the rest of the segments, which have the same last one, so only a rest that
  -- is empty is looked at.
  fun_induction walk root links here ahead with
  | case1 => cases ends
  | case2 => cases arrived
  | case3 links here name rest entries place blank ih =>
    cases rest with
    | nil =>
      rw [walk] at arrived
      cases arrived
      exact ⟨entries, place⟩
    | cons next rest => exact ih arrived (by simpa using ends)
  | case4 links here rest entries place ordinary ih =>
    cases rest with
    | nil =>
      rw [walk] at arrived
      cases arrived
      -- A `..` goes up from a place that is there, and what holds it is a directory.
      exact FileTree.exists_directory_dropLast place
    | cons next rest => exact ih arrived (by simpa using ends)
  | case5 => cases arrived
  | case6 => cases arrived
  | case7 => cases arrived
  | case8 here name rest _ place ordinary parent short target entry links ih =>
    cases rest with
    | nil =>
      cases ends
      -- The last segment would be a name.
      exact absurd other (by simp_all)
    | cons next rest => exact ih arrived (by simpa using ends)
  | case9 links here name rest _ place ordinary parent short next real entry ih =>
    cases rest with
    | nil =>
      cases ends
      exact absurd other (by simp_all)
    | cons next rest => exact ih arrived (by simpa using ends)
  | case10 => cases arrived

theorem isDirectory_of_walk {name : Text} {rest there : List Text}
    (arrived : walk root links [] (name :: rest) = .ok there) : root.isDirectory := by
  rw [walk.eq_def, FileTree.at?] at arrived
  cases root with
  | directory => rfl
  | file | link => cases arrived

theorem walk_blank (directory : root.isDirectory) (rest : List Text) :
    walk root links [] ([] :: rest) = walk root links [] rest := by
  conv_lhs => rw [walk.eq_def]
  cases root with
  | directory entries => simp only [FileTree.at?, true_or, if_true]
  | file | link => cases directory

/-- A path is looked up from the root, name by name. -/
theorem locate_eq_ok_iff {disk : Disk} {names there : List Text} (proper : ∀ name ∈ names, IsName name) :
    disk.locate (spelled names) = .ok there ↔ disk.root.isDirectory ∧ '\x00' ∉ spelled names
      ∧ Text.byteLength (spelled names) ≤ maxPath ∧ walk disk.root maxLinks [] names = .ok there := by
  have walked : walk disk.root maxLinks [] (segments (spelled names)) = .ok there
      ↔ disk.root.isDirectory ∧ walk disk.root maxLinks [] names = .ok there := by
    -- The first segment is blank, and so is the second one if the path is the root.
    have blanks : ∃ rest, segments (spelled names) = [] :: rest ∧ (rest = names ∨ rest = [] :: names) := by
      rw [spelled_eq]
      split
      · next root => exact ⟨[[]], rfl, .inr (root ▸ rfl)⟩
      · exact ⟨names, segments_rooted fun name member => (proper name member).single, .inl rfl⟩
    obtain ⟨rest, same, short⟩ := blanks
    rw [same]
    constructor
    · intro arrived
      have directory := isDirectory_of_walk arrived
      rw [walk_blank directory] at arrived
      rcases short with rfl | rfl
      · exact ⟨directory, arrived⟩
      · exact ⟨directory, (walk_blank directory names).symm.trans arrived⟩
    · rintro ⟨directory, arrived⟩
      rw [walk_blank directory]
      rcases short with rfl | rfl
      · exact arrived
      · exact (walk_blank directory names).trans arrived
  rw [locate, if_neg (by simp [spelled]), if_pos (isAbsolute_spelled names)]
  split
  · next nul => simp [List.contains_iff_mem.mp nul]
  · next nul =>
    have absent : '\x00' ∉ spelled names := fun member => nul (List.contains_iff_mem.mpr member)
    split
    · next long => simp [Nat.not_le.mpr long]
    · next short => simp only [walked, absent, Nat.le_of_not_lt short, not_false_eq_true, true_and]

/-- A path that leads to a location is walked to there, from the root or from the current directory. -/
theorem walk_of_locate {disk : Disk} {path : Text} {there : List Text} (located : disk.locate path = .ok there) :
    walk disk.root maxLinks (if isAbsolute path then [] else disk.current) (segments path) = .ok there := by
  rw [locate] at located
  split at located
  · cases located
  · split at located
    · cases located
    · split at located
      · cases located
      · exact located

theorem find_eq_ok_iff {disk : Disk} {path : Text} {tree : FileTree} :
    disk.find path = .ok tree
      ↔ ∃ there, disk.locate path = .ok there ∧ disk.root.at? there = some tree := by
  rw [find]
  cases disk.locate path with
  | error => simp [bind, Except.bind]
  | ok there => cases at_ : disk.root.at? there <;> simp [bind, Except.bind, at_]

theorem isDirectory_iff {disk : Disk} {path : Text} :
    disk.isDirectory path ↔ ∃ entries, disk.find path = .ok (.directory entries) := by
  rw [isDirectory]
  cases disk.find path with
  | error => simp [Except.toOption]
  | ok tree => cases tree <;> simp [Except.toOption, FileTree.isDirectory]

/-- Where a directory is found, what is found below it is what stands in its tree. -/
theorem find_below {disk : Disk} {outer names : List Text} {tree last other : FileTree}
    (above : ∀ name ∈ outer, IsName name) (below : ∀ name ∈ names, IsName name)
    (found : disk.find (spelled outer) = .ok tree) (deeper : tree.at? names = some last)
    (real : ∀ target, last ≠ .link target)
    (found' : disk.find (spelled (outer ++ names)) = .ok other) : other = last := by
  obtain ⟨there, located, place⟩ := find_eq_ok_iff.mp found
  obtain ⟨there', located', place'⟩ := find_eq_ok_iff.mp found'
  obtain ⟨-, -, -, first⟩ := (locate_eq_ok_iff above).mp located
  obtain ⟨-, -, -, whole⟩ := (locate_eq_ok_iff (List.forall_mem_append.mpr ⟨above, below⟩)).mp located'
  -- The lookup of the whole path starts with the one of the directory, and goes on from there.
  obtain ⟨left, onward⟩ := walk_append first
  rw [onward] at whole
  rw [((walk_eq_ok_iff below place deeper real).mp whole).1, FileTree.at?_append, place] at place'
  exact Option.some.inj (place'.symm.trans deeper)

/-- What stands where the names lead is found, unless it is a link or the path cannot be looked up. -/
theorem find_of_at? {disk : Disk} {names : List Text} {tree : FileTree}
    (directory : disk.root.isDirectory) (proper : ∀ name ∈ names, IsName name)
    (place : disk.root.at? names = some tree) (real : ∀ target, tree ≠ .link target)
    (nul : '\x00' ∉ spelled names) (short : Text.byteLength (spelled names) ≤ maxPath)
    (each : ∀ name ∈ names, Text.byteLength name ≤ maxName) : disk.find (spelled names) = .ok tree := by
  refine find_eq_ok_iff.mpr ⟨names, ?_, place⟩
  refine (locate_eq_ok_iff proper).mpr ⟨directory, nul, short, ?_⟩
  exact (walk_eq_ok_iff proper rfl place real).mpr ⟨rfl, each⟩

end Disk

end RootedGlob
