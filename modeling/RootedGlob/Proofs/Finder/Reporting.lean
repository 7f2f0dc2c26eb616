import Mathlib.Data.Set.Card
import RootedGlob.Proofs.Finder.Grouping
import RootedGlob.Proofs.Finder.Walk

/-!
# What is reported, and how often

A step of a search adds the selected files that the walk of a folder finds and that lie in no folder inside
(`mem_addGroup_iff`), each as often as the walk finds it (`count_addGroup`). So a file is reported once for
every time that its innermost folder stands in the list and for every time that the walk of this folder
finds it (`count_files`). Without rules and with hidden names, every selected file is reported once exactly
if the innermost folder around each of them is a directory that stands in the list once
(`reportsOnce_iff`).
-/

namespace RootedGlob.Finder

open RootedGlob.Path

section Groups

variable {folders : Folders} {included excluded : Glob.Combined} {walk : Text → Option (List Text)}
  {findings : Findings} {folder path : Text}

/-- One step reports the files of one folder, and whatever was reported before. -/
theorem files_addGroup : (addGroup folders included excluded walk findings folder).files
    = findings.files ++ (((owned folders folder ((walk folder).getD [])).filter
        fun file => included.isMatch file && !excluded.isMatch file).mergeSort comesBefore) := by
  simp [addGroup, Findings.files]

theorem mem_addGroup_iff : path ∈ (addGroup folders included excluded walk findings folder).files
    ↔ path ∈ findings.files ∨ (folders.around? path = some folder ∧ path ∈ (walk folder).getD []
      ∧ included.isMatch path ∧ ¬ excluded.isMatch path) := by
  rw [files_addGroup, List.mem_append, List.mem_mergeSort, List.mem_filter, owned, List.mem_filter]
  simp only [beq_iff_eq, Bool.and_eq_true, Bool.not_eq_true', Bool.not_eq_true]
  tauto

theorem count_addGroup {inner : Text} (around : folders.around? path = some inner)
    (selected : included.isMatch path ∧ ¬ excluded.isMatch path) :
    (addGroup folders included excluded walk findings folder).files.count path
      = findings.files.count path + if folder = inner then ((walk inner).getD []).count path else 0 := by
  rw [files_addGroup, List.count_append, (List.mergeSort_perm _ _).count_eq,
    List.count_filter (by simpa using selected), owned]
  congr 1
  split
  · next same =>
    subst same
    exact List.count_filter (by simp [around])
  · next other =>
    refine List.count_eq_zero.mpr fun member => ?_
    have same := (List.mem_filter.mp member).2
    rw [around, beq_iff_eq, Option.some.injEq] at same
    exact other same.symm

/-- What is reported was found on the walk of the innermost folder around it. -/
theorem mem_files_foldl_iff {paths : List Text} :
    path ∈ (paths.foldl (addGroup folders included excluded walk) findings).files
      ↔ path ∈ findings.files ∨ ∃ folder ∈ paths, folders.around? path = some folder
        ∧ path ∈ (walk folder).getD [] ∧ included.isMatch path ∧ ¬ excluded.isMatch path := by
  induction paths generalizing findings with
  | nil => simp
  | cons first paths ih =>
    rw [List.foldl_cons, ih, mem_addGroup_iff, or_assoc]
    simp only [List.exists_mem_cons_iff]

/-- A selected file is reported for every time that its innermost folder stands in the list. -/
theorem count_files_foldl {paths : List Text} (around : folders.around? path = some folder)
    (selected : included.isMatch path ∧ ¬ excluded.isMatch path) :
    (paths.foldl (addGroup folders included excluded walk) findings).files.count path
      = findings.files.count path + paths.count folder * ((walk folder).getD []).count path := by
  induction paths generalizing findings with
  | nil => simp
  | cons first paths ih =>
    rw [List.foldl_cons, ih, count_addGroup around selected, List.count_cons]
    simp only [beq_iff_eq]
    split
    · rw [Nat.add_mul, Nat.one_mul]
      omega
    · rw [Nat.add_zero, Nat.add_zero]

end Groups

theorem find_eq_ok {env : Environment} {options : WalkOptions} {folders : Folders} {scope : Scope}
    {included excluded : Glob.Combined} (inside : Glob.Combined.compile scope.included = .ok included)
    (outside : (scope.excluded.map Glob.Combined.compile).getD (.ok {}) = .ok excluded) :
    find env options folders scope
      = .ok (folders.paths.foldl (addGroup folders included excluded (walk env options)) {}) := by
  rw [find, select_eq_ok inside outside]
  rfl

/-- Some folder reaches the file, the included glob matches it and the excluded one does not. -/
def Selected (disk : Disk) (folders : Folders) (included excluded : Glob.Combined) (path : Text) : Prop :=
  (∃ folder ∈ folders.paths, Reaches disk folder path) ∧ included.isMatch path ∧ ¬ excluded.isMatch path

/-- The selected files are reported, each of them once, and nothing else is. -/
structure ReportsOnce (findings : Findings) (selected : Text → Prop) : Prop where
  once : ∀ path, selected path → findings.files.count path = 1
  only : ∀ path ∈ findings.files, selected path
  total : findings.total = {path | selected path}.ncard

/-- The total is right if every file is reported once. -/
theorem reportsOnce_of_count {findings : Findings} {selected : Text → Prop}
    (counted : findings.total = findings.files.length)
    (once : ∀ path, selected path → findings.files.count path = 1)
    (only : ∀ path ∈ findings.files, selected path) : ReportsOnce findings selected := by
  refine ⟨once, only, ?_⟩
  have nodup : findings.files.Nodup := by
    refine List.nodup_iff_count_le_one.mpr fun path => ?_
    by_cases member : path ∈ findings.files
    · exact Nat.le_of_eq (once path (only path member))
    · exact (List.count_eq_zero.mpr member).trans_le (Nat.zero_le 1)
  have same : {path | selected path} = ↑findings.files.toFinset := by
    ext path
    rw [Set.mem_ofPred_eq, Finset.mem_coe, List.mem_toFinset]
    refine ⟨fun chosen => List.count_pos_iff.mp ?_, only path⟩
    rw [once path chosen]
    exact Nat.one_pos
  rw [same, Set.ncard_coe_finset, List.toFinset_card_of_nodup nodup, counted]

section Once

variable {env : Environment} {folders : Folders} {outer folder path : Text}
  (canonical : ∀ folder ∈ folders.paths, IsCanonical folder) (proper : env.disk.root.IsProper)

include canonical proper

/-- There is an innermost folder around a file that some folder reaches. -/
theorem exists_around?_of_reaches (member : outer ∈ folders.paths) (reached : Reaches env.disk outer path) :
    ∃ folder, folders.around? path = some folder := by
  have file := reached.isCanonical proper (canonical outer member)
  refine Option.isSome_iff_exists.mp ((Folders.isSome_around?_iff file.noBackslash).mpr ⟨outer, member, ?_⟩)
  exact reached.covers proper (canonical outer member)

/-- The innermost folder around a reached file reaches the file, if it is a directory at all. -/
theorem reaches_around?_iff (member : outer ∈ folders.paths) (reached : Reaches env.disk outer path)
    (around : folders.around? path = some folder) :
    Reaches env.disk folder path ↔ env.disk.isDirectory folder := by
  constructor
  · rintro ⟨entries, -, found, -⟩
    exact Disk.isDirectory_iff.mpr ⟨entries, found⟩
  · intro directory
    have above := canonical outer member
    have file := reached.isCanonical proper above
    obtain ⟨among, inside, last⟩ := (Folders.around?_eq_some_iff canonical file).mp around
    have outside := last outer member (reached.covers proper above)
    exact reached.inner proper above (canonical folder among) outside inside directory

end Once

/-- A search that passes over nothing reports every selected file once exactly if the innermost folder around
each of them is a directory that stands in the list once. -/
theorem reportsOnce_iff {raw : List Text} {folders : Folders} (built : Folders.ofPaths raw = .ok folders)
    {env : Environment} (proper : env.disk.root.IsProper) {scope : Scope}
    {included excluded : Glob.Combined} (inside : Glob.Combined.compile scope.included = .ok included)
    (outside : (scope.excluded.map Glob.Combined.compile).getD (.ok {}) = .ok excluded) :
    ∃ findings, find env everything folders scope = .ok findings
      ∧ (ReportsOnce findings (Selected env.disk folders included excluded)
        ↔ ∀ path, Selected env.disk folders included excluded path →
          ∀ folder, folders.around? path = some folder →
            env.disk.isDirectory folder ∧ folders.paths.count folder = 1) := by
  have canonical : ∀ folder ∈ folders.paths, IsCanonical folder := fun _ =>
    Folders.isCanonical_of_mem_paths built
  refine ⟨_, find_eq_ok inside outside, fun report path selected folder around => ?_, fun single => ?_⟩
  · have once := report.once path selected
    obtain ⟨⟨outer, member, reached⟩, chosen⟩ := selected
    rw [count_files_foldl around chosen, show Findings.files {} = [] from rfl, List.count_nil, Nat.zero_add]
      at once
    -- Both factors of the count are one: how often the folder is listed, and how often its walk finds
    -- the file.
    have listed := Nat.eq_one_of_mul_eq_one_right once
    have walked : path ∈ (walk env everything folder).getD [] := by
      refine List.count_pos_iff.mp ?_
      rw [Nat.eq_one_of_mul_eq_one_left once]
      exact Nat.one_pos
    rw [mem_walk_iff proper, reaches_around?_iff canonical proper member reached around] at walked
    exact ⟨walked, listed⟩
  · apply reportsOnce_of_count (total_foldl_addGroup folders.paths)
    · intro path selected
      obtain ⟨⟨outer, member, reached⟩, chosen⟩ := id selected
      obtain ⟨folder, around⟩ := exists_around?_of_reaches canonical proper member reached
      obtain ⟨directory, listed⟩ := single path selected folder around
      have walked : path ∈ (walk env everything folder).getD [] := by
        rw [mem_walk_iff proper, reaches_around?_iff canonical proper member reached around]
        exact directory
      rw [count_files_foldl around chosen, listed,
        List.count_eq_one_of_mem (nodup_walk proper (canonical folder (Folders.mem_of_around? around))) walked]
      rfl
    · intro path reported
      obtain impossible | ⟨folder, member, -, walked, chosen⟩ := mem_files_foldl_iff.mp reported
      · cases impossible
      · exact ⟨⟨folder, member, (mem_walk_iff proper).mp walked⟩, chosen⟩

/-- A disk with a file in a directory and one in a directory inside. -/
def nested : Environment :=
  { disk := { root := .directory [("a".toList, .directory [("f".toList, .file .empty),
      ("b".toList, .directory [("g".toList, .file .empty)])])] } }

/-- Everything below the outer directory. -/
def belowNested : Glob.Combined :=
  ⟨"/a/**".toList, [⟨"/a/**".toList, [.literal '/', .literal 'a', .literal '/', .anyDirectories]⟩]⟩

theorem compile_belowNested : Glob.Combined.compile "/a/**".toList = .ok belowNested := by decide +kernel

theorem isProper_nested : nested.disk.root.IsProper := by
  have name {c : Char} (ordinary : c ≠ '.' ∧ c ≠ separator ∧ c ≠ '\\') : IsName [c] ∧ '\\' ∉ [c] :=
    ⟨isName_of_mem List.mem_cons_self ordinary.1 (by simpa using Ne.symm ordinary.2.1),
      by simpa using Ne.symm ordinary.2.2⟩
  have leaf : (FileTree.file .empty).IsProper := FileTree.isProper_of_not_isDirectory rfl
  have deepest : (FileTree.directory [("g".toList, .file .empty)]).IsProper := by
    refine FileTree.isProper_directory_iff.mpr ⟨by decide, ?_⟩
    exact List.forall_mem_singleton.mpr ⟨name (by decide), leaf⟩
  refine FileTree.isProper_directory_iff.mpr ⟨by decide, ?_⟩
  refine List.forall_mem_singleton.mpr ⟨name (by decide), FileTree.isProper_directory_iff.mpr ⟨by decide, ?_⟩⟩
  rw [List.forall_mem_cons, List.forall_mem_singleton]
  exact ⟨⟨name (by decide), leaf⟩, name (by decide), deepest⟩

theorem find_nested {names : List Text} {tree : FileTree} (place : nested.disk.root.at? names = some tree)
    (real : ∀ target, tree ≠ .link target) (plain : '\x00' ∉ spelled names
      ∧ Text.byteLength (spelled names) ≤ Disk.maxPath
      ∧ ∀ name ∈ names, Text.byteLength name ≤ Disk.maxName) : nested.disk.find (spelled names) = .ok tree :=
  Disk.find_of_at? rfl (fun name member => ((isProper_nested.at? place).2 name member).1) place real
    plain.1 plain.2.1 plain.2.2

theorem reaches_nested {names : List Text} {content : ByteArray}
    (place : nested.disk.root.at? ("a".toList :: names) = some (.file content)) :
    Reaches nested.disk "/a".toList (under "/a".toList (ofSegments names)) := by
  have found := @find_nested ["a".toList] _ rfl (by simp) (by decide)
  exact ⟨_, names, found, ⟨content, place⟩, rfl⟩

theorem reportsOnce_iff_nested :
    Folders.ofPaths ["/a".toList, "/a/b".toList] = .ok ⟨["/a".toList, "/a/b".toList]⟩
      ∧ nested.disk.root.IsProper
      ∧ Glob.Combined.compile "/a/**".toList = .ok belowNested
      ∧ Selected nested.disk ⟨["/a".toList, "/a/b".toList]⟩ belowNested {} "/a/b/g".toList
      ∧ ∃ findings, find nested everything ⟨["/a".toList, "/a/b".toList]⟩ ⟨"/a/**".toList, none⟩ = .ok findings
        ∧ ReportsOnce findings (Selected nested.disk ⟨["/a".toList, "/a/b".toList]⟩ belowNested {}) := by
  have built : Folders.ofPaths ["/a".toList, "/a/b".toList] = .ok ⟨["/a".toList, "/a/b".toList]⟩ := by
    decide +kernel
  obtain ⟨findings, found, single⟩ := @reportsOnce_iff _ _ built _ isProper_nested ⟨"/a/**".toList, none⟩
    _ _ compile_belowNested rfl
  refine ⟨built, isProper_nested, compile_belowNested, ?_, findings, found, single.mpr ?_⟩
  · exact ⟨⟨_, List.mem_cons_self, @reaches_nested ["b".toList, "g".toList] _ rfl⟩, by decide +kernel⟩
  · intro path _ folder around
    have outer := @find_nested ["a".toList] _ rfl (by simp) (by decide)
    have inner := @find_nested ["a".toList, "b".toList] _ rfl (by simp) (by decide)
    rcases List.mem_pair.mp (Folders.mem_of_around? around) with rfl | rfl
    · exact ⟨Disk.isDirectory_iff.mpr ⟨_, outer⟩, by decide⟩
    · exact ⟨Disk.isDirectory_iff.mpr ⟨_, inner⟩, by decide⟩

/-- A folder that stands in the list twice reports its files twice, and a file that is a folder itself is not
reported at all. -/
theorem not_reportsOnce_nested :
    Folders.ofPaths ["/a".toList, "/a".toList] = .ok ⟨["/a".toList, "/a".toList]⟩
      ∧ Folders.ofPaths ["/a".toList, "/a/f".toList] = .ok ⟨["/a".toList, "/a/f".toList]⟩
      ∧ nested.disk.root.IsProper
      ∧ Glob.Combined.compile "/a/**".toList = .ok belowNested
      ∧ (∃ findings, find nested everything ⟨["/a".toList, "/a".toList]⟩ ⟨"/a/**".toList, none⟩ = .ok findings
        ∧ Selected nested.disk ⟨["/a".toList, "/a".toList]⟩ belowNested {} "/a/f".toList
        ∧ findings.files.count "/a/f".toList = 2)
      ∧ ∃ findings, find nested everything ⟨["/a".toList, "/a/f".toList]⟩ ⟨"/a/**".toList, none⟩ = .ok findings
        ∧ Selected nested.disk ⟨["/a".toList, "/a/f".toList]⟩ belowNested {} "/a/f".toList
        ∧ "/a/f".toList ∉ findings.files := by
  have reached : Reaches nested.disk "/a".toList "/a/f".toList := @reaches_nested ["f".toList] _ rfl
  have chosen : belowNested.isMatch "/a/f".toList ∧ ¬ Glob.Combined.isMatch {} "/a/f".toList := by
    decide +kernel
  refine ⟨by decide +kernel, by decide +kernel, isProper_nested, compile_belowNested,
    ⟨_, find_eq_ok compile_belowNested rfl, ⟨⟨_, List.mem_cons_self, reached⟩, chosen⟩, ?_⟩,
    ⟨_, find_eq_ok compile_belowNested rfl, ⟨⟨_, List.mem_cons_self, reached⟩, chosen⟩, ?_⟩⟩
  · have walked := (mem_walk_iff isProper_nested).mpr reached
    have canonical : IsCanonical "/a".toList := ⟨by decide, by decide⟩
    rw [@count_files_foldl _ _ _ _ _ "/a".toList _ _ (by decide +kernel) chosen,
      List.count_eq_one_of_mem (nodup_walk isProper_nested canonical) walked]
    decide
  · intro reported
    obtain impossible | ⟨folder, -, around, walked, -⟩ := mem_files_foldl_iff.mp reported
    · cases impossible
    · have innermost : Folders.around? ⟨["/a".toList, "/a/f".toList]⟩ "/a/f".toList
          = some "/a/f".toList := by decide +kernel
      cases innermost.symm.trans around
      -- The innermost folder is the file itself, and nothing is found on a walk of it.
      obtain ⟨entries, -, directory, -⟩ := (mem_walk_iff isProper_nested).mp walked
      have file := @find_nested ["a".toList, "f".toList] _ rfl (by simp) (by decide)
      cases file.symm.trans directory

end RootedGlob.Finder
