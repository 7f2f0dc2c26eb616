import Mathlib.Data.Char
import Mathlib.Data.List.Lex
import RootedGlob.Finder
import RootedGlob.Proofs.Workspace.Innermost

/-!
# Groups and counters

A step of a search adds the group of one folder and moves both counters, so a whole search gives one group
for each folder, in their order, and the counters are sums over the folders (`foldl_addGroup`). A file of a
walk counts for a folder if it lies in no other folder inside (`around?_eq_iff_isInnermost`). The order of
the files goes by segments; for normal paths this is the order of their names (`not_location_lt_of_comesBefore`), so
that a walk without repetitions gives strictly increasing groups. Whatever the walks find, the groups hold the
selected files, each group in order, and the counters fit them (`select_groups`).
-/

namespace RootedGlob.Finder

open RootedGlob.Path Folders

section Order

theorem comesBefore_iff {one other : Text} : comesBefore one other ↔ ¬ segments other < segments one := by
  have inner : (fun s t : Text => List.lex s t fun c d => decide (c < d)) = fun s t => decide (s < t) := by
    funext s t
    rw [Bool.eq_iff_iff, List.lex_eq_true_iff_lt, decide_eq_true_iff]
  rw [comesBefore, inner, Bool.not_eq_true', ← Bool.not_eq_true, List.lex_eq_true_iff_lt]

theorem pairwise_comesBefore (files : List Text) :
    (files.mergeSort comesBefore).Pairwise fun one other => comesBefore one other := by
  apply List.pairwise_mergeSort
  · intro one two three first second
    rw [comesBefore_iff] at first second ⊢
    exact not_lt.mpr ((not_lt.mp first).trans (not_lt.mp second))
  · intro one other
    rw [Bool.or_eq_true, comesBefore_iff, comesBefore_iff]
    exact (le_total _ _).imp not_lt.mpr not_lt.mpr

/-- Files can be put in order in one way only. -/
theorem mergeSort_comesBefore {files sorted : List Text} (rearranged : files.Perm sorted)
    (ordered : sorted.Pairwise fun one other => comesBefore one other) : files.mergeSort comesBefore = sorted := by
  refine List.Perm.eq_of_pairwise ?_ (pairwise_comesBefore files) ordered ((List.mergeSort_perm _ _).trans rearranged)
  intro one other _ _ before after
  rw [comesBefore_iff] at before after
  -- Neither comes first, so the segments are the same, and they spell the path.
  have same : segments one = segments other := le_antisymm (not_lt.mp before) (not_lt.mp after)
  rw [← ofSegments_segments one, same, ofSegments_segments]

/-- Blank segments at the end do not turn the order of names around. -/
theorem append_lt_append {one other front back : List Text} (names : ∀ name ∈ other, name ≠ [])
    (blank : front = [] ∨ front = [[]]) (less : one < other) : one ++ front < other ++ back := by
  induction one generalizing other with
  | nil =>
    cases other with
    | nil => exact absurd less (List.not_lt_nil _)
    | cons name other =>
      rcases blank with rfl | rfl
      · exact List.nil_lt_cons _ _
      · -- The blank segment comes before every name.
        obtain ⟨c, rest, rfl⟩ := List.exists_cons_of_ne_nil (names name List.mem_cons_self)
        exact List.cons_lt_cons_iff.mpr (.inl (List.nil_lt_cons c rest))
  | cons first one ih =>
    cases other with
    | nil => exact absurd less (List.not_lt_nil _)
    | cons name other =>
      rw [List.cons_lt_cons_iff] at less
      rw [List.cons_append, List.cons_append, List.cons_lt_cons_iff]
      apply less.imp_right
      rintro ⟨same, less⟩
      exact ⟨same, ih (fun other member => names other (List.mem_cons_of_mem _ member)) less⟩

/-- Sorting normal paths by their segments sorts them by their names. -/
theorem not_location_lt_of_comesBefore {one other : Text} (absolute : isAbsolute one ∧ isAbsolute other)
    (normal : normalize one = one ∧ normalize other = other) (before : comesBefore one other) :
    ¬ location other < location one := by
  obtain ⟨front, blank, split⟩ := exists_segments_of_normal absolute.1 normal.1
  obtain ⟨back, blank', split'⟩ := exists_segments_of_normal absolute.2 normal.2
  rw [comesBefore_iff, split, split', List.cons_lt_cons_iff] at before
  intro less
  apply before
  have names : ∀ name ∈ location one, name ≠ [] := fun name member => (isName_of_mem_location member).nonempty
  exact .inr ⟨rfl, append_lt_append names blank' less⟩

end Order

section Innermost

/-- What the walk of a folder may find: normal paths in the folder, and no path twice. Paths of the same names
are one path, with or without a separator at the end. -/
structure IsWalk (folder : Text) (walked : List Text) : Prop where
  absolute : ∀ path ∈ walked, isAbsolute path
  normal : ∀ path ∈ walked, normalize path = path
  noBackslash : ∀ path ∈ walked, '\\' ∉ path
  inside : ∀ path ∈ walked, covers folder path
  distinct : walked.Pairwise fun one other => location one ≠ location other

/-- No other folder inside a folder contains the path. -/
def IsInnermost (folders : Folders) (folder path : Text) : Prop :=
  ∀ inner ∈ folders.paths, inner ≠ folder → covers folder inner → ¬ covers inner path

instance (folders : Folders) (folder path : Text) : Decidable (IsInnermost folders folder path) :=
  List.decidableBAll _ folders.paths

/-- A walked path belongs to a folder around it if it is in no other folder inside. -/
theorem around?_eq_iff_isInnermost {folders : Folders}
    (canonical : ∀ folder ∈ folders.paths, IsCanonical folder) {folder path : Text} {walked : List Text}
    (among : folder ∈ folders.paths) (walk : IsWalk folder walked) (member : path ∈ walked) :
    folders.around? path = some folder ↔ IsInnermost folders folder path := by
  have absolute := walk.absolute path member
  have normal := walk.normal path member
  have absent := walk.noBackslash path member
  have named := isCanonical_location absent
  have place : ∀ other ∈ folders.paths, (covers other path ↔ covers other (spelled (location path))) :=
    fun other inside => covers_iff_of_normal (canonical other inside) absolute normal
  have here := (place folder among).mp (walk.inside path member)
  have above := canonical folder among
  rw [around?_of_normal canonical absolute normal absent, around?_eq_some_iff canonical named]
  constructor
  · rintro ⟨-, -, last⟩ inner inside other below covered
    -- Two folders that contain each other are the same.
    have outer := last inner inside ((place inner inside).mp covered)
    exact other (covers_antisymm (canonical inner inside) above outer below)
  · intro innermost
    refine ⟨among, here, fun other inside covered => ?_⟩
    have one := canonical other inside
    by_cases equal : other = folder
    · exact equal.symm ▸ covers_refl above
    · -- Both folders contain the path, so one of them lies in the other.
      rcases List.prefix_or_prefix_of_prefix ((covers_iff one named).mp covered)
        ((covers_iff above named).mp here) with outer | inner
      · exact (covers_iff one above).mpr outer
      · have below := (covers_iff above one).mpr inner
        exact absurd ((place other inside).mpr covered) (innermost other inside equal below)

end Innermost

section Groups

variable (folders : Folders) (included excluded : Glob.Combined) (walk : Text → Option (List Text))

/-- The group of a folder. -/
def groupOf (folder : Text) : FolderFiles :=
  ⟨folder, ((owned folders folder ((walk folder).getD [])).filter fun file =>
    included.isMatch file && !excluded.isMatch file).mergeSort comesBefore⟩

/-- How many files of its walk a folder owns. -/
def ownedCount (folder : Text) : Nat := (owned folders folder ((walk folder).getD [])).length

variable {folders included excluded walk}

/-- A search adds the groups of its folders one after the other, and each counter grows by a sum. -/
theorem foldl_addGroup (paths : List Text) (findings : Findings) :
    paths.foldl (addGroup folders included excluded walk) findings =
      { groups := findings.groups ++ paths.map (groupOf folders included excluded walk)
        total := findings.total
          + (paths.map fun folder => (groupOf folders included excluded walk folder).files.length).sum
        scanned := findings.scanned + (paths.map (ownedCount folders walk)).sum } := by
  induction paths generalizing findings with
  | nil => simp
  | cons folder paths ih =>
    rw [List.foldl_cons, ih]
    simp [addGroup, groupOf, ownedCount, Nat.add_assoc]

theorem select_eq_ok {scope : Scope} (inside : Glob.Combined.compile scope.included = .ok included)
    (outside : (scope.excluded.map Glob.Combined.compile).getD (.ok {}) = .ok excluded) :
    select folders scope walk = .ok (folders.paths.foldl (addGroup folders included excluded walk) {}) := by
  simp [select, inside, outside, bind, Except.bind, pure, Except.pure]

/-- The counter of selected files counts the files of all groups. -/
theorem total_foldl_addGroup (paths : List Text) :
    (paths.foldl (addGroup folders included excluded walk) {}).total
      = (paths.foldl (addGroup folders included excluded walk) {}).files.length := by
  rw [foldl_addGroup]
  simp [Findings.files, List.length_flatMap, Function.comp_def]

/-- No group has more files than its folder owns. -/
theorem length_groupOf_le (folder : Text) :
    (groupOf folders included excluded walk folder).files.length ≤ ownedCount folders walk folder := by
  rw [groupOf, List.length_mergeSort, ownedCount]
  exact List.length_filter_le _ _

end Groups

/-- What a search found, given the walks of its folders: the group of a folder holds what was selected from its
walk and lies in no other folder inside, strictly in order; the counters say how many paths were looked at and
how many were selected. -/
structure IsGrouping (folders : Folders) (included excluded : Glob.Combined)
    (walk : Text → Option (List Text)) (findings : Findings) : Prop where
  listed : findings.groups.map (·.folder) = folders.paths
  members : ∀ group ∈ findings.groups, ∀ path, path ∈ group.files ↔
    ∃ walked, walk group.folder = some walked ∧ path ∈ walked ∧ IsInnermost folders group.folder path
      ∧ included.isMatch path ∧ ¬ excluded.isMatch path
  increasing : ∀ group ∈ findings.groups,
    group.files.Pairwise fun one other => location one < location other
  scanned : findings.scanned = (folders.paths.map fun folder =>
    (walk folder).elim 0 fun walked => walked.countP fun path => IsInnermost folders folder path).sum
  total : findings.total = findings.files.length
  bounded : findings.total ≤ findings.scanned

section Grouping

variable {folders : Folders} {included excluded : Glob.Combined} {walk : Text → Option (List Text)}
  (canonical : ∀ folder ∈ folders.paths, IsCanonical folder)
  (walks : ∀ folder ∈ folders.paths, ∀ walked, walk folder = some walked → IsWalk folder walked)
  {folder : Text} (among : folder ∈ folders.paths)

include canonical walks among

/-- What a folder owns of its walk lies in no other folder inside. -/
theorem owned_eq {walked : List Text} (found : walk folder = some walked) :
    owned folders folder walked = walked.filter fun path => IsInnermost folders folder path := by
  refine List.filter_congr fun path member => Bool.eq_iff_iff.mpr ?_
  rw [beq_iff_eq, decide_eq_true_iff]
  exact around?_eq_iff_isInnermost canonical among (walks folder among walked found) member

theorem ownedCount_eq : ownedCount folders walk folder =
    (walk folder).elim 0 fun walked => walked.countP fun path => IsInnermost folders folder path := by
  rw [ownedCount]
  cases found : walk folder with
  | none => rfl
  | some walked => rw [Option.getD_some, owned_eq canonical walks among found, Option.elim_some,
      List.countP_eq_length_filter]

theorem mem_groupOf_iff {path : Text} : path ∈ (groupOf folders included excluded walk folder).files ↔
    ∃ walked, walk folder = some walked ∧ path ∈ walked ∧ IsInnermost folders folder path
      ∧ included.isMatch path ∧ ¬ excluded.isMatch path := by
  rw [groupOf, List.mem_mergeSort, List.mem_filter]
  cases found : walk folder with
  | none => simp [owned]
  | some walked =>
    rw [Option.getD_some, owned_eq canonical walks among found, List.mem_filter]
    simp [and_assoc]

/-- Sorting the selected files of a walk leaves no two of them in the wrong order or equal. -/
theorem pairwise_groupOf : (groupOf folders included excluded walk folder).files.Pairwise
    fun one other => location one < location other := by
  -- Sorting gives the order of the comparison, which is total, but not yet that of the locations.
  have sorted : (groupOf folders included excluded walk folder).files.Pairwise fun one other =>
      comesBefore one other := pairwise_comesBefore _
  -- No location comes twice on a walk, and sorting is a permutation.
  have apart : (groupOf folders included excluded walk folder).files.Pairwise fun one other =>
      location one ≠ location other := by
    rw [groupOf, (List.mergeSort_perm _ _).pairwise_iff fun differs => Ne.symm differs]
    cases found : walk folder with
    | none => simp [owned]
    | some walked => exact ((walks folder among walked found).distinct.filter _).filter _
  refine (sorted.and apart).imp_of_mem fun {one other} first second => ?_
  rintro ⟨before, differs⟩
  obtain ⟨walked, found, member, -⟩ := (mem_groupOf_iff canonical walks among).mp first
  obtain ⟨walked', found', member', -⟩ := (mem_groupOf_iff canonical walks among).mp second
  rw [found, Option.some.injEq] at found'
  subst found'
  have walk := walks folder among walked found
  have least := not_location_lt_of_comesBefore ⟨walk.absolute one member, walk.absolute other member'⟩
    ⟨walk.normal one member, walk.normal other member'⟩ before
  exact lt_of_le_of_ne (not_lt.mp least) differs

end Grouping

/-- A search fails with the fault of a glob that does not compile. Otherwise it gives one group for each folder
and the numbers that belong to the groups, whatever the walks of the folders find. -/
theorem select_groups {raw : List Text} {folders : Folders} (built : Folders.ofPaths raw = .ok folders)
    {walk : Text → Option (List Text)}
    (walks : ∀ folder ∈ folders.paths, ∀ walked, walk folder = some walked → IsWalk folder walked)
    (scope : Scope) :
    (∀ fault, Glob.Combined.compile scope.included = .error fault →
        select folders scope walk = .error fault)
      ∧ (∀ included fault, Glob.Combined.compile scope.included = .ok included →
        (scope.excluded.map Glob.Combined.compile).getD (.ok {}) = .error fault →
        select folders scope walk = .error fault)
      ∧ ∀ included excluded, Glob.Combined.compile scope.included = .ok included →
        (scope.excluded.map Glob.Combined.compile).getD (.ok {}) = .ok excluded →
        ∃ findings, select folders scope walk = .ok findings
          ∧ IsGrouping folders included excluded walk findings := by
  have canonical : ∀ folder ∈ folders.paths, IsCanonical folder := fun _ => isCanonical_of_mem_paths built
  refine ⟨fun fault fails => ?_, fun included fault inside fails => ?_, fun included excluded inside outside => ?_⟩
  · simp [select, fails, bind, Except.bind]
  · simp [select, inside, fails, bind, Except.bind]
  · refine ⟨_, select_eq_ok inside outside, ?_⟩
    -- The findings are a fold over the folders, in closed form the groups one by one with the sums of
    -- their numbers.
    have closed := @foldl_addGroup folders included excluded walk folders.paths {}
    rw [List.nil_append, Nat.zero_add, Nat.zero_add] at closed
    refine ⟨?_, ?_, ?_, ?_, total_foldl_addGroup folders.paths, ?_⟩
    · rw [closed, List.map_map]
      exact List.map_id _
    · rw [closed]
      intro group member
      obtain ⟨folder, among, rfl⟩ := List.mem_map.mp member
      exact fun path => mem_groupOf_iff canonical walks among
    · rw [closed]
      intro group member
      obtain ⟨folder, among, rfl⟩ := List.mem_map.mp member
      exact pairwise_groupOf canonical walks among
    · rw [closed]
      exact congrArg List.sum (List.map_congr_left fun folder among => ownedCount_eq canonical walks among)
    · rw [closed]
      exact List.sum_le_sum fun folder _ => length_groupOf_le folder

/-- The walks of two nested folders. The outer one finds its files out of order, with the inner file between. -/
def nestedWalk (folder : Text) : Option (List Text) :=
  if folder = "/a".toList then some ["/a/f".toList, "/a/b/g".toList, "/a/x.log".toList, "/a/c".toList]
  else if folder = "/a/b".toList then some ["/a/b/g".toList]
  else none

theorem isWalk_nestedWalk : ∀ folder ∈ ["/a".toList, "/a/b".toList], ∀ walked,
    nestedWalk folder = some walked → IsWalk folder walked := by
  intro folder member walked found
  rcases List.mem_pair.mp member with rfl | rfl
  all_goals
    cases found
    exact ⟨by decide, by decide, by decide, by decide, by decide⟩

/-- The outer folder owns what it has itself, in order, and not what the inner folder has; a file that is left out
counts as looked at. -/
theorem select_groups_nested :
    let folders : Folders := ⟨["/a".toList, "/a/b".toList]⟩
    let scope : Scope := ⟨"/a/**".toList, some "/a/*.log".toList⟩
    let included : Glob.Combined :=
      ⟨"/a/**".toList, [⟨"/a/**".toList, "/a/".toList.map .literal ++ [.anyDirectories]⟩]⟩
    let excluded : Glob.Combined :=
      ⟨"/a/*.log".toList, [⟨"/a/*.log".toList, "/a/".toList.map .literal ++ .anyRun :: ".log".toList.map .literal⟩]⟩
    let findings : Findings :=
      ⟨[⟨"/a".toList, ["/a/c".toList, "/a/f".toList]⟩, ⟨"/a/b".toList, ["/a/b/g".toList]⟩], 3, 4⟩
    Folders.ofPaths ["/a".toList, "/a/b".toList] = .ok folders
      ∧ (∀ folder ∈ folders.paths, ∀ walked, nestedWalk folder = some walked → IsWalk folder walked)
      ∧ Glob.Combined.compile scope.included = .ok included
      ∧ (scope.excluded.map Glob.Combined.compile).getD (.ok {}) = .ok excluded
      ∧ select folders scope nestedWalk = .ok findings
      ∧ IsGrouping folders included excluded nestedWalk findings := by
  intro folders scope included excluded findings
  have built : Folders.ofPaths ["/a".toList, "/a/b".toList] = .ok folders := by decide +kernel
  have inside : Glob.Combined.compile scope.included = .ok included := by decide +kernel
  have outside : (scope.excluded.map Glob.Combined.compile).getD (.ok {}) = .ok excluded := by decide +kernel
  have selected : select folders scope nestedWalk = .ok findings := by
    have outer : groupOf folders included excluded nestedWalk "/a".toList
        = ⟨"/a".toList, ["/a/c".toList, "/a/f".toList]⟩ :=
      congrArg (FolderFiles.mk _) (mergeSort_comesBefore (by decide +kernel) (by decide +kernel))
    have inner : groupOf folders included excluded nestedWalk "/a/b".toList
        = ⟨"/a/b".toList, ["/a/b/g".toList]⟩ :=
      congrArg (FolderFiles.mk _) (mergeSort_comesBefore (by decide +kernel) (by decide +kernel))
    have counts : folders.paths.map (ownedCount folders nestedWalk) = [3, 1] := by decide +kernel
    have lengths : folders.paths.map (fun folder =>
        (groupOf folders included excluded nestedWalk folder).files.length) = [2, 1] := by
      rw [List.map_cons, List.map_cons, outer, inner]
      rfl
    rw [select_eq_ok inside outside, foldl_addGroup, counts, lengths, List.map_cons, List.map_cons, outer, inner]
    rfl
  obtain ⟨-, -, grouped⟩ := select_groups built isWalk_nestedWalk scope
  obtain ⟨found, same, grouping⟩ := grouped included excluded inside outside
  rw [selected, Except.ok.injEq] at same
  subst same
  exact ⟨built, isWalk_nestedWalk, inside, outside, selected, grouping⟩

end RootedGlob.Finder
