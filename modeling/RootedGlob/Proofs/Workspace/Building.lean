import RootedGlob.Proofs.Workspace.Folders

/-!
# Building a workspace

A path is taken for a folder if it starts at the root or with a drive, once its backslashes are read as
separators. The folder is then the spelling of the location of the path, where a drive is a name below the root
(`normalizeFolder_eq`). So a workspace has a folder for each path, in the same order, and building a workspace
from its own folders changes nothing.
-/

namespace RootedGlob.Folders

open RootedGlob.Path

variable {paths : List Text} {folders : Folders}

/-- A workspace is built from paths that start at the root, and has their folders in their order. -/
theorem ofPaths_eq_ok_iff : ofPaths paths = .ok folders ↔
    (∀ path ∈ paths, StartsAtRoot (Text.slashed path))
      ∧ folders.paths = paths.map fun path => spelled (location (Text.slashed path)) := by
  have built : ofPaths paths = .ok folders ↔ paths.mapM normalizeFolder = .ok folders.paths := by
    cases folders
    rw [ofPaths]
    cases paths.mapM normalizeFolder <;> simp [Except.map]
  simp only [built, mapM_eq_ok_iff, normalizeFolder_eq_ok_iff]
  rw [List.forall₂_and_left, ← List.forall₂_map_left_iff (R := Eq), List.forall₂_eq_eq_eq, eq_comm]

/-- A workspace is not built because of the first path that starts somewhere else. -/
theorem ofPaths_eq_error_iff {error : Error} : ofPaths paths = .error error ↔
    ∃ front path back, paths = front ++ path :: back
      ∧ (∀ other ∈ front, StartsAtRoot (Text.slashed other))
      ∧ ¬ StartsAtRoot (Text.slashed path) ∧ error = .relativeFolder (Text.slashed path) := by
  have failed : ofPaths paths = .error error ↔ paths.mapM normalizeFolder = .error error := by
    rw [ofPaths]
    cases paths.mapM normalizeFolder <;> simp [Except.map]
  simp only [failed, mapM_eq_error_iff, normalizeFolder_eq_ok_iff, normalizeFolder_eq_error_iff, exists_and_left,
    exists_eq', and_true]

/-- Canonical paths are the folders of the workspace that is built from them. -/
theorem ofPaths_of_isCanonical (canonical : ∀ path ∈ paths, IsCanonical path) : ofPaths paths = .ok ⟨paths⟩ := by
  refine ofPaths_eq_ok_iff.mpr ⟨fun path member => ?_, ?_⟩
  · rw [slashed_of_not_mem (canonical path member).noBackslash]
    exact startsAtRoot_iff.mpr (.inl (canonical path member).isAbsolute)
  · refine (List.map_id paths).symm.trans (List.map_congr_left fun path member => ?_)
    rw [slashed_of_not_mem (canonical path member).noBackslash, ← (canonical path member).spelling, id]

theorem endsWithSeparator_spelled {names : List Text} (proper : ∀ name ∈ names, IsName name) :
    spelled names = [separator] ∨ endsWithSeparator (spelled names) = false := by
  rw [spelled_eq]
  split
  · exact .inl rfl
  · exact .inr (endsWithSeparator_rooted proper)

/-- Folder sets are canonical. A workspace can be built exactly from paths that start at the root or with a drive
when their backslashes are read as separators. It then has a folder for each path, in the same order. Every folder
is the root, or a separator in front of names that are joined by separators; it has no backslash, and no separator
at the end unless it is the root. Building again from the folders gives the same workspace. If a workspace cannot
be built, the fault shows the first path that starts somewhere else. -/
theorem ofPaths_canonical (paths : List Text) :
    ((∃ folders, ofPaths paths = .ok folders) ↔ ∀ path ∈ paths, StartsAtRoot (Text.slashed path))
      ∧ (∀ folders, ofPaths paths = .ok folders →
        folders.paths = paths.map (fun path => spelled (location (Text.slashed path)))
          ∧ (∀ folder ∈ folders.paths,
            (∃ names, (∀ name ∈ names, IsName name) ∧ folder = separator :: ofSegments names)
              ∧ '\\' ∉ folder ∧ (folder = [separator] ∨ endsWithSeparator folder = false))
          ∧ ofPaths folders.paths = .ok folders)
      ∧ ∀ error, ofPaths paths = .error error → ∃ front path back, paths = front ++ path :: back
        ∧ (∀ other ∈ front, StartsAtRoot (Text.slashed other))
        ∧ ¬ StartsAtRoot (Text.slashed path) ∧ error = .relativeFolder (Text.slashed path) := by
  refine ⟨⟨?_, ?_⟩, ?_, fun error => ofPaths_eq_error_iff.mp⟩
  · rintro ⟨folders, built⟩
    exact (ofPaths_eq_ok_iff.mp built).1
  · intro starts
    exact ⟨⟨_⟩, ofPaths_eq_ok_iff.mpr ⟨starts, rfl⟩⟩
  · intro folders built
    have canonical : ∀ folder ∈ folders.paths, IsCanonical folder := fun _ => isCanonical_of_mem_paths built
    refine ⟨(ofPaths_eq_ok_iff.mp built).2, fun folder member => ?_, ofPaths_of_isCanonical canonical⟩
    obtain ⟨names, proper, rfl⟩ := (canonical folder member).names
    exact ⟨⟨names, proper, rfl⟩, (canonical _ member).noBackslash, endsWithSeparator_spelled proper⟩

/-- Drives, parents, repeated separators and the root, and a list in which the second of two relative paths is not
reached. -/
theorem ofPaths_canonical_drive :
    let folders : Folders := ⟨["/C:/y".toList, "/a/b".toList, "/".toList]⟩
    ofPaths ["C:\\x\\..\\y\\".toList, "//a/./b//".toList, "/../..".toList] = .ok folders
      ∧ (∃ names, (∀ name ∈ names, IsName name) ∧ "/C:/y".toList = separator :: ofSegments names)
      ∧ ofPaths folders.paths = .ok folders
      ∧ ofPaths ["/a".toList, "\\..\\x".toList, "1:\\".toList, "x".toList]
        = .error (.relativeFolder "1:/".toList)
      ∧ ¬ StartsAtRoot "1:/".toList := by
  obtain ⟨starts, built, -⟩ :=
    ofPaths_canonical ["C:\\x\\..\\y\\".toList, "//a/./b//".toList, "/../..".toList]
  obtain ⟨folders, found⟩ := starts.mpr (by decide +kernel)
  obtain ⟨paths, shape, again⟩ := built folders found
  have stored : folders = ⟨["/C:/y".toList, "/a/b".toList, "/".toList]⟩ := by
    cases folders
    exact congrArg Folders.mk (paths.trans (by decide +kernel))
  subst stored
  have error : ofPaths ["/a".toList, "\\..\\x".toList, "1:\\".toList, "x".toList]
      = .error (.relativeFolder "1:/".toList) := by decide +kernel
  obtain ⟨_, path, _, -, -, relative, same⟩ := (ofPaths_canonical _).2.2 _ error
  rw [Error.relativeFolder.injEq] at same
  exact ⟨found, (shape _ (by decide)).1, again, error, same ▸ relative⟩

end RootedGlob.Folders
