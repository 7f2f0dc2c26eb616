import Mathlib.Order.Lattice
import RootedGlob.Proofs.Brace.Lexing
import RootedGlob.Proofs.Disk.Lookup
import RootedGlob.Proofs.Octets.Order
import RootedGlob.Proofs.Path.Steps
import RootedGlob.Workspace.Detection

/-!
# Detecting the nearest workspace file

A directory is looked through for the names that it holds (`Holds`), and the first of these in the order of their
bytes stands for it (`inDirectory?_eq_some_iff`). The search goes up one step at a time and ends at the first
directory that holds any (`findSome?_take_eq_some_iff`).
-/

namespace RootedGlob.Workspace

open Octets RootedGlob.Path

/-- A name in a directory that stands for a workspace file: its extension says so, and it leads to a regular file.
Links are followed, those on the way to the directory and those behind the name. -/
structure Holds (disk : Disk) (directory name : Text) : Prop where
  listed : ∃ entries, disk.find directory = .ok (.directory entries) ∧ name ∈ entries.map (·.1)
  marked : ∃ stem, stem ≠ [] ∧ name = stem ++ '.' :: fileExtension
  regular : ∃ content, disk.find (under directory name) = .ok (.file content)

section Names

variable {disk : Disk} {directory name file : Text}

/-- An extension without a dot follows the last dot of a name, and something stands before that. -/
theorem extension?_eq_some_iff {extension : Text} (single : '.' ∉ extension) :
    extension? name = some extension ↔ ∃ stem, stem ≠ [] ∧ name = stem ++ '.' :: extension := by
  -- The name is cut backwards, so the first dot that is met is its last one.
  simp only [extension?, Option.bind_eq_some_iff, Prod.exists, Brace.cutAt?_eq_some_iff]
  constructor
  · rintro ⟨behind, stem, ⟨whole, -⟩, found⟩
    split at found
    · cases found
    · next filled =>
      cases found
      refine ⟨stem.reverse, by simpa using filled, ?_⟩
      rw [← List.reverse_reverse name, whole]
      simp
  · rintro ⟨stem, filled, rfl⟩
    refine ⟨extension.reverse, stem.reverse, ⟨by simp, by simpa using single⟩, ?_⟩
    rw [if_neg (by simpa using filled), List.reverse_reverse]

theorem isFile_iff {path : Text} : disk.isFile path ↔ ∃ content, disk.find path = .ok (.file content) := by
  rw [Disk.isFile]
  cases disk.find path with
  | error => simp [Except.toOption]
  | ok tree => cases tree <;> simp [Except.toOption, FileTree.isFile]

theorem isCandidate_iff : isCandidate disk directory name
    ↔ (∃ stem, stem ≠ [] ∧ name = stem ++ '.' :: fileExtension)
      ∧ ∃ content, disk.find (under directory name) = .ok (.file content) := by
  rw [isCandidate, Bool.and_eq_true, beq_iff_eq, extension?_eq_some_iff (by decide), isFile_iff]

/-- The candidates of a directory are the names that it holds. -/
theorem holds_iff : Holds disk directory name
    ↔ disk.isDirectory directory ∧ name ∈ (disk.names directory).filter (isCandidate disk directory) := by
  rw [List.mem_filter, isCandidate_iff, Disk.isDirectory_iff]
  constructor
  · rintro ⟨⟨entries, found, listed⟩, marked, regular⟩
    refine ⟨⟨entries, found⟩, ?_, marked, regular⟩
    rw [Disk.names, found]
    exact listed
  · rintro ⟨⟨entries, found⟩, listed, marked, regular⟩
    rw [Disk.names, found] at listed
    exact ⟨⟨entries, found, listed⟩, marked, regular⟩

/-- The scan for the first name computes the least one. -/
theorem firstName?_eq_min? (names : List Text) : firstName? names = names.min? := by
  have scan (best : Text) (names : List Text) :
      names.foldl (fun best name => if best.all (name < ·) then some name else best) (some best)
        = some (names.foldl min best) := by
    induction names generalizing best with
    | nil => rfl
    | cons name names ih =>
      -- Of two names the scan keeps the one that comes first.
      have kept : (if (some best).all (name < ·) then some name else some best) = some (min best name) := by
        rw [min_comm, min_def_lt]
        by_cases less : name < best <;> simp [less]
      rw [List.foldl_cons, List.foldl_cons, kept]
      exact ih (min best name)
  cases names with
  | nil => rfl
  | cons name names => exact scan name names

theorem firstName?_eq_some_iff {names : List Text} :
    firstName? names = some name ↔ name ∈ names ∧ ∀ other ∈ names, octets name ≤ octets other := by
  rw [firstName?_eq_min?, List.min?_eq_some_iff]
  simp only [octets_le_octets_iff]

/-- A directory stands for the first of the names that it holds. -/
theorem inDirectory?_eq_some_iff : inDirectory? disk directory = some file ↔ ∃ name, Holds disk directory name
    ∧ (∀ other, Holds disk directory other → octets name ≤ octets other) ∧ file = under directory name := by
  rw [inDirectory?]
  simp only [holds_iff]
  split
  · next there =>
    simp only [Option.map_eq_some_iff, firstName?_eq_some_iff, there, true_and, and_assoc]
    simp only [eq_comm (a := file)]
  · next missing => simp [missing]

theorem inDirectory?_eq_none_iff : inDirectory? disk directory = none ↔ ∀ name, ¬ Holds disk directory name := by
  rw [inDirectory?]
  simp only [holds_iff]
  split
  · next there =>
    rw [Option.map_eq_none_iff, firstName?_eq_min?, List.min?_eq_none_iff, List.eq_nil_iff_forall_not_mem]
    simp only [there, true_and]
  · next missing => simp [missing]

end Names

section Search

variable {α β : Type} {f : α → Option β}

/-- A search among the first entries of a list ends at the first one that gives anything. -/
theorem findSome?_take_eq_some_iff {xs : List α} {bound : Nat} {y : β} :
    (xs.take bound).findSome? f = some y ↔ ∃ k < bound, ∃ x, xs[k]? = some x ∧ f x = some y
      ∧ ∀ j < k, ∀ x, xs[j]? = some x → f x = none := by
  rw [List.findSome?_eq_some_iff]
  constructor
  · rintro ⟨front, x, back, split, gives, nothing⟩
    -- The index is the number of entries in front, which lie within the bound.
    have short : front.length < (xs.take bound).length := by
      rw [split]
      simp
    rw [List.length_take, Nat.lt_min] at short
    have place (k : Nat) (before : k ≤ front.length) : xs[k]? = (front ++ x :: back)[k]? := by
      rw [← split, List.getElem?_take, if_pos (before.trans_lt short.1)]
    refine ⟨front.length, short.1, x, by rw [place _ le_rfl]; simp, gives, fun j before other found => ?_⟩
    rw [place j before.le, List.getElem?_append_left before] at found
    exact nothing other (List.mem_of_getElem? found)
  · rintro ⟨k, inside, x, found, gives, nothing⟩
    -- The entries in front of the one that is found are those with a smaller index.
    obtain ⟨short, rfl⟩ := List.getElem?_eq_some_iff.mp found
    refine ⟨xs.take k, xs[k], (xs.take bound).drop (k + 1), ?_, gives, fun other member => ?_⟩
    · have enough : k < (xs.take bound).length := by
        rw [List.length_take]
        exact Nat.lt_min.mpr ⟨inside, short⟩
      calc xs.take bound
          = (xs.take bound).take k ++ (xs.take bound).drop k := (List.take_append_drop k _).symm
        _ = xs.take k ++ (xs.take bound).drop k := by rw [List.take_take, min_eq_left inside.le]
        _ = xs.take k ++ xs[k] :: (xs.take bound).drop (k + 1) := by
          rw [List.drop_eq_getElem_cons enough, List.getElem_take]
    · obtain ⟨j, found⟩ := List.mem_iff_getElem?.mp member
      rw [List.getElem?_take] at found
      split at found
      · next before => exact nothing j before other found
      · cases found

theorem findSome?_take_eq_none_iff {xs : List α} {bound : Nat} :
    (xs.take bound).findSome? f = none ↔ ∀ k < bound, ∀ x, xs[k]? = some x → f x = none := by
  rw [List.findSome?_eq_none_iff]
  constructor
  · intro nothing k inside x found
    apply nothing
    apply List.mem_of_getElem? (i := k)
    rw [List.getElem?_take, if_pos inside, found]
  · intro nothing x member
    obtain ⟨k, found⟩ := List.mem_iff_getElem?.mp member
    rw [List.getElem?_take] at found
    split at found
    · next inside => exact nothing k inside x found
    · cases found

end Search

section Detection

variable {disk : Disk} {start file : Text}

/-- The directory a given number of steps above the start holds the file, and none nearer to it holds any. -/
def IsNearest (disk : Disk) (start file : Text) (steps : Nat) : Prop :=
  ∃ directory name, IsAbove start steps directory ∧ Holds disk directory name
    ∧ (∀ other, Holds disk directory other → octets name ≤ octets other) ∧ file = under directory name
    ∧ ∀ fewer < steps, ∀ nearer, IsAbove start fewer nearer → ∀ other, ¬ Holds disk nearer other

/-- Detection finds the nearest workspace file. For every disk and every absolute start, whether it exists or not, it
gives a file if and only if some directory within the limit of steps above the start holds any, none that is nearer
does, and the file is the one with the least name there in the order of bytes. It gives none if and only if no
directory within the limit holds any. -/
theorem detect_finds_nearest (absolute : isAbsolute start) :
    (∀ file, detect disk start = some file ↔ ∃ steps < maxSteps, IsNearest disk start file steps)
      ∧ (detect disk start = none ↔ ∀ steps < maxSteps, ∀ directory, IsAbove start steps directory →
        ∀ name, ¬ Holds disk directory name) := by
  constructor
  · intro file
    rw [detect, findSome?_take_eq_some_iff]
    simp only [getElem?_ancestors absolute, inDirectory?_eq_some_iff, inDirectory?_eq_none_iff]
    refine exists_congr fun steps => and_congr_right fun _ => ?_
    constructor
    · rintro ⟨directory, above, ⟨name, holds, least, same⟩, nothing⟩
      exact ⟨directory, name, above, holds, least, same, nothing⟩
    · rintro ⟨directory, name, above, holds, least, same, nothing⟩
      exact ⟨directory, above, ⟨name, holds, least, same⟩, nothing⟩
  · rw [detect, findSome?_take_eq_none_iff]
    simp only [getElem?_ancestors absolute, inDirectory?_eq_none_iff]

/-- A directory with the extension is passed over, and of two files above it the first is found. -/
theorem detect_finds_nearest_above :
    let disk : Disk := { root := .directory [("w".toList, .directory [
      ("b.code-workspace".toList, .file .empty), ("a.code-workspace".toList, .file .empty),
      ("p".toList, .directory [("x.code-workspace".toList, .directory [])])])] }
    isAbsolute "/w/p".toList ∧ detect disk "/w/p".toList = some "/w/a.code-workspace".toList := by
  intro disk
  have found {names : List Text} {tree : FileTree} (place : disk.root.at? names = some tree)
      (real : ∀ target, tree ≠ .link target) (proper : ∀ name ∈ names, IsName name)
      (sound : '\x00' ∉ spelled names ∧ Text.byteLength (spelled names) ≤ Disk.maxPath
        ∧ ∀ name ∈ names, Text.byteLength name ≤ Disk.maxName) : disk.find (spelled names) = .ok tree :=
    Disk.find_of_at? rfl proper place real sound.1 sound.2.1 sound.2.2
  have outer := @found ["w".toList] _ rfl (by simp) (by decide) (by decide)
  have inner := @found ["w".toList, "p".toList] _ rfl (by simp) (by decide) (by decide)
  have file := @found ["w".toList, "a.code-workspace".toList] _ rfl (by simp) (by decide) (by decide)
  have other := @found ["w".toList, "p".toList, "x.code-workspace".toList] _ rfl (by simp) (by decide) (by decide)
  refine ⟨rfl, ((detect_finds_nearest rfl).1 _).mpr
    ⟨1, by decide, "/w".toList, "a.code-workspace".toList, ?_, ?_, ?_, by decide, ?_⟩⟩
  · exact @IsAbove.above _ ["w".toList] ["p".toList] 0 (by decide +kernel) (by decide) (by decide)
  · exact ⟨⟨_, outer, by decide⟩, ⟨"a".toList, by decide, rfl⟩, ⟨_, file⟩⟩
  · rintro name ⟨⟨entries, there, listed⟩, -, -⟩
    obtain rfl := FileTree.directory.inj (Except.ok.inj (outer.symm.trans there))
    revert name
    decide
  · -- Only the start itself is nearer, and the one name in it leads to a directory.
    intro fewer small nearer above name holds
    obtain rfl : fewer = 0 := Nat.lt_one_iff.mp small
    cases above
    obtain ⟨⟨entries, there, listed⟩, -, content, regular⟩ := holds
    obtain rfl := FileTree.directory.inj (Except.ok.inj (inner.symm.trans there))
    obtain rfl : name = "x.code-workspace".toList := by simpa using listed
    cases other.symm.trans regular

end Detection

end RootedGlob.Workspace
