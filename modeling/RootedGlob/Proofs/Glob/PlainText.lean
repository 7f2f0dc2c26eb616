import RootedGlob.Proofs.Glob.Combined
import RootedGlob.Proofs.Glob.Literal
import RootedGlob.Proofs.Path.Normalizing
import RootedGlob.Proofs.Workspace.Folders

/-!
# The plain text of an expansion

An expansion is normalized before it is compiled. That adds no characters but separators and dots
(`mem_of_mem_plainText`), loses none behind the last `..` (`mem_plainText`), and keeps relative paths
relative (`isAbsolute_plainText`).
-/

namespace RootedGlob.Path

theorem mem_foldl_walk (absolute : Bool) {stack names : List Text} (still : dotDot ∉ names)
    {name : Text} (member : name ∈ stack) : name ∈ names.foldl (walk absolute) stack := by
  induction names generalizing stack with
  | nil => exact member
  | cons segment names ih =>
    rw [List.mem_cons, not_or] at still
    apply ih still.2
    rw [walk.eq_def, if_neg (Ne.symm still.1)]
    split
    · exact member
    · exact List.mem_cons_of_mem _ member

theorem mem_of_mem_normalize {path : Text} {c : Char} (member : c ∈ normalize path) :
    c ∈ path ∨ c = separator ∨ c = '.' := by
  rw [normalize_eq, List.mem_append, List.mem_append] at member
  rcases member with front | named | behind
  · split at front
    · exact .inr (.inl (List.mem_singleton.mp front))
    · cases front
  · rcases mem_spelled (List.mem_cons_of_mem separator named) with slash | ⟨name, among, inside⟩
    · exact .inr (.inl slash)
    · rw [shown] at among
      split at among
      · rw [List.mem_singleton.mp among] at inside
        exact .inr (.inr (List.mem_singleton.mp inside))
      · have kept := (mem_of_mem_foldl (List.mem_reverse.mp among)).resolve_left List.not_mem_nil
        exact .inl (mem_of_mem_segments kept inside)
  · split at behind
    · exact .inr (.inl (List.mem_singleton.mp behind))
    · cases behind

end RootedGlob.Path

namespace RootedGlob.Glob

open RootedGlob.Path

theorem mem_unescape {text : Text} {c : Char} (other : c ≠ '\\') (member : c ∈ text) :
    c ∈ unescape text := by
  fun_induction unescape text with
  | case1 => exact member
  | case2 => exact member
  | case3 d rest special ih =>
    simp only [List.mem_cons, other, false_or] at member ⊢
    rcases member with rfl | member
    · simp
    · simp [ih member]
  | case4 d rest plain ih =>
    simp only [List.mem_cons, other, false_or] at member ⊢
    exact member.imp_right ih
  | case5 d rest _ _ ih =>
    simp only [List.mem_cons] at member ⊢
    exact member.imp_right ih

/-- A character that means nothing to paths stays in the plain text if no `..` stands behind it. -/
theorem mem_plainText (front : Text) {back : Text} {c : Char} (ordinary : c ≠ separator ∧ c ≠ '.')
    (unescaped : c ≠ '\\') (still : dotDot ∉ (segments back).tail) :
    c ∈ plainText (front ++ c :: back) := by
  obtain ⟨before, last, next, behind, one, two, whole⟩ :=
    exists_segments_append front back ordinary.1
  rw [two, List.tail_cons] at still
  have single : separator ∉ last ++ c :: next := by
    have member : last ++ c :: next ∈ segments (front ++ c :: back) := by simp [whole]
    exact not_mem_of_mem_segments member
  have name : IsName (last ++ c :: next) := isName_of_mem (c := c) (by simp) ordinary.2 single
  have resolved : last ++ c :: next ∈ resolve (front ++ c :: back) := by
    rw [resolve, List.mem_reverse, whole, List.foldl_append, List.foldl_cons, walk_name _ _ name]
    exact mem_foldl_walk _ still List.mem_cons_self
  have normal : c ∈ normalize (front ++ c :: back) := by
    have filled := List.ne_nil_of_mem resolved
    have body := mem_spelled_of_mem resolved (c := c) (by simp)
    have shows : shown (front ++ c :: back) = resolve (front ++ c :: back) :=
      if_neg fun base => filled base.1
    rw [normalize_eq, shows, List.mem_append, List.mem_append]
    exact .inr (.inl ((List.mem_cons.mp body).resolve_left ordinary.1))
  apply mem_unescape unescaped
  rw [dropTrailingSeparator]
  split
  · next closed =>
    -- What is dropped is the separator.
    obtain ⟨start, same⟩ := List.getLast?_eq_some_iff.mp (beq_iff_eq.mp closed.2)
    rw [same, List.mem_append] at normal
    rw [same, List.dropLast_concat]
    exact normal.resolve_right (by simpa using ordinary.1)
  · exact normal

/-- The spelling of a location has no characters but separators and those of the path. -/
theorem not_mem_spelled_location {path : Text} {c : Char} (other : c ≠ separator) (absent : c ∉ path) :
    c ∉ spelled (location path) := by
  intro member
  rcases mem_spelled member with same | ⟨name, among, inside⟩
  · exact other same
  · exact absent (mem_of_mem_segments (mem_segments_of_mem_location among) inside)

/-- The plain text of an absolute path without escapes spells its location. -/
theorem plainText_of_not_mem {path : Text} (absolute : isAbsolute path) (absent : '\\' ∉ path) :
    plainText path = spelled (location path) := by
  rw [plainText_of_isAbsolute absolute]
  exact unescape_of_not_mem (not_mem_spelled_location (by decide) absent)

section Unescaped

variable {text : Text} (absent : '\\' ∉ text)

include absent

theorem plainText_eq_dropTrailingSeparator : plainText text = dropTrailingSeparator (normalize text) := by
  apply unescape_of_not_mem
  intro member
  have inside : '\\' ∈ normalize text := by
    rw [dropTrailingSeparator] at member
    split at member
    · exact List.dropLast_subset _ member
    · exact member
  rcases mem_of_mem_normalize inside with found | same | same
  · exact absent found
  · exact absurd same (by decide)
  · exact absurd same (by decide)

theorem mem_of_mem_plainText {c : Char} (member : c ∈ plainText text) :
    c ∈ text ∨ c = separator ∨ c = '.' := by
  rw [plainText_eq_dropTrailingSeparator absent, dropTrailingSeparator] at member
  apply mem_of_mem_normalize
  split at member
  · exact List.dropLast_subset _ member
  · exact member

theorem isAbsolute_plainText : isAbsolute (plainText text) = isAbsolute text := by
  rw [plainText_eq_dropTrailingSeparator absent, ← isAbsolute_normalize text, dropTrailingSeparator]
  split
  · next closed =>
    have long := closed.1
    cases whole : normalize text with
    | nil => rfl
    | cons c rest =>
      cases rest with
      | nil => simp [whole] at long
      | cons d rest => rfl
  · rfl

end Unescaped

end RootedGlob.Glob
