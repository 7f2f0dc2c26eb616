import RootedGlob.Path

/-!
# Ancestors of a path

The ancestors of a path start with the path itself as it is written; each further one is the parent
of the one before. The parent drops the last component, where empty components and `.` do not count,
except a `.` that starts a relative path. A parent is a beginning of the text, so what stands inside
the path keeps its spelling. The root and the empty path have no parent.
-/

namespace RootedGlob.Path

/-- The beginning of a path that is no ordinary component: the root, or the `.` that starts a
relative path. -/
def splitAnchor : Text → Text × Text
  | '/' :: rest => (['/'], rest)
  | ['.'] => (['.'], [])
  | '.' :: '/' :: rest => (['.'], '/' :: rest)
  | path => ([], path)

/-- Drops the empty and `.` components at the end of a path, which is given backwards. -/
def trimBackwards : Text → Text
  | '/' :: rest => trimBackwards rest
  | ['.'] => []
  | '.' :: '/' :: rest => trimBackwards rest
  | rest => rest

/-- The path without its last component. -/
def parent? (path : Text) : Option Text :=
  let (anchor, body) := splitAnchor path
  match trimBackwards body.reverse with
  | [] => if anchor = dot then some [] else none
  | last =>
    some (anchor ++ (trimBackwards ((last.dropWhile (· != separator)).drop 1)).reverse)

theorem append_splitAnchor (path : Text) : (splitAnchor path).1 ++ (splitAnchor path).2 = path := by
  unfold splitAnchor
  split <;> rfl

theorem length_trimBackwards (path : Text) : (trimBackwards path).length ≤ path.length := by
  fun_induction trimBackwards path <;> simp_all <;> omega

theorem length_of_parent? {path parent : Text} (found : parent? path = some parent) :
    parent.length < path.length := by
  have whole := congrArg List.length (append_splitAnchor path)
  simp only [parent?] at found
  split at found
  · split at found
    · next anchored =>
      simp only [Option.some.injEq] at found
      subst found
      rw [List.length_append, anchored] at whole
      simp only [List.length_nil, dot, List.length_cons] at whole ⊢
      omega
    · simp at found
  · next last nonempty =>
    simp only [Option.some.injEq] at found
    subst found
    have whole' := length_trimBackwards (splitAnchor path).2.reverse
    have cut := (List.dropWhile_sublist (· != separator)
      (l := trimBackwards (splitAnchor path).2.reverse)).length_le
    have again := length_trimBackwards
      (((trimBackwards (splitAnchor path).2.reverse).dropWhile (· != separator)).drop 1)
    have := List.length_pos_iff.mpr nonempty
    simp only [List.length_append, List.length_reverse, List.length_drop] at *
    omega

/-- The path itself, its parent, and so on up to the root or the empty path. -/
def ancestors (path : Text) : List Text :=
  match _found : parent? path with
  | none => [path]
  | some parent => path :: ancestors parent
termination_by path.length
decreasing_by exact length_of_parent? ‹_›

/-- The last component of a path, if it is a name. -/
def fileName? (path : Text) : Option Text :=
  let last := (trimBackwards (splitAnchor path).2.reverse).takeWhile (· != separator)
  let name := last.reverse
  if name = [] ∨ name = dotDot then none else some name

/-- What follows the last dot of a name; none if that dot starts the name. -/
def extension? (name : Text) : Option Text :=
  (Text.cutAt? '.' name.reverse).bind fun (extension, stem) =>
    if stem = [] then none else some extension.reverse

/-- The path of a name inside a directory. An absolute name stands for itself. -/
def under (directory name : Text) : Text :=
  if isAbsolute name then name
  else if directory = [] ∨ endsWithSeparator directory then directory ++ name
  else directory ++ separator :: name

end RootedGlob.Path
