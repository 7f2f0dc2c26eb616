import RootedGlob.Proofs.Path.Ancestors

/-!
# Normal forms of paths

A path denotes a position: some steps up from where it starts, and names from there on. The root has nothing
above it (`position`). The segments to which a path resolves spell its position (`resolve_eq_steps`). A normal
form shows these segments, whether the path is absolute, and whether it ends with a separator, and nothing else
(`segments_normalize`). So two paths have one normal form exactly if they agree in these three things
(`normalize_eq_iff`).
-/

namespace RootedGlob.Path

/-- A lexical location: steps up from where a path starts, then names. -/
structure Position where
  parents : Nat := 0
  names : List Text := []
deriving DecidableEq, Repr

namespace Position

/-- Walks one segment. A `..` takes back the last name. Without a name it is one more step up, and from the
root there is none. -/
def move (absolute : Bool) (position : Position) (segment : Text) : Position :=
  if segment = [] ∨ segment = dot then position
  else if segment ≠ dotDot then { position with names := position.names ++ [segment] }
  else if position.names ≠ [] then { position with names := position.names.dropLast }
  else if absolute then position
  else { position with parents := position.parents + 1 }

/-- The steps up and the names as segments. -/
def steps (position : Position) : List Text := List.replicate position.parents dotDot ++ position.names

/-- A position to which a path can lead. -/
structure IsReached (absolute : Bool) (position : Position) : Prop where
  proper : ∀ name ∈ position.names, IsName name
  atRoot : absolute → position.parents = 0

end Position

/-- The position that a path denotes, from the root on or from some base. -/
def position (path : Text) : Position := (segments path).foldl (Position.move (isAbsolute path)) {}

/-- How many steps up there are in front of some segments. -/
def leadingParents (names : List Text) : Nat := (names.takeWhile (· == dotDot)).length

/-- Steps up pile up on steps up. -/
theorem foldl_walk_up (count base : Nat) :
    (List.replicate count dotDot).foldl (walk false) (List.replicate base dotDot)
      = List.replicate (base + count) dotDot := by
  induction count generalizing base with
  | zero => rfl
  | succ count ih =>
    have step : walk false (List.replicate base dotDot) dotDot = List.replicate (base + 1) dotDot := by
      cases base <;> rfl
    rw [List.replicate_succ, List.foldl_cons, step, ih, Nat.succ_add_eq_add_succ]

theorem leadingParents_append (count : Nat) {names : List Text} (proper : ∀ name ∈ names, IsName name) :
    leadingParents (List.replicate count dotDot ++ names) = count := by
  have up : ∀ step ∈ List.replicate count dotDot, (step == dotDot) = true := fun step member => by
    rw [List.eq_of_mem_replicate member, beq_self_eq_true]
  have rest : names.takeWhile (· == dotDot) = [] := by
    cases names with
    | nil => rfl
    | cons name names =>
      have other := (proper name List.mem_cons_self).notParent
      rw [List.takeWhile_cons_of_neg (by simpa using other)]
  rw [leadingParents, List.takeWhile_append_of_pos up, rest, List.append_nil, List.length_replicate]

namespace Position

variable {absolute : Bool} {position : Position}

theorem isReached_start (absolute : Bool) : ({} : Position).IsReached absolute := ⟨by simp, fun _ => rfl⟩

theorem IsReached.leadingParents_eq (reached : position.IsReached absolute) :
    leadingParents position.steps = position.parents := leadingParents_append _ reached.proper

/-- A position can be read off its segments. -/
theorem steps_inj {one two : Position} (reached : one.IsReached absolute) (reached' : two.IsReached absolute) :
    one.steps = two.steps ↔ one = two := by
  refine ⟨fun same => ?_, congrArg steps⟩
  have parents : one.parents = two.parents := by
    rw [← reached.leadingParents_eq, same, reached'.leadingParents_eq]
  obtain ⟨count, names⟩ := one
  obtain ⟨count', names'⟩ := two
  obtain rfl : count = count' := parents
  obtain rfl : names = names' := List.append_cancel_left same
  rfl

/-- Walking one segment moves the position. -/
theorem walk_steps (reached : position.IsReached absolute) {segment : Text} (single : separator ∉ segment) :
    walk absolute position.steps.reverse segment = (position.move absolute segment).steps.reverse
      ∧ (position.move absolute segment).IsReached absolute := by
  obtain ⟨count, names⟩ := position
  obtain ⟨proper, atRoot⟩ := reached
  rcases segment_cases single with blank | rfl | name
  · rw [walk_blank _ _ blank, move, if_pos blank]
    exact ⟨rfl, proper, atRoot⟩
  · have filled : ¬ (dotDot = [] ∨ dotDot = dot) := by decide
    rcases List.eq_nil_or_concat names with rfl | ⟨front, last, rfl⟩
    · cases absolute with
      | true =>
        obtain rfl : count = 0 := atRoot rfl
        exact ⟨rfl, proper, atRoot⟩
      | false =>
        -- There is no name to take back, only steps up.
        have up := foldl_walk_up 1 count
        refine ⟨?_, proper, by simp⟩
        simpa [steps, move, filled] using up
    · rw [List.concat_eq_append] at proper ⊢
      have last_name : IsName last := proper last (by simp)
      refine ⟨?_, ?_, ?_⟩
      · simpa [steps, move, filled] using walk_parent absolute _ last_name
      · simpa [move, filled] using fun name member => proper name (List.mem_append_left _ member)
      · simpa [move, filled] using atRoot
  · have filled : ¬ (segment = [] ∨ segment = dot) := not_or.mpr ⟨name.nonempty, name.notDot⟩
    have moved : move absolute ⟨count, names⟩ segment = ⟨count, names ++ [segment]⟩ := by
      rw [move, if_neg filled, if_pos name.notParent]
    rw [walk_name _ _ name, moved]
    refine ⟨by simp [steps], ?_, atRoot⟩
    exact List.forall_mem_append.mpr ⟨proper, List.forall_mem_singleton.mpr name⟩

/-- Walking some segments moves the position by one after the other. -/
theorem foldl_walk_steps (reached : position.IsReached absolute) {segments : List Text}
    (single : ∀ segment ∈ segments, separator ∉ segment) :
    segments.foldl (walk absolute) position.steps.reverse
        = (segments.foldl (move absolute) position).steps.reverse
      ∧ (segments.foldl (move absolute) position).IsReached absolute := by
  induction segments generalizing position with
  | nil => exact ⟨rfl, reached⟩
  | cons segment segments ih =>
    obtain ⟨here, later⟩ := List.forall_mem_cons.mp single
    obtain ⟨walked, moved⟩ := walk_steps reached here
    rw [List.foldl_cons, List.foldl_cons, walked]
    exact ih moved later

/-- Walking the segments of a position leads to it. -/
theorem IsReached.foldl_walk (reached : position.IsReached absolute) :
    position.steps.foldl (walk absolute) [] = position.steps.reverse := by
  have up : (List.replicate position.parents dotDot).foldl (walk absolute) []
      = List.replicate position.parents dotDot := by
    cases absolute with
    | true => rw [reached.atRoot rfl, List.replicate_zero, List.foldl_nil]
    | false => simpa using foldl_walk_up position.parents 0
  rw [steps, List.foldl_append, up, foldl_walk_names _ _ reached.proper, List.reverse_append,
    List.reverse_replicate]

end Position

/-- A path leads to a position, and resolves to the segments of this position. -/
theorem resolve_position (path : Text) :
    resolve path = (position path).steps ∧ (position path).IsReached (isAbsolute path) := by
  obtain ⟨walked, reached⟩ := Position.foldl_walk_steps (Position.isReached_start (isAbsolute path))
    (fun segment => @not_mem_of_mem_segments path segment)
  refine ⟨?_, reached⟩
  rw [position, ← List.reverse_reverse (Position.steps _), ← walked]
  rfl

theorem resolve_eq_steps (path : Text) : resolve path = (position path).steps := (resolve_position path).1

theorem isReached_position (path : Text) : (position path).IsReached (isAbsolute path) := (resolve_position path).2

theorem foldl_resolve (path : Text) :
    (resolve path).foldl (walk (isAbsolute path)) [] = (resolve path).reverse := by
  rw [resolve_eq_steps]
  exact (isReached_position path).foldl_walk

/-- The empty segment beyond a separator at one end of a path, if there is such a separator. -/
def edge (closed : Bool) : List Text := if closed then [[]] else []

theorem foldl_edge (absolute closed : Bool) (stack : List Text) :
    (edge closed).foldl (walk absolute) stack = stack := by
  cases closed with
  | true => exact walk_blank absolute stack (.inl rfl)
  | false => rfl

theorem endsWithSeparator_iff {path : Text} :
    endsWithSeparator path ↔ path ≠ [] ∧ (segments path).getLast? = some [] := by
  rcases List.eq_nil_or_concat path with rfl | ⟨front, c, rfl⟩
  · simp [endsWithSeparator]
  · rw [List.concat_eq_append, endsWithSeparator, List.getLast?_concat]
    by_cases same : c = separator
    · simp [same, segments_append, segments_nil]
    · obtain ⟨names, last, -, split⟩ := exists_segments_concat front same
      simp [same, split]

/-- Between two edges, filled segments show where a text ends. -/
theorem endsWithSeparator_of_segments {path : Text} {names : List Text} {absolute closed : Bool}
    (nonempty : path ≠ []) (form : segments path = edge absolute ++ (names ++ edge closed))
    (filled : ∀ name ∈ names, name ≠ []) :
    endsWithSeparator path = closed ∧ (names = [] → closed) := by
  have any := segments_ne_nil path
  have several : segments path ≠ [[]] := fun single => nonempty (by rw [← ofSegments_segments path, single]; rfl)
  have ends : endsWithSeparator path ↔ (segments path).getLast? = some [] := by
    rw [endsWithSeparator_iff, and_iff_right nonempty]
  rw [form] at any several ends
  rw [Bool.eq_iff_iff, ends]
  -- Only an edge has an empty segment, so the last segment tells whether there is one at the end.
  rcases List.eq_nil_or_concat names with rfl | ⟨front, last, rfl⟩
  · cases absolute <;> cases closed <;> simp_all [edge]
  · rw [List.concat_eq_append] at filled ⊢
    have solid := filled last (by simp)
    cases closed <;> simp [edge, solid]

/-- The segments that the normal form of a path shows. -/
def shown (path : Text) : List Text := if resolve path = [] ∧ ¬ isAbsolute path then [dot] else resolve path

section Shown

variable {path : Text}

theorem filled_of_mem_shown {name : Text} (member : name ∈ shown path) : name ≠ [] ∧ separator ∉ name := by
  rw [shown] at member
  split at member
  · rw [List.mem_singleton.mp member]
    decide
  · exact single_of_isName_or_dotDot (isName_or_dotDot_of_mem_resolve member)

theorem shown_eq_nil_iff : shown path = [] ↔ isAbsolute path ∧ resolve path = [] := by
  rw [shown]
  split
  · next base => simp [base.2]
  · next named =>
    rw [not_and, not_not] at named
    exact ⟨fun empty => ⟨named empty, empty⟩, And.right⟩

theorem ofSegments_resolve_eq_nil : ofSegments (resolve path) = [] ↔ resolve path = [] :=
  ofSegments_eq_nil fun _ member =>
    (single_of_isName_or_dotDot (isName_or_dotDot_of_mem_resolve member)).1

theorem ofSegments_shown_eq_nil : ofSegments (shown path) = [] ↔ shown path = [] :=
  ofSegments_eq_nil fun _ member => (filled_of_mem_shown member).1

end Shown

/-- A normal form: the segments that it shows, with a separator in front if the path is absolute, and one behind
if it ends with a separator and is not the root. -/
theorem normalize_eq (path : Text) :
    normalize path = (if isAbsolute path then [separator] else []) ++ (ofSegments (shown path)
      ++ if shown path ≠ [] ∧ endsWithSeparator path then [separator] else []) := by
  by_cases empty : path = []
  · rw [empty]
    decide
  · have named : (if ofSegments (resolve path) = [] ∧ ¬ isAbsolute path then dot else ofSegments (resolve path))
        = ofSegments (shown path) := by
      simp only [shown, ofSegments_resolve_eq_nil]
      split <;> rfl
    simp only [normalize, if_neg empty, named, ne_eq, ofSegments_shown_eq_nil]
    split <;> split <;> simp

/-- The segments of a normal form. -/
theorem segments_normalize (path : Text) : segments (normalize path)
    = edge (isAbsolute path) ++ (shown path ++ edge ((shown path).isEmpty || endsWithSeparator path)) := by
  have lead (rest : Text) : segments ((if isAbsolute path then [separator] else []) ++ rest)
      = edge (isAbsolute path) ++ segments rest := by
    rw [edge]
    split
    · exact segments_separator rest
    · rfl
  rw [normalize_eq, lead]
  congr 1
  -- The root shows no segment, and its one separator lies between two empty ones.
  by_cases root : shown path = []
  · rw [root]
    simp [ofSegments, segments_nil, edge]
  · have plain : segments (ofSegments (shown path)) = shown path :=
      segments_ofSegments root fun name member => (filled_of_mem_shown member).2
    cases closed : endsWithSeparator path with
    | true =>
      rw [if_pos (by simp [root]), segments_append, plain, segments_nil]
      simp [edge]
    | false =>
      rw [if_neg (by simp), List.append_nil, plain]
      simp [edge, root]

/-- A normal form can be walked in place of the segments to which the path resolves. -/
theorem foldl_segments_normalize (absolute : Bool) (stack : List Text) (path : Text) :
    (segments (normalize path)).foldl (walk absolute) stack = (resolve path).foldl (walk absolute) stack := by
  rw [segments_normalize, List.foldl_append, List.foldl_append, foldl_edge, foldl_edge, shown]
  split
  · next base =>
    rw [base.1]
    exact walk_blank absolute stack (.inr rfl)
  · rfl

theorem isAbsolute_normalize (path : Text) : isAbsolute (normalize path) = isAbsolute path := by
  rw [normalize_eq]
  cases absolute : isAbsolute path with
  | true => rfl
  | false =>
    have named : shown path ≠ [] := fun empty => by
      have root := (shown_eq_nil_iff.mp empty).1
      rw [absolute] at root
      cases root
    obtain ⟨name, names, same⟩ := List.exists_cons_of_ne_nil named
    obtain ⟨filled, single⟩ := filled_of_mem_shown (same ▸ List.mem_cons_self : name ∈ shown path)
    rw [same, ofSegments_cons, List.append_assoc]
    exact isAbsolute_append_of_single filled single _

theorem normalize_ne_nil (path : Text) : normalize path ≠ [] := by
  intro empty
  rw [normalize_eq, List.append_eq_nil_iff, List.append_eq_nil_iff, ofSegments_shown_eq_nil] at empty
  rw [(shown_eq_nil_iff.mp empty.2.1).1] at empty
  cases empty.1

/-- A normal form ends with a separator if the path does, and if it is the root. -/
theorem endsWithSeparator_normalize (path : Text) :
    endsWithSeparator (normalize path) = ((shown path).isEmpty || endsWithSeparator path) :=
  (endsWithSeparator_of_segments (normalize_ne_nil path) (segments_normalize path)
    fun _ member => (filled_of_mem_shown member).1).1

theorem resolve_normalize (path : Text) : resolve (normalize path) = resolve path := by
  rw [resolve, isAbsolute_normalize, foldl_segments_normalize, foldl_resolve, List.reverse_reverse]

theorem shown_normalize (path : Text) : shown (normalize path) = shown path := by
  rw [shown, shown, resolve_normalize, isAbsolute_normalize]

/-- Two paths have one normal form if they agree in what it shows. -/
theorem normalize_eq_iff {one two : Text} :
    normalize one = normalize two ↔ isAbsolute one = isAbsolute two ∧ resolve one = resolve two
      ∧ (endsWithSeparator one = endsWithSeparator two ∨ shown one = []) := by
  constructor
  · -- Each of the three can be read off the normal form.
    intro same
    have absolute := congrArg isAbsolute same
    have place := congrArg resolve same
    have ends := congrArg endsWithSeparator same
    have shows := congrArg shown same
    rw [isAbsolute_normalize, isAbsolute_normalize] at absolute
    rw [resolve_normalize, resolve_normalize] at place
    rw [shown_normalize, shown_normalize] at shows
    rw [endsWithSeparator_normalize, endsWithSeparator_normalize, ← shows] at ends
    refine ⟨absolute, place, ?_⟩
    by_cases root : shown one = []
    · exact .inr root
    · rw [List.isEmpty_eq_false_iff.mpr root, Bool.false_or, Bool.false_or] at ends
      exact .inl ends
  · rintro ⟨absolute, place, ends⟩
    have shows : shown one = shown two := by rw [shown, shown, absolute, place]
    rw [normalize_eq, normalize_eq, absolute, ← shows]
    rcases ends with ends | root
    · rw [ends]
    · simp [root]

/-- A text as normalization leaves it: `.`, perhaps with a separator behind it, or the steps up and the names of
a position. These stand between single separators, with one in front if the text is absolute, and perhaps one at
the end. -/
def IsNormalForm (path : Text) : Prop :=
  path = dot ∨ path = dot ++ [separator]
    ∨ ∃ position : Position, position.IsReached (isAbsolute path) ∧ (isAbsolute path ∨ position ≠ {})
      ∧ ∃ closed, segments path = edge (isAbsolute path) ++ (position.steps ++ edge closed)

theorem isNormalForm_normalize (path : Text) : IsNormalForm (normalize path) := by
  have form := segments_normalize path
  by_cases base : resolve path = [] ∧ ¬ isAbsolute path
  · -- The path leads back to its base, so there is nothing to show but a dot.
    have whole := ofSegments_segments (normalize path)
    rw [form, shown, if_pos base] at whole
    simp only [base.2, List.isEmpty_cons, Bool.false_or] at whole
    cases ends : endsWithSeparator path with
    | true => exact .inr (.inl (by rw [← whole, ends]; rfl))
    | false => exact .inl (by rw [← whole, ends]; rfl)
  · rw [shown, if_neg base, resolve_eq_steps, ← isAbsolute_normalize] at form
    refine .inr (.inr ⟨position path, ?_, ?_, _, form⟩)
    · rw [isAbsolute_normalize]
      exact isReached_position path
    · rw [isAbsolute_normalize]
      by_contra neither
      rw [not_or, not_not] at neither
      exact base ⟨by rw [resolve_eq_steps, neither.2]; rfl, neither.1⟩

/-- The normal forms are the texts that normalization leaves alone. -/
theorem normalize_eq_self_iff {path : Text} : normalize path = path ↔ IsNormalForm path := by
  refine ⟨fun same => same ▸ isNormalForm_normalize path, ?_⟩
  rintro (rfl | rfl | ⟨position, reached, apart, closed, form⟩)
  · decide
  · decide
  -- Such a text resolves to the segments that it has, so its normal form has them too.
  · have place : resolve path = position.steps := by
      rw [resolve, form, List.foldl_append, List.foldl_append, foldl_edge, foldl_edge, reached.foldl_walk,
        List.reverse_reverse]
    have named : ¬ isAbsolute path → position.steps ≠ [] := fun relative empty =>
      apart.resolve_left relative ((Position.steps_inj reached (Position.isReached_start _)).mp empty)
    have shows : shown path = position.steps := by
      rw [shown, place, if_neg fun base => named base.2 base.1]
    have nonempty : path ≠ [] := by
      rintro rfl
      exact named (by decide) place.symm
    obtain ⟨ends, root⟩ := endsWithSeparator_of_segments nonempty form fun name member =>
      (filled_of_mem_shown (shows ▸ member)).1
    have ending : (position.steps.isEmpty || endsWithSeparator path) = closed := by
      cases empty : position.steps with
      | nil => exact (root empty).symm
      | cons => exact ends
    rw [← ofSegments_segments (normalize path), segments_normalize, shows, ending, ← form, ofSegments_segments]

theorem normalize_normalize (path : Text) : normalize (normalize path) = normalize path :=
  normalize_eq_self_iff.mpr (isNormalForm_normalize path)

/-- Normalization computes a canonical form. The result has no empty segment and no `.` but for the separators at
its ends, unless it is `.` or `./`; it has `..` only in front and only if it is relative; it is absolute exactly if
the path is; and normalizing again changes nothing. Two paths get the same result exactly if both are absolute or
both relative, they denote the same position, and both or neither of them end with a separator or both denote the
root. -/
theorem normalize_canonical_form :
    (∀ path, IsNormalForm (normalize path) ∧ isAbsolute (normalize path) = isAbsolute path
        ∧ normalize (normalize path) = normalize path)
      ∧ ∀ one two, normalize one = normalize two ↔ isAbsolute one = isAbsolute two ∧ position one = position two
        ∧ (endsWithSeparator one = endsWithSeparator two ∨ isAbsolute one ∧ position one = {}) := by
  refine ⟨fun path => ⟨isNormalForm_normalize path, isAbsolute_normalize path, normalize_normalize path⟩,
    fun one two => ?_⟩
  have root : shown one = [] ↔ isAbsolute one ∧ position one = {} := by
    rw [shown_eq_nil_iff, resolve_eq_steps]
    refine and_congr_right fun absolute => ?_
    exact Position.steps_inj (isReached_position one) (Position.isReached_start _)
  rw [normalize_eq_iff, root]
  refine and_congr_right fun absolute => and_congr_left fun _ => ?_
  rw [resolve_eq_steps, resolve_eq_steps]
  exact Position.steps_inj (isReached_position one) (absolute ▸ isReached_position two)

example : normalize "a/.././..//b/".toList = "../b/".toList := by decide +kernel

end RootedGlob.Path
