import Mathlib.Data.List.DropRight
import RootedGlob.Proofs.Path.Ancestors

/-!
# Components of a path

A segment is a component of its path unless it is empty or `.`. The parent of a path has the components of the
path but the last one (`exists_parent?_append`), and keeps the spelling of what is in front of it
(`parent?_concat_component`). So a path has every path among its ancestors that it continues with a component,
however the rest is spelled (`mem_ancestors_of_isBelow`).
-/

namespace RootedGlob.Path

/-- A segment that counts. -/
def IsComponent (segment : Text) : Prop := segment ≠ [] ∧ segment ≠ dot

instance : DecidablePred IsComponent := fun _ => instDecidableAnd

theorem IsName.isComponent {segment : Text} (name : IsName segment) : IsComponent segment :=
  ⟨name.nonempty, name.notDot⟩

theorem not_isComponent_iff {segment : Text} : ¬ IsComponent segment ↔ segment = [] ∨ segment = dot := by
  rw [IsComponent, not_and_or, not_ne_iff, not_ne_iff]

/-- The segments of a path that count. -/
def components (path : Text) : List Text := (segments path).filter (IsComponent ·)

theorem components_append (first second : Text) :
    components (first ++ separator :: second) = components first ++ components second := by
  rw [components, segments_append, List.filter_append, components, components]

theorem components_separator (path : Text) : components (separator :: path) = components path :=
  components_append [] path

theorem components_append_separator (path : Text) : components (path ++ [separator]) = components path := by
  rw [components_append]
  exact List.append_nil _

section Parents

/-- What is cut from the end of a path has no components. -/
theorem components_trimBackwards (path : Text) :
    components (trimBackwards path).reverse = components path.reverse := by
  -- Read backwards, a path loses a separator, a `.` alone, or a `.` with the separator in front of it.
  fun_induction trimBackwards path with
  | case1 rest ih => rw [ih, List.reverse_cons]; exact (components_append_separator _).symm
  | case2 => decide +kernel
  | case3 rest ih =>
    have cut : components (rest.reverse ++ separator :: dot) = components rest.reverse := by
      rw [components_append]
      exact List.append_nil _
    rw [ih, List.reverse_cons, List.reverse_cons, List.append_assoc]
    exact cut.symm
  | case4 => rfl

/-- The `.` that starts a relative path does not count. -/
theorem components_dot_append {path : Text} (starts : path = [] ∨ isAbsolute path) :
    components (dot ++ path) = components path := by
  rcases starts with rfl | absolute
  · decide +kernel
  · obtain ⟨rest, rfl⟩ := isAbsolute_iff.mp absolute
    rw [components_append, components_separator]
    rfl

/-- What may stand in front of the name of an entry: nothing, or a text with a separator at the end. -/
def IsClosed (directory : Text) : Prop := directory = [] ∨ ∃ front, directory = front ++ [separator]

/-- The parent of a name is what stands behind the anchor, cut behind its last component. -/
theorem parent?_of_splitAnchor {anchor front name path : Text} (split : splitAnchor path = (anchor, front ++ name))
    (proper : IsName name) (closed : IsClosed front) :
    parent? path = some (anchor ++ (trimBackwards front.reverse).reverse) := by
  -- Nothing is cut behind the name. Without the name, the cut goes on in front of it.
  have kept : trimBackwards (front ++ name).reverse = name.reverse ++ front.reverse := by
    rw [List.reverse_append, trimBackwards_name proper]
  have filled : name.reverse ++ front.reverse ≠ [] := by simp [proper.nonempty]
  have cut : trimBackwards (((name.reverse ++ front.reverse).dropWhile (· != separator)).drop 1)
      = trimBackwards front.reverse := by
    rw [dropWhile_single proper.single]
    rcases closed with rfl | ⟨start, rfl⟩
    · rfl
    · rw [List.reverse_append]
      rfl
  simp only [parent?, split, kept]
  rw [← cut]

theorem IsClosed.tail {c : Char} {front : Text} (closed : IsClosed (c :: front)) : IsClosed front := by
  obtain ⟨start, whole⟩ := closed.resolve_left (List.cons_ne_nil _ _)
  cases start with
  | nil => exact .inl (List.cons.inj whole).2
  | cons d start => exact .inr ⟨start, (List.cons.inj whole).2⟩

/-- The anchor of a path is a part of what stands in front of its last name. -/
theorem splitAnchor_cases {directory name : Text} (proper : IsName name) (closed : IsClosed directory) :
    (∃ front, directory = separator :: front ∧ splitAnchor (directory ++ name) = ([separator], front ++ name))
      ∨ (∃ front, directory = dot ++ separator :: front
        ∧ splitAnchor (directory ++ name) = (dot, separator :: front ++ name))
      ∨ isAbsolute directory = false ∧ splitAnchor (directory ++ name) = ([], directory ++ name) := by
  match directory with
  | [] =>
    refine .inr (.inr ⟨rfl, ?_⟩)
    have single := proper.single
    have notDot := proper.notDot
    rw [List.nil_append, splitAnchor.eq_def]
    split <;> simp_all [separator, dot]
  | [c] =>
    -- A single character in front of the name is a separator.
    obtain ⟨front, whole⟩ := closed.resolve_left (List.cons_ne_nil _ _)
    have same : c = separator := by
      have ends := congrArg List.getLast? whole
      simpa using ends
    exact .inl ⟨[], by rw [same], by rw [same]; rfl⟩
  | c :: d :: front =>
    by_cases absolute : c = separator
    · exact .inl ⟨d :: front, by rw [absolute], by rw [absolute]; rfl⟩
    · by_cases current : c = '.' ∧ d = separator
      · exact .inr (.inl ⟨front, by rw [current.1, current.2]; rfl, by rw [current.1, current.2]; rfl⟩)
      · refine .inr (.inr ⟨by simpa [isAbsolute] using absolute, ?_⟩)
        rw [splitAnchor.eq_def]
        split <;> simp_all [separator]

theorem isAbsolute_of_prefix {front path : Text} (start : front <+: path) :
    front = [] ∨ isAbsolute front = isAbsolute path := by
  obtain ⟨rest, rfl⟩ := start
  cases front with
  | nil => exact .inl rfl
  | cons c front => exact .inr rfl

/-- A path that ends with a name has a parent, and this has the components in front of the name. -/
theorem exists_parent?_append {directory name : Text} (proper : IsName name) (closed : IsClosed directory) :
    ∃ parent, parent? (directory ++ name) = some parent ∧ components parent = components directory
      ∧ isAbsolute parent = isAbsolute directory := by
  -- As the cut is made at the end, it leaves the first character, or nothing.
  have cut (front : Text) : (trimBackwards front.reverse).reverse = []
      ∨ isAbsolute (trimBackwards front.reverse).reverse = isAbsolute front := by
    apply isAbsolute_of_prefix
    rw [← List.reverse_suffix, List.reverse_reverse]
    exact trimBackwards_suffix _
  have counted (front : Text) : components (trimBackwards front.reverse).reverse = components front := by
    rw [components_trimBackwards, List.reverse_reverse]
  rcases splitAnchor_cases proper closed with ⟨front, rfl, split⟩ | ⟨front, rfl, split⟩ | ⟨relative, split⟩
  · refine ⟨_, parent?_of_splitAnchor split proper closed.tail, ?_, rfl⟩
    rw [List.singleton_append, components_separator, counted, components_separator]
  · -- What is left behind the `.` is empty or starts with the separator.
    refine ⟨_, parent?_of_splitAnchor split proper closed.tail, ?_, rfl⟩
    rw [components_dot_append (cut (separator :: front)), counted, components_dot_append (.inr rfl)]
  · refine ⟨_, parent?_of_splitAnchor split proper closed, counted directory, ?_⟩
    rw [List.nil_append]
    rcases cut directory with empty | same
    · rw [empty, relative]
      rfl
    · exact same

end Parents

section Below

variable {names : List Text}

/-- The segments up to the last component. -/
def trimmed (names : List Text) : List Text := names.rdropWhile (¬ IsComponent ·)

theorem trimmed_concat_of_isComponent (front : List Text) {last : Text} (component : IsComponent last) :
    trimmed (front ++ [last]) = front ++ [last] :=
  List.rdropWhile_concat_neg _ _ _ (by simpa using component)

theorem trimmed_concat_of_not (front : List Text) {last : Text} (blank : ¬ IsComponent last) :
    trimmed (front ++ [last]) = trimmed front :=
  List.rdropWhile_concat_pos _ _ _ (by simpa using blank)

theorem trimmed_append_of_not (front : List Text) {rest : List Text}
    (blank : ∀ segment ∈ rest, ¬ IsComponent segment) : trimmed (front ++ rest) = trimmed front := by
  induction rest using List.reverseRecOn with
  | nil => rw [List.append_nil]
  | append_singleton rest last ih =>
    rw [List.forall_mem_append, List.forall_mem_singleton] at blank
    rw [← List.append_assoc, trimmed_concat_of_not _ blank.2, ih blank.1]

/-- Cutting a text behind its last component cuts its segments. -/
theorem reverse_trimBackwards (single : ∀ name ∈ names, separator ∉ name) :
    (trimBackwards (ofSegments names).reverse).reverse = ofSegments (trimmed names) := by
  -- The segments are taken from the end, where the text is cut.
  induction names using List.reverseRecOn with
  | nil => rfl
  | append_singleton front last ih =>
    rw [List.forall_mem_append, List.forall_mem_singleton] at single
    by_cases component : IsComponent last
    · rw [trimmed_concat_of_isComponent _ component, reverse_ofSegments,
        trimBackwards_single component.1 component.2 single.2, ← reverse_ofSegments, List.reverse_reverse]
    · rw [trimmed_concat_of_not _ component, ← ih single.1, reverse_ofSegments]
      rw [not_isComponent_iff] at component
      -- Alone, the segment has no separator in front of it that could be cut.
      by_cases alone : front = []
      · subst alone
        rcases component with rfl | rfl <;> rfl
      · rw [if_neg alone]
        rcases component with rfl | rfl <;> rfl

/-- A last segment that does not count makes no difference to the parent. -/
theorem parent?_concat_of_not {front : List Text} {last : Text} (single : ∀ name ∈ front ++ [last], separator ∉ name)
    (blank : ¬ IsComponent last) : parent? (spelled (front ++ [last])) = parent? (spelled front) := by
  have same : trimBackwards (ofSegments (front ++ [last])).reverse = trimBackwards (ofSegments front).reverse := by
    rw [← List.reverse_inj, reverse_trimBackwards single, trimmed_concat_of_not _ blank,
      reverse_trimBackwards (List.forall_mem_append.mp single).1]
  rw [spelled, spelled, parent?_separator, parent?_separator, same]

/-- Without its last component a path is cut behind the component before it. -/
theorem parent?_concat_component {front : List Text} {last : Text}
    (single : ∀ name ∈ front ++ [last], separator ∉ name) (component : IsComponent last) :
    parent? (spelled (front ++ [last])) = some (spelled (trimmed front)) := by
  have parts := List.forall_mem_append.mp single
  have inner := parts.2 last (List.mem_singleton_self _)
  -- The last segment is a component, so there is nothing to trim behind it, and the cut goes in front
  -- of it.
  have kept : trimBackwards (ofSegments (front ++ [last])).reverse = (ofSegments (front ++ [last])).reverse := by
    rw [← List.reverse_inj, reverse_trimBackwards single, trimmed_concat_of_isComponent _ component,
      List.reverse_reverse]
  have cut : ((ofSegments (front ++ [last])).reverse.dropWhile (· != separator)).drop 1
      = (ofSegments front).reverse := by
    rw [reverse_ofSegments, dropWhile_single inner]
    by_cases alone : front = []
    · rw [if_pos alone, alone]
      rfl
    · rw [if_neg alone, List.dropWhile_cons_of_neg (by simp)]
      rfl
  have filled : (ofSegments (front ++ [last])).reverse ≠ [] := by
    rw [reverse_ofSegments]
    simp [component.1]
  rw [spelled, parent?_separator, kept, if_neg filled, cut, reverse_trimBackwards parts.1, spelled]

theorem parent?_trimmed (single : ∀ name ∈ names, separator ∉ name) :
    parent? (spelled (trimmed names)) = parent? (spelled names) := by
  induction names using List.reverseRecOn with
  | nil => rfl
  | append_singleton front last ih =>
    by_cases component : IsComponent last
    · rw [trimmed_concat_of_isComponent _ component]
    · rw [trimmed_concat_of_not _ component, parent?_concat_of_not single component,
        ih (List.forall_mem_append.mp single).1]

theorem mem_ancestors_iff {path ancestor : Text} : ancestor ∈ ancestors path
    ↔ ancestor = path ∨ ∃ parent, parent? path = some parent ∧ ancestor ∈ ancestors parent := by
  rw [ancestors]
  split
  · next none => simp [none]
  · next parent found => simp [found]

/-- What continues a path with a component has the path strictly above it. -/
theorem exists_parent?_below {rest : List Text} (closed : trimmed names = names)
    (single : ∀ name ∈ names ++ rest, separator ∉ name) (more : ∃ segment ∈ rest, IsComponent segment) :
    ∃ parent, parent? (spelled (names ++ rest)) = some parent ∧ spelled names ∈ ancestors parent := by
  -- The induction drops the last segment of the rest. If that is a component, the parent drops it too.
  induction rest using List.reverseRecOn with
  | nil => simp at more
  | append_singleton front last ih =>
    rw [← List.append_assoc] at single ⊢
    have single' := (List.forall_mem_append.mp single).1
    by_cases inner : ∃ segment ∈ front, IsComponent segment
    · obtain ⟨parent, found, above⟩ := ih single' inner
      by_cases component : IsComponent last
      · refine ⟨_, parent?_concat_component single component, ?_⟩
        exact mem_ancestors_iff.mpr (.inr ⟨parent, (parent?_trimmed single').trans found, above⟩)
      · exact ⟨parent, (parent?_concat_of_not single component).trans found, above⟩
    · -- The last segment is the only component behind the path.
      push Not at inner
      have component : IsComponent last := by
        obtain ⟨segment, member, component⟩ := more
        rcases List.mem_append.mp member with before | here
        · exact absurd component (inner segment before)
        · exact List.mem_singleton.mp here ▸ component
      refine ⟨_, parent?_concat_component single component, ?_⟩
      rw [trimmed_append_of_not _ inner, closed]
      exact mem_ancestors_iff.mpr (.inl rfl)

/-- The text in front of the entries of a directory. -/
def entryFront (directory : Text) : Text :=
  if endsWithSeparator directory then directory else directory ++ [separator]

/-- A path that continues a directory with at least one component. -/
def IsBelow (directory path : Text) : Prop :=
  ∃ rest, path = entryFront directory ++ rest ∧ ∃ segment ∈ segments rest, IsComponent segment

theorem trimmed_of_isComponent (counted : ∀ name ∈ names, IsComponent name) : trimmed names = names := by
  rcases List.eq_nil_or_concat names with rfl | ⟨front, last, rfl⟩
  · rfl
  · rw [List.concat_eq_append] at counted ⊢
    exact trimmed_concat_of_isComponent _ (counted last (by simp))

section Counted

variable (counted : ∀ name ∈ names, IsComponent name ∧ separator ∉ name)

include counted

theorem entryFront_spelled (inner : names ≠ []) : entryFront (spelled names) = spelled names ++ [separator] := by
  have opened : endsWithSeparator (spelled names) = false := by
    rw [spelled_eq, if_neg inner]
    exact endsWithSeparator_append_rooted [] inner fun name member =>
      ⟨(counted name member).1.1, (counted name member).2⟩
  rw [entryFront, opened]
  rfl

theorem entryFront_spelled_append (rest : Text) :
    entryFront (spelled names) ++ rest = spelled (names ++ segments rest) := by
  by_cases root : names = []
  · subst root
    rw [List.nil_append, spelled, spelled, ofSegments_segments]
    rfl
  · rw [entryFront_spelled counted root, spelled, spelled, ofSegments_append root (segments_ne_nil rest),
      ofSegments_segments]
    simp

/-- What lies below a path without blank segments has it among its ancestors, however it is spelled. -/
theorem mem_ancestors_of_isBelow {path : Text} (below : IsBelow (spelled names) path) :
    spelled names ∈ ancestors path := by
  obtain ⟨rest, rfl, more⟩ := below
  rw [entryFront_spelled_append counted]
  have single : ∀ name ∈ names ++ segments rest, separator ∉ name := by
    refine List.forall_mem_append.mpr ⟨fun name member => (counted name member).2, ?_⟩
    exact fun _ => not_mem_of_mem_segments
  have closed := trimmed_of_isComponent fun name member => (counted name member).1
  exact mem_ancestors_iff.mpr (.inr (exists_parent?_below closed single more))

end Counted

theorem mem_ancestors_trans {one two three : Text} (above : one ∈ ancestors two) (above' : two ∈ ancestors three) :
    one ∈ ancestors three := by
  fun_induction ancestors three with
  | case1 path none =>
    -- Without a parent, a path is its only ancestor.
    rw [List.mem_singleton.mp above', mem_ancestors_iff] at above
    rw [List.mem_singleton]
    refine above.resolve_right ?_
    rintro ⟨parent, found, -⟩
    cases none.symm.trans found
  | case2 path parent found ih =>
    rcases List.mem_cons.mp above' with rfl | inner
    · rw [mem_ancestors_iff] at above
      rcases above with rfl | ⟨parent', found', member⟩
      · exact List.mem_cons_self
      · cases found.symm.trans found'
        exact List.mem_cons_of_mem _ member
    · exact List.mem_cons_of_mem _ (ih inner)

end Below

end RootedGlob.Path
