import RootedGlob.Path
import RootedGlob.Proofs.Lists

/-!
# Locations

An absolute path denotes a location: the names that are left when its segments are walked from the
root. Two texts with one location are two spellings of one path, and normalization picks the same
spelling for both (`dropTrailingSeparator_normalize`). Walking an appended path goes on from where the first one led
(`stand_append`), which is all that joining means.
-/

namespace RootedGlob.Path

/-- A segment that names something below the location before it. -/
structure IsName (segment : Text) : Prop where
  nonempty : segment ≠ []
  notDot : segment ≠ dot
  notParent : segment ≠ dotDot
  single : separator ∉ segment

instance (segment : Text) : Decidable (IsName segment) :=
  decidable_of_iff (segment ≠ [] ∧ segment ≠ dot ∧ segment ≠ dotDot ∧ separator ∉ segment)
    ⟨fun ⟨nonempty, notDot, notParent, single⟩ => ⟨nonempty, notDot, notParent, single⟩,
      fun name => ⟨name.nonempty, name.notDot, name.notParent, name.single⟩⟩

/-- Names with a separator in front of each. -/
def rooted (names : List Text) : Text := names.flatMap (separator :: ·)

/-- The names of the location that a path denotes from the root on, the last one first. -/
def stand (path : Text) : List Text := (segments path).foldl (walk true) []

/-- The names of the location that a path denotes from the root on. -/
def location (path : Text) : List Text := (stand path).reverse

@[simp] theorem rooted_nil : rooted [] = [] := rfl

@[simp] theorem rooted_cons (name : Text) (names : List Text) :
    rooted (name :: names) = separator :: (name ++ rooted names) := rfl

theorem rooted_append (first second : List Text) :
    rooted (first ++ second) = rooted first ++ rooted second := List.flatMap_append

theorem ofSegments_cons (name : Text) (names : List Text) :
    ofSegments (name :: names) = name ++ rooted names := by
  induction names generalizing name with
  | nil => simp [ofSegments]
  | cons next names ih =>
    have rest := ih next
    rw [ofSegments] at rest ⊢
    rw [List.intercalate_cons_cons, rest]
    simp

/-- A location is spelled with a separator in front of each name. -/
theorem separator_ofSegments (names : List Text) :
    separator :: ofSegments names = if names = [] then [separator] else rooted names := by
  cases names with
  | nil => rfl
  | cons name names => rw [ofSegments_cons, if_neg (List.cons_ne_nil _ _), rooted_cons]

theorem ofSegments_append {first second : List Text} (one : first ≠ []) (two : second ≠ []) :
    ofSegments (first ++ second) = ofSegments first ++ separator :: ofSegments second := by
  obtain ⟨name, first, rfl⟩ := List.exists_cons_of_ne_nil one
  obtain ⟨next, second, rfl⟩ := List.exists_cons_of_ne_nil two
  rw [List.cons_append, ofSegments_cons, rooted_append, ofSegments_cons, ofSegments_cons, rooted_cons]
  simp

theorem ofSegments_segments (path : Text) : ofSegments (segments path) = path :=
  List.intercalate_splitOn separator

theorem segments_ofSegments {names : List Text} (filled : names ≠ [])
    (single : ∀ name ∈ names, separator ∉ name) : segments (ofSegments names) = names :=
  List.splitOn_intercalate separator single filled

theorem segments_append (first second : Text) :
    segments (first ++ separator :: second) = segments first ++ segments second :=
  List.splitOn_append_cons_self first second

theorem segments_single {segment : Text} (single : separator ∉ segment) :
    segments segment = [segment] := List.splitOn_eq_singleton single

theorem segments_nil : segments [] = [[]] := List.splitOn_nil separator

theorem segments_ne_nil (path : Text) : segments path ≠ [] := List.splitOn_ne_nil separator path

theorem not_mem_of_mem_segments {path segment : Text} (member : segment ∈ segments path) :
    separator ∉ segment := not_mem_of_mem_splitOn member

/-- A path is its first segment followed by the other ones, each behind a separator. -/
theorem exists_segments (path : Text) :
    ∃ first names, segments path = first :: names ∧ path = first ++ rooted names := by
  obtain ⟨first, names, whole⟩ := List.exists_cons_of_ne_nil (segments_ne_nil path)
  refine ⟨first, names, whole, ?_⟩
  rw [← ofSegments_cons, ← whole, ofSegments_segments]

theorem rooted_segments (path : Text) : rooted (segments path) = separator :: path := by
  obtain ⟨first, names, split, whole⟩ := exists_segments path
  rw [split, rooted_cons, ← whole]

theorem segments_rooted {names : List Text} (single : ∀ name ∈ names, separator ∉ name) :
    segments (rooted names) = [] :: names := by
  have split := @List.splitOn_intercalate _ ([] :: names) _ _ separator (by simpa using single)
    (List.cons_ne_nil _ _)
  have whole := ofSegments_cons [] names
  rw [ofSegments, List.nil_append] at whole
  rw [segments, ← whole, split]

theorem segments_separator (path : Text) : segments (separator :: path) = [] :: segments path :=
  segments_append [] path

theorem segments_append_rooted (path : Text) {names : List Text}
    (single : ∀ name ∈ names, separator ∉ name) :
    segments (path ++ rooted names) = segments path ++ names := by
  cases names with
  | nil => simp
  | cons name names =>
    have inner := segments_rooted single
    rw [rooted_cons, segments_separator, List.cons.injEq] at inner
    rw [rooted_cons, segments_append, inner.2]

theorem walk_name (absolute : Bool) (stack : List Text) {segment : Text} (name : IsName segment) :
    walk absolute stack segment = segment :: stack := by
  simp [walk, name.nonempty, name.notDot, name.notParent]

theorem walk_blank (absolute : Bool) (stack : List Text) {segment : Text}
    (blank : segment = [] ∨ segment = dot) : walk absolute stack segment = stack := by
  rw [walk.eq_def, if_pos blank]

theorem walk_parent (absolute : Bool) (stack : List Text) {top : Text} (name : IsName top) :
    walk absolute (top :: stack) dotDot = stack := by
  rw [walk.eq_def, if_neg (by decide), if_pos rfl]
  exact if_pos name.notParent

theorem walk_parent_root : walk true [] dotDot = [] := rfl

/-- A segment stands for nothing, for a step up, or for itself. -/
theorem segment_cases {segment : Text} (single : separator ∉ segment) :
    (segment = [] ∨ segment = dot) ∨ segment = dotDot ∨ IsName segment := by
  by_cases blank : segment = [] ∨ segment = dot
  · exact .inl blank
  · by_cases parent : segment = dotDot
    · exact .inr (.inl parent)
    · rw [not_or] at blank
      exact .inr (.inr ⟨blank.1, blank.2, parent, single⟩)

/-- A segment leaves the stack as it is, takes its top away, or is put on it. -/
theorem walk_cases (absolute : Bool) (stack : List Text) (segment : Text) :
    walk absolute stack segment = stack ∨ (∃ top, stack = top :: walk absolute stack segment)
      ∨ walk absolute stack segment = segment :: stack := by
  rw [walk.eq_def]
  split
  · exact .inl rfl
  · -- A `..` takes a name away. At the root it is nothing, and in a relative path it is put on the
    -- others.
    split
    · next parent =>
      cases stack with
      | nil =>
        cases absolute with
        | true => exact .inl rfl
        | false =>
          right; right
          rw [parent]
          rfl
      | cons top below =>
        by_cases other : top ≠ dotDot
        · right; left
          exact ⟨top, by simp [other]⟩
        · cases absolute with
          | true =>
            left
            simp [other]
          | false =>
            right; right
            simp [other, parent]
    · exact .inr (.inr rfl)

theorem isName_of_mem_walk {stack : List Text} (names : ∀ name ∈ stack, IsName name)
    {segment : Text} (single : separator ∉ segment) :
    ∀ name ∈ walk true stack segment, IsName name := by
  rcases segment_cases single with blank | rfl | proper
  · rwa [walk_blank true stack blank]
  · cases stack with
    | nil => simp [walk_parent_root]
    | cons top below =>
      rw [walk_parent true below (names top List.mem_cons_self)]
      exact fun name member => names name (List.mem_cons_of_mem _ member)
  · rw [walk_name true stack proper]
    exact List.forall_mem_cons.mpr ⟨proper, names⟩

theorem isName_of_mem_foldl {stack names : List Text} (below : ∀ name ∈ stack, IsName name)
    (single : ∀ segment ∈ names, separator ∉ segment) :
    ∀ name ∈ names.foldl (walk true) stack, IsName name := by
  induction names generalizing stack with
  | nil => exact below
  | cons segment names ih =>
    exact ih (isName_of_mem_walk below (single segment List.mem_cons_self))
      fun other member => single other (List.mem_cons_of_mem _ member)

/-- A location consists of names. -/
theorem isName_of_mem_location {path name : Text} (member : name ∈ location path) : IsName name := by
  rw [location, List.mem_reverse] at member
  exact isName_of_mem_foldl (by simp) (fun _ => not_mem_of_mem_segments) name member

/-- Walking keeps some of the segments in their order. -/
theorem foldl_walk_sublist (absolute : Bool) (stack names : List Text) :
    (names.foldl (walk absolute) stack).Sublist (names.reverse ++ stack) := by
  induction names generalizing stack with
  | nil => exact List.Sublist.refl _
  | cons segment names ih =>
    have step : (walk absolute stack segment).Sublist (segment :: stack) := by
      rcases walk_cases absolute stack segment with same | ⟨top, same⟩ | same
      · rw [same]
        exact List.sublist_cons_self _ _
      · refine List.Sublist.cons _ ?_
        conv => rhs; rw [same]
        exact List.sublist_cons_self _ _
      · rw [same]
    rw [List.foldl_cons, List.reverse_cons, List.append_assoc, List.singleton_append]
    exact (ih _).trans (step.append_left names.reverse)

/-- Walking an appended path goes on from where the first one led. -/
theorem stand_append (first second : Text) :
    stand (first ++ separator :: second) = (segments second).foldl (walk true) (stand first) := by
  rw [stand, segments_append, List.foldl_append, ← stand]

theorem stand_separator (path : Text) : stand (path ++ [separator]) = stand path := by
  rw [stand_append, segments_nil]
  rfl

theorem location_separator (path : Text) : location (separator :: path) = location path := by
  rw [location, stand, segments_separator, List.foldl_cons, walk_blank true [] (.inl rfl), location, stand]

theorem foldl_walk_names (absolute : Bool) (stack : List Text) {names : List Text}
    (proper : ∀ name ∈ names, IsName name) :
    names.foldl (walk absolute) stack = names.reverse ++ stack := by
  induction names generalizing stack with
  | nil => rfl
  | cons name names ih =>
    rw [List.foldl_cons, walk_name absolute stack (proper name List.mem_cons_self),
      ih _ fun other member => proper other (List.mem_cons_of_mem _ member)]
    simp

theorem location_rooted {names : List Text} (proper : ∀ name ∈ names, IsName name) :
    location (rooted names) = names := by
  rw [location, stand, segments_rooted fun name member => (proper name member).single,
    List.foldl_cons, walk_blank true [] (.inl rfl), foldl_walk_names true [] proper]
  simp

theorem isAbsolute_iff {path : Text} : isAbsolute path ↔ ∃ rest, path = separator :: rest := by
  cases path with
  | nil => simp [isAbsolute]
  | cons c path => simp [isAbsolute]

theorem isAbsolute_append_of_single {front : Text} (filled : front ≠ []) (single : separator ∉ front)
    (rest : Text) : isAbsolute (front ++ rest) = false := by
  cases front with
  | nil => exact absurd rfl filled
  | cons c front =>
    have other : c ≠ separator := fun same => single (by simp [same])
    simpa [isAbsolute] using other

theorem isAbsolute_append_of_isName {name : Text} (proper : IsName name) (rest : Text) :
    isAbsolute (name ++ rest) = false := isAbsolute_append_of_single proper.nonempty proper.single rest

theorem resolve_name {name : Text} (proper : IsName name) : resolve name = [name] := by
  have relative := isAbsolute_append_of_isName proper []
  rw [List.append_nil] at relative
  rw [resolve, relative, segments_single proper.single, List.foldl_cons, walk_name _ _ proper]
  rfl

theorem resolve_of_isAbsolute {path : Text} (absolute : isAbsolute path) :
    resolve path = location path := by
  rw [resolve, absolute]
  rfl

/-- The one spelling of a location. -/
def spelled (names : List Text) : Text := separator :: ofSegments names

theorem spelled_eq (names : List Text) :
    spelled names = if names = [] then [separator] else rooted names := separator_ofSegments names

theorem ofSegments_eq_nil {names : List Text} (filled : ∀ name ∈ names, name ≠ []) :
    ofSegments names = [] ↔ names = [] := by
  cases names with
  | nil => simp [ofSegments]
  | cons name names =>
    rw [ofSegments_cons]
    simp [filled name List.mem_cons_self]

/-- A path does not end with a separator if some texts without separators stand behind it, each behind one. -/
theorem endsWithSeparator_append_rooted (path : Text) {names : List Text} (nonempty : names ≠ [])
    (filled : ∀ name ∈ names, name ≠ [] ∧ separator ∉ name) :
    endsWithSeparator (path ++ rooted names) = false := by
  obtain ⟨front, last, rfl⟩ := List.eq_nil_or_concat names |>.resolve_left nonempty
  rw [List.concat_eq_append] at filled ⊢
  obtain ⟨some, single⟩ := filled last (by simp)
  rw [rooted_append, rooted_cons, rooted_nil, List.append_nil, endsWithSeparator, List.getLast?_append,
    List.getLast?_append, List.getLast?_cons, Option.some_or, Option.some_or]
  cases ending : last.getLast? with
  | none => exact absurd (List.getLast?_eq_none_iff.mp ending) some
  | some d =>
    have other : d ≠ separator := fun same => single (same ▸ List.mem_of_getLast? ending)
    simpa using other

/-- A name does not end with a separator, and neither does a spelled location. -/
theorem endsWithSeparator_rooted {names : List Text} (proper : ∀ name ∈ names, IsName name) :
    endsWithSeparator (rooted names) = false := by
  by_cases empty : names = []
  · rw [empty]
    rfl
  · exact endsWithSeparator_append_rooted [] empty fun name member =>
      ⟨(proper name member).nonempty, (proper name member).single⟩

theorem normalize_of_isAbsolute {path : Text} (absolute : isAbsolute path) :
    normalize path = if location path ≠ [] ∧ endsWithSeparator path
      then rooted (location path) ++ [separator] else spelled (location path) := by
  have nonempty : path ≠ [] := by
    rintro rfl
    simp [isAbsolute] at absolute
  have empty : ofSegments (location path) = [] ↔ location path = [] :=
    ofSegments_eq_nil fun _ member => (isName_of_mem_location member).nonempty
  simp only [normalize, if_neg nonempty, resolve_of_isAbsolute absolute, absolute, not_true_eq_false,
    and_false, if_false, if_true, ne_eq, empty]
  have whole := spelled_eq (location path)
  rw [spelled] at whole
  split
  · next inner =>
    rw [if_neg inner.1] at whole
    rw [← whole]
    rfl
  · rfl

/-- The normal form of an absolute path, a separator at the end aside, spells its location. -/
theorem dropTrailingSeparator_normalize {path : Text} (absolute : isAbsolute path) :
    dropTrailingSeparator (normalize path) = spelled (location path) := by
  have proper : ∀ name ∈ location path, IsName name := fun _ => isName_of_mem_location
  rw [normalize_of_isAbsolute absolute]
  split
  · next inner =>
    rw [spelled_eq, if_neg inner.1, dropTrailingSeparator, if_pos, List.dropLast_concat]
    obtain ⟨name, names, whole⟩ := List.exists_cons_of_ne_nil inner.1
    constructor
    · rw [whole, rooted_cons]
      simp only [List.cons_append, List.length_cons, List.length_append, List.length_nil]
      omega
    · rw [endsWithSeparator, List.getLast?_append_of_ne_nil _ (List.cons_ne_nil _ _)]
      rfl
  · rw [spelled_eq]
    split
    · rfl
    · next named => rw [dropTrailingSeparator, if_neg (by simp [endsWithSeparator_rooted proper])]

/-- Spelling a location never takes more characters than the path did. -/
theorem length_spelled_location {path : Text} (absolute : isAbsolute path) :
    (spelled (location path)).length ≤ path.length := by
  obtain ⟨rest, rfl⟩ := isAbsolute_iff.mp absolute
  have walked : stand (separator :: rest) = (segments rest).foldl (walk true) [] := by
    rw [stand, segments_separator]
    rfl
  have names : (location (separator :: rest)).Sublist (segments rest) := by
    have sub := foldl_walk_sublist true [] (segments rest)
    rw [List.append_nil] at sub
    rw [location, walked]
    simpa using sub.reverse
  rw [spelled_eq]
  split
  · exact Nat.succ_le_succ (Nat.zero_le _)
  · have few : (rooted (location (separator :: rest))).length ≤ (rooted (segments rest)).length :=
      (names.flatMap _).length_le
    rwa [rooted_segments] at few

theorem location_spelled {names : List Text} (proper : ∀ name ∈ names, IsName name) :
    location (spelled names) = names := by
  rw [spelled_eq]
  split
  · next empty =>
    rw [empty]
    rfl
  · exact location_rooted proper

theorem spelled_inj {one two : List Text} (proper : ∀ name ∈ one, IsName name)
    (proper' : ∀ name ∈ two, IsName name) : spelled one = spelled two ↔ one = two := by
  refine ⟨fun same => ?_, congrArg spelled⟩
  rw [← location_spelled proper, same, location_spelled proper']

/-- The spelling of a location does not end with a separator, unless it is the root. -/
theorem spelled_ne_append_separator {names : List Text} (proper : ∀ name ∈ names, IsName name)
    {path : Text} (filled : path ≠ []) : spelled names ≠ path ++ [separator] := by
  intro same
  rw [spelled_eq] at same
  split at same
  · have root : [] ++ [separator] = path ++ [separator] := same
    exact filled (List.append_cancel_right root).symm
  · have ends := endsWithSeparator_rooted proper
    rw [same, endsWithSeparator, List.getLast?_concat] at ends
    cases ends

/-- A normal form of an absolute path is the spelling of its location, perhaps with a separator. -/
theorem eq_spelled_of_normal {path : Text} (absolute : isAbsolute path) (normal : normalize path = path) :
    path = spelled (location path)
      ∨ (location path ≠ [] ∧ path = spelled (location path) ++ [separator]) := by
  have form := normalize_of_isAbsolute absolute
  rw [normal] at form
  split at form
  · next inner =>
    right
    rw [spelled_eq, if_neg inner.1]
    exact ⟨inner.1, form⟩
  · exact .inl form

/-- The segments of a normal path: a blank one, the names, and perhaps another blank one. -/
theorem exists_segments_of_normal {path : Text} (absolute : isAbsolute path) (normal : normalize path = path) :
    ∃ back, (back = [] ∨ back = [[]]) ∧ segments path = [] :: (location path ++ back) := by
  have single : ∀ name ∈ location path, separator ∉ name := fun name member =>
    (isName_of_mem_location member).single
  rcases eq_spelled_of_normal absolute normal with plain | ⟨filled, closed⟩
  · generalize location path = names at plain single
    rw [plain, spelled_eq]
    split
    · next root =>
      refine ⟨[[]], .inr rfl, ?_⟩
      rw [root]
      exact segments_separator []
    · exact ⟨[], .inl rfl, by rw [segments_rooted single, List.append_nil]⟩
  · generalize location path = names at filled closed single
    refine ⟨[[]], .inr rfl, ?_⟩
    rw [closed, spelled_eq, if_neg filled, segments_append, segments_rooted single, segments_nil,
      List.cons_append]

/-- The segments of a path between which there are separators, the empty ones left out. -/
def filledSegments (path : Text) : List Text := (segments path).filter (· ≠ [])

theorem filledSegments_of_normal {path : Text} (absolute : isAbsolute path) (normal : normalize path = path) :
    filledSegments path = location path := by
  obtain ⟨back, blank, split⟩ := exists_segments_of_normal absolute normal
  have kept : (location path).filter (· ≠ []) = location path :=
    List.filter_eq_self.mpr fun name member => by simpa using (isName_of_mem_location member).nonempty
  rw [filledSegments, split, List.filter_cons_of_neg (by simp), List.filter_append, kept]
  rcases blank with rfl | rfl <;> simp

theorem normalize_spelled {names : List Text} (proper : ∀ name ∈ names, IsName name) :
    normalize (spelled names) = spelled names := by
  rw [normalize_of_isAbsolute rfl, location_spelled proper, if_neg]
  rintro ⟨nonempty, ending⟩
  rw [spelled_eq, if_neg nonempty, endsWithSeparator_rooted proper] at ending
  cases ending

theorem basename_rooted {front : List Text} {last : Text} (name : IsName last) :
    basename (rooted (front ++ [last])) = last := by
  have ordinary : ∀ c ∈ last.reverse, (c != separator) = true := by
    intro c member
    simpa using fun same : c = separator => name.single (same ▸ List.mem_reverse.mp member)
  obtain ⟨c, rest, filled⟩ := List.exists_cons_of_ne_nil
    (fun empty => name.nonempty (List.reverse_eq_nil_iff.mp empty) : last.reverse ≠ [])
  have backwards : (rooted (front ++ [last])).reverse
      = last.reverse ++ separator :: (rooted front).reverse := by
    rw [rooted_append, rooted_cons, rooted_nil, List.append_nil, List.reverse_append]
    simp
  have kept : trimSeparators (rooted (front ++ [last])) = rooted (front ++ [last]) := by
    have first := ordinary c (by rw [filled]; exact List.mem_cons_self)
    rw [trimSeparators, backwards, filled, List.cons_append,
      List.dropWhile_cons_of_neg (by simpa using first), ← List.cons_append, ← filled, ← backwards,
      List.reverse_reverse]
  rw [basename, kept, backwards, List.takeWhile_append_of_pos ordinary,
    List.takeWhile_cons_of_neg (by simp), List.append_nil, List.reverse_reverse]

/-- The basename of a location is its last name. -/
theorem basename_spelled {names : List Text} (proper : ∀ name ∈ names, IsName name) :
    basename (spelled names) = names.getLast?.getD [] := by
  rw [spelled_eq]
  rcases List.eq_nil_or_concat names with rfl | ⟨front, last, rfl⟩
  · rfl
  · rw [List.concat_eq_append] at proper ⊢
    rw [if_neg (by simp), basename_rooted (proper last (by simp))]
    simp

theorem isName_of_mem {segment : Text} {c : Char} (member : c ∈ segment) (other : c ≠ '.')
    (single : separator ∉ segment) : IsName segment := by
  refine ⟨?_, ?_, ?_, single⟩
  · rintro rfl
    simp at member
  · rintro rfl
    exact other (by simpa [dot] using member)
  · rintro rfl
    exact other (by simpa [dotDot] using member)

/-- Around a character that is no separator, the segments on both sides grow together. -/
theorem exists_segments_append (first second : Text) {c : Char} (other : c ≠ separator) :
    ∃ front last next back, segments first = front ++ [last] ∧ segments second = next :: back
      ∧ segments (first ++ c :: second) = front ++ (last ++ c :: next) :: back := by
  obtain ⟨front, last, before⟩ := List.eq_nil_or_concat (segments first) |>.resolve_left
    (segments_ne_nil first)
  obtain ⟨next, back, behind⟩ := List.exists_cons_of_ne_nil (segments_ne_nil second)
  rw [List.concat_eq_append] at before
  refine ⟨front, last, next, back, before, behind, ?_⟩
  -- The character is no separator, so the segment around it is one segment.
  have single : ∀ name ∈ front ++ (last ++ c :: next) :: back, separator ∉ name := by
    have one := fun name => @not_mem_of_mem_segments first name
    have two := fun name => @not_mem_of_mem_segments second name
    rw [before] at one
    rw [behind] at two
    intro name member
    rcases List.mem_append.mp member with inside | member
    · exact one name (List.mem_append_left _ inside)
    · rcases List.mem_cons.mp member with rfl | member
      · simp [one last (by simp), two next List.mem_cons_self, Ne.symm other]
      · exact two name (List.mem_cons_of_mem _ member)
  have whole : rooted (front ++ (last ++ c :: next) :: back)
      = separator :: (first ++ c :: second) := by
    have one := rooted_segments first
    have two := rooted_segments second
    rw [before, rooted_append, rooted_cons, rooted_nil, List.append_nil] at one
    rw [behind, rooted_cons, List.cons.injEq] at two
    rw [rooted_append, rooted_cons, ← two.2]
    have joined := congrArg (· ++ c :: (next ++ rooted back)) one
    simpa using joined
  have split := segments_rooted single
  rw [whole, segments_separator, List.cons.injEq] at split
  exact split.2

/-- The normal form of a relative path that resolves to some names: these names, and perhaps a
separator behind them. -/
theorem normalize_of_resolve {path first : Text} {names : List Text}
    (relative : isAbsolute path = false) (resolved : resolve path = first :: names)
    (filled : first ≠ []) :
    normalize path = if endsWithSeparator path then first ++ rooted names ++ [separator]
      else first ++ rooted names := by
  have nonempty : path ≠ [] := by
    rintro rfl
    cases resolved
  have body : first ++ rooted names ≠ [] := by simp [filled]
  simp [normalize, nonempty, resolved, ofSegments_cons, body, relative]

/-- A character in front of a path belongs to its first segment. -/
theorem exists_segments_cons (path : Text) {c : Char} (other : c ≠ separator) :
    ∃ next back, segments path = next :: back ∧ segments (c :: path) = (c :: next) :: back := by
  obtain ⟨next, back, split⟩ := List.exists_cons_of_ne_nil (segments_ne_nil path)
  refine ⟨next, back, split, ?_⟩
  rw [segments] at split
  rw [segments, List.splitOn_cons_eq_if_modifyHead, if_neg (by simpa using other), split,
    List.modifyHead_cons]

/-- A character behind a path belongs to its last segment. -/
theorem exists_segments_concat (path : Text) {c : Char} (other : c ≠ separator) :
    ∃ front last, segments path = front ++ [last]
      ∧ segments (path ++ [c]) = front ++ [last ++ [c]] := by
  obtain ⟨front, last, next, back, before, behind, whole⟩ := exists_segments_append path [] other
  rw [segments_nil] at behind
  obtain ⟨rfl, rfl⟩ := List.cons.inj behind
  exact ⟨front, last, before, whole⟩

/-- A cut of spelled names goes through one name. -/
theorem exists_rooted_append {names : List Text} {front back : Text}
    (same : rooted names = separator :: (front ++ back)) :
    ∃ before start rest behind, names = before ++ (start ++ rest) :: behind
      ∧ separator :: front = rooted before ++ separator :: start ∧ back = rest ++ rooted behind := by
  induction names generalizing front with
  | nil => cases same
  | cons name names ih =>
    rw [rooted_cons, List.cons.injEq] at same
    -- The cut is behind the first name, which is then left whole, or inside of it.
    rcases List.append_eq_append_iff.mp same.2 with ⟨later, rfl, tail⟩ | ⟨rest, rfl, rfl⟩
    · cases later with
      | nil => exact ⟨[], name, [], names, by simp, by simp, tail.symm⟩
      | cons c later =>
        have slash : c = separator := by
          cases names with
          | nil => cases tail
          | cons next names => exact (List.cons.inj tail).1.symm
        subst slash
        obtain ⟨before, start, rest, behind, rfl, start_eq, rfl⟩ := ih tail
        exact ⟨name :: before, start, rest, behind, by simp, by simp [start_eq], rfl⟩
    · exact ⟨[], front, rest, names, rfl, rfl, rfl⟩

/-- Names behind a path lie below its location. -/
theorem location_append_rooted (path : Text) {names : List Text}
    (proper : ∀ name ∈ names, IsName name) : location (path ++ rooted names) = location path ++ names := by
  rw [location, stand, segments_append_rooted path fun name member => (proper name member).single,
    List.foldl_append, foldl_walk_names true _ proper, List.reverse_append, List.reverse_reverse,
    location, stand]

theorem location_concat_ne_nil (path : Text) {c : Char} (ordinary : c ≠ separator ∧ c ≠ '.') :
    location (path ++ [c]) ≠ [] := by
  obtain ⟨front, last, -, whole⟩ := exists_segments_concat path ordinary.1
  have single : separator ∉ last ++ [c] := by
    have member : last ++ [c] ∈ segments (path ++ [c]) := by simp [whole]
    exact not_mem_of_mem_segments member
  rw [location, stand, whole, List.foldl_append, List.foldl_cons,
    walk_name true _ (isName_of_mem (by simp) ordinary.2 single)]
  simp

theorem isAbsolute_spelled (names : List Text) : isAbsolute (spelled names) := rfl

end RootedGlob.Path
