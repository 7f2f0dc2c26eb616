import RootedGlob.Proofs.Anchoring.Climbing
import RootedGlob.Proofs.Brace.Counting

/-!
# What normalization does to the marks of a pattern

A walk keeps its stack, drops its top or pushes a segment (`walk_cases`), so the marks that are left of
a pattern are some of its marks in their order (`marksOf_foldl`), and they are fewer if a `..` climbs
over a mark (`length_marksOf_lt`).
-/

namespace RootedGlob.Anchoring

open RootedGlob.Path Brace Glob

/-- The marks of a stack, in the order of the path. -/
def marksOf (stack : List Text) : List Lexeme := stack.reverse.flatMap marks

theorem marksOf_append (upper lower : List Text) :
    marksOf (upper ++ lower) = marksOf lower ++ marksOf upper := by
  rw [marksOf, List.reverse_append, List.flatMap_append, marksOf, marksOf]

theorem marksOf_cons (top : Text) (below : List Text) :
    marksOf (top :: below) = marksOf below ++ marks top := by
  rw [marksOf, List.reverse_cons, List.flatMap_append, List.flatMap_singleton, marksOf]

/-- A walk on top of some segments either leaves them alone or takes some of them away; in the second
case nothing is left of what stood above them before. -/
theorem exists_foldl_walk (absolute : Bool) (upper lower names : List Text) :
    ∃ top rest, names.foldl (walk absolute) (upper ++ lower) = top ++ rest
      ∧ ((rest = lower ∧ (marksOf top).Sublist (marksOf upper ++ names.flatMap marks))
        ∨ (rest <:+ lower ∧ rest ≠ lower ∧ (marksOf top).Sublist (names.flatMap marks))) := by
  induction names generalizing upper lower with
  | nil => exact ⟨upper, lower, rfl, .inl ⟨rfl, by simp⟩⟩
  | cons segment names ih =>
    rw [List.foldl_cons, List.flatMap_cons]
    have wider : (names.flatMap marks).Sublist (marks segment ++ names.flatMap marks) :=
      List.sublist_append_right _ _
    rcases walk_cases absolute (upper ++ lower) segment with same | ⟨first, same⟩ | same
    · rw [same]
      obtain ⟨top, rest, found, ⟨kept, few⟩ | ⟨suffix, fewer, few⟩⟩ := ih upper lower
      · exact ⟨top, rest, found, .inl ⟨kept, few.trans (wider.append_left _)⟩⟩
      · exact ⟨top, rest, found, .inr ⟨suffix, fewer, few.trans wider⟩⟩
    · generalize walk absolute (upper ++ lower) segment = stack at same
      cases upper with
      | nil =>
        -- The top of the lower part goes, so whatever is left of it is a proper end.
        rw [List.nil_append] at same
        subst same
        obtain ⟨top, rest, found, ⟨kept, few⟩ | ⟨suffix, fewer, few⟩⟩ := ih [] stack
        · refine ⟨top, rest, found, .inr ⟨kept ▸ List.suffix_cons _ _, ?_, few.trans wider⟩⟩
          rw [kept]
          exact (List.cons_ne_self _ _).symm
        · refine ⟨top, rest, found, .inr ⟨suffix.trans (List.suffix_cons _ _), ?_, few.trans wider⟩⟩
          intro equal
          have short := suffix.length_le
          rw [equal, List.length_cons] at short
          omega
      | cons first upper =>
        obtain ⟨rfl, rfl⟩ := List.cons.inj same
        obtain ⟨top, rest, found, ⟨kept, few⟩ | ⟨suffix, fewer, few⟩⟩ := ih upper lower
        · refine ⟨top, rest, found, .inl ⟨kept, few.trans ?_⟩⟩
          rw [marksOf_cons]
          exact (List.sublist_append_left _ _).append wider
        · exact ⟨top, rest, found, .inr ⟨suffix, fewer, few.trans wider⟩⟩
    · rw [same]
      obtain ⟨top, rest, found, ⟨kept, few⟩ | ⟨suffix, fewer, few⟩⟩ := ih (segment :: upper) lower
      · refine ⟨top, rest, found, .inl ⟨kept, ?_⟩⟩
        rwa [marksOf_cons, List.append_assoc] at few
      · exact ⟨top, rest, found, .inr ⟨suffix, fewer, few.trans wider⟩⟩

theorem marksOf_foldl (absolute : Bool) (stack names : List Text) :
    (marksOf (names.foldl (walk absolute) stack)).Sublist
      (marksOf stack ++ names.flatMap marks) := by
  obtain ⟨top, rest, found, ⟨rfl, few⟩ | ⟨suffix, other, -⟩⟩ :=
    exists_foldl_walk absolute stack [] names
  · rw [List.append_nil, List.append_nil] at found
    rwa [found]
  · exact absurd (List.suffix_nil.mp suffix) other

/-- A `..` that climbs over a marked segment takes its marks away. -/
theorem length_marksOf_foldl_lt (absolute : Bool) {flats base names : List Text} {marked : Text}
    (proper : ∀ name ∈ flats, IsName name ∧ IsFlat name) (mark : marks marked ≠ [])
    (plain : ∀ segment ∈ names, separator ∉ segment ∧ IsUnguarded segment)
    (climbed : climbs flats.length names = true) :
    (marksOf (names.foldl (walk absolute) (flats ++ marked :: base))).length
      < (marksOf (flats ++ marked :: base)).length + (names.flatMap marks).length := by
  -- The marked segment may change on the way: the induction is over the walk, with the topmost mark on
  -- the stack as a variable.
  induction names generalizing flats marked base with
  | nil => cases climbed
  | cons segment names ih =>
    have rest : ∀ other ∈ names, separator ∉ other ∧ IsUnguarded other := fun other member =>
      plain other (List.mem_cons_of_mem _ member)
    obtain ⟨single, unguarded⟩ := plain segment List.mem_cons_self
    rw [climbs] at climbed
    rw [List.foldl_cons, List.flatMap_cons, List.length_append]
    split at climbed
    · next blank =>
      rw [walk_blank _ _ blank]
      have later := @ih flats base marked proper mark rest climbed
      omega
    · next filled =>
      rw [not_or] at filled
      split at climbed
      · next parent =>
        subst parent
        cases flats with
        -- The `..` meets the mark: its marks go, and the rest of the walk adds no more than it has.
        | nil =>
          have kept : marked ≠ dotDot := by
            rintro rfl
            exact mark (marks_of_isFlat (by decide))
          have popped : walk absolute (marked :: base) dotDot = base := by
            rw [walk.eq_def, if_neg (by decide), if_pos rfl]
            exact if_pos kept
          have few := (marksOf_foldl absolute base names).length_le
          have some := List.length_pos_iff.mpr mark
          rw [List.nil_append, popped, marksOf_cons, List.length_append]
          rw [List.length_append] at few
          omega
        | cons top flats =>
          obtain ⟨name, flat⟩ := proper top List.mem_cons_self
          have later := @ih flats base marked
            (fun other member => proper other (List.mem_cons_of_mem _ member)) mark rest
            (by simpa using climbed)
          rw [List.cons_append, walk_parent _ _ name, marksOf_cons, marks_of_isFlat flat,
            List.append_nil]
          omega
      · next other =>
        have name : IsName segment := ⟨filled.1, filled.2, other, single⟩
        rw [walk_name _ _ name]
        split at climbed
        · next flat =>
          have own : ∀ other ∈ segment :: flats, IsName other ∧ IsFlat other :=
            List.forall_mem_cons.mpr ⟨⟨name, flat⟩, proper⟩
          have later := @ih (segment :: flats) base marked own mark rest climbed
          rw [List.cons_append, marksOf_cons, marks_of_isFlat flat, List.append_nil] at later
          omega
        · next guarded =>
          -- The new segment is marked itself, and hides the old one.
          have some : marks segment ≠ [] := fun none => guarded ((marks_eq_nil_iff unguarded).mp none)
          have later := @ih [] (flats ++ marked :: base) segment (by simp) some rest climbed
          rw [List.nil_append, marksOf_cons, List.length_append] at later
          omega

theorem length_marksOf_lt (absolute : Bool) {front back : List Text} {marked : Text}
    (still : dotDot ∉ front) (name : IsName marked) (mark : ¬ IsFlat marked)
    (plain : ∀ segment ∈ front ++ marked :: back, separator ∉ segment ∧ IsUnguarded segment)
    (climbed : climbs 0 (front ++ marked :: back) = true) :
    (marksOf ((front ++ marked :: back).foldl (walk absolute) [])).length
      < ((front ++ marked :: back).flatMap marks).length := by
  have unguarded := (plain marked (by simp)).2
  have some : marks marked ≠ [] := fun none => mark ((marks_eq_nil_iff unguarded).mp none)
  obtain ⟨count, counted⟩ := exists_climbs_append still 0
  rw [counted, climbs_marked mark] at climbed
  -- In front of the mark nothing climbs, so its marks are lost to what stands behind it.
  have behind := @length_marksOf_foldl_lt absolute [] (front.foldl (walk absolute) []) back marked
    (by simp) some (fun segment member => plain segment (by simp [member])) climbed
  have before := (marksOf_foldl absolute [] front).length_le
  rw [List.nil_append, marksOf_cons, List.length_append] at behind
  rw [List.length_append] at before
  rw [List.foldl_append, List.foldl_cons, walk_name _ _ name, List.flatMap_append, List.flatMap_cons,
    List.length_append, List.length_append]
  have empty : (marksOf []).length = 0 := rfl
  omega

section Normalize

variable {path : Text}

theorem isUnguarded_of_mem_segments (unguarded : IsUnguarded path) {segment : Text}
    (member : segment ∈ segments path) : IsUnguarded segment :=
  ⟨fun inside => unguarded.1 (mem_of_mem_segments member inside),
    fun inside => unguarded.2 (mem_of_mem_segments member inside)⟩

theorem isUnguarded_ofSegments {names : List Text} (unguarded : ∀ name ∈ names, IsUnguarded name) :
    IsUnguarded (ofSegments names) := by
  have pieces (c : Char) (other : c ≠ separator) (member : c ∈ ofSegments names) :
      ∃ name ∈ names, c ∈ name := by
    have behind : c ∈ spelled names := List.mem_cons_of_mem _ member
    exact (mem_spelled behind).resolve_left other
  constructor
  · intro member
    obtain ⟨name, inside, found⟩ := pieces _ (by decide) member
    exact (unguarded name inside).1 found
  · intro member
    obtain ⟨name, inside, found⟩ := pieces _ (by decide) member
    exact (unguarded name inside).2 found

theorem marks_separator {text : Text} (unguarded : IsUnguarded text) :
    marks (separator :: text) = marks text := by
  rw [← List.singleton_append, marks_append (by decide) unguarded,
    marks_of_isFlat isFlat_separator, List.nil_append]

theorem marks_ofSegments {names : List Text} (unguarded : ∀ name ∈ names, IsUnguarded name) :
    marks (ofSegments names) = names.flatMap marks := by
  induction names with
  | nil => exact marks_of_isFlat (by decide)
  | cons name names ih =>
    have rest : ∀ other ∈ names, IsUnguarded other := fun other member =>
      unguarded other (List.mem_cons_of_mem _ member)
    have first := unguarded name List.mem_cons_self
    rw [List.flatMap_cons, ← ih rest]
    cases names with
    | nil =>
      rw [ofSegments, List.intercalate_singleton, ofSegments, List.intercalate_nil,
        marks_of_isFlat (by decide : IsFlat []), List.append_nil]
    | cons next names =>
      have inner := isUnguarded_ofSegments rest
      rw [ofSegments, List.intercalate_cons_cons, ← ofSegments, List.append_assoc,
        marks_append first (isUnguarded_append.mpr ⟨by decide, inner⟩), List.singleton_append,
        marks_separator inner]

theorem marks_segments (unguarded : IsUnguarded path) :
    (segments path).flatMap marks = marks path := by
  rw [← marks_ofSegments fun _ => isUnguarded_of_mem_segments unguarded, ofSegments_segments]

theorem isUnguarded_of_mem_resolve (unguarded : IsUnguarded path) :
    ∀ name ∈ resolve path, IsUnguarded name := by
  intro name member
  rcases mem_of_mem_foldl (List.mem_reverse.mp member) with none | found
  · cases none
  · exact isUnguarded_of_mem_segments unguarded found

/-- Normalization keeps the marks that walking keeps. -/
theorem marks_normalize (unguarded : IsUnguarded path) :
    IsUnguarded (normalize path)
      ∧ marks (normalize path)
        = marksOf ((segments path).foldl (walk (isAbsolute path)) []) := by
  have names := isUnguarded_of_mem_resolve unguarded
  have inner := isUnguarded_ofSegments names
  have body : marks (ofSegments (resolve path))
      = marksOf ((segments path).foldl (walk (isAbsolute path)) []) := marks_ofSegments names
  rw [← body, Path.normalize]
  split
  · next empty =>
    rw [empty]
    exact ⟨by decide, by decide +kernel⟩
  · generalize ofSegments (resolve path) = text at inner
    -- A dot for nothing and the separators around the names are flat.
    have named : IsUnguarded (if text = [] ∧ ¬ isAbsolute path then dot else text)
        ∧ marks (if text = [] ∧ ¬ isAbsolute path then dot else text) = marks text := by
      split
      · next empty =>
        rw [empty.1]
        exact ⟨by decide, by decide +kernel⟩
      · exact ⟨inner, rfl⟩
    dsimp only
    generalize (if text = [] ∧ ¬ isAbsolute path then dot else text) = named' at named ⊢
    have closed : IsUnguarded (if named' ≠ [] ∧ endsWithSeparator path then named' ++ [separator]
          else named')
        ∧ marks (if named' ≠ [] ∧ endsWithSeparator path then named' ++ [separator] else named')
          = marks text := by
      split
      · refine ⟨isUnguarded_append.mpr ⟨named.1, by decide⟩, ?_⟩
        rw [marks_append named.1 (by decide), marks_of_isFlat isFlat_separator, List.append_nil,
          named.2]
      · exact named
    split
    · refine ⟨isUnguarded_cons.mpr ⟨by decide, closed.1⟩, ?_⟩
      rw [marks_separator closed.1]
      exact closed.2
    · exact closed

/-- A mark at the end of a pattern stays at its end. -/
theorem exists_normalize_closing (front : Text) :
    ∃ text, normalize (front ++ ['}']) = text ++ ['}'] := by
  obtain ⟨before, last, one, whole⟩ := exists_segments_concat front (c := '}') (by decide)
  have single : separator ∉ last := not_mem_of_exists_segments one
  have name : IsName (last ++ ['}']) :=
    isName_of_mem (c := '}') (by simp) (by decide) (by simpa using ⟨single, by decide⟩)
  -- The last segment holds a brace, so it is a name, and nothing behind it takes it away.
  have resolved : ∃ names, resolve (front ++ ['}']) = names ++ [last ++ ['}']] := by
    refine ⟨(before.foldl (walk (isAbsolute (front ++ ['}']))) []).reverse, ?_⟩
    rw [resolve, whole, List.foldl_append, List.foldl_cons, List.foldl_nil, walk_name _ _ name,
      List.reverse_cons]
  obtain ⟨names, resolved⟩ := resolved
  have body : ∃ text, ofSegments (resolve (front ++ ['}'])) = text ++ ['}'] := by
    rw [resolved]
    cases names with
    | nil => exact ⟨last, by simp [ofSegments]⟩
    | cons first names =>
      refine ⟨first ++ rooted names ++ separator :: last, ?_⟩
      rw [List.cons_append, ofSegments_cons, rooted_append]
      simp
  obtain ⟨text, body⟩ := body
  -- The path ends in the brace, so it gets no separator at its end.
  have ending : endsWithSeparator (front ++ ['}']) = false := by
    rw [endsWithSeparator, List.getLast?_concat]
    decide
  rw [Path.normalize, if_neg (by simp), body, ending]
  simp only [List.append_eq_nil_iff, List.cons_ne_nil, and_false, false_and, if_false,
    Bool.false_eq_true]
  split
  · exact ⟨separator :: text, rfl⟩
  · exact ⟨text, rfl⟩

end Normalize

end RootedGlob.Anchoring
