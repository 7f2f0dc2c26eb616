import RootedGlob.Proofs.Anchoring.Rendering

/-!
# How far `..` climbs inside a group

A `..` is harmless in a group as long as it takes away a name of its own pattern. The first and the
last segment of a pattern are glued to the marks around it, so only the segments in between can climb:
a group is walked without harm exactly if none of them climbs over the first one (`climbs_group`).
-/

namespace RootedGlob.Anchoring

open RootedGlob.Path Brace

/-- Whether some `..` finds nothing to take away, where `count` names are there at first. A segment
that holds a mark is never taken away, and hides the names in front of it. -/
def climbs (count : Nat) : List Text → Bool
  | [] => false
  | segment :: rest =>
    if segment = [] ∨ segment = dot then climbs count rest
    else if segment = dotDot then count == 0 || climbs (count - 1) rest
    else if IsFlat segment then climbs (count + 1) rest
    else climbs 0 rest

/-- The segments of a pattern that touch neither of its ends. -/
def interior (pattern : Text) : List Text := (segments pattern).tail.dropLast

theorem climbs_marked {segment : Text} (marked : ¬ IsFlat segment) (count : Nat) (rest : List Text) :
    climbs count (segment :: rest) = climbs 0 rest := by
  have blank : ¬ (segment = [] ∨ segment = dot) := by
    rintro (rfl | rfl) <;> exact marked (by decide)
  have parent : segment ≠ dotDot := by
    rintro rfl
    exact marked (by decide)
  rw [climbs, if_neg blank, if_neg parent, if_neg marked]

/-- A segment with a mark cuts a walk into two parts that climb independently. -/
theorem climbs_append_marked {segment : Text} (marked : ¬ IsFlat segment) (count : Nat)
    (front back : List Text) :
    climbs count (front ++ segment :: back) = (climbs count front || climbs 0 back) := by
  induction front generalizing count with
  | nil => exact climbs_marked marked count back
  | cons first front ih =>
    rw [List.cons_append, climbs, climbs]
    split
    · exact ih count
    · split
      · rw [ih, Bool.or_assoc]
      · split
        · exact ih (count + 1)
        · exact ih 0

/-- Without `..`, segments only change the number of names that may be taken away. -/
theorem exists_climbs_append {front : List Text} (absent : dotDot ∉ front) (count : Nat) :
    ∃ other, ∀ back, climbs count (front ++ back) = climbs other back := by
  induction front generalizing count with
  | nil => exact ⟨count, fun back => rfl⟩
  | cons first front ih =>
    rw [List.mem_cons, not_or] at absent
    have step (back : List Text) : climbs count (first :: front ++ back)
        = if first = [] ∨ first = dot then climbs count (front ++ back)
          else if IsFlat first then climbs (count + 1) (front ++ back)
          else climbs 0 (front ++ back) := by
      rw [List.cons_append, climbs, if_neg (Ne.symm absent.1)]
    simp only [step]
    split
    · exact ih absent.2 count
    · split
      · exact ih absent.2 (count + 1)
      · exact ih absent.2 0

theorem not_isFlat_of_mem {text : Text} {c : Char} (member : c ∈ text) (mark : ¬ isFlatChar c) :
    ¬ IsFlat text := fun flat => mark (flat c member)

/-- In front of a mark, only the segments behind the first one can climb. -/
theorem climbs_tail_append (front back : Text) {c : Char} (mark : ¬ isFlatChar c)
    (other : c ≠ separator) :
    climbs 0 (segments (front ++ c :: back)).tail
      = (climbs 0 (interior front) || climbs 0 (segments back).tail) := by
  obtain ⟨before, last, next, behind, one, two, whole⟩ := exists_segments_append front back other
  have marked : ¬ IsFlat (last ++ c :: next) := not_isFlat_of_mem (c := c) (by simp) mark
  rw [interior, one, two, whole]
  cases before with
  | nil => rfl
  | cons first before =>
    rw [List.cons_append, List.tail_cons, List.cons_append, List.tail_cons, List.dropLast_concat,
      climbs_append_marked marked, List.tail_cons]

/-- Behind a mark, only the segments behind the first one can climb. -/
theorem climbs_mark (count : Nat) (back : Text) {c : Char} (mark : ¬ isFlatChar c)
    (other : c ≠ separator) :
    climbs count (segments (c :: back)) = climbs 0 (segments back).tail := by
  obtain ⟨next, behind, same, whole⟩ := exists_segments_cons back other
  have marked : ¬ IsFlat (c :: next) := not_isFlat_of_mem (c := c) List.mem_cons_self mark
  rw [same, whole, climbs_marked marked, List.tail_cons]

theorem climbs_joined {patterns : List Text} (nonempty : patterns ≠ []) :
    climbs 0 (segments (joined patterns ++ ['}'])).tail
      = patterns.any fun pattern => climbs 0 (interior pattern) := by
  induction patterns with
  | nil => exact absurd rfl nonempty
  | cons pattern patterns ih =>
    cases patterns with
    | nil =>
      rw [joined, List.intercalate_singleton, climbs_tail_append _ _ (by decide) (by decide),
        segments_nil]
      rfl
    | cons next patterns =>
      have rest := ih (List.cons_ne_nil _ _)
      rw [joined, List.intercalate_cons_cons, ← joined, List.append_assoc, List.append_assoc,
        List.singleton_append, climbs_tail_append _ _ (by decide) (by decide), rest]
      rfl

/-- A group climbs exactly if the inner segments of one of its patterns do. -/
theorem climbs_group {patterns : List Text} (nonempty : patterns ≠ []) (count : Nat) :
    climbs count (segments ('{' :: joined patterns ++ ['}']))
      = patterns.any fun pattern => climbs 0 (interior pattern) := by
  rw [List.cons_append, climbs_mark _ _ (by decide) (by decide), climbs_joined nonempty]

/-- A walk that climbs over nothing takes away flat names only. -/
theorem takesFlat_of_climbs {flats base names : List Text}
    (proper : ∀ name ∈ flats, IsName name ∧ IsFlat name)
    (single : ∀ segment ∈ names, separator ∉ segment)
    (stays : climbs flats.length names = false) : TakesFlat (flats ++ base) names := by
  induction names generalizing flats base with
  | nil => exact trivial
  | cons segment names ih =>
    have rest : ∀ other ∈ names, separator ∉ other := fun other member =>
      single other (List.mem_cons_of_mem _ member)
    rw [TakesFlat]
    rw [climbs] at stays
    split
    · next parent =>
      subst parent
      rw [if_neg (by decide), if_pos rfl] at stays
      -- With no name of its own in front of it the `..` would climb, so there is one, and it goes.
      cases flats with
      | nil => cases stays
      | cons top flats =>
        rw [Bool.or_eq_false_iff] at stays
        obtain ⟨name, flat⟩ := proper top List.mem_cons_self
        exact ⟨top, flats ++ base, rfl, name, flat,
          ih (fun other member => proper other (List.mem_cons_of_mem _ member)) rest stays.2⟩
    · next other =>
      by_cases blank : segment = [] ∨ segment = dot
      · rw [if_pos blank] at stays
        rw [walk_blank _ _ blank]
        exact ih proper rest stays
      · rw [if_neg blank, if_neg other] at stays
        rw [not_or] at blank
        have name : IsName segment := ⟨blank.1, blank.2, other, single segment List.mem_cons_self⟩
        rw [walk_name _ _ name]
        split at stays
        · next flat =>
          refine @ih (segment :: flats) base ?_ rest stays
          intro own member
          rcases List.mem_cons.mp member with rfl | member
          · exact ⟨name, flat⟩
          · exact proper own member
        · -- Nothing below a marked segment is taken away any more, so the count starts anew.
          exact @ih [] (segment :: (flats ++ base)) (by simp) rest stays

theorem takesFlat_segments {path : Text} (stays : climbs 0 (segments path) = false) :
    TakesFlat [] (segments path) :=
  @takesFlat_of_climbs [] [] _ (by simp) (fun _ => not_mem_of_mem_segments) stays

end RootedGlob.Anchoring
