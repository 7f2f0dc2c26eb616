import RootedGlob.Proofs.Path.Normalizing

/-!
# Nested joins

Resolving a path goes on behind its front from where the front has led (`resolve_append`), and a relative path
behind the front may be resolved first (`foldl_segments_normalize_of_relative`). So normalizing one part of a path
early does not show in its normal form (`normalize_append_left`, `normalize_append_right`), and a join of which
some parts were joined before is a single join (`join_join_append`, `join_append_join`).
-/

namespace RootedGlob.Path

theorem isAbsolute_append_of_ne_nil {front : Text} (filled : front ≠ []) (back : Text) :
    isAbsolute (front ++ back) = isAbsolute front := by
  rw [isAbsolute, List.head?_append_of_ne_nil _ filled, isAbsolute]

theorem endsWithSeparator_append (front : Text) {back : Text} (filled : back ≠ []) :
    endsWithSeparator (front ++ back) = endsWithSeparator back := by
  rw [endsWithSeparator, List.getLast?_append_of_ne_nil _ filled, endsWithSeparator]

/-- Behind its front, a path is walked from where the front leads. -/
theorem resolve_append {front : Text} (filled : front ≠ []) (back : Text) :
    resolve (front ++ separator :: back)
      = ((segments back).foldl (walk (isAbsolute front)) (resolve front).reverse).reverse := by
  rw [resolve, isAbsolute_append_of_ne_nil filled, segments_append, List.foldl_append, resolve,
    List.reverse_reverse]

/-- A relative path leads from any place to where its normal form leads. -/
theorem foldl_segments_normalize_of_relative (absolute : Bool) (stack : List Text) {path : Text}
    (relative : isAbsolute path = false) :
    (segments (normalize path)).foldl (walk absolute) stack = (segments path).foldl (walk absolute) stack := by
  have walked := @foldl_walk_relative absolute stack [] (segments path) (by simp)
    fun _ => not_mem_of_mem_segments
  rw [foldl_segments_normalize, resolve, relative]
  exact walked

/-- Normalizing the front first does not show. -/
theorem normalize_append_left {front : Text} (filled : front ≠ []) (back : Text) :
    normalize (normalize front ++ separator :: back) = normalize (front ++ separator :: back) := by
  have kept := normalize_ne_nil front
  refine normalize_eq_iff.mpr ⟨?_, ?_, .inl ?_⟩
  · rw [isAbsolute_append_of_ne_nil kept, isAbsolute_normalize, isAbsolute_append_of_ne_nil filled]
  · rw [resolve_append kept, isAbsolute_normalize, resolve_normalize, resolve_append filled]
  · rw [endsWithSeparator_append _ (List.cons_ne_nil _ _), endsWithSeparator_append _ (List.cons_ne_nil _ _)]

/-- Normalizing what stands behind the front does not show, unless it starts at the root. -/
theorem normalize_append_right {front back : Text} (filled : front ≠ []) (filled' : back ≠ [])
    (relative : isAbsolute back = false) :
    normalize (front ++ separator :: normalize back) = normalize (front ++ separator :: back) := by
  refine normalize_eq_iff.mpr ⟨?_, ?_, .inl ?_⟩
  · rw [isAbsolute_append_of_ne_nil filled, isAbsolute_append_of_ne_nil filled]
  · rw [resolve_append filled, foldl_segments_normalize_of_relative _ _ relative, resolve_append filled]
  · have named : shown back ≠ [] := fun empty => by
      have root := (shown_eq_nil_iff.mp empty).1
      rw [relative] at root
      cases root
    rw [List.append_cons front separator back, endsWithSeparator_append _ filled', List.append_cons,
      endsWithSeparator_append _ (normalize_ne_nil back), endsWithSeparator_normalize,
      List.isEmpty_eq_false_iff.mpr named, Bool.false_or]

theorem join_ne_nil (parts : List Text) : join parts ≠ [] := normalize_ne_nil _

theorem join_pair {first second : Text} (filled : first ≠ []) :
    join [first, second]
      = normalize (if second = [] then first else first ++ separator :: second) := by
  rw [join]
  by_cases empty : second = []
  · simp [filled, empty, ofSegments]
  · simp [filled, empty, ofSegments]

theorem ofSegments_filter_eq_nil {parts : List Text} :
    ofSegments (parts.filter (· ≠ [])) = [] ↔ parts.filter (· ≠ []) = [] :=
  ofSegments_eq_nil fun part member => by simpa using List.of_mem_filter member

theorem filter_join (parts : List Text) : [join parts].filter (· ≠ []) = [join parts] :=
  List.filter_cons_of_pos (by simpa using join_ne_nil parts)

theorem ofSegments_join (parts : List Text) : ofSegments [join parts] = join parts := List.intercalate_singleton

/-- Parts in front may be joined first, if there is any text in them. -/
theorem join_join_append {xs : List Text} (filled : ∃ x ∈ xs, x ≠ []) (ys : List Text) :
    join ([join xs] ++ ys) = join (xs ++ ys) := by
  have front : xs.filter (· ≠ []) ≠ [] := by simpa [List.filter_eq_nil_iff] using filled
  by_cases none : ys.filter (· ≠ []) = []
  -- With no text behind them, the inner join is normalized twice.
  · rw [join, List.filter_append, filter_join, none, List.append_nil, ofSegments_join, join,
      normalize_normalize, join, List.filter_append, none, List.append_nil]
  · rw [join, List.filter_append, filter_join, ofSegments_append (List.cons_ne_nil _ _) none,
      ofSegments_join, join, normalize_append_left (mt ofSegments_filter_eq_nil.mp front), join,
      List.filter_append, ofSegments_append front none]

/-- Parts at the end may be joined first, if there is any text in them and they do not start at the root. -/
theorem join_append_join (xs : List Text) {ys : List Text} {first : Text}
    (found : ys.find? (· ≠ []) = some first) (relative : isAbsolute first = false) :
    join (xs ++ [join ys]) = join (xs ++ ys) := by
  have filled : first ≠ [] := by simpa using List.find?_some found
  rw [← List.head?_filter] at found
  obtain ⟨rest, same⟩ := List.head?_eq_some_iff.mp found
  have back : ys.filter (· ≠ []) ≠ [] := same ▸ List.cons_ne_nil _ _
  have start : isAbsolute (ofSegments (ys.filter (· ≠ []))) = false := by
    rw [same, ofSegments_cons, isAbsolute_append_of_ne_nil filled, relative]
  by_cases none : xs.filter (· ≠ []) = []
  · rw [join, List.filter_append, filter_join, none, List.nil_append, ofSegments_join, join,
      normalize_normalize, join, List.filter_append, none, List.nil_append]
  · rw [join, List.filter_append, filter_join, ofSegments_append none (List.cons_ne_nil _ _),
      ofSegments_join, join, normalize_append_right (mt ofSegments_filter_eq_nil.mp none)
        (mt ofSegments_filter_eq_nil.mp back) start, join, List.filter_append, ofSegments_append none back]

end RootedGlob.Path
