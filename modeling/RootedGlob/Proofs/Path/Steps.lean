import RootedGlob.Proofs.Path.Components

/-!
# Steps above a path

Going up one step drops the last component of a path and what stands around it, so some steps above an absolute path
there is the beginning of it that has just as many components behind it. These are the ancestors of the path in
their order (`getElem?_ancestors`): the path itself, spelled as it is, and then beginnings that end with a component,
up to the root.
-/

namespace RootedGlob.Path

/-- The directory some steps above an absolute path. No step leads to the path itself. Further steps lead to the
beginning of it that ends with a component and has as many components behind it, or to the root if all of them are
behind it. -/
inductive IsAbove (path : Text) : Nat → Text → Prop
  | self : IsAbove path 0 path
  | above {front back : List Text} {steps : Nat} (whole : segments path = [] :: (front ++ back))
      (ends : ∀ last ∈ front.getLast?, IsComponent last)
      (left : back.countP (IsComponent ·) = steps + 1) : IsAbove path (steps + 1) (spelled front)

section Trimming

variable {front names : List Text}

theorem trimmed_isPrefix (names : List Text) : trimmed names <+: names := List.rdropWhile_prefix _ _

theorem countP_trimmed (names : List Text) :
    (trimmed names).countP (IsComponent ·) = names.countP (IsComponent ·) := by
  induction names using List.reverseRecOn with
  | nil => rfl
  | append_singleton front last ih =>
    by_cases component : IsComponent last
    · rw [trimmed_concat_of_isComponent _ component]
    · rw [trimmed_concat_of_not _ component, ih, List.countP_append, List.countP_singleton]
      simp [component]

theorem trimmed_eq_self_iff : trimmed names = names ↔ ∀ last ∈ names.getLast?, IsComponent last := by
  rcases List.eq_nil_or_concat names with rfl | ⟨front, last, rfl⟩
  · exact iff_of_true rfl (by simp)
  · rw [List.concat_eq_append, List.getLast?_concat]
    by_cases component : IsComponent last
    · exact iff_of_true (trimmed_concat_of_isComponent _ component) (by simpa using component)
    · refine iff_of_false (fun same => ?_) (by simpa using component)
      have shorter := (trimmed_isPrefix front).length_le
      rw [trimmed_concat_of_not _ component] at same
      rw [same, List.length_append] at shorter
      exact absurd shorter (by simp)

theorem trimmed_trimmed (names : List Text) : trimmed (trimmed names) = trimmed names :=
  List.rdropWhile_idempotent _ _

/-- A beginning that ends with a component is a beginning of what ends with the last one. -/
theorem prefix_trimmed (start : front <+: names) (closed : trimmed front = front) : front <+: trimmed names := by
  induction names using List.reverseRecOn with
  | nil => exact start
  | append_singleton before last ih =>
    by_cases component : IsComponent last
    · rwa [trimmed_concat_of_isComponent _ component]
    · rw [trimmed_concat_of_not _ component]
      rcases List.prefix_concat_iff.mp start with rfl | inner
      · exact (closed.symm.trans (trimmed_concat_of_not _ component)) ▸ List.prefix_rfl
      · exact ih inner

/-- A beginning with all components is everything up to the last one. -/
theorem eq_of_countP (start : front <+: names) (closed : trimmed names = names)
    (all : front.countP (IsComponent ·) = names.countP (IsComponent ·)) : front = names := by
  rcases List.eq_nil_or_concat names with rfl | ⟨before, last, rfl⟩
  · exact List.prefix_nil.mp start
  · rw [List.concat_eq_append] at start closed all ⊢
    have component : IsComponent last := trimmed_eq_self_iff.mp closed last (by simp)
    rcases List.prefix_concat_iff.mp start with same | inner
    · exact same
    · -- Without the last component there are fewer.
      have fewer := inner.sublist.countP_le (p := fun name => decide (IsComponent name))
      rw [all, List.countP_append, List.countP_singleton, if_pos (decide_eq_true component)] at fewer
      exact absurd fewer (Nat.not_succ_le_self _)

end Trimming

section Ancestors

variable {names : List Text} {directory : Text} {steps : Nat}

/-- One step up leads to the parent. -/
theorem getElem?_ancestors_succ (path : Text) (steps : Nat) :
    (ancestors path)[steps + 1]? = (parent? path).bind fun parent => (ancestors parent)[steps]? := by
  rw [ancestors]
  split
  · next none => rw [none]; rfl
  · next parent found => rw [found]; rfl

theorem getElem?_ancestors_zero (path : Text) : (ancestors path)[0]? = some path := by
  rw [ancestors]
  split <;> rfl

/-- The ancestors of a path that ends with a component are its beginnings that do, by the components they leave. -/
theorem getElem?_ancestors_of_trimmed (single : ∀ name ∈ names, separator ∉ name)
    (closed : trimmed names = names) :
    (ancestors (spelled names))[steps]? = some directory ↔ ∃ front, front <+: names ∧ trimmed front = front
      ∧ front.countP (IsComponent ·) + steps = names.countP (IsComponent ·) ∧ directory = spelled front := by
  -- One step drops the last component with whatever stood behind it, so the count goes down by one.
  induction steps generalizing names with
  | zero =>
    rw [getElem?_ancestors_zero, Option.some.injEq]
    constructor
    · rintro rfl
      exact ⟨names, List.prefix_rfl, closed, rfl, rfl⟩
    · rintro ⟨front, start, -, all, rfl⟩
      rw [eq_of_countP start closed all]
  | succ steps ih =>
    rw [getElem?_ancestors_succ]
    rcases List.eq_nil_or_concat names with rfl | ⟨before, last, rfl⟩
    · -- The root has no parent, and no components to be left.
      have root : parent? (spelled []) = none := parent?_root
      rw [root]
      simp
    · rw [List.concat_eq_append] at single closed ⊢
      have component : IsComponent last := trimmed_eq_self_iff.mp closed last (by simp)
      have inner : ∀ name ∈ trimmed before, separator ∉ name := fun name member =>
        single name (List.mem_append_left _ ((trimmed_isPrefix before).subset member))
      have one : (before ++ [last]).countP (IsComponent ·) = before.countP (IsComponent ·) + 1 := by
        rw [List.countP_append, List.countP_singleton, if_pos (decide_eq_true component)]
      rw [parent?_concat_component single component, Option.bind_some, ih inner (trimmed_trimmed before),
        countP_trimmed, one]
      refine exists_congr fun front => ?_
      constructor
      · rintro ⟨start, ends, left, rfl⟩
        exact ⟨start.trans ((trimmed_isPrefix before).trans (List.prefix_append _ _)), ends, by omega, rfl⟩
      · rintro ⟨start, ends, left, rfl⟩
        refine ⟨?_, ends, by omega, rfl⟩
        rcases List.prefix_concat_iff.mp start with rfl | start
        · omega
        · exact prefix_trimmed start ends

/-- The ancestors of an absolute path are what is above it, by the number of steps. -/
theorem getElem?_ancestors {path : Text} (absolute : isAbsolute path) :
    (ancestors path)[steps]? = some directory ↔ IsAbove path steps directory := by
  obtain ⟨rest, rfl⟩ := isAbsolute_iff.mp absolute
  cases steps with
  | zero =>
    rw [getElem?_ancestors_zero, Option.some.injEq]
    constructor
    · rintro rfl
      exact .self
    · rintro ⟨⟩
      rfl
  | succ steps =>
    have single : ∀ name ∈ segments rest, separator ∉ name := fun _ => not_mem_of_mem_segments
    have inner : ∀ name ∈ trimmed (segments rest), separator ∉ name := fun name member =>
      single name ((trimmed_isPrefix _).subset member)
    have whole : separator :: rest = spelled (segments rest) := by rw [spelled, ofSegments_segments]
    -- What follows the last component makes no difference to the parent, so it can be cut first.
    have cut : (ancestors (separator :: rest))[steps + 1]?
        = (ancestors (spelled (trimmed (segments rest))))[steps + 1]? := by
      rw [whole, getElem?_ancestors_succ, getElem?_ancestors_succ, parent?_trimmed single]
    rw [cut, getElem?_ancestors_of_trimmed inner (trimmed_trimmed _), countP_trimmed]
    constructor
    · rintro ⟨front, start, ends, left, rfl⟩
      obtain ⟨back, split⟩ := start.trans (trimmed_isPrefix _)
      refine .above (by rw [segments_separator, split]) (trimmed_eq_self_iff.mp ends) ?_
      rw [← split, List.countP_append] at left
      omega
    · rintro (_ | @⟨front, back, _, split, ends, left⟩)
      rw [segments_separator, List.cons.injEq] at split
      have closed := trimmed_eq_self_iff.mpr ends
      refine ⟨front, prefix_trimmed ⟨back, split.2.symm⟩ closed, closed, ?_, rfl⟩
      rw [split.2, List.countP_append, left]

end Ancestors

end RootedGlob.Path
