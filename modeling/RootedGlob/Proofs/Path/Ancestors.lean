import RootedGlob.Path.Ancestors
import RootedGlob.Proofs.Path.Location
import Mathlib.Data.List.Induction

/-!
# Parents and relative paths lead where walking leads

An ancestor is a beginning of the path (`prefix_of_mem_ancestors`). The parent of a spelled location is
the location without its last name (`parent?_spelled`), so the ancestors of a spelled location are the
spellings of its beginnings (`mem_ancestors_spelled`). What a relative path resolves to can be walked in
its place from any location (`foldl_walk_relative`), and behind a name the relative path from that name
leads where the path itself leads without the name (`foldl_relative`).
-/

namespace RootedGlob.Path

theorem trimBackwards_suffix (path : Text) : trimBackwards path <:+ path := by
  fun_induction trimBackwards path with
  | case1 rest ih => exact ih.trans (List.suffix_cons _ _)
  | case2 => exact List.nil_suffix
  | case3 rest ih => exact ih.trans ((List.suffix_cons _ _).trans (List.suffix_cons _ _))
  | case4 => exact List.suffix_rfl

/-- A parent is a beginning of the path. -/
theorem prefix_of_parent? {path parent : Text} (found : parent? path = some parent) :
    parent <+: path := by
  rw [← append_splitAnchor path]
  simp only [parent?] at found
  split at found
  · split at found
    · rw [← Option.some.inj found]
      exact List.nil_prefix
    · cases found
  · next last =>
    rw [← Option.some.inj found, List.prefix_append_right_inj, ← List.reverse_suffix,
      List.reverse_reverse]
    exact (trimBackwards_suffix _).trans ((List.drop_suffix _ _).trans
      ((List.dropWhile_suffix _).trans (trimBackwards_suffix _)))

theorem prefix_of_mem_ancestors {path ancestor : Text} (member : ancestor ∈ ancestors path) :
    ancestor <+: path := by
  fun_induction ancestors path with
  | case1 => exact List.mem_singleton.mp member ▸ List.prefix_rfl
  | case2 path parent found ih =>
    rcases List.mem_cons.mp member with rfl | above
    · exact List.prefix_rfl
    · exact (ih above).trans (prefix_of_parent? found)

theorem trimBackwards_single {last : Text} (filled : last ≠ []) (other : last ≠ dot) (single : separator ∉ last)
    (rest : Text) : trimBackwards (last.reverse ++ rest) = last.reverse ++ rest := by
  have single : ∀ c ∈ last.reverse, c ≠ separator := by
    intro c member same
    exact single (same ▸ List.mem_reverse.mp member)
  -- Only the last two characters are looked at, so the text is taken apart by them.
  match ending : last.reverse with
  | [] => exact absurd (List.reverse_eq_nil_iff.mp ending) filled
  | [c] =>
    have only : last = [c] := by simpa using congrArg List.reverse ending
    have notSeparator := single c (by rw [ending]; exact List.mem_cons_self)
    have notDot : c ≠ '.' := by
      rintro rfl
      exact other only
    unfold trimBackwards
    split <;> simp_all [separator]
  | c :: d :: more =>
    have one := single c (by rw [ending]; simp)
    have two := single d (by rw [ending]; simp)
    unfold trimBackwards
    split <;> simp_all [separator]

theorem trimBackwards_name {last : Text} (name : IsName last) (rest : Text) :
    trimBackwards (last.reverse ++ rest) = last.reverse ++ rest :=
  trimBackwards_single name.nonempty name.notDot name.single rest

theorem dropWhile_single {last : Text} (single : separator ∉ last) (rest : Text) :
    (last.reverse ++ rest).dropWhile (· != separator) = rest.dropWhile (· != separator) := by
  refine List.dropWhile_append_of_pos fun c member => ?_
  simpa using fun same : c = separator => single (same ▸ List.mem_reverse.mp member)

theorem reverse_ofSegments (front : List Text) (last : Text) :
    (ofSegments (front ++ [last])).reverse
      = last.reverse ++ if front = [] then [] else separator :: (ofSegments front).reverse := by
  cases front with
  | nil => simp [ofSegments]
  | cons first front =>
    rw [List.cons_append, ofSegments_cons, ofSegments_cons, rooted_append, if_neg (by simp)]
    simp

theorem parent?_separator (body : Text) :
    parent? (separator :: body) = if trimBackwards body.reverse = [] then none
      else some (separator :: (trimBackwards
        (((trimBackwards body.reverse).dropWhile (· != separator)).drop 1)).reverse) := by
  have anchor : splitAnchor (separator :: body) = ([separator], body) := rfl
  simp only [parent?, anchor]
  cases trimBackwards body.reverse with
  | nil => rfl
  | cons c rest => rfl

/-- The parent of a location is the location without its last name. -/
theorem parent?_spelled {front : List Text} {last : Text}
    (proper : ∀ name ∈ front ++ [last], IsName name) :
    parent? (spelled (front ++ [last])) = some (spelled front) := by
  have name := proper last (by simp)
  rw [spelled, parent?_separator, reverse_ofSegments, trimBackwards_name name, if_neg (by
    simp [name.nonempty]), dropWhile_single name.single]
  rcases List.eq_nil_or_concat front with rfl | ⟨before, next, rfl⟩
  · rfl
  · rw [List.concat_eq_append] at proper ⊢
    rw [if_neg (by simp), List.dropWhile_cons_of_neg (by simp), List.drop_succ_cons, List.drop_zero,
      reverse_ofSegments, trimBackwards_name (proper next (by simp)), ← reverse_ofSegments,
      List.reverse_reverse]
    rfl

theorem parent?_root : parent? [separator] = none := by decide

/-- A separator at the end does not count. -/
theorem parent?_append_separator (body : Text) :
    parent? (separator :: body ++ [separator]) = parent? (separator :: body) := by
  rw [List.cons_append, parent?_separator, parent?_separator, List.reverse_append]
  rfl

/-- The ancestors of a location are the spellings of its beginnings. -/
theorem mem_ancestors_spelled {names : List Text} (proper : ∀ name ∈ names, IsName name)
    {path : Text} :
    path ∈ ancestors (spelled names) ↔ ∃ front, front <+: names ∧ path = spelled front := by
  -- The parent of a location drops its last name, so the names are taken off at the end.
  induction names using List.reverseRecOn with
  | nil =>
    rw [ancestors]
    split
    · simp [List.prefix_nil]
    · next parent found =>
      have none := parent?_root
      rw [spelled, ofSegments, List.intercalate_nil, none] at found
      cases found
  | append_singleton names last ih =>
    have before : ∀ name ∈ names, IsName name := fun name member =>
      proper name (List.mem_append_left _ member)
    have parent := parent?_spelled proper
    rw [ancestors]
    split
    · next none =>
      rw [parent] at none
      cases none
    · next found some =>
      rw [parent, Option.some.injEq] at some
      subst some
      rw [List.mem_cons, ih before]
      constructor
      · rintro (rfl | ⟨front, start, rfl⟩)
        · exact ⟨_, List.prefix_rfl, rfl⟩
        · exact ⟨front, start.trans (List.prefix_append _ _), rfl⟩
      · rintro ⟨front, start, rfl⟩
        rcases List.prefix_concat_iff.mp start with same | inner
        · exact .inl (by rw [same])
        · exact .inr ⟨front, inner, rfl⟩

/-- With a separator behind it, a location is an ancestor of itself in no other spelling. -/
theorem mem_ancestors_spelled_separator {front : List Text} {last : Text}
    (proper : ∀ name ∈ front ++ [last], IsName name) {path : Text} :
    path ∈ ancestors (spelled (front ++ [last]) ++ [separator])
      ↔ path = spelled (front ++ [last]) ++ [separator] ∨ ∃ above, above <+: front ∧ path = spelled above := by
  have before : ∀ name ∈ front, IsName name := fun name member =>
    proper name (List.mem_append_left _ member)
  have parent : parent? (spelled (front ++ [last]) ++ [separator]) = some (spelled front) := by
    rw [← parent?_spelled proper]
    exact parent?_append_separator _
  rw [ancestors]
  split
  · next none =>
    rw [parent] at none
    cases none
  · next found some =>
    rw [parent, Option.some.injEq] at some
    rw [← some, List.mem_cons, mem_ancestors_spelled before]

/-- What is put under a spelled location goes on with it. -/
theorem under_spelled {names below : List Text} (proper : ∀ name ∈ names, IsName name)
    (proper' : ∀ name ∈ below, IsName name) (filled : below ≠ []) :
    under (spelled names) (ofSegments below) = spelled (names ++ below) := by
  obtain ⟨name, below, rfl⟩ := List.exists_cons_of_ne_nil filled
  have relative := isAbsolute_append_of_isName (proper' name List.mem_cons_self) (rooted below)
  rw [under, ofSegments_cons, relative, if_neg Bool.false_ne_true]
  by_cases root : names = []
  · subst root
    have whole : spelled (name :: below) = separator :: (name ++ rooted below) :=
      congrArg (separator :: ·) (ofSegments_cons name below)
    rw [List.nil_append, whole]
    rfl
  · have filled : rooted names ≠ [] := by
      obtain ⟨first, names, rfl⟩ := List.exists_cons_of_ne_nil root
      exact List.cons_ne_nil _ _
    rw [spelled_eq, if_neg root, if_neg (by simp [endsWithSeparator_rooted proper, filled]), spelled_eq,
      if_neg (by simp), rooted_append, rooted_cons]

/-- What a relative walk leaves can be walked in its place from any location. -/
theorem foldl_walk_relative (absolute : Bool) (base : List Text) {stack names : List Text}
    (below : ∀ name ∈ stack, IsName name ∨ name = dotDot)
    (single : ∀ segment ∈ names, separator ∉ segment) :
    (names.foldl (walk false) stack).reverse.foldl (walk absolute) base
      = names.foldl (walk absolute) (stack.reverse.foldl (walk absolute) base) := by
  -- What is on the stack so far is walked from the base first; each segment is then either walked in
  -- both or taken back in both.
  induction names generalizing stack with
  | nil => rfl
  | cons segment names ih =>
    have rest : ∀ other ∈ names, separator ∉ other := fun other member =>
      single other (List.mem_cons_of_mem _ member)
    rw [List.foldl_cons, List.foldl_cons]
    rcases segment_cases (single segment List.mem_cons_self) with blank | rfl | name
    · rw [walk_blank _ _ blank, walk_blank _ _ blank]
      exact ih below rest
    · match stack, below with
      | [], _ =>
        have step : walk false [] dotDot = [dotDot] := rfl
        rw [step]
        exact ih (by simp) rest
      | top :: stack, below =>
        rcases below top List.mem_cons_self with name | same
        · -- The name goes in both walks, in the second one after it was put down again.
          rw [walk_parent _ _ name, List.reverse_cons, List.foldl_append, List.foldl_cons,
            List.foldl_nil, walk_name _ _ name, walk_parent _ _ name]
          exact ih (fun other member => below other (List.mem_cons_of_mem _ member)) rest
        · subst same
          have step : walk false (dotDot :: stack) dotDot = dotDot :: dotDot :: stack := rfl
          rw [step, ih (List.forall_mem_cons.mpr ⟨.inr rfl, below⟩) rest]
          simp
    · rw [walk_name _ _ name, ih (List.forall_mem_cons.mpr ⟨.inl name, below⟩) rest]
      simp

theorem isName_or_dotDot_of_mem {stack names : List Text}
    (below : ∀ name ∈ stack, IsName name ∨ name = dotDot)
    (single : ∀ segment ∈ names, separator ∉ segment) :
    ∀ name ∈ names.foldl (walk false) stack, IsName name ∨ name = dotDot := by
  induction names generalizing stack with
  | nil => exact below
  | cons segment names ih =>
    refine ih ?_ fun other member => single other (List.mem_cons_of_mem _ member)
    rcases segment_cases (single segment List.mem_cons_self) with blank | rfl | name
    · rwa [walk_blank _ _ blank]
    · intro name member
      cases stack with
      | nil => exact .inr (List.mem_singleton.mp member)
      | cons top stack =>
        rw [walk.eq_def, if_neg (by decide), if_pos rfl] at member
        simp only at member
        split at member
        · exact below name (List.mem_cons_of_mem _ member)
        · rcases List.mem_cons.mp member with rfl | member
          · exact .inr rfl
          · exact below name member
    · rw [walk_name _ _ name]
      exact List.forall_mem_cons.mpr ⟨.inl name, below⟩

theorem isName_or_dotDot_of_mem_resolve {path name : Text} (member : name ∈ resolve path) :
    IsName name ∨ name = dotDot := by
  have single : ∀ segment ∈ segments path, separator ∉ segment := fun _ => not_mem_of_mem_segments
  rw [resolve, List.mem_reverse] at member
  cases absolute : isAbsolute path with
  | true =>
    rw [absolute] at member
    exact .inl (isName_of_mem_foldl (by simp) single name member)
  | false =>
    rw [absolute] at member
    exact isName_or_dotDot_of_mem (by simp) single name member

theorem single_of_isName_or_dotDot {name : Text} (kind : IsName name ∨ name = dotDot) :
    name ≠ [] ∧ separator ∉ name := by
  rcases kind with proper | rfl
  · exact ⟨proper.nonempty, proper.single⟩
  · decide

/-- A relative path consists of names and of steps to a parent. -/
theorem exists_relative (start target : Text) :
    ∃ names, Path.relative start target = ofSegments names ∧ ∀ name ∈ names, IsName name ∨ name = dotDot := by
  refine ⟨_, rfl, fun name member => ?_⟩
  rcases List.mem_append.mp member with parent | member
  · exact .inr (List.eq_of_mem_replicate parent)
  · exact isName_or_dotDot_of_mem_resolve (List.mem_of_mem_drop member)

theorem foldl_ofSegments (absolute : Bool) (base : List Text) {names : List Text}
    (single : ∀ name ∈ names, separator ∉ name) :
    (segments (ofSegments names)).foldl (walk absolute) base = names.foldl (walk absolute) base := by
  by_cases empty : names = []
  · rw [empty]
    rfl
  · rw [segments_ofSegments empty single]

/-- Behind a name, the relative path from that name leads where the path itself leads without it. -/
theorem foldl_relative (base : List Text) {first target : Text} (proper : IsName first)
    (relative : isAbsolute target = false) :
    (segments (Path.relative first target)).foldl (walk true) (first :: base)
      = (segments target).foldl (walk true) base := by
  have single : ∀ segment ∈ segments target, separator ∉ segment :=
    fun _ => not_mem_of_mem_segments
  have resolved : resolve target = ((segments target).foldl (walk false) []).reverse := by
    rw [resolve, relative]
  have walked := @foldl_walk_relative true base [] (segments target) (by simp) single
  rw [← resolved, List.reverse_nil, List.foldl_nil] at walked
  have plain : ∀ name ∈ resolve target, separator ∉ name := fun name member =>
    (single_of_isName_or_dotDot (isName_or_dotDot_of_mem_resolve member)).2
  rw [← walked, Path.relative, resolve_name proper]
  generalize resolve target = names at plain
  -- Unless both begin with the same name, the relative path climbs over the name first.
  have parents (rest : List Text) (inner : ∀ name ∈ rest, separator ∉ name) :
      (segments (ofSegments (dotDot :: rest))).foldl (walk true) (first :: base)
        = rest.foldl (walk true) base := by
    rw [foldl_ofSegments _ _ (by simpa using ⟨by decide, inner⟩), List.foldl_cons,
      walk_parent _ _ proper]
  cases names with
  | nil => exact parents [] (by simp)
  | cons name names =>
    by_cases same : first = name
    · subst same
      simp only [commonLength, if_pos, List.length_singleton, Nat.zero_add, Nat.sub_self,
        List.replicate_zero, List.nil_append, List.drop_succ_cons, List.drop_zero]
      rw [foldl_ofSegments _ _ fun other member => plain other (List.mem_cons_of_mem _ member),
        List.foldl_cons, walk_name _ _ proper]
    · simpa [commonLength, same] using parents (name :: names) plain

end RootedGlob.Path
