import RootedGlob.Proofs.Path.Joining

/-!
# Relative paths lead back

The path from one location to another goes up from the first one to what the two share, and then down to the
second one (`way`). Steps up take back names, but not the steps up with which a relative path may begin. So the
path leads back where the second location begins with no fewer steps up than the first one (`foldl_way_of_le`).
Otherwise it ends too far up (`foldl_way_of_lt`).
-/

namespace RootedGlob.Path

/-- The segments that lead from one location to another. -/
def way (one two : List Text) : List Text :=
  List.replicate (one.length - commonLength one two) dotDot ++ two.drop (commonLength one two)

theorem relative_eq_way (start target : Text) :
    Path.relative start target = ofSegments (way (resolve start) (resolve target)) := rfl

theorem commonLength_append (common one two : List Text) :
    commonLength (common ++ one) (common ++ two) = common.length + commonLength one two := by
  induction common with
  | nil => simp
  | cons name common ih =>
    rw [List.cons_append, List.cons_append, commonLength, if_pos rfl, ih, List.length_cons]
    omega

theorem take_commonLength (one two : List Text) :
    one.take (commonLength one two) = two.take (commonLength one two) := by
  induction one generalizing two with
  | nil => simp [commonLength]
  | cons name one ih =>
    cases two with
    | nil => rfl
    | cons other two =>
      by_cases same : name = other
      · simp [commonLength, same, ih]
      · simp [commonLength, same]

/-- What two locations share in front is not on the way. -/
theorem way_append (common one two : List Text) : way (common ++ one) (common ++ two) = way one two := by
  rw [way, commonLength_append, List.length_append, Nat.add_sub_add_left, List.drop_append]
  simp [way]

/-- Steps up take back names. -/
theorem foldl_walk_parents (absolute : Bool) (below : List Text) {names : List Text}
    (proper : ∀ name ∈ names, IsName name) :
    (List.replicate names.length dotDot).foldl (walk absolute) (names ++ below) = below := by
  induction names with
  | nil => rfl
  | cons name names ih =>
    obtain ⟨first, rest⟩ := List.forall_mem_cons.mp proper
    rw [List.length_cons, List.replicate_succ, List.foldl_cons, List.cons_append, walk_parent _ _ first]
    exact ih rest

section Way

variable {absolute : Bool} {one two : Position}

/-- The way leads to a location that begins with no fewer steps up. -/
theorem foldl_way_of_le (reached : one.IsReached absolute) (reached' : two.IsReached absolute)
    (up : one.parents ≤ two.parents) :
    (way one.steps two.steps).foldl (walk absolute) one.steps.reverse = two.steps.reverse := by
  obtain ⟨count, names⟩ := one
  obtain ⟨count', names'⟩ := two
  obtain ⟨more, rfl⟩ : ∃ more, count' = count + more := Nat.exists_eq_add_of_le up
  have whole : Position.steps ⟨count + more, names'⟩
      = List.replicate count dotDot ++ (List.replicate more dotDot ++ names') := by
    rw [Position.steps, ← List.replicate_append_replicate, List.append_assoc]
  generalize List.replicate more dotDot ++ names' = inner at whole
  -- The way turns where the two locations part.
  let turn : Position := ⟨count, names.take (commonLength names inner)⟩
  have reachedTurn : turn.IsReached absolute :=
    ⟨fun name member => reached.proper name (List.mem_of_mem_take member), reached.atRoot⟩
  have above : Position.steps ⟨count, names⟩ = turn.steps ++ names.drop (commonLength names inner) := by
    rw [Position.steps, Position.steps, List.append_assoc, List.take_append_drop]
  have below : Position.steps ⟨count + more, names'⟩ = turn.steps ++ inner.drop (commonLength names inner) := by
    have parted : turn.names = inner.take (commonLength names inner) := take_commonLength names inner
    rw [whole, Position.steps, List.append_assoc, parted, List.take_append_drop]
  have climbed : ∀ name ∈ (names.drop (commonLength names inner)).reverse, IsName name := fun name member =>
    reached.proper name (List.mem_of_mem_drop (List.mem_reverse.mp member))
  have upward := foldl_walk_parents absolute turn.steps.reverse climbed
  rw [List.length_reverse, List.length_drop, ← List.reverse_append, ← above] at upward
  have downward := reached'.foldl_walk
  rw [below, List.foldl_append, reachedTurn.foldl_walk, ← below] at downward
  have shared : way (Position.steps ⟨count, names⟩) (Position.steps ⟨count + more, names'⟩) = way names inner := by
    rw [whole, Position.steps, way_append]
  rw [shared, way, List.foldl_append, upward, downward]

/-- The way to a location that begins with fewer steps up ends above it. -/
theorem foldl_way_of_lt (reached : one.IsReached false) (reached' : two.IsReached false)
    (up : two.parents < one.parents) :
    (way one.steps two.steps).foldl (walk false) one.steps.reverse
      = (Position.mk (one.parents + (one.parents - two.parents)) two.names).steps.reverse := by
  obtain ⟨count, names⟩ := one
  obtain ⟨count', names'⟩ := two
  obtain ⟨more, rfl⟩ : ∃ more, count = count' + (more + 1) := Nat.exists_eq_add_of_lt up
  have shared : way (Position.steps ⟨count' + (more + 1), names⟩) (Position.steps ⟨count', names'⟩)
      = List.replicate names.length dotDot ++ (List.replicate (more + 1) dotDot ++ names') := by
    -- A step up is not a name, so the two locations share no more than the fewer steps up.
    have apart : commonLength (List.replicate (more + 1) dotDot ++ names) names' = 0 := by
      cases names' with
      | nil => rfl
      | cons name names' =>
        have other := (reached'.proper name List.mem_cons_self).notParent
        rw [List.replicate_succ, List.cons_append, commonLength, if_neg (Ne.symm other)]
    rw [Position.steps, Position.steps, ← List.replicate_append_replicate, List.append_assoc, way_append, way,
      apart, List.drop_zero, List.length_append, List.length_replicate, Nat.sub_zero, Nat.add_comm,
      ← List.replicate_append_replicate, List.append_assoc]
  have climbed : ∀ name ∈ names.reverse, IsName name := fun name member =>
    reached.proper name (List.mem_reverse.mp member)
  -- Once the names are taken back, there is nothing left but steps up, and these pile up.
  have back := foldl_walk_parents false (List.replicate (count' + (more + 1)) dotDot) climbed
  have start : (Position.steps ⟨count' + (more + 1), names⟩).reverse
      = names.reverse ++ List.replicate (count' + (more + 1)) dotDot := by
    rw [Position.steps, List.reverse_append, List.reverse_replicate]
  rw [List.length_reverse] at back
  rw [shared, start, List.foldl_append, List.foldl_append, back, foldl_walk_up,
    foldl_walk_names _ _ reached'.proper, Position.steps, List.reverse_append, List.reverse_replicate]
  simp

end Way

theorem filled_of_mem_way {start target name : Text} (member : name ∈ way (resolve start) (resolve target)) :
    name ≠ [] ∧ separator ∉ name := by
  refine single_of_isName_or_dotDot ?_
  rcases List.mem_append.mp member with parent | member
  · exact .inr (List.eq_of_mem_replicate parent)
  · exact isName_or_dotDot_of_mem_resolve (List.mem_of_mem_drop member)

theorem isAbsolute_relative (start target : Text) : isAbsolute (Path.relative start target) = false := by
  rw [relative_eq_way]
  cases same : way (resolve start) (resolve target) with
  | nil => rfl
  | cons name names =>
    obtain ⟨filled, single⟩ := filled_of_mem_way (same ▸ List.mem_cons_self : name ∈ way _ (resolve target))
    rw [ofSegments_cons]
    exact isAbsolute_append_of_single filled single _

/-- A relative path behind another one is walked from where that one leads. -/
theorem resolve_join_pair (first : Text) {second : Text} (relative : isAbsolute second = false) :
    isAbsolute (join [first, second]) = isAbsolute first
      ∧ resolve (join [first, second])
        = ((segments second).foldl (walk (isAbsolute first)) (resolve first).reverse).reverse := by
  -- An empty part is left out of the join.
  by_cases empty : first = []
  · subst empty
    have alone : join [[], second] = normalize second := by
      by_cases none : second = []
      · rw [none]
        rfl
      · simp [join, none, ofSegments]
    rw [alone, isAbsolute_normalize, resolve_normalize, relative, resolve, relative]
    exact ⟨rfl, rfl⟩
  · rw [join_pair empty, isAbsolute_normalize, resolve_normalize]
    split
    · next none =>
      rw [none, segments_nil, List.foldl_cons, walk_blank _ _ (.inl rfl), List.foldl_nil, List.reverse_reverse]
      exact ⟨rfl, rfl⟩
    · exact ⟨isAbsolute_append_of_ne_nil empty _, resolve_append empty second⟩

/-- The relative path from one path to another of its kind, joined behind the first one, gives a path of the same
kind. It resolves to the same segments as the second path exactly if these begin with at least as many steps up as
the segments of the first path. So it always does for absolute paths, and from a path that does not climb above
its base. -/
theorem resolve_join_relative {start target : Text} (alike : isAbsolute start = isAbsolute target) :
    isAbsolute (join [start, Path.relative start target]) = isAbsolute target
      ∧ (resolve (join [start, Path.relative start target]) = resolve target
        ↔ leadingParents (resolve start) ≤ leadingParents (resolve target))
      ∧ (isAbsolute start ∨ leadingParents (resolve start) = 0 →
        resolve (join [start, Path.relative start target]) = resolve target) := by
  have reached := isReached_position start
  have reached' := alike ▸ isReached_position target
  obtain ⟨kind, joined⟩ := resolve_join_pair start (isAbsolute_relative start target)
  have walked : resolve (join [start, Path.relative start target])
      = ((way (position start).steps (position target).steps).foldl (walk (isAbsolute start))
        (position start).steps.reverse).reverse := by
    rw [joined, relative_eq_way, foldl_ofSegments _ _ fun _ member => (filled_of_mem_way member).2,
      resolve_eq_steps start, resolve_eq_steps target]
  have leads : resolve (join [start, Path.relative start target]) = resolve target
      ↔ leadingParents (resolve start) ≤ leadingParents (resolve target) := by
    rw [walked, resolve_eq_steps start, resolve_eq_steps target, reached.leadingParents_eq,
      reached'.leadingParents_eq]
    constructor
    · intro same
      by_contra above
      rw [Nat.not_le] at above
      have relative : isAbsolute start = false := by
        cases absolute : isAbsolute start with
        | false => rfl
        | true =>
          have root := reached.atRoot absolute
          omega
      rw [relative] at reached reached' same
      rw [foldl_way_of_lt reached reached' above, List.reverse_reverse] at same
      -- The path ends with more steps up than the target begins with.
      have climbed := congrArg leadingParents same
      rw [Position.steps, leadingParents_append _ reached'.proper, reached'.leadingParents_eq] at climbed
      simp only at climbed
      omega
    · intro up
      rw [foldl_way_of_le reached reached' up, List.reverse_reverse]
  refine ⟨kind.trans alike, leads, fun ground => leads.mpr ?_⟩
  rcases ground with absolute | low
  · rw [resolve_eq_steps start, reached.leadingParents_eq, reached.atRoot absolute]
    exact Nat.zero_le _
  · rw [low]
    exact Nat.zero_le _

/-- From a place above the base to one further up, and from there to one that is not. -/
theorem resolve_join_relative_above :
    isAbsolute "../a/b".toList = isAbsolute "x/../../../c/".toList
      ∧ resolve (join ["../a/b".toList, Path.relative "../a/b".toList "x/../../../c/".toList])
        = ["..".toList, "..".toList, "c".toList]
      ∧ resolve (join ["../a".toList, Path.relative "../a".toList "c".toList]) ≠ resolve "c".toList
      ∧ resolve (join ["/a/..//b".toList, Path.relative "/a/..//b".toList "/../c".toList]) = ["c".toList] := by
  have above : resolve "x/../../../c/".toList = ["..".toList, "..".toList, "c".toList] := by decide +kernel
  have root : resolve "/../c".toList = ["c".toList] := by decide +kernel
  have alike : isAbsolute "../a/b".toList = isAbsolute "x/../../../c/".toList := rfl
  have alike' : isAbsolute "../a".toList = isAbsolute "c".toList := rfl
  have alike'' : isAbsolute "/a/..//b".toList = isAbsolute "/../c".toList := rfl
  refine ⟨alike, ?_, ?_, ?_⟩
  · rw [← above]
    exact (resolve_join_relative alike).2.1.mpr (by decide +kernel)
  · exact mt (resolve_join_relative alike').2.1.mp (by decide +kernel)
  · rw [← root]
    exact (resolve_join_relative alike'').2.2 (.inl rfl)

end RootedGlob.Path
