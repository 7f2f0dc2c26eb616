import Mathlib.Algebra.Order.BigOperators.Group.List
import Mathlib.Algebra.Order.Group.Nat
import RootedGlob.Proofs.Brace.Alternation
import RootedGlob.Proofs.Lists

/-!
# Closed patterns

A closed pattern leaves nothing to the text behind it: it closes its groups, every backslash guards a character
and every bracket has its end, and it has no comma and no closing brace outside its groups that a group around it
could claim. So its lexemes stay what they are in front of any text (`IsClosed.lex_append`), and its texts do not
depend on where it stands. Expansion turns closed patterns in a row into a product, and closed patterns in a group
into a concatenation (`expand_of_isClosed`).
-/

namespace RootedGlob.Brace

/-- A pattern whose scan closes what it opens: every group, every escape and every class. Outside its groups it
has no comma and no closing brace. -/
structure IsClosed (pattern : Text) : Prop where
  balanced : isSealed 0 (lex pattern)
  guarding : .literal ['\\'] ∉ lex pattern
  ended : .literal ['['] ∉ lex pattern

instance (pattern : Text) : Decidable (IsClosed pattern) :=
  decidable_of_iff (isSealed 0 (lex pattern) ∧ .literal ['\\'] ∉ lex pattern ∧ .literal ['['] ∉ lex pattern)
    ⟨fun ⟨balanced, guarding, ended⟩ => ⟨balanced, guarding, ended⟩,
      fun closed => ⟨closed.balanced, closed.guarding, closed.ended⟩⟩

section Sequence

variable {first second : Text}

/-- What stands behind a closed pattern changes none of its lexemes. -/
theorem IsClosed.lex_append (closed : IsClosed first) (second : Text) :
    lex (first ++ second) = lex first ++ lex second := by
  -- Only a backslash or a bracket that is still open could reach over the seam.
  have genuine : Genuine (lex first ++ lex second) :=
    genuine_append (genuine_lex first) (genuine_lex second) closed.guarding
      fun bracket => absurd bracket closed.ended
  rwa [Genuine, sources_append, sources_lex, sources_lex] at genuine

theorem IsClosed.append (one : IsClosed first) (two : IsClosed second) : IsClosed (first ++ second) := by
  constructor
  · rw [one.lex_append]
    exact (isSealed_append one.balanced 0 (lex second)).trans two.balanced
  · rw [one.lex_append, List.mem_append, not_or]
    exact ⟨one.guarding, two.guarding⟩
  · rw [one.lex_append, List.mem_append, not_or]
    exact ⟨one.ended, two.ended⟩

theorem IsClosed.countGroups_append (closed : IsClosed first) (second : Text) :
    countGroups (first ++ second) = countGroups first + countGroups second := by
  rw [countGroups, closed.lex_append, List.count_append, countGroups, countGroups]

/-- Closed patterns in a row denote every text of the first continued by every text of the second. -/
theorem IsClosed.denoted_append (one : IsClosed first) (two : IsClosed second) :
    denoted (lex (first ++ second)) = product (denoted (lex first)) (denoted (lex second)) := by
  rw [one.lex_append, denoted, read_append, read_sealed {} one.balanced, read_sealed _ two.balanced,
    product_empty_left]

end Sequence

section Choice

variable {patterns : List Text}

theorem separable_of_isClosed (closed : ∀ pattern ∈ patterns, IsClosed pattern) : Separable patterns := by
  constructor
  · exact fun pattern member => (closed pattern member).balanced
  · exact fun pattern member => (closed pattern member).guarding
  · refine List.pairwise_of_forall_mem_list fun pattern member _ _ bracket => ?_
    exact absurd bracket (closed pattern member).ended

theorem count_intercalate_comma (parts : List (List Lexeme)) :
    ([Lexeme.comma].intercalate parts).count .opening = (parts.map (List.count .opening)).sum := by
  induction parts with
  | nil => rfl
  | cons part parts ih =>
    cases parts with
    | nil => simp
    | cons next parts =>
      rw [List.intercalate_cons_cons, List.count_append, List.count_append, ih]
      simp

/-- A group of separable patterns has their groups and is one itself. -/
theorem countGroups_of_separable (several : 2 ≤ patterns.length) (apart : Separable patterns) :
    countGroups (alternation patterns) = (patterns.map countGroups).sum + 1 := by
  rw [countGroups, lex_alternation several apart, List.count_cons_self, List.count_append,
    count_intercalate_comma, List.map_map]
  rfl

end Choice

section Expansion

theorem expand_of_isSealed {pattern : Text} (balanced : isSealed 0 (lex pattern))
    (groups : countGroups pattern ≤ maxGroups) (room : (denoted (lex pattern)).length ≤ maxExpansions) :
    expand pattern = .ok (denoted (lex pattern)) :=
  expand_eq_ok_iff.mpr ⟨groups, depthAfter_of_isSealed balanced, room, rfl⟩

/-- Closed patterns expand, and so do two of them in a row and several of them in a group, if the groups and the
texts of the whole stay within the limits. In a row, every text of the first pattern is continued by every text of
the second one. In a group, the texts of the patterns follow one another. -/
theorem expand_of_isClosed :
    (∀ first second, IsClosed first → IsClosed second →
        countGroups first + countGroups second ≤ maxGroups →
        (denoted (lex first)).length * (denoted (lex second)).length ≤ maxExpansions →
        ∃ starts ends, expand first = .ok starts ∧ expand second = .ok ends
          ∧ expand (first ++ second) = .ok (product starts ends))
      ∧ ∀ patterns, 2 ≤ patterns.length → (∀ pattern ∈ patterns, IsClosed pattern) →
        (patterns.map countGroups).sum + 1 ≤ maxGroups →
        (patterns.map fun pattern => (denoted (lex pattern)).length).sum ≤ maxExpansions →
        ∃ texts, patterns.mapM expand = .ok texts ∧ expand (alternation patterns) = .ok texts.flatten := by
  constructor
  · intro first second one two groups room
    have filled (pattern : Text) : 0 < (denoted (lex pattern)).length :=
      List.length_pos_iff.mpr (denoted_ne_nil _)
    -- Neither pattern denotes more texts than both in a row, because the other one denotes at least one.
    have starts := Nat.le_mul_of_pos_right (denoted (lex first)).length (filled second)
    have ends := Nat.le_mul_of_pos_left (denoted (lex second)).length (filled first)
    refine ⟨_, _, expand_of_isSealed one.balanced (by omega) (by omega),
      expand_of_isSealed two.balanced (by omega) (by omega), ?_⟩
    rw [← one.denoted_append two]
    apply expand_of_isSealed (one.append two).balanced
    · rwa [one.countGroups_append]
    · rwa [one.denoted_append two, length_product]
  · intro patterns several closed groups room
    have apart := separable_of_isClosed closed
    obtain ⟨found, balanced⟩ := denoted_alternation several apart
    -- No pattern has more groups or texts than all of them together.
    have each : ∀ pattern ∈ patterns, expand pattern = .ok (denoted (lex pattern)) := by
      intro pattern member
      have few := List.le_sum_of_mem (List.mem_map_of_mem (f := countGroups) member)
      have short := List.le_sum_of_mem
        (List.mem_map_of_mem (f := fun pattern => (denoted (lex pattern)).length) member)
      exact expand_of_isSealed (closed pattern member).balanced (by omega) (short.trans room)
    refine ⟨patterns.map (denoted ∘ lex), mapM_eq_ok_iff.mpr ?_, ?_⟩
    · rw [List.forall₂_map_right_iff]
      exact List.forall₂_same.mpr each
    · rw [← List.flatMap_def, ← found]
      apply expand_of_isSealed balanced
      · rwa [countGroups_of_separable several apart]
      · rwa [found, List.length_flatMap]

theorem expand_of_isClosed_classes :
    IsClosed "\\,{a,[,]}".toList ∧ IsClosed "x{1,{2,}}".toList
      ∧ expand "\\,{a,[,]}".toList = .ok ["\\,a".toList, "\\,[,]".toList]
      ∧ expand "x{1,{2,}}".toList = .ok ["x1".toList, "x2".toList, "x".toList]
      ∧ expand ("\\,{a,[,]}".toList ++ "x{1,{2,}}".toList)
        = .ok (product ["\\,a".toList, "\\,[,]".toList] ["x1".toList, "x2".toList, "x".toList])
      ∧ expand (alternation ["\\,{a,[,]}".toList, "x{1,{2,}}".toList])
        = .ok ["\\,a".toList, "\\,[,]".toList, "x1".toList, "x2".toList, "x".toList] := by
  have one : IsClosed "\\,{a,[,]}".toList := by decide +kernel
  have two : IsClosed "x{1,{2,}}".toList := by decide +kernel
  have first : expand "\\,{a,[,]}".toList = .ok ["\\,a".toList, "\\,[,]".toList] := by decide +kernel
  have second : expand "x{1,{2,}}".toList = .ok ["x1".toList, "x2".toList, "x".toList] := by decide +kernel
  have both : ["\\,{a,[,]}".toList, "x{1,{2,}}".toList].mapM expand
      = .ok [["\\,a".toList, "\\,[,]".toList], ["x1".toList, "x2".toList, "x".toList]] :=
    mapM_eq_ok_iff.mpr (.cons first (.cons second .nil))
  refine ⟨one, two, first, second, ?_, ?_⟩
  · obtain ⟨starts, ends, start, ending, whole⟩ :=
      expand_of_isClosed.1 _ _ one two (by decide +kernel) (by decide +kernel)
    rw [first, Except.ok.injEq] at start
    rw [second, Except.ok.injEq] at ending
    rw [whole, start, ending]
  · obtain ⟨texts, each, whole⟩ := expand_of_isClosed.2 ["\\,{a,[,]}".toList, "x{1,{2,}}".toList]
      (by decide) (List.forall_mem_cons.mpr ⟨one, List.forall_mem_singleton.mpr two⟩) (by decide +kernel)
      (by decide +kernel)
    rw [both, Except.ok.injEq] at each
    rw [whole, ← each]
    rfl

end Expansion

end RootedGlob.Brace
