import Mathlib.Algebra.GroupWithZero.Nat
import RootedGlob.Proofs.Brace.Closed

/-!
# Texts without escapes and classes

Without backslashes and opening brackets every character is a lexeme by itself, so lexemes of texts
can be put together without regard to what stands next to them. A flat text has no marks either and
stands for itself wherever it is read. A whole pattern is one that also closes its groups and has no
comma outside of them: what it denotes does not depend on its place (`denoted_append`), and a group of
whole patterns denotes what they denote (`denoted_alternation_of_isWhole`).
-/

namespace RootedGlob.Brace

/-- The lexeme of a character that is read by itself. -/
def Lexeme.ofChar (c : Char) : Lexeme :=
  if c = '{' then .opening else if c = ',' then .comma else if c = '}' then .closing
  else .literal [c]

/-- A text without escapes and classes. -/
def IsUnguarded (text : Text) : Prop := '\\' ∉ text ∧ '[' ∉ text

/-- A character that marks nothing and guards nothing. -/
def isFlatChar (c : Char) : Bool := c != '{' && c != ',' && c != '}' && c != '\\' && c != '['

/-- A text that stands for itself wherever it is read. -/
def IsFlat (text : Text) : Prop := ∀ c ∈ text, isFlatChar c

instance (text : Text) : Decidable (IsUnguarded text) :=
  inferInstanceAs (Decidable (_ ∧ _))

instance (text : Text) : Decidable (IsFlat text) :=
  List.decidableBAll _ text

theorem isUnguarded_append {first second : Text} :
    IsUnguarded (first ++ second) ↔ IsUnguarded first ∧ IsUnguarded second := by
  simp only [IsUnguarded, List.mem_append, not_or]
  tauto

theorem isUnguarded_cons {c : Char} {text : Text} :
    IsUnguarded (c :: text) ↔ (c ≠ '\\' ∧ c ≠ '[') ∧ IsUnguarded text := by
  simp only [IsUnguarded, List.mem_cons, not_or, ne_eq, eq_comm (a := c)]
  tauto

theorem isFlat_append {first second : Text} :
    IsFlat (first ++ second) ↔ IsFlat first ∧ IsFlat second := List.forall_mem_append

theorem IsFlat.unguarded {text : Text} (flat : IsFlat text) : IsUnguarded text := by
  constructor
  · intro member
    exact absurd (flat _ member) (by decide)
  · intro member
    exact absurd (flat _ member) (by decide)

theorem lexeme_of_unguarded {c : Char} (rest : Text) (unguarded : c ≠ '\\' ∧ c ≠ '[') :
    lexeme c rest = (.ofChar c, rest) := by
  unfold lexeme Lexeme.ofChar
  split <;> simp_all

/-- Every character of a text without escapes and classes is a lexeme. -/
theorem lex_of_isUnguarded {text : Text} (unguarded : IsUnguarded text) :
    lex text = text.map .ofChar := by
  induction text with
  | nil => rw [lex, List.map_nil]
  | cons c text ih =>
    obtain ⟨char, rest⟩ := isUnguarded_cons.mp unguarded
    rw [lex_cons, lexeme_of_unguarded text char, ih rest, List.map_cons]

theorem lex_append {first second : Text} (one : IsUnguarded first) (two : IsUnguarded second) :
    lex (first ++ second) = lex first ++ lex second := by
  rw [lex_of_isUnguarded (isUnguarded_append.mpr ⟨one, two⟩), lex_of_isUnguarded one,
    lex_of_isUnguarded two, List.map_append]

theorem lex_append_closing {text : Text} (unguarded : IsUnguarded text) :
    lex (text ++ ['}']) = lex text ++ [.closing] := by
  rw [lex_append unguarded (by decide), lex_closing, lex]

theorem ofChar_of_isFlatChar {c : Char} (flat : isFlatChar c) : Lexeme.ofChar c = .literal [c] := by
  simp only [isFlatChar, Bool.and_eq_true, bne_iff_ne] at flat
  simp [Lexeme.ofChar, flat]

theorem read_of_isFlat (reading : Reading) {text : Text} (flat : IsFlat text) :
    read reading (lex text) = reading.write text := by
  rw [lex_of_isUnguarded flat.unguarded]
  induction text generalizing reading with
  | nil => simp [Reading.write]
  | cons c text ih =>
    rw [List.map_cons, ofChar_of_isFlatChar (flat c List.mem_cons_self), read_cons,
      ih _ fun d member => flat d (List.mem_cons_of_mem _ member)]
    simp [Reading.pass, Reading.write, Lexeme.source]

theorem isSealed_of_isFlat (depth : Nat) {text : Text} (flat : IsFlat text) (later : List Lexeme) :
    isSealed depth (lex text ++ later) = isSealed depth later := by
  rw [lex_of_isUnguarded flat.unguarded]
  induction text with
  | nil => rfl
  | cons c text ih =>
    rw [List.map_cons, ofChar_of_isFlatChar (flat c List.mem_cons_self), List.cons_append]
    exact ih fun d member => flat d (List.mem_cons_of_mem _ member)

theorem isSealed_append_isFlat (depth : Nat) (front : List Lexeme) {text : Text} (flat : IsFlat text) :
    isSealed depth (front ++ lex text) = isSealed depth front := by
  induction front generalizing depth with
  | nil => simpa using isSealed_of_isFlat depth flat []
  | cons lexeme front ih => cases lexeme <;> simp [isSealed, ih]

theorem denoted_of_isFlat {text : Text} (flat : IsFlat text) : denoted (lex text) = [text] := by
  rw [denoted, read_of_isFlat _ flat]
  rfl

theorem countGroups_append {first second : Text} (one : IsUnguarded first)
    (two : IsUnguarded second) :
    countGroups (first ++ second) = countGroups first + countGroups second := by
  rw [countGroups, lex_append one two, List.count_append, countGroups, countGroups]

theorem countGroups_of_isFlat {text : Text} (flat : IsFlat text) : countGroups text = 0 := by
  rw [countGroups, lex_of_isUnguarded flat.unguarded, List.count_eq_zero]
  intro member
  obtain ⟨c, inside, same⟩ := List.mem_map.mp member
  rw [ofChar_of_isFlatChar (flat c inside)] at same
  cases same

/-- A pattern without escapes and classes that closes its groups and has no comma outside of them. -/
structure IsWhole (pattern : Text) : Prop where
  unguarded : IsUnguarded pattern
  closed : isSealed 0 (lex pattern)

theorem IsFlat.whole {text : Text} (flat : IsFlat text) : IsWhole text := by
  refine ⟨flat.unguarded, ?_⟩
  have alone := isSealed_append_isFlat 0 [] flat
  rw [List.nil_append] at alone
  rw [alone]
  rfl

theorem IsWhole.append {first second : Text} (one : IsWhole first) (two : IsWhole second) :
    IsWhole (first ++ second) := by
  refine ⟨isUnguarded_append.mpr ⟨one.unguarded, two.unguarded⟩, ?_⟩
  rw [lex_append one.unguarded two.unguarded]
  exact (isSealed_append one.closed 0 (lex second)).trans two.closed

/-- What is left of a whole pattern behind a whole beginning is whole. -/
theorem IsWhole.of_append {first second : Text} (one : IsWhole first)
    (all : IsWhole (first ++ second)) : IsWhole second := by
  have two := (isUnguarded_append.mp all.unguarded).2
  have closed := all.closed
  rw [lex_append one.unguarded two] at closed
  exact ⟨two, (isSealed_append one.closed 0 (lex second)).symm.trans closed⟩

theorem IsWhole.isClosed {pattern : Text} (whole : IsWhole pattern) : IsClosed pattern := by
  have plain {c : Char} (guards : c = '\\' ∨ c = '[') : .literal [c] ∉ lex pattern := by
    rw [lex_of_isUnguarded whole.unguarded]
    intro found
    obtain ⟨d, inside, same⟩ := List.mem_map.mp found
    -- Only a character that is no mark is read as a literal of its own.
    have equal : d = c := by
      simp only [Lexeme.ofChar] at same
      split at same
      · cases same
      · split at same
        · cases same
        · split at same
          · cases same
          · simpa using same
    subst equal
    rcases guards with rfl | rfl
    · exact whole.unguarded.1 inside
    · exact whole.unguarded.2 inside
  exact ⟨whole.closed, plain (.inl rfl), plain (.inr rfl)⟩

theorem denoted_append {first second : Text} (one : IsWhole first) (two : IsWhole second) :
    denoted (lex (first ++ second)) = product (denoted (lex first)) (denoted (lex second)) :=
  one.isClosed.denoted_append two.isClosed

/-- What stands in front of a whole pattern stands in front of every text it denotes. -/
theorem denoted_flat_append {front pattern : Text} (flat : IsFlat front) (whole : IsWhole pattern) :
    denoted (lex (front ++ pattern)) = (denoted (lex pattern)).map (front ++ ·) := by
  rw [denoted_append flat.whole whole, denoted_of_isFlat flat]
  simp [product]

theorem denoted_append_flat {pattern back : Text} (whole : IsWhole pattern) (flat : IsFlat back) :
    denoted (lex (pattern ++ back)) = (denoted (lex pattern)).map (· ++ back) := by
  rw [denoted_append whole flat.whole, denoted_of_isFlat flat, product_singleton]

theorem separable_of_isWhole {patterns : List Text} (wholes : ∀ pattern ∈ patterns, IsWhole pattern) :
    Separable patterns :=
  separable_of_isClosed fun pattern member => (wholes pattern member).isClosed

theorem isUnguarded_joined {patterns : List Text}
    (unguarded : ∀ pattern ∈ patterns, IsUnguarded pattern) : IsUnguarded (joined patterns) := by
  constructor
  · intro member
    obtain ⟨pattern, inside, found⟩ := mem_of_mem_joined (by decide) member
    exact (unguarded pattern inside).1 found
  · intro member
    obtain ⟨pattern, inside, found⟩ := mem_of_mem_joined (by decide) member
    exact (unguarded pattern inside).2 found

/-- A group of whole patterns is whole and denotes what they denote, the one after the other. -/
theorem denoted_alternation_of_isWhole {patterns : List Text} (nonempty : patterns ≠ [])
    (wholes : ∀ pattern ∈ patterns, IsWhole pattern) :
    IsWhole (alternation patterns)
      ∧ denoted (lex (alternation patterns)) = patterns.flatMap (denoted ∘ lex) := by
  by_cases several : 2 ≤ patterns.length
  · obtain ⟨found, closed⟩ := denoted_alternation several (separable_of_isWhole wholes)
    refine ⟨⟨?_, closed⟩, found⟩
    rw [alternation_of_several several]
    have inner := isUnguarded_joined fun pattern member => (wholes pattern member).unguarded
    exact isUnguarded_append.mpr ⟨isUnguarded_cons.mpr ⟨by decide, inner⟩, by decide⟩
  · match patterns, nonempty with
    | [single], _ => exact ⟨wholes single List.mem_cons_self, by simp [alternation]⟩
    | _ :: _ :: _, _ => simp at several

theorem countGroups_alternation {patterns : List Text}
    (wholes : ∀ pattern ∈ patterns, IsWhole pattern) :
    countGroups (alternation patterns)
      = (patterns.map countGroups).sum + if 2 ≤ patterns.length then 1 else 0 := by
  split
  · next several => exact countGroups_of_separable several (separable_of_isWhole wholes)
  · match patterns with
    | [] => rw [alternation, countGroups, lex]; rfl
    | [single] => simp [alternation]
    | _ :: _ :: _ => simp_all

theorem countGroups_le_alternation {patterns : List Text} {pattern : Text}
    (wholes : ∀ pattern ∈ patterns, IsWhole pattern) (member : pattern ∈ patterns) :
    countGroups pattern ≤ countGroups (alternation patterns) := by
  rw [countGroups_alternation wholes]
  exact Nat.le_add_right_of_le (List.le_sum_of_mem (List.mem_map_of_mem member))

end RootedGlob.Brace
