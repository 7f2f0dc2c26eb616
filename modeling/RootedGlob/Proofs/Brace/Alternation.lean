import RootedGlob.Proofs.Brace.Denotation
import RootedGlob.PatternList

/-!
# Alternations of patterns

Putting patterns into one group and expanding the group gives back what the patterns stand for, if
expansion sees the same commas between them. It does so exactly for separable patterns: none of them
has a comma or a closing brace outside its own groups, a backslash that guards nothing, or a bracket
whose class would end in a later pattern (`expand_alternation_iff`). The tokens of a pattern list
need not be separable, because a pattern list also protects a comma by parentheses, which mean
nothing to expansion, and counts closing braces and brackets in another way.
-/

namespace RootedGlob.Brace

/-- Patterns that stay apart in one group. -/
structure Separable (patterns : List Text) : Prop where
  closed : ∀ pattern ∈ patterns, isSealed 0 (lex pattern)
  guarding : ∀ pattern ∈ patterns, .literal ['\\'] ∉ lex pattern
  unended : patterns.Pairwise fun pattern later => .literal ['['] ∈ lex pattern → ']' ∉ later

theorem separable_iff {patterns : List Text} :
    Separable patterns ↔ (∀ pattern ∈ patterns, isSealed 0 (lex pattern))
      ∧ (∀ pattern ∈ patterns, .literal ['\\'] ∉ lex pattern)
      ∧ patterns.Pairwise fun pattern later => .literal ['['] ∈ lex pattern → ']' ∉ later :=
  ⟨fun apart => ⟨apart.closed, apart.guarding, apart.unended⟩,
    fun ⟨closed, guarding, unended⟩ => ⟨closed, guarding, unended⟩⟩

instance (patterns : List Text) : Decidable (Separable patterns) :=
  decidable_of_iff _ separable_iff.symm

/-- The body of the group that patterns are put into. -/
def joined (patterns : List Text) : Text := [','].intercalate patterns

theorem joined_append {first second : List Text} (one : first ≠ []) (two : second ≠ []) :
    joined (first ++ second) = joined first ++ ',' :: joined second := by
  induction first with
  | nil => exact absurd rfl one
  | cons pattern first ih =>
    cases first with
    | nil =>
      obtain ⟨next, others, rfl⟩ := List.exists_cons_of_ne_nil two
      simp [joined]
    | cons next first =>
      have later := ih (List.cons_ne_nil _ _)
      simp only [joined, List.cons_append, List.intercalate_cons_cons, List.append_assoc] at later ⊢
      rw [later]

theorem alternation_of_several {patterns : List Text} (several : 2 ≤ patterns.length) :
    alternation patterns = '{' :: joined patterns ++ ['}'] := by
  match patterns, several with
  | _ :: _ :: _, _ => rfl

theorem alternation_ne_nil {patterns : List Text} (nonempty : patterns ≠ [])
    (filled : ∀ pattern ∈ patterns, pattern ≠ []) : alternation patterns ≠ [] := by
  match patterns, nonempty with
  | [single], _ => exact filled single List.mem_cons_self
  | _ :: _ :: _, _ => exact List.cons_ne_nil _ _

theorem sources_map_lex (patterns : List Text) :
    sources ([Lexeme.comma].intercalate (patterns.map lex)) = joined patterns := by
  rw [sources_intercalate, List.map_map, joined]
  congr 1
  exact (List.map_congr_left fun pattern _ => sources_lex pattern).trans (List.map_id _)

theorem mem_of_mem_joined {patterns : List Text} {c : Char} (other : c ≠ ',')
    (member : c ∈ joined patterns) : ∃ pattern ∈ patterns, c ∈ pattern := by
  induction patterns with
  | nil => simp [joined] at member
  | cons pattern patterns ih =>
    cases patterns with
    | nil => exact ⟨pattern, List.mem_cons_self, by simpa [joined] using member⟩
    | cons next patterns =>
      simp only [joined, List.intercalate_cons_cons, List.mem_append, List.mem_singleton]
        at member ih
      rcases member with (here | comma) | there
      · exact ⟨pattern, List.mem_cons_self, here⟩
      · exact absurd comma other
      · obtain ⟨found, inside, has⟩ := ih there
        exact ⟨found, List.mem_cons_of_mem _ inside, has⟩

theorem genuine_joined {patterns : List Text} (apart : Separable patterns) :
    Genuine ([Lexeme.comma].intercalate (patterns.map lex) ++ [.closing]) := by
  have last : Genuine [.closing] := genuine_cons_iff.mpr ⟨.closing _, genuine_nil⟩
  induction patterns with
  | nil => exact last
  | cons pattern patterns ih =>
    have unended := List.pairwise_cons.mp apart.unended
    have rest : Separable patterns :=
      ⟨fun other member => apart.closed other (List.mem_cons_of_mem _ member),
        fun other member => apart.guarding other (List.mem_cons_of_mem _ member), unended.2⟩
    have guarding := apart.guarding pattern List.mem_cons_self
    cases patterns with
    | nil =>
      rw [List.map_cons, List.map_nil, List.intercalate_singleton]
      exact genuine_append (genuine_lex pattern) last guarding (fun _ => by decide)
    | cons next patterns =>
      rw [List.map_cons, List.map_cons, List.intercalate_cons_cons, List.append_assoc,
        List.append_assoc]
      refine genuine_append (genuine_lex pattern)
        (genuine_cons_iff.mpr ⟨.comma _, ih rest⟩) guarding ?_
      -- A closing bracket behind the comma stands in a later pattern.
      intro bracket member
      have text : sources ([Lexeme.comma] ++ ([Lexeme.comma].intercalate
          (lex next :: patterns.map lex) ++ [.closing])) = ',' :: joined (next :: patterns) ++ ['}'] := by
        rw [sources_append, sources_append, ← List.map_cons, sources_map_lex]
        rfl
      rw [text, List.mem_append, List.mem_cons, List.mem_singleton] at member
      rcases member with (comma | inside) | closing
      · exact absurd comma (by decide)
      · obtain ⟨later, among, has⟩ := mem_of_mem_joined (by decide) inside
        exact unended.1 later among bracket has
      · exact absurd closing (by decide)

/-- The lexemes of an alternation of separable patterns are those of the patterns. -/
theorem lex_alternation {patterns : List Text} (several : 2 ≤ patterns.length)
    (apart : Separable patterns) :
    lex (alternation patterns)
      = .opening :: ([Lexeme.comma].intercalate (patterns.map lex) ++ [.closing]) := by
  have genuine : Genuine (.opening :: ([Lexeme.comma].intercalate (patterns.map lex)
      ++ [.closing])) := genuine_cons_iff.mpr ⟨.opening _, genuine_joined apart⟩
  rw [Genuine, sources_cons, sources_append, sources_map_lex] at genuine
  rw [alternation_of_several several]
  exact genuine

theorem map_lex_ne_nil {patterns : List Text} (several : 2 ≤ patterns.length) :
    patterns.map lex ≠ [] := by
  intro none
  rw [List.map_eq_nil_iff] at none
  simp [none] at several

theorem sealed_map_lex {patterns : List Text} (closed : ∀ pattern ∈ patterns, isSealed 0 (lex pattern)) :
    ∀ part ∈ patterns.map lex, isSealed 0 part := by
  intro part member
  obtain ⟨pattern, inside, rfl⟩ := List.mem_map.mp member
  exact closed pattern inside

/-- A group of sealed patterns denotes their texts, one pattern after the other. -/
theorem denoted_alternation {patterns : List Text} (several : 2 ≤ patterns.length)
    (apart : Separable patterns) :
    denoted (lex (alternation patterns)) = patterns.flatMap (denoted ∘ lex)
      ∧ isSealed 0 (lex (alternation patterns)) := by
  have parts := sealed_map_lex apart.closed
  rw [lex_alternation several apart]
  constructor
  · have group := read_alternatives [[]] [] [] (map_lex_ne_nil several) parts []
    rw [denoted, read_cons]
    simp only [Reading.pass]
    rw [group]
    simp [List.flatMap_map, Function.comp_def]
  · exact isSealed_alternatives parts []

theorem cutAtClosing?_append {depth : Nat} {first : List Lexeme} (closed : isSealed depth first)
    (outer : Nat) (second : List Lexeme) :
    cutAtClosing? (depth + outer) (first ++ second)
      = (cutAtClosing? outer second).map fun (body, later) => (first ++ body, later) := by
  -- Sealed lexemes take the search back to the depth at which it met them.
  induction first generalizing depth with
  | nil =>
    have zero : depth = 0 := by simpa [isSealed] using closed
    simp [zero]
  | cons lexeme first ih =>
    cases lexeme with
    | opening =>
      rw [List.cons_append, cutAtClosing?, Nat.add_right_comm, ih closed]
      simp [Function.comp_def]
    | literal => simp [cutAtClosing?, ih closed, Function.comp_def]
    | comma =>
      simp only [isSealed, Bool.and_eq_true, bne_iff_ne] at closed
      simp [cutAtClosing?, ih closed.2, Function.comp_def]
    | closing =>
      simp only [isSealed, Bool.and_eq_true, bne_iff_ne] at closed
      have same : depth + outer - 1 = depth - 1 + outer := by omega
      rw [List.cons_append, cutAtClosing?, if_neg (by omega), same, ih closed.2]
      simp [Function.comp_def]

theorem separate_append {depth : Nat} {first : List Lexeme} (closed : isSealed depth first)
    (outer : Nat) (second : List Lexeme) :
    separate (depth + outer) (first ++ second) = first.foldr prepend (separate outer second) := by
  induction first generalizing depth with
  | nil =>
    have zero : depth = 0 := by simpa [isSealed] using closed
    simp [zero]
  | cons lexeme first ih =>
    cases lexeme with
    | opening => rw [List.cons_append, separate, Nat.add_right_comm, ih closed, List.foldr_cons]
    | literal => rw [List.cons_append, separate, ih closed, List.foldr_cons]
    | comma =>
      simp only [isSealed, Bool.and_eq_true, bne_iff_ne] at closed
      rw [List.cons_append, separate, if_neg (by omega), ih closed.2, List.foldr_cons]
    | closing =>
      simp only [isSealed, Bool.and_eq_true, bne_iff_ne] at closed
      have same : depth + outer - 1 = depth - 1 + outer := by omega
      rw [List.cons_append, separate, same, ih closed.2, List.foldr_cons]

theorem foldr_prepend (front part : List Lexeme) (parts : List (List Lexeme)) :
    front.foldr prepend (part :: parts) = (front ++ part) :: parts := by
  induction front with
  | nil => rfl
  | cons lexeme front ih => rw [List.foldr_cons, ih, prepend, List.cons_append]

/-- The alternatives of sealed parts with commas between them are these parts. -/
theorem separate_intercalate {parts : List (List Lexeme)} (nonempty : parts ≠ [])
    (closed : ∀ part ∈ parts, isSealed 0 part) :
    separate 0 ([Lexeme.comma].intercalate parts) = parts := by
  induction parts with
  | nil => exact absurd rfl nonempty
  | cons part parts ih =>
    have first := separate_append (closed part List.mem_cons_self) 0
    rw [Nat.add_zero] at first
    cases parts with
    | nil =>
      have alone := first []
      rw [List.append_nil, separate, foldr_prepend, List.append_nil] at alone
      rw [List.intercalate_singleton, alone]
    | cons next parts =>
      have rest := ih (List.cons_ne_nil _ _)
        fun other member => closed other (List.mem_cons_of_mem _ member)
      rw [List.intercalate_cons_cons, List.append_assoc, first, List.singleton_append, separate,
        if_pos rfl, foldr_prepend, rest, List.append_nil]

/-- The body of a group of sealed parts ends where they end. -/
theorem cutAtClosing?_intercalate {parts : List (List Lexeme)}
    (closed : ∀ part ∈ parts, isSealed 0 part) (later : List Lexeme) :
    cutAtClosing? 0 ([Lexeme.comma].intercalate parts ++ .closing :: later)
      = some ([Lexeme.comma].intercalate parts, later) := by
  induction parts with
  | nil => rfl
  | cons part parts ih =>
    have first := cutAtClosing?_append (closed part List.mem_cons_self) 0
    rw [Nat.add_zero] at first
    cases parts with
    | nil =>
      rw [List.intercalate_singleton, first, cutAtClosing?, if_pos rfl]
      simp
    | cons next parts =>
      have rest := ih fun other member => closed other (List.mem_cons_of_mem _ member)
      rw [List.intercalate_cons_cons, List.append_assoc, List.append_assoc, first,
        List.singleton_append]
      simp [cutAtClosing?, rest]

/-- Expansion sees the commas between patterns in one group and no others: the group is the whole
text, and the patterns are its alternatives. -/
def Separates (patterns : List Text) : Prop :=
  findGroup (alternation patterns) = .group ⟨[], joined patterns, []⟩
    ∧ alternatives (joined patterns) = patterns

theorem separates_of_separable {patterns : List Text} (several : 2 ≤ patterns.length)
    (apart : Separable patterns) : Separates patterns := by
  have parts := sealed_map_lex apart.closed
  constructor
  · simp only [findGroup, lex_alternation several apart, findIn, cutAtClosing?_intercalate parts,
      sources_map_lex, sources_nil]
  · have body : Genuine ([Lexeme.comma].intercalate (patterns.map lex)) := by
      have ended : Genuine ([Lexeme.comma].intercalate (patterns.map lex) ++ .closing :: [] ++ []) := by
        simpa using genuine_joined apart
      simpa using genuine_of_cut rfl ended
    rw [Genuine, sources_map_lex] at body
    rw [alternatives, body, separate_intercalate (map_lex_ne_nil several) parts, List.map_map]
    exact (List.map_congr_left fun pattern _ => sources_lex pattern).trans (List.map_id _)

theorem open_of_genuine_intercalate {parts : List (List Lexeme)}
    (genuine : Genuine ([Lexeme.comma].intercalate parts ++ [.closing])) :
    (∀ part ∈ parts, .literal ['\\'] ∉ part)
      ∧ parts.Pairwise fun part later => .literal ['['] ∈ part → ']' ∉ sources later := by
  induction parts with
  | nil => simp
  | cons part parts ih =>
    cases parts with
    | nil =>
      rw [List.intercalate_singleton] at genuine
      simp [(open_of_genuine rfl genuine).1]
    | cons next parts =>
      rw [List.intercalate_cons_cons, List.append_assoc, List.append_assoc,
        List.singleton_append] at genuine
      obtain ⟨guarding, unended⟩ := open_of_genuine rfl genuine
      obtain ⟨guardingRest, unendedRest⟩ := ih (genuine_cons_iff.mp genuine.drop).2
      constructor
      · intro other member
        rcases List.mem_cons.mp member with rfl | member
        · exact guarding
        · exact guardingRest other member
      · -- A class that begins in one part must not end in a later one, which stands behind the comma.
        refine List.pairwise_cons.mpr ⟨fun other member bracket inside => unended bracket ?_,
          unendedRest⟩
        obtain ⟨front, back, whole, -⟩ := exists_of_mem_parts member
        rw [whole, sources_append, sources_append, sources_append]
        simp [inside]

theorem separable_of_separates {patterns : List Text} (apart : Separates patterns) :
    Separable patterns := by
  obtain ⟨found, split⟩ := apart
  obtain ⟨front, body, later, whole, -, cutAt, same⟩ := exists_of_findIn found
  obtain ⟨-, text, ending⟩ := Group.mk.inj same
  have genuine := genuine_lex (alternation patterns)
  rw [whole] at genuine
  -- Nothing is left behind the group that the search finds, so it ends with the last brace.
  have empty : later = [] := by
    have behind : Genuine later :=
      (genuine_cons_iff.mp (genuine_cons_iff.mp genuine.drop).2.drop).2
    rw [Genuine, ← ending, lex] at behind
    exact behind.symm
  subst empty
  -- The body is read on its own as it is read inside the group, and its parts too.
  have body_lexed : lex (joined patterns) = body := by
    rw [text]
    exact genuine_body genuine
  rw [alternatives, body_lexed] at split
  have sealed := isSealed_of_mem_separate cutAt
  have lexed : ∀ part ∈ separate 0 body, lex (sources part) = part := by
    intro part member
    have alone : Genuine part := by simpa using genuine_replacement genuine member
    exact alone
  have inside : Genuine ([Lexeme.comma].intercalate (separate 0 body) ++ [.closing]) := by
    rw [intercalate_separate]
    exact (genuine_cons_iff.mp genuine.drop).2
  obtain ⟨guarding, unended⟩ := open_of_genuine_intercalate inside
  rw [← split]
  constructor
  · intro pattern member
    obtain ⟨part, among, rfl⟩ := List.mem_map.mp member
    rw [lexed part among]
    exact sealed part among
  · intro pattern member
    obtain ⟨part, among, rfl⟩ := List.mem_map.mp member
    rw [lexed part among]
    exact guarding part among
  · rw [List.pairwise_map]
    refine unended.imp_of_mem fun {part other} among _ absent bracket => absent ?_
    rwa [lexed part among] at bracket

/-- The tokens of a pattern list keep their meaning in one group, and the commas between them are
those that separate its alternatives, exactly if they are separable. -/
theorem expand_alternation_iff {list : Text} {texts : List (List Text)}
    (several : 2 ≤ (PatternList.tokens list).length)
    (expanded : List.Forall₂ (fun token found => expand token = .ok found)
      (PatternList.tokens list) texts)
    (groups : countGroups (alternation (PatternList.tokens list)) ≤ maxGroups)
    (room : texts.flatten.length ≤ maxExpansions) :
    expand (alternation (PatternList.tokens list)) = .ok texts.flatten
        ∧ Separates (PatternList.tokens list)
      ↔ Separable (PatternList.tokens list) := by
  generalize PatternList.tokens list = tokens at *
  constructor
  · intro result
    exact separable_of_separates result.2
  · intro apart
    refine ⟨?_, separates_of_separable several apart⟩
    have same : texts.flatten = tokens.flatMap (denoted ∘ lex) := by
      clear several groups room apart
      induction expanded with
      | nil => rfl
      | cons first _ ih =>
        rw [List.flatten_cons, List.flatMap_cons, ih, (expand_eq_ok_iff.mp first).2.2.2]
        rfl
    obtain ⟨found, closed⟩ := denoted_alternation several apart
    refine expand_eq_ok_iff.mpr ⟨groups, depthAfter_of_isSealed closed, ?_, ?_⟩
    · rw [found, ← same]
      exact room
    · rw [found, same]

theorem expand_alternation_braces :
    expand (alternation (PatternList.tokens "a{b,c},d".toList))
        = .ok ["ab".toList, "ac".toList, "d".toList]
      ∧ Separates (PatternList.tokens "a{b,c},d".toList) := by
  have split : PatternList.tokens "a{b,c},d".toList = ["a{b,c}".toList, "d".toList] := by
    decide +kernel
  have first : expand "a{b,c}".toList = .ok ["ab".toList, "ac".toList] := by decide +kernel
  have second : expand "d".toList = .ok ["d".toList] := by decide +kernel
  exact (@expand_alternation_iff "a{b,c},d".toList [["ab".toList, "ac".toList], ["d".toList]]
    (by rw [split]; decide) (by rw [split]; exact .cons first (.cons second .nil))
    (by decide +kernel) (by decide)).mpr (by decide +kernel)

/-- Parentheses protect a comma in a pattern list and not in a group. -/
theorem expand_alternation_parentheses :
    PatternList.tokens "(a,b),c".toList = ["(a,b)".toList, "c".toList]
      ∧ expand "(a,b)".toList = .ok ["(a,b)".toList] ∧ expand "c".toList = .ok ["c".toList]
      ∧ expand (alternation (PatternList.tokens "(a,b),c".toList))
        = .ok ["(a".toList, "b)".toList, "c".toList] := by
  decide +kernel

end RootedGlob.Brace
