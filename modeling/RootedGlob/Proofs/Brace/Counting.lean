import RootedGlob.Proofs.Brace.Plain

/-!
# What a pattern owes to its marks

Whether a pattern closes its groups, and how many texts it denotes, depends on its marks alone
(`isSealed_marks`, `length_denoted`). A closing brace outside every group is text, so it ends every
text of a pattern that it ends (`exists_of_mem_denoted_closing`).
-/

namespace RootedGlob.Brace

/-- The marks of a text, in order. -/
def marks (text : Text) : List Lexeme := (lex text).filter Lexeme.isMark

theorem marks_append {first second : Text} (one : IsUnguarded first) (two : IsUnguarded second) :
    marks (first ++ second) = marks first ++ marks second := by
  rw [marks, lex_append one two, List.filter_append, marks, marks]

theorem marks_opening (text : Text) : marks ('{' :: text) = .opening :: marks text := by
  rw [marks, lex_opening, List.filter_cons_of_pos rfl, marks]

theorem marks_comma (text : Text) : marks (',' :: text) = .comma :: marks text := by
  rw [marks, lex_comma, List.filter_cons_of_pos rfl, marks]

theorem marks_of_isFlat {text : Text} (flat : IsFlat text) : marks text = [] := by
  rw [marks, lex_of_isUnguarded flat.unguarded, List.filter_eq_nil_iff]
  intro lexeme member
  obtain ⟨c, inside, rfl⟩ := List.mem_map.mp member
  rw [ofChar_of_isFlatChar (flat c inside)]
  exact Bool.false_ne_true

theorem marks_eq_nil_iff {text : Text} (unguarded : IsUnguarded text) :
    marks text = [] ↔ IsFlat text := by
  constructor
  · intro none c member
    rw [marks, lex_of_isUnguarded unguarded, List.filter_eq_nil_iff] at none
    have literal := none _ (List.mem_map_of_mem member)
    have guards : c ≠ '\\' ∧ c ≠ '[' :=
      ⟨fun same => unguarded.1 (same ▸ member), fun same => unguarded.2 (same ▸ member)⟩
    -- A character that is neither flat nor a guard is one of the three marks.
    by_contra mark
    apply literal
    simp only [isFlatChar, Bool.and_eq_true, bne_iff_ne, guards, ne_eq, not_false_eq_true,
      and_true] at mark
    unfold Lexeme.ofChar
    split
    · rfl
    · split
      · rfl
      · split
        · rfl
        · simp_all
  · exact marks_of_isFlat

theorem isSealed_marks (depth : Nat) (lexemes : List Lexeme) :
    isSealed depth (lexemes.filter Lexeme.isMark) = isSealed depth lexemes := by
  induction lexemes generalizing depth with
  | nil => rfl
  | cons lexeme lexemes ih => cases lexeme <;> simp [List.filter_cons, Lexeme.isMark, isSealed, ih]

theorem depthAfter_marks (depth : Nat) (lexemes : List Lexeme) :
    depthAfter depth (lexemes.filter Lexeme.isMark) = depthAfter depth lexemes := by
  induction lexemes generalizing depth with
  | nil => rfl
  | cons lexeme lexemes ih =>
    cases lexeme <;> simp [List.filter_cons, Lexeme.isMark, depthAfter_cons, Lexeme.depthAfter, ih]

/-- The sizes of a reading: how many texts it has found, and for each open group how many texts stand
in front of it and in its finished alternatives. -/
def Reading.size (reading : Reading) : Nat × List (Nat × Nat) :=
  (reading.current.length,
    reading.opened.map fun frame => (frame.before.length, frame.finished.length))

/-- Reads one lexeme and keeps the sizes only. -/
def tally : Nat × List (Nat × Nat) → Lexeme → Nat × List (Nat × Nat)
  | (current, opened), .opening => (1, (current, 0) :: opened)
  | (current, (before, finished) :: outer), .comma => (1, (before, finished + current) :: outer)
  | (current, (before, finished) :: outer), .closing => (before * (finished + current), outer)
  | size, _ => size

theorem size_pass (reading : Reading) (lexeme : Lexeme) :
    (reading.pass lexeme).size = tally reading.size lexeme := by
  obtain ⟨current, opened⟩ := reading
  cases lexeme <;> cases opened
    <;> simp [Reading.pass, Reading.size, Reading.write, tally, length_product]

theorem size_read (reading : Reading) (lexemes : List Lexeme) :
    (read reading lexemes).size = lexemes.foldl tally reading.size := by
  induction lexemes generalizing reading with
  | nil => rfl
  | cons lexeme lexemes ih => rw [read_cons, ih, size_pass, List.foldl_cons]

theorem foldl_tally_marks (size : Nat × List (Nat × Nat)) (lexemes : List Lexeme) :
    (lexemes.filter Lexeme.isMark).foldl tally size = lexemes.foldl tally size := by
  induction lexemes generalizing size with
  | nil => rfl
  | cons lexeme lexemes ih =>
    obtain ⟨current, opened⟩ := size
    cases lexeme <;> cases opened <;> simp [List.filter_cons, Lexeme.isMark, tally, ih]

/-- The number of texts that a pattern denotes can be counted along its marks. -/
theorem length_denoted (pattern : Text) :
    (denoted (lex pattern)).length = ((marks pattern).foldl tally (1, [])).1 := by
  have sizes := size_read {} (lex pattern)
  have start : Reading.size {} = (1, []) := rfl
  rw [start, ← foldl_tally_marks] at sizes
  exact congrArg Prod.fst sizes

section Commas

variable (count : Nat) (rest : List Lexeme)

theorem isSealed_commas (depth : Nat) :
    isSealed (depth + 1) (List.replicate count Lexeme.comma ++ rest) = isSealed (depth + 1) rest := by
  induction count with
  | zero => rfl
  | succ count ih =>
    rw [List.replicate_succ, List.cons_append, isSealed, ih]
    simp

theorem depthAfter_commas (depth : Nat) :
    depthAfter depth (List.replicate count Lexeme.comma ++ rest) = depthAfter depth rest := by
  induction count with
  | zero => rfl
  | succ count ih => rwa [List.replicate_succ, List.cons_append, depthAfter_cons]

theorem tally_commas (before finished : Nat) (outer : List (Nat × Nat)) :
    (List.replicate count Lexeme.comma ++ rest).foldl tally (1, (before, finished) :: outer)
      = rest.foldl tally (1, (before, finished + count) :: outer) := by
  induction count generalizing finished with
  | zero => rfl
  | succ count ih =>
    rw [List.replicate_succ, List.cons_append, List.foldl_cons, tally, ih, Nat.add_assoc,
      Nat.add_comm 1]

end Commas

theorem depthAfter_le_succ (depth : Nat) (lexemes : List Lexeme) :
    depthAfter depth lexemes ≤ depthAfter (depth + 1) lexemes := by
  induction lexemes generalizing depth with
  | nil => exact Nat.le_succ depth
  | cons lexeme lexemes ih =>
    rw [depthAfter_cons, depthAfter_cons]
    cases lexeme with
    | opening => exact ih (depth + 1)
    | closing =>
      cases depth with
      | zero => exact Nat.le_refl _
      | succ depth => exact ih depth
    | comma => exact ih depth
    | literal => exact ih depth

theorem depthAfter_add_of_isSealed {depth : Nat} {lexemes : List Lexeme}
    (closed : isSealed depth lexemes) (outer : Nat) : depthAfter (depth + outer) lexemes = outer := by
  -- The lexemes close what they open and the depth they start with, and nothing of what is outside.
  induction lexemes generalizing depth with
  | nil => simp_all [isSealed, depthAfter]
  | cons lexeme lexemes ih =>
    rw [depthAfter_cons]
    cases lexeme with
    | opening =>
      rw [Lexeme.depthAfter, Nat.add_right_comm]
      exact ih closed
    | literal => exact ih closed
    | comma =>
      simp only [isSealed, Bool.and_eq_true] at closed
      exact ih closed.2
    | closing =>
      simp only [isSealed, Bool.and_eq_true, bne_iff_ne] at closed
      have same : depth + outer - 1 = depth - 1 + outer := by omega
      rw [Lexeme.depthAfter, same]
      exact ih closed.2

theorem lex_joined_cons {pattern next : Text} {patterns : List Text} (unguarded : IsUnguarded pattern)
    (behind : ∀ other ∈ next :: patterns, IsUnguarded other) :
    lex (joined (pattern :: next :: patterns))
      = lex pattern ++ .comma :: lex (joined (next :: patterns)) := by
  have inner := isUnguarded_joined behind
  rw [joined, List.intercalate_cons_cons, ← joined, List.append_assoc, List.singleton_append,
    lex_append unguarded (isUnguarded_cons.mpr ⟨by decide, inner⟩), lex_comma]

theorem lex_joined {patterns : List Text} (unguarded : ∀ pattern ∈ patterns, IsUnguarded pattern) :
    lex (joined patterns) = [Lexeme.comma].intercalate (patterns.map lex) := by
  induction patterns with
  | nil =>
    rw [joined, List.intercalate_nil, lex]
    rfl
  | cons pattern patterns ih =>
    have rest : ∀ other ∈ patterns, IsUnguarded other := fun other member =>
      unguarded other (List.mem_cons_of_mem _ member)
    cases patterns with
    | nil => rw [joined, List.intercalate_singleton, List.map_singleton, List.intercalate_singleton]
    | cons next patterns =>
      rw [lex_joined_cons (unguarded pattern List.mem_cons_self) rest, ih rest]
      simp only [List.map_cons, List.intercalate_cons_cons, List.append_assoc, List.singleton_append]

/-- Braces around patterns, be it a single one, denote what the patterns denote. -/
theorem denoted_braced {patterns : List Text} (nonempty : patterns ≠ [])
    (wholes : ∀ pattern ∈ patterns, IsWhole pattern) :
    denoted (lex ('{' :: (joined patterns ++ ['}']))) = patterns.flatMap (denoted ∘ lex) := by
  have unguarded : ∀ pattern ∈ patterns, IsUnguarded pattern := fun pattern member =>
    (wholes pattern member).unguarded
  have inner := isUnguarded_joined unguarded
  have parts : ∀ part ∈ patterns.map lex, isSealed 0 part := by
    intro part member
    obtain ⟨pattern, among, rfl⟩ := List.mem_map.mp member
    exact (wholes pattern among).closed
  -- The patterns are the alternatives of one group, which nothing precedes and nothing follows.
  have group := read_alternatives [[]] [] [] (by simpa using nonempty) parts []
  rw [lex_opening, lex_append_closing inner, lex_joined unguarded, denoted, read_cons]
  simp only [Reading.pass]
  rw [group]
  simp [List.flatMap_map, Function.comp_def]

theorem isFlat_of_commas {text : Text} (unguarded : IsUnguarded text)
    (only : ∀ lexeme ∈ marks text, lexeme = .comma) (absent : ',' ∉ text) : IsFlat text := by
  rw [← marks_eq_nil_iff unguarded, List.eq_nil_iff_forall_not_mem]
  intro lexeme member
  have comma := only lexeme member
  subst comma
  rw [marks, lex_of_isUnguarded unguarded] at member
  obtain ⟨c, inside, same⟩ := List.mem_map.mp (List.mem_filter.mp member).1
  have mark : c = ',' := by
    simp only [Lexeme.ofChar] at same
    split at same
    · cases same
    · split at same
      · assumption
      · split at same <;> cases same
  exact absent (mark ▸ inside)

/-- Commas inside a group finish alternatives and lose none. -/
theorem exists_read_commas {lexemes : List Lexeme} (plain : .opening ∉ lexemes ∧ .closing ∉ lexemes)
    (current before finished : List Text) (outer : List Frame) :
    ∃ other more, read ⟨current, ⟨before, finished⟩ :: outer⟩ lexemes
      = ⟨other, ⟨before, finished ++ more⟩ :: outer⟩ := by
  induction lexemes generalizing current finished with
  | nil => exact ⟨current, [], by simp⟩
  | cons lexeme lexemes ih =>
    simp only [List.mem_cons, not_or] at plain
    have rest : .opening ∉ lexemes ∧ .closing ∉ lexemes := ⟨plain.1.2, plain.2.2⟩
    cases lexeme with
    | opening => exact absurd rfl plain.1.1
    | closing => exact absurd rfl plain.2.1
    | comma =>
      obtain ⟨other, more, found⟩ := ih rest [[]] (finished ++ current)
      exact ⟨other, current ++ more, by rw [← List.append_assoc]; exact found⟩
    | literal chunk => exact ih rest (current.map (· ++ chunk)) finished

theorem mem_denoted_braced {front back : Text} (flat : IsFlat front) (unguarded : IsUnguarded back)
    (only : ∀ lexeme ∈ marks back, lexeme = .comma) :
    front ∈ denoted (lex ('{' :: (front ++ ',' :: back ++ ['}']))) := by
  have behind : IsUnguarded (',' :: back) := isUnguarded_cons.mpr ⟨by decide, unguarded⟩
  have inner : IsUnguarded (front ++ ',' :: back) := isUnguarded_append.mpr ⟨flat.unguarded, behind⟩
  -- Behind the comma there are no braces, so the group goes on to its end.
  have plain : .opening ∉ lex back ∧ .closing ∉ lex back := by
    constructor
    · intro member
      cases only _ (List.mem_filter.mpr ⟨member, rfl⟩)
    · intro member
      cases only _ (List.mem_filter.mpr ⟨member, rfl⟩)
  have lexed : lex ('{' :: (front ++ ',' :: back ++ ['}']))
      = .opening :: (lex front ++ .comma :: (lex back ++ [.closing])) := by
    rw [lex_opening, lex_append_closing inner, lex_append flat.unguarded behind, lex_comma]
    simp
  rw [lexed, denoted, read_cons, read_append, read_of_isFlat _ flat, read_cons, read_append]
  simp only [Reading.pass, Reading.write, List.map_singleton, List.nil_append]
  obtain ⟨other, more, found⟩ := exists_read_commas plain [[]] [[]] [front] []
  rw [found, read_cons, read_nil]
  simp [Reading.pass]

/-- What stands in front of the first comma of a group is one of its texts. -/
theorem mem_denoted_of_cut {text piece : Text} (unguarded : IsUnguarded text)
    (only : ∀ lexeme ∈ marks text, lexeme = .comma) (absent : ',' ∉ piece)
    (cut : text = piece ∨ ∃ back, text = piece ++ ',' :: back) :
    piece ∈ denoted (lex ('{' :: (text ++ ['}']))) := by
  rcases cut with rfl | ⟨back, rfl⟩
  · have flat := isFlat_of_commas unguarded only absent
    have single := @denoted_braced [text] (by simp) (by simpa using flat.whole)
    rw [joined, List.intercalate_singleton] at single
    rw [single]
    simp [denoted_of_isFlat flat]
  · obtain ⟨first, rest⟩ := isUnguarded_append.mp unguarded
    have behind := (isUnguarded_cons.mp rest).2
    rw [marks_append first rest, marks_comma] at only
    refine mem_denoted_braced (isFlat_of_commas first (fun lexeme member => ?_) absent) behind
      fun lexeme member => ?_
    · exact only lexeme (List.mem_append_left _ member)
    · exact only lexeme (List.mem_append_right _ (List.mem_cons_of_mem _ member))

section Shapes

variable {pattern : Text} {first second : Nat}

/-- A single group. -/
theorem isWhole_of_group (unguarded : IsUnguarded pattern)
    (shape : marks pattern = .opening :: (List.replicate first Lexeme.comma ++ [.closing])) :
    IsWhole pattern ∧ (denoted (lex pattern)).length = first + 1 := by
  refine ⟨⟨unguarded, ?_⟩, ?_⟩
  · rw [← isSealed_marks, ← marks, shape, isSealed, isSealed_commas]
    rfl
  · rw [length_denoted, shape, List.foldl_cons, tally, tally_commas]
    simp [tally]

/-- Two groups in a row. -/
theorem isWhole_of_groups (unguarded : IsUnguarded pattern)
    (shape : marks pattern = .opening :: (List.replicate first Lexeme.comma
      ++ .closing :: .opening :: (List.replicate second Lexeme.comma ++ [.closing]))) :
    IsWhole pattern ∧ (denoted (lex pattern)).length = (first + 1) * (second + 1) := by
  refine ⟨⟨unguarded, ?_⟩, ?_⟩
  · rw [← isSealed_marks, ← marks, shape, isSealed, isSealed_commas, isSealed]
    simp [isSealed, isSealed_commas]
  · rw [length_denoted, shape, List.foldl_cons, tally, tally_commas, List.foldl_cons, tally,
      List.foldl_cons, tally, tally_commas]
    simp [tally]

end Shapes

/-- A pattern with one closing brace too many, which ends it. -/
structure IsSurplus (pattern : Text) : Prop where
  unguarded : IsUnguarded pattern
  ending : ∃ front, pattern = front ++ ['}'] ∧ depthAfter 0 (lex front) = 0
  closed : isSealed 1 (lex pattern)

theorem marks_closing {front : Text} (unguarded : IsUnguarded front) :
    marks (front ++ ['}']) = marks front ++ [.closing] := by
  rw [marks, lex_append_closing unguarded, List.filter_append, marks]
  rfl

/-- Commas with a closing brace behind them, perhaps with a group in front. -/
theorem isSurplus_of_marks {front : Text} {first second : Nat} (unguarded : IsUnguarded front)
    (shape : marks front = List.replicate second Lexeme.comma
      ∨ marks front = .opening :: (List.replicate first Lexeme.comma
        ++ .closing :: List.replicate second Lexeme.comma)) :
    IsSurplus (front ++ ['}']) := by
  -- Whatever group stands in front is closed again, so the last brace has nothing to close.
  have alone := depthAfter_commas second [] 0
  have inside := isSealed_commas second [.closing] 0
  rw [List.append_nil] at alone
  refine ⟨isUnguarded_append.mpr ⟨unguarded, by decide⟩, ⟨front, rfl, ?_⟩, ?_⟩
  · rw [← depthAfter_marks, ← marks]
    rcases shape with shape | shape
    · rw [shape, alone]
      rfl
    · rw [shape, depthAfter_cons, depthAfter_commas, depthAfter_cons]
      exact alone
  · rw [← isSealed_marks, ← marks, marks_closing unguarded]
    rcases shape with shape | shape
    · rw [shape, inside]
      rfl
    · rw [shape, List.cons_append, isSealed, List.append_assoc, isSealed_commas]
      exact inside

/-- Such a pattern closes the group that it stands in, if there is one. -/
theorem IsSurplus.depthAfter_eq {pattern : Text} (surplus : IsSurplus pattern) {depth : Nat}
    (shallow : depth ≤ 1) : depthAfter depth (lex pattern) = 0 := by
  have one := depthAfter_of_isSealed surplus.closed
  have zero : depthAfter 0 (lex pattern) ≤ depthAfter 1 (lex pattern) := depthAfter_le_succ 0 _
  match depth, shallow with
  | 0, _ => omega
  | 1, _ => exact one

section Surplus

variable {patterns : List Text}

theorem unguarded_of_kinds (kinds : ∀ pattern ∈ patterns, IsWhole pattern ∨ IsSurplus pattern) :
    ∀ pattern ∈ patterns, IsUnguarded pattern := fun pattern member =>
  (kinds pattern member).elim IsWhole.unguarded IsSurplus.unguarded

theorem depthAfter_joined_of_isWhole (wholes : ∀ pattern ∈ patterns, IsWhole pattern) (depth : Nat) :
    depthAfter depth (lex (joined patterns)) = depth := by
  induction patterns with
  | nil =>
    rw [joined, List.intercalate_nil, lex]
    rfl
  | cons pattern patterns ih =>
    have rest : ∀ other ∈ patterns, IsWhole other := fun other member =>
      wholes other (List.mem_cons_of_mem _ member)
    have first := wholes pattern List.mem_cons_self
    have kept := depthAfter_add_of_isSealed first.closed depth
    rw [Nat.zero_add] at kept
    cases patterns with
    | nil => rwa [joined, List.intercalate_singleton]
    | cons next patterns =>
      rw [lex_joined_cons first.unguarded fun other member => (rest other member).unguarded,
        depthAfter_append, kept, depthAfter_cons]
      exact ih rest

/-- One pattern with a closing brace too many closes the group of all patterns. -/
theorem depthAfter_joined {depth : Nat} (shallow : depth ≤ 1)
    (kinds : ∀ pattern ∈ patterns, IsWhole pattern ∨ IsSurplus pattern)
    (closes : depth = 0 ∨ ∃ pattern ∈ patterns, IsSurplus pattern) :
    depthAfter depth (lex (joined patterns)) = 0 := by
  induction patterns generalizing depth with
  | nil =>
    rcases closes with rfl | ⟨pattern, none, -⟩
    · rw [joined, List.intercalate_nil, lex]
      rfl
    · cases none
  | cons pattern patterns ih =>
    have rest : ∀ other ∈ patterns, IsWhole other ∨ IsSurplus other := fun other member =>
      kinds other (List.mem_cons_of_mem _ member)
    -- What the first pattern leaves open.
    have first : ∃ left ≤ 1, depthAfter depth (lex pattern) = left
        ∧ (left = 0 ∨ ∃ other ∈ patterns, IsSurplus other) := by
      rcases kinds pattern List.mem_cons_self with whole | surplus
      · have kept := depthAfter_add_of_isSealed whole.closed depth
        rw [Nat.zero_add] at kept
        refine ⟨depth, shallow, kept, closes.imp_right ?_⟩
        rintro ⟨other, member, surplus⟩
        rcases List.mem_cons.mp member with rfl | member
        · have one := depthAfter_add_of_isSealed whole.closed 1
          rw [surplus.depthAfter_eq (Nat.le_refl 1)] at one
          cases one
        · exact ⟨other, member, surplus⟩
      · exact ⟨0, Nat.zero_le 1, surplus.depthAfter_eq shallow, .inl rfl⟩
    obtain ⟨left, few, same, closes⟩ := first
    cases patterns with
    | nil =>
      rw [joined, List.intercalate_singleton, same]
      exact closes.resolve_right (by simp)
    | cons next patterns =>
      have unguarded := unguarded_of_kinds kinds
      rw [lex_joined_cons (unguarded pattern List.mem_cons_self) fun other member =>
        unguarded other (List.mem_cons_of_mem _ member), depthAfter_append, same, depthAfter_cons]
      exact ih few rest closes

/-- If one of the patterns has a closing brace too many, the last brace of their alternation stands
outside every group. -/
theorem exists_alternation_eq (kinds : ∀ pattern ∈ patterns, IsWhole pattern ∨ IsSurplus pattern)
    (some : ∃ pattern ∈ patterns, IsSurplus pattern) :
    ∃ front, alternation patterns = front ++ ['}'] ∧ IsUnguarded front
      ∧ depthAfter 0 (lex front) = 0 := by
  by_cases several : 2 ≤ patterns.length
  · have behind := isUnguarded_joined (unguarded_of_kinds kinds)
    refine ⟨'{' :: joined patterns, alternation_of_several several,
      isUnguarded_cons.mpr ⟨by decide, behind⟩, ?_⟩
    rw [lex_opening, depthAfter_cons]
    exact depthAfter_joined (Nat.le_refl 1) kinds (.inr some)
  · obtain ⟨pattern, member, surplus⟩ := some
    match patterns, member with
    | [single], member =>
      rw [List.mem_singleton] at member
      subst member
      obtain ⟨front, same, outside⟩ := surplus.ending
      have unguarded := surplus.unguarded
      rw [same] at unguarded
      exact ⟨front, same, (isUnguarded_append.mp unguarded).1, outside⟩
    | _ :: _ :: _, _ => simp at several

end Surplus

/-- A closing brace outside every group ends every text of its pattern. -/
theorem exists_of_mem_denoted_closing {front text : Text} (unguarded : IsUnguarded front)
    (outside : depthAfter 0 (lex front) = 0) (member : text ∈ denoted (lex (front ++ ['}']))) :
    ∃ start, text = start ++ ['}'] := by
  rw [denoted, lex_append_closing unguarded, read_append] at member
  have flat := List.length_eq_zero_iff.mp ((length_opened_read {} (lex front)).trans outside)
  generalize read {} (lex front) = reading at flat member
  obtain ⟨current, opened⟩ := reading
  subst flat
  obtain ⟨start, -, rfl⟩ := List.mem_map.mp member
  exact ⟨start, rfl⟩

/-- A comma outside every group is text, and stands in front of every text of the rest. -/
theorem exists_mem_denoted_comma {front back text : Text} (unguarded : IsUnguarded front)
    (outside : depthAfter 0 (lex front) = 0) (whole : IsWhole back)
    (member : text ∈ denoted (lex back)) :
    ∃ start, start ++ ',' :: text ∈ denoted (lex (front ++ ',' :: back)) := by
  have filled := denoted_ne_nil (lex front)
  rw [denoted, lex_append unguarded (isUnguarded_cons.mpr ⟨by decide, whole.unguarded⟩), lex_comma,
    read_append, read_cons, read_sealed _ whole.closed]
  rw [denoted] at filled
  have flat := List.length_eq_zero_iff.mp ((length_opened_read {} (lex front)).trans outside)
  generalize read {} (lex front) = reading at flat filled
  obtain ⟨current, opened⟩ := reading
  subst flat
  obtain ⟨start, found⟩ := List.exists_mem_of_ne_nil _ filled
  refine ⟨start, List.mem_flatMap.mpr ⟨start ++ [','], List.mem_map_of_mem found, ?_⟩⟩
  exact List.mem_map.mpr ⟨text, member, by simp⟩

end RootedGlob.Brace
