import RootedGlob.Brace.Expansion
import RootedGlob.Proofs.Brace.Lexing
import RootedGlob.Proofs.Brace.Reading

/-!
# Brace expansion finds what a pattern denotes

Expansion rewrites whole texts: it puts an alternative in the place of the first group and searches
the rest again. Every such step keeps the texts that an entry denotes (`texts_replacements`),
because the lexemes of an alternative and of the text behind its group are the same in the new text
as in the old one. So expansion succeeds exactly for a pattern that closes its groups and stays
within the limits, and then finds the texts that one scan denotes (`expand_eq_ok_iff`).
-/

namespace RootedGlob.Brace

theorem not_mem_of_noGroup {lexemes : List Lexeme} (plain : findIn lexemes = .noGroup) :
    .opening ∉ lexemes := by
  fun_induction findIn lexemes with
  | case1 => simp
  | case2 => simp at plain
  | case3 => simp at plain
  | case4 => simp at plain
  | case5 other rest notOpening result ih =>
    simp only [List.mem_cons, not_or]
    exact ⟨Ne.symm notOpening, ih plain⟩

/-- Outside every group, a text without groups is read as it stands. -/
theorem read_flat (starts : List Text) {lexemes : List Lexeme} (flat : .opening ∉ lexemes) :
    read ⟨starts, []⟩ lexemes = ⟨starts.map (· ++ sources lexemes), []⟩ := by
  induction lexemes generalizing starts with
  | nil => simp
  | cons lexeme lexemes ih =>
    simp only [List.mem_cons, not_or] at flat
    have step : Reading.pass ⟨starts, []⟩ lexeme = ⟨starts.map (· ++ lexeme.source), []⟩ := by
      cases lexeme with
      | opening => exact absurd rfl flat.1
      | _ => rfl
    rw [read_cons, step, ih _ flat.2]
    simp

theorem depthAfter_append (depth : Nat) (first second : List Lexeme) :
    depthAfter depth (first ++ second) = depthAfter (depthAfter depth first) second :=
  List.foldl_append

theorem depthAfter_cons (depth : Nat) (lexeme : Lexeme) (lexemes : List Lexeme) :
    depthAfter depth (lexeme :: lexemes) = depthAfter (lexeme.depthAfter depth) lexemes := rfl

theorem depthAfter_flat {lexemes : List Lexeme} (flat : .opening ∉ lexemes) :
    depthAfter 0 lexemes = 0 := by
  have := length_opened_read {} lexemes
  rw [read_flat _ flat] at this
  exact this.symm

theorem depthAfter_of_cutAtClosing? {depth : Nat} {lexemes : List Lexeme}
    (unclosed : cutAtClosing? depth lexemes = none) : 0 < depthAfter (depth + 1) lexemes := by
  fun_induction cutAtClosing? depth lexemes with
  | case1 => simp [depthAfter]
  | case2 depth rest ih => exact ih (by simpa using unclosed)
  | case3 => simp at unclosed
  | case4 depth rest deep ih =>
    have same : depth = depth - 1 + 1 := by omega
    rw [depthAfter_cons, Lexeme.depthAfter, Nat.add_sub_cancel, same]
    exact ih (by simpa using unclosed)
  | case5 depth other rest notOpening notClosing ih =>
    rw [depthAfter_cons]
    cases other with
    | opening => exact absurd rfl notOpening
    | closing => exact absurd rfl notClosing
    | _ => exact ih (by simpa using unclosed)

/-- A search that meets an open group leaves it open at the end. -/
theorem depthAfter_of_unclosed {lexemes : List Lexeme} (unclosed : findIn lexemes = .unclosed) :
    0 < depthAfter 0 lexemes := by
  fun_induction findIn lexemes with
  | case1 => simp at unclosed
  | case2 rest cutAt => exact depthAfter_of_cutAtClosing? cutAt
  | case3 => simp at unclosed
  | case4 => simp at unclosed
  | case5 other rest notOpening result ih =>
    rw [depthAfter_cons]
    cases other with
    | opening => exact absurd rfl notOpening
    | _ => exact ih unclosed

/-- The alternatives of the body of a group are sealed, where the first of them closes the groups
that are already open. -/
theorem isSealed_of_cutAtClosing? {depth : Nat} {lexemes body later : List Lexeme}
    (found : cutAtClosing? depth lexemes = some (body, later)) :
    ∃ first others, separate depth body = first :: others ∧ isSealed depth first
      ∧ ∀ part ∈ others, isSealed 0 part := by
  -- The cases are those of the search for the brace: `separate` counts the same depth, so the piece in
  -- front of the first comma belongs to it.
  fun_induction cutAtClosing? depth lexemes generalizing body with
  | case1 => simp at found
  | case2 depth rest ih =>
    simp only [Option.map_eq_some_iff, Prod.exists, Prod.mk.injEq] at found
    obtain ⟨inner, _, cutAt, rfl, rfl⟩ := found
    obtain ⟨first, others, parts, one, all⟩ := ih cutAt
    exact ⟨.opening :: first, others, by rw [separate, parts, prepend], one, all⟩
  | case3 rest =>
    simp only [Option.some.injEq, Prod.mk.injEq] at found
    exact ⟨[], [], by rw [← found.1, separate], rfl, by simp⟩
  | case4 depth rest deep ih =>
    simp only [Option.map_eq_some_iff, Prod.exists, Prod.mk.injEq] at found
    obtain ⟨inner, _, cutAt, rfl, rfl⟩ := found
    obtain ⟨first, others, parts, one, all⟩ := ih cutAt
    exact ⟨.closing :: first, others, by rw [separate, parts, prepend],
      by simp [isSealed, deep, one], all⟩
  | case5 depth other rest notOpening notClosing ih =>
    simp only [Option.map_eq_some_iff, Prod.exists, Prod.mk.injEq] at found
    obtain ⟨inner, _, cutAt, rfl, rfl⟩ := found
    obtain ⟨first, others, parts, one, all⟩ := ih cutAt
    cases other with
    | opening => exact absurd rfl notOpening
    | closing => exact absurd rfl notClosing
    | comma =>
      by_cases outside : depth = 0
      · -- Only a comma outside the inner groups starts a new alternative, and all of the rest is
        -- sealed.
        subst outside
        refine ⟨[], first :: others, by rw [separate, if_pos rfl, parts], rfl, ?_⟩
        intro part member
        rcases List.mem_cons.mp member with rfl | member
        · exact one
        · exact all part member
      · exact ⟨.comma :: first, others, by rw [separate, if_neg outside, parts, prepend],
          by simp [isSealed, outside, one], all⟩
    | literal chunk => exact ⟨.literal chunk :: first, others, by rw [separate, parts, prepend],
        one, all⟩

theorem isSealed_of_mem_separate {lexemes body later : List Lexeme}
    (found : cutAtClosing? 0 lexemes = some (body, later)) :
    ∀ part ∈ separate 0 body, isSealed 0 part := by
  obtain ⟨first, others, parts, one, all⟩ := isSealed_of_cutAtClosing? found
  rw [parts]
  exact List.forall_mem_cons.mpr ⟨one, all⟩

/-- The lexemes of the first group of a pattern, and of the text around it. -/
theorem exists_of_findIn {lexemes : List Lexeme} {group : Group}
    (found : findIn lexemes = .group group) :
    ∃ front body later, lexemes = front ++ .opening :: (body ++ .closing :: later)
      ∧ .opening ∉ front ∧ cutAtClosing? 0 (body ++ .closing :: later) = some (body, later)
      ∧ group = ⟨sources front, sources body, sources later⟩ := by
  fun_induction findIn lexemes generalizing group with
  | case1 => simp at found
  | case2 => simp at found
  | case3 rest body later cutAt =>
    simp only [Search.group.injEq] at found
    refine ⟨[], body, later, ?_, by simp, ?_, found.symm⟩
    · rw [cutAtClosing?_eq cutAt]
      rfl
    · rw [← cutAtClosing?_eq cutAt, cutAt]
  -- The search passes over what is no group, so this belongs to the front.
  | case4 other rest notOpening inner same ih =>
    simp only [Search.group.injEq] at found
    subst found
    obtain ⟨front, body, later, rfl, flat, cutAt, rfl⟩ := ih same
    exact ⟨other :: front, body, later, rfl, by simp [Ne.symm notOpening, flat], cutAt, rfl⟩
  | case5 other rest _ plain => exact absurd found (plain group)

/-- An alternative is a piece of the body, with nothing or a comma behind it. -/
theorem exists_of_mem_parts {parts : List (List Lexeme)} {part : List Lexeme}
    (member : part ∈ parts) :
    ∃ front back, [Lexeme.comma].intercalate parts = front ++ part ++ back
      ∧ (back = [] ∨ ∃ rest, back = .comma :: rest) := by
  induction parts with
  | nil => simp at member
  | cons first parts ih =>
    cases parts with
    | nil =>
      rw [List.mem_singleton] at member
      exact ⟨[], [], by simp [List.intercalate, member], .inl rfl⟩
    | cons next parts =>
      -- Every part but the last one has a comma behind it.
      have whole : [Lexeme.comma].intercalate (first :: next :: parts)
          = first ++ .comma :: [Lexeme.comma].intercalate (next :: parts) := by
        simp [List.intercalate, List.intersperse]
      rcases List.mem_cons.mp member with rfl | member
      · exact ⟨[], _, by rw [whole]; rfl, .inr ⟨_, rfl⟩⟩
      · obtain ⟨front, back, same, behind⟩ := ih member
        exact ⟨first ++ .comma :: front, back, by rw [whole, same]; simp, behind⟩

/-- Putting an alternative in the place of its group changes nothing for the lexemes in front of the group,
those of the alternative and those behind the group. -/
theorem genuine_replaced {front body later part : List Lexeme}
    (genuine : Genuine (front ++ .opening :: (body ++ .closing :: later)))
    (member : part ∈ separate 0 body) : Genuine (front ++ part ++ later) := by
  obtain ⟨before, back, whole, behind⟩ := exists_of_mem_parts member
  rw [intercalate_separate] at whole
  subst whole
  -- First the text from the opening brace to the alternative is left out, then the text behind the
  -- alternative.
  have started : Genuine (front ++ .opening :: before ++ (part ++ (back ++ .closing :: later))) := by
    simpa using genuine
  have inside := genuine_of_cut rfl started
  rcases behind with rfl | ⟨rest, rfl⟩
  · have around : Genuine (front ++ part ++ .closing :: [] ++ later) := by simpa using inside
    exact genuine_of_cut rfl around
  · have around : Genuine (front ++ part ++ .comma :: (rest ++ [.closing]) ++ later) := by
      simpa using inside
    exact genuine_of_cut rfl around

theorem genuine_replacement {front body later part : List Lexeme}
    (genuine : Genuine (front ++ .opening :: (body ++ .closing :: later)))
    (member : part ∈ separate 0 body) : Genuine (part ++ later) := by
  have replaced := genuine_replaced genuine member
  rw [List.append_assoc] at replaced
  exact replaced.drop

theorem genuine_body {front body later : List Lexeme}
    (genuine : Genuine (front ++ .opening :: (body ++ .closing :: later))) : Genuine body := by
  have inside : Genuine (body ++ .closing :: later) := (genuine_cons_iff.mp genuine.drop).2
  have ended : Genuine (body ++ .closing :: later ++ []) := by simpa using inside
  simpa using genuine_of_cut rfl ended

namespace Entry

/-- The texts that an entry stands for. -/
def texts (entry : Entry) : List Text := (denoted (lex entry.pending)).map (entry.settled ++ ·)

/-- How many groups the text still to be searched leaves open. -/
def depth (entry : Entry) : Nat := depthAfter 0 (lex entry.pending)

end Entry

/-- What the first group of an entry consists of, and the entries that replace it. -/
theorem replacements_eq {entry : Entry} {group : Group}
    (found : findGroup entry.pending = .group group) :
    ∃ front body later, lex entry.pending = front ++ .opening :: (body ++ .closing :: later)
      ∧ .opening ∉ front ∧ (∀ part ∈ separate 0 body, isSealed 0 part)
      ∧ (∀ part ∈ separate 0 body, lex (sources part ++ sources later) = part ++ later)
      ∧ entry.replacements group = (separate 0 body).map fun part =>
          ⟨entry.settled ++ sources front, sources part ++ sources later⟩ := by
  obtain ⟨front, body, later, whole, flat, cutAt, rfl⟩ := exists_of_findIn found
  have genuine := genuine_lex entry.pending
  rw [whole] at genuine
  refine ⟨front, body, later, whole, flat, isSealed_of_mem_separate cutAt, ?_, ?_⟩
  · intro part member
    rw [← sources_append]
    exact genuine_replacement genuine member
  · have same : lex (sources body) = body := genuine_body genuine
    simp [Entry.replacements, alternatives, same, Function.comp_def]

theorem depth_replacement {entry : Entry} {group : Group}
    (found : findGroup entry.pending = .group group) {replacement : Entry}
    (member : replacement ∈ entry.replacements group) : replacement.depth = entry.depth := by
  obtain ⟨front, body, later, whole, flat, closed, lexed, same⟩ := replacements_eq found
  rw [same] at member
  obtain ⟨part, inside, rfl⟩ := List.mem_map.mp member
  have group := read_alternatives [sources front] [] [] (separate_ne_nil 0 body) closed later
  have start := read_flat [[]] flat
  have scanned := length_opened_read ⟨[[]], []⟩ (lex entry.pending)
  rw [intercalate_separate] at group
  rw [whole, read_append, start, read_cons] at scanned
  simp only [Reading.pass, List.map_cons, List.map_nil, List.nil_append] at scanned
  rw [group, length_opened_read] at scanned
  rw [Entry.depth, lexed part inside, depthAfter_append,
    depthAfter_of_isSealed (closed part inside), Entry.depth, whole]
  exact scanned

/-- Replacing the first group of an entry by its alternatives keeps the texts it stands for. -/
theorem texts_replacements {entry : Entry} {group : Group}
    (found : findGroup entry.pending = .group group) (closed : entry.depth = 0) :
    (entry.replacements group).flatMap Entry.texts = entry.texts := by
  obtain ⟨front, body, later, whole, flat, closedParts, lexed, same⟩ := replacements_eq found
  -- A replacement leaves as many groups open as the entry, and its alternative leaves none, so the rest
  -- leaves none.
  have later_closed : depthAfter 0 later = 0 := by
    obtain ⟨part, inside⟩ := List.exists_mem_of_ne_nil _ (separate_ne_nil 0 body)
    have member : ⟨entry.settled ++ sources front, sources part ++ sources later⟩
        ∈ entry.replacements group := by
      rw [same]
      exact List.mem_map_of_mem inside
    have kept := depth_replacement found member
    rw [Entry.depth, lexed part inside, depthAfter_append,
      depthAfter_of_isSealed (closedParts part inside), closed] at kept
    exact kept
  have each : ∀ part ∈ separate 0 body,
      denoted (lex (sources part ++ sources later)) = product (denoted part) (denoted later) := by
    intro part inside
    rw [lexed part inside, denoted, read_append, read_sealed {} (closedParts part inside)]
    simp [read_outside _ later_closed]
  have group := read_alternatives [sources front] [] [] (separate_ne_nil 0 body) closedParts later
  rw [intercalate_separate] at group
  -- Read as a whole, the group multiplies what stands in front of it with all of its alternatives.
  have all : denoted (lex entry.pending)
      = product (product [sources front] ((separate 0 body).flatMap denoted)) (denoted later) := by
    rw [whole, denoted, read_append, read_flat [[]] flat, read_cons]
    simp only [Reading.pass, List.map_cons, List.map_nil, List.nil_append]
    rw [group, read_outside _ later_closed]
    rfl
  -- Read one by one, each alternative multiplies on its own; the product distributes over the
  -- alternatives.
  rw [same, List.flatMap_map, Entry.texts, all]
  simp only [product_cons, product_nil, List.append_nil, product_map_left, List.map_map]
  rw [product, List.flatMap_assoc, List.map_flatMap]
  refine List.flatMap_congr fun part inside => ?_
  rw [Entry.texts, each part inside, product]
  simp [Function.comp_def]

theorem texts_of_noGroup {entry : Entry} (found : findGroup entry.pending = .noGroup) :
    entry.texts = [entry.current] ∧ entry.depth = 0 := by
  have flat := not_mem_of_noGroup found
  refine ⟨?_, depthAfter_flat flat⟩
  rw [Entry.texts, denoted, read_flat [[]] flat]
  simp [Entry.current]

/-- Working off a stack of entries that all close their groups finds the texts these stand for, in
order, unless there are too many. -/
theorem drain_eq (pattern : Text) (found : List Text) (entries : List Entry)
    (closed : ∀ entry ∈ entries, entry.depth = 0) (room : found.length ≤ maxExpansions) :
    drain pattern found entries =
      if found.length + (entries.flatMap Entry.texts).length ≤ maxExpansions
      then .ok (found.reverse ++ entries.flatMap Entry.texts)
      else .error (.tooManyPatterns pattern) := by
  -- What is found and what the stack stands for stay the same list in each round; only the border
  -- between them moves.
  fun_induction drain pattern found entries with
  | case1 => simp [room]
  | case2 found entry rest unclosed =>
    have opened := depthAfter_of_unclosed unclosed
    have := closed entry List.mem_cons_self
    rw [Entry.depth] at this
    omega
  | case3 found entry rest noGroup full =>
    rw [List.flatMap_cons, (texts_of_noGroup noGroup).1, if_neg (by simp; omega)]
  | case4 found entry rest noGroup free ih =>
    rw [List.flatMap_cons, (texts_of_noGroup noGroup).1,
      ih (fun other member => closed other (List.mem_cons_of_mem _ member)) (by simp; omega)]
    simp only [List.length_cons, List.length_append, List.length_nil, List.reverse_cons,
      List.append_assoc, Nat.add_assoc, Nat.zero_add]
  | case5 found entry rest group searched ih =>
    have first := closed entry List.mem_cons_self
    -- The alternatives close their groups if the entry does, so the invariant holds for the longer
    -- stack.
    have kept : ∀ other ∈ entry.replacements group ++ rest, other.depth = 0 := by
      intro other member
      rcases List.mem_append.mp member with replaced | member
      · rw [depth_replacement searched replaced, first]
      · exact closed other (List.mem_cons_of_mem _ member)
    rw [ih kept room, List.flatMap_append, texts_replacements searched first, List.flatMap_cons]

/-- Expansion does not succeed if an entry leaves a group open. -/
theorem depth_of_drain {pattern : Text} {found texts : List Text} {entries : List Entry}
    (drained : drain pattern found entries = .ok texts) : ∀ entry ∈ entries, entry.depth = 0 := by
  fun_induction drain pattern found entries with
  | case1 => simp
  | case2 => simp at drained
  | case3 => simp at drained
  | case4 found entry rest noGroup _ ih =>
    intro other member
    rcases List.mem_cons.mp member with rfl | member
    · exact (texts_of_noGroup noGroup).2
    · exact ih drained other member
  | case5 found entry rest group searched ih =>
    intro other member
    rcases List.mem_cons.mp member with rfl | member
    · -- The group has an alternative, and the entry leaves as many groups open as the one with this
      -- alternative.
      obtain ⟨front, body, later, -, -, -, -, same⟩ := replacements_eq searched
      obtain ⟨part, inside⟩ := List.exists_mem_of_ne_nil _ (separate_ne_nil 0 body)
      have replaced := List.mem_map_of_mem inside (f := fun part =>
        (⟨other.settled ++ sources front, sources part ++ sources later⟩ : Entry))
      rw [← same] at replaced
      rw [← depth_replacement searched replaced]
      exact ih drained _ (List.mem_append_left _ replaced)
    · exact ih drained other (List.mem_append_right _ member)

/-- Expansion succeeds exactly for a pattern within the limits that closes its groups, and finds the
texts that one scan of it denotes. -/
theorem expand_eq_ok_iff {pattern : Text} {texts : List Text} :
    expand pattern = .ok texts ↔ countGroups pattern ≤ maxGroups ∧ depthAfter 0 (lex pattern) = 0
      ∧ (denoted (lex pattern)).length ≤ maxExpansions ∧ texts = denoted (lex pattern) := by
  have start : (Entry.ofPattern pattern).texts = denoted (lex pattern) := by
    simp [Entry.texts, Entry.ofPattern]
  have drained (closed : depthAfter 0 (lex pattern) = 0) :=
    drain_eq pattern [] [.ofPattern pattern] (by simpa [Entry.depth, Entry.ofPattern] using closed)
      (Nat.zero_le _)
  rw [expand]
  -- The limit for groups is checked first, and the other two while the stack is worked off.
  split
  · next many =>
    constructor
    · intro result
      cases result
    · intro ⟨few, _⟩
      omega
  · next few =>
    constructor
    · intro result
      have closed : depthAfter 0 (lex pattern) = 0 := depth_of_drain result _ List.mem_cons_self
      rw [drained closed, List.flatMap_singleton, start] at result
      split at result
      · next room =>
        refine ⟨by omega, closed, by simpa using room, ?_⟩
        simpa using result.symm
      · cases result
    · rintro ⟨_, closed, room, rfl⟩
      rw [drained closed, List.flatMap_singleton, start, if_pos (by simpa using room)]
      rfl

end RootedGlob.Brace
