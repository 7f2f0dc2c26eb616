import RootedGlob.Proofs.Brace.Denotation
import RootedGlob.Proofs.Lists

/-!
# Resuming the search for groups

The search for a group goes on where the group before it was found, and never reads the text in front of that
place again. This is sound because an entry stays resumable: reading its whole text comes to the place where the
search goes on, and meets no opening brace before (`resumable_replacement`). A bracket in front of that place that
has no end cannot find one either, because only later parts of the same text take the place of a group.

The alternatives of a group stand alone: in front of the text behind them, of the text that follows them in an
entry that replaces theirs, and by themselves, they are read as the same lexemes, which close what they open
(`exists_replacements`). So every replacement takes at least one group out of its text (`countGroups_replacement`).
-/

namespace RootedGlob.Brace

/-- Reading the text of an entry comes to the text still to be searched, and meets no opening brace before. -/
def Entry.IsResumable (entry : Entry) : Prop :=
  ∃ passed, .opening ∉ passed ∧ sources passed = entry.settled ∧ lex entry.current = passed ++ lex entry.pending

theorem resumable_ofPattern (pattern : Text) : (Entry.ofPattern pattern).IsResumable :=
  ⟨[], List.not_mem_nil, rfl, rfl⟩

/-- Lexemes that are read as they are in front of some text, where no escape is left without its character.
They close every group they open, and have no comma and no closing brace outside of these. -/
structure StandsAlone (part : List Lexeme) (later : Text) : Prop where
  closed : isSealed 0 part
  guarding : .literal ['\\'] ∉ part
  read : lex (sources part ++ later) = part ++ lex later

/-- In front of a mark no escape is left open, so what closes its groups stands alone there. -/
theorem standsAlone_of_genuine {part later : List Lexeme} (closed : isSealed 0 part)
    (guarding : .literal ['\\'] ∉ part) (genuine : Genuine (part ++ later)) : StandsAlone part (sources later) := by
  refine ⟨closed, guarding, ?_⟩
  have behind : lex (sources later) = later := genuine.drop
  rw [behind, ← sources_append]
  exact genuine

/-- Lexemes that are read as they are in front of some text are read one by one. -/
theorem stands_of_reads {lexeme : Lexeme} {lexemes : List Lexeme} {later : Text}
    (reads : lex (sources (lexeme :: lexemes) ++ later) = lexeme :: lexemes ++ lex later) :
    Stands lexeme (sources lexemes ++ later) ∧ lex (sources lexemes ++ later) = lexemes ++ lex later := by
  have genuine : Genuine (lexeme :: (lexemes ++ lex later)) := by
    rw [Genuine, sources_cons, sources_append, sources_lex, ← List.append_assoc]
    exact reads
  obtain ⟨stands, rest⟩ := genuine_cons_iff.mp genuine
  rw [Genuine, sources_append, sources_lex] at rest
  rw [sources_append, sources_lex] at stands
  exact ⟨stands, rest⟩

section Parts

variable {passed body later : List Lexeme}

/-- An alternative stands alone wherever expansion reads it: in its group, in the place of its group and by itself. -/
theorem standsAlone_of_parts (genuine : Genuine (passed ++ .opening :: (body ++ .closing :: later)))
    {first others : List (List Lexeme)} {part : List Lexeme} (parts : separate 0 body = first ++ part :: others)
    (closed : isSealed 0 part) :
    StandsAlone part (sources (others.flatMap (.comma :: ·) ++ .closing :: later))
      ∧ StandsAlone part (sources later) ∧ StandsAlone part [] := by
  have member : part ∈ separate 0 body := by simp [parts]
  have whole := intercalate_separate 0 body
  rw [parts, intercalate_append_cons] at whole
  -- Some mark stands directly behind the alternative.
  obtain ⟨mark, back, isMark, behind⟩ : ∃ (mark : Lexeme) (back : List Lexeme), mark.isMark = true
      ∧ others.flatMap (.comma :: ·) ++ .closing :: later = mark :: back := by
    cases others with
    | nil => exact ⟨.closing, later, rfl, rfl⟩
    | cons other others => exact ⟨.comma, _, rfl, rfl⟩
  have placed : Genuine (passed ++ .opening :: first.flatMap (· ++ [.comma])
      ++ (part ++ (others.flatMap (.comma :: ·) ++ .closing :: later))) := by
    simpa [← whole] using genuine
  have inside := placed.drop
  have guarding : .literal ['\\'] ∉ part := by
    rw [behind] at inside
    exact (open_of_genuine isMark inside).1
  refine ⟨standsAlone_of_genuine closed guarding inside,
    standsAlone_of_genuine closed guarding (genuine_replacement genuine member), ?_⟩
  have alone : Genuine (part ++ mark :: back ++ []) := by simpa [behind] using inside
  exact standsAlone_of_genuine closed guarding (genuine_of_cut isMark alone)

end Parts

section Replacing

variable {entry : Entry} {group : Group}

/-- The text of a resumable entry around its first group, and the alternatives of the group. -/
theorem exists_replacements (resumable : entry.IsResumable) (found : findGroup entry.pending = .group group) :
    ∃ passed body later, .opening ∉ passed
      ∧ lex entry.current = passed ++ .opening :: (body ++ .closing :: later)
      ∧ entry.settled ++ group.before = sources passed ∧ group.body = sources body ∧ group.after = sources later
      ∧ lex group.body = body ∧ ∀ part ∈ separate 0 body, isSealed 0 part := by
  obtain ⟨passed, unopened, settled, whole⟩ := resumable
  obtain ⟨front, body, later, ahead, flat, cutAt, rfl⟩ := exists_of_findIn found
  rw [ahead, ← List.append_assoc] at whole
  have genuine := genuine_lex entry.current
  rw [whole] at genuine
  refine ⟨passed ++ front, body, later, ?_, whole, ?_, rfl, rfl, genuine_body genuine,
    isSealed_of_mem_separate cutAt⟩
  · rw [List.mem_append, not_or]
    exact ⟨unopened, flat⟩
  · rw [sources_append, settled]

/-- What takes the place of an entry: its lexemes are those in front of the group, those of an alternative and
those behind the group. -/
theorem exists_lex_replacement (resumable : entry.IsResumable) (found : findGroup entry.pending = .group group)
    {replacement : Entry} (member : replacement ∈ entry.replacements group) :
    ∃ passed body later part, .opening ∉ passed
      ∧ lex entry.current = passed ++ .opening :: (body ++ .closing :: later) ∧ part.Sublist body
      ∧ replacement = ⟨sources passed, sources (part ++ later)⟩
      ∧ lex replacement.current = passed ++ (part ++ later) ∧ lex replacement.pending = part ++ later := by
  obtain ⟨passed, body, later, unopened, whole, settled, sameBody, after, lexed, -⟩ :=
    exists_replacements resumable found
  obtain ⟨alternative, inside, rfl⟩ := List.mem_map.mp member
  rw [alternatives, lexed] at inside
  obtain ⟨part, among, rfl⟩ := List.mem_map.mp inside
  have genuine := genuine_lex entry.current
  rw [whole] at genuine
  -- Cutting the group down to one alternative makes no lexeme mean anything else.
  have replaced := genuine_replaced genuine among
  rw [List.append_assoc] at replaced
  refine ⟨passed, body, later, part, unopened, whole, sublist_of_mem_separate among, ?_, ?_, ?_⟩
  · rw [settled, after, sources_append]
  · rw [Entry.current, settled, after, ← sources_append, ← sources_append]
    exact replaced
  · rw [after, ← sources_append]
    exact replaced.drop

/-- The search can go on in every entry that takes the place of one in which it could. -/
theorem resumable_replacement (resumable : entry.IsResumable) (found : findGroup entry.pending = .group group)
    {replacement : Entry} (member : replacement ∈ entry.replacements group) : replacement.IsResumable := by
  obtain ⟨passed, body, later, part, unopened, -, -, rfl, whole, ahead⟩ :=
    exists_lex_replacement resumable found member
  exact ⟨passed, unopened, rfl, by rw [whole, ahead]⟩

/-- A replacement opens fewer groups than the entry whose place it takes. -/
theorem countGroups_replacement (resumable : entry.IsResumable) (found : findGroup entry.pending = .group group)
    {replacement : Entry} (member : replacement ∈ entry.replacements group) :
    countGroups replacement.current < countGroups entry.current := by
  obtain ⟨passed, body, later, part, -, old, sub, -, new, -⟩ := exists_lex_replacement resumable found member
  have fewer := sub.count_le .opening
  rw [countGroups, countGroups, new, old]
  simp only [List.count_append, List.count_cons_self, List.count_cons]
  omega

/-- What is found to have no group behind the place of the search has none at all. -/
theorem countGroups_of_noGroup (resumable : entry.IsResumable) (found : findGroup entry.pending = .noGroup) :
    countGroups entry.current = 0 := by
  obtain ⟨passed, unopened, -, whole⟩ := resumable
  rw [countGroups, whole, List.count_append, List.count_eq_zero.mpr unopened,
    List.count_eq_zero.mpr (not_mem_of_noGroup found)]

end Replacing

/-- Expansion finds texts without groups. -/
theorem countGroups_of_drain {pattern : Text} {found texts : List Text} {entries : List Entry}
    (drained : drain pattern found entries = .ok texts) (resumable : ∀ entry ∈ entries, entry.IsResumable)
    (plain : ∀ text ∈ found, countGroups text = 0) : ∀ text ∈ texts, countGroups text = 0 := by
  fun_induction drain pattern found entries with
  | case1 found =>
    obtain rfl := Except.ok.inj drained
    simpa using plain
  | case2 => cases drained
  | case3 => cases drained
  | case4 found entry rest noGroup _ ih =>
    rw [List.forall_mem_cons] at resumable
    have last := countGroups_of_noGroup resumable.1 noGroup
    exact ih drained resumable.2 (List.forall_mem_cons.mpr ⟨last, plain⟩)
  | case5 found entry rest group searched ih =>
    rw [List.forall_mem_cons] at resumable
    refine ih drained ?_ plain
    rw [List.forall_mem_append]
    exact ⟨fun _ member => resumable_replacement resumable.1 searched member, resumable.2⟩

end RootedGlob.Brace
