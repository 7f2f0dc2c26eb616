import RootedGlob.Proofs.Brace.Plain

/-!
# What a text keeps of its pattern

A text that a pattern denotes consists of lexemes of the pattern, in their order, without the braces
that open its groups (`isKept_of_mem_denoted`). So it is shorter than the pattern by one character for
each group, at least.
-/

namespace RootedGlob.Brace

/-- A text that is left of some lexemes. -/
def IsKept (lexemes : List Lexeme) (text : Text) : Prop :=
  ∃ kept, kept.Sublist lexemes ∧ .opening ∉ kept ∧ text = sources kept

theorem IsKept.nil (lexemes : List Lexeme) : IsKept lexemes [] :=
  ⟨[], List.nil_sublist _, List.not_mem_nil, rfl⟩

theorem IsKept.mono {lexemes more : List Lexeme} {text : Text} (kept : IsKept lexemes text)
    (sub : lexemes.Sublist more) : IsKept more text :=
  kept.imp fun _ ⟨inner, plain, same⟩ => ⟨inner.trans sub, plain, same⟩

theorem IsKept.append {first second : List Lexeme} {start rest : Text} (one : IsKept first start)
    (two : IsKept second rest) : IsKept (first ++ second) (start ++ rest) := by
  obtain ⟨before, inside, plain, rfl⟩ := one
  obtain ⟨behind, inside', plain', rfl⟩ := two
  refine ⟨before ++ behind, inside.append inside', ?_, ?_⟩
  · rw [List.mem_append, not_or]
    exact ⟨plain, plain'⟩
  · rw [sources, sources, sources, List.flatMap_append]

/-- Every text of a reading is left of the lexemes read since its group was opened. -/
def Keeps : List Frame → List Text → List Lexeme → Prop
  | [], current, lexemes => ∀ text ∈ current, IsKept lexemes text
  | frame :: outer, current, lexemes => ∃ front inner, lexemes = front ++ inner
      ∧ (∀ text ∈ frame.finished ++ current, IsKept inner text) ∧ Keeps outer frame.before front

theorem keeps_product {opened : List Frame} {starts ends : List Text} {front inner : List Lexeme}
    (before : Keeps opened starts front) (behind : ∀ text ∈ ends, IsKept inner text) :
    Keeps opened (product starts ends) (front ++ inner) := by
  have joined {lexemes : List Lexeme} (each : ∀ text ∈ starts, IsKept lexemes text) :
      ∀ text ∈ product starts ends, IsKept (lexemes ++ inner) text := by
    intro text member
    obtain ⟨start, found, more⟩ := List.mem_flatMap.mp member
    obtain ⟨rest, among, rfl⟩ := List.mem_map.mp more
    exact (each start found).append (behind rest among)
  cases opened with
  | nil => exact joined before
  | cons frame outer =>
    obtain ⟨first, second, rfl, each, around⟩ := before
    refine ⟨first, second ++ inner, by rw [List.append_assoc], ?_, around⟩
    rw [List.forall_mem_append] at each ⊢
    exact ⟨fun text member => (each.1 text member).mono (List.sublist_append_left _ _), joined each.2⟩

theorem keeps_pass {reading : Reading} {lexemes : List Lexeme}
    (keeps : Keeps reading.opened reading.current lexemes) (lexeme : Lexeme) :
    Keeps (reading.pass lexeme).opened (reading.pass lexeme).current (lexemes ++ [lexeme]) := by
  obtain ⟨current, opened⟩ := reading
  -- A lexeme that is text is kept at the end of every text.
  have written (other : lexeme ≠ .opening) :
      Keeps opened (current.map (· ++ lexeme.source)) (lexemes ++ [lexeme]) := by
    rw [← product_singleton]
    refine keeps_product keeps ?_
    rw [List.forall_mem_singleton]
    exact ⟨[lexeme], List.Sublist.refl _, by simpa using Ne.symm other, by simp [sources]⟩
  have none (inner : List Lexeme) : ∀ text ∈ [([] : Text)], IsKept inner text := by
    rw [List.forall_mem_singleton]
    exact .nil inner
  cases lexeme with
  | opening => exact ⟨lexemes, [.opening], rfl, none _, keeps⟩
  | literal => exact written (by simp)
  | comma =>
    cases opened with
    | nil => exact written (by simp)
    | cons frame outer =>
      obtain ⟨front, inner, rfl, each, around⟩ := keeps
      refine ⟨front, inner ++ [.comma], by rw [List.append_assoc], ?_, around⟩
      rw [List.forall_mem_append]
      exact ⟨fun text member => (each text member).mono (List.sublist_append_left _ _), none _⟩
  -- The texts of a group are made of the pieces in front of it and of one of its alternatives.
  | closing =>
    cases opened with
    | nil => exact written (by simp)
    | cons frame outer =>
      obtain ⟨front, inner, rfl, each, around⟩ := keeps
      rw [List.append_assoc]
      exact keeps_product around fun text member =>
        (each text member).mono (List.sublist_append_left _ _)

theorem keeps_read {reading : Reading} {before : List Lexeme}
    (keeps : Keeps reading.opened reading.current before) (lexemes : List Lexeme) :
    Keeps (read reading lexemes).opened (read reading lexemes).current (before ++ lexemes) := by
  induction lexemes generalizing reading before with
  | nil => simpa using keeps
  | cons lexeme lexemes ih =>
    have step := ih (keeps_pass keeps lexeme)
    rwa [List.append_assoc] at step

/-- A text of a pattern that closes its groups is left of the lexemes of the pattern. -/
theorem isKept_of_mem_denoted {lexemes : List Lexeme} (closed : depthAfter 0 lexemes = 0) {text : Text}
    (member : text ∈ denoted lexemes) : IsKept lexemes text := by
  have keeps := @keeps_read {} [] (by simpa [Keeps] using IsKept.nil []) lexemes
  have flat := List.length_eq_zero_iff.mp ((length_opened_read {} lexemes).trans closed)
  rw [flat] at keeps
  exact keeps text member

theorem length_of_isKept {lexemes : List Lexeme} {text : Text} (kept : IsKept lexemes text) :
    text.length + lexemes.count .opening ≤ (sources lexemes).length := by
  obtain ⟨left, sub, plain, rfl⟩ := kept
  induction sub with
  | slnil => simp
  | @cons left whole lexeme sub ih =>
    have rest := ih plain
    -- A brace that is left out counts for the character that it was.
    have lost : (lexeme :: whole).count .opening
        ≤ whole.count .opening + lexeme.source.length := by
      cases lexeme <;> simp [Lexeme.source]
    rw [sources_cons, List.length_append]
    omega
  | @cons_cons left whole lexeme sub ih =>
    rw [List.mem_cons, not_or] at plain
    have rest := ih plain.2
    rw [List.count_cons_of_ne (Ne.symm plain.1), sources_cons, sources_cons, List.length_append,
      List.length_append]
    omega

section Pattern

variable {pattern text : Text}

/-- Every group costs the texts of its pattern at least one character. -/
theorem length_of_mem_denoted (closed : depthAfter 0 (lex pattern) = 0)
    (member : text ∈ denoted (lex pattern)) : text.length + countGroups pattern ≤ pattern.length := by
  have length := length_of_isKept (isKept_of_mem_denoted closed member)
  rwa [sources_lex] at length

theorem mem_of_mem_denoted (closed : depthAfter 0 (lex pattern) = 0)
    (member : text ∈ denoted (lex pattern)) {c : Char} (inside : c ∈ text) : c ∈ pattern := by
  obtain ⟨kept, sub, -, rfl⟩ := isKept_of_mem_denoted closed member
  have whole := (sources_sublist sub).subset inside
  rwa [sources_lex] at whole

theorem countGroups_eq_zero_iff (unguarded : IsUnguarded pattern) :
    countGroups pattern = 0 ↔ '{' ∉ pattern := by
  rw [countGroups, List.count_eq_zero, lex_of_isUnguarded unguarded, List.mem_map]
  constructor
  · exact fun none inside => none ⟨'{', inside, rfl⟩
  · rintro absent ⟨c, inside, same⟩
    have brace : c = '{' := by
      simp only [Lexeme.ofChar] at same
      split at same
      · assumption
      · split at same
        · cases same
        · split at same <;> cases same
    exact absent (brace ▸ inside)

/-- A pattern without groups denotes itself. -/
theorem denoted_of_countGroups (none : countGroups pattern = 0) : denoted (lex pattern) = [pattern] := by
  have flat : .opening ∉ lex pattern := List.count_eq_zero.mp none
  rw [denoted, read_flat _ flat]
  simp

/-- A character that stands in front of a pattern, and is no mark, starts every text. -/
theorem exists_cons_of_mem_denoted {c : Char} (flat : isFlatChar c)
    (closed : depthAfter 0 (lex (c :: pattern)) = 0) (member : text ∈ denoted (lex (c :: pattern))) :
    ∃ rest, text = c :: rest := by
  have guards : c ≠ '\\' ∧ c ≠ '[' := by
    simp only [isFlatChar, Bool.and_eq_true, bne_iff_ne] at flat
    exact ⟨flat.1.2, flat.2⟩
  have lexed : lex (c :: pattern) = .literal [c] :: lex pattern := by
    rw [lex, lexeme_of_unguarded pattern guards, ofChar_of_isFlatChar flat]
  rw [lexed, depthAfter_cons] at closed
  have outside := read_outside [[c]] closed
  rw [lexed, denoted, read_cons] at member
  have step : Reading.pass {} (.literal [c]) = ⟨[[c]], []⟩ := rfl
  rw [step, outside] at member
  obtain ⟨start, one, more⟩ := List.mem_flatMap.mp member
  obtain ⟨rest, -, rfl⟩ := List.mem_map.mp more
  rw [List.mem_singleton.mp one]
  exact ⟨rest, rfl⟩

/-- What stands outside every group, without groups of its own, ends every text. -/
theorem exists_append_of_mem_denoted {front back : Text}
    (unguarded : IsUnguarded front ∧ IsUnguarded back) (outside : depthAfter 0 (lex front) = 0)
    (flat : .opening ∉ lex back) (member : text ∈ denoted (lex (front ++ back))) :
    ∃ start, text = start ++ back := by
  have opened := List.length_eq_zero_iff.mp ((length_opened_read {} (lex front)).trans outside)
  rw [denoted, lex_append unguarded.1 unguarded.2, read_append] at member
  generalize read {} (lex front) = reading at opened member
  obtain ⟨current, groups⟩ := reading
  subst opened
  rw [read_flat current flat, sources_lex] at member
  obtain ⟨start, -, rfl⟩ := List.mem_map.mp member
  exact ⟨start, rfl⟩

end Pattern

end RootedGlob.Brace
