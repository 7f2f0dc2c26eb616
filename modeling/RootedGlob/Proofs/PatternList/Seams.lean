import RootedGlob.Anchoring
import RootedGlob.Proofs.PatternList.Separation

/-!
# Seams of a pattern list

A comma separates if the scan of the text before it ends outside every group and behind no backslash. There
the list falls into two lists of their own, and blanks around the comma belong to neither
(`cuts_at_comma`): trimming takes them from the pieces on both sides, and whether the comma separates does
not depend on them.

A token may not end like that. The blank that its last backslash guarded was trimmed, so the backslash would
guard the next comma. One blank behind the token is enough for the comma to separate again
(`atTop_behind_trim`). So tokens joined by commas with blanks around them are found again, and none of them
falls into several (`tokens_of_tokens`).
-/

namespace RootedGlob.PatternList

section Trimming

theorem trim_blank_append {gap : Text} (blank : ∀ c ∈ gap, Text.isBlank c) (text : Text) :
    Text.trim (gap ++ text) = text.trim := by
  induction gap with
  | nil => rfl
  | cons c gap ih =>
    rw [List.cons_append, trim_blank (blank c List.mem_cons_self)]
    exact ih fun d member => blank d (List.mem_cons_of_mem _ member)

theorem trim_concat_blank (text : Text) {c : Char} (blank : Text.isBlank c) :
    Text.trim (text ++ [c]) = text.trim := by
  have cut (front : Text) : Text.trimEnd (front ++ [c]) = Text.trimEnd front := by
    rw [Text.trimEnd, List.reverse_concat, List.dropWhile_cons_of_pos blank, ← Text.trimEnd]
  rw [Text.trim, Text.trim, Text.trimStart, Text.trimStart, List.dropWhile_append]
  split
  · next empty =>
    -- Trimming from the front comes to the end of the text already.
    rw [List.isEmpty_iff.mp empty, List.dropWhile_cons_of_pos blank, List.dropWhile_nil]
  · exact cut _

theorem trim_append_blank {gap : Text} (blank : ∀ c ∈ gap, Text.isBlank c) (text : Text) :
    Text.trim (text ++ gap) = text.trim := by
  induction gap generalizing text with
  | nil => rw [List.append_nil]
  | cons c gap ih =>
    rw [List.append_cons, ih (fun d member => blank d (List.mem_cons_of_mem _ member)),
      trim_concat_blank _ (blank c List.mem_cons_self)]

theorem trim_trim (text : Text) : text.trim.trim = text.trim := by
  obtain ⟨front, back, whole, before, behind⟩ := exists_trim text
  have inner := trim_blank_append before (text.trim ++ back)
  rw [← whole, trim_append_blank behind] at inner
  exact inner.symm

end Trimming

section Blanks

theorem isBlank_of_mem_space : ∀ c ∈ [' '], Text.isBlank c :=
  List.forall_mem_singleton.mpr (by decide)

/-- Blanks change nothing but that the first of them may be guarded. -/
theorem behind_of_isBlank (scan : Scan) {gap : Text} (blank : ∀ c ∈ gap, Text.isBlank c) (filled : gap ≠ []) :
    scan.behind gap = { scan with escaped := false } := by
  obtain ⟨c, gap, rfl⟩ := List.exists_cons_of_ne_nil filled
  rw [List.forall_mem_cons] at blank
  have passed : scan.pass c = { scan with escaped := false } := by
    obtain ⟨parens, brackets, braces, escaped⟩ := scan
    -- A backslash in front is used up, whatever it guards.
    cases escaped with
    | true => rfl
    | false => exact pass_of_isUncounted (isUncounted_of_isBlank blank.1) rfl
  rw [Scan.behind, List.foldl_cons, passed]
  exact behind_of_isUncounted (fun d member => isUncounted_of_isBlank (blank.2 d member)) rfl

/-- Blanks behind a text leave a scan outside every group where it is. -/
theorem atTop_append_blank {text gap : Text} (top : (Scan.behind {} text).atTop)
    (blank : ∀ c ∈ gap, Text.isBlank c) : (Scan.behind {} (text ++ gap)).atTop := by
  rw [behind_append, eq_start_of_atTop top,
    behind_of_isUncounted (fun c member => isUncounted_of_isBlank (blank c member)) rfl]
  rfl

/-- A blank behind a trimmed text stands for the blanks that trimming took from its end. -/
theorem atTop_behind_trim {piece : Text} (top : (Scan.behind {} piece).atTop) :
    (Scan.behind {} (piece.trim ++ [' '])).atTop := by
  obtain ⟨front, back, whole, before, behind⟩ := exists_trim piece
  have start : Scan.behind {} front = {} :=
    behind_of_isUncounted (fun c member => isUncounted_of_isBlank (before c member)) rfl
  rw [whole, behind_append, start, behind_append] at top
  rw [behind_append, behind_of_isBlank _ isBlank_of_mem_space (List.cons_ne_nil _ _)]
  -- If trimming took blanks from the end, they left the scan as the one blank does.
  by_cases empty : back = []
  · rw [empty] at top
    have ended : Scan.behind {} piece.trim = {} := eq_start_of_atTop top
    rw [ended]
    rfl
  · rwa [behind_of_isBlank _ behind empty] at top

/-- A character that separates nothing goes to the last piece of the text before it. -/
theorem exists_piecesBehind_concat (front text : Text) {c : Char} (other : c ≠ ',') :
    ∃ before last, piecesBehind front text = before ++ [last]
      ∧ piecesBehind front (text ++ [c]) = before ++ [last ++ [c]] := by
  induction text generalizing front with
  | nil => exact ⟨[], [], rfl, by simp [piecesBehind, other]⟩
  | cons d text ih =>
    obtain ⟨before, last, one, two⟩ := ih (front ++ [d])
    rw [List.cons_append, piecesBehind, piecesBehind, one, two]
    -- Whether a comma separates depends on what stands in front of it only.
    by_cases here : d = ',' ∧ SeparatesBehind front
    · rw [if_pos here, if_pos here]
      exact ⟨[] :: before, last, rfl, rfl⟩
    · rw [if_neg here, if_neg here]
      cases before with
      | nil => exact ⟨[], d :: last, rfl, rfl⟩
      | cons piece before => exact ⟨(d :: piece) :: before, last, rfl, rfl⟩

theorem tokens_eq_patterns (text : Text) : tokens text = patterns text := Cursor.tokens_eq_ahead _

/-- Blanks behind a list belong to no token. -/
theorem tokens_append_blank {gap : Text} (blank : ∀ c ∈ gap, Text.isBlank c) (text : Text) :
    tokens (text ++ gap) = tokens text := by
  induction gap generalizing text with
  | nil => rw [List.append_nil]
  | cons c gap ih =>
    rw [List.forall_mem_cons] at blank
    have other : c ≠ ',' := by
      rintro rfl
      exact absurd blank.1 (by decide)
    obtain ⟨before, last, one, two⟩ := exists_piecesBehind_concat [] text other
    rw [List.append_cons, ih blank.2, tokens_eq_patterns, tokens_eq_patterns, patterns, pieces, two,
      List.map_append, List.map_singleton, trim_concat_blank last blank.1, ← List.map_singleton,
      ← List.map_append, ← one, ← pieces, ← patterns]

/-- Blanks in front of a list belong to no token. -/
theorem tokens_blank_append {gap : Text} (blank : ∀ c ∈ gap, Text.isBlank c) (text : Text) :
    tokens (gap ++ text) = tokens text := by
  induction gap with
  | nil => rfl
  | cons c gap ih =>
    rw [List.forall_mem_cons] at blank
    have other : c ≠ ',' := by
      rintro rfl
      exact absurd blank.1 (by decide)
    have start : Scan.behind {} [c] = Scan.behind {} [] :=
      @pass_of_isUncounted {} c (isUncounted_of_isBlank blank.1) rfl
    rw [List.cons_append, ← ih blank.2, tokens_eq_patterns, tokens_eq_patterns, patterns, patterns, pieces,
      piecesBehind, if_neg fun here => other here.1, List.nil_append, piecesBehind_congr start, ← pieces]
    cases pieces (gap ++ text) with
    | nil => rfl
    | cons piece others => rw [List.modifyHead_cons, List.map_cons, List.map_cons, trim_blank blank.1]

end Blanks

section Commas

/-- A separating comma cuts the pieces of a text into those before it and those behind it. -/
theorem piecesBehind_append {front text : Text} (separates : SeparatesBehind (front ++ text)) (later : Text) :
    piecesBehind front (text ++ ',' :: later) = piecesBehind front text ++ pieces later := by
  induction text generalizing front with
  | nil =>
    rw [List.append_nil] at separates
    -- The scan is at its start again behind the comma.
    have start : Scan.behind {} (front ++ [',']) = Scan.behind {} [] := by
      rw [behind_append, eq_start_of_atTop ((atTop_behind_iff front).mpr separates)]
      rfl
    simp only [List.nil_append, piecesBehind, separates, and_self, if_true, piecesBehind_congr start]
    rfl
  | cons c text ih =>
    rw [List.append_cons] at separates
    rw [List.cons_append, piecesBehind, piecesBehind, ih separates]
    split
    · rfl
    -- The character goes to the first piece, and there is one in front of the comma.
    · obtain ⟨before, last, filled, -⟩ := exists_piecesBehind_concat (front ++ [c]) text (c := ' ') (by decide)
      rw [filled]
      cases before <;> rfl

/-- The tokens of a list are those before a separating comma and those behind it. -/
theorem tokens_append_comma {text : Text} (top : (Scan.behind {} text).atTop) (later : Text) :
    tokens (text ++ ',' :: later) = tokens text ++ tokens later := by
  have split : pieces (text ++ ',' :: later) = pieces text ++ pieces later :=
    @piecesBehind_append [] text ((atTop_behind_iff text).mp top) later
  rw [tokens_eq_patterns, tokens_eq_patterns, tokens_eq_patterns, patterns, split, List.map_append,
    List.filter_append]
  rfl

/-- Where the scan of a list stands outside every group and behind no backslash, a comma cuts the list in two,
whatever blanks stand around it. So blanks around such a comma make no difference to the combined glob. -/
theorem cuts_at_comma {front gap gap' : Text} (top : (Scan.behind {} front).atTop)
    (blank : ∀ c ∈ gap, Text.isBlank c) (blank' : ∀ c ∈ gap', Text.isBlank c) (back : Text) :
    tokens (front ++ gap ++ ',' :: (gap' ++ back)) = tokens front ++ tokens back
      ∧ ∀ folders, Anchoring.anchor folders (front ++ gap ++ ',' :: (gap' ++ back))
        = Anchoring.anchor folders (front ++ ',' :: back) := by
  have cut : tokens (front ++ gap ++ ',' :: (gap' ++ back)) = tokens front ++ tokens back := by
    rw [tokens_append_comma (atTop_append_blank top blank), tokens_append_blank blank,
      tokens_blank_append blank']
  refine ⟨cut, fun folders => ?_⟩
  rw [Anchoring.anchor, Anchoring.anchor, cut, tokens_append_comma top]

theorem cuts_at_comma_closers :
    (Scan.behind {} "\x7da\\(".toList).atTop ∧ (∀ c ∈ ['\t', ' '], Text.isBlank c)
      ∧ (∀ c ∈ ['\u2003'], Text.isBlank c)
      ∧ tokens ("\x7da\\(".toList ++ ['\t', ' '] ++ ',' :: (['\u2003'] ++ "\x7by,z".toList))
        = ["\x7da\\(".toList, "\x7by,z".toList]
      ∧ ∀ folders, Anchoring.anchor folders
          ("\x7da\\(".toList ++ ['\t', ' '] ++ ',' :: (['\u2003'] ++ "\x7by,z".toList))
        = Anchoring.anchor folders ("\x7da\\(".toList ++ ',' :: "\x7by,z".toList) := by
  have top : (Scan.behind {} "\x7da\\(".toList).atTop := by decide +kernel
  have blank : ∀ c ∈ ['\t', ' '], Text.isBlank c :=
    List.forall_mem_cons.mpr ⟨by decide, List.forall_mem_singleton.mpr (by decide)⟩
  have blank' : ∀ c ∈ ['\u2003'], Text.isBlank c := List.forall_mem_singleton.mpr (by decide)
  have found : tokens "\x7da\\(".toList ++ tokens "\x7by,z".toList
      = ["\x7da\\(".toList, "\x7by,z".toList] := by decide +kernel
  obtain ⟨cut, anchored⟩ := cuts_at_comma top blank blank' "\x7by,z".toList
  exact ⟨top, blank, blank', cut.trans found, anchored⟩

end Commas

section Tokens

theorem cut_of_isPiece {scan : Scan} {piece : Text} (whole : IsPiece scan piece) :
    cut scan piece = (piece, none) := by
  induction piece generalizing scan with
  | nil => rfl
  | cons c piece ih =>
    have together : scan.separates c = false := by
      by_cases comma : c = ','
      · subst comma
        exact whole [] piece rfl
      · simp [Scan.separates, comma]
    have rest : IsPiece (scan.pass c) piece := fun front back split =>
      whole (c :: front) back (by rw [split]; rfl)
    rw [cut, together, ih rest]
    rfl

theorem atTop_of_cut {scan : Scan} {text piece rest : Text} (found : cut scan text = (piece, some rest)) :
    (scan.behind piece).atTop := by
  induction text generalizing scan piece with
  | nil => cases found
  | cons c text ih =>
    rw [cut] at found
    split at found
    · next here =>
      obtain ⟨rfl, -⟩ := Prod.mk.inj found
      exact (Bool.and_eq_true_iff.mp here).2
    · obtain ⟨rfl, later⟩ := Prod.mk.inj found
      have inner : cut (scan.pass c) text = ((cut (scan.pass c) text).1, some rest) := Prod.ext rfl later
      have top := ih inner
      exact top

/-- What the first token of a text is, and how it ends if other text follows it. -/
theorem ends_of_firstToken? {text token : Text} {later : Option Text}
    (found : firstToken? text = some (token, later)) :
    token.trim = token ∧ (later.isSome → (Scan.behind {} (token ++ [' '])).atTop) := by
  fun_induction firstToken? text with
  | case1 => cases found
  | case2 _ _ _ _ _ _ ih => exact ih found
  | case3 text piece rest cutAt filled =>
    obtain ⟨rfl, rfl⟩ := Prod.mk.inj (Option.some.inj found)
    refine ⟨trim_trim piece, fun some => ?_⟩
    obtain ⟨rest, rfl⟩ := Option.isSome_iff_exists.mp some
    exact atTop_behind_trim (atTop_of_cut cutAt)

/-- A trimmed text in which no comma separates is a list of one token. -/
theorem tokens_of_isPiece {token : Text} (whole : IsPiece {} token) (trimmed : token.trim = token)
    (filled : token ≠ []) : tokens token = [token] := by
  rw [tokens_eq_patterns, patterns_of_cut (cut_of_isPiece whole), trimmed]
  simp [Text.isBlankText, trimmed, filled]

/-- The next token of a cursor is a list of one token. If others follow, a comma behind the token and a blank
separates. -/
theorem step_of_next? {cursor later : Cursor} {token : Text} (found : cursor.next? = some (token, later)) :
    tokens token = [token] ∧ (later.tokens ≠ [] → (Scan.behind {} (token ++ [' '])).atTop) := by
  simp only [Cursor.next?, Option.bind_eq_some_iff, Option.map_eq_some_iff, Prod.exists] at found
  obtain ⟨text, -, _, rest, first, same⟩ := found
  obtain ⟨rfl, rfl⟩ := Prod.mk.inj same
  obtain ⟨whole, filled⟩ := piece_of_firstToken? first
  obtain ⟨trimmed, separates⟩ := ends_of_firstToken? first
  refine ⟨tokens_of_isPiece whole trimmed filled, fun others => separates ?_⟩
  cases rest with
  | none => exact absurd (Cursor.tokens_eq_ahead _) others
  | some => rfl

/-- Each token of a cursor is a list of one token, and in front of another one a comma behind the token and a
blank separates. -/
theorem steps_of_cursor (cursor : Cursor) :
    (∀ token ∈ cursor.tokens, tokens token = [token])
      ∧ ∀ token ∈ cursor.tokens.dropLast, (Scan.behind {} (token ++ [' '])).atTop := by
  fun_induction Cursor.tokens cursor with
  | case1 => simp
  | case2 cursor token later found ih =>
    obtain ⟨single, separates⟩ := step_of_next? found
    refine ⟨List.forall_mem_cons.mpr ⟨single, ih.1⟩, ?_⟩
    cases others : later.tokens with
    | nil => simp
    | cons next more =>
      rw [others] at ih
      exact List.forall_mem_cons.mpr ⟨separates (by simp [others]), ih.2⟩

/-- Texts that are lists of one token are the tokens of the list that commas make of them, if each comma
separates. -/
theorem tokens_intercalate_of_single {gap gap' : Text} (blank : ∀ c ∈ gap, Text.isBlank c)
    (blank' : ∀ c ∈ gap', Text.isBlank c) {texts : List Text} (single : ∀ text ∈ texts, tokens text = [text])
    (top : ∀ text ∈ texts.dropLast, (Scan.behind {} (text ++ gap)).atTop) :
    tokens ((gap ++ ',' :: gap').intercalate texts) = texts := by
  induction texts with
  | nil => exact tokens_nil
  | cons text others ih =>
    obtain ⟨alone, rest⟩ := List.forall_mem_cons.mp single
    cases others with
    | nil => rw [List.intercalate_singleton, alone]
    | cons next others =>
      obtain ⟨here, later⟩ := List.forall_mem_cons.mp top
      have joined : (gap ++ ',' :: gap').intercalate (text :: next :: others)
          = text ++ gap ++ ',' :: (gap' ++ (gap ++ ',' :: gap').intercalate (next :: others)) := by
        rw [List.intercalate_cons_cons]
        simp
      -- The first comma separates, and the blanks on both sides of it belong to no token.
      rw [joined, tokens_append_comma here, tokens_append_blank blank, alone, tokens_blank_append blank',
        ih rest later]
      rfl

/-- Words with commas between them are the tokens of the list. -/
theorem tokens_intercalate {words : List Text} (plain : ∀ word ∈ words, IsWord word) :
    tokens ([',', ' '].intercalate words) = words := by
  refine tokens_intercalate_of_single (List.forall_mem_nil _) isBlank_of_mem_space (fun word member => ?_)
    fun word member => ?_
  · obtain ⟨nonempty, trimmed, uncounted⟩ := plain word member
    refine tokens_of_isPiece (fun front back whole => ?_) trimmed nonempty
    exact absurd rfl (uncounted ',' (by simp [whole])).2
  · have counted := (plain word (List.mem_of_mem_dropLast member)).uncounted
    rw [List.append_nil, behind_of_isUncounted (fun c inside => (counted c inside).1) rfl]
    rfl

/-- The tokens of a list are found again one by one, and all together between commas that have a blank on
each side. -/
theorem tokens_of_tokens (text : Text) :
    (∀ token ∈ tokens text, tokens token = [token])
      ∧ tokens ([' ', ',', ' '].intercalate (tokens text)) = tokens text := by
  obtain ⟨single, top⟩ := steps_of_cursor (Cursor.start text)
  exact ⟨single, tokens_intercalate_of_single isBlank_of_mem_space isBlank_of_mem_space single top⟩

theorem tokens_of_tokens_trimmed_guard :
    tokens "a\\ ,b)) ,\x7bx, y".toList = ["a\\".toList, "b))".toList, "\x7bx, y".toList]
      ∧ tokens "a\\".toList = ["a\\".toList]
      ∧ tokens "a\\ , b)) , \x7bx, y".toList = tokens "a\\ ,b)) ,\x7bx, y".toList := by
  have found : tokens "a\\ ,b)) ,\x7bx, y".toList = ["a\\".toList, "b))".toList, "\x7bx, y".toList] := by
    decide +kernel
  obtain ⟨single, again⟩ := tokens_of_tokens "a\\ ,b)) ,\x7bx, y".toList
  rw [found] at single again
  exact ⟨found, single _ List.mem_cons_self, by rw [found]; exact again⟩

end Tokens

end RootedGlob.PatternList
