import RootedGlob.PatternList
import RootedGlob.Proofs.Brace.Plain
import Mathlib.Data.List.Infix

/-!
# Tokens of a pattern list

Every token is a trimmed piece of the list in which no comma separates (`piece_of_mem_tokens`). If it
has balanced braces and nothing else that a scan of the list counts, its commas therefore stand inside
its groups, and expansion reads it as one sealed piece (`isSealed_of_mem_tokens`).
-/

namespace RootedGlob.PatternList

/-- The state of a scan behind a text. -/
def Scan.behind (scan : Scan) (text : Text) : Scan := text.foldl Scan.pass scan

/-- A text in which no comma separates patterns. -/
def IsPiece (scan : Scan) (piece : Text) : Prop :=
  ∀ front back, piece = front ++ ',' :: back → (scan.behind front).atTop = false

theorem isPiece_of_cut {scan : Scan} {text piece : Text} {later : Option Text}
    (found : cut scan text = (piece, later)) : IsPiece scan piece := by
  induction text generalizing scan piece with
  | nil =>
    obtain ⟨rfl, -⟩ := Prod.mk.inj found
    intro front back whole
    simp at whole
  | cons c text ih =>
    rw [cut] at found
    split at found
    · obtain ⟨rfl, -⟩ := Prod.mk.inj found
      intro front back whole
      simp at whole
    · next together =>
      obtain ⟨rfl, behind⟩ := Prod.mk.inj found
      intro front back whole
      -- No comma of the piece separates: the first character does not, and the later ones are in the
      -- rest of the cut.
      cases front with
      | nil =>
        obtain ⟨rfl, -⟩ := List.cons.inj whole
        simpa [Scan.separates, Scan.behind] using together
      | cons d front =>
        obtain ⟨rfl, rest⟩ := List.cons.inj whole
        exact ih (Prod.ext rfl behind) front back rest

/-- A character that a scan does not count. -/
def isUncounted (c : Char) : Bool :=
  c != '\\' && c != '(' && c != ')' && c != '[' && c != ']' && c != '{' && c != '}'

theorem pass_of_isUncounted {scan : Scan} {c : Char} (uncounted : isUncounted c)
    (unescaped : scan.escaped = false) : scan.pass c = scan := by
  simp only [isUncounted, Bool.and_eq_true, bne_iff_ne] at uncounted
  simp [Scan.pass, unescaped, uncounted]

theorem behind_of_isUncounted {scan : Scan} {text : Text} (uncounted : ∀ c ∈ text, isUncounted c)
    (unescaped : scan.escaped = false) : scan.behind text = scan := by
  induction text with
  | nil => rfl
  | cons c text ih =>
    rw [Scan.behind, List.foldl_cons,
      pass_of_isUncounted (uncounted c List.mem_cons_self) unescaped]
    exact ih fun d member => uncounted d (List.mem_cons_of_mem _ member)

theorem isUncounted_of_isBlank {c : Char} (blank : Text.isBlank c) : isUncounted c := by
  simp only [isUncounted, Bool.and_eq_true, bne_iff_ne]
  refine ⟨⟨⟨⟨⟨⟨?_, ?_⟩, ?_⟩, ?_⟩, ?_⟩, ?_⟩, ?_⟩ <;> rintro rfl <;> exact absurd blank (by decide)

/-- A trimmed text is the text without some blank characters at both ends. -/
theorem exists_trim (text : Text) :
    ∃ front back, text = front ++ (text.trim ++ back) ∧ (∀ c ∈ front, Text.isBlank c)
      ∧ ∀ c ∈ back, Text.isBlank c := by
  refine ⟨text.takeWhile Text.isBlank, ((Text.trimStart text).reverse.takeWhile Text.isBlank).reverse,
    ?_, List.all_eq_true.mp List.all_takeWhile,
    fun c member => List.all_eq_true.mp List.all_takeWhile c (List.mem_reverse.mp member)⟩
  have tail : Text.trim text ++ ((Text.trimStart text).reverse.takeWhile Text.isBlank).reverse
      = Text.trimStart text := by
    rw [Text.trim, Text.trimEnd, ← List.reverse_append, List.takeWhile_append_dropWhile,
      List.reverse_reverse]
  rw [tail, Text.trimStart, List.takeWhile_append_dropWhile]

/-- Trimming takes no comma out of its group. -/
theorem IsPiece.trim {piece : Text} (whole : IsPiece {} piece) : IsPiece {} piece.trim := by
  obtain ⟨before, behind, same, blank, -⟩ := exists_trim piece
  intro front back split
  have found := whole (before ++ front) (back ++ behind) (by rw [same, split]; simp)
  rw [Scan.behind, List.foldl_append] at found
  have start : before.foldl Scan.pass {} = {} :=
    behind_of_isUncounted (fun c inside => isUncounted_of_isBlank (blank c inside)) rfl
  rwa [start] at found

theorem isBlank_of_isBlankText {text : Text} (blank : Text.isBlankText text) :
    ∀ c ∈ text, Text.isBlank c := by
  obtain ⟨front, back, same, before, behind⟩ := exists_trim text
  rw [Text.isBlankText, List.isEmpty_iff] at blank
  rw [blank] at same
  intro c member
  rw [same] at member
  rcases List.mem_append.mp member with inside | inside
  · exact before c inside
  · exact behind c inside

theorem isBlankText_of_mem {text : Text} {c : Char} (member : c ∈ text) (solid : ¬ Text.isBlank c) :
    Text.isBlankText text = false := by
  by_contra blank
  exact solid (isBlank_of_isBlankText (by simpa using blank) c member)

theorem piece_of_firstToken? {text token : Text} {later : Option Text}
    (found : firstToken? text = some (token, later)) : IsPiece {} token ∧ token ≠ [] := by
  fun_induction firstToken? text with
  | case1 => simp at found
  | case2 _ _ _ _ _ _ ih => exact ih found
  | case3 text piece rest cutAt filled =>
    obtain ⟨rfl, -⟩ := Prod.mk.inj (Option.some.inj found)
    refine ⟨(isPiece_of_cut cutAt).trim, ?_⟩
    simpa [Text.isBlankText] using filled

theorem piece_of_mem_tokens {list token : Text} (member : token ∈ tokens list) :
    IsPiece {} token ∧ token ≠ [] := by
  rw [tokens] at member
  generalize Cursor.start list = cursor at member
  fun_induction Cursor.tokens cursor with
  | case1 => simp at member
  | case2 cursor first later found ih =>
    rcases List.mem_cons.mp member with rfl | member
    · simp only [Cursor.next?, Option.bind_eq_some_iff, Option.map_eq_some_iff, Prod.exists] at found
      obtain ⟨text, _, _, rest, next, same⟩ := found
      obtain ⟨rfl, -⟩ := Prod.mk.inj same
      exact piece_of_firstToken? next
    · exact ih member

/-- Braces that are closed in the order in which they are opened. -/
structure IsBalanced (text : Text) : Prop where
  neverBelow : ∀ front, front <+: text → front.count '}' ≤ front.count '{'
  total : text.count '{' = text.count '}'

instance (text : Text) : Decidable (IsBalanced text) :=
  decidable_of_iff ((∀ front ∈ text.inits, front.count '}' ≤ front.count '{')
      ∧ text.count '{' = text.count '}')
    ⟨fun ⟨neverBelow, total⟩ => ⟨fun front before => neverBelow front ((List.mem_inits _ _).mpr before),
      total⟩,
    fun balanced => ⟨fun front member => balanced.neverBelow front ((List.mem_inits _ _).mp member),
      balanced.total⟩⟩

/-- A text with nothing that a scan counts but braces. -/
def IsBraced (text : Text) : Prop := ∀ c ∈ text, c ∉ ['[', ']', '(', ')', '\\']

instance (text : Text) : Decidable (IsBraced text) :=
  List.decidableBAll _ text

theorem IsBraced.cases {text : Text} (braced : IsBraced text) {c : Char} (member : c ∈ text) :
    isUncounted c ∨ c = '{' ∨ c = '}' := by
  have absent := braced c member
  simp only [List.mem_cons, List.not_mem_nil, or_false, not_or] at absent
  by_cases opening : c = '{'
  · exact .inr (.inl opening)
  · by_cases closing : c = '}'
    · exact .inr (.inr closing)
    · exact .inl (by simp [isUncounted, absent, opening, closing])

theorem IsBraced.unguarded {text : Text} (braced : IsBraced text) : Brace.IsUnguarded text := by
  constructor
  · intro member
    exact absurd (braced _ member) (by decide)
  · intro member
    exact absurd (braced _ member) (by decide)

/-- The rest of a token, read inside some groups: it closes them, and its commas stand in groups. -/
theorem isSealed_of_isPiece {depth : Nat} {text : Text} (braced : IsBraced text)
    (neverBelow : ∀ front, front <+: text → front.count '}' ≤ depth + front.count '{')
    (total : depth + text.count '{' = text.count '}')
    (piece : IsPiece { braces := depth } text) : Brace.isSealed depth (Brace.lex text) := by
  induction text generalizing depth with
  | nil =>
    have closed : depth = 0 := by simpa using total
    rw [closed, Brace.lex]
    rfl
  | cons c text ih =>
    have rest : IsBraced text := fun d member => braced d (List.mem_cons_of_mem _ member)
    have below (front : Text) (before : front <+: text) :=
      neverBelow (c :: front) (List.cons_prefix_cons.mpr ⟨rfl, before⟩)
    have inner : IsPiece (Scan.pass { braces := depth } c) text := fun front back whole =>
      piece (c :: front) back (by rw [whole]; rfl)
    obtain ⟨-, unguarded⟩ := Brace.isUnguarded_cons.mp braced.unguarded
    rw [Brace.lex_of_isUnguarded braced.unguarded, List.map_cons,
      ← Brace.lex_of_isUnguarded unguarded]
    -- The scan and expansion count braces alike as long as no brace is closed too much.
    rcases braced.cases List.mem_cons_self with uncounted | rfl | rfl
    · rw [pass_of_isUncounted uncounted rfl] at inner
      simp only [isUncounted, Bool.and_eq_true, bne_iff_ne] at uncounted
      simp only [List.count_cons, uncounted, beq_iff_eq, if_false, Nat.add_zero] at below total
      have later := ih rest below total inner
      by_cases comma : c = ','
      · subst comma
        have inside := piece [] text rfl
        have deep : depth ≠ 0 := by
          rintro rfl
          exact absurd inside (by decide)
        simp [Brace.Lexeme.ofChar, Brace.isSealed, deep, later]
      · simpa [Brace.Lexeme.ofChar, uncounted, comma, Brace.isSealed] using later
    · refine ih rest ?_ ?_ inner
      · intro front before
        have := below front before
        simp at this
        omega
      · simp at total
        omega
    · have deep : 1 ≤ depth := by simpa using below [] (List.nil_prefix)
      have later : Brace.isSealed (depth - 1) (Brace.lex text) := by
        refine ih rest ?_ ?_ inner
        · intro front before
          have := below front before
          simp at this
          omega
        · simp at total
          omega
      have positive : depth ≠ 0 := by omega
      simp [Brace.Lexeme.ofChar, Brace.isSealed, positive, later]

theorem isSealed_of_mem_tokens {list token : Text} (member : token ∈ tokens list)
    (braced : IsBraced token) (balanced : IsBalanced token) :
    Brace.isSealed 0 (Brace.lex token) :=
  isSealed_of_isPiece braced (by simpa using balanced.neverBelow) (by simpa using balanced.total)
    (piece_of_mem_tokens member).1

/-- A token without anything that a scan counts, and without commas. -/
structure IsWord (token : Text) : Prop where
  nonempty : token ≠ []
  trimmed : token.trim = token
  uncounted : ∀ c ∈ token, isUncounted c ∧ c ≠ ','

theorem trim_blank {text : Text} {c : Char} (blank : Text.isBlank c) :
    Text.trim (c :: text) = text.trim := by
  rw [Text.trim, Text.trimStart, List.dropWhile_cons_of_pos blank, ← Text.trimStart, ← Text.trim]

theorem tokens_nil : tokens [] = [] := by
  decide +kernel

end RootedGlob.PatternList
