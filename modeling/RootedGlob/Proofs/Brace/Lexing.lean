import RootedGlob.Brace.Group
import Mathlib.Data.List.Basic

/-!
# Pieces of a lexed pattern

Lexemes are genuine if reading their sources gives them back. Lexemes read from a text are genuine,
but a piece of them need not be: without the text behind it an escape or a class may lose its end.
At a mark nothing is lost. Genuine lexemes stay genuine when the text from some mark on is replaced
by a later part of itself (`genuine_of_cut`), which is what an expansion does with the rest of a
group; and genuine pieces can be put together when none of them leaves an escape or a class open
(`genuine_append`).
-/

namespace RootedGlob.Brace

/-- Whether the lexemes are those of the text that they are the sources of. -/
def Genuine (lexemes : List Lexeme) : Prop := lex (sources lexemes) = lexemes

instance (lexemes : List Lexeme) : Decidable (Genuine lexemes) :=
  inferInstanceAs (Decidable (lex (sources lexemes) = lexemes))

theorem genuine_nil : Genuine [] := by rw [Genuine, sources_nil, lex]

theorem genuine_lex (text : Text) : Genuine (lex text) := by rw [Genuine, sources_lex]

theorem sources_append (first second : List Lexeme) :
    sources (first ++ second) = sources first ++ sources second := List.flatMap_append

/-- Lexemes that are read without regard to the text around them. -/
def Lexeme.isMark : Lexeme → Bool
  | literal _ => false
  | _ => true

theorem lex_cons (c : Char) (rest : Text) :
    lex (c :: rest) = (lexeme c rest).1 :: lex (lexeme c rest).2 := by rw [lex]

theorem cutAt?_eq_none_iff {mark : Char} {text : Text} :
    Text.cutAt? mark text = none ↔ mark ∉ text := by
  induction text with
  | nil => simp [Text.cutAt?]
  | cons c text ih =>
    by_cases same : c = mark
    · simp [Text.cutAt?, same]
    · simp [Text.cutAt?, same, ih, Ne.symm same]

theorem cutAt?_eq_some_iff {mark : Char} {text before behind : Text} :
    Text.cutAt? mark text = some (before, behind)
      ↔ text = before ++ mark :: behind ∧ mark ∉ before := by
  constructor
  · intro found
    refine ⟨Text.eq_of_cutAt? found, ?_⟩
    induction text generalizing before with
    | nil => simp [Text.cutAt?] at found
    | cons c text ih =>
      simp only [Text.cutAt?] at found
      split at found
      · simp only [Option.some.injEq, Prod.mk.injEq] at found
        simp [← found.1]
      · next other =>
        simp only [Option.map_eq_some_iff, Prod.exists, Prod.mk.injEq] at found
        obtain ⟨inner, rest, cutAt, rfl, rfl⟩ := found
        simp [ih cutAt, Ne.symm other]
  · rintro ⟨rfl, absent⟩
    induction before with
    | nil => simp [Text.cutAt?]
    | cons c before ih =>
      simp only [List.mem_cons, not_or] at absent
      simp [Text.cutAt?, Ne.symm absent.1, ih absent.2]

/-- Two characters decide what a class starts with. -/
theorem classLead_append (c d : Char) (text more : Text) :
    classLead (c :: d :: text ++ more)
      = ((classLead (c :: d :: text)).1, (classLead (c :: d :: text)).2 ++ more) := by
  by_cases sign : c = '!' ∨ c = '^'
  · by_cases closing : d = ']' <;> rcases sign with rfl | rfl <;> simp [classLead, closing]
  · rw [not_or] at sign
    by_cases closing : c = ']' <;> simp [classLead, sign, closing]

/-- A class does not end in a text that has no closing bracket behind the beginning of the class. -/
theorem cutClass?_eq_none_iff {text : Text} :
    cutClass? text = none ↔ ']' ∉ (classLead text).2 := by
  rw [cutClass?, Option.map_eq_none_iff, cutAt?_eq_none_iff]

theorem cutClass?_eq_some_iff {text body later : Text} :
    cutClass? text = some (body, later) ↔
      ∃ inner, body = (classLead text).1 ++ inner ++ [']']
        ∧ (classLead text).2 = inner ++ ']' :: later ∧ ']' ∉ inner := by
  simp only [cutClass?, Option.map_eq_some_iff, Prod.exists, Prod.mk.injEq, cutAt?_eq_some_iff]
  constructor
  · rintro ⟨inner, _, ⟨rest, absent⟩, rfl, rfl⟩
    exact ⟨inner, rfl, rest, absent⟩
  · rintro ⟨inner, rfl, rest, absent⟩
    exact ⟨inner, later, ⟨rest, absent⟩, rfl, rfl⟩

/-- Where a class ends does not depend on the text behind it. -/
theorem cutClass?_body {body later : Text} (found : cutClass? (body ++ later) = some (body, later))
    (other : Text) : cutClass? (body ++ other) = some (body, other) := by
  obtain ⟨inner, whole, rest, absent⟩ := cutClass?_eq_some_iff.mp found
  -- The sign and the first member are in the first two characters, and a class has at least two.
  match body with
  | [] => exact absurd whole.symm (by simp)
  | [c] =>
    have short := congrArg List.length whole
    simp only [List.length_append, List.length_cons, List.length_nil] at short
    have lead : (classLead ([c] ++ later)).1 = [] := List.length_eq_zero_iff.mp (by omega)
    have empty : inner = [] := List.length_eq_zero_iff.mp (by omega)
    simp only [lead, empty, List.append_nil, List.nil_append, List.cons.injEq] at whole
    exact absurd lead (by simp [whole.1, classLead])
  | c :: d :: body =>
    rw [classLead_append] at whole rest
    have split : (classLead (c :: d :: body)).2 ++ later = inner ++ [']'] ++ later := by
      simpa using rest
    have behind := List.append_cancel_right split
    refine cutClass?_eq_some_iff.mpr ⟨inner, ?_, ?_, absent⟩
    · rw [classLead_append]
      exact whole
    · rw [classLead_append, behind]
      simp

theorem not_mem_classLead {text : Text} (absent : ']' ∉ text) : ']' ∉ (classLead text).2 := by
  intro member
  rw [← append_classLead text] at absent
  exact absent (List.mem_append_right _ member)

/-- A class that does not end keeps open when a part of the text is left out that starts with a
character of no meaning in classes. -/
theorem cutClass?_cut {front skipped back : Text} {mark : Char}
    (plain : mark ≠ '!' ∧ mark ≠ '^' ∧ mark ≠ ']')
    (unended : cutClass? (front ++ mark :: skipped ++ back) = none) :
    cutClass? (front ++ back) = none := by
  rw [cutClass?_eq_none_iff] at unended ⊢
  -- Only a sign and the first member matter in front, so two characters tell the cases apart.
  match front with
  | [] =>
    apply not_mem_classLead
    simp_all [classLead]
  | [c] =>
    by_cases closing : c = ']'
    · simp_all [classLead]
    · apply not_mem_classLead
      by_cases sign : c = '!' ∨ c = '^'
      · rcases sign with rfl | rfl <;> simp_all [classLead]
      · rw [not_or] at sign
        simp_all [classLead]
  | c :: d :: front =>
    rw [List.append_assoc, classLead_append] at unended
    rw [classLead_append]
    simp_all

/-- A class that does not end has no closing bracket behind a character of no meaning in classes. -/
theorem not_mem_of_cutClass? {front back : Text} {mark : Char}
    (plain : mark ≠ '!' ∧ mark ≠ '^' ∧ mark ≠ ']')
    (unended : cutClass? (front ++ mark :: back) = none) : ']' ∉ back := by
  rw [cutClass?_eq_none_iff] at unended
  match front with
  | [] => simp_all [classLead]
  | [c] =>
    by_cases closing : c = ']'
    · simp_all [classLead]
    · by_cases sign : c = '!' ∨ c = '^'
      · rcases sign with rfl | rfl <;> simp_all [classLead]
      · rw [not_or] at sign
        simp_all [classLead]
  | c :: d :: front =>
    rw [classLead_append] at unended
    simp_all

/-- A class that does not end keeps open in front of a text without closing brackets. -/
theorem cutClass?_open {front back : Text} (unended : cutClass? front = none)
    (absent : ']' ∉ back) : cutClass? (front ++ back) = none := by
  rw [cutClass?_eq_none_iff] at unended ⊢
  match front with
  | [] => exact not_mem_classLead absent
  | [c] =>
    by_cases closing : c = ']'
    · simp_all [classLead]
    · apply not_mem_classLead
      simp [Ne.symm closing, absent]
  | c :: d :: front =>
    rw [classLead_append]
    simp_all

/-- The lexemes that a scan can find in front of a text. A backslash that guards nothing ends the
text, and a bracket by itself opens no class in the text behind it. -/
inductive Stands : Lexeme → Text → Prop
  | opening (later : Text) : Stands .opening later
  | comma (later : Text) : Stands .comma later
  | closing (later : Text) : Stands .closing later
  | plain {c : Char} (ordinary : c ≠ '{' ∧ c ≠ ',' ∧ c ≠ '}' ∧ c ≠ '\\' ∧ c ≠ '[') (later : Text) :
      Stands (.literal [c]) later
  | escape (c : Char) (later : Text) : Stands (.literal ['\\', c]) later
  | dangling : Stands (.literal ['\\']) []
  | bracket {later : Text} (unended : cutClass? later = none) : Stands (.literal ['[']) later
  | charClass {body later : Text} (ended : cutClass? (body ++ later) = some (body, later)) :
      Stands (.literal ('[' :: body)) later

theorem stands_lexeme (c : Char) (rest : Text) : Stands (lexeme c rest).1 (lexeme c rest).2 := by
  unfold lexeme
  split
  · exact .opening _
  · exact .comma _
  · exact .closing _
  · split
    · exact .dangling
    · exact .escape _ _
  · split
    · next unended => exact .bracket unended
    · next body later found =>
      apply Stands.charClass
      rwa [append_of_cutClass? found]
  · apply Stands.plain
    simp_all

theorem lexeme_of_stands {lexeme : Lexeme} {later : Text} (stands : Stands lexeme later) :
    ∃ c rest, lexeme.source ++ later = c :: rest ∧ Brace.lexeme c rest = (lexeme, later) := by
  cases stands with
  | opening => exact ⟨_, _, rfl, rfl⟩
  | comma => exact ⟨_, _, rfl, rfl⟩
  | closing => exact ⟨_, _, rfl, rfl⟩
  | plain ordinary =>
    refine ⟨_, _, rfl, ?_⟩
    unfold Brace.lexeme
    simp_all
  | escape => exact ⟨_, _, rfl, rfl⟩
  | dangling => exact ⟨_, _, rfl, rfl⟩
  | bracket unended => exact ⟨_, _, rfl, by simp [Brace.lexeme, unended]⟩
  | charClass ended => exact ⟨_, _, rfl, by simp [Brace.lexeme, ended]⟩

theorem lex_of_stands {lexeme : Lexeme} {later : Text} (stands : Stands lexeme later) :
    lex (lexeme.source ++ later) = lexeme :: lex later := by
  obtain ⟨c, rest, whole, first⟩ := lexeme_of_stands stands
  rw [whole, lex_cons, first]

theorem lex_opening (rest : Text) : lex ('{' :: rest) = .opening :: lex rest := lex_of_stands (.opening rest)

theorem lex_comma (rest : Text) : lex (',' :: rest) = .comma :: lex rest := lex_of_stands (.comma rest)

theorem lex_closing (rest : Text) : lex ('}' :: rest) = .closing :: lex rest := lex_of_stands (.closing rest)

theorem lex_literal {chunk rest : Text} (stands : Stands (.literal chunk) rest) :
    lex (chunk ++ rest) = .literal chunk :: lex rest := lex_of_stands stands

/-- A text is read lexeme by lexeme. -/
theorem lexing_induction {motive : Text → Prop} (nil : motive [])
    (opening : ∀ rest, motive rest → motive ('{' :: rest))
    (comma : ∀ rest, motive rest → motive (',' :: rest))
    (closing : ∀ rest, motive rest → motive ('}' :: rest))
    (literal : ∀ chunk rest, Stands (.literal chunk) rest → motive rest → motive (chunk ++ rest))
    (text : Text) : motive text := by
  fun_induction lex text with
  | case1 => exact nil
  | case2 c rest ih =>
    have stands := stands_lexeme c rest
    rw [← source_lexeme c rest]
    cases first : (lexeme c rest).1 with
    | opening => exact opening _ ih
    | comma => exact comma _ ih
    | closing => exact closing _ ih
    | literal chunk => exact literal chunk _ (first ▸ stands) ih

/-- The first lexeme is one that a scan finds there, and the others are genuine by themselves. -/
theorem genuine_cons_iff {lexeme : Lexeme} {lexemes : List Lexeme} :
    Genuine (lexeme :: lexemes) ↔ Stands lexeme (sources lexemes) ∧ Genuine lexemes := by
  constructor
  · intro genuine
    cases text : lexeme.source ++ sources lexemes with
    | nil =>
      rw [Genuine, sources_cons, text] at genuine
      simp [lex] at genuine
    | cons c rest =>
      rw [Genuine, sources_cons, text, lex_cons, List.cons.injEq] at genuine
      -- Both ways to cut the text start with the same lexeme, so they have the same rest.
      have same : (Brace.lexeme c rest).2 = sources lexemes := by
        have whole := source_lexeme c rest
        rw [genuine.1, ← text] at whole
        exact List.append_cancel_left whole
      have stands := stands_lexeme c rest
      rw [genuine.1, same] at stands
      refine ⟨stands, ?_⟩
      rw [Genuine, ← same, genuine.2]
  · rintro ⟨stands, genuine⟩
    obtain ⟨c, rest, text, first⟩ := lexeme_of_stands stands
    rw [Genuine, sources_cons, text, lex_cons, first]
    exact congrArg (lexeme :: ·) genuine

theorem Genuine.drop {first second : List Lexeme} (genuine : Genuine (first ++ second)) :
    Genuine second := by
  induction first with
  | nil => exact genuine
  | cons lexeme first ih => exact ih (genuine_cons_iff.mp genuine).2

/-- Marks are single characters of no meaning in classes. -/
theorem source_of_isMark {mark : Lexeme} (isMark : mark.isMark) :
    ∃ c, mark.source = [c] ∧ c ≠ '!' ∧ c ≠ '^' ∧ c ≠ ']' := by
  cases mark with
  | opening => exact ⟨'{', rfl, by decide⟩
  | comma => exact ⟨',', rfl, by decide⟩
  | closing => exact ⟨'}', rfl, by decide⟩
  | literal => simp [Lexeme.isMark] at isMark

/-- Leaving out a part that starts with a mark changes nothing for the lexemes in front of it. -/
theorem genuine_of_cut {front skipped back : List Lexeme} {mark : Lexeme} (isMark : mark.isMark)
    (genuine : Genuine (front ++ mark :: skipped ++ back)) : Genuine (front ++ back) := by
  induction front with
  | nil => exact genuine.drop
  | cons lexeme front ih =>
    simp only [List.cons_append] at genuine ⊢
    obtain ⟨stands, rest⟩ := genuine_cons_iff.mp genuine
    refine genuine_cons_iff.mpr ⟨?_, ih rest⟩
    obtain ⟨c, source, plain⟩ := source_of_isMark isMark
    have text : sources (front ++ mark :: skipped ++ back)
        = sources front ++ c :: sources skipped ++ sources back := by
      simp [sources_append, source]
    rw [text] at stands
    rw [sources_append]
    generalize following : sources front ++ c :: sources skipped ++ sources back = whole at stands
    -- What follows only decides about a backslash and a bracket, and the mark is of no use to either.
    cases stands with
    | opening => exact .opening _
    | comma => exact .comma _
    | closing => exact .closing _
    | plain ordinary => exact .plain ordinary _
    | escape => exact .escape _ _
    | dangling => simp at following
    | bracket unended =>
      subst following
      exact .bracket (cutClass?_cut plain unended)
    | charClass ended => exact .charClass (cutClass?_body ended _)

/-- A backslash that guards nothing, and an open bracket with a closing one behind it, are all that
can go wrong where genuine lexemes are put together. -/
theorem genuine_append {first second : List Lexeme} (one : Genuine first) (two : Genuine second)
    (guarding : .literal ['\\'] ∉ first) (unended : .literal ['['] ∈ first → ']' ∉ sources second) :
    Genuine (first ++ second) := by
  -- What a lexeme stands for depends on what follows it, so each kind is looked at with the longer text
  -- behind it.
  induction first with
  | nil => exact two
  | cons lexeme first ih =>
    obtain ⟨stands, rest⟩ := genuine_cons_iff.mp one
    rw [List.mem_cons, not_or] at guarding
    rw [List.cons_append]
    refine genuine_cons_iff.mpr
      ⟨?_, ih rest guarding.2 fun member => unended (List.mem_cons_of_mem _ member)⟩
    rw [sources_append]
    generalize sources first = following at stands
    cases stands with
    | opening => exact .opening _
    | comma => exact .comma _
    | closing => exact .closing _
    | plain ordinary => exact .plain ordinary _
    | escape => exact .escape _ _
    | dangling => exact absurd rfl guarding.1
    | bracket alone => exact .bracket (cutClass?_open alone (unended List.mem_cons_self))
    | charClass ended => exact .charClass (cutClass?_body ended _)

/-- In front of a mark nothing is left open: no backslash without a character to guard, and no
bracket whose class would end behind the mark. -/
theorem open_of_genuine {front back : List Lexeme} {mark : Lexeme} (isMark : mark.isMark)
    (genuine : Genuine (front ++ mark :: back)) :
    .literal ['\\'] ∉ front ∧ (.literal ['['] ∈ front → ']' ∉ sources back) := by
  induction front with
  | nil => simp
  | cons lexeme front ih =>
    rw [List.cons_append] at genuine
    obtain ⟨stands, rest⟩ := genuine_cons_iff.mp genuine
    obtain ⟨guarding, unended⟩ := ih rest
    obtain ⟨c, source, plain⟩ := source_of_isMark isMark
    have text : sources (front ++ mark :: back) = sources front ++ c :: sources back := by
      simp [sources_append, source]
    rw [text] at stands
    constructor
    · -- A lone backslash stands at the end only, and the mark is behind this one.
      rw [List.mem_cons, not_or]
      refine ⟨?_, guarding⟩
      rintro rfl
      generalize following : sources front ++ c :: sources back = whole at stands
      cases stands with
      | plain ordinary => simp at ordinary
      | dangling => simp at following
    · intro member
      rcases List.mem_cons.mp member with rfl | member
      · generalize following : sources front ++ c :: sources back = whole at stands
        -- A bracket is read as a plain character only if no class ends behind it.
        cases stands with
        | plain ordinary => simp at ordinary
        | bracket alone =>
          subst following
          exact not_mem_of_cutClass? plain alone
        | charClass ended =>
          obtain ⟨inner, whole, -⟩ := cutClass?_eq_some_iff.mp ended
          simp at whole
      · exact unended member

end RootedGlob.Brace
