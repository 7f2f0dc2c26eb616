import RootedGlob.Text

/-!
# Lexemes of a brace pattern

Brace expansion reads a pattern in lexemes: the three marks `{`, `,` and `}`, and literal chunks. A
backslash with the character behind it is one chunk, and so is a whole character class, so no mark
is ever found inside them. A class runs from `[` to the first `]`, except that one `]` standing
directly behind the opening bracket, or behind a `!` or `^` there, belongs to the class; a bracket
without such an end is an ordinary character.

The sources of the lexemes of a text, put together, are the text again (`sources_lex`).
-/

namespace RootedGlob.Brace

inductive Lexeme where
  | opening
  | comma
  | closing
  /-- One character, an escape with the character it guards, or a character class. -/
  | literal (chunk : Text)
deriving DecidableEq, Repr

namespace Lexeme

/-- The text that a lexeme was read from. -/
def source : Lexeme → Text
  | opening => ['{']
  | comma => [',']
  | closing => ['}']
  | literal chunk => chunk

end Lexeme

/-- The text that lexemes were read from. -/
def sources (lexemes : List Lexeme) : Text := lexemes.flatMap Lexeme.source

/-- The characters behind an opening bracket that cannot close its class: a sign of negation and a
closing bracket directly behind it. -/
def classLead : Text → Text × Text
  | '!' :: ']' :: rest => (['!', ']'], rest)
  | '^' :: ']' :: rest => (['^', ']'], rest)
  | ']' :: rest => ([']'], rest)
  | '!' :: rest => (['!'], rest)
  | '^' :: rest => (['^'], rest)
  | rest => ([], rest)

/-- Cuts the text behind an opening bracket at the end of its class. -/
def cutClass? (text : Text) : Option (Text × Text) :=
  let (lead, rest) := classLead text
  (Text.cutAt? ']' rest).map fun (body, later) => (lead ++ body ++ [']'], later)

/-- The first lexeme of a text that starts with `c`, and the text behind it. -/
def lexeme (c : Char) (rest : Text) : Lexeme × Text :=
  match c with
  | '{' => (.opening, rest)
  | ',' => (.comma, rest)
  | '}' => (.closing, rest)
  | '\\' =>
    match rest with
    | [] => (.literal ['\\'], [])
    | guarded :: rest => (.literal ['\\', guarded], rest)
  | '[' =>
    match cutClass? rest with
    | none => (.literal ['['], rest)
    | some (body, later) => (.literal ('[' :: body), later)
  | c => (.literal [c], rest)

theorem append_classLead (text : Text) : (classLead text).1 ++ (classLead text).2 = text := by
  unfold classLead
  split <;> rfl

theorem append_of_cutClass? {text body later : Text}
    (found : cutClass? text = some (body, later)) : body ++ later = text := by
  simp only [cutClass?, Option.map_eq_some_iff, Prod.exists, Prod.mk.injEq] at found
  obtain ⟨inner, rest, cutAt, rfl, rfl⟩ := found
  have whole := append_classLead text
  rw [Text.eq_of_cutAt? cutAt] at whole
  simpa using whole

/-- A lexeme takes its source from the text and nothing else. -/
theorem source_lexeme (c : Char) (rest : Text) :
    (lexeme c rest).1.source ++ (lexeme c rest).2 = c :: rest := by
  unfold lexeme
  split
  · rfl
  · rfl
  · rfl
  · split <;> rfl
  · split
    · rfl
    · next found => simp [Lexeme.source, append_of_cutClass? found]
  · rfl

theorem source_lexeme_ne_nil (c : Char) (rest : Text) : (lexeme c rest).1.source ≠ [] := by
  unfold lexeme
  split <;> (try split) <;> simp [Lexeme.source]

theorem length_lexeme (c : Char) (rest : Text) : (lexeme c rest).2.length ≤ rest.length := by
  have whole := congrArg List.length (source_lexeme c rest)
  have nonempty := List.length_pos_iff.mpr (source_lexeme_ne_nil c rest)
  simp only [List.length_append, List.length_cons] at whole
  omega

/-- The lexemes of a text. -/
def lex : Text → List Lexeme
  | [] => []
  | c :: rest => (lexeme c rest).1 :: lex (lexeme c rest).2
termination_by text => text.length
decreasing_by exact Nat.lt_succ_of_le (length_lexeme c rest)

/-- Reading lexemes loses nothing and adds nothing. -/
@[simp] theorem sources_lex (text : Text) : sources (lex text) = text := by
  fun_induction lex text with
  | case1 => rfl
  | case2 c rest ih =>
    rw [sources, List.flatMap_cons, ← sources, ih, source_lexeme]

end RootedGlob.Brace
