import RootedGlob.Brace.Lexeme

/-!
# Groups of a brace pattern

A group runs from an opening brace to the closing brace that balances it. A closing brace outside
every group is ordinary text, an opening brace that nothing closes is a fault. The commas of a group
that stand in none of its inner groups separate its alternatives; alternatives may be empty.

The parts of the first group, with its braces between them, are the searched text (`findGroup_eq`).
The alternatives of a body, joined by commas, are the body (`intercalate_alternatives`).
-/

namespace RootedGlob.Brace

/-- How many groups a text opens. -/
def countGroups (text : Text) : Nat := (lex text).count .opening

/-- The first group of a text, with what stands before it and after it. -/
structure Group where
  before : Text
  body : Text
  after : Text
deriving DecidableEq, Repr

inductive Search where
  | noGroup
  | unclosed
  | group (found : Group)
deriving DecidableEq, Repr

/-- Cuts the lexemes inside an open group at the brace that closes it. The depth counts the inner
groups that are open. -/
def cutAtClosing? (depth : Nat) : List Lexeme → Option (List Lexeme × List Lexeme)
  | [] => none
  | .opening :: rest =>
    (cutAtClosing? (depth + 1) rest).map fun (body, later) => (.opening :: body, later)
  | .closing :: rest =>
    if depth = 0 then some ([], rest)
    else (cutAtClosing? (depth - 1) rest).map fun (body, later) => (.closing :: body, later)
  | other :: rest => (cutAtClosing? depth rest).map fun (body, later) => (other :: body, later)

def findIn : List Lexeme → Search
  | [] => .noGroup
  | .opening :: rest =>
    match cutAtClosing? 0 rest with
    | none => .unclosed
    | some (body, later) => .group ⟨[], sources body, sources later⟩
  | other :: rest =>
    match findIn rest with
    | .group found => .group { found with before := other.source ++ found.before }
    | result => result

/-- Looks for the first group of a text. -/
def findGroup (text : Text) : Search := findIn (lex text)

/-- Puts a lexeme in front of the first part. -/
def prepend (lexeme : Lexeme) : List (List Lexeme) → List (List Lexeme)
  | [] => [[lexeme]]
  | part :: parts => (lexeme :: part) :: parts

/-- Separates lexemes at the commas outside inner groups. -/
def separate (depth : Nat) : List Lexeme → List (List Lexeme)
  | [] => [[]]
  | .opening :: rest => prepend .opening (separate (depth + 1) rest)
  | .closing :: rest => prepend .closing (separate (depth - 1) rest)
  | .comma :: rest =>
    if depth = 0 then [] :: separate 0 rest else prepend .comma (separate depth rest)
  | .literal chunk :: rest => prepend (.literal chunk) (separate depth rest)

/-- The alternatives of the body of a group, in order. -/
def alternatives (body : Text) : List Text := (separate 0 (lex body)).map sources

@[simp] theorem sources_nil : sources [] = [] := rfl

@[simp] theorem sources_cons (lexeme : Lexeme) (rest : List Lexeme) :
    sources (lexeme :: rest) = lexeme.source ++ sources rest := rfl

theorem cutAtClosing?_eq {depth : Nat} {lexemes body later : List Lexeme}
    (found : cutAtClosing? depth lexemes = some (body, later)) :
    lexemes = body ++ .closing :: later := by
  fun_induction cutAtClosing? depth lexemes generalizing body with
  | case1 => simp at found
  | case2 depth rest ih =>
    simp only [Option.map_eq_some_iff, Prod.exists, Prod.mk.injEq] at found
    obtain ⟨inner, _, cutAt, rfl, rfl⟩ := found
    simp [ih cutAt]
  | case3 rest =>
    simp only [Option.some.injEq, Prod.mk.injEq] at found
    simp [← found.1, found.2]
  | case4 depth rest deep ih =>
    simp only [Option.map_eq_some_iff, Prod.exists, Prod.mk.injEq] at found
    obtain ⟨inner, _, cutAt, rfl, rfl⟩ := found
    simp [ih cutAt]
  | case5 depth other rest _ _ ih =>
    simp only [Option.map_eq_some_iff, Prod.exists, Prod.mk.injEq] at found
    obtain ⟨inner, _, cutAt, rfl, rfl⟩ := found
    simp [ih cutAt]

theorem findIn_eq {lexemes : List Lexeme} {group : Group} (found : findIn lexemes = .group group) :
    sources lexemes = group.before ++ '{' :: group.body ++ '}' :: group.after := by
  fun_induction findIn lexemes generalizing group with
  | case1 => simp at found
  | case2 => simp at found
  | case3 rest body later cutAt =>
    simp only [Search.group.injEq] at found
    subst found
    simp [cutAtClosing?_eq cutAt, sources, Lexeme.source]
  | case4 other rest _ inner same ih =>
    simp only [Search.group.injEq] at found
    subst found
    simp [ih same]
  | case5 other rest _ plain => exact absurd found (plain group)

/-- The parts of the first group are the whole text. -/
theorem findGroup_eq {text : Text} {group : Group} (found : findGroup text = .group group) :
    text = group.before ++ '{' :: group.body ++ '}' :: group.after := by
  rw [← findIn_eq found, sources_lex]

theorem intercalate_prepend (lexeme : Lexeme) (parts : List (List Lexeme)) (nonempty : parts ≠ []) :
    [Lexeme.comma].intercalate (prepend lexeme parts)
      = lexeme :: [Lexeme.comma].intercalate parts := by
  match parts, nonempty with
  | [part], _ => simp [prepend, List.intercalate]
  | part :: next :: parts, _ => simp [prepend, List.intercalate]

theorem separate_ne_nil (depth : Nat) (lexemes : List Lexeme) : separate depth lexemes ≠ [] := by
  have prepended (lexeme : Lexeme) (parts) : prepend lexeme parts ≠ [] := by
    cases parts <;> simp [prepend]
  unfold separate
  split <;> (try split) <;> simp [prepended]

theorem intercalate_separate (depth : Nat) (lexemes : List Lexeme) :
    [Lexeme.comma].intercalate (separate depth lexemes) = lexemes := by
  fun_induction separate depth lexemes with
  | case1 => simp [List.intercalate]
  | case2 depth rest ih => rw [intercalate_prepend _ _ (separate_ne_nil _ _), ih]
  | case3 depth rest ih => rw [intercalate_prepend _ _ (separate_ne_nil _ _), ih]
  | case4 rest ih =>
    match parts : separate 0 rest, separate_ne_nil 0 rest with
    | part :: others, _ =>
      rw [parts] at ih
      simp [List.intercalate] at ih ⊢
      exact ih
  | case5 depth rest deep ih => rw [intercalate_prepend _ _ (separate_ne_nil _ _), ih]
  | case6 depth chunk rest ih => rw [intercalate_prepend _ _ (separate_ne_nil _ _), ih]

theorem sources_intercalate (parts : List (List Lexeme)) :
    sources ([Lexeme.comma].intercalate parts) = [','].intercalate (parts.map sources) := by
  match parts with
  | [] => rfl
  | [part] => simp [List.intercalate]
  | part :: next :: parts =>
    have ih := sources_intercalate (next :: parts)
    simp only [List.intercalate, List.intersperse, List.map_cons, List.flatten_cons] at ih ⊢
    simp only [sources, List.flatMap_append] at ih ⊢
    rw [ih]
    rfl

/-- The alternatives with commas between them are the body. -/
theorem intercalate_alternatives (body : Text) : [','].intercalate (alternatives body) = body := by
  rw [alternatives, ← sources_intercalate, intercalate_separate, sources_lex]

end RootedGlob.Brace
