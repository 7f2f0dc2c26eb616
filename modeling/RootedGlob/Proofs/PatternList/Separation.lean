import RootedGlob.Proofs.PatternList.Tokens

/-!
# Separating commas, seen from the start of the list

Which commas separate is said here about the whole text in front of a comma: the comma is not guarded, and
the parentheses, brackets and braces that are not guarded either leave nothing open, where a closer without
an opener counts for nothing (`SeparatesBehind`). A scan that is never reset decides this
(`atTop_behind_iff`). A cursor forgets at every token what it has counted, and this is harmless, because at
a separating comma there is nothing to remember (`piecesBehind_congr`). So the calls of a cursor answer the
trimmed pieces between the separating commas, the blank ones left out, and nothing behind the last one
(`call_after`).
-/

namespace RootedGlob.PatternList

section Separators

/-- The characters that no backslash guards, without the backslashes. -/
def unguarded : Text → Text
  | [] => []
  | ['\\'] => []
  | '\\' :: _ :: rest => unguarded rest
  | c :: rest => c :: unguarded rest

/-- Whether a text ends in a backslash that guards what comes behind. -/
def guardsNext : Text → Bool
  | [] => false
  | ['\\'] => true
  | '\\' :: _ :: rest => guardsNext rest
  | _ :: rest => guardsNext rest

/-- How many groups of one kind are open behind a character. Closing stops at zero. -/
def countPast (opening closing : Char) (count : Nat) (c : Char) : Nat :=
  if c = opening then count + 1 else if c = closing then count - 1 else count

/-- How many groups of one kind are open behind a text, if some are open in front of it. -/
def countOpen (opening closing : Char) (before : Nat) (text : Text) : Nat :=
  text.foldl (countPast opening closing) before

/-- Whether a comma behind a text separates patterns. -/
structure SeparatesBehind (front : Text) : Prop where
  notGuarded : guardsNext front = false
  parens : countOpen '(' ')' 0 (unguarded front) = 0
  brackets : countOpen '[' ']' 0 (unguarded front) = 0
  braces : countOpen '{' '}' 0 (unguarded front) = 0

instance (front : Text) : Decidable (SeparatesBehind front) :=
  decidable_of_iff (guardsNext front = false ∧ countOpen '(' ')' 0 (unguarded front) = 0
      ∧ countOpen '[' ']' 0 (unguarded front) = 0 ∧ countOpen '{' '}' 0 (unguarded front) = 0)
    ⟨fun ⟨notGuarded, parens, brackets, braces⟩ => ⟨notGuarded, parens, brackets, braces⟩,
      fun separates => ⟨separates.notGuarded, separates.parens, separates.brackets, separates.braces⟩⟩

/-- The pieces that the separating commas cut a text into, given what stands in front of it. -/
def piecesBehind (front : Text) : Text → List Text
  | [] => [[]]
  | c :: rest =>
    let later := piecesBehind (front ++ [c]) rest
    if c = ',' ∧ SeparatesBehind front then [] :: later else later.modifyHead (c :: ·)

/-- The pieces of a pattern list. -/
def pieces (text : Text) : List Text := piecesBehind [] text

/-- The trimmed pieces of a pattern list, the blank ones left out. -/
def patterns (text : Text) : List Text := ((pieces text).map Text.trim).filter (· ≠ [])

end Separators

section Scanning

theorem behind_append (scan : Scan) (front back : Text) :
    scan.behind (front ++ back) = (scan.behind front).behind back := List.foldl_append

theorem pass_of_unescaped {scan : Scan} (unescaped : scan.escaped = false) {c : Char} (plain : c ≠ '\\') :
    scan.pass c =
      { parens := countPast '(' ')' scan.parens c
        brackets := countPast '[' ']' scan.brackets c
        braces := countPast '{' '}' scan.braces c
        escaped := false } := by
  obtain ⟨parens, brackets, braces, escaped⟩ := scan
  subst unescaped
  unfold Scan.pass
  split
  · contradiction
  · split <;> simp_all [countPast]

/-- A guard and what it guards leave a scan as it was. -/
theorem pass_guarded {scan : Scan} (unescaped : scan.escaped = false) (c : Char) :
    (scan.pass '\\').pass c = scan := by
  cases scan
  cases unescaped
  rfl

/-- A character that neither guards nothing nor guards the next one is no backslash. -/
theorem ne_backslash_of_unpaired {c : Char} {rest : Text} (alone : c = '\\' → rest = [] → False)
    (guarding : ∀ guarded others, c = '\\' → rest = guarded :: others → False) : c ≠ '\\' := by
  intro guard
  cases rest with
  | nil => exact alone guard rfl
  | cons guarded others => exact guarding guarded others guard rfl

/-- What a scan remembers of a text is whether it ends in a guard, and how many groups it leaves open. -/
theorem behind_eq {scan : Scan} (unescaped : scan.escaped = false) (text : Text) :
    scan.behind text =
      { parens := countOpen '(' ')' scan.parens (unguarded text)
        brackets := countOpen '[' ']' scan.brackets (unguarded text)
        braces := countOpen '{' '}' scan.braces (unguarded text)
        escaped := guardsNext text } := by
  -- The cases are those of the unguarded text: a guard at the end, a guard with what it guards, any
  -- other character.
  fun_induction unguarded text generalizing scan with
  | case1 =>
    simp [Scan.behind, countOpen, guardsNext, ← unescaped]
  | case2 =>
    simp [Scan.behind, Scan.pass, countOpen, guardsNext, unescaped]
  | case3 guarded rest ih =>
    have step : scan.behind ('\\' :: guarded :: rest) = scan.behind rest := by
      rw [Scan.behind, List.foldl_cons, List.foldl_cons, pass_guarded unescaped, Scan.behind]
    rw [step, ih unescaped, guardsNext]
  | case4 c rest alone guarding ih =>
    have plain := ne_backslash_of_unpaired alone guarding
    have next : guardsNext (c :: rest) = guardsNext rest := by
      rw [guardsNext]
      · exact alone
      · exact guarding
    have passed := pass_of_unescaped unescaped plain
    rw [Scan.behind, List.foldl_cons, ← Scan.behind, passed, ih rfl, next]
    simp only [countOpen, List.foldl_cons]

theorem atTop_behind_iff (front : Text) : (Scan.behind {} front).atTop ↔ SeparatesBehind front := by
  rw [behind_eq rfl]
  constructor
  · intro top
    simp only [Scan.atTop, Bool.and_eq_true, beq_iff_eq, Bool.not_eq_true'] at top
    exact ⟨top.2, top.1.1.1, top.1.1.2, top.1.2⟩
  · intro separates
    simp [Scan.atTop, separates.notGuarded, separates.parens, separates.brackets, separates.braces]

/-- The pieces of a text depend on what stands in front of it by the state of the scan only. -/
theorem piecesBehind_congr {front front' : Text} (same : Scan.behind {} front = Scan.behind {} front')
    (text : Text) : piecesBehind front text = piecesBehind front' text := by
  induction text generalizing front front' with
  | nil => rfl
  | cons c rest ih =>
    have later : Scan.behind {} (front ++ [c]) = Scan.behind {} (front' ++ [c]) := by
      rw [behind_append, behind_append, same]
    have separates : SeparatesBehind front ↔ SeparatesBehind front' := by
      rw [← atTop_behind_iff, same, atTop_behind_iff]
    simp only [piecesBehind, ih later, separates]

/-- Where a scan stands outside every group, it has nothing to remember. -/
theorem eq_start_of_atTop {scan : Scan} (top : scan.atTop) : scan = {} := by
  obtain ⟨parens, brackets, braces, escaped⟩ := scan
  simp only [Scan.atTop, Bool.and_eq_true, beq_iff_eq, Bool.not_eq_true'] at top
  obtain ⟨⟨⟨rfl, rfl⟩, rfl⟩, rfl⟩ := top
  rfl

/-- Cutting a text at the first separating comma gives its first piece. Behind the comma the pieces are
those of a list of its own. -/
theorem piecesBehind_of_cut {front text piece : Text} {later : Option Text}
    (found : cut (Scan.behind {} front) text = (piece, later)) :
    piecesBehind front text = piece :: later.elim [] pieces := by
  induction text generalizing front piece with
  | nil =>
    obtain ⟨rfl, rfl⟩ := Prod.mk.inj found
    rfl
  | cons c rest ih =>
    have onward : (Scan.behind {} front).pass c = Scan.behind {} (front ++ [c]) :=
      (behind_append {} front [c]).symm
    have separates : (Scan.behind {} front).separates c ↔ c = ',' ∧ SeparatesBehind front := by
      rw [Scan.separates, Bool.and_eq_true, beq_iff_eq, atTop_behind_iff]
    rw [cut] at found
    split at found
    · next here =>
      obtain ⟨rfl, rfl⟩ := Prod.mk.inj found
      obtain ⟨rfl, top⟩ := separates.mp here
      -- The scan of the whole text is at its start again.
      have start : Scan.behind {} (front ++ [',']) = Scan.behind {} [] := by
        rw [← onward, eq_start_of_atTop ((atTop_behind_iff front).mpr top)]
        rfl
      rw [piecesBehind, if_pos ⟨rfl, top⟩, piecesBehind_congr start]
      rfl
    · next inside =>
      obtain ⟨rfl, rfl⟩ := Prod.mk.inj found
      rw [separates] at inside
      have inner : cut (Scan.behind {} (front ++ [c])) rest
          = ((cut ((Scan.behind {} front).pass c) rest).1, (cut ((Scan.behind {} front).pass c) rest).2) := by
        rw [onward]
      rw [piecesBehind, if_neg inside, ih inner, List.modifyHead_cons]

end Scanning

section Calls

theorem patterns_of_cut {text piece : Text} {later : Option Text} (found : cut {} text = (piece, later)) :
    patterns text = (if Text.isBlankText piece then [] else [piece.trim]) ++ later.elim [] patterns := by
  have split : pieces text = piece :: later.elim [] pieces := @piecesBehind_of_cut [] _ _ _ found
  have others : ((later.elim [] pieces).map Text.trim).filter (· ≠ []) = later.elim [] patterns := by
    cases later <;> rfl
  rw [patterns, split, List.map_cons, List.filter_cons, others]
  by_cases blank : piece.trim = [] <;> simp [Text.isBlankText, blank]

/-- The first token of a text is its first pattern, and the others come behind the comma that ends it. -/
theorem patterns_eq (text : Text) :
    patterns text = (firstToken? text).elim [] fun (token, later) => token :: later.elim [] patterns := by
  fun_induction firstToken? text with
  | case1 text piece blank found =>
    rw [patterns_of_cut found, if_pos blank]
    rfl
  | case2 text piece blank rest found _ ih =>
    rw [patterns_of_cut found, if_pos blank]
    exact ih
  | case3 text piece later found solid =>
    rw [patterns_of_cut found, if_neg solid]
    rfl

namespace Cursor

/-- The patterns that a cursor has not read yet. -/
def ahead (cursor : Cursor) : List Text := cursor.rest.elim [] patterns

/-- A call answers the next token, if there is one, and moves the cursor. Once there is none, the cursor
stays at the end. -/
def call (cursor : Cursor) : Option Text × Cursor :=
  match cursor.next? with
  | some (token, later) => (some token, later)
  | none => (none, ⟨none⟩)

/-- The cursor behind some calls. -/
def after (cursor : Cursor) : Nat → Cursor
  | 0 => cursor
  | calls + 1 => (cursor.after calls).call.2

theorem ahead_eq (cursor : Cursor) :
    cursor.ahead = cursor.next?.elim [] fun (token, later) => token :: later.ahead := by
  obtain ⟨_ | text⟩ := cursor
  · rfl
  · simp only [ahead, Option.elim_some, next?, Option.bind_some]
    rw [patterns_eq]
    cases firstToken? text <;> rfl

/-- A call takes the first of the patterns that are ahead. -/
theorem call_eq (cursor : Cursor) :
    cursor.call.1 = cursor.ahead.head? ∧ cursor.call.2.ahead = cursor.ahead.tail := by
  rw [ahead_eq cursor, call]
  cases cursor.next? with
  | none => exact ⟨rfl, rfl⟩
  | some found => exact ⟨rfl, rfl⟩

theorem ahead_after (cursor : Cursor) (calls : Nat) :
    (cursor.after calls).ahead = cursor.ahead.drop calls := by
  induction calls with
  | zero => rfl
  | succ calls ih => rw [after, (call_eq _).2, ih, List.tail_drop]

theorem tokens_eq_ahead (cursor : Cursor) : cursor.tokens = cursor.ahead := by
  fun_induction tokens cursor with
  | case1 cursor found =>
    rw [ahead_eq, found]
    rfl
  | case2 cursor token later found ih =>
    rw [ahead_eq, found, ih]
    rfl

/-- The calls of a cursor answer the patterns of the list one by one, and nothing behind the last one. What
is left after some of the calls is the rest of these patterns. -/
theorem call_after (text : Text) (calls : Nat) :
    ((start text).after calls).call.1 = (patterns text)[calls]?
      ∧ ((start text).after calls).tokens = (patterns text).drop calls
      ∧ ∀ more, (((start text).after calls).after more).call.1 = ((patterns text).drop calls)[more]? := by
  have left : ((start text).after calls).ahead = (patterns text).drop calls := ahead_after (start text) calls
  refine ⟨?_, ?_, fun more => ?_⟩
  · rw [(call_eq _).1, left, List.head?_drop]
  · rw [tokens_eq_ahead, left]
  · rw [(call_eq _).1, ahead_after, left, List.head?_drop]

end Cursor

end Calls

end RootedGlob.PatternList
