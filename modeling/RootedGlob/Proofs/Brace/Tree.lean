import RootedGlob.Proofs.Brace.Denotation

/-!
# Parse trees of brace patterns

The grammar of brace patterns is stated on its own: a pattern is a sequence of texts and groups, and a
group is a choice between the sequences that its commas separate. A tree denotes a list of texts, by
recursion on the tree. Every pattern that closes its groups has exactly one parse tree
(`exists_parses`, `Parses.unique`), one scan of the pattern finds the texts that the tree denotes
(`denoted_of_parses`), and so does expansion (`expand_eq_texts`), although expansion never builds a
tree and rewrites whole texts instead.
-/

namespace RootedGlob.Brace

/-- An item of a pattern. -/
inductive Node where
  | text (chunk : Text)
  | group (alternatives : List (List Node))

mutual

/-- The texts that an item denotes: a text denotes itself, a group what its alternatives denote, the
one after the other. -/
def Node.texts : Node → List Text
  | .text chunk => [chunk]
  | .group alternatives => textsOfAny alternatives

/-- What items in a row denote: a text of each, put together. The texts of the first vary slowest. -/
def textsOfAll : List Node → List Text
  | [] => [[]]
  | node :: nodes => product node.texts (textsOfAll nodes)

def textsOfAny : List (List Node) → List Text
  | [] => []
  | alternative :: others => textsOfAll alternative ++ textsOfAny others

end

/-- The lexemes between the braces of a group, and the alternatives that they separate. -/
inductive Encloses : List Lexeme → List (List Node) → Prop
  | nothing : Encloses [] [[]]
  | comma {rest : List Lexeme} {others : List (List Node)} (behind : Encloses rest others) :
      Encloses (.comma :: rest) ([] :: others)
  | text (chunk : Text) {rest : List Lexeme} {first : List Node} {others : List (List Node)}
      (behind : Encloses rest (first :: others)) :
      Encloses (.literal chunk :: rest) ((.text chunk :: first) :: others)
  | group {body rest : List Lexeme} {alternatives : List (List Node)} {first : List Node}
      {others : List (List Node)} (inside : Encloses body alternatives)
      (behind : Encloses rest (first :: others)) :
      Encloses (.opening :: (body ++ .closing :: rest)) ((.group alternatives :: first) :: others)

/-- The lexemes of a pattern, and its parse tree. Outside every group, commas and closing braces are
text. -/
inductive Parses : List Lexeme → List Node → Prop
  | nothing : Parses [] []
  | text {lexeme : Lexeme} {rest : List Lexeme} {nodes : List Node} (plain : lexeme ≠ .opening)
      (behind : Parses rest nodes) : Parses (lexeme :: rest) (.text lexeme.source :: nodes)
  | group {body rest : List Lexeme} {alternatives : List (List Node)} {nodes : List Node}
      (inside : Encloses body alternatives) (behind : Parses rest nodes) :
      Parses (.opening :: (body ++ .closing :: rest)) (.group alternatives :: nodes)

section Uniqueness

variable {body : List Lexeme} {alternatives : List (List Node)}

/-- The body of a group closes what it opens and nothing else, whatever groups it stands in. -/
theorem Encloses.cutAtClosing?_append (encloses : Encloses body alternatives) (depth : Nat)
    (later : List Lexeme) :
    cutAtClosing? depth (body ++ later)
      = (cutAtClosing? depth later).map fun (before, behind) => (body ++ before, behind) := by
  induction encloses generalizing depth later with
  | nothing => simp
  | comma _ ih => simp [cutAtClosing?, ih, Function.comp_def]
  | text chunk _ ih => simp [cutAtClosing?, ih, Function.comp_def]
  | group _ _ inner outer =>
    simp [cutAtClosing?, inner, outer, Function.comp_def]

theorem Encloses.cutAtClosing?_eq (encloses : Encloses body alternatives) (later : List Lexeme) :
    cutAtClosing? 0 (body ++ .closing :: later) = some (body, later) := by
  rw [encloses.cutAtClosing?_append, cutAtClosing?, if_pos rfl]
  simp

/-- Where a group ends can be read off the lexemes behind its opening brace. -/
theorem Encloses.append_inj {body' : List Lexeme} {alternatives' : List (List Node)}
    (one : Encloses body alternatives) (two : Encloses body' alternatives') {later later' : List Lexeme}
    (same : body ++ .closing :: later = body' ++ .closing :: later') : body = body' ∧ later = later' := by
  have cut := one.cutAtClosing?_eq later
  rw [same, two.cutAtClosing?_eq later', Option.some.injEq, Prod.mk.injEq] at cut
  exact ⟨cut.1.symm, cut.2.symm⟩

theorem Encloses.unique {alternatives' : List (List Node)} (one : Encloses body alternatives)
    (two : Encloses body alternatives') : alternatives = alternatives' := by
  induction one generalizing alternatives' with
  | nothing =>
    cases two
    rfl
  | comma _ ih =>
    cases two with
    | comma behind => rw [ih behind]
  | text chunk _ ih =>
    cases two with
    | text _ behind =>
      obtain ⟨rfl, rfl⟩ := List.cons.inj (ih behind)
      rfl
  | @group body rest _ _ _ inside _ inner outer =>
    -- Both derivations cut the group at the same brace, so their bodies are the same.
    generalize whole : Lexeme.opening :: (body ++ Lexeme.closing :: rest) = lexemes at two
    cases two with
    | nothing => cases whole
    | comma => cases whole
    | text => cases whole
    | group inside' behind' =>
      obtain ⟨rfl, rfl⟩ := inside.append_inj inside' (List.cons.inj whole).2
      obtain ⟨rfl, rfl⟩ := List.cons.inj (outer behind')
      rw [inner inside']

/-- A pattern has at most one parse tree. -/
theorem Parses.unique {lexemes : List Lexeme} {tree tree' : List Node} (one : Parses lexemes tree)
    (two : Parses lexemes tree') : tree = tree' := by
  induction one generalizing tree' with
  | nothing =>
    cases two
    rfl
  | text plain _ ih =>
    cases two with
    | text _ behind => rw [ih behind]
    | group => exact absurd rfl plain
  | @group body rest _ _ inside _ ih =>
    generalize whole : Lexeme.opening :: (body ++ Lexeme.closing :: rest) = lexemes at two
    cases two with
    | nothing => cases whole
    | text plain => exact absurd (List.cons.inj whole).1.symm plain
    | group inside' behind' =>
      obtain ⟨rfl, rfl⟩ := inside.append_inj inside' (List.cons.inj whole).2
      rw [inside.unique inside', ih behind']

end Uniqueness

section Existence

/-- The brace that closes an outer group is the one that closes it behind the inner group. -/
theorem cutAtClosing?_succ (depth : Nat) (lexemes : List Lexeme) :
    cutAtClosing? (depth + 1) lexemes = (cutAtClosing? depth lexemes).bind fun (inner, rest) =>
      (cutAtClosing? 0 rest).map fun (body, later) => (inner ++ .closing :: body, later) := by
  -- One level up the search meets the same braces, with the count one higher, until the inner one is
  -- closed.
  fun_induction cutAtClosing? depth lexemes with
  | case1 => rfl
  | case2 depth rest ih =>
    rw [cutAtClosing?, ih]
    simp [Option.map_bind, Option.bind_map, Function.comp_def]
  | case3 rest =>
    simp [cutAtClosing?]
  | case4 depth rest deep ih =>
    obtain ⟨outer, rfl⟩ := Nat.exists_eq_succ_of_ne_zero deep
    rw [cutAtClosing?, if_neg (Nat.succ_ne_zero _)]
    simp only [Nat.succ_eq_add_one, Nat.add_sub_cancel] at ih ⊢
    rw [ih]
    simp [Option.map_bind, Option.bind_map, Function.comp_def]
  | case5 depth other rest notOpening notClosing ih =>
    rw [cutAtClosing?, ih]
    · simp [Option.map_bind, Option.bind_map, Function.comp_def]
    · exact notOpening
    · exact notClosing

theorem Encloses.exists_cons {body : List Lexeme} {alternatives : List (List Node)}
    (encloses : Encloses body alternatives) : ∃ first others, alternatives = first :: others := by
  cases encloses <;> exact ⟨_, _, rfl⟩

/-- Whatever stands between an opening brace and the one that closes it has alternatives. -/
theorem exists_encloses {body later : List Lexeme}
    (found : cutAtClosing? 0 (body ++ .closing :: later) = some (body, later)) :
    ∃ alternatives, Encloses body alternatives := by
  match body with
  | [] => exact ⟨_, .nothing⟩
  | .comma :: rest =>
    obtain ⟨others, behind⟩ := @exists_encloses rest later (by simpa [cutAtClosing?] using found)
    exact ⟨_, .comma behind⟩
  | .literal chunk :: rest =>
    obtain ⟨alternatives, behind⟩ :=
      @exists_encloses rest later (by simpa [cutAtClosing?] using found)
    obtain ⟨first, others, rfl⟩ := behind.exists_cons
    exact ⟨_, .text chunk behind⟩
  | .closing :: rest => simp [cutAtClosing?] at found
  | .opening :: rest =>
    -- The inner group is cut first, and what is left of the body closes the outer one.
    have inner : cutAtClosing? 1 (rest ++ .closing :: later) = some (rest, later) := by
      simpa [cutAtClosing?] using found
    rw [cutAtClosing?_succ] at inner
    simp only [Option.bind_eq_some_iff, Option.map_eq_some_iff, Prod.exists, Prod.mk.injEq] at inner
    obtain ⟨body, behind, cutAt, rest', later', cutRest, rfl, rfl⟩ := inner
    have whole := cutAtClosing?_eq cutAt
    have split : behind = rest' ++ .closing :: later' := cutAtClosing?_eq cutRest
    subst split
    rw [whole] at cutAt
    obtain ⟨alternatives, inside⟩ := exists_encloses cutAt
    obtain ⟨outer, after⟩ := exists_encloses cutRest
    obtain ⟨first, others, rfl⟩ := after.exists_cons
    exact ⟨_, .group inside after⟩
termination_by body.length

theorem Encloses.depthAfter_eq {body : List Lexeme} {alternatives : List (List Node)}
    (encloses : Encloses body alternatives) (depth : Nat) : depthAfter depth body = depth := by
  induction encloses generalizing depth with
  | nothing => rfl
  | comma _ ih => exact ih depth
  | text _ _ ih => exact ih depth
  | group _ _ inner outer =>
    rw [depthAfter_cons, depthAfter_append, inner, depthAfter_cons]
    exact outer depth

/-- A pattern that closes its groups has a parse tree. -/
theorem exists_parses {lexemes : List Lexeme} (closed : depthAfter 0 lexemes = 0) :
    ∃ tree, Parses lexemes tree := by
  match lexemes with
  | [] => exact ⟨_, .nothing⟩
  | .opening :: rest =>
    rw [depthAfter_cons, Lexeme.depthAfter] at closed
    cases cutAt : cutAtClosing? 0 rest with
    -- A group that nothing closes would keep the depth above zero.
    | none => exact absurd closed (Nat.ne_of_gt (depthAfter_of_cutAtClosing? cutAt))
    | some found =>
      obtain ⟨body, later⟩ := found
      have whole := cutAtClosing?_eq cutAt
      have shorter : later.length < rest.length := by
        rw [whole]
        simp
        omega
      obtain ⟨alternatives, inside⟩ := exists_encloses (whole ▸ cutAt)
      rw [whole, depthAfter_append, inside.depthAfter_eq, depthAfter_cons] at closed
      obtain ⟨nodes, behind⟩ := exists_parses closed
      rw [whole]
      exact ⟨_, .group inside behind⟩
  | .comma :: rest =>
    obtain ⟨nodes, behind⟩ := @exists_parses rest closed
    exact ⟨_, .text (by decide) behind⟩
  | .closing :: rest =>
    obtain ⟨nodes, behind⟩ := @exists_parses rest closed
    exact ⟨_, .text (by decide) behind⟩
  | .literal chunk :: rest =>
    obtain ⟨nodes, behind⟩ := @exists_parses rest closed
    exact ⟨_, .text (by simp) behind⟩
termination_by lexemes.length
decreasing_by all_goals simp only [List.length_cons]; omega

end Existence

section Denotation

/-- Reading on from inside a group to the brace that closes it: the alternative that is being read is
continued by the texts of the first one, and the other ones follow. -/
theorem read_of_encloses {body : List Lexeme} {first : List Node} {others : List (List Node)}
    (encloses : Encloses body (first :: others)) (current before finished : List Text)
    (outer : List Frame) (later : List Lexeme) :
    read ⟨current, ⟨before, finished⟩ :: outer⟩ (body ++ .closing :: later)
      = read ⟨product before (finished ++ product current (textsOfAll first) ++ textsOfAny others),
          outer⟩ later := by
  -- Along the body only `current` grows, until a comma puts it behind the finished alternatives.
  generalize whole : first :: others = alternatives at encloses
  induction encloses generalizing first others current before finished outer later with
  | nothing =>
    obtain ⟨rfl, rfl⟩ := List.cons.inj whole
    simp [Reading.pass, textsOfAll, textsOfAny]
  | comma behind ih =>
    obtain ⟨rfl, rfl⟩ := List.cons.inj whole
    obtain ⟨next, others, rfl⟩ := behind.exists_cons
    have step : Reading.pass ⟨current, ⟨before, finished⟩ :: outer⟩ .comma
        = ⟨[[]], ⟨before, finished ++ current⟩ :: outer⟩ := rfl
    rw [List.cons_append, read_cons, step, ih _ _ _ _ _ rfl]
    simp [textsOfAll, textsOfAny]
  | text chunk behind ih =>
    obtain ⟨rfl, rfl⟩ := List.cons.inj whole
    have step : Reading.pass ⟨current, ⟨before, finished⟩ :: outer⟩ (.literal chunk)
        = ⟨product current [chunk], ⟨before, finished⟩ :: outer⟩ := by
      rw [product_singleton]
      rfl
    rw [List.cons_append, read_cons, step, ih _ _ _ _ _ rfl]
    simp [textsOfAll, Node.texts, product_assoc]
  | group inside behind inner rest =>
    obtain ⟨rfl, rfl⟩ := List.cons.inj whole
    obtain ⟨next, more, rfl⟩ := inside.exists_cons
    rw [List.cons_append, List.append_assoc, List.cons_append, read_cons, Reading.pass,
      inner _ _ _ _ _ rfl, rest _ _ _ _ _ rfl]
    simp [textsOfAll, textsOfAny, Node.texts, product_assoc]

theorem read_of_parses {lexemes : List Lexeme} {tree : List Node} (parses : Parses lexemes tree)
    (starts : List Text) : read ⟨starts, []⟩ lexemes = ⟨product starts (textsOfAll tree), []⟩ := by
  induction parses generalizing starts with
  | nothing => simp [textsOfAll]
  | @text lexeme _ _ plain _ ih =>
    have step : Reading.pass ⟨starts, []⟩ lexeme = ⟨starts.map (· ++ lexeme.source), []⟩ := by
      cases lexeme with
      | opening => exact absurd rfl plain
      | _ => rfl
    rw [read_cons, step, ih]
    simp [textsOfAll, Node.texts, ← product_singleton, product_assoc]
  | group inside _ ih =>
    obtain ⟨first, others, rfl⟩ := inside.exists_cons
    rw [read_cons, Reading.pass, read_of_encloses inside, ih]
    simp [textsOfAll, textsOfAny, Node.texts, product_assoc]

/-- One scan of a pattern finds the texts that its parse tree denotes. -/
theorem denoted_of_parses {lexemes : List Lexeme} {tree : List Node} (parses : Parses lexemes tree) :
    denoted lexemes = textsOfAll tree := by
  rw [denoted, read_of_parses parses, product_empty_left]

end Denotation

/-- A pattern that closes its groups has one parse tree and expands to the texts that the tree denotes,
if there are neither too many groups nor too many texts. -/
theorem expand_eq_texts {pattern : Text} (closed : depthAfter 0 (lex pattern) = 0)
    (groups : countGroups pattern ≤ maxGroups) :
    ∃ tree, (∀ other, Parses (lex pattern) other ↔ other = tree)
      ∧ ((textsOfAll tree).length ≤ maxExpansions → expand pattern = .ok (textsOfAll tree)) := by
  obtain ⟨tree, parses⟩ := exists_parses closed
  refine ⟨tree, fun other => ⟨fun also => also.unique parses, fun same => same ▸ parses⟩, ?_⟩
  intro room
  rw [← denoted_of_parses parses] at room ⊢
  exact expand_eq_ok_iff.mpr ⟨groups, closed, room, rfl⟩

theorem expand_eq_texts_nested :
    depthAfter 0 (lex "{a,{b,}c}[\x7b]\\\x7d".toList) = 0
      ∧ countGroups "{a,{b,}c}[\x7b]\\\x7d".toList ≤ maxGroups
      ∧ ∃ tree, Parses (lex "{a,{b,}c}[\x7b]\\\x7d".toList) tree
        ∧ expand "{a,{b,}c}[\x7b]\\\x7d".toList = .ok (textsOfAll tree)
        ∧ textsOfAll tree = ["a[\x7b]\\\x7d".toList, "bc[\x7b]\\\x7d".toList, "c[\x7b]\\\x7d".toList] := by
  have closed : depthAfter 0 (lex "{a,{b,}c}[\x7b]\\\x7d".toList) = 0 := by decide +kernel
  have groups : countGroups "{a,{b,}c}[\x7b]\\\x7d".toList ≤ maxGroups := by decide +kernel
  obtain ⟨tree, only, expands⟩ := expand_eq_texts closed groups
  have parses := (only tree).mpr rfl
  have texts : textsOfAll tree
      = ["a[\x7b]\\\x7d".toList, "bc[\x7b]\\\x7d".toList, "c[\x7b]\\\x7d".toList] := by
    rw [← denoted_of_parses parses]
    decide +kernel
  refine ⟨closed, groups, tree, parses, expands ?_, texts⟩
  rw [texts]
  decide

end RootedGlob.Brace
