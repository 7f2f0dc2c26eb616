import RootedGlob.Proofs.Brace.Counting
import RootedGlob.Proofs.Brace.Tree

/-!
# How an expansion ends

Three numbers decide how an expansion ends (`expand_outcome`). One scan of the characters counts the groups
that are opened and those that are still open at the end (`survey_eq`). How many texts a parse tree denotes
follows from a recurrence: items in a row multiply their numbers, and the alternatives of a group add theirs
(`length_textsOfAll`). A brace that is never closed stays open in every entry that takes the place of another
one, so no entry is ever found to be a result, and the missing brace is reported before any result could be
one too many (`drain_of_opened`).
-/

namespace RootedGlob.Brace

theorem length_of_cutClass? {text body later : Text} (found : cutClass? text = some (body, later)) :
    later.length ≤ text.length := by
  rw [← append_of_cutClass? found, List.length_append]
  exact Nat.le_add_left _ _

/-- Scans a pattern once from left to right and counts the groups that it opens and those that are open
behind it. A backslash takes the next character along and a class is passed over; outside every group, a
closing brace counts for nothing. -/
def survey (opened depth : Nat) : Text → Nat × Nat
  | [] => (opened, depth)
  | '\\' :: rest => survey opened depth (rest.drop 1)
  | '[' :: rest =>
    match _class : cutClass? rest with
    | none => survey opened depth rest
    | some (_, later) => survey opened depth later
  | '{' :: rest => survey (opened + 1) (depth + 1) rest
  | '}' :: rest => survey opened (depth - 1) rest
  | _ :: rest => survey opened depth rest
termination_by text => text.length
decreasing_by
  · simp only [List.length_drop, List.length_cons]
    omega
  · exact Nat.lt_succ_self _
  · exact Nat.lt_succ_of_le (length_of_cutClass? ‹_›)
  all_goals exact Nat.lt_succ_self _

/-- What the first lexeme of a text adds to the groups that are opened and to those that are open. -/
theorem counts_of_lexeme {c : Char} {rest later : Text} {first : Lexeme}
    (same : lexeme c rest = (first, later)) (opened depth : Nat) :
    (opened + countGroups (c :: rest), depthAfter depth (lex (c :: rest)))
      = (opened + (if first = .opening then 1 else 0) + countGroups later,
        depthAfter (first.depthAfter depth) (lex later)) := by
  have split : lex (c :: rest) = first :: lex later := by rw [lex_cons, same]
  rw [countGroups, countGroups, split, depthAfter_cons, List.count_cons]
  simp only [beq_iff_eq, Nat.add_assoc, Nat.add_comm]

/-- The scan counts the marks of the pattern and nothing else. -/
theorem survey_eq (opened depth : Nat) (text : Text) :
    survey opened depth text = (opened + countGroups text, depthAfter depth (lex text)) := by
  -- In every case the scan goes on behind the first lexeme.
  fun_induction survey opened depth text with
  | case1 opened depth => simp [countGroups, lex, depthAfter]
  | case2 opened depth rest ih =>
    have first : ∃ chunk, lexeme '\\' rest = (.literal chunk, rest.drop 1) := by
      cases rest with
      | nil => exact ⟨_, rfl⟩
      | cons guarded rest => exact ⟨_, rfl⟩
    obtain ⟨chunk, same⟩ := first
    rw [ih, counts_of_lexeme same]
    simp [Lexeme.depthAfter]
  | case3 opened depth rest unended ih =>
    have same : lexeme '[' rest = (.literal ['['], rest) := by simp only [lexeme, unended]
    rw [ih, counts_of_lexeme same]
    simp [Lexeme.depthAfter]
  | case4 opened depth rest body later ended ih =>
    have same : lexeme '[' rest = (.literal ('[' :: body), later) := by simp only [lexeme, ended]
    rw [ih, counts_of_lexeme same]
    simp [Lexeme.depthAfter]
  | case5 opened depth rest ih =>
    have same : lexeme '{' rest = (.opening, rest) := rfl
    rw [ih, counts_of_lexeme same]
    simp [Lexeme.depthAfter]
  | case6 opened depth rest ih =>
    have same : lexeme '}' rest = (.closing, rest) := rfl
    rw [ih, counts_of_lexeme same]
    simp [Lexeme.depthAfter]
  | case7 opened depth c rest notGuard notClass notOpening notClosing ih =>
    by_cases comma : c = ','
    · subst comma
      have same : lexeme ',' rest = (.comma, rest) := rfl
      rw [ih, counts_of_lexeme same]
      simp [Lexeme.depthAfter]
    · have same : lexeme c rest = (.literal [c], rest) := by simp [lexeme]
      rw [ih, counts_of_lexeme same]
      simp [Lexeme.depthAfter]

section Choices

mutual

/-- How many texts an item stands for. -/
def Node.choices : Node → Nat
  | .text _ => 1
  | .group alternatives => choicesOfAny alternatives

/-- Items in a row stand for every choice of one text of each. -/
def choicesOfAll : List Node → Nat
  | [] => 1
  | node :: nodes => node.choices * choicesOfAll nodes

/-- A group stands for the texts of all its alternatives. -/
def choicesOfAny : List (List Node) → Nat
  | [] => 0
  | alternative :: others => choicesOfAll alternative + choicesOfAny others

end

mutual

theorem Node.length_texts (node : Node) : node.texts.length = node.choices := by
  cases node with
  | text chunk => rw [Node.texts, Node.choices, List.length_singleton]
  | group alternatives => rw [Node.texts, Node.choices, length_textsOfAny]

/-- The number of texts that a tree denotes. -/
theorem length_textsOfAll (nodes : List Node) : (textsOfAll nodes).length = choicesOfAll nodes := by
  cases nodes with
  | nil => rw [textsOfAll, choicesOfAll, List.length_singleton]
  | cons node nodes =>
    rw [textsOfAll, choicesOfAll, length_product, Node.length_texts, length_textsOfAll]

theorem length_textsOfAny (alternatives : List (List Node)) :
    (textsOfAny alternatives).length = choicesOfAny alternatives := by
  cases alternatives with
  | nil => rw [textsOfAny, choicesOfAny, List.length_nil]
  | cons alternative others =>
    rw [textsOfAny, choicesOfAny, List.length_append, length_textsOfAll, length_textsOfAny]

end

/-- A tree of a pattern stands for some text. -/
theorem Parses.choices_pos {lexemes : List Lexeme} {tree : List Node} (parses : Parses lexemes tree) :
    0 < choicesOfAll tree := by
  have filled := denoted_ne_nil lexemes
  rw [denoted_of_parses parses] at filled
  rw [← length_textsOfAll]
  exact List.length_pos_iff.mpr filled

end Choices

section Outcome

variable {pattern : Text}

theorem replacements_ne_nil (entry : Entry) (group : Group) : entry.replacements group ≠ [] := by
  intro none
  have parts := List.map_eq_nil_iff.mp (List.map_eq_nil_iff.mp none)
  exact separate_ne_nil 0 _ parts

/-- While all entries leave a group open, working them off finds no text and ends with such a group. -/
theorem drain_of_opened {found : List Text} {entries : List Entry} (nonempty : entries ≠ [])
    (opened : ∀ entry ∈ entries, 0 < entry.depth) :
    ∃ current, drain pattern found entries = .error (.unclosedGroup current) := by
  fun_induction drain pattern found entries with
  | case1 => exact absurd rfl nonempty
  | case2 found entry rest unclosed => exact ⟨entry.current, rfl⟩
  | case3 found entry rest noGroup full =>
    -- An entry without groups would have none open.
    exact absurd (texts_of_noGroup noGroup).2 (Nat.ne_of_gt (opened entry List.mem_cons_self))
  | case4 found entry rest noGroup free ih =>
    exact absurd (texts_of_noGroup noGroup).2 (Nat.ne_of_gt (opened entry List.mem_cons_self))
  | case5 found entry rest group searched ih =>
    apply ih
    · intro none
      exact replacements_ne_nil entry group (List.append_eq_nil_iff.mp none).1
    · intro other member
      rcases List.mem_append.mp member with replaced | member
      · -- What replaces an entry leaves as many groups open as the entry does.
        rw [depth_replacement searched replaced]
        exact opened entry List.mem_cons_self
      · exact opened other (List.mem_cons_of_mem _ member)

theorem expand_of_opened (few : countGroups pattern ≤ maxGroups)
    (opened : 0 < depthAfter 0 (lex pattern)) :
    ∃ current, expand pattern = .error (.unclosedGroup current) := by
  rw [expand, if_neg (Nat.not_lt.mpr few)]
  apply drain_of_opened (List.cons_ne_nil _ _)
  intro entry member
  rw [List.mem_singleton.mp member]
  exact opened

theorem expand_of_parses (few : countGroups pattern ≤ maxGroups) {tree : List Node}
    (parses : Parses (lex pattern) tree) (closed : depthAfter 0 (lex pattern) = 0) :
    expand pattern = if choicesOfAll tree ≤ maxExpansions then .ok (textsOfAll tree)
      else .error (.tooManyPatterns pattern) := by
  have texts : (Entry.ofPattern pattern).texts = textsOfAll tree := by
    rw [← denoted_of_parses parses]
    exact List.map_id _
  have drained := drain_eq pattern [] [.ofPattern pattern] (by
    intro entry member
    rw [List.mem_singleton.mp member]
    exact closed) (Nat.zero_le _)
  rw [List.flatMap_singleton, texts, List.length_nil, Nat.zero_add, length_textsOfAll] at drained
  rw [expand, if_neg (Nat.not_lt.mpr few), drained]
  rfl

/-- An expansion fails for too many groups, for a group that is not closed or for too many texts, in this
order, and in no other case. If it does not fail, it finds as many texts as the recurrence says. -/
theorem expand_outcome (pattern : Text) :
    ((∃ count, expand pattern = .error (.tooManyGroups count)) ↔ maxGroups < (survey 0 0 pattern).1)
      ∧ ((survey 0 0 pattern).1 ≤ maxGroups →
        ((∃ current, expand pattern = .error (.unclosedGroup current)) ↔ 0 < (survey 0 0 pattern).2)
          ∧ ((survey 0 0 pattern).2 = 0 →
            ∃ tree, (∀ other, Parses (lex pattern) other ↔ other = tree)
              ∧ ((∃ whole, expand pattern = .error (.tooManyPatterns whole))
                ↔ maxExpansions < choicesOfAll tree)
              ∧ (choicesOfAll tree ≤ maxExpansions →
                ∃ texts, expand pattern = .ok texts ∧ texts.length = choicesOfAll tree
                  ∧ 1 ≤ texts.length))) := by
  rw [survey_eq, Nat.zero_add]
  -- The checks in their order: the number of groups, then the depth, then the number of texts.
  by_cases many : maxGroups < countGroups pattern
  · have result : expand pattern = .error (.tooManyGroups (countGroups pattern)) := by
      rw [expand, if_pos many]
    exact ⟨iff_of_true ⟨_, result⟩ many, fun few => absurd many (Nat.not_lt.mpr few)⟩
  have few := Nat.not_lt.mp many
  rcases Nat.eq_zero_or_pos (depthAfter 0 (lex pattern)) with closed | opened
  · obtain ⟨tree, parses⟩ := exists_parses closed
    have unique (other : List Node) : Parses (lex pattern) other ↔ other = tree :=
      ⟨fun also => also.unique parses, fun same => same ▸ parses⟩
    -- With all groups closed there is one tree, and it says how many texts there are.
    rw [expand_of_parses few parses closed]
    split
    · next room =>
      refine ⟨by simp [many], fun _ => ⟨by simp [closed], fun _ => ⟨tree, unique, ?_, fun _ => ?_⟩⟩⟩
      · simp [Nat.not_lt.mpr room]
      · refine ⟨_, rfl, length_textsOfAll tree, ?_⟩
        rw [length_textsOfAll]
        exact parses.choices_pos
    · next full =>
      refine ⟨by simp [many], fun _ => ⟨by simp [closed], fun _ => ⟨tree, unique, ?_, fun room => ?_⟩⟩⟩
      · simp [Nat.lt_of_not_le full]
      · exact absurd room full
  · obtain ⟨current, result⟩ := expand_of_opened few opened
    rw [result]
    refine ⟨by simp [many], fun _ => ⟨by simp [opened], fun closed => ?_⟩⟩
    exact absurd closed (Nat.ne_of_gt opened)

end Outcome

end RootedGlob.Brace
