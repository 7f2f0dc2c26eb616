import RootedGlob.Brace.Group

/-!
# Brace expansion

A pattern with groups stands for the patterns that arise when every group is replaced by one of its
alternatives. Expansion keeps a stack of entries, each a text whose beginning is known to hold no
group. The first group of the top entry is replaced by each of its alternatives in turn, which gives
the entries that take its place; an entry without a group is a result. Results therefore come in the
order of the alternatives, those of the leftmost group varying slowest.

A replacement shortens the text still to be searched and takes an opening brace out of it. So the
weight of an entry, a power of its length whose exponent counts its braces, exceeds the weights of
all entries that replace it together (`weight_replacements`), and the expansion ends on every input.
-/

namespace RootedGlob.Brace

/-- How many groups a pattern may hold. -/
def maxGroups : Nat := 1024

/-- How many patterns one pattern may stand for. -/
def maxExpansions : Nat := 4096

inductive ExpansionError where
  | tooManyGroups (count : Nat)
  /-- An opening brace is never closed; the text is the partly expanded pattern that shows it. -/
  | unclosedGroup (current : Text)
  | tooManyPatterns (pattern : Text)
deriving DecidableEq, Repr

namespace ExpansionError

def detail : ExpansionError → Text
  | tooManyGroups count =>
    "pattern has ".toList ++ Text.ofNat count ++ " brace groups, more than the limit of ".toList
      ++ Text.ofNat maxGroups
  | unclosedGroup current => "unclosed '\x7b' in ".toList ++ current
  | tooManyPatterns pattern =>
    "brace expansion of ".toList ++ pattern ++ " exceeds ".toList ++ Text.ofNat maxExpansions
      ++ " patterns".toList

end ExpansionError

/-- A partly expanded pattern: a beginning without groups, and the text still to be searched. -/
structure Entry where
  settled : Text
  pending : Text
deriving DecidableEq, Repr

namespace Entry

def ofPattern (pattern : Text) : Entry := ⟨[], pattern⟩

/-- The whole partly expanded pattern. -/
def current (entry : Entry) : Text := entry.settled ++ entry.pending

/-- The entries that replace one whose first group was found. -/
def replacements (entry : Entry) (group : Group) : List Entry :=
  (alternatives group.body).map fun alternative =>
    ⟨entry.settled ++ group.before, alternative ++ group.after⟩

/-- A measure that exceeds the sum over the entries that replace this one. -/
def weight (entry : Entry) : Nat :=
  Nat.pow (entry.pending.length + 1) (entry.pending.count '{')

/-- The weight of a stack of entries. -/
def totalWeight : List Entry → Nat
  | [] => 0
  | entry :: rest => entry.weight + totalWeight rest

end Entry

theorem sources_sublist {part whole : List Lexeme} (sub : part.Sublist whole) :
    (sources part).Sublist (sources whole) := by
  induction sub with
  | slnil => exact .slnil
  | cons lexeme _ ih => exact ih.trans (List.sublist_append_right _ _)
  | cons_cons lexeme _ ih => exact (List.Sublist.refl _).append ih

theorem length_lex (text : Text) : (lex text).length ≤ text.length := by
  fun_induction lex text with
  | case1 => simp
  | case2 c rest ih => exact Nat.succ_le_succ (Nat.le_trans ih (length_lexeme c rest))

theorem length_prepend (lexeme : Lexeme) {parts : List (List Lexeme)} (nonempty : parts ≠ []) :
    (prepend lexeme parts).length = parts.length := by
  cases parts <;> simp_all [prepend]

theorem length_separate (depth : Nat) (lexemes : List Lexeme) :
    (separate depth lexemes).length ≤ lexemes.length + 1 := by
  fun_induction separate depth lexemes with
  | case4 rest ih => simpa using ih
  | case1 => simp
  | _ => rw [length_prepend _ (separate_ne_nil _ _)]; simp only [List.length_cons]; omega

theorem length_alternatives (body : Text) : (alternatives body).length ≤ body.length + 1 := by
  have := length_separate 0 (lex body)
  have := length_lex body
  simp only [alternatives, List.length_map]
  omega

theorem sublist_of_mem_prepend {lexeme : Lexeme} {parts : List (List Lexeme)} {all part}
    (below : ∀ part ∈ parts, part.Sublist all) (member : part ∈ prepend lexeme parts) :
    part.Sublist (lexeme :: all) := by
  match parts, below with
  | [], _ =>
    rw [prepend, List.mem_singleton] at member
    exact member ▸ .cons_cons _ (List.nil_sublist _)
  | first :: others, below =>
    rcases List.mem_cons.mp member with rfl | member
    · exact .cons_cons _ (below first List.mem_cons_self)
    · exact .cons _ (below part (List.mem_cons_of_mem _ member))

theorem sublist_of_mem_separate {depth : Nat} {lexemes part : List Lexeme}
    (member : part ∈ separate depth lexemes) : part.Sublist lexemes := by
  fun_induction separate depth lexemes generalizing part with
  | case1 => simp_all
  | case4 rest ih =>
    rcases List.mem_cons.mp member with rfl | member
    · exact List.nil_sublist _
    · exact .cons _ (ih member)
  | case2 _ _ ih => exact sublist_of_mem_prepend (fun _ => ih) member
  | case3 _ _ ih => exact sublist_of_mem_prepend (fun _ => ih) member
  | case5 _ _ _ ih => exact sublist_of_mem_prepend (fun _ => ih) member
  | case6 _ _ _ ih => exact sublist_of_mem_prepend (fun _ => ih) member

theorem sublist_of_mem_alternatives {body alternative : Text}
    (member : alternative ∈ alternatives body) : alternative.Sublist body := by
  obtain ⟨part, inside, rfl⟩ := List.mem_map.mp member
  have := sources_sublist (sublist_of_mem_separate inside)
  rwa [sources_lex] at this

theorem weight_pos (entry : Entry) : 0 < entry.weight := Nat.pow_pos (Nat.succ_pos _)

theorem totalWeight_append (first second : List Entry) :
    Entry.totalWeight (first ++ second) = Entry.totalWeight first + Entry.totalWeight second := by
  induction first with
  | nil => simp [Entry.totalWeight]
  | cons entry rest ih => simp only [List.cons_append, Entry.totalWeight, ih, Nat.add_assoc]

theorem totalWeight_le {bound : Nat} {entries : List Entry}
    (below : ∀ entry ∈ entries, entry.weight ≤ bound) :
    Entry.totalWeight entries ≤ entries.length * bound := by
  induction entries with
  | nil => simp [Entry.totalWeight]
  | cons entry rest ih =>
    have first := below entry List.mem_cons_self
    have others := ih fun other member => below other (List.mem_cons_of_mem _ member)
    simp only [Entry.totalWeight, List.length_cons, Nat.add_mul, Nat.one_mul]
    omega

/-- The entries that replace one weigh less than it does, all together. -/
theorem weight_replacements (entry : Entry) {group : Group}
    (found : findGroup entry.pending = .group group) :
    Entry.totalWeight (entry.replacements group) < entry.weight := by
  obtain ⟨settled, pending⟩ := entry
  have whole := findGroup_eq found
  simp only at whole
  let base := group.body.length + group.after.length + 1
  let braces := group.body.count '{' + group.after.count '{'
  have each : ∀ replacement ∈ Entry.replacements ⟨settled, pending⟩ group,
      replacement.weight ≤ Nat.pow base braces := by
    intro replacement member
    obtain ⟨alternative, inside, rfl⟩ := List.mem_map.mp member
    have sub := sublist_of_mem_alternatives inside
    have shorter := sub.length_le
    have fewer := sub.count_le '{'
    simp only [Entry.weight, List.length_append, List.count_append]
    exact Nat.le_trans (Nat.pow_le_pow_left (by simp only [base]; omega) _)
      (Nat.pow_le_pow_right (by simp only [base]; omega) (by simp only [braces]; omega))
  have total := totalWeight_le each
  have many : (Entry.replacements ⟨settled, pending⟩ group).length ≤ base := by
    have := length_alternatives group.body
    simp only [Entry.replacements, List.length_map, base]
    omega
  have product : (Entry.replacements ⟨settled, pending⟩ group).length * Nat.pow base braces
      ≤ Nat.pow base (braces + 1) := by
    rw [Nat.mul_comm]
    exact Nat.mul_le_mul_left _ many
  have lengthAll : base < pending.length + 1 := by
    rw [whole]
    simp only [List.length_append, List.length_cons, base]
    omega
  have countAll : braces + 1 ≤ pending.count '{' := by
    rw [whole]
    simp only [List.count_append, List.count_cons, braces]
    simp
    omega
  have grows : Nat.pow base (braces + 1) < Nat.pow (pending.length + 1) (braces + 1) :=
    Nat.pow_lt_pow_left lengthAll (Nat.succ_ne_zero _)
  have reaches : Nat.pow (pending.length + 1) (braces + 1)
      ≤ Nat.pow (pending.length + 1) (pending.count '{') :=
    Nat.pow_le_pow_right (Nat.succ_pos _) countAll
  exact Nat.lt_of_le_of_lt (Nat.le_trans total product) (Nat.lt_of_lt_of_le grows reaches)

/-- Works off a stack of entries. The patterns found so far come last one first. -/
def drain (pattern : Text) (found : List Text) : List Entry → Except ExpansionError (List Text)
  | [] => .ok found.reverse
  | entry :: rest =>
    match _searched : findGroup entry.pending with
    | .unclosed => .error (.unclosedGroup entry.current)
    | .noGroup =>
      if maxExpansions ≤ found.length then .error (.tooManyPatterns pattern)
      else drain pattern (entry.current :: found) rest
    | .group group => drain pattern found (entry.replacements group ++ rest)
termination_by entries => Entry.totalWeight entries
decreasing_by
  · have := weight_pos entry
    simp only [Entry.totalWeight]
    omega
  · have := weight_replacements entry ‹_›
    simp only [totalWeight_append, Entry.totalWeight]
    omega

/-- The patterns that a pattern with groups stands for, in order. -/
def expand (pattern : Text) : Except ExpansionError (List Text) :=
  if maxGroups < countGroups pattern then .error (.tooManyGroups (countGroups pattern))
  else drain pattern [] [.ofPattern pattern]

/-- One pattern that stands for all the given ones: the only one, or a group of them. -/
def alternation : List Text → Text
  | [] => []
  | [single] => single
  | patterns => '{' :: [','].intercalate patterns ++ ['}']

end RootedGlob.Brace
