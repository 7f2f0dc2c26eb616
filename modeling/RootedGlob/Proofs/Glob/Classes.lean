import Mathlib.Data.List.Infix
import Mathlib.Logic.Relation
import RootedGlob.Proofs.Brace.Lexing
import RootedGlob.Proofs.Glob.Segments

/-!
# Where classes end

A class is read twice: brace expansion passes over it, so that no mark inside counts, and compiling makes a token of
it. Both readings look for the closing bracket behind a first member. They differ in what may stand in front of this
member: a `!` for both, a `^` for brace expansion only. So they find the same end, or none, exactly if no `^]` stands
behind the opening bracket (`ends_eq_iff`). As long as compiling comes to no such bracket, brace expansion meets the
brackets that compiling meets (`Leads.meets`), and if the text compiles, also conversely (`exists_leads`). Then what
brace expansion protects is what compiling reads as a class (`classes_agree_iff`).
-/

namespace RootedGlob

namespace Brace

/-- Reading lexemes comes to a place in a text: the lexemes are those of the text before it and those of the text
ahead. -/
def Meets (text ahead : Text) : Prop := ∃ front, lex text = front ++ lex ahead ∧ text = sources front ++ ahead

theorem meets_self (text : Text) : Meets text text := ⟨[], rfl, rfl⟩

theorem not_meets_nil {c : Char} {ahead : Text} : ¬ Meets [] (c :: ahead) := by
  rintro ⟨front, -, same⟩
  exact absurd same.symm (by simp)

/-- Reading goes on behind the first lexeme. -/
theorem meets_cons_iff {c : Char} {rest ahead : Text} :
    Meets (c :: rest) ahead ↔ ahead = c :: rest ∨ Meets (lexeme c rest).2 ahead := by
  constructor
  · rintro ⟨front, lexed, whole⟩
    cases front with
    | nil => exact .inl whole.symm
    | cons first front =>
      rw [lex_cons, List.cons_append, List.cons.injEq] at lexed
      obtain ⟨rfl, lexed⟩ := lexed
      rw [← source_lexeme, sources_cons, List.append_assoc] at whole
      exact .inr ⟨front, lexed, List.append_cancel_left whole⟩
  · rintro (rfl | ⟨front, lexed, whole⟩)
    · exact meets_self _
    · refine ⟨(lexeme c rest).1 :: front, by rw [lex_cons, lexed, List.cons_append], ?_⟩
      rw [sources_cons, List.append_assoc, ← whole, source_lexeme]

/-- A character that starts neither an escape nor a class is a lexeme by itself. -/
theorem lexeme_single {c : Char} (plain : c ≠ '\\' ∧ c ≠ '[') (rest : Text) : (lexeme c rest).2 = rest := by
  unfold lexeme
  split
  · rfl
  · rfl
  · rfl
  · exact absurd rfl plain.1
  · exact absurd rfl plain.2
  · rfl

/-- A bracket that is met is met behind such a character. -/
theorem meets_single_iff {c : Char} (plain : c ≠ '\\' ∧ c ≠ '[') {text rest : Text} :
    Meets (c :: text) ('[' :: rest) ↔ Meets text ('[' :: rest) := by
  rw [meets_cons_iff, lexeme_single plain]
  refine or_iff_right fun same => ?_
  exact plain.2 (List.cons.inj same).1.symm

/-- The text behind a class that starts behind an opening bracket. -/
def behindClass? (rest : Text) : Option Text := (cutClass? rest).map Prod.snd

theorem lexeme_class {rest later : Text} (ended : behindClass? rest = some later) :
    (lexeme '[' rest).2 = later := by
  obtain ⟨⟨body, later⟩, found, rfl⟩ := Option.map_eq_some_iff.mp ended
  simp only [lexeme, found]

end Brace

namespace Glob

open Brace (cutClass? classLead)

/-- The text behind a class that starts behind an opening bracket. -/
def behindClass? (rest : Text) : Option Text := (readClass? rest).map Prod.snd

section Ends

theorem map_snd_cutAt?_cons {mark c : Char} (other : c ≠ mark) (rest : Text) :
    (Text.cutAt? mark (c :: rest)).map Prod.snd = (Text.cutAt? mark rest).map Prod.snd := by
  rw [Text.cutAt?, if_neg other, Option.map_map]
  rfl

theorem exists_of_map_snd_cutAt? {mark : Char} {rest later : Text}
    (found : (Text.cutAt? mark rest).map Prod.snd = some later) : ∃ before, rest = before ++ mark :: later := by
  obtain ⟨⟨before, later⟩, cutAt, rfl⟩ := Option.map_eq_some_iff.mp found
  exact ⟨before, Text.eq_of_cutAt? cutAt⟩

theorem map_snd_cutAt?_ne (mark : Char) (rest : Text) : (Text.cutAt? mark rest).map Prod.snd ≠ some rest := by
  intro same
  obtain ⟨before, longer⟩ := exists_of_map_snd_cutAt? same
  exact absurd (congrArg List.length longer) (by simp; omega)

theorem brace_behindClass?_eq (rest : Text) :
    Brace.behindClass? rest = (Text.cutAt? ']' (classLead rest).2).map Prod.snd := by
  rw [Brace.behindClass?, cutClass?, Option.map_map]
  rfl

/-- Brace expansion passes over a sign of negation and one more character. -/
theorem brace_behindClass?_signed {sign : Char} (negation : sign = '!' ∨ sign = '^') (first : Char)
    (rest : Text) : Brace.behindClass? (sign :: first :: rest) = (Text.cutAt? ']' rest).map Prod.snd := by
  rw [brace_behindClass?_eq]
  by_cases closing : first = ']'
  · subst closing
    rcases negation with rfl | rfl <;> rfl
  · have lead : (classLead (sign :: first :: rest)).2 = first :: rest := by
      rcases negation with rfl | rfl <;> simp [classLead, closing]
    rw [lead, map_snd_cutAt?_cons closing]

/-- Without such a sign it passes over one character. -/
theorem brace_behindClass?_plain {first : Char} (other : first ≠ '!' ∧ first ≠ '^') (rest : Text) :
    Brace.behindClass? (first :: rest) = (Text.cutAt? ']' rest).map Prod.snd := by
  rw [brace_behindClass?_eq]
  by_cases closing : first = ']'
  · subst closing
    rfl
  · have lead : (classLead (first :: rest)).2 = first :: rest := by simp [classLead, closing, other]
    rw [lead, map_snd_cutAt?_cons closing]

/-- Compiling passes over a `!` and one more character. -/
theorem behindClass?_negated (first : Char) (rest : Text) :
    behindClass? ('!' :: first :: rest) = (Text.cutAt? ']' rest).map Prod.snd := by
  rw [behindClass?, readClass?, Option.map_map]
  rfl

/-- Without a `!` it passes over one character, also over a `^`. -/
theorem behindClass?_plain {first : Char} (other : first ≠ '!') (rest : Text) :
    behindClass? (first :: rest) = (Text.cutAt? ']' rest).map Prod.snd := by
  rw [behindClass?, readClass?.eq_def]
  split
  · next same => exact absurd (List.cons.inj same).1 other
  · next same => exact absurd (List.cons.inj same).1 other
  · next same =>
    obtain ⟨rfl, rfl⟩ := List.cons.inj same
    rw [Option.map_map]
    rfl
  · next same => cases same

theorem suffix_of_behindClass? {rest later : Text} (ended : behindClass? rest = some later) : later <:+ rest := by
  have cut {text : Text} (found : (Text.cutAt? ']' text).map Prod.snd = some later) : later <:+ text := by
    obtain ⟨before, rfl⟩ := exists_of_map_snd_cutAt? found
    exact ⟨before ++ [']'], by simp⟩
  cases rest with
  | nil => cases ended
  | cons first rest =>
    by_cases negated : first = '!'
    · subst negated
      cases rest with
      | nil => cases ended
      | cons first rest =>
        rw [behindClass?_negated] at ended
        exact (cut ended).trans ⟨['!', first], rfl⟩
    · rw [behindClass?_plain negated] at ended
      exact (cut ended).trans (List.suffix_cons _ _)

/-- A bracket behind a `^` is a member of the class for brace expansion, and the end of the class for compiling. -/
theorem behindClass?_circumflex (rest : Text) :
    behindClass? ('^' :: ']' :: rest) = some rest
      ∧ Brace.behindClass? ('^' :: ']' :: rest) = (Text.cutAt? ']' rest).map Prod.snd :=
  ⟨behindClass?_plain (by decide) _, brace_behindClass?_signed (.inr rfl) _ _⟩

/-- Both readings find the same end of a class, or both find none, unless a `^]` stands behind the bracket. -/
theorem ends_eq_iff (rest : Text) :
    Brace.behindClass? rest = behindClass? rest ↔ ¬ ['^', ']'] <+: rest := by
  match rest with
  | [] => exact iff_of_true rfl (by decide)
  | first :: rest =>
    by_cases negated : first = '!'
    · subst negated
      refine iff_of_true ?_ (by simp)
      cases rest with
      | nil => rfl
      | cons first rest => rw [brace_behindClass?_signed (.inl rfl), behindClass?_negated]
    · rw [behindClass?_plain negated]
      by_cases circumflex : first = '^'
      · subst circumflex
        -- What compiling takes for the first member is a sign of negation for brace expansion.
        cases rest with
        | nil => exact iff_of_true rfl (by decide)
        | cons next rest =>
          rw [brace_behindClass?_signed (.inr rfl)]
          by_cases closing : next = ']'
          · subst closing
            exact iff_of_false (map_snd_cutAt?_ne ']' rest) (by simp)
          · rw [map_snd_cutAt?_cons closing]
            exact iff_of_true rfl (by simp [Ne.symm closing])
      · rw [brace_behindClass?_plain ⟨negated, circumflex⟩]
        exact iff_of_true rfl (by simp [Ne.symm circumflex])

end Ends

section Steps

/-- Where compiling stands: the character read last, whether a `**` would be written twice, and the text ahead. -/
structure Place where
  before : Option Char := none
  repeats : Bool := false
  ahead : Text

/-- One step of compiling, with the tokens that it writes. -/
inductive Step : Place → List Token → Place → Prop
  | run {before : Option Char} {repeats : Bool} {rest : Text} (single : rest.head? ≠ some '*') :
      Step ⟨before, repeats, '*' :: rest⟩ [.anyRun] ⟨some '*', false, rest⟩
  | directories {before : Option Char} {repeats : Bool} (rest : Text)
      (start : before = none ∨ before = some '/') :
      Step ⟨before, repeats, '*' :: '*' :: '/' :: rest⟩ (if repeats then [] else [.anyDirectories])
        ⟨some '/', before.isSome, rest⟩
  | lastDirectories {before : Option Char} {repeats : Bool} (start : before = none ∨ before = some '/') :
      Step ⟨before, repeats, ['*', '*']⟩ (if repeats then [] else [.anyDirectories]) ⟨some '*', false, []⟩
  | anyChar {before : Option Char} {repeats : Bool} (rest : Text) :
      Step ⟨before, repeats, '?' :: rest⟩ [.anyChar] ⟨some '?', false, rest⟩
  | charClass {before : Option Char} {repeats : Bool} {rest later : Text} {token : Token}
      (read : readClass? rest = some (token, later)) :
      Step ⟨before, repeats, '[' :: rest⟩ [token] ⟨some ']', false, later⟩
  | literal {before : Option Char} {repeats : Bool} {c : Char} (rest : Text) (verbatim : isVerbatim c) :
      Step ⟨before, repeats, c :: rest⟩ [.literal c] ⟨some c, false, rest⟩

/-- What compiling gives from a place on. -/
def Place.compile (place : Place) : Except Fault (List Token) := compileFrom place.before place.repeats place.ahead

/-- A step is what compiling does first: it writes the tokens, and goes on behind. -/
theorem compile_of_step {place next : Place} {written : List Token} (step : Step place written next) :
    place.compile = next.compile.map (written ++ ·) := by
  cases step with
  | run single => exact compileFrom_star _ _ _ single
  | directories rest start =>
    rw [Place.compile, compileFrom.eq_def]
    simp only [if_pos start]
    rfl
  | lastDirectories start =>
    rw [Place.compile, compileFrom.eq_def, Place.compile, compileFrom]
    simp [if_pos start, Except.map]
  | anyChar rest =>
    rw [Place.compile, compileFrom.eq_def]
    rfl
  | charClass read => exact compileFrom_class _ _ read
  | literal rest verbatim => exact compileFrom_verbatim _ _ verbatim rest

/-- Compiling that succeeds takes a step wherever there is text ahead. -/
theorem exists_step {place : Place} {tokens : List Token} (compiled : place.compile = .ok tokens)
    (filled : place.ahead ≠ []) :
    ∃ written next rest, Step place written next ∧ next.compile = .ok rest ∧ tokens = written ++ rest := by
  obtain ⟨before, repeats, ahead⟩ := place
  have some : ∃ written next, Step ⟨before, repeats, ahead⟩ written next := by
    rw [Place.compile] at compiled
    simp only at compiled filled
    -- One case for each branch of compiling; the branches without a step are faults.
    fun_induction compileFrom before repeats ahead with
    | case1 => exact absurd rfl filled
    | case2 => cases compiled
    | case3 before repeats start => exact ⟨_, _, .lastDirectories start⟩
    | case4 before repeats start _ rest => exact ⟨_, _, .directories rest start⟩
    | case5 => cases compiled
    | case6 => cases compiled
    | case7 before repeats rest _ single =>
      refine ⟨_, _, .run fun star => ?_⟩
      obtain ⟨more, same⟩ := List.head?_eq_some_iff.mp star
      exact single more same
    | case8 before repeats rest => exact ⟨_, _, .anyChar rest⟩
    | case9 => cases compiled
    | case10 before repeats rest token later read => exact ⟨_, _, .charClass read⟩
    | case11 before repeats c rest _ _ star mark bracket =>
      refine ⟨_, _, .literal rest ?_⟩
      simp only [isVerbatim, Bool.and_eq_true, bne_iff_ne]
      exact ⟨⟨star, mark⟩, bracket⟩
  obtain ⟨written, next, step⟩ := some
  obtain ⟨rest, behind, whole⟩ := map_eq_ok_iff.mp ((compile_of_step step).symm.trans compiled)
  exact ⟨written, next, rest, step, behind, whole.symm⟩

/-- Compiling comes from one place to another, step by step. -/
def Leads : Place → Place → Prop := Relation.ReflTransGen fun place next => ∃ written, Step place written next

/-- Whatever compiling comes to, it has to compile what is ahead there. -/
theorem Leads.compile_eq {place next : Place} (leads : Leads place next) :
    ∃ written, place.compile = next.compile.map (written ++ ·) := by
  induction leads using Relation.ReflTransGen.head_induction_on with
  | refl => exact ⟨[], by cases next.compile <;> rfl⟩
  | head step _ ih =>
    obtain ⟨first, step⟩ := step
    obtain ⟨written, same⟩ := ih
    refine ⟨first ++ written, ?_⟩
    rw [compile_of_step step, same, map_map]
    simp [Function.comp_def]

theorem suffix_of_step {place next : Place} {written : List Token} (step : Step place written next) :
    next.ahead <:+ place.ahead ∧ next.ahead.length < place.ahead.length := by
  cases step with
  | run => exact ⟨List.suffix_cons _ _, by simp⟩
  | directories rest => exact ⟨⟨['*', '*', '/'], rfl⟩, by simp; omega⟩
  | lastDirectories => exact ⟨List.nil_suffix, by simp⟩
  | anyChar => exact ⟨List.suffix_cons _ _, by simp⟩
  | charClass read =>
    refine ⟨?_, ?_⟩
    · exact (suffix_of_behindClass? (by rw [behindClass?, read]; rfl)).trans (List.suffix_cons _ _)
    · exact Nat.lt_succ_of_lt (length_of_readClass? read)
  | literal => exact ⟨List.suffix_cons _ _, by simp⟩

theorem Leads.suffix {place next : Place} (leads : Leads place next) : next.ahead <:+ place.ahead := by
  induction leads using Relation.ReflTransGen.head_induction_on with
  | refl => exact List.suffix_rfl
  | head step _ ih =>
    obtain ⟨written, step⟩ := step
    exact ih.trans (suffix_of_step step).1

/-- A bracket that brace expansion meets behind a place stands there, or is met behind the next step of compiling. -/
theorem meets_of_step {place next : Place} {written : List Token} (step : Step place written next)
    (absent : '\\' ∉ place.ahead) (other : ¬ ['[', '^', ']'] <+: place.ahead) {rest : Text} :
    Brace.Meets place.ahead ('[' :: rest)
      ↔ place.ahead = '[' :: rest ∨ Brace.Meets next.ahead ('[' :: rest) := by
  have single {c : Char} (plain : c ≠ '\\' ∧ c ≠ '[') (text : Text) : Brace.Meets (c :: text) ('[' :: rest)
      ↔ c :: text = '[' :: rest ∨ Brace.Meets text ('[' :: rest) := by
    rw [Brace.meets_single_iff plain]
    exact (or_iff_right fun same => plain.2 (List.cons.inj same).1).symm
  cases step with
  | run => exact single (by decide) _
  | anyChar => exact single (by decide) _
  | literal text verbatim =>
    simp only [isVerbatim, Bool.and_eq_true, bne_iff_ne] at verbatim
    refine single ⟨?_, verbatim.2⟩ text
    rintro rfl
    exact absent List.mem_cons_self
  | directories =>
    -- Brace expansion reads the two stars and the separator one by one.
    rw [Brace.meets_single_iff (by decide), Brace.meets_single_iff (by decide), Brace.meets_single_iff (by decide)]
    simp
  | lastDirectories =>
    rw [Brace.meets_single_iff (by decide), Brace.meets_single_iff (by decide)]
    simp
  | charClass read =>
    rw [Brace.meets_cons_iff, Brace.lexeme_class ?_, eq_comm]
    rw [(ends_eq_iff _).mpr ?_, behindClass?, read, Option.map_some]
    simpa using other

/-- A place from which on there is no backslash, and compiling does not come to a `[^]`. -/
structure Clear (place : Place) : Prop where
  absent : '\\' ∉ place.ahead
  other : ∀ before repeats later, ¬ Leads place ⟨before, repeats, '[' :: '^' :: ']' :: later⟩

theorem Clear.not_prefix {place : Place} (clear : Clear place) : ¬ ['[', '^', ']'] <+: place.ahead := by
  rintro ⟨later, same⟩
  refine clear.other place.before place.repeats later ?_
  rw [show '[' :: '^' :: ']' :: later = place.ahead from same]
  exact Relation.ReflTransGen.refl

theorem Clear.step {place next : Place} {written : List Token} (clear : Clear place)
    (step : Step place written next) : Clear next where
  absent member := clear.absent ((suffix_of_step step).1.subset member)
  other before repeats later leads := clear.other before repeats later (.head ⟨written, step⟩ leads)

/-- The brackets that compiling comes to are met by brace expansion. -/
theorem Leads.meets {place next : Place} (leads : Leads place next) (clear : Clear place) {rest : Text}
    (bracket : next.ahead = '[' :: rest) : Brace.Meets place.ahead ('[' :: rest) := by
  -- The first step is split off, because `Clear` is about what lies ahead.
  induction leads using Relation.ReflTransGen.head_induction_on with
  | refl => exact bracket ▸ Brace.meets_self _
  | head step _ ih =>
    obtain ⟨written, step⟩ := step
    exact (meets_of_step step clear.absent clear.not_prefix).mpr (.inr (ih (clear.step step)))

/-- If the rest of a text compiles, compiling comes to all brackets that brace expansion meets. -/
theorem exists_leads {place : Place} {tokens : List Token} (compiled : place.compile = .ok tokens)
    (clear : Clear place) {rest : Text} (met : Brace.Meets place.ahead ('[' :: rest)) :
    ∃ before repeats, Leads place ⟨before, repeats, '[' :: rest⟩ := by
  -- The bracket stands here, or is met behind the next step, which has less text ahead.
  by_cases here : place.ahead = '[' :: rest
  · exact ⟨place.before, place.repeats, here ▸ Relation.ReflTransGen.refl⟩
  · have filled : place.ahead ≠ [] := by
      intro empty
      rw [empty] at met
      exact Brace.not_meets_nil met
    obtain ⟨written, next, others, step, behind, -⟩ := exists_step compiled filled
    have met' := ((meets_of_step step clear.absent clear.not_prefix).mp met).resolve_left here
    have shorter := (suffix_of_step step).2
    obtain ⟨before, repeats, leads⟩ := exists_leads behind (clear.step step) met'
    exact ⟨before, repeats, .head ⟨written, step⟩ leads⟩
termination_by place.ahead.length

end Steps

/-- Compiling a text comes to a place in it. -/
def Meets (text ahead : Text) : Prop := ∃ before repeats, Leads ⟨none, false, text⟩ ⟨before, repeats, ahead⟩

/-- A bracket at which no class can be read is a fault. -/
theorem compile_of_unended {pattern rest : Text} (met : Meets pattern ('[' :: rest))
    (unended : behindClass? rest = none) : Pattern.compile pattern = .error .invalidRange := by
  obtain ⟨before, repeats, leads⟩ := met
  obtain ⟨written, same⟩ := leads.compile_eq
  have fault : compileFrom before repeats ('[' :: rest) = .error .invalidRange := by
    have none : readClass? rest = none := Option.map_eq_none_iff.mp unended
    rw [compileFrom]
    split
    · rfl
    · next found =>
      rw [none] at found
      cases found
  -- Whatever is written on the way, the fault at the bracket is the result.
  have whole : compileFrom none false pattern = .error .invalidRange := by
    rw [Place.compile, Place.compile, fault] at same
    exact same
  rw [Pattern.compile, whole]
  rfl

/-- Two readings of the classes of a pattern without backslashes. Where both brace expansion and compiling meet an
opening bracket, they find the same end of a class, or both find none, exactly if no `^]` stands behind the bracket;
a bracket behind which compiling finds none is a fault. Behind a `^]`, the class ends at once for compiling, and for
brace expansion at the next closing bracket, if there is one. As long as compiling comes to no `[^]`, brace expansion
keeps every text together that is read as a class, and if the pattern compiles, it keeps no other text together. -/
theorem classes_agree_iff {pattern : Text} (absent : '\\' ∉ pattern) :
    (∀ rest, Brace.Meets pattern ('[' :: rest) → Meets pattern ('[' :: rest) →
        (Brace.behindClass? rest = behindClass? rest ↔ ¬ ['^', ']'] <+: rest)
          ∧ (behindClass? rest = none → Pattern.compile pattern = .error .invalidRange))
      ∧ (∀ later, behindClass? ('^' :: ']' :: later) = some later
        ∧ Brace.behindClass? ('^' :: ']' :: later) = (Text.cutAt? ']' later).map Prod.snd)
      ∧ ((∀ later, ¬ Meets pattern ('[' :: '^' :: ']' :: later)) → ∀ rest later,
        (Meets pattern ('[' :: rest) ∧ behindClass? rest = some later →
          Brace.Meets pattern ('[' :: rest) ∧ Brace.behindClass? rest = some later)
        ∧ ((∃ compiled, Pattern.compile pattern = .ok compiled) →
          Brace.Meets pattern ('[' :: rest) ∧ Brace.behindClass? rest = some later →
          Meets pattern ('[' :: rest) ∧ behindClass? rest = some later)) := by
  refine ⟨fun rest _ met => ⟨ends_eq_iff rest, compile_of_unended met⟩, behindClass?_circumflex, ?_⟩
  intro other rest later
  have clear : Clear ⟨none, false, pattern⟩ :=
    ⟨absent, fun before repeats later leads => other later ⟨before, repeats, leads⟩⟩
  -- A bracket that compiling comes to is not followed by `^]`, so both readings end the class at one place.
  have same (met : Meets pattern ('[' :: rest)) : Brace.behindClass? rest = behindClass? rest := by
    refine (ends_eq_iff rest).mpr ?_
    rintro ⟨more, rfl⟩
    exact other more met
  constructor
  · rintro ⟨met, ended⟩
    obtain ⟨before, repeats, leads⟩ := id met
    exact ⟨leads.meets clear rfl, (same met).trans ended⟩
  · rintro ⟨compiled, ok⟩ ⟨met, ended⟩
    obtain ⟨tokens, found, -⟩ := Pattern.compile_eq_ok_iff.mp ok
    have start : Place.compile ⟨none, false, pattern⟩ = .ok tokens := found
    have met' : Meets pattern ('[' :: rest) := exists_leads start clear met
    exact ⟨met', (same met').symm.trans ended⟩

/-- Classes with a negation, with a `^` and with a bracket as their first member. -/
theorem classes_agree_iff_members :
    let pattern := "*[!],]{[^a],[],]}".toList
    '\\' ∉ pattern ∧ (∀ later, ¬ Meets pattern ('[' :: '^' :: ']' :: later))
      ∧ (∃ compiled, Pattern.compile pattern = .ok compiled)
      ∧ (Brace.Meets pattern "[],]\x7d".toList ∧ Brace.behindClass? "],]\x7d".toList = some "\x7d".toList)
      ∧ (Meets pattern "[],]\x7d".toList ∧ behindClass? "],]\x7d".toList = some "\x7d".toList)
      ∧ Brace.behindClass? "],]\x7d".toList = behindClass? "],]\x7d".toList := by
  have absent : '\\' ∉ "*[!],]{[^a],[],]}".toList := by decide
  -- What the reading meets is an end of the pattern, and none of these begins with the three
  -- characters.
  have clear : ∀ later, ¬ Meets "*[!],]{[^a],[],]}".toList ('[' :: '^' :: ']' :: later) := by
    rintro later ⟨before, repeats, leads⟩
    have none : ∀ tail ∈ "*[!],]{[^a],[],]}".toList.tails, ¬ ['[', '^', ']'] <+: tail := by decide +kernel
    exact none _ ((List.mem_tails _ _).mpr leads.suffix) (List.prefix_append ['[', '^', ']'] later)
  have compiled : ∃ compiled, Pattern.compile "*[!],]{[^a],[],]}".toList = .ok compiled := by
    have succeeds : (Pattern.compile "*[!],]{[^a],[],]}".toList).isOk := by decide +kernel
    cases result : Pattern.compile "*[!],]{[^a],[],]}".toList with
    | error => rw [result] at succeeds; cases succeeds
    | ok pattern => exact ⟨pattern, rfl⟩
  have met : Brace.Meets "*[!],]{[^a],[],]}".toList "[],]\x7d".toList :=
    ⟨Brace.lex "*[!],]\x7b[^a],".toList, by decide +kernel, by decide +kernel⟩
  have ended : Brace.behindClass? "],]\x7d".toList = some "\x7d".toList := by decide
  obtain ⟨ends, -, classes⟩ := classes_agree_iff absent
  have read := (classes clear "],]\x7d".toList "\x7d".toList).2 compiled ⟨met, ended⟩
  exact ⟨absent, clear, compiled, ⟨met, ended⟩, read, (ends _ met read.1).1.mpr (by decide)⟩

/-- The two readings do not agree on all classes. -/
theorem not_ends_eq_circumflex : ¬ ∀ pattern rest, '\\' ∉ pattern → Brace.Meets pattern ('[' :: rest) →
    Meets pattern ('[' :: rest) → Brace.behindClass? rest = behindClass? rest := by
  intro agree
  have start : Meets "[^]{a,b}]".toList "[^]{a,b}]".toList := ⟨none, false, Relation.ReflTransGen.refl⟩
  have same := agree "[^]{a,b}]".toList "^]{a,b}]".toList (by decide) (Brace.meets_self _) start
  exact absurd same (by decide)

end Glob

end RootedGlob
