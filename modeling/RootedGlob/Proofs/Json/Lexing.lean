import RootedGlob.Json
import Mathlib.Data.List.TakeWhile

/-!
# Tokens and their texts

The strings and numbers of JSON are given by a grammar of their own (`IsRaw`, `IsNumber`). What is read follows
the grammar: a text that has tokens is a spread of proper tokens with blank gaps between them
(`spread_of_tokens?`). In the other direction a proper token in front of some text is read as this token, if
the text does not go on with a number (`tokens?_source`).
-/

namespace RootedGlob.Json

section Grammar

/-- What may stand between the quotes of a string. -/
inductive IsRaw : Text → Prop
  | nothing : IsRaw []
  | plain {c : Char} {raw : Text} (ordinary : c ≠ '"' ∧ c ≠ '\\' ∧ 0x20 ≤ c.toNat)
      (behind : IsRaw raw) : IsRaw (c :: raw)
  | short {c : Char} {raw : Text} (escape : isShortEscape c) (behind : IsRaw raw) : IsRaw ('\\' :: c :: raw)
  | codePoint {a b c d : Char} {raw : Text}
      (digits : isHexDigit a ∧ isHexDigit b ∧ isHexDigit c ∧ isHexDigit d) (behind : IsRaw raw) :
      IsRaw ('\\' :: 'u' :: a :: b :: c :: d :: raw)

theorem IsRaw.of_plain {raw : Text}
    (ordinary : ∀ c ∈ raw, c ≠ '"' ∧ c ≠ '\\' ∧ 0x20 ≤ c.toNat) : IsRaw raw := by
  induction raw with
  | nil => exact .nothing
  | cons c raw ih =>
    rw [List.forall_mem_cons] at ordinary
    exact .plain ordinary.1 (ih ordinary.2)

inductive IsWholePart : Text → Prop
  | zero : IsWholePart ['0']
  | digits {c : Char} {digits : Text} (first : c.isDigit ∧ c ≠ '0')
      (others : ∀ d ∈ digits, d.isDigit) : IsWholePart (c :: digits)

inductive IsFraction : Text → Prop
  | nothing : IsFraction []
  | digits {digits : Text} (filled : digits ≠ []) (each : ∀ d ∈ digits, d.isDigit) :
      IsFraction ('.' :: digits)

inductive IsExponent : Text → Prop
  | nothing : IsExponent []
  | digits {mark : Char} {sign digits : Text} (letter : mark = 'e' ∨ mark = 'E')
      (signed : sign = [] ∨ sign = ['+'] ∨ sign = ['-']) (filled : digits ≠ [])
      (each : ∀ d ∈ digits, d.isDigit) : IsExponent (mark :: (sign ++ digits))

inductive IsNumber : Text → Prop
  | parts {sign whole fraction exponent : Text} (signed : sign = [] ∨ sign = ['-'])
      (wholePart : IsWholePart whole) (fractionPart : IsFraction fraction)
      (exponentPart : IsExponent exponent) : IsNumber (sign ++ whole ++ fraction ++ exponent)

namespace Token

/-- How a token is written. -/
def source : Token → Text
  | openObject => ['{']
  | closeObject => ['}']
  | openArray => ['[']
  | closeArray => [']']
  | colon => [':']
  | comma => [',']
  | null => "null".toList
  | bool value => (if value then "true" else "false").toList
  | number literal => literal
  | string raw => '"' :: raw ++ ['"']

/-- Whether a number or a string follows the grammar. -/
def IsProper : Token → Prop
  | number literal => IsNumber literal
  | string raw => IsRaw raw
  | _ => True

def isNumber : Token → Bool
  | number _ => true
  | _ => false

end Token

/-- A text of tokens in a given order, with gaps in front of each of them and behind the last one. -/
inductive Spread (isBetween isLast : Text → Prop) : List Token → Text → Prop
  | nothing {gap : Text} (last : isLast gap) : Spread isBetween isLast [] gap
  | token {gap text : Text} {token : Token} {tokens : List Token} (between : isBetween gap)
      (behind : Spread isBetween isLast tokens text) :
      Spread isBetween isLast (token :: tokens) (gap ++ token.source ++ text)

def IsBlankGap (gap : Text) : Prop := ∀ c ∈ gap, isGap c

end Grammar

section Soundness

variable {text later : Text}

theorem isRaw_of_readString? {raw : Text} (found : readString? text = some (raw, later)) :
    IsRaw raw ∧ text = raw ++ '"' :: later := by
  fun_induction readString? text generalizing raw with
  | case1 rest =>
    obtain ⟨rfl, rfl⟩ := Prod.mk.inj (Option.some.inj found)
    exact ⟨.nothing, rfl⟩
  | case2 a b c d rest digits ih =>
    simp only [Option.map_eq_some_iff, Prod.exists, Prod.mk.injEq] at found
    obtain ⟨raw, _, read, rfl, rfl⟩ := found
    obtain ⟨written, rfl⟩ := ih read
    exact ⟨.codePoint (by simpa [and_assoc] using digits) written, rfl⟩
  | case4 c rest _ escape ih =>
    simp only [Option.map_eq_some_iff, Prod.exists, Prod.mk.injEq] at found
    obtain ⟨raw, _, read, rfl, rfl⟩ := found
    obtain ⟨written, rfl⟩ := ih read
    exact ⟨.short escape written, rfl⟩
  | case7 c rest noQuote _ unescaped visible ih =>
    simp only [Option.map_eq_some_iff, Prod.exists, Prod.mk.injEq] at found
    obtain ⟨raw, _, read, rfl, rfl⟩ := found
    obtain ⟨written, rfl⟩ := ih read
    -- Behind a backslash there is something left to read, so it would have been read as an escape.
    have noEscape : c ≠ '\\' := by
      rintro rfl
      cases raw with
      | nil => exact unescaped _ _ rfl rfl
      | cons d raw => exact unescaped _ _ rfl rfl
    exact ⟨.plain ⟨noQuote, noEscape, Nat.not_lt.mp visible⟩ written, rfl⟩
  | _ => simp at found

theorem isDigit_of_mem_spanDigits {c : Char} (member : c ∈ (Text.spanDigits text).1) : c.isDigit :=
  List.mem_takeWhile_imp member

theorem isWholePart_of_readWhole? {whole : Text} (found : readWhole? text = some (whole, later)) :
    IsWholePart whole ∧ text = whole ++ later := by
  unfold readWhole? at found
  split at found
  · obtain ⟨rfl, rfl⟩ := Prod.mk.inj (Option.some.inj found)
    exact ⟨.zero, rfl⟩
  · next c rest noZero =>
    split at found
    · next digit =>
      obtain ⟨rfl, rfl⟩ := Prod.mk.inj (Option.some.inj found)
      exact ⟨.digits ⟨digit, noZero⟩ fun _ => isDigit_of_mem_spanDigits,
        congrArg (c :: ·) (Text.append_spanDigits rest).symm⟩
    · simp at found
  · simp at found

theorem isFraction_of_readFraction? {fraction : Text} (found : readFraction? text = some (fraction, later)) :
    IsFraction fraction ∧ text = fraction ++ later := by
  unfold readFraction? at found
  split at found
  · next rest =>
    simp only at found
    split at found
    · simp at found
    · next filled =>
      obtain ⟨rfl, rfl⟩ := Prod.mk.inj (Option.some.inj found)
      exact ⟨.digits filled fun _ => isDigit_of_mem_spanDigits, by simp [Text.append_spanDigits]⟩
  · obtain ⟨rfl, rfl⟩ := Prod.mk.inj (Option.some.inj found)
    exact ⟨.nothing, rfl⟩

theorem spanSign_spec (text : Text) :
    ((spanSign text).1 = [] ∨ (spanSign text).1 = ['+'] ∨ (spanSign text).1 = ['-']) ∧
      (spanSign text).1 ++ (spanSign text).2 = text := by
  unfold spanSign
  split <;> simp

theorem isExponent_of_readExponent? {exponent : Text} (found : readExponent? text = some (exponent, later)) :
    IsExponent exponent ∧ text = exponent ++ later := by
  unfold readExponent? at found
  -- An exponent may be missing, but once its letter is there, digits have to follow.
  split at found
  · obtain ⟨rfl, rfl⟩ := Prod.mk.inj (Option.some.inj found)
    exact ⟨.nothing, rfl⟩
  · next mark rest =>
    split at found
    · next letter =>
      simp only at found
      split at found
      · simp at found
      · next filled =>
        obtain ⟨rfl, rfl⟩ := Prod.mk.inj (Option.some.inj found)
        obtain ⟨signed, cut⟩ := spanSign_spec rest
        refine ⟨.digits letter signed filled fun _ => isDigit_of_mem_spanDigits, ?_⟩
        rw [List.cons_append, List.cons_append, List.append_assoc, Text.append_spanDigits, cut]
    · obtain ⟨rfl, rfl⟩ := Prod.mk.inj (Option.some.inj found)
      exact ⟨.nothing, rfl⟩

theorem isNumber_of_readNumber? {literal : Text} (found : readNumber? text = some (literal, later)) :
    IsNumber literal ∧ text = literal ++ later := by
  unfold readNumber? at found
  simp only [bind, Option.bind_eq_some_iff, pure, Prod.exists, Option.some.injEq, Prod.mk.injEq] at found
  obtain ⟨whole, _, readWhole, fraction, _, readFraction, exponent, _, readExponent, rfl, rfl⟩ := found
  obtain ⟨wholePart, unsigned⟩ := isWholePart_of_readWhole? readWhole
  obtain ⟨fractionPart, rfl⟩ := isFraction_of_readFraction? readFraction
  obtain ⟨exponentPart, rfl⟩ := isExponent_of_readExponent? readExponent
  -- The first character says whether there is a sign.
  split at unsigned
  · subst unsigned
    exact ⟨.parts (.inr rfl) wholePart fractionPart exponentPart, by simp⟩
  · subst unsigned
    exact ⟨.parts (.inl rfl) wholePart fractionPart exponentPart, by simp⟩

theorem source_of_readToken? {c : Char} {rest : Text} {token : Token}
    (found : readToken? c rest = some (token, later)) :
    token.IsProper ∧ c :: rest = token.source ++ later := by
  unfold readToken? at found
  -- Strings, words and numbers are read to their ends; every other token is one character.
  split at found
  case h_7 =>
    simp only [Option.map_eq_some_iff, Prod.exists, Prod.mk.injEq] at found
    obtain ⟨_, _, read, rfl, rfl⟩ := found
    obtain ⟨written, rfl⟩ := isRaw_of_readString? read
    exact ⟨written, by simp [Token.source]⟩
  case h_8 | h_9 | h_10 =>
    simp only [Option.map_eq_some_iff, Prod.mk.injEq] at found
    obtain ⟨_, read, rfl, rfl⟩ := found
    exact ⟨trivial, by rw [Text.after?_eq_some_iff.mp read]; rfl⟩
  case h_11 =>
    simp only [Option.map_eq_some_iff, Prod.exists, Prod.mk.injEq] at found
    obtain ⟨_, _, read, rfl, rfl⟩ := found
    exact isNumber_of_readNumber? read
  all_goals
    obtain ⟨rfl, rfl⟩ := Prod.mk.inj (Option.some.inj found)
    exact ⟨trivial, rfl⟩

theorem Spread.cons_blank {tokens : List Token} {c : Char} (blank : isGap c)
    (document : Spread IsBlankGap IsBlankGap tokens text) :
    Spread IsBlankGap IsBlankGap tokens (c :: text) := by
  have longer {gap : Text} (blanks : IsBlankGap gap) : IsBlankGap (c :: gap) :=
    List.forall_mem_cons.mpr ⟨blank, blanks⟩
  cases document with
  | nothing last => exact .nothing (longer last)
  | token between behind => exact .token (longer between) behind

/-- A text that has tokens consists of them and of blanks. -/
theorem spread_of_tokens? {tokens : List Token} (found : tokens? text = some tokens) :
    Spread IsBlankGap IsBlankGap tokens text ∧ ∀ token ∈ tokens, token.IsProper := by
  fun_induction tokens? text generalizing tokens with
  | case1 =>
    obtain rfl := Option.some.inj found
    exact ⟨.nothing (by simp [IsBlankGap]), by simp⟩
  | case2 c rest gap ih =>
    obtain ⟨document, proper⟩ := ih found
    exact ⟨document.cons_blank gap, proper⟩
  | case3 => simp at found
  | case4 c rest visible token later read ih =>
    obtain ⟨others, lexed, rfl⟩ := Option.map_eq_some_iff.mp found
    obtain ⟨document, proper⟩ := ih lexed
    obtain ⟨properToken, written⟩ := source_of_readToken? read
    have none : IsBlankGap [] := by simp [IsBlankGap]
    rw [written]
    exact ⟨.token none document, List.forall_mem_cons.mpr ⟨properToken, proper⟩⟩

end Soundness

section Numbers

/-- The characters that can go on with a number. -/
def extendsNumber (c : Char) : Bool := c.isDigit || c == '.' || c == 'e' || c == 'E'

variable {later : Text}

theorem spanDigits_append {digits : Text} (each : ∀ d ∈ digits, d.isDigit)
    (ended : ∀ c ∈ later.head?, ¬ c.isDigit) : Text.spanDigits (digits ++ later) = (digits, later) := by
  rw [Text.spanDigits, List.takeWhile_append_of_pos each, List.dropWhile_append_of_pos each]
  cases later with
  | nil => simp
  | cons c later =>
    have other : ¬ c.isDigit := ended c rfl
    rw [List.takeWhile_cons_of_neg other, List.dropWhile_cons_of_neg other, List.append_nil]

theorem readWhole?_append {whole : Text} (part : IsWholePart whole)
    (ended : ∀ c ∈ later.head?, ¬ c.isDigit) : readWhole? (whole ++ later) = some (whole, later) := by
  cases part with
  | zero => rfl
  | @digits c digits first others =>
    rw [List.cons_append, readWhole?]
    · simp [first.1, spanDigits_append others ended]
    · exact first.2

theorem readFraction?_append {fraction : Text} (part : IsFraction fraction)
    (ended : ∀ c ∈ later.head?, ¬ c.isDigit ∧ c ≠ '.') :
    readFraction? (fraction ++ later) = some (fraction, later) := by
  cases part with
  | nothing =>
    rw [List.nil_append, readFraction?]
    exact fun rest same => (ended '.' (by simp [same])).2 rfl
  | digits filled each =>
    simp [readFraction?, spanDigits_append each fun c member => (ended c member).1, filled]

theorem spanSign_append {sign digits : Text} (signed : sign = [] ∨ sign = ['+'] ∨ sign = ['-'])
    (filled : digits ≠ []) (each : ∀ d ∈ digits, d.isDigit) :
    spanSign (sign ++ (digits ++ later)) = (sign, digits ++ later) := by
  rcases signed with rfl | rfl | rfl
  · obtain ⟨d, digits, rfl⟩ := List.exists_cons_of_ne_nil filled
    have digit : d.isDigit := each d List.mem_cons_self
    -- A digit is no sign.
    rw [List.nil_append, List.cons_append, spanSign]
    · rintro _ ⟨⟩
      exact absurd digit (by decide)
    · rintro _ ⟨⟩
      exact absurd digit (by decide)
  · rfl
  · rfl

theorem readExponent?_append {exponent : Text} (part : IsExponent exponent)
    (ended : ∀ c ∈ later.head?, ¬ c.isDigit ∧ c ≠ 'e' ∧ c ≠ 'E') :
    readExponent? (exponent ++ later) = some (exponent, later) := by
  cases part with
  | nothing =>
    cases later with
    | nil => rfl
    | cons c later =>
      have other := (ended c rfl).2
      simp [readExponent?, other]
  | @digits mark sign digits letter signed filled each =>
    rw [List.cons_append, List.append_assoc, readExponent?, if_pos letter, spanSign_append signed filled each]
    simp [spanDigits_append each fun c member => (ended c member).1, filled]

theorem head?_exponent_append {exponent : Text} (part : IsExponent exponent)
    (ended : ∀ c ∈ later.head?, ¬ extendsNumber c) :
    ∀ c ∈ (exponent ++ later).head?, ¬ c.isDigit ∧ c ≠ '.' := by
  cases part with
  | nothing =>
    intro c first
    have := ended c first
    simp_all [extendsNumber]
  | digits letter =>
    rintro c ⟨⟩
    rcases letter with rfl | rfl <;> decide

theorem head?_fraction_append {fraction : Text} (part : IsFraction fraction)
    (ended : ∀ c ∈ later.head?, ¬ c.isDigit) :
    ∀ c ∈ (fraction ++ later).head?, ¬ c.isDigit := by
  cases part with
  | nothing => exact ended
  | digits =>
    rintro c ⟨⟩
    decide

theorem readNumber?_append {literal : Text} (number : IsNumber literal)
    (ended : ∀ c ∈ later.head?, ¬ extendsNumber c) :
    readNumber? (literal ++ later) = some (literal, later) := by
  obtain @⟨sign, whole, fraction, exponent, signed, wholePart, fractionPart, exponentPart⟩ := number
  -- Each part ends where the next one starts: none of the parts behind it starts with one of its characters.
  have behindFraction := head?_exponent_append exponentPart ended
  have behindWhole := head?_fraction_append fractionPart fun c first => (behindFraction c first).1
  have last : readExponent? (exponent ++ later) = some (exponent, later) :=
    readExponent?_append exponentPart fun c first => by
      have := ended c first
      simp_all [extendsNumber]
  have middle := readFraction?_append fractionPart behindFraction
  have start := readWhole?_append wholePart behindWhole
  rcases signed with rfl | rfl
  · -- The whole part starts with a digit, so no sign is read in front of it.
    have unsigned : ∀ rest, whole ++ (fraction ++ (exponent ++ later)) ≠ '-' :: rest := by
      cases wholePart with
      | zero => simp
      | digits first =>
        rintro _ ⟨⟩
        exact absurd first.1 (by decide)
    simp [readNumber?, start, middle, last]
  · simp [readNumber?, start, middle, last]

/-- The characters of numbers. -/
def isNumeric (c : Char) : Bool := extendsNumber c || c == '+' || c == '-'

theorem isNumeric_of_isDigit {c : Char} (digit : c.isDigit) : isNumeric c := by
  simp [isNumeric, extendsNumber, digit]

theorem IsWholePart.isNumeric {whole : Text} (part : IsWholePart whole) : ∀ c ∈ whole, isNumeric c := by
  cases part with
  | zero =>
    intro c member
    obtain rfl := List.mem_singleton.mp member
    decide
  | digits first others =>
    intro c member
    rcases List.mem_cons.mp member with rfl | member
    · exact isNumeric_of_isDigit first.1
    · exact isNumeric_of_isDigit (others c member)

theorem IsFraction.isNumeric {fraction : Text} (part : IsFraction fraction) :
    ∀ c ∈ fraction, isNumeric c := by
  cases part with
  | nothing => simp
  | digits _ each =>
    intro c member
    rcases List.mem_cons.mp member with rfl | member
    · decide
    · exact isNumeric_of_isDigit (each c member)

theorem IsExponent.isNumeric {exponent : Text} (part : IsExponent exponent) :
    ∀ c ∈ exponent, isNumeric c := by
  cases part with
  | nothing => simp
  | digits letter signed _ each =>
    intro c member
    rcases List.mem_cons.mp member with rfl | member
    · rcases letter with rfl | rfl <;> decide
    rcases List.mem_append.mp member with inSign | inDigits
    · rcases signed with rfl | rfl | rfl <;> simp_all <;> decide
    · exact isNumeric_of_isDigit (each c inDigits)

theorem IsNumber.isNumeric {literal : Text} (number : IsNumber literal) : ∀ c ∈ literal, isNumeric c := by
  obtain ⟨signed, wholePart, fractionPart, exponentPart⟩ := number
  intro c member
  simp only [List.mem_append] at member
  rcases member with ((inSign | inWhole) | inFraction) | inExponent
  · rcases signed with rfl | rfl
    · simp at inSign
    · obtain rfl := List.mem_singleton.mp inSign
      decide
  · exact wholePart.isNumeric c inWhole
  · exact fractionPart.isNumeric c inFraction
  · exact exponentPart.isNumeric c inExponent

theorem IsNumber.ne_nil {literal : Text} (number : IsNumber literal) : literal ≠ [] := by
  obtain ⟨_, wholePart, _, _⟩ := number
  cases wholePart <;> simp

end Numbers

section Tokens

variable {later : Text}

theorem readString?_append {raw : Text} (written : IsRaw raw) :
    readString? (raw ++ '"' :: later) = some (raw, later) := by
  induction written with
  | nothing => rfl
  | @plain c raw ordinary _ ih =>
    obtain ⟨noQuote, noEscape, visible⟩ := ordinary
    rw [List.cons_append, readString?.eq_def]
    split <;> simp_all
  | @short c raw escape _ ih =>
    -- A short escape is not taken for the beginning of a code point.
    have noCodePoint : c ≠ 'u' := by
      rintro rfl
      exact absurd escape (by decide)
    rw [List.cons_append, List.cons_append, readString?.eq_def]
    split
    case h_4 unescaped same =>
      obtain ⟨mark, rest⟩ := List.cons.inj same
      exact absurd rest.symm (unescaped _ _ mark.symm)
    all_goals simp_all
  | codePoint digits _ ih =>
    simp only [List.cons_append]
    rw [readString?.eq_def]
    simp [digits, ih]

theorem tokens?_cons_of_isGap {c : Char} (gap : isGap c) : tokens? (c :: later) = tokens? later := by
  rw [tokens?, if_pos gap]

theorem tokens?_cons_of_readToken? {c : Char} {rest : Text} {token : Token} (visible : ¬ isGap c)
    (found : readToken? c rest = some (token, later)) :
    tokens? (c :: rest) = (tokens? later).map (token :: ·) := by
  rw [tokens?, if_neg visible]
  split
  · simp_all
  · simp_all

theorem eq_of_isGap {c : Char} (gap : isGap c) : c = ' ' ∨ c = '\t' ∨ c = '\n' ∨ c = '\r' := by
  simpa [isGap, or_assoc] using gap

theorem not_isGap_of_isNumeric {c : Char} (numeric : isNumeric c) : ¬ isGap c := by
  intro gap
  rcases eq_of_isGap gap with rfl | rfl | rfl | rfl <;> exact absurd numeric (by decide)

theorem readToken?_of_isNumeric {c : Char} {rest : Text} (numeric : isNumeric c) :
    readToken? c rest = (readNumber? (c :: rest)).map fun (literal, later) => (.number literal, later) := by
  unfold readToken?
  split
  case h_11 => rfl
  all_goals exact absurd numeric (by decide)

theorem tokens?_source {token : Token} (proper : token.IsProper)
    (ended : token.isNumber → ∀ c ∈ later.head?, ¬ extendsNumber c) :
    tokens? (token.source ++ later) = (tokens? later).map (token :: ·) := by
  -- Only a number can be read on into the text behind it; every other token says itself where it ends.
  cases token with
  | number literal =>
    have number : IsNumber literal := proper
    have read := readNumber?_append number (ended rfl)
    obtain ⟨c, rest, rfl⟩ := List.exists_cons_of_ne_nil number.ne_nil
    have numeric := number.isNumeric c List.mem_cons_self
    refine tokens?_cons_of_readToken? (not_isGap_of_isNumeric numeric) ?_
    rw [readToken?_of_isNumeric numeric]
    simp_all
  | string raw =>
    refine tokens?_cons_of_readToken? (by decide) ?_
    simp [readToken?, readString?_append proper]
  | bool value =>
    cases value
    · exact tokens?_cons_of_readToken? (by decide) rfl
    · exact tokens?_cons_of_readToken? (by decide) rfl
  | _ => exact tokens?_cons_of_readToken? (by decide) rfl

end Tokens

end RootedGlob.Json
