import RootedGlob.Proofs.Json.Document
import RootedGlob.Workspace.Document

/-!
# Comments and spare commas

A document with comments is given by its tokens and the gaps between them (`Spread`). The text that the
stripper has kept always consists of tokens and blank gaps (`Kept`). A gap adds blanks to it, and a token is
put behind the tokens kept so far, where a closing bracket takes back a comma. So what remains of a document is
a text with the tokens of its value (`stripComments_of_writes`). Nothing is taken from a text that is JSON
already (`stripComments_of_parse?`).
-/

namespace RootedGlob.Json

section Backwards

/-- A list of tokens and a text of them and of blanks, both backwards. -/
inductive Kept : List Token → Text → Prop
  | nothing : Kept [] []
  | blank {out : List Token} {kept : Text} {c : Char} (isBlank : isGap c) (front : Kept out kept) :
      Kept out (c :: kept)
  | token {out : List Token} {kept : Text} {token : Token} (proper : token.IsProper)
      (front : Kept out kept) : Kept (token :: out) (token.source.reverse ++ kept)

variable {out : List Token} {kept : Text}

theorem not_extendsNumber_of_isGap {c : Char} (gap : isGap c) : ¬ extendsNumber c := by
  rcases eq_of_isGap gap with rfl | rfl | rfl | rfl <;> decide

theorem not_isBlank_of_isNumeric {c : Char} (numeric : isNumeric c) : ¬ Text.isBlank c := by
  simp only [isNumeric, extendsNumber, Bool.or_eq_true, beq_iff_eq] at numeric
  rcases numeric with ((((digit | rfl) | rfl) | rfl) | rfl) | rfl
  · have bounds : 48 ≤ c.toNat ∧ c.toNat ≤ 57 := Char.isDigit_iff_toNat.mp digit
    simp [Text.isBlank]
    omega
  all_goals decide

theorem isBlank_of_isGap {c : Char} (gap : isGap c) : Text.isBlank c := by
  rcases eq_of_isGap gap with rfl | rfl | rfl | rfl <;> decide

/-- Only a number can go on with the number in front of it. -/
theorem head?_source {token : Token} (other : ¬ token.isNumber) (later : Text) :
    ∀ c ∈ (token.source ++ later).head?, ¬ extendsNumber c := by
  cases token with
  | number => exact absurd rfl other
  | bool value => cases value <;> (rintro c ⟨⟩; decide)
  | _ => rintro c ⟨⟩; decide

/-- The tokens of a text are those it was put together from, unless two numbers stand next to each other. -/
theorem Kept.tokens? (whole : Kept out kept) (chain : out.reverse.IsChain Token.MayPrecede) {later : Text}
    (ended : ∀ token ∈ out.head?, token.isNumber → ∀ c ∈ later.head?, ¬ extendsNumber c) :
    Json.tokens? (kept.reverse ++ later) = (Json.tokens? later).map (out.reverse ++ ·) := by
  induction whole generalizing later with
  | nothing => simp
  | blank isBlank _ ih =>
    -- A blank ends the number that may be in front of it.
    rw [List.reverse_cons, List.append_assoc, ih chain]
    · rw [List.singleton_append, tokens?_cons_of_isGap isBlank]
    · rintro _ _ _ c ⟨⟩
      exact not_extendsNumber_of_isGap isBlank
  | @token out kept token proper _ ih =>
    -- So does a token, since it is no number if there is one in front of it.
    rw [List.reverse_cons] at chain
    obtain ⟨front, -, fitting⟩ := List.isChain_append.mp chain
    rw [List.getLast?_reverse] at fitting
    rw [List.reverse_append, List.reverse_reverse, List.append_assoc, ih front,
      tokens?_source proper (ended token rfl)]
    · simp [Function.comp_def]
    · intro last isLast number
      have notBoth := (fitting last isLast token rfl).1
      exact head?_source (fun other => notBoth ⟨number, other⟩) later

theorem Kept.append_gap {gap : Text} (blank : IsBlankGap gap) (whole : Kept out kept) :
    Kept out (gap.reverse ++ kept) := by
  induction gap generalizing kept with
  | nil => exact whole
  | cons c gap ih =>
    obtain ⟨first, others⟩ := List.forall_mem_cons.mp blank
    rw [List.reverse_cons, List.append_assoc, List.singleton_append]
    exact ih others (.blank first whole)

/-- The last character of a token is neither blank nor, unless the token is one, a comma. -/
theorem exists_reverse_source {token : Token} (proper : token.IsProper) :
    ∃ last front, token.source.reverse = last :: front ∧ ¬ Text.isBlank last ∧
      (last = ',' → token = .comma) := by
  cases token with
  | number literal =>
    have number : IsNumber literal := proper
    obtain ⟨front, last, rfl⟩ := (List.eq_nil_or_concat' literal).resolve_left number.ne_nil
    have numeric : isNumeric last := number.isNumeric last (by simp)
    refine ⟨last, front.reverse, by simp [Token.source], not_isBlank_of_isNumeric numeric, ?_⟩
    rintro rfl
    exact absurd numeric (by decide)
  | string raw =>
    refine ⟨'"', raw.reverse ++ ['"'], by simp [Token.source], by decide, ?_⟩
    exact fun same => absurd same (by decide)
  | bool value => cases value <;> exact ⟨'e', _, rfl, by decide, by decide⟩
  | comma => exact ⟨',', [], rfl, by decide, fun _ => rfl⟩
  | _ => exact ⟨_, _, rfl, by decide, by decide⟩

/-- Behind the blanks at its end the text ends with its last token. -/
theorem Kept.dropWhile_isBlank (whole : Kept out kept) :
    (out = [] ∧ kept.dropWhile Text.isBlank = []) ∨
      ∃ token rest front, out = token :: rest ∧ token.IsProper ∧ Kept rest front ∧
        kept.dropWhile Text.isBlank = token.source.reverse ++ front := by
  induction whole with
  | nothing => exact .inl ⟨rfl, rfl⟩
  | blank isBlank _ ih => rwa [List.dropWhile_cons_of_pos (isBlank_of_isGap isBlank)]
  | @token out kept token proper front _ =>
    obtain ⟨last, before, written, visible, -⟩ := exists_reverse_source proper
    refine .inr ⟨token, out, kept, rfl, proper, front, ?_⟩
    rw [written, List.cons_append, List.dropWhile_cons_of_neg visible]

theorem Kept.dropTrailingComma_of_comma (whole : Kept (.comma :: out) kept) :
    Kept out (dropTrailingComma kept) := by
  rcases whole.dropWhile_isBlank with ⟨none, -⟩ | ⟨_, _, front, ⟨⟩, -, inner, visible⟩
  · cases none
  · rw [dropTrailingComma, visible]
    exact inner

theorem Kept.dropTrailingComma_of_other (whole : Kept out kept) (other : .comma ∉ out.head?) :
    dropTrailingComma kept = kept := by
  unfold dropTrailingComma
  split
  · next rest cut =>
    rcases whole.dropWhile_isBlank with ⟨-, nothing⟩ | ⟨token, _, _, rfl, proper, -, visible⟩
    · simp [nothing] at cut
    · -- The comma that is read back would be the last character of a token that is none.
      obtain ⟨last, before, written, -, isComma⟩ := exists_reverse_source proper
      rw [visible, written] at cut
      exact absurd (isComma (List.cons.inj cut).1) fun same => other (by simp [same])
  · rfl

/-- A closing bracket is kept behind the tokens from which it takes back a comma. -/
theorem Kept.closing (whole : Kept out kept) {closing : Token} (closes : closing.closes) :
    Kept (push out closing) (closing.source.reverse ++ dropTrailingComma kept) := by
  have proper : closing.IsProper := by
    cases closing with
    | number | string => simp [Token.closes] at closes
    | _ => trivial
  unfold push
  split
  · rw [if_pos closes]
    exact .token proper whole.dropTrailingComma_of_comma
  · next other =>
    rw [whole.dropTrailingComma_of_other]
    · exact .token proper whole
    · intro first
      obtain ⟨rest, rfl⟩ := List.head?_eq_some_iff.mp first
      exact other rest rfl

end Backwards

section Stripping

namespace Stripper

variable {out : List Token} {kept : Text}

/-- The characters that are kept wherever they stand outside strings and comments. -/
def isPlain (c : Char) : Bool := c != '"' && c != '/' && c != '}' && c != ']'

theorem foldl_plain {text : Text} (plain : text.all isPlain) :
    text.foldl read ⟨.plain, kept⟩ = ⟨.plain, text.reverse ++ kept⟩ := by
  induction text generalizing kept with
  | nil => rfl
  | cons c text ih =>
    rw [List.all_cons, Bool.and_eq_true] at plain
    obtain ⟨first, others⟩ := plain
    simp only [isPlain, Bool.and_eq_true, bne_iff_ne] at first
    obtain ⟨⟨⟨noQuote, noSlash⟩, noBrace⟩, noBracket⟩ := first
    have step : read ⟨.plain, kept⟩ c = ⟨.plain, c :: kept⟩ :=
      readPlain.eq_5 kept c noQuote noSlash noBrace noBracket
    rw [List.foldl_cons, step, ih others]
    simp

theorem read_string {c : Char} (ordinary : c ≠ '"' ∧ c ≠ '\\') :
    read ⟨.string, kept⟩ c = ⟨.string, c :: kept⟩ := by
  simp [read, ordinary]

theorem ordinary_of_isHexDigit {c : Char} (digit : isHexDigit c) : c ≠ '"' ∧ c ≠ '\\' := by
  constructor
  · rintro rfl
    exact absurd digit (by decide)
  · rintro rfl
    exact absurd digit (by decide)

theorem foldl_string {raw : Text} (written : IsRaw raw) :
    raw.foldl read ⟨.string, kept⟩ = ⟨.string, raw.reverse ++ kept⟩ := by
  induction written generalizing kept with
  | nothing => rfl
  | @plain c raw ordinary _ ih =>
    rw [List.foldl_cons, read_string ⟨ordinary.1, ordinary.2.1⟩, ih]
    simp
  | @short c raw _ _ ih =>
    -- What a backslash guards ends no string.
    have step : read (read ⟨.string, kept⟩ '\\') c = ⟨.string, c :: '\\' :: kept⟩ := rfl
    rw [List.foldl_cons, List.foldl_cons, step, ih]
    simp
  | @codePoint a b c d raw digits _ ih =>
    obtain ⟨first, second, third, fourth⟩ := digits
    have step : read (read ⟨.string, kept⟩ '\\') 'u' = ⟨.string, 'u' :: '\\' :: kept⟩ := rfl
    simp only [List.foldl_cons, step, read_string (ordinary_of_isHexDigit first),
      read_string (ordinary_of_isHexDigit second), read_string (ordinary_of_isHexDigit third),
      read_string (ordinary_of_isHexDigit fourth), ih]
    simp

theorem isPlain_of_isNumeric {c : Char} (numeric : isNumeric c) : isPlain c := by
  simp only [isPlain, Bool.and_eq_true, bne_iff_ne]
  refine ⟨⟨⟨?_, ?_⟩, ?_⟩, ?_⟩ <;>
    · rintro rfl
      exact absurd numeric (by decide)

theorem foldl_source {token : Token} (proper : token.IsProper) (inner : ¬ token.closes) :
    token.source.foldl read ⟨.plain, kept⟩ = ⟨.plain, token.source.reverse ++ kept⟩ := by
  cases token with
  | number literal =>
    have number : IsNumber literal := proper
    have plain := fun c member => isPlain_of_isNumeric (number.isNumeric c member)
    exact foldl_plain (List.all_eq_true.mpr plain)
  | string raw =>
    have opened : read ⟨.plain, kept⟩ '"' = ⟨.string, '"' :: kept⟩ := rfl
    rw [Token.source, List.cons_append, List.foldl_cons, opened, List.foldl_append, foldl_string proper]
    simp [read]
  | closeObject | closeArray => exact absurd rfl inner
  | bool value => cases value <;> exact foldl_plain (by decide)
  | _ => exact foldl_plain (by decide)

theorem foldl_closing {token : Token} (closes : token.closes) :
    token.source.foldl read ⟨.plain, kept⟩ = ⟨.plain, token.source.reverse ++ dropTrailingComma kept⟩ := by
  cases token with
  | closeObject | closeArray => rfl
  | _ => simp [Token.closes] at closes

/-- A token is put behind those kept so far. -/
theorem kept_of_token {token : Token} (proper : token.IsProper) (whole : Kept out kept) :
    ∃ next, Kept (push out token) next ∧ token.source.foldl read ⟨.plain, kept⟩ = ⟨.plain, next⟩ := by
  by_cases closes : token.closes
  · exact ⟨_, whole.closing closes, foldl_closing closes⟩
  · rw [push_of_not_closes closes]
    exact ⟨_, .token proper whole, foldl_source proper closes⟩

theorem foldl_token {token : Token} (proper : token.IsProper) (whole : Kept out kept)
    (fitting : ∀ last ∈ out.head?, last.MayPrecede token) :
    token.source.foldl read ⟨.plain, kept⟩ = ⟨.plain, token.source.reverse ++ kept⟩ := by
  by_cases closes : token.closes
  · have noComma : .comma ∉ out.head? := fun comma => (fitting .comma comma).2 ⟨rfl, closes⟩
    rw [foldl_closing closes, whole.dropTrailingComma_of_other noComma]
  · exact foldl_source proper closes

theorem foldl_line {body : Text} (oneLine : '\n' ∉ body) :
    ('/' :: '/' :: body).foldl read ⟨.plain, kept⟩ = ⟨.lineComment, kept⟩ := by
  have opened : read (read ⟨.plain, kept⟩ '/') '/' = ⟨.lineComment, kept⟩ := rfl
  rw [List.foldl_cons, List.foldl_cons, opened]
  induction body with
  | nil => rfl
  | cons c body ih =>
    rw [List.mem_cons, not_or] at oneLine
    have step : read ⟨.lineComment, kept⟩ c = ⟨.lineComment, kept⟩ := if_neg (Ne.symm oneLine.1)
    rw [List.foldl_cons, step, ih oneLine.2]

/-- A block comment ends at its first end mark, to which a star that was read last may belong. -/
theorem foldl_blockComment {body : Text} {star : Bool}
    (closedOnce : ¬ ['*', '/'] <:+: (if star then '*' :: body else body)) :
    (body ++ ['*', '/']).foldl read ⟨.blockComment star, kept⟩ = ⟨.plain, kept⟩ := by
  induction body generalizing star with
  | nil => simp [read]
  | cons c body ih =>
    have unended : ¬ (star ∧ c = '/') := by
      rintro ⟨rfl, rfl⟩
      exact closedOnce ⟨[], body, rfl⟩
    have step : read ⟨.blockComment star, kept⟩ c = ⟨.blockComment (c == '*'), kept⟩ := if_neg unended
    rw [List.cons_append, List.foldl_cons, step]
    -- The text behind `c`, with the star that `c` may be, is an end of the text in front of which it stood.
    have front : c :: body <:+ (if star then '*' :: c :: body else c :: body) := by
      cases star
      · exact List.suffix_rfl
      · exact List.suffix_cons _ _
    have behind : (if c == '*' then '*' :: body else body) <:+ c :: body := by
      by_cases isStar : c = '*'
      · simp [isStar]
      · simp [isStar]
    exact ih fun closing => closedOnce (closing.trans (behind.trans front).isInfix)

theorem foldl_block {body : Text} (closedOnce : ¬ ['*', '/'] <:+: body) :
    ('/' :: '*' :: body ++ ['*', '/']).foldl read ⟨.plain, kept⟩ = ⟨.plain, kept⟩ := by
  have opened : read (read ⟨.plain, kept⟩ '/') '*' = ⟨.blockComment false, kept⟩ := rfl
  rw [List.cons_append, List.cons_append, List.foldl_cons, List.foldl_cons, opened]
  exact foldl_blockComment closedOnce

theorem isPlain_of_isGap {c : Char} (gap : isGap c) : isPlain c := by
  rcases eq_of_isGap gap with rfl | rfl | rfl | rfl <;> decide

theorem all_isPlain_of_isBlankGap {gap : Text} (blank : IsBlankGap gap) : gap.all isPlain :=
  List.all_eq_true.mpr fun c member => isPlain_of_isGap (blank c member)

theorem kept_of_gap {gap : Text} (commented : IsCommentedGap gap) (whole : Kept out kept) :
    ∃ next, Kept out next ∧ gap.foldl read ⟨.plain, kept⟩ = ⟨.plain, next⟩ := by
  induction commented generalizing kept with
  | nothing => exact ⟨kept, whole, rfl⟩
  | @blank c gap isBlank _ ih =>
    have plain : [c].all isPlain := by
      simpa using isPlain_of_isGap isBlank
    rw [List.foldl_cons, show read ⟨.plain, kept⟩ c = ⟨.plain, c :: kept⟩ from foldl_plain plain]
    exact ih (.blank isBlank whole)
  | @line body gap oneLine _ ih =>
    -- The end of the line is kept.
    have closed : read ⟨.lineComment, kept⟩ '\n' = ⟨.plain, '\n' :: kept⟩ := rfl
    rw [List.foldl_append, foldl_line oneLine, List.foldl_cons, closed]
    exact ih (.blank (by decide) whole)
  | @block body gap closedOnce _ ih =>
    -- Of a block comment nothing is kept, not even a blank.
    rw [show '/' :: '*' :: body ++ '*' :: '/' :: gap = ('/' :: '*' :: body ++ ['*', '/']) ++ gap by simp,
      List.foldl_append, foldl_block closedOnce]
    exact ih whole

theorem kept_of_lastGap {gap : Text} (last : IsLastGap gap) (whole : Kept out kept) :
    ∃ next, Kept out next ∧ (gap.foldl read ⟨.plain, kept⟩).finish = next.reverse := by
  cases last with
  | closed commented =>
    obtain ⟨next, others, run⟩ := kept_of_gap commented whole
    exact ⟨next, others, by rw [run]; rfl⟩
  | line commented oneLine =>
    obtain ⟨next, others, run⟩ := kept_of_gap commented whole
    exact ⟨next, others, by rw [List.foldl_append, run, foldl_line oneLine]; rfl⟩

/-- What is kept of a document. -/
theorem kept_of_spread {tokens : List Token} {text : Text}
    (document : Spread IsCommentedGap IsLastGap tokens text)
    (proper : ∀ token ∈ tokens, token.IsProper) (whole : Kept out kept) :
    ∃ next, Kept (tokens.foldl push out) next ∧
      (text.foldl read ⟨.plain, kept⟩).finish = next.reverse := by
  induction document generalizing out kept with
  | nothing last => exact kept_of_lastGap last whole
  | @token gap text token tokens between _ ih =>
    obtain ⟨properToken, properOthers⟩ := List.forall_mem_cons.mp proper
    obtain ⟨_, keptGap, runGap⟩ := kept_of_gap between whole
    obtain ⟨_, keptToken, runToken⟩ := kept_of_token properToken keptGap
    rw [List.foldl_append, List.foldl_append, runGap, runToken]
    exact ih properOthers keptToken

/-- A text of tokens and blanks is kept if no token takes back another one. -/
theorem foldl_undecorated {tokens : List Token} {text : Text}
    (document : Spread IsBlankGap IsBlankGap tokens text) (proper : ∀ token ∈ tokens, token.IsProper)
    (chain : (out.reverse ++ tokens).IsChain Token.MayPrecede) (whole : Kept out kept) :
    text.foldl read ⟨.plain, kept⟩ = ⟨.plain, text.reverse ++ kept⟩ := by
  induction document generalizing out kept with
  | nothing last => exact foldl_plain (all_isPlain_of_isBlankGap last)
  | @token gap text token tokens between _ ih =>
    -- The token that was kept last stands in front of this one.
    have fitting : ∀ last ∈ out.head?, last.MayPrecede token := by
      have pair := (List.isChain_append.mp chain).2.2
      rw [List.getLast?_reverse] at pair
      exact fun last isLast => pair last isLast token rfl
    obtain ⟨properToken, properOthers⟩ := List.forall_mem_cons.mp proper
    have keptGap := whole.append_gap between
    rw [List.foldl_append, List.foldl_append, foldl_plain (all_isPlain_of_isBlankGap between),
      foldl_token properToken keptGap fitting,
      ih properOthers (by simpa using chain) (.token properToken keptGap)]
    simp

end Stripper

theorem stripComments_of_spread {tokens : List Token} {text : Text}
    (document : Spread IsBlankGap IsBlankGap tokens text) (proper : ∀ token ∈ tokens, token.IsProper)
    (chain : tokens.IsChain Token.MayPrecede) : stripComments text = text := by
  rw [stripComments, Stripper.foldl_undecorated document proper (by simpa using chain) .nothing]
  simp [Stripper.finish]

variable {value : Json}

/-- A text that is JSON already is left as it is. -/
theorem stripComments_of_parse? {text : Text} (parsed : parse? text = some value) :
    stripComments text = text := by
  obtain ⟨tokens, lexed, read⟩ := Option.bind_eq_some_iff.mp parsed
  obtain ⟨document, proper⟩ := spread_of_tokens? lexed
  exact stripComments_of_spread document proper (isChain_of_ofTokens? read)

/-- Every token of a document stands in its value, spare commas aside. -/
theorem isProper_of_writes {tokens : List Token} (proper : value.IsProper) (written : Writes value tokens) :
    ∀ token ∈ tokens, token.IsProper := by
  intro token member
  by_cases isComma : token = .comma
  · subst isComma
    trivial
  · have pushed : token ∈ tokens.foldl push [] := (mem_foldl_push_iff isComma).mpr (.inl member)
    rw [foldl_push_of_writes written] at pushed
    exact proper token (by simpa using pushed)

theorem tokens?_stripComments {tokens : List Token} {text : Text} (proper : value.IsProper)
    (written : Writes value tokens) (document : Spread IsCommentedGap IsLastGap tokens text) :
    tokens? (stripComments text) = some value.tokens := by
  obtain ⟨kept, whole, stripped⟩ :=
    Stripper.kept_of_spread document (isProper_of_writes proper written) .nothing
  rw [foldl_push_of_writes written, List.append_nil] at whole
  -- Nothing stands behind the text that was kept.
  have read : tokens? (kept.reverse ++ []) = (tokens? []).map (value.tokens.reverse.reverse ++ ·) :=
    whole.tokens? (by rw [List.reverse_reverse]; exact isChain_tokens value) (by simp)
  rw [List.append_nil, List.reverse_reverse] at read
  rw [stripComments, stripped, read, tokens?]
  simp

/-- Stripping a document with comments and spare commas leaves the tokens of its value, and with them the paths
that a workspace file lists. A document without either is left as it is. -/
theorem stripComments_of_writes (proper : value.IsProper) :
    (∀ tokens text, Writes value tokens → Spread IsCommentedGap IsLastGap tokens text →
      tokens? (stripComments text) = some value.tokens ∧ parse? (stripComments text) = some value ∧
        Workspace.parse? text = Workspace.paths? value) ∧
      ∀ text, Spread IsBlankGap IsBlankGap value.tokens text → stripComments text = text := by
  refine ⟨fun tokens text written document => ?_, fun text document => ?_⟩
  · have lexed := tokens?_stripComments proper written document
    have parsed : parse? (stripComments text) = some value := by
      rw [parse?, lexed, Option.bind_some, ofTokens?_tokens]
    exact ⟨lexed, parsed, by rw [Workspace.parse?, parsed, Option.bind_some]⟩
  · exact stripComments_of_spread document proper (isChain_tokens value)

/-- A workspace file with comments and spare commas. -/
def decorated : Text := "\x7b\"folders\": [ /*/ ,]*/\x7b\"path\":\"a//b\"\x7d, ],\x7d// end".toList

def undecorated : Text := "\x7b\"folders\": [ \x7b\"path\":\"a//b\"\x7d ]\x7d".toList

def listing : Json :=
  .object [("folders".toList, .array [.object [("path".toList, .string "a//b".toList)]])]

def decoratedTokens : List Token :=
  [.openObject, .string "folders".toList, .colon, .openArray, .openObject, .string "path".toList, .colon,
    .string "a//b".toList, .closeObject, .comma, .closeArray, .comma, .closeObject]

theorem isProper_listing : listing.IsProper := by
  have raws : IsRaw "folders".toList ∧ IsRaw "path".toList ∧ IsRaw "a//b".toList :=
    ⟨.of_plain (by simp), .of_plain (by simp), .of_plain (by simp)⟩
  simp [IsProper, listing, tokens, tokensOfMembers, tokensOfItems, Token.IsProper, -String.reduceToList,
    raws]

theorem writes_decoratedTokens : Writes listing decoratedTokens := by
  have entry : Writes (.object [("path".toList, .string "a//b".toList)]) _ :=
    .object (.last .string (.inl rfl))
  exact .object (.last (.array (.last entry (.inr rfl))) (.inr rfl))

theorem spread_decorated : Spread IsCommentedGap IsLastGap decoratedTokens decorated := by
  have space : IsCommentedGap [' '] := .blank rfl .nothing
  have comment : IsCommentedGap " /*/ ,]*/".toList :=
    .blank rfl (@IsCommentedGap.block "/ ,]".toList [] (by decide) .nothing)
  have last : IsLastGap "// end".toList := @IsLastGap.line [] " end".toList .nothing (by decide)
  exact .token .nothing <| .token .nothing <| .token .nothing <| .token space <| .token comment <|
    .token .nothing <| .token .nothing <| .token .nothing <| .token .nothing <| .token .nothing <|
    .token space <| .token .nothing <| .token .nothing <| .nothing last

theorem spread_undecorated : Spread IsBlankGap IsBlankGap listing.tokens undecorated := by
  have none : IsBlankGap [] := by simp [IsBlankGap]
  have space : IsBlankGap [' '] := by simp [IsBlankGap, isGap]
  exact .token none <| .token none <| .token none <| .token space <| .token space <| .token none <|
    .token none <| .token none <| .token none <| .token space <| .token none <| .nothing none

theorem stripComments_of_writes_listing :
    listing.IsProper ∧ parse? (stripComments decorated) = some listing ∧
      Workspace.parse? decorated = some ["a//b".toList] ∧ stripComments undecorated = undecorated := by
  obtain ⟨stripped, kept⟩ := stripComments_of_writes isProper_listing
  obtain ⟨-, parsed, paths⟩ := stripped decoratedTokens decorated writes_decoratedTokens spread_decorated
  exact ⟨isProper_listing, parsed, paths.trans rfl, kept undecorated spread_undecorated⟩

end Stripping

end RootedGlob.Json
