import RootedGlob.Proofs.Json.Lexing
import Mathlib.Data.List.Chain

/-!
# Documents

A value is written by its tokens, and the reader reads them back (`ofTokens?_tokens`). Which tokens may stand
next to each other is read off the reader: two tokens that it accepts one behind the other are in the relation
`Token.MayPrecede`. The relation `Writes` also allows a spare comma behind the last item or member of a
container. Taking back the comma in front of a closing bracket leaves the tokens of the value
(`foldl_push_of_writes`). Between the tokens of a document there may be comments (`IsCommentedGap`).
-/

namespace RootedGlob.Json

namespace Token

def closes : Token → Bool
  | closeObject | closeArray => true
  | _ => false

/-- What is true of two tokens that a reader accepts one behind the other. -/
def MayPrecede (first second : Token) : Prop :=
  ¬ (first.isNumber ∧ second.isNumber) ∧ ¬ (first = comma ∧ second.closes)

end Token

section Reading

namespace Reader

variable {reader next : Reader}

theorem expected_of_read?_number {literal : Text} (read : reader.read? (.number literal) = some next) :
    next.expected = .behind (.number literal) := by
  unfold read? at read
  split at read <;> simp_all [begin?]
  all_goals simp [← read]

theorem expected_of_read?_comma (read : reader.read? .comma = some next) :
    next.expected = .value ∨ ∃ members, next.expected = .name members := by
  unfold read? at read
  split at read <;> simp_all [begin?]
  all_goals simp [← read]

theorem mayPrecede_of_read? {last : Reader} {first second : Token}
    (readFirst : reader.read? first = some next) (readSecond : next.read? second = some last) :
    first.MayPrecede second := by
  constructor
  · -- Behind a number a comma or the end of a container is expected.
    rintro ⟨number, other⟩
    cases first with
    | number literal =>
      cases second with
      | number => simp [read?, expected_of_read?_number readFirst] at readSecond
      | _ => simp [Token.isNumber] at other
    | _ => simp [Token.isNumber] at number
  · -- Behind a comma a value or a name is expected.
    rintro ⟨rfl, closing⟩
    rcases expected_of_read?_comma readFirst with expected | ⟨members, expected⟩
    · cases second with
      | closeArray | closeObject => simp [read?, expected, begin?] at readSecond
      | _ => simp [Token.closes] at closing
    · cases second with
      | closeArray | closeObject => simp [read?, expected] at readSecond
      | _ => simp [Token.closes] at closing

end Reader

/-- Tokens that a reader accepts. -/
theorem isChain_of_foldlM_read? {tokens : List Token} {reader last : Reader}
    (read : tokens.foldlM Reader.read? reader = some last) : tokens.IsChain Token.MayPrecede := by
  induction tokens generalizing reader with
  | nil => exact .nil
  | cons first tokens ih =>
    rw [List.foldlM_cons] at read
    obtain ⟨next, readFirst, readOthers⟩ := Option.bind_eq_some_iff.mp read
    -- The step behind the first one is where the second token is read.
    refine List.isChain_cons.mpr ⟨?_, ih readOthers⟩
    intro second isNext
    cases tokens with
    | nil => simp at isNext
    | cons _ tokens =>
      obtain rfl := Option.some.inj isNext
      rw [List.foldlM_cons] at readOthers
      obtain ⟨_, readSecond, _⟩ := Option.bind_eq_some_iff.mp readOthers
      exact Reader.mayPrecede_of_read? readFirst readSecond

end Reading

section Tokens

theorem exists_first_tokens (value : Json) :
    ∃ first others, value.tokens = first :: others ∧ first ≠ .closeArray := by
  cases value <;> simp [tokens]

theorem exists_last_tokens (value : Json) :
    ∃ front last, value.tokens = front ++ [last] ∧ last ≠ .comma := by
  cases value with
  | array items => exact ⟨.openArray :: tokensOfItems items, .closeArray, by simp [tokens], by decide⟩
  | object members =>
    exact ⟨.openObject :: tokensOfMembers members, .closeObject, by simp [tokens], by decide⟩
  | _ => exact ⟨[], _, rfl, by simp⟩

theorem tokensOfItems_cons (item : Json) {items : List Json} (more : items ≠ []) :
    tokensOfItems (item :: items) = item.tokens ++ .comma :: tokensOfItems items := by
  cases items with
  | nil => exact absurd rfl more
  | cons => rw [tokensOfItems]; simp

theorem tokensOfMembers_cons (name : Text) (value : Json) {members : List (Text × Json)}
    (more : members ≠ []) :
    tokensOfMembers ((name, value) :: members) =
      .string name :: .colon :: value.tokens ++ .comma :: tokensOfMembers members := by
  cases members with
  | nil => exact absurd rfl more
  | cons => rw [tokensOfMembers]; simp

theorem exists_first_tokensOfItems (item : Json) (items : List Json) :
    ∃ first others, tokensOfItems (item :: items) = first :: others ∧ first ≠ .closeArray := by
  obtain ⟨first, others, written, noEnd⟩ := exists_first_tokens item
  cases items with
  | nil => exact ⟨first, others, by rw [tokensOfItems, written], noEnd⟩
  | cons next items =>
    exact ⟨first, _, by rw [tokensOfItems_cons item (List.cons_ne_nil next items), written]; rfl, noEnd⟩

theorem exists_first_tokensOfMembers (member : Text × Json) (members : List (Text × Json)) :
    ∃ others, tokensOfMembers (member :: members) = .string member.1 :: others := by
  obtain ⟨name, value⟩ := member
  cases members with
  | nil => exact ⟨_, tokensOfMembers.eq_2 name value⟩
  | cons next members =>
    exact ⟨_, by rw [tokensOfMembers_cons name value (List.cons_ne_nil next members)]; rfl⟩

theorem foldlM_cons_of_read? {reader next : Reader} {token : Token} {others : List Token}
    (read : reader.read? token = some next) :
    (token :: others).foldlM Reader.read? reader = others.foldlM Reader.read? next := by
  rw [List.foldlM_cons, read]
  rfl

/-- In front of the first item of an array a value is read as anywhere else. -/
theorem foldlM_itemOrEnd (item : Json) (items : List Json) (others : List Token) (frames : List Frame) :
    (tokensOfItems (item :: items) ++ others).foldlM Reader.read? ⟨frames, .itemOrEnd⟩ =
      (tokensOfItems (item :: items) ++ others).foldlM Reader.read? ⟨frames, .value⟩ := by
  obtain ⟨first, behind, written, noEnd⟩ := exists_first_tokensOfItems item items
  rw [written, List.cons_append, List.foldlM_cons, List.foldlM_cons]
  congr 1
  simp [Reader.read?, noEnd]

theorem foldlM_nameOrEnd (member : Text × Json) (members : List (Text × Json)) (others : List Token)
    (frames : List Frame) :
    (tokensOfMembers (member :: members) ++ others).foldlM Reader.read? ⟨frames, .nameOrEnd⟩ =
      (tokensOfMembers (member :: members) ++ others).foldlM Reader.read? ⟨frames, .name []⟩ := by
  obtain ⟨behind, written⟩ := exists_first_tokensOfMembers member members
  rw [written, List.cons_append, List.foldlM_cons, List.foldlM_cons]
  congr 1

-- The induction follows the value. In a container it runs over the items behind those read so far, which the
-- innermost frame holds.
mutual

theorem foldlM_tokens (value : Json) (others : List Token) (frames : List Frame) :
    (value.tokens ++ others).foldlM Reader.read? ⟨frames, .value⟩ =
      others.foldlM Reader.read? ⟨frames, .behind value⟩ := by
  cases value with
  | array items =>
    -- The bracket opens a frame that holds no items.
    rw [tokens, List.append_assoc, List.cons_append, foldlM_cons_of_read? rfl, List.singleton_append]
    cases items with
    | nil => rfl
    | cons item items =>
      rw [foldlM_itemOrEnd]
      exact foldlM_tokensOfItems (item :: items) (List.cons_ne_nil item items) [] others frames
  | object members =>
    rw [tokens, List.append_assoc, List.cons_append, foldlM_cons_of_read? rfl, List.singleton_append]
    cases members with
    | nil => rfl
    | cons member members =>
      rw [foldlM_nameOrEnd]
      exact foldlM_tokensOfMembers (member :: members) (List.cons_ne_nil member members) [] others frames
  | _ => rfl

theorem foldlM_tokensOfItems (items : List Json) (filled : items ≠ []) (before : List Json)
    (others : List Token) (frames : List Frame) :
    (tokensOfItems items ++ (Token.closeArray :: others)).foldlM Reader.read?
        ⟨.array before :: frames, .value⟩ =
      others.foldlM Reader.read? ⟨frames, .behind (.array (before.reverse ++ items))⟩ := by
  match items with
  | [] => exact absurd rfl filled
  | [item] =>
    rw [tokensOfItems, foldlM_tokens item, foldlM_cons_of_read? rfl, List.reverse_cons]
  | item :: next :: items =>
    rw [tokensOfItems_cons item (List.cons_ne_nil next items), List.append_assoc, foldlM_tokens item,
      List.cons_append, foldlM_cons_of_read? rfl,
      foldlM_tokensOfItems (next :: items) (List.cons_ne_nil next items) (item :: before)]
    simp

theorem foldlM_tokensOfMembers (members : List (Text × Json)) (filled : members ≠ [])
    (before : List (Text × Json)) (others : List Token) (frames : List Frame) :
    (tokensOfMembers members ++ (Token.closeObject :: others)).foldlM Reader.read?
        ⟨frames, .name before⟩ =
      others.foldlM Reader.read? ⟨frames, .behind (.object (before.reverse ++ members))⟩ := by
  match members with
  | [] => exact absurd rfl filled
  | [(name, value)] =>
    rw [tokensOfMembers, List.cons_append, List.cons_append, foldlM_cons_of_read? rfl,
      foldlM_cons_of_read? rfl, foldlM_tokens value, foldlM_cons_of_read? rfl, List.reverse_cons]
  | (name, value) :: next :: members =>
    rw [tokensOfMembers_cons name value (List.cons_ne_nil next members), List.append_assoc, List.cons_append,
      List.cons_append, foldlM_cons_of_read? rfl, foldlM_cons_of_read? rfl, foldlM_tokens value,
      List.cons_append, foldlM_cons_of_read? rfl,
      foldlM_tokensOfMembers (next :: members) (List.cons_ne_nil next members) ((name, value) :: before)]
    simp

end

theorem foldlM_tokens_eq (value : Json) :
    value.tokens.foldlM Reader.read? {} = some ⟨[], .behind value⟩ := by
  simpa using foldlM_tokens value [] []

/-- The tokens of a value are read back as this value. -/
theorem ofTokens?_tokens (value : Json) : ofTokens? value.tokens = some value := by
  rw [ofTokens?, foldlM_tokens_eq]

theorem isChain_of_ofTokens? {tokens : List Token} {value : Json} (read : ofTokens? tokens = some value) :
    tokens.IsChain Token.MayPrecede := by
  unfold ofTokens? at read
  split at read
  · next run => exact isChain_of_foldlM_read? run
  · simp at read

theorem isChain_tokens (value : Json) : value.tokens.IsChain Token.MayPrecede :=
  isChain_of_ofTokens? (ofTokens?_tokens value)

end Tokens

section SpareCommas

mutual

/-- Tokens that write a value, with at most one spare comma behind the last item or member of each container
that is not empty. -/
inductive Writes : Json → List Token → Prop
  | null : Writes .null [.null]
  | bool {value : Bool} : Writes (.bool value) [.bool value]
  | number {literal : Text} : Writes (.number literal) [.number literal]
  | string {raw : Text} : Writes (.string raw) [.string raw]
  | array {items : List Json} {tokens : List Token} (written : WritesItems items tokens) :
      Writes (.array items) (.openArray :: tokens ++ [.closeArray])
  | object {members : List (Text × Json)} {tokens : List Token} (written : WritesMembers members tokens) :
      Writes (.object members) (.openObject :: tokens ++ [.closeObject])

inductive WritesItems : List Json → List Token → Prop
  | nothing : WritesItems [] []
  | last {item : Json} {tokens spare : List Token} (written : Writes item tokens)
      (atMostOne : spare = [] ∨ spare = [.comma]) : WritesItems [item] (tokens ++ spare)
  | more {item : Json} {items : List Json} {tokens others : List Token} (written : Writes item tokens)
      (filled : items ≠ []) (behind : WritesItems items others) :
      WritesItems (item :: items) (tokens ++ .comma :: others)

inductive WritesMembers : List (Text × Json) → List Token → Prop
  | nothing : WritesMembers [] []
  | last {name : Text} {value : Json} {tokens spare : List Token} (written : Writes value tokens)
      (atMostOne : spare = [] ∨ spare = [.comma]) :
      WritesMembers [(name, value)] (.string name :: .colon :: tokens ++ spare)
  | more {name : Text} {value : Json} {members : List (Text × Json)} {tokens others : List Token}
      (written : Writes value tokens) (filled : members ≠ []) (behind : WritesMembers members others) :
      WritesMembers ((name, value) :: members) (.string name :: .colon :: tokens ++ .comma :: others)

end

/-- Puts a token behind those written so far, the last one first. A closing bracket takes back a comma. -/
def push (out : List Token) (token : Token) : List Token :=
  match out with
  | .comma :: rest => if token.closes then token :: rest else token :: out
  | _ => token :: out

variable {out : List Token}

theorem push_of_not_closes {token : Token} (inner : ¬ token.closes) : push out token = token :: out := by
  unfold push
  split <;> simp [inner]

theorem mem_push_iff {token other : Token} (noComma : token ≠ .comma) :
    token ∈ push out other ↔ token = other ∨ token ∈ out := by
  unfold push
  split
  · split <;> simp [noComma]
  · simp

theorem mem_foldl_push_iff {token : Token} {tokens : List Token} (noComma : token ≠ .comma) :
    token ∈ tokens.foldl push out ↔ token ∈ tokens ∨ token ∈ out := by
  induction tokens generalizing out with
  | nil => simp
  | cons other tokens ih =>
    rw [List.foldl_cons, ih, mem_push_iff noComma, List.mem_cons]
    tauto

/-- A closing bracket behind a value takes back a spare comma and nothing else. -/
theorem foldl_push_closing (value : Json) {spare : List Token} (atMostOne : spare = [] ∨ spare = [.comma])
    {closing : Token} (closes : closing.closes) :
    (spare ++ [closing]).foldl push (value.tokens.reverse ++ out) =
      closing :: (value.tokens.reverse ++ out) := by
  rcases atMostOne with rfl | rfl
  · obtain ⟨front, last, written, noComma⟩ := exists_last_tokens value
    rw [written, List.reverse_append, List.reverse_singleton, List.nil_append, List.foldl_cons, push]
    · rfl
    · exact fun _ same => noComma (List.cons.inj same).1
  · rw [List.singleton_append, List.foldl_cons, push_of_not_closes (by decide), List.foldl_cons, push,
      if_pos closes]
    rfl

-- The tokens written so far may be any; the induction is on the derivation.
mutual

theorem foldl_push_of_writes {value : Json} {tokens : List Token} (written : Writes value tokens)
    (out : List Token) : tokens.foldl push out = value.tokens.reverse ++ out := by
  -- A container pushes its opening token and then its items; every other value is a single token.
  cases written with
  | @array items tokens written =>
    rw [List.cons_append, List.foldl_cons, push_of_not_closes (by decide)]
    by_cases filled : items = []
    · -- In an empty container no comma is written.
      subst filled
      cases written
      rfl
    · rw [foldl_push_of_writesItems written filled, Json.tokens]
      simp
  | @object members tokens written =>
    rw [List.cons_append, List.foldl_cons, push_of_not_closes (by decide)]
    by_cases filled : members = []
    · subst filled
      cases written
      rfl
    · rw [foldl_push_of_writesMembers written filled, Json.tokens]
      simp
  | _ => exact push_of_not_closes (by simp [Token.closes])

theorem foldl_push_of_writesItems {items : List Json} {tokens : List Token}
    (written : WritesItems items tokens) (filled : items ≠ []) (out : List Token) :
    (tokens ++ [Token.closeArray]).foldl push out =
      .closeArray :: ((tokensOfItems items).reverse ++ out) := by
  cases written with
  | nothing => exact absurd rfl filled
  | @last item tokens _ written atMostOne =>
    rw [List.append_assoc, List.foldl_append, foldl_push_of_writes written out, tokensOfItems]
    exact foldl_push_closing item atMostOne rfl
  | @more item items tokens others written more behind =>
    rw [List.append_assoc, List.foldl_append, foldl_push_of_writes written out, List.cons_append,
      List.foldl_cons, push_of_not_closes (by decide), foldl_push_of_writesItems behind more,
      tokensOfItems_cons item more]
    simp

theorem foldl_push_of_writesMembers {members : List (Text × Json)} {tokens : List Token}
    (written : WritesMembers members tokens) (filled : members ≠ []) (out : List Token) :
    (tokens ++ [Token.closeObject]).foldl push out =
      .closeObject :: ((tokensOfMembers members).reverse ++ out) := by
  cases written with
  | nothing => exact absurd rfl filled
  | @last name value tokens _ written atMostOne =>
    rw [List.append_assoc, List.cons_append, List.cons_append, List.foldl_cons, List.foldl_cons,
      push_of_not_closes (by decide), push_of_not_closes (by simp [Token.closes]), List.foldl_append,
      foldl_push_of_writes written, foldl_push_closing value atMostOne rfl, tokensOfMembers]
    simp
  | @more name value members tokens others written more behind =>
    rw [List.append_assoc, List.cons_append, List.cons_append, List.foldl_cons, List.foldl_cons,
      push_of_not_closes (by decide), push_of_not_closes (by simp [Token.closes]), List.foldl_append,
      foldl_push_of_writes written, List.cons_append, List.foldl_cons, push_of_not_closes (by decide),
      foldl_push_of_writesMembers behind more, tokensOfMembers_cons name value more]
    simp

end

end SpareCommas

section Gaps

/-- A gap between tokens in which comments may stand. -/
inductive IsCommentedGap : Text → Prop
  | nothing : IsCommentedGap []
  | blank {c : Char} {gap : Text} (isBlank : isGap c) (behind : IsCommentedGap gap) :
      IsCommentedGap (c :: gap)
  | line {body gap : Text} (oneLine : '\n' ∉ body) (behind : IsCommentedGap gap) :
      IsCommentedGap ('/' :: '/' :: body ++ '\n' :: gap)
  | block {body gap : Text} (closedOnce : ¬ ['*', '/'] <:+: body) (behind : IsCommentedGap gap) :
      IsCommentedGap ('/' :: '*' :: body ++ '*' :: '/' :: gap)

/-- A gap behind the last token, where the end of the text may end a comment. -/
inductive IsLastGap : Text → Prop
  | closed {gap : Text} (commented : IsCommentedGap gap) : IsLastGap gap
  | line {gap body : Text} (commented : IsCommentedGap gap) (oneLine : '\n' ∉ body) :
      IsLastGap (gap ++ '/' :: '/' :: body)

/-- Whether the strings and numbers of a value follow the grammar. -/
def IsProper (value : Json) : Prop := ∀ token ∈ value.tokens, token.IsProper

end Gaps

end RootedGlob.Json
