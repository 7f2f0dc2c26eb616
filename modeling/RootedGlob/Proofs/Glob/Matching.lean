import RootedGlob.Glob.Match

/-!
# What a glob pattern matches

Matching tries the shortest text for each wildcard first and gives up as soon as the text ends too
early. It finds a match whenever there is one (`run_eq_matched_iff`): giving up is sound because a
`**` only ever stands at the start of a segment, so no later place for a wildcard helps there.
-/

namespace RootedGlob.Glob

/-- A text that a `**` passes over: nothing, or everything up to the start of a segment. -/
def IsWholeSegments (atStart : Bool) (text : Text) : Prop :=
  (text = [] ∧ atStart) ∨ text.getLast? = some '/'

/-- Whether what stands behind a text without separators satisfies `later`. -/
def AfterRun (later : Text → Prop) (text : Text) : Prop :=
  ∃ skipped rest, text = skipped ++ rest ∧ '/' ∉ skipped ∧ later rest

/-- Whether what stands behind some segments, or the end of the text, satisfies `later`. -/
def AfterDirectories (later : Text → Prop) (atStart : Bool) (text : Text) : Prop :=
  ∃ skipped rest, text = skipped ++ rest ∧ (IsWholeSegments atStart skipped ∨ rest = []) ∧ later rest

/-- Whether tokens match a whole text. -/
def Matches : List Token → Text → Prop
  | [], text => text = []
  | .anyRun :: tokens, text => AfterRun (Matches tokens) text
  | .anyDirectories :: tokens, text => AfterDirectories (Matches tokens) true text
  | token :: tokens, text => ∃ c rest, text = c :: rest ∧ token.fits c ∧ Matches tokens rest

/-- Whether every `**` stands at the start of a segment. -/
def isWellPlaced (atStart : Bool) : List Token → Bool
  | [] => true
  | token :: tokens =>
    (token != .anyDirectories || atStart)
      && isWellPlaced (token == .anyDirectories || token == .literal '/') tokens

theorem IsWholeSegments.append {atStart : Bool} {first second : Text}
    (one : IsWholeSegments atStart first) (two : IsWholeSegments true second) :
    IsWholeSegments atStart (first ++ second) := by
  rcases two with ⟨rfl, -⟩ | ends
  · rwa [List.append_nil]
  · right
    rw [List.getLast?_append, ends]
    rfl

theorem isWholeSegments_cons {atStart : Bool} {c : Char} {text : Text} :
    IsWholeSegments atStart (c :: text) ↔ IsWholeSegments (c == '/') text := by
  cases text with
  | nil => simp [IsWholeSegments]
  | cons d text => simp [IsWholeSegments, List.getLast?_cons_cons]

section After

variable {later : Text → Prop}

theorem afterRun_nil : AfterRun later [] ↔ later [] := by
  constructor
  · rintro ⟨skipped, rest, same, -, found⟩
    obtain ⟨-, rfl⟩ := List.append_eq_nil_iff.mp same.symm
    exact found
  · exact fun found => ⟨[], [], rfl, List.not_mem_nil, found⟩

theorem afterRun_cons {c : Char} {text : Text} :
    AfterRun later (c :: text) ↔ later (c :: text) ∨ (c ≠ '/' ∧ AfterRun later text) := by
  constructor
  · rintro ⟨skipped, rest, same, absent, found⟩
    cases skipped with
    | nil =>
      left
      rw [same]
      exact found
    | cons d skipped =>
      obtain ⟨rfl, behind⟩ := List.cons.inj same
      rw [List.mem_cons, not_or] at absent
      exact .inr ⟨Ne.symm absent.1, skipped, rest, behind, absent.2, found⟩
  · rintro (found | ⟨other, skipped, rest, rfl, absent, found⟩)
    · exact ⟨[], _, rfl, List.not_mem_nil, found⟩
    · refine ⟨c :: skipped, rest, rfl, ?_, found⟩
      rw [List.mem_cons, not_or]
      exact ⟨Ne.symm other, absent⟩

theorem afterDirectories_nil {atStart : Bool} : AfterDirectories later atStart [] ↔ later [] := by
  constructor
  · rintro ⟨skipped, rest, same, -, found⟩
    obtain ⟨-, rfl⟩ := List.append_eq_nil_iff.mp same.symm
    exact found
  · exact fun found => ⟨[], [], rfl, .inr rfl, found⟩

theorem afterDirectories_cons {atStart : Bool} {c : Char} {text : Text} :
    AfterDirectories later atStart (c :: text)
      ↔ (atStart ∧ later (c :: text)) ∨ AfterDirectories later (c == '/') text := by
  constructor
  · rintro ⟨skipped, rest, same, whole, found⟩
    cases skipped with
    | nil =>
      rw [List.nil_append] at same
      subst same
      left
      simpa [IsWholeSegments] using And.intro whole found
    | cons d skipped =>
      obtain ⟨rfl, behind⟩ := List.cons.inj same
      exact .inr ⟨skipped, rest, behind, whole.imp_left isWholeSegments_cons.mp, found⟩
  · rintro (⟨start, found⟩ | ⟨skipped, rest, rfl, whole, found⟩)
    · exact ⟨[], _, rfl, .inl (.inl ⟨rfl, start⟩), found⟩
    · exact ⟨c :: skipped, rest, rfl, whole.imp_left isWholeSegments_cons.mpr, found⟩

end After

section GivingUp

variable {continue? : Text → Outcome}

/-- Where a continuation finds the text too short, it matches no later text either. What is later is
cut at the start of a segment, or at the end, if the continuation can only stand at such a start. -/
def GivesUp (atStart : Bool) (continue? : Text → Outcome) : Prop :=
  ∀ front rest, (atStart → IsWholeSegments true front ∨ rest = []) →
    continue? (front ++ rest) = .tooShort → continue? rest ≠ .matched

theorem GivesUp.weaken (sound : GivesUp false continue?) (atStart : Bool) :
    GivesUp atStart continue? := fun front rest _ =>
  sound front rest fun start => absurd start Bool.false_ne_true

theorem behindRun_eq_matched_iff (sound : GivesUp false continue?) {text : Text} :
    behindRun continue? text = .matched ↔ AfterRun (continue? · = .matched) text := by
  induction text with
  | nil => rw [behindRun, afterRun_nil]
  | cons c text ih =>
    rw [behindRun, afterRun_cons]
    cases here : continue? (c :: text) with
    | matched => simp
    | differs => by_cases separated : c = '/' <;> simp [separated, ih]
    | tooShort =>
      simp only [reduceCtorEq, false_or, false_iff, not_and]
      rintro - ⟨skipped, rest, rfl, -, found⟩
      exact sound (c :: skipped) rest (by simp) here found

theorem givesUp_behindRun (sound : GivesUp false continue?) : GivesUp false (behindRun continue?) := by
  -- A run that gives up has met no match on its way, and a later start of the run is a place on the
  -- same way.
  have never {text : Text} (short : behindRun continue? text = .tooShort) :
      ∀ front rest, text = front ++ rest → continue? rest ≠ .matched := by
    induction text with
    | nil =>
      rintro front rest same
      rw [behindRun, same] at short
      exact sound front rest (by simp) short
    | cons c text ih =>
      intro front rest same
      rw [behindRun] at short
      cases here : continue? (c :: text) with
      | matched => simp [here] at short
      | tooShort =>
        rw [same] at here
        exact sound front rest (by simp) here
      | differs =>
        rw [here] at short
        -- The run does not pass a separator, and then it differs and does not give up.
        by_cases separated : c = '/'
        · simp [separated] at short
        · cases front with
          | nil =>
            rw [List.nil_append] at same
            rw [← same, here]
            decide
          | cons d front =>
            simp only [separated, if_false] at short
            exact ih short front rest (List.cons.inj same).2
  intro front rest _ short found
  obtain ⟨skipped, later, rfl, -, found⟩ := (behindRun_eq_matched_iff sound).mp found
  exact never short (front ++ skipped) later (by simp) found

theorem behindDirectories_eq_matched_iff (sound : GivesUp true continue?) {atStart : Bool}
    {text : Text} : behindDirectories continue? atStart text = .matched
      ↔ AfterDirectories (continue? · = .matched) atStart text := by
  induction text generalizing atStart with
  | nil => rw [behindDirectories, afterDirectories_nil]
  | cons c text ih =>
    rw [behindDirectories, afterDirectories_cons]
    cases atStart with
    | false => simp [ih]
    | true =>
      cases here : continue? (c :: text) with
      | matched => simp
      | differs => simp [ih]
      | tooShort =>
        simp only [if_true, reduceCtorEq, and_false, false_or, false_iff]
        rintro ⟨skipped, rest, rfl, whole, found⟩
        exact sound (c :: skipped) rest (fun _ => whole.imp_left isWholeSegments_cons.mpr) here found

theorem givesUp_behindDirectories (sound : GivesUp true continue?) :
    GivesUp true (behindDirectories continue? true) := by
  have never {atStart : Bool} {text : Text}
      (short : behindDirectories continue? atStart text = .tooShort) :
      ∀ front rest, text = front ++ rest → IsWholeSegments atStart front ∨ rest = [] →
        continue? rest ≠ .matched := by
    induction text generalizing atStart with
    | nil =>
      intro front rest same _
      obtain ⟨rfl, rfl⟩ := List.append_eq_nil_iff.mp same.symm
      rw [behindDirectories] at short
      rw [short]
      decide
    | cons c text ih =>
      intro front rest same whole
      -- Either the text is tried as it is, or what is later is later in the rest of it, too.
      have behind (short : behindDirectories continue? (c == '/') text = .tooShort)
          (differs : atStart → continue? (c :: text) ≠ .matched) : continue? rest ≠ .matched := by
        cases front with
        | nil =>
          rw [List.nil_append] at same
          rcases whole with (⟨-, start⟩ | ends) | ended
          · rw [← same]
            exact differs start
          · cases ends
          · rw [ended] at same
            cases same
        | cons d front =>
          obtain ⟨rfl, tail⟩ := List.cons.inj same
          exact ih short front rest tail (whole.imp_left isWholeSegments_cons.mp)
      rw [behindDirectories] at short
      cases atStart with
      | false => exact behind (by simpa using short) (by simp)
      | true =>
        cases here : continue? (c :: text) with
        | matched => simp [here] at short
        | differs => exact behind (by simpa [here] using short) (by simp [here])
        | tooShort =>
          rw [same] at here
          exact sound front rest (fun _ => whole) here
  intro front rest cut short found
  obtain ⟨skipped, later, rfl, whole, found⟩ := (behindDirectories_eq_matched_iff sound).mp found
  refine never short (front ++ skipped) later (by simp) ?_ found
  rcases cut rfl with start | none
  · exact whole.imp_left start.append
  · exact .inr (List.append_eq_nil_iff.mp none).2

end GivingUp

section Tokens

variable {token : Token} {tokens : List Token}

theorem run_single (single : token ≠ .anyRun ∧ token ≠ .anyDirectories) :
    run (token :: tokens) [] = .tooShort
      ∧ ∀ c rest, run (token :: tokens) (c :: rest)
        = if token.fits c then run tokens rest else .differs := by
  cases token <;> simp_all [run]

theorem matches_single (single : token ≠ .anyRun ∧ token ≠ .anyDirectories) {text : Text} :
    Matches (token :: tokens) text
      ↔ ∃ c rest, text = c :: rest ∧ token.fits c ∧ Matches tokens rest := by
  cases token <;> simp_all [Matches]

/-- Matching finds a match whenever there is one, and gives up only where none is to come. -/
theorem run_spec {atStart : Bool} (placed : isWellPlaced atStart tokens) :
    (∀ text, run tokens text = .matched ↔ Matches tokens text) ∧ GivesUp atStart (run tokens) := by
  induction tokens generalizing atStart with
  | nil =>
    constructor
    · intro text
      cases text <;> simp [run, Matches]
    · intro front rest _ short
      cases whole : front ++ rest <;> simp [run, whole] at short
  | cons token tokens ih =>
    simp only [isWellPlaced, Bool.and_eq_true] at placed
    obtain ⟨here, behind⟩ := placed
    obtain ⟨finds, sound⟩ := ih behind
    by_cases wild : token = .anyRun ∨ token = .anyDirectories
    · rcases wild with rfl | rfl
      · constructor
        · intro text
          rw [run, behindRun_eq_matched_iff sound, Matches]
          simp only [finds]
        · exact (givesUp_behindRun sound).weaken atStart
      · obtain rfl : atStart = true := by simpa using here
        constructor
        · intro text
          rw [run, behindDirectories_eq_matched_iff sound, Matches]
          simp only [finds]
        · exact givesUp_behindDirectories sound
    · rw [not_or] at wild
      obtain ⟨ended, further⟩ := @run_single token tokens wild
      constructor
      · intro text
        rw [matches_single wild]
        cases text with
        | nil => simp [ended]
        | cons c text =>
          rw [further]
          constructor
          · intro found
            split at found
            · next fits => exact ⟨c, text, rfl, fits, (finds text).mp found⟩
            · cases found
          · rintro ⟨d, rest, same, fits, found⟩
            obtain ⟨rfl, rfl⟩ := List.cons.inj same
            rw [if_pos fits]
            exact (finds text).mpr found
      · intro front rest _ short found
        cases rest with
        | nil => simp [ended] at found
        | cons d rest =>
          rw [further] at found
          obtain ⟨fits, found⟩ : token.fits d ∧ run tokens rest = .matched := by
            split at found
            · next fits => exact ⟨fits, found⟩
            · cases found
          cases front with
          | nil =>
            rw [List.nil_append, further, if_pos fits, found] at short
            cases short
          | cons c front =>
            rw [List.cons_append, further] at short
            split at short
            · refine sound (front ++ [d]) rest (fun start => ?_) (by simpa using short) found
              -- The token is a literal separator, so what was passed over ends a segment.
              simp only [wild.2, Bool.or_eq_true, beq_iff_eq, false_or] at start
              subst start
              have slash : d = '/' := by simpa [Token.fits] using fits
              left
              right
              simp [slash]
            · cases short

end Tokens

section Variation

variable {tokens : List Token} {text : Text}

theorem Matches.length_eq (matched : Matches tokens text)
    (plain : .anyRun ∉ tokens ∧ .anyDirectories ∉ tokens) : tokens.length = text.length := by
  induction tokens generalizing text with
  | nil =>
    rw [Matches] at matched
    rw [matched]
    rfl
  | cons token tokens ih =>
    simp only [List.mem_cons, not_or] at plain
    obtain ⟨c, rest, rfl, -, behind⟩ :=
      (matches_single ⟨Ne.symm plain.1.1, Ne.symm plain.2.1⟩).mp matched
    rw [List.length_cons, List.length_cons, ih behind ⟨plain.1.2, plain.2.2⟩]

/-- Where a wildcard matches, it also matches with more text: a `*` with more characters, a `**` with
one more segment. -/
theorem exists_insertion {atStart : Bool} (placed : isWellPlaced atStart tokens)
    (matched : Matches tokens text) (wild : .anyRun ∈ tokens ∨ .anyDirectories ∈ tokens) :
    ∃ front back, text = front ++ back
      ∧ ((∀ name, '/' ∉ name → Matches tokens (front ++ name ++ back))
        ∨ (IsWholeSegments atStart front
          ∧ ∀ name, '/' ∉ name → Matches tokens (front ++ name ++ '/' :: back))) := by
  induction tokens generalizing atStart text with
  | nil => simp at wild
  | cons token tokens ih =>
    simp only [isWellPlaced, Bool.and_eq_true] at placed
    -- The first wildcard takes the new text; tokens in front of it match what they matched before.
    by_cases run : token = .anyRun
    · subst run
      obtain ⟨skipped, rest, rfl, absent, behind⟩ := matched
      refine ⟨skipped, rest, rfl, .inl fun name single => ?_⟩
      exact ⟨skipped ++ name, rest, rfl, by simp [absent, single], behind⟩
    · by_cases directories : token = .anyDirectories
      · subst directories
        obtain rfl : atStart = true := by simpa using placed.1
        obtain ⟨skipped, rest, rfl, whole | rfl, behind⟩ := matched
        · refine ⟨skipped, rest, rfl, .inr ⟨whole, fun name _ => ?_⟩⟩
          refine ⟨skipped ++ name ++ ['/'], rest, by simp, .inl (.inr ?_), behind⟩
          simp
        · refine ⟨skipped, [], rfl, .inl fun name _ => ?_⟩
          exact ⟨skipped ++ name, [], rfl, .inr rfl, behind⟩
      · obtain ⟨c, rest, rfl, fits, behind⟩ := (matches_single ⟨run, directories⟩).mp matched
        have inner : .anyRun ∈ tokens ∨ .anyDirectories ∈ tokens := by
          simpa [Ne.symm run, Ne.symm directories] using wild
        obtain ⟨front, back, rfl, found⟩ := ih placed.2 behind inner
        have grown {other : Text} (found : Matches tokens other) : Matches (token :: tokens) (c :: other) :=
          (matches_single ⟨run, directories⟩).mpr ⟨c, other, rfl, fits, found⟩
        refine ⟨c :: front, back, rfl, found.imp (fun more name single => grown (more name single)) ?_⟩
        rintro ⟨whole, more⟩
        refine ⟨isWholeSegments_cons.mpr ?_, fun name single => grown (more name single)⟩
        -- With nothing in front inside, the front is this one character, and a segment starts behind it
        -- if it is a separator.
        rcases whole with ⟨none, start⟩ | ends
        · left
          simp only [directories, Bool.or_eq_true, beq_iff_eq, false_or] at start
          subst start
          exact ⟨none, by simpa [Token.fits] using fits⟩
        · exact .inr ends

/-- Where a `?` matches, it also matches any other character. -/
theorem exists_swap (matched : Matches tokens text) (mark : .anyChar ∈ tokens) :
    ∃ front c back, text = front ++ c :: back ∧ c ≠ '/'
      ∧ ∀ d, d ≠ '/' → Matches tokens (front ++ d :: back) := by
  -- Whatever stands in front of the `?` matches the same text as before.
  induction tokens generalizing text with
  | nil => cases mark
  | cons token tokens ih =>
    by_cases run : token = .anyRun
    · subst run
      obtain ⟨skipped, rest, rfl, absent, behind⟩ := matched
      obtain ⟨front, c, back, rfl, other, found⟩ := ih behind (by simpa using mark)
      refine ⟨skipped ++ front, c, back, by simp, other, fun d slash => ?_⟩
      exact ⟨skipped, front ++ d :: back, by simp, absent, found d slash⟩
    · by_cases directories : token = .anyDirectories
      · subst directories
        obtain ⟨skipped, rest, rfl, whole, behind⟩ := matched
        obtain ⟨front, c, back, rfl, other, found⟩ := ih behind (by simpa using mark)
        refine ⟨skipped ++ front, c, back, by simp, other, fun d slash => ?_⟩
        exact ⟨skipped, front ++ d :: back, by simp, .inl (whole.resolve_right (by simp)),
          found d slash⟩
      · obtain ⟨c, rest, rfl, fits, behind⟩ := (matches_single ⟨run, directories⟩).mp matched
        rcases List.mem_cons.mp mark with rfl | mark
        · refine ⟨[], c, rest, rfl, by simpa [Token.fits] using fits, fun d slash => ?_⟩
          exact (matches_single ⟨run, directories⟩).mpr
            ⟨d, rest, rfl, by simpa [Token.fits] using slash, behind⟩
        · obtain ⟨front, d, back, rfl, other, found⟩ := ih behind mark
          refine ⟨c :: front, d, back, rfl, other, fun e slash => ?_⟩
          exact (matches_single ⟨run, directories⟩).mpr ⟨c, _, rfl, fits, found e slash⟩

end Variation

section Compile

variable {before : Option Char} {repeats : Bool} {text : Text} {tokens : List Token}

theorem map_eq_ok_iff {write : List Token → List Token} {result : Except Fault (List Token)} :
    result.map write = .ok tokens ↔ ∃ rest, result = .ok rest ∧ write rest = tokens := by
  cases result <;> simp [Except.map]

theorem compileFrom_separator : compileFrom before repeats ('/' :: text)
    = (compileFrom (some '/') false text).map (.literal '/' :: ·) := by
  rw [compileFrom.eq_def]
  rfl

/-- A class is one token, for one character. -/
theorem single_of_readClass? {token : Token} {later : Text}
    (found : readClass? text = some (token, later)) :
    (∃ members, token = .oneOf members) ∨ ∃ members, token = .noneOf members := by
  unfold readClass? at found
  split at found
  · simp only [Option.map_eq_some_iff, Prod.mk.injEq] at found
    obtain ⟨-, -, rfl, -⟩ := found
    exact .inr ⟨_, rfl⟩
  · cases found
  · simp only [Option.map_eq_some_iff, Prod.mk.injEq] at found
    obtain ⟨-, -, rfl, -⟩ := found
    exact .inl ⟨_, rfl⟩
  · cases found

theorem isWellPlaced_compileFrom (compiled : compileFrom before repeats text = .ok tokens) :
    isWellPlaced (before == none || before == some '/') tokens := by
  -- A `**` is compiled at the start of a segment only, and what is compiled last tells whether a
  -- segment starts.
  fun_induction compileFrom before repeats text generalizing tokens with
  | case1 =>
    cases compiled
    rfl
  | case2 => cases compiled
  | case3 before repeats start written =>
    cases compiled
    rcases start with rfl | rfl <;> cases repeats <;> rfl
  | case4 before repeats start written rest _ =>
    rename_i ih
    obtain ⟨others, found, rfl⟩ := map_eq_ok_iff.mp compiled
    have behind := ih found
    rcases start with rfl | rfl <;> cases repeats <;> exact behind
  | case5 => cases compiled
  | case6 => cases compiled
  | case7 before repeats rest _ _ ih =>
    obtain ⟨others, found, rfl⟩ := map_eq_ok_iff.mp compiled
    exact ih found
  | case8 before repeats rest ih =>
    obtain ⟨others, found, rfl⟩ := map_eq_ok_iff.mp compiled
    exact ih found
  | case9 => cases compiled
  | case10 before repeats rest token later read ih =>
    obtain ⟨others, found, rfl⟩ := map_eq_ok_iff.mp compiled
    obtain ⟨members, rfl⟩ | ⟨members, rfl⟩ := single_of_readClass? read <;> exact ih found
  | case11 before repeats c rest _ _ _ _ _ ih =>
    obtain ⟨others, found, rfl⟩ := map_eq_ok_iff.mp compiled
    have behind := ih found
    have slash : (Token.literal c == .anyDirectories || Token.literal c == .literal '/')
        = (some c == none || some c == some '/') := by
      rw [Bool.eq_iff_iff]
      simp
    rw [← slash] at behind
    exact behind

theorem Pattern.compile_eq_ok_iff {pattern : Pattern} :
    Pattern.compile text = .ok pattern
      ↔ ∃ tokens, compileFrom none false text = .ok tokens ∧ pattern = ⟨text, tokens⟩ := by
  rw [Pattern.compile]
  cases compileFrom none false text <;> simp [Except.map, eq_comm]

/-- A compiled pattern matches what its tokens match. -/
theorem isMatch_iff {pattern : Pattern} (compiled : Pattern.compile text = .ok pattern)
    {other : Text} : pattern.isMatch other ↔ Matches pattern.tokens other := by
  obtain ⟨tokens, found, rfl⟩ := Pattern.compile_eq_ok_iff.mp compiled
  rw [Pattern.isMatch, decide_eq_true_iff]
  exact (run_spec (isWellPlaced_compileFrom found)).1 other

/-- The token that a character stands for on its own. -/
def Token.ofChar (c : Char) : Token :=
  if c = '*' then .anyRun else if c = '?' then .anyChar else .literal c

/-- No token is written from less than one character, and if there are as many tokens as characters,
every character stands for itself or is a wildcard. -/
theorem length_compileFrom (compiled : compileFrom before repeats text = .ok tokens) :
    tokens.length ≤ text.length
      ∧ (tokens.length = text.length → '[' ∉ text ∧ tokens = text.map Token.ofChar) := by
  -- A `**` and a class are written with more characters than they give tokens, so a full count excludes
  -- both.
  fun_induction compileFrom before repeats text generalizing tokens with
  | case1 =>
    cases compiled
    simp
  | case2 => cases compiled
  | case3 before repeats start written =>
    cases compiled
    cases repeats <;> simp [written]
  | case4 before repeats start written rest _ =>
    rename_i ih
    obtain ⟨others, found, rfl⟩ := map_eq_ok_iff.mp compiled
    have few := (ih found).1
    have one : written.length ≤ 1 := by cases repeats <;> simp [written]
    simp only [List.length_append, List.length_cons]
    exact ⟨by omega, fun full => absurd full (by omega)⟩
  | case5 => cases compiled
  | case6 => cases compiled
  | case7 before repeats rest _ _ ih =>
    obtain ⟨others, found, rfl⟩ := map_eq_ok_iff.mp compiled
    obtain ⟨few, all⟩ := ih found
    refine ⟨Nat.succ_le_succ few, fun full => ?_⟩
    obtain ⟨absent, same⟩ := all (Nat.succ.inj full)
    simp [absent, ← same, Token.ofChar]
  | case8 before repeats rest ih =>
    obtain ⟨others, found, rfl⟩ := map_eq_ok_iff.mp compiled
    obtain ⟨few, all⟩ := ih found
    refine ⟨Nat.succ_le_succ few, fun full => ?_⟩
    obtain ⟨absent, same⟩ := all (Nat.succ.inj full)
    simp [absent, ← same, Token.ofChar]
  | case9 => cases compiled
  | case10 before repeats rest token later read ih =>
    obtain ⟨others, found, rfl⟩ := map_eq_ok_iff.mp compiled
    have few := (ih found).1
    have shorter := length_of_readClass? read
    simp only [List.length_cons]
    exact ⟨by omega, fun full => absurd full (by omega)⟩
  | case11 before repeats c rest _ _ star mark bracket ih =>
    obtain ⟨others, found, rfl⟩ := map_eq_ok_iff.mp compiled
    obtain ⟨few, all⟩ := ih found
    refine ⟨Nat.succ_le_succ few, fun full => ?_⟩
    obtain ⟨absent, same⟩ := all (Nat.succ.inj full)
    have other : '[' ≠ c := fun same => bracket same.symm
    have literal : Token.ofChar c = .literal c := by
      rw [Token.ofChar, if_neg star, if_neg mark]
    simp [absent, ← same, literal, other]

end Compile

end RootedGlob.Glob
