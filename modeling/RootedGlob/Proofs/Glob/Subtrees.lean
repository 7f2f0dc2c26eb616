import RootedGlob.Proofs.Glob.Classes
import RootedGlob.Proofs.Glob.Selection
import RootedGlob.Proofs.Path.Components
import RootedGlob.Proofs.Path.Joining

/-!
# Combined globs select subtrees

An expansion that comes to the text of an earlier one matches what that one matches, so nothing is lost when it is
dropped: a combined glob selects a path if some expansion matches an ancestor of it (`Combined.isMatch_iff_selects`).
What lies below a path has the path among its ancestors, and is selected with it. Only a path with a separator at
its end is no ancestor of anything else. But no pattern asks for a separator at the end, so one that matches the
path has a wildcard there, which also takes a name (`Matches.append_name`). So the glob selects the entries of the
directory, and what lies below them (`Combined.isMatch_of_continues`).
-/

namespace RootedGlob.Glob

open Brace RootedGlob.Path

section Ends

variable {place : Place} {tokens : List Token}

/-- Behind anything but a `**`, text is not passed over without a token. -/
theorem ahead_eq_nil_of_compile (compiled : place.compile = .ok []) (fresh : place.repeats = false) :
    place.ahead = [] := by
  by_contra filled
  obtain ⟨written, next, rest, step, -, none⟩ := exists_step compiled filled
  -- Only a `**` behind another one writes nothing.
  have silent : written = [] := (List.append_eq_nil_iff.mp none.symm).1
  cases step with
  | directories | lastDirectories =>
    subst fresh
    cases silent
  | run | anyChar | charClass | literal => cases silent

/-- The last token asks for a separator only if the text ends with one. -/
theorem getLast?_of_compile {place : Place} {tokens : List Token} (compiled : place.compile = .ok tokens)
    (ends : tokens.getLast? = some (.literal '/')) : place.ahead.getLast? = some '/' := by
  have filled : place.ahead ≠ [] := by
    intro empty
    rw [Place.compile, empty, compileFrom] at compiled
    cases compiled
    cases ends
  obtain ⟨written, next, rest, step, behind, rfl⟩ := exists_step compiled filled
  by_cases last : rest = []
  · -- The last token is written by this step, so it was read from a separator, and no text is left.
    rw [last, List.append_nil] at ends
    rw [last] at behind
    cases step with
    | literal text verbatim =>
      have none : text = [] := ahead_eq_nil_of_compile behind rfl
      rw [none]
      simpa using ends
    | directories | lastDirectories => split at ends <;> cases ends
    | run => cases ends
    | anyChar => cases ends
    | charClass read =>
      obtain ⟨members, rfl⟩ | ⟨members, rfl⟩ := single_of_readClass? read <;> cases ends
  · -- The last token is written behind this step, and the text there ends as the whole text does.
    have shorter := (suffix_of_step step).2
    rw [List.getLast?_append_of_ne_nil _ last] at ends
    obtain ⟨front, whole⟩ := (suffix_of_step step).1
    have ended := getLast?_of_compile behind ends
    rw [← whole, List.getLast?_append, ended]
    rfl
termination_by place.ahead.length

theorem eq_nil_of_unescape {text : Text} (empty : unescape text = []) : text = [] := by
  fun_cases unescape text with
  | case1 => rfl
  | case2 => cases empty
  | case3 c rest special => simp [unescape, special] at empty
  | case4 c rest plain => simp [unescape, plain] at empty
  | case5 c rest => simp [unescape] at empty

/-- If a text ends with a separator once what is behind is unescaped, what is behind does, or nothing is there. -/
theorem getLast?_append_unescape {front rest : Text} (ends : (front ++ unescape rest).getLast? = some '/')
    (ih : (unescape rest).getLast? = some '/' → rest.getLast? = some '/') :
    rest.getLast? = some '/' ∨ rest = [] ∧ front.getLast? = some '/' := by
  rw [List.getLast?_append] at ends
  cases last : (unescape rest).getLast? with
  | none =>
    rw [last] at ends
    exact .inr ⟨eq_nil_of_unescape (List.getLast?_eq_none_iff.mp last), ends⟩
  | some c =>
    rw [last] at ends
    exact .inl (ih (last.trans ends))

theorem getLast?_of_unescape {text : Text} (ends : (unescape text).getLast? = some '/') :
    text.getLast? = some '/' := by
  fun_induction unescape text with
  | case1 => cases ends
  | case2 => cases ends
  | case3 c rest special ih =>
    -- A class does not end with a separator.
    rcases @getLast?_append_unescape ['[', c, ']'] rest ends ih with later | ⟨-, closing⟩
    · simp [List.getLast?_cons, later]
    · cases closing
  | case4 c rest plain ih =>
    rcases @getLast?_append_unescape [c] rest ends ih with later | ⟨rfl, same⟩
    · simp [List.getLast?_cons, later]
    · exact same
  | case5 c rest _ _ ih =>
    rcases @getLast?_append_unescape [c] rest ends ih with later | ⟨rfl, same⟩
    · simp [List.getLast?_cons, later]
    · exact same

/-- A normal form without the separator at its end does not end with another one, unless it is the root. -/
theorem dropTrailingSeparator_normalize_of_ends {path : Text}
    (ends : endsWithSeparator (dropTrailingSeparator (normalize path))) :
    dropTrailingSeparator (normalize path) = [separator] := by
  have inner (named : shown path ≠ []) : endsWithSeparator (ofSegments (shown path)) = false := by
    have body := mt ofSegments_shown_eq_nil.mp named
    rw [← endsWithSeparator_append [separator] body, List.singleton_append, separator_ofSegments, if_neg named]
    exact endsWithSeparator_append_rooted [] named fun _ => filled_of_mem_shown
  by_cases named : shown path = []
  · have root : normalize path = [separator] := by
      rw [normalize_eq, named, if_pos (shown_eq_nil_iff.mp named).1]
      rfl
    rw [root]
    rfl
  · -- What is left of the separator ends as the segments that are shown.
    have body := mt ofSegments_shown_eq_nil.mp named
    have plain (front : Text) : endsWithSeparator (front ++ ofSegments (shown path)) = false :=
      (endsWithSeparator_append front body).trans (inner named)
    obtain ⟨front, form⟩ : ∃ front, normalize path
        = front ++ ofSegments (shown path) ++ if endsWithSeparator path then [separator] else [] := by
      refine ⟨if isAbsolute path then [separator] else [], ?_⟩
      rw [normalize_eq, ← List.append_assoc]
      simp only [ne_eq, named, not_false_eq_true, true_and]
    rw [form] at ends
    by_cases closed : endsWithSeparator path
    · have long : 1 < (front ++ ofSegments (shown path) ++ [separator]).length := by
        have := List.length_pos_iff.mpr body
        simp only [List.length_append, List.length_singleton]
        omega
      rw [if_pos closed, dropTrailingSeparator,
        if_pos ⟨long, endsWithSeparator_append _ (List.cons_ne_nil _ _)⟩, List.dropLast_concat, plain] at ends
      cases ends
    · rw [if_neg closed, List.append_nil, dropTrailingSeparator, if_neg (by simp [plain]), plain] at ends
      cases ends

/-- No pattern asks for a separator at the end but the root. -/
theorem tokens_of_plainText {alternative : Text} {pattern : Pattern}
    (compiled : Pattern.compile (plainText alternative) = .ok pattern)
    (ends : pattern.tokens.getLast? = some (.literal '/')) : pattern.tokens = [.literal '/'] := by
  obtain ⟨tokens, found, rfl⟩ := Pattern.compile_eq_ok_iff.mp compiled
  have last : (plainText alternative).getLast? = some '/' :=
    @getLast?_of_compile ⟨none, false, plainText alternative⟩ tokens found ends
  have root := dropTrailingSeparator_normalize_of_ends (beq_iff_eq.mpr (getLast?_of_unescape last))
  rw [plainText, root] at found
  have alone : compileFrom none false (unescape [separator]) = .ok [.literal '/'] := by decide +kernel
  exact (Except.ok.inj (alone.symm.trans found)).symm

end Ends

section Names

variable {tokens : List Token} {text name : Text}

/-- Tokens that match the empty text are wildcards, and match every name. -/
theorem Matches.of_empty (matched : Matches tokens []) (filled : tokens ≠ []) (single : '/' ∉ name) :
    Matches tokens name := by
  obtain ⟨token, others, rfl⟩ := List.exists_cons_of_ne_nil filled
  by_cases wild : token = .anyRun ∨ token = .anyDirectories
  · rcases wild with rfl | rfl
    · have behind : Matches others [] := afterRun_nil.mp matched
      exact ⟨name, [], by simp, single, behind⟩
    · have behind : Matches others [] := afterDirectories_nil.mp matched
      exact ⟨name, [], by simp, .inr rfl, behind⟩
  · rw [not_or] at wild
    obtain ⟨c, rest, whole, -⟩ := (matches_single wild).mp matched
    cases whole

/-- The last character of a text is the last one of any part at its end. -/
theorem exists_append_of_append {c : Char} {skipped rest : Text} (same : text ++ [c] = skipped ++ rest)
    (filled : rest ≠ []) : ∃ back, rest = back ++ [c] ∧ text = skipped ++ back := by
  obtain ⟨back, d, whole⟩ := (List.eq_nil_or_concat rest).resolve_left filled
  rw [List.concat_eq_append] at whole
  subst whole
  rw [← List.append_assoc, List.append_singleton_inj] at same
  exact ⟨back, by rw [same.2], same.1⟩

/-- Only a literal separator takes a separator from the text. -/
theorem eq_literal_of_fits {token : Token} (fits : token.fits '/') : token = .literal '/' := by
  cases token with
  | literal c => rw [show '/' = c from beq_iff_eq.mp fits]
  | anyChar | anyRun | anyDirectories | oneOf | noneOf => simp [Token.fits] at fits

/-- Where the last token asks for no separator, what matches up to a separator also matches with a name behind. -/
theorem Matches.append_name (matched : Matches tokens (text ++ ['/']))
    (other : tokens.getLast? ≠ some (.literal '/')) (single : '/' ∉ name) :
    Matches tokens (text ++ '/' :: name) := by
  induction tokens generalizing text with
  | nil => simp [Matches] at matched
  | cons token tokens ih =>
    have later : tokens.getLast? ≠ some (.literal '/') := by
      intro ends
      rw [List.getLast?_cons, ends] at other
      exact other rfl
    by_cases wild : token = .anyRun ∨ token = .anyDirectories
    · rcases wild with rfl | rfl
      · -- A run cannot take the separator, so a later token has to.
        obtain ⟨skipped, rest, same, absent, found⟩ := matched
        have filled : rest ≠ [] := by
          rintro rfl
          rw [List.append_nil] at same
          exact absent (same ▸ by simp)
        obtain ⟨back, rfl, rfl⟩ := exists_append_of_append same filled
        exact ⟨skipped, _, List.append_assoc .., absent, ih found later⟩
      · -- Directories that take all of the text take the name as well.
        obtain ⟨skipped, rest, same, whole, found⟩ := matched
        by_cases ended : rest = []
        · subst ended
          exact ⟨text ++ '/' :: name, [], by simp, .inr rfl, found⟩
        · obtain ⟨back, rfl, rfl⟩ := exists_append_of_append same ended
          exact ⟨skipped, _, List.append_assoc .., .inl (whole.resolve_right ended), ih found later⟩
    · rw [not_or] at wild
      obtain ⟨c, rest, whole, fits, behind⟩ := (matches_single wild).mp matched
      refine (matches_single wild).mpr ?_
      cases text with
      | nil =>
        obtain ⟨rfl, rfl⟩ := List.cons.inj whole
        refine ⟨'/', name, rfl, fits, behind.of_empty ?_ single⟩
        -- Behind the token that takes the separator there is another one, as it is not the last.
        rintro rfl
        exact other (congrArg some (eq_literal_of_fits fits))
      | cons d text =>
        obtain ⟨rfl, rfl⟩ := List.cons.inj whole
        exact ⟨d, _, rfl, fits, ih behind later⟩

end Names

/-- Some expansion matches an ancestor of the path, with the backslashes of this read as separators. -/
def Selects (texts : List Text) (path : Text) : Prop :=
  ∃ ancestor ∈ ancestors path, ancestor ≠ [] ∧ ∃ text ∈ texts, ∃ pattern,
    compileAlternative text = .ok pattern ∧ pattern.isMatch (Text.slashed ancestor)

/-- What a directory takes along when it is selected. With a separator at its end, it is an ancestor of itself only,
and takes along its entries and what lies below them. -/
inductive Continues (directory path : Text) : Prop
  | below (opened : directory = [separator] ∨ endsWithSeparator directory = false) (lies : IsBelow directory path)
  | entry (name : Text) (closed : endsWithSeparator directory) (component : IsComponent name)
    (single : separator ∉ name) (plain : '\\' ∉ name)
    (lies : path = directory ++ name ∨ IsBelow (directory ++ name) path)

theorem compileAlternative_eq_error_iff {alternative : Text} {error : PatternError} :
    compileAlternative alternative = .error error ↔ ∃ fault,
      Pattern.compile (plainText alternative) = .error fault ∧ error = .uncompilable alternative fault := by
  rw [compileAlternative]
  cases Pattern.compile (plainText alternative) <;> simp [Except.mapError, eq_comm]

namespace Combined

variable {source : Text} {glob : Combined} {texts : List Text} {path ancestor : Text}

theorem exists_compile_iff (filled : Text.isBlankText source = false) :
    (∃ glob, compile source = .ok glob) ↔ ∃ texts, expand source = .ok texts ∧ ∀ text ∈ texts, Compiles text := by
  constructor
  · rintro ⟨glob, compiled⟩
    obtain ⟨texts, expanded, compiles, -⟩ := alternatives_eq filled compiled
    exact ⟨texts, expanded, compiles⟩
  · rintro ⟨texts, expanded, compiles⟩
    obtain ⟨glob, compiled, -⟩ := exists_compile filled expanded compiles
    exact ⟨glob, compiled⟩

/-- A source that is not blank fails with the fault of its expansion, or of the first expansion that has one. -/
theorem compile_eq_error_iff (filled : Text.isBlankText source = false) {error : PatternError} :
    compile source = .error error ↔ (∃ cause, expand source = .error cause ∧ error = .expansion cause)
      ∨ ∃ front text back fault, expand source = .ok (front ++ text :: back) ∧ (∀ other ∈ front, Compiles other)
        ∧ Pattern.compile (plainText text) = .error fault ∧ error = .uncompilable text fault := by
  have compiles (text : Text) : Compiles text ↔ ∃ pattern, compileAlternative text = .ok pattern := by
    simp only [compileAlternative_eq_ok_iff, Compiles]
  -- Compiling has two stages, and the second one is a traversal that stops at the first fault.
  have step : compile source = .error error ↔ (∃ cause, expand source = .error cause ∧ error = .expansion cause)
      ∨ ∃ texts, expand source = .ok texts ∧ texts.mapM compileAlternative = .error error := by
    rw [compile]
    simp only [filled, Bool.false_eq_true, if_false]
    cases expand source with
    | error cause => simp [Except.mapError, bind, Except.bind, eq_comm]
    | ok texts =>
      cases found : texts.mapM compileAlternative <;>
        simp [Except.mapError, bind, Except.bind, pure, Except.pure, found]
  rw [step]
  refine or_congr_right ?_
  simp only [mapM_eq_error_iff, compileAlternative_eq_error_iff, compiles]
  constructor
  · rintro ⟨_, expanded, front, text, back, rfl, before, fault, fails, same⟩
    exact ⟨front, text, back, fault, expanded, before, fails, same⟩
  · rintro ⟨front, text, back, fault, expanded, before, fails, same⟩
    exact ⟨_, expanded, front, text, back, rfl, before, fault, fails, same⟩

theorem isMatch_iff_exists : glob.isMatch path
    ↔ ∃ ancestor ∈ ancestors path, ancestor ≠ [] ∧ glob.matchesText (Text.slashed ancestor) := by
  simp [isMatch, List.any_eq_true]

/-- A combined glob matches what its expansions match, those included that are dropped. -/
theorem matchesText_iff_exists (filled : Text.isBlankText source = false) (compiled : compile source = .ok glob)
    (expanded : expand source = .ok texts) : glob.matchesText path ↔ ∃ text ∈ texts, ∃ pattern,
      compileAlternative text = .ok pattern ∧ pattern.isMatch path := by
  obtain ⟨texts', expanded', -, same⟩ := alternatives_eq filled compiled
  obtain rfl : texts = texts' := Except.ok.inj (expanded.symm.trans expanded')
  rw [matchesText_iff compiled, same]
  simp only [List.mem_eraseDups, List.mem_map, compileAlternative_eq_ok_iff]
  constructor
  · rintro ⟨_, ⟨text, member, rfl⟩, pattern, compiles, matched⟩
    exact ⟨text, member, pattern, compiles, (Glob.isMatch_iff compiles).mpr matched⟩
  · rintro ⟨text, member, pattern, compiles, matched⟩
    exact ⟨_, ⟨text, member, rfl⟩, pattern, compiles, (Glob.isMatch_iff compiles).mp matched⟩

theorem isMatch_iff_selects (filled : Text.isBlankText source = false) (compiled : compile source = .ok glob)
    (expanded : expand source = .ok texts) : glob.isMatch path ↔ Selects texts path := by
  simp only [isMatch_iff_exists, Selects, matchesText_iff_exists filled compiled expanded]

/-- What has a selected path among its ancestors is selected. -/
theorem isMatch_of_mem_ancestors (above : ancestor ∈ ancestors path) (selected : glob.isMatch ancestor) :
    glob.isMatch path := by
  obtain ⟨further, member, matched⟩ := isMatch_iff_exists.mp selected
  exact isMatch_iff_exists.mpr ⟨further, mem_ancestors_trans member above, matched⟩

theorem exists_plainText_of_mem (compiled : compile source = .ok glob) {alternative : Text}
    (member : alternative ∈ glob.alternatives) : ∃ text, plainText text = alternative := by
  obtain ⟨pattern, among, -⟩ := List.mem_map.mp member
  obtain ⟨texts, -, -, same⟩ := alternatives_eq (isBlankText_of_mem compiled among) compiled
  rw [same, List.mem_eraseDups, List.mem_map] at member
  exact member.imp fun _ => And.right

/-- An alternative that matches a path with a separator at its end also matches with a name behind. -/
theorem matchesText_append_name (compiled : compile source = .ok glob) {name : Text} (inner : path ≠ [])
    (matched : glob.matchesText (path ++ [separator])) (single : separator ∉ name) :
    glob.matchesText (path ++ separator :: name) := by
  obtain ⟨alternative, member, pattern, compiles, found⟩ := (matchesText_iff compiled).mp matched
  obtain ⟨text, rfl⟩ := exists_plainText_of_mem compiled member
  have other : pattern.tokens.getLast? ≠ some (.literal '/') := by
    -- Otherwise the pattern is the root, and matches a single character only.
    intro ends
    rw [tokens_of_plainText compiles ends] at found
    have alone := found.length_eq (by simp)
    rw [List.length_append] at alone
    exact inner (List.length_eq_zero_iff.mp (Nat.succ.inj alone).symm)
  exact (matchesText_iff compiled).mpr ⟨_, member, pattern, compiles, found.append_name other single⟩

/-- If a directory is selected with a separator at its end, so are its entries. -/
theorem isMatch_append_name (compiled : compile source = .ok glob) {names : List Text} {name : Text}
    (counted : ∀ name ∈ names, IsComponent name ∧ separator ∉ name) (component : IsComponent name)
    (single : separator ∉ name) (plain : '\\' ∉ entryFront (spelled names) ++ name)
    (selected : glob.isMatch (entryFront (spelled names))) : glob.isMatch (entryFront (spelled names) ++ name) := by
  have above : spelled names ∈ ancestors (entryFront (spelled names) ++ name) := by
    refine mem_ancestors_of_isBelow counted ⟨name, rfl, name, ?_, component⟩
    rw [segments_single single]
    exact List.mem_singleton_self name
  by_cases root : names = []
  · subst root
    exact isMatch_of_mem_ancestors above selected
  · rw [entryFront_spelled counted root] at above plain selected ⊢
    obtain ⟨ancestor, member, filled, matched⟩ := isMatch_iff_exists.mp selected
    rcases mem_ancestors_iff.mp member with rfl | ⟨parent, found, further⟩
    · -- The path itself is matched up to the separator, so it is matched with the name behind.
      rw [List.mem_append, not_or] at plain
      rw [Folders.slashed_of_not_mem plain.1] at matched
      have whole : spelled names ++ [separator] ++ name = spelled names ++ separator :: name := by simp
      have entry := matchesText_append_name compiled (List.cons_ne_nil _ _) matched single
      refine isMatch_iff_exists.mpr ⟨_, mem_ancestors_iff.mpr (.inl rfl), by simp [spelled], ?_⟩
      rwa [Folders.slashed_of_not_mem (by rw [List.mem_append, not_or]; exact plain), whole]
    · -- Strictly above, a separator at the end makes no difference.
      refine isMatch_of_mem_ancestors above (isMatch_iff_exists.mpr ⟨ancestor, ?_, filled, matched⟩)
      have same := (parent?_append_separator (ofSegments names)).symm.trans found
      exact mem_ancestors_iff.mpr (.inr ⟨parent, same, further⟩)

/-- A selected path is selected with everything that it takes along. -/
theorem isMatch_of_continues (compiled : compile source = .ok glob) {directory : Text}
    (absolute : isAbsolute directory) (normal : normalize directory = directory) (plain : '\\' ∉ directory)
    (selected : glob.isMatch directory) (continues : Continues directory path) : glob.isMatch path := by
  have counted : ∀ name ∈ location directory, IsComponent name ∧ separator ∉ name := fun name member =>
    ⟨(isName_of_mem_location member).isComponent, (isName_of_mem_location member).single⟩
  -- A normal path is spelled by the names on the way, perhaps with a separator at the end.
  have spelling := eq_spelled_of_normal absolute normal
  generalize location directory = names at counted spelling
  cases continues with
  | below opened lies =>
    have same : directory = spelled names := by
      refine spelling.resolve_right ?_
      rintro ⟨filled, rfl⟩
      rcases opened with root | opened
      · simp [spelled] at root
      · rw [endsWithSeparator_append _ (List.cons_ne_nil _ _)] at opened
        cases opened
    subst same
    exact isMatch_of_mem_ancestors (mem_ancestors_of_isBelow counted lies) selected
  | entry name closed component single plain' lies =>
    have same : directory = entryFront (spelled names) := by
      rcases spelling with rfl | ⟨filled, rfl⟩
      · exact (if_pos closed).symm
      · exact (entryFront_spelled counted filled).symm
    subst same
    have entry : glob.isMatch (entryFront (spelled names) ++ name) :=
      isMatch_append_name compiled counted component single (by rw [List.mem_append, not_or]; exact ⟨plain, plain'⟩)
        selected
    rcases lies with rfl | below
    · exact entry
    · rw [entryFront_spelled_append counted, segments_single single] at below entry
      refine isMatch_of_mem_ancestors (mem_ancestors_of_isBelow ?_ below) entry
      exact List.forall_mem_append.mpr ⟨counted, List.forall_mem_singleton.mpr ⟨component, single⟩⟩

end Combined

end RootedGlob.Glob
