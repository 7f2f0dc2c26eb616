import RootedGlob.Proofs.Glob.Matching
import RootedGlob.Proofs.Glob.Literal
import RootedGlob.Proofs.Path.Location
import RootedGlob.Proofs.Workspace.Folders
import Mathlib.Data.List.Chain

/-!
# Patterns segment by segment

What a name pattern fits is said without the matcher (`Fits`): a `*` takes any run of characters, a `?`
takes one, every other character takes itself. A pattern of several segments matches a text if its
segments fit those of the text one by one (`matches_ofSegments_iff`). Behind a folder and a `**` it compiles
to the characters of the folder, the `**` and its own tokens (`compile_anyDepth`), and these match some
beginning of a path if the path goes on below the folder and consecutive names of it are fitted there
(`exists_anyDepth_iff`).
-/

namespace RootedGlob.Glob

open RootedGlob.Path

/-- Whether a pattern for a name fits a name. -/
inductive Fits : Text → Text → Prop
  | nothing : Fits [] []
  | literal {c : Char} {pattern name : Text} (plain : c ≠ '*' ∧ c ≠ '?') (behind : Fits pattern name) :
      Fits (c :: pattern) (c :: name)
  | mark (c : Char) {pattern name : Text} (behind : Fits pattern name) :
      Fits ('?' :: pattern) (c :: name)
  | star (run : Text) {pattern name : Text} (behind : Fits pattern name) :
      Fits ('*' :: pattern) (run ++ name)

/-- A text in which every `*` stands alone. -/
def IsSingle (text : Text) : Prop := text.IsChain fun c d => ¬ (c = '*' ∧ d = '*')

instance (text : Text) : Decidable (IsSingle text) :=
  inferInstanceAs (Decidable (text.IsChain _))

/-- A pattern for a name: a name in which single stars and question marks may stand, without anything
else that pattern lists, groups or globs read. -/
structure IsNamePattern (pattern : Text) : Prop where
  name : IsName pattern
  plain : ∀ c ∈ pattern, c ∉ ['{', '}', '[', ']', '(', ')', ',', '\\']
  single : IsSingle pattern

instance (pattern : Text) : Decidable (IsNamePattern pattern) :=
  haveI : Decidable (∀ c ∈ pattern, c ∉ ['{', '}', '[', ']', '(', ')', ',', '\\']) :=
    List.decidableBAll _ pattern
  decidable_of_iff (IsName pattern ∧ (∀ c ∈ pattern, c ∉ ['{', '}', '[', ']', '(', ')', ',', '\\'])
      ∧ IsSingle pattern)
    ⟨fun ⟨name, plain, single⟩ => ⟨name, plain, single⟩,
      fun named => ⟨named.name, named.plain, named.single⟩⟩

section Fits

variable {pattern name : Text}

theorem fits_nil_iff : Fits [] name ↔ name = [] := by
  constructor
  · intro fits
    cases fits
    rfl
  · rintro rfl
    exact .nothing

theorem fits_star_iff :
    Fits ('*' :: pattern) name ↔ ∃ run rest, name = run ++ rest ∧ Fits pattern rest := by
  constructor
  · intro fits
    cases fits with
    | literal plain => exact absurd rfl plain.1
    | star run behind => exact ⟨run, _, rfl, behind⟩
  · rintro ⟨run, rest, rfl, behind⟩
    exact .star run behind

theorem fits_mark_iff : Fits ('?' :: pattern) name ↔ ∃ c rest, name = c :: rest ∧ Fits pattern rest := by
  constructor
  · intro fits
    cases fits with
    | literal plain => exact absurd rfl plain.2
    | mark c behind => exact ⟨c, _, rfl, behind⟩
  · rintro ⟨c, rest, rfl, behind⟩
    exact .mark c behind

theorem fits_literal_iff {c : Char} (plain : c ≠ '*' ∧ c ≠ '?') :
    Fits (c :: pattern) name ↔ ∃ rest, name = c :: rest ∧ Fits pattern rest := by
  constructor
  · intro fits
    cases fits with
    | literal _ behind => exact ⟨_, rfl, behind⟩
    | mark => exact absurd rfl plain.2
    | star => exact absurd rfl plain.1
  · rintro ⟨rest, rfl, behind⟩
    exact .literal plain behind

/-- What fits the empty name is a run of stars, and fits every name. -/
theorem Fits.of_empty (fits : Fits pattern []) (filled : pattern ≠ []) : Fits pattern name := by
  generalize empty : ([] : Text) = none at fits
  induction fits with
  | nothing => exact absurd rfl filled
  | literal => cases empty
  | mark => cases empty
  | star run behind =>
    obtain ⟨-, rfl⟩ := List.append_eq_nil_iff.mp empty.symm
    have whole := Fits.star name behind
    rwa [List.append_nil] at whole

end Fits

section Matching

variable {pattern text : Text} {tokens : List Token}

theorem matches_literal_iff {c : Char} :
    Matches (.literal c :: tokens) text ↔ ∃ rest, text = c :: rest ∧ Matches tokens rest := by
  simp [Matches, Token.fits]

theorem matches_literals_append_iff {front : Text} :
    Matches (front.map .literal ++ tokens) text ↔ ∃ rest, text = front ++ rest ∧ Matches tokens rest := by
  induction front generalizing text with
  | nil => simp
  | cons c front ih =>
    rw [List.map_cons, List.cons_append, matches_literal_iff]
    simp only [ih]
    constructor
    · rintro ⟨_, rfl, rest, rfl, behind⟩
      exact ⟨rest, rfl, behind⟩
    · rintro ⟨rest, rfl, behind⟩
      exact ⟨front ++ rest, rfl, rest, rfl, behind⟩

/-- The tokens of a name pattern match a beginning that it fits. -/
theorem matches_map_append_iff (single : '/' ∉ pattern) :
    Matches (pattern.map Token.ofChar ++ tokens) text
      ↔ ∃ name rest, text = name ++ rest ∧ '/' ∉ name ∧ Fits pattern name ∧ Matches tokens rest := by
  induction pattern generalizing text with
  | nil => simp [fits_nil_iff]
  | cons c pattern ih =>
    rw [List.mem_cons, not_or] at single
    rw [List.map_cons, List.cons_append, Token.ofChar]
    by_cases star : c = '*'
    · subst star
      -- The run of the star and the name behind it are one name without a separator.
      rw [if_pos rfl, Matches, AfterRun]
      simp only [ih single.2, fits_star_iff]
      constructor
      · rintro ⟨run, _, rfl, absent, name, rest, rfl, absent', fits, behind⟩
        refine ⟨run ++ name, rest, by simp, ?_, ⟨run, name, rfl, fits⟩, behind⟩
        rw [List.mem_append, not_or]
        exact ⟨absent, absent'⟩
      · rintro ⟨_, rest, rfl, absent, ⟨run, name, rfl, fits⟩, behind⟩
        rw [List.mem_append, not_or] at absent
        exact ⟨run, name ++ rest, by simp, absent.1, name, rest, rfl, absent.2, fits, behind⟩
    · rw [if_neg star]
      by_cases mark : c = '?'
      · subst mark
        rw [if_pos rfl, matches_single (by simp)]
        simp only [ih single.2, fits_mark_iff, Token.fits, bne_iff_ne]
        constructor
        · rintro ⟨c, _, rfl, other, name, rest, rfl, absent, fits, behind⟩
          refine ⟨c :: name, rest, rfl, ?_, ⟨c, name, rfl, fits⟩, behind⟩
          rw [List.mem_cons, not_or]
          exact ⟨Ne.symm other, absent⟩
        · rintro ⟨_, rest, rfl, absent, ⟨c, name, rfl, fits⟩, behind⟩
          rw [List.mem_cons, not_or] at absent
          exact ⟨c, name ++ rest, rfl, Ne.symm absent.1, name, rest, rfl, absent.2, fits, behind⟩
      · rw [if_neg mark, matches_single (by simp)]
        simp only [ih single.2, fits_literal_iff ⟨star, mark⟩, Token.fits, beq_iff_eq]
        constructor
        · rintro ⟨_, _, rfl, rfl, name, rest, rfl, absent, fits, behind⟩
          refine ⟨_ :: name, rest, rfl, ?_, ⟨name, rfl, fits⟩, behind⟩
          rw [List.mem_cons, not_or]
          exact ⟨single.1, absent⟩
        · rintro ⟨_, rest, rfl, absent, ⟨name, rfl, fits⟩, behind⟩
          rw [List.mem_cons, not_or] at absent
          exact ⟨c, name ++ rest, rfl, rfl, name, rest, rfl, absent.2, fits, behind⟩

theorem forall₂_fits_singleton_iff :
    List.Forall₂ Fits [pattern] (segments text) ↔ '/' ∉ text ∧ Fits pattern text := by
  constructor
  · intro fits
    obtain ⟨name, names, split, whole⟩ := exists_segments text
    rw [split] at fits
    cases fits with
    | cons head tail =>
      cases tail
      rw [rooted_nil, List.append_nil] at whole
      subst whole
      exact ⟨@not_mem_of_mem_segments text text (by simp [split]), head⟩
  · rintro ⟨absent, fits⟩
    rw [segments_single absent]
    exact .cons fits .nil

theorem forall₂_fits_cons_iff {next : Text} {patterns : List Text} :
    List.Forall₂ Fits (pattern :: next :: patterns) (segments text)
      ↔ ∃ name rest, text = name ++ '/' :: rest ∧ '/' ∉ name ∧ Fits pattern name
        ∧ List.Forall₂ Fits (next :: patterns) (segments rest) := by
  constructor
  · intro fits
    obtain ⟨name, names, split, whole⟩ := exists_segments text
    have plain : ∀ other ∈ name :: names, separator ∉ other := by
      rw [← split]
      exact fun _ => not_mem_of_mem_segments
    rw [split] at fits
    cases fits with
    | cons head tail =>
      -- There is a second pattern, so there is a second segment, and a separator in front of it.
      obtain ⟨other, names, rfl⟩ := List.exists_cons_of_ne_nil (l := names) (by
        rintro rfl
        cases tail)
      have again := segments_ofSegments (List.cons_ne_nil other names) fun name member =>
        plain name (List.mem_cons_of_mem _ member)
      rw [rooted_cons, ← ofSegments_cons] at whole
      exact ⟨name, _, whole, plain name List.mem_cons_self, head, again.symm ▸ tail⟩
  · rintro ⟨name, rest, rfl, absent, head, tail⟩
    have split := segments_append name rest
    rw [segments_single absent, List.singleton_append] at split
    exact split.symm ▸ .cons head tail

/-- Several name patterns match a text if they fit its segments one by one. -/
theorem matches_ofSegments_iff {patterns : List Text} (filled : patterns ≠ [])
    (single : ∀ pattern ∈ patterns, '/' ∉ pattern) :
    Matches ((ofSegments patterns).map Token.ofChar) text
      ↔ List.Forall₂ Fits patterns (segments text) := by
  -- The first pattern takes the text up to the first separator, which it cannot pass.
  induction patterns generalizing text with
  | nil => exact absurd rfl filled
  | cons pattern patterns ih =>
    have first := single pattern List.mem_cons_self
    cases patterns with
    | nil =>
      have found := @matches_map_append_iff pattern text [] first
      rw [List.append_nil] at found
      rw [ofSegments_cons, rooted_nil, List.append_nil, found, forall₂_fits_singleton_iff]
      constructor
      · rintro ⟨name, rest, rfl, absent, fits, rfl⟩
        rw [List.append_nil]
        exact ⟨absent, fits⟩
      · rintro ⟨absent, fits⟩
        exact ⟨text, [], (List.append_nil text).symm, absent, fits, rfl⟩
    | cons next patterns =>
      have rest : ∀ other ∈ next :: patterns, '/' ∉ other := fun other member =>
        single other (List.mem_cons_of_mem _ member)
      have tokens : (ofSegments (pattern :: next :: patterns)).map Token.ofChar
          = pattern.map Token.ofChar
            ++ .literal '/' :: (ofSegments (next :: patterns)).map Token.ofChar := by
        rw [ofSegments_cons, rooted_cons, ← ofSegments_cons, List.map_append, List.map_cons]
        rfl
      rw [tokens, matches_map_append_iff first, forall₂_fits_cons_iff]
      simp only [matches_literal_iff, ih (List.cons_ne_nil _ _) rest]
      constructor
      · rintro ⟨name, _, rfl, absent, fits, behind, rfl, others⟩
        exact ⟨name, behind, rfl, absent, fits, others⟩
      · rintro ⟨name, behind, rfl, absent, fits, others⟩
        exact ⟨name, _, rfl, absent, fits, behind, rfl, others⟩

end Matching

section Compile

variable {text : Text} (before : Option Char) (repeats : Bool)

theorem map_map {write further : List Token → List Token} {result : Except Fault (List Token)} :
    (result.map write).map further = result.map (further ∘ write) := by
  cases result <;> rfl

theorem compileFrom_star (rest : Text) (alone : rest.head? ≠ some '*') :
    compileFrom before repeats ('*' :: rest)
      = (compileFrom (some '*') false rest).map (.anyRun :: ·) := by
  cases rest with
  | nil =>
    rw [compileFrom.eq_def]
    rfl
  | cons c rest =>
    rw [compileFrom]
    all_goals
      rintro _ same
      simp_all

/-- Without classes, a text with single stars is compiled character by character. -/
theorem compileFrom_of_isSingle (absent : '[' ∉ text) (single : IsSingle text) :
    compileFrom before repeats text = .ok (text.map Token.ofChar) := by
  induction text generalizing before repeats with
  | nil => rw [compileFrom, List.map_nil]
  | cons c text ih =>
    rw [List.mem_cons, not_or] at absent
    rw [IsSingle, List.isChain_cons] at single
    rw [List.map_cons, Token.ofChar]
    -- No star follows a star, so each one is compiled for itself.
    by_cases star : c = '*'
    · subst star
      have alone : text.head? ≠ some '*' := fun same => single.1 '*' same ⟨rfl, rfl⟩
      rw [compileFrom_star before repeats text alone, ih _ _ absent.2 single.2, if_pos rfl]
      rfl
    · by_cases mark : c = '?'
      · subst mark
        rw [compileFrom, ih _ _ absent.2 single.2]
        rfl
      · have verbatim : isVerbatim c := by simp [isVerbatim, star, mark, Ne.symm absent.1]
        rw [compileFrom_verbatim before repeats verbatim, ih _ _ absent.2 single.2, if_neg star,
          if_neg mark]
        rfl

/-- Names with single stars have single stars when they are put together. -/
theorem isSingle_ofSegments {patterns : List Text} (single : ∀ pattern ∈ patterns, IsSingle pattern) :
    IsSingle (ofSegments patterns) := by
  have behind (names : List Text) (single : ∀ name ∈ names, IsSingle name) : IsSingle (rooted names) := by
    induction names with
    | nil => exact .nil
    | cons name names ih =>
      have rest := ih fun other member => single other (List.mem_cons_of_mem _ member)
      rw [IsSingle, rooted_cons, List.isChain_cons]
      refine ⟨fun _ _ both => absurd both.1 (by decide), ?_⟩
      refine (single name List.mem_cons_self).append rest ?_
      rintro c - d first ⟨-, rfl⟩
      cases names <;> cases first
  cases patterns with
  | nil => exact .nil
  | cons name names =>
    rw [ofSegments_cons]
    have rooted := behind (name :: names) single
    rw [rooted_cons] at rooted
    exact rooted.tail

/-- A folder and a `**` in front of a pattern. -/
theorem compileFrom_anyDepth {folder : Text} (verbatim : ∀ c ∈ folder, isVerbatim c) (rest : Text) :
    compileFrom before repeats (folder ++ '/' :: '*' :: '*' :: '/' :: rest)
      = (compileFrom (some '/') true rest).map fun tokens =>
        folder.map .literal ++ .literal '/' :: .anyDirectories :: tokens := by
  induction folder generalizing before repeats with
  | nil =>
    rw [List.nil_append, compileFrom_separator, compileFrom, if_pos (.inr rfl)]
    · exact map_map
    · rintro tail same
      cases same
  | cons c folder ih =>
    rw [List.forall_mem_cons] at verbatim
    rw [List.cons_append, compileFrom_verbatim before repeats verbatim.1, ih _ _ verbatim.2, map_map]
    rfl

end Compile

section Selection

variable {folder patterns : List Text}

/-- A pattern that stands at any depth below a folder matches what goes on behind the folder with some
segments and then segments that it fits. -/
theorem compile_anyDepth (verbatim : ∀ name ∈ folder, ∀ c ∈ name, isVerbatim c) (filled : patterns ≠ [])
    (proper : ∀ pattern ∈ patterns, IsNamePattern pattern) :
    ∃ pattern, Pattern.compile (spelled (folder ++ ['*', '*'] :: patterns)) = .ok pattern
      ∧ ∀ text, Matches pattern.tokens text ↔ ∃ behind, text = rooted folder ++ '/' :: behind
        ∧ AfterDirectories (fun rest => List.Forall₂ Fits patterns (segments rest)) true behind := by
  have spelling : spelled (folder ++ ['*', '*'] :: patterns)
      = rooted folder ++ '/' :: '*' :: '*' :: '/' :: ofSegments patterns := by
    obtain ⟨first, others, rfl⟩ := List.exists_cons_of_ne_nil filled
    rw [spelled_eq, if_neg (by simp), rooted_append, rooted_cons, rooted_cons, ofSegments_cons]
    rfl
  have front : ∀ c ∈ rooted folder, isVerbatim c := by
    intro c member
    obtain ⟨name, among, inside⟩ := List.mem_flatMap.mp member
    rcases List.mem_cons.mp inside with rfl | inside
    · decide
    · exact verbatim name among c inside
  have absent : '[' ∉ ofSegments patterns := by
    intro member
    obtain ⟨pattern, among, inside⟩ :=
      (mem_spelled (List.mem_cons_of_mem separator member)).resolve_left (by decide)
    exact (proper pattern among).plain '[' inside (by decide)
  have single := isSingle_ofSegments fun pattern member => (proper pattern member).single
  have compiled : Pattern.compile (spelled (folder ++ ['*', '*'] :: patterns))
      = .ok ⟨spelled (folder ++ ['*', '*'] :: patterns), (rooted folder).map .literal
        ++ .literal '/' :: .anyDirectories :: (ofSegments patterns).map Token.ofChar⟩ := by
    rw [spelling, Pattern.compile, compileFrom_anyDepth _ _ front,
      compileFrom_of_isSingle _ _ absent single]
    rfl
  have behind : Matches ((ofSegments patterns).map Token.ofChar)
      = fun rest => List.Forall₂ Fits patterns (segments rest) := by
    funext rest
    exact propext (matches_ofSegments_iff filled fun pattern member => (proper pattern member).name.single)
  have deep (rest : Text) :
      Matches (.anyDirectories :: (ofSegments patterns).map Token.ofChar) rest
        ↔ AfterDirectories (fun rest => List.Forall₂ Fits patterns (segments rest)) true rest := by
    rw [Matches, behind]
  refine ⟨_, compiled, fun text => ?_⟩
  simp only [matches_literals_append_iff, matches_literal_iff, deep]
  constructor
  · rintro ⟨_, rfl, rest, rfl, found⟩
    exact ⟨rest, rfl, found⟩
  · rintro ⟨rest, rfl, found⟩
    exact ⟨_, rfl, rest, rfl, found⟩

theorem segments_suffix {skipped : Text} (whole : IsWholeSegments true skipped) (rest : Text) :
    segments rest <:+ segments (skipped ++ rest) := by
  rcases whole with ⟨rfl, -⟩ | ends
  · exact List.suffix_rfl
  · obtain ⟨start, rfl⟩ := List.getLast?_eq_some_iff.mp ends
    have split : segments (start ++ '/' :: rest) = segments start ++ segments rest :=
      segments_append start rest
    rw [List.append_assoc, List.singleton_append, split]
    exact List.suffix_append _ _

/-- What is fitted behind a `**` is fitted by the last segments there. At the end of the text only a star
is left to fit, and a star fits every segment. -/
theorem exists_run_of_afterDirectories (proper : ∀ pattern ∈ patterns, IsNamePattern pattern)
    {behind : Text} (found :
      AfterDirectories (fun rest => List.Forall₂ Fits patterns (segments rest)) true behind)
    {names : List Text} (inner : names ≠ []) (start : segments behind <+: names ∨ behind = []) :
    ∃ run, run <:+: names ∧ List.Forall₂ Fits patterns run := by
  obtain ⟨skipped, rest, rfl, whole, fits⟩ := found
  by_cases ended : rest = []
  · subst ended
    obtain ⟨name, others, rfl⟩ := List.exists_cons_of_ne_nil inner
    rw [segments_nil] at fits
    cases fits with
    | cons head tail =>
      cases tail
      have every := @Fits.of_empty _ name head (proper _ List.mem_cons_self).name.nonempty
      exact ⟨[name], ⟨[], others, rfl⟩, .cons every .nil⟩
  · have last := segments_suffix (whole.resolve_right ended) rest
    have among := start.resolve_right (by simp [ended])
    exact ⟨segments rest, last.isInfix.trans among.isInfix, fits⟩

/-- What lies behind a folder in the spelling of a path are the further names of the path; if there
are none, the folder is the root. -/
theorem eq_append_segments {names : List Text} (above : ∀ name ∈ folder, IsName name)
    (below : ∀ name ∈ names, IsName name) {behind : Text}
    (spelling : spelled names = rooted folder ++ separator :: behind) :
    names = folder ++ segments behind ∨ (folder = [] ∧ behind = []) := by
  rw [spelled_eq] at spelling
  split at spelling
  · cases folder with
    | nil => exact .inr ⟨rfl, (List.cons.inj spelling).2.symm⟩
    | cons name folder =>
      have lengths := congrArg List.length spelling
      simp at lengths
  · have split := congrArg segments spelling
    rw [segments_append, segments_rooted fun name member => (above name member).single,
      segments_rooted fun name member => (below name member).single] at split
    exact .inl (List.cons.inj split).2

/-- Some beginning of a path is matched at any depth below a folder if the path lies in the folder and
has consecutive names there that the pattern fits. -/
theorem exists_anyDepth_iff (above : ∀ name ∈ folder, IsName name) (filled : patterns ≠ [])
    (proper : ∀ pattern ∈ patterns, IsNamePattern pattern) {names : List Text}
    (below : ∀ name ∈ names, IsName name) (inner : names ≠ []) :
    (∃ front, front <+: names ∧ ∃ behind, spelled front = rooted folder ++ '/' :: behind
        ∧ AfterDirectories (fun rest => List.Forall₂ Fits patterns (segments rest)) true behind)
      ↔ folder <+: names
        ∧ ∃ run, run <:+: names.drop folder.length ∧ List.Forall₂ Fits patterns run := by
  constructor
  · rintro ⟨front, start, behind, spelling, found⟩
    -- The segments that are fitted end the beginning, and lie inside the path all the same.
    rcases eq_append_segments above (fun name member => below name (start.subset member)) spelling with
      rfl | ⟨rfl, rfl⟩
    · obtain ⟨later, rfl⟩ := start
      rw [List.append_assoc, List.drop_left]
      have further : segments behind ++ later ≠ [] := by simp [segments_ne_nil]
      exact ⟨List.prefix_append _ _,
        exists_run_of_afterDirectories proper found further (.inl (List.prefix_append _ _))⟩
    · exact ⟨List.nil_prefix, exists_run_of_afterDirectories proper found inner (.inr rfl)⟩
  · rintro ⟨⟨deeper, rfl⟩, run, ⟨before, after, split⟩, fits⟩
    rw [List.drop_left] at split
    subst split
    have stops : run ≠ [] := by
      rintro rfl
      cases fits
      exact filled rfl
    have again := segments_ofSegments stops fun name member => (below name (by simp [member])).single
    have found : List.Forall₂ Fits patterns (segments (ofSegments run)) := again.symm ▸ fits
    -- The beginning that is matched ends with the run, so what comes after the run does not matter.
    refine ⟨folder ++ (before ++ run), ⟨after, by simp⟩, ofSegments (before ++ run), ?_, ?_⟩
    · have more : before ++ run ≠ [] := by simp [stops]
      have rooting := separator_ofSegments (before ++ run)
      rw [if_neg more] at rooting
      rw [spelled_eq, if_neg (by simp [stops]), rooted_append, ← rooting]
      rfl
    · by_cases direct : before = []
      · subst direct
        exact ⟨[], ofSegments run, rfl, .inl (.inl ⟨rfl, rfl⟩), found⟩
      · refine ⟨ofSegments before ++ ['/'], ofSegments run, ?_, .inl (.inr (by simp)), found⟩
        rw [ofSegments_append direct stops, List.append_assoc]
        rfl

end Selection

end RootedGlob.Glob
