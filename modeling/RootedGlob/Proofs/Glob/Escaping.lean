import RootedGlob.Proofs.Brace.Plain
import RootedGlob.Proofs.Glob.Selection
import RootedGlob.Proofs.PatternList.Tokens

/-!
# Escaped paths

A path whose special characters stand behind backslashes is read three times before it matches
anything: the backslashes keep braces and commas from being marks of a group, they are ordinary
characters while the path is normalized, and then every escape becomes the bare character or a class
of its own. Put together, these three readings give a pattern that matches the path and nothing else
(`matches_exactly_iff`), so an escaped path selects the path and what lies below (`isMatch_escape_iff`).
-/

namespace RootedGlob.Glob

open Brace RootedGlob.Path

/-- A character that has a meaning of its own in a combined glob. -/
def isMarked (c : Char) : Bool := isSpecial c || c == '{' || c == '}' || c == ','

def escaped (c : Char) : Text := if isMarked c then ['\\', c] else [c]

/-- The path with a backslash before each character that has a meaning of its own. -/
def escape (path : Text) : Text := path.flatMap escaped

def quoted (c : Char) : Text := if isSpecial c then ['[', c, ']'] else [c]

/-- The path with each special character in a class of its own. -/
def quote (path : Text) : Text := path.flatMap quoted

/-- The token that a quoted character is compiled to. -/
def Token.exactly (c : Char) : Token := if isSpecial c then .oneOf [.single c] else .literal c

@[simp] theorem escape_cons (c : Char) (text : Text) : escape (c :: text) = escaped c ++ escape text :=
  rfl

@[simp] theorem quote_cons (c : Char) (text : Text) : quote (c :: text) = quoted c ++ quote text := rfl

section Readings

variable {text : Text}

/-- Behind its backslash no character is a mark. -/
theorem lex_escape (absent : '\\' ∉ text) :
    lex (escape text) = text.map fun c => .literal (escaped c) := by
  induction text with
  | nil => rw [escape, List.flatMap_nil, lex, List.map_nil]
  | cons c text ih =>
    rw [List.mem_cons, not_or] at absent
    rw [escape_cons, List.map_cons, ← ih absent.2, escaped]
    split
    · rw [List.cons_append, lex_cons]
      rfl
    · next plain =>
      simp only [isMarked, isSpecial, Bool.or_eq_true, beq_iff_eq, not_or] at plain
      have flat : isFlatChar c := by simp [isFlatChar, plain, Ne.symm absent.1]
      rw [List.singleton_append, lex_cons, lexeme_of_unguarded _ ⟨Ne.symm absent.1, plain.1.1.1.1.2⟩,
        ofChar_of_isFlatChar flat]

theorem expand_escape (absent : '\\' ∉ text) : expand (escape text) = .ok [escape text] := by
  have flat : Lexeme.opening ∉ lex (escape text) := by
    rw [lex_escape absent]
    simp
  have alone : denoted (lex (escape text)) = [escape text] := by
    rw [denoted, read_flat _ flat]
    simp
  refine expand_eq_ok_iff.mpr ⟨?_, depthAfter_flat flat, ?_, alone.symm⟩
  · rw [countGroups, List.count_eq_zero.mpr flat]
    exact Nat.zero_le _
  · rw [alone]
    exact Nat.succ_le_succ (Nat.zero_le _)

theorem unescape_escape (absent : '\\' ∉ text) : unescape (escape text) = quote text := by
  induction text with
  | nil => rfl
  | cons c text ih =>
    rw [List.mem_cons, not_or] at absent
    rw [escape_cons, quote_cons, ← ih absent.2, escaped, quoted]
    by_cases special : isSpecial c
    · have marked : isMarked c := by simp [isMarked, special]
      simp [marked, special, unescape]
    · by_cases marked : isMarked c
      · simp [marked, special, unescape]
      · simp only [marked, special, Bool.false_eq_true, if_false, List.singleton_append]
        exact unescape_cons (Ne.symm absent.1) _

/-- A class of one member is one token for that member, also where the member is a bracket. -/
theorem compileFrom_quote (text : Text) (before : Option Char) (repeats : Bool) :
    compileFrom before repeats (quote text) = .ok (text.map Token.exactly) := by
  induction text generalizing before repeats with
  | nil => rw [quote, List.flatMap_nil, compileFrom, List.map_nil]
  | cons c text ih =>
    rw [quote_cons, quoted, List.map_cons, Token.exactly]
    by_cases special : isSpecial c
    · have positive : c ≠ '!' := by
        rintro rfl
        exact absurd special (by decide)
      have member : readClass? (c :: ']' :: quote text) = some (.oneOf [.single c], quote text) := by
        -- The member stands right behind the bracket, so even a `]` there does not close the class.
        unfold readClass?
        split
        · next same => exact absurd (List.cons.inj same).1 positive
        · next same => exact absurd (List.cons.inj same).1 positive
        · next same =>
          obtain ⟨rfl, rfl⟩ := List.cons.inj same
          rfl
        · next same => cases same
      rw [if_pos special, if_pos special]
      exact (compileFrom_class before repeats member).trans (by rw [ih]; rfl)
    · have verbatim : isVerbatim c := by
        simp only [isSpecial, Bool.or_eq_true, beq_iff_eq, not_or] at special
        simp [isVerbatim, special]
      rw [if_neg special, if_neg special, List.singleton_append,
        compileFrom_verbatim before repeats verbatim, ih]
      rfl

theorem fits_exactly_iff {c d : Char} : (Token.exactly c).fits d ↔ d = c := by
  rw [Token.exactly]
  split
  · next special =>
    -- A class never holds a separator, and a separator is not special.
    have other : c ≠ '/' := by
      rintro rfl
      exact absurd special (by decide)
    simp only [Token.fits, List.any_cons, List.any_nil, Bool.or_false, Member.holds, Bool.and_eq_true,
      bne_iff_ne, beq_iff_eq, and_iff_right_iff_imp]
    rintro rfl
    exact other
  · simp [Token.fits]

theorem matches_exactly_iff {other : Text} :
    Matches (text.map Token.exactly) other ↔ other = text := by
  induction text generalizing other with
  | nil => rfl
  | cons c text ih =>
    have single : Token.exactly c ≠ .anyRun ∧ Token.exactly c ≠ .anyDirectories := by
      rw [Token.exactly]
      split <;> simp
    rw [List.map_cons, matches_single single]
    simp only [fits_exactly_iff, ih]
    constructor
    · rintro ⟨d, rest, rfl, rfl, rfl⟩
      rfl
    · rintro rfl
      exact ⟨c, text, rfl, rfl, rfl⟩

end Readings

section Paths

theorem isName_escape {name : Text} (proper : IsName name) : IsName (escape name) := by
  -- Escaping keeps the characters of a name and adds no separator.
  have kept (c : Char) (member : c ∈ name) : c ∈ escape name := by
    refine List.mem_flatMap.mpr ⟨c, member, ?_⟩
    rw [escaped]
    split <;> simp
  have single : separator ∉ escape name := by
    intro member
    obtain ⟨c, inside, found⟩ := List.mem_flatMap.mp member
    have same : separator = c := by
      rw [escaped] at found
      split at found
      · simpa [separator] using found
      · exact List.mem_singleton.mp found
    exact proper.single (same ▸ inside)
  by_cases dots : ∀ c ∈ name, c = '.'
  · -- A name of dots has no character to escape.
    have same : escape name = name := by
      have flat : ∀ c ∈ name, escaped c = [c] := by
        intro c member
        rw [dots c member]
        rfl
      rw [escape, List.flatMap_congr flat, List.flatMap_singleton']
    rwa [same]
  · simp only [not_forall, exists_prop] at dots
    obtain ⟨c, member, other⟩ := dots
    exact isName_of_mem (kept c member) other single

theorem escape_spelled (names : List Text) : escape (spelled names) = spelled (names.map escape) := by
  have inner (names : List Text) : escape (rooted names) = rooted (names.map escape) := by
    induction names with
    | nil => rfl
    | cons name names ih =>
      have front : escape (separator :: (name ++ rooted names))
          = separator :: (escape name ++ escape (rooted names)) := by
        rw [escape_cons, escape, List.flatMap_append]
        rfl
      rw [rooted_cons, front, ih, List.map_cons, rooted_cons]
  rw [spelled_eq, spelled_eq]
  by_cases root : names = []
  · subst root
    rfl
  · rw [if_neg root, if_neg (by simpa using root), inner]

/-- Among the ancestors of a normal path stand the path itself and what lies above it, spelled without
a separator at the end. -/
theorem mem_ancestors_of_normal {names : List Text} (proper : ∀ name ∈ names, IsName name)
    (inner : names ≠ []) {file : Text} (absolute : isAbsolute file) (normal : normalize file = file) :
    spelled names ∈ ancestors file ↔ file = spelled names
      ∨ (spelled names ++ [separator] <+: file ∧ file ≠ spelled names ++ [separator]) := by
  have below : ∀ name ∈ location file, IsName name := fun _ => isName_of_mem_location
  have among {whole : List Text} (proper' : ∀ name ∈ whole, IsName name) :
      (∃ front, front <+: whole ∧ spelled names = spelled front) ↔ names <+: whole := by
    constructor
    · rintro ⟨front, start, same⟩
      rw [spelled_inj proper fun name member => proper' name (start.subset member)] at same
      exact same ▸ start
    · exact fun start => ⟨names, start, rfl⟩
  -- A normal path spells its location, with or without a separator at the end.
  rcases eq_spelled_of_normal absolute normal with plain | ⟨filled, closed⟩
  · have other : file ≠ spelled names ++ [separator] :=
      plain ▸ spelled_ne_append_separator below (by simp [spelled])
    generalize location file = whole at plain below
    subst plain
    rw [mem_ancestors_spelled below, among below, and_iff_left other,
      Folders.prefix_spelled_iff proper below inner, spelled_inj below proper]
    by_cases same : names = whole
    · simp [same]
    · simp [same, Ne.symm same]
  · -- The path with the separator is an ancestor of itself only, and no location is spelled like it.
    have other : file ≠ spelled names := fun same =>
      spelled_ne_append_separator proper (by simp [spelled]) (same.symm.trans closed)
    obtain ⟨front, last, split⟩ := (List.eq_nil_or_concat (location file)).resolve_left filled
    rw [List.concat_eq_append] at split
    rw [split] at closed below
    have above : ∀ name ∈ front, IsName name := fun name member =>
      below name (List.mem_append_left _ member)
    rw [or_iff_right other, closed, mem_ancestors_spelled_separator below, ← closed,
      or_iff_right (Ne.symm other), among above, closed, List.prefix_concat_iff,
      Folders.prefix_spelled_iff proper below inner, List.prefix_concat_iff]
    simp only [ne_eq, List.append_left_inj, spelled_inj proper below, spelled_inj below proper]
    constructor
    · intro start
      have differs : names ≠ front ++ [last] := by
        rintro rfl
        exact absurd start.length_le (by simp)
      exact ⟨.inr ⟨.inr start, differs⟩, Ne.symm differs⟩
    · rintro ⟨same | ⟨start, differs⟩, other⟩
      · exact absurd same.symm other
      · exact start.resolve_left differs

end Paths

namespace Combined

section Escape

variable {path : Text} (absolute : isAbsolute path) (normal : normalize path = path)

include absolute normal

theorem plainText_escape (absent : '\\' ∉ path) :
    plainText (escape path) = quote (spelled (location path)) := by
  have proper : ∀ name ∈ (location path).map escape, IsName name := by
    rw [List.forall_mem_map]
    exact fun name member => isName_escape (isName_of_mem_location member)
  have unmarked : '\\' ∉ spelled (location path) := not_mem_spelled_location (by decide) absent
  have place : isAbsolute (escape path)
      ∧ location (escape path) = (location path).map escape := by
    -- A separator at the end survives the escaping, and the location does not see it.
    rcases eq_spelled_of_normal absolute normal with plain | ⟨-, closed⟩
    · rw [plain, escape_spelled, location_spelled fun _ => isName_of_mem_location]
      exact ⟨isAbsolute_spelled _, location_spelled proper⟩
    · have ended : escape path = spelled ((location path).map escape) ++ [separator] := by
        rw [← escape_spelled]
        conv => lhs; rw [closed]
        exact List.flatMap_append
      rw [ended]
      refine ⟨rfl, ?_⟩
      rw [location, stand_separator, ← location, location_spelled proper]
  rw [plainText_of_isAbsolute place.1, place.2, ← escape_spelled, unescape_escape unmarked]

/-- An escaped path compiles to one pattern, which matches the path only. -/
theorem compile_escape (absent : '\\' ∉ path) :
    ∃ glob, compile (escape path) = .ok glob
      ∧ glob.alternatives = [quote (spelled (location path))]
      ∧ ∀ text, glob.matchesText text ↔ text = spelled (location path) := by
  -- The quoted path is a pattern of single characters.
  have compiles : Pattern.compile (quote (spelled (location path)))
      = .ok ⟨quote (spelled (location path)), (spelled (location path)).map Token.exactly⟩ := by
    rw [Pattern.compile, compileFrom_quote]
    rfl
  -- The path begins with a separator, so its escape is not blank.
  have solid : Text.isBlankText (escape path) = false := by
    obtain ⟨rest, same⟩ := isAbsolute_iff.mp absolute
    rw [same]
    exact PatternList.isBlankText_of_mem (c := separator) List.mem_cons_self (by decide)
  have plain := plainText_escape absolute normal absent
  obtain ⟨glob, compiled, alternatives⟩ := exists_compile solid (expand_escape absent) (by
    rw [List.forall_mem_singleton, Compiles, plain]
    exact ⟨_, compiles⟩)
  rw [List.map_singleton, plain, eraseDups_of_nodup (by simp)] at alternatives
  refine ⟨glob, compiled, alternatives, fun text => ?_⟩
  rw [matchesText_iff compiled, alternatives]
  simp only [List.mem_singleton, exists_eq_left, compiles, Except.ok.injEq, exists_eq_left',
    matches_exactly_iff]

/-- An escaped path selects the path and what lies below it. A separator at the end of the path makes no
difference; at the end of a file it keeps the file from being the path itself. -/
theorem isMatch_escape_iff (absent : '\\' ∉ path) (inner : path ≠ [separator]) :
    ∃ glob, compile (escape path) = .ok glob ∧ glob.alternatives.length = 1
      ∧ ∀ file, isAbsolute file → normalize file = file → '\\' ∉ file →
        (glob.isMatch file ↔ file = dropTrailingSeparator path
          ∨ (dropTrailingSeparator path ++ [separator] <+: file
            ∧ file ≠ dropTrailingSeparator path ++ [separator])) := by
  obtain ⟨glob, compiled, alternatives, matched⟩ := compile_escape absolute normal absent
  have proper : ∀ name ∈ location path, IsName name := fun _ => isName_of_mem_location
  -- Only the root has no names, and it is left out.
  have filled : location path ≠ [] := by
    intro root
    rcases eq_spelled_of_normal absolute normal with plain | ⟨filled, -⟩
    · rw [root] at plain
      exact inner plain
    · exact filled root
  have spelling : dropTrailingSeparator path = spelled (location path) := by
    conv => lhs; rw [← normal]
    exact dropTrailingSeparator_normalize absolute
  refine ⟨glob, compiled, by rw [alternatives]; rfl, fun file absolute' normal' absent' => ?_⟩
  rw [isMatch_iff_ancestor absent', spelling, ← mem_ancestors_of_normal proper filled absolute' normal']
  simp only [matched]
  constructor
  · rintro ⟨ancestor, member, -, rfl⟩
    exact member
  · exact fun member => ⟨_, member, by simp [spelled], rfl⟩

end Escape

theorem isMatch_escape_iff_marks :
    isAbsolute "/w[x]/{a,b}*".toList ∧ normalize "/w[x]/{a,b}*".toList = "/w[x]/{a,b}*".toList
      ∧ '\\' ∉ "/w[x]/{a,b}*".toList ∧ "/w[x]/{a,b}*".toList ≠ [separator]
      ∧ ∃ glob, compile (escape "/w[x]/{a,b}*".toList) = .ok glob ∧ glob.alternatives.length = 1
        ∧ glob.isMatch "/w[x]/{a,b}*".toList ∧ glob.isMatch "/w[x]/{a,b}*/f".toList
        ∧ ¬ glob.isMatch "/wx/ac".toList := by
  obtain ⟨glob, compiled, alone, selects⟩ := @isMatch_escape_iff "/w[x]/{a,b}*".toList rfl
    (by decide) (by decide) (by decide)
  refine ⟨rfl, by decide, by decide, by decide, glob, compiled, alone, ?_, ?_, ?_⟩
  · rw [selects _ rfl (by decide) (by decide)]
    exact .inl (by decide)
  · rw [selects _ rfl (by decide) (by decide)]
    exact .inr ⟨⟨['f'], by decide⟩, by decide⟩
  · rw [selects _ rfl (by decide) (by decide)]
    decide

/-- Without the separator at its end the path is selected, too, though it is neither the same text nor
below. -/
theorem not_below_of_isMatch_escape :
    isAbsolute "/a/".toList ∧ normalize "/a/".toList = "/a/".toList ∧ '\\' ∉ "/a/".toList
      ∧ isAbsolute "/a".toList ∧ normalize "/a".toList = "/a".toList ∧ '\\' ∉ "/a".toList
      ∧ ∃ glob, compile (escape "/a/".toList) = .ok glob ∧ glob.isMatch "/a".toList
        ∧ ¬ ("/a".toList = "/a/".toList ∨ "/a/".toList <+: "/a".toList) := by
  refine ⟨rfl, by decide, by decide, rfl, by decide, by decide, ?_⟩
  refine ⟨⟨"/a/".toList, [⟨"/a".toList, [.literal '/', .literal 'a']⟩]⟩, ?_, ?_, by decide⟩
  · decide +kernel
  · decide +kernel

end Combined

end RootedGlob.Glob
