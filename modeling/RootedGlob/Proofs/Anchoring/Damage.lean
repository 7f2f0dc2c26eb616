import RootedGlob.Proofs.Anchoring.Marks
import RootedGlob.Proofs.Anchoring.Parents

/-!
# What a climbing `..` damages

If a `..` climbs over a mark, the join has fewer texts, or one closing brace too many, or a group that
is not closed any more (`remains_group`, `remains_groups`, `remains_single`).
-/

namespace RootedGlob.Anchoring

open RootedGlob.Path Brace Glob PatternList

theorem marks_joined {patterns : List Text} (flat : ∀ pattern ∈ patterns, IsFlat pattern) :
    marks (joined patterns) = List.replicate (patterns.length - 1) Lexeme.comma := by
  induction patterns with
  | nil => exact marks_of_isFlat (by decide)
  | cons pattern patterns ih =>
    have rest : ∀ other ∈ patterns, IsFlat other := fun other member =>
      flat other (List.mem_cons_of_mem _ member)
    have first := flat pattern List.mem_cons_self
    cases patterns with
    | nil =>
      rw [joined, List.intercalate_singleton]
      exact marks_of_isFlat first
    | cons next patterns =>
      have behind := isUnguarded_joined fun other member => (rest other member).unguarded
      rw [joined, List.intercalate_cons_cons, ← joined, List.append_assoc, List.singleton_append,
        marks_append first.unguarded (isUnguarded_cons.mpr ⟨by decide, behind⟩), marks_comma,
        marks_of_isFlat first, ih rest]
      rfl

/-- What is left of a join that stands for `count` texts: all of them only if nothing climbed, or one
closing brace too many. -/
inductive Remains (count : Nat) (stays : Prop) (pattern : Text) : Prop
  | whole (whole : IsWhole pattern) (few : (denoted (lex pattern)).length ≤ count)
      (all : (denoted (lex pattern)).length = count → stays)
  | surplus (surplus : IsSurplus pattern)

theorem exists_normalize_eq {front : Text} (unguarded : IsUnguarded front) :
    ∃ text, normalize (front ++ ['}']) = text ++ ['}'] ∧ IsUnguarded text
      ∧ marks text ++ [.closing]
        = marksOf ((segments (front ++ ['}'])).foldl (walk (isAbsolute (front ++ ['}']))) []) := by
  have whole : IsUnguarded (front ++ ['}']) := isUnguarded_append.mpr ⟨unguarded, by decide⟩
  obtain ⟨text, same⟩ := exists_normalize_closing front
  obtain ⟨plain, kept⟩ := marks_normalize whole
  rw [same] at plain kept
  have inner := (isUnguarded_append.mp plain).1
  rw [marks_closing inner] at kept
  exact ⟨text, same, inner, kept⟩

theorem plain_of_mem_segments {path : Text} (unguarded : IsUnguarded path) :
    ∀ segment ∈ segments path, separator ∉ segment ∧ IsUnguarded segment := fun _ member =>
  ⟨not_mem_of_mem_segments member, isUnguarded_of_mem_segments unguarded member⟩

/-- A pattern that goes on with a group loses a mark if something climbs in the group. -/
theorem length_marksOf_lt_of_climbs (absolute : Bool) {front text : Text}
    (still : dotDot ∉ segments front)
    (unguarded : IsUnguarded (front ++ separator :: '{' :: text))
    (climbed : climbs 0 (segments ('{' :: text)) = true) :
    (marksOf ((segments (front ++ separator :: '{' :: text)).foldl (walk absolute) [])).length
      < (marks (front ++ separator :: '{' :: text)).length := by
  obtain ⟨next, behind, -, whole⟩ := exists_segments_cons text (c := '{') (by decide)
  have mark : ¬ IsFlat ('{' :: next) := not_isFlat_of_mem (c := '{') List.mem_cons_self (by decide)
  have plain := plain_of_mem_segments unguarded
  rw [← marks_segments unguarded]
  rw [segments_append, whole] at plain ⊢
  apply length_marksOf_lt absolute still
  · exact isName_of_mem (c := '{') List.mem_cons_self (by decide) (plain _ (by simp)).1
  · exact mark
  · exact plain
  · obtain ⟨count, counted⟩ := exists_climbs_append still 0
    rw [whole, climbs_marked mark] at climbed
    rw [counted, climbs_marked mark, climbed]

theorem marks_alternation {patterns : List Text} (several : 2 ≤ patterns.length)
    (flats : ∀ pattern ∈ patterns, IsFlat pattern) :
    marks (alternation patterns)
      = .opening :: (List.replicate (patterns.length - 1) Lexeme.comma ++ [.closing]) := by
  have inner := isUnguarded_joined fun pattern member => (flats pattern member).unguarded
  rw [alternation_of_several several, marks_closing (isUnguarded_cons.mpr ⟨by decide, inner⟩),
    marks_opening, marks_joined flats, List.cons_append]

section Group

variable {outer text : Text} {patterns : List Text}

theorem climbs_of_not_stays (several : 2 ≤ patterns.length)
    (climbing : ¬ ∀ pattern ∈ patterns, climbs 0 (interior pattern) = false) :
    climbs 0 (segments ('{' :: (joined patterns ++ ['}']))) = true := by
  have filled : patterns ≠ [] := List.ne_nil_of_length_pos (by omega)
  rw [← List.cons_append, climbs_group filled, List.any_eq_true]
  push Not at climbing
  obtain ⟨pattern, member, climbed⟩ := climbing
  exact ⟨pattern, member, by simpa using climbed⟩

/-- A group behind a text, cut in front of the brace that closes it. -/
theorem append_alternation (outer : Text) (several : 2 ≤ patterns.length) :
    outer ++ separator :: alternation patterns
      = outer ++ separator :: '{' :: joined patterns ++ ['}'] := by
  rw [alternation_of_several several]
  simp

theorem isUnguarded_append_group (before : IsUnguarded outer)
    (flats : ∀ pattern ∈ patterns, IsFlat pattern) :
    IsUnguarded (outer ++ separator :: '{' :: joined patterns) := by
  have inner := isUnguarded_joined fun pattern member => (flats pattern member).unguarded
  exact isUnguarded_append.mpr
    ⟨before, isUnguarded_cons.mpr ⟨by decide, isUnguarded_cons.mpr ⟨by decide, inner⟩⟩⟩

theorem marks_append_group (before : IsUnguarded outer)
    (flats : ∀ pattern ∈ patterns, IsFlat pattern) :
    marks (outer ++ separator :: '{' :: joined patterns)
      = marks outer ++ .opening :: List.replicate (patterns.length - 1) Lexeme.comma := by
  have inner := isUnguarded_joined fun pattern member => (flats pattern member).unguarded
  have opened : IsUnguarded ('{' :: joined patterns) := isUnguarded_cons.mpr ⟨by decide, inner⟩
  rw [marks_append before (isUnguarded_cons.mpr ⟨by decide, opened⟩), marks_separator opened,
    marks_opening, marks_joined flats]

/-- If something climbs in the group, a mark is missing in front of the last brace. -/
theorem length_marks_lt_of_climbs {absolute : Bool} (still : dotDot ∉ segments outer)
    (before : IsUnguarded outer) (several : 2 ≤ patterns.length)
    (flats : ∀ pattern ∈ patterns, IsFlat pattern)
    (kept : marks text ++ [.closing]
      = marksOf ((segments (outer ++ separator :: '{' :: joined patterns ++ ['}'])).foldl
          (walk absolute) []))
    (climbing : ¬ ∀ pattern ∈ patterns, climbs 0 (interior pattern) = false) :
    (marks text).length < (marks outer).length + patterns.length := by
  have front := isUnguarded_append_group before flats
  have again : outer ++ separator :: '{' :: (joined patterns ++ ['}'])
      = outer ++ separator :: '{' :: joined patterns ++ ['}'] := by simp
  have lost := length_marksOf_lt_of_climbs absolute still
    (by rw [again]; exact isUnguarded_append.mpr ⟨front, by decide⟩)
    (climbs_of_not_stays several climbing)
  rw [again, ← kept, marks_closing front, marks_append_group before flats] at lost
  simp only [List.length_append, List.length_cons, List.length_nil, List.length_replicate] at lost
  omega

/-- The segments of a group: the first one begins with its opening brace, and the others hold none of
the marks in front of them. -/
theorem exists_segments_group (several : 2 ≤ patterns.length)
    (flats : ∀ pattern ∈ patterns, IsFlat pattern) :
    ∃ next back, segments ('{' :: (joined patterns ++ ['}'])) = ('{' :: next) :: back
      ∧ IsName ('{' :: next)
      ∧ marks ('{' :: next) ++ back.flatMap marks
        = .opening :: (List.replicate (patterns.length - 1) Lexeme.comma ++ [.closing])
      ∧ (back.flatMap marks).Sublist
        (List.replicate (patterns.length - 1) Lexeme.comma ++ [.closing]) := by
  obtain ⟨next, back, -, group⟩ :=
    exists_segments_cons (joined patterns ++ ['}']) (c := '{') (by decide)
  have inner := isUnguarded_joined fun pattern member => (flats pattern member).unguarded
  have whole : IsUnguarded ('{' :: (joined patterns ++ ['}'])) :=
    isUnguarded_cons.mpr ⟨by decide, isUnguarded_append.mpr ⟨inner, by decide⟩⟩
  have first : '{' :: next ∈ segments ('{' :: (joined patterns ++ ['}'])) := by simp [group]
  have all : marks ('{' :: next) ++ back.flatMap marks
      = .opening :: (List.replicate (patterns.length - 1) Lexeme.comma ++ [.closing]) := by
    rw [← List.flatMap_cons, ← group, marks_segments whole, ← marks_alternation several flats,
      alternation_of_several several, List.cons_append]
  refine ⟨next, back, group, ?_, all, ?_⟩
  · exact isName_of_mem (c := '{') List.mem_cons_self (by decide) (not_mem_of_mem_segments first)
  · -- The mark that opens the group is the first of all, so the rest of the marks stand behind it.
    have plain := (isUnguarded_cons.mp (isUnguarded_of_mem_segments whole first)).2
    rw [marks_opening, List.cons_append, List.cons.injEq] at all
    rw [← all.2]
    exact List.sublist_append_right _ _

/-- Inert patterns behind one folder. -/
theorem remains_group {folder : Text} (inert : IsInertFolder folder) (filled : patterns ≠ [])
    (behind : ∀ pattern ∈ patterns, IsInert pattern) :
    Remains patterns.length
      (2 ≤ patterns.length → ∀ pattern ∈ patterns, climbs 0 (interior pattern) = false)
      (join [folder, alternation patterns]) := by
  by_cases several : 2 ≤ patterns.length
  · have flats : ∀ pattern ∈ patterns, IsFlat pattern := fun pattern member =>
      (behind pattern member).flat
    have before := inert.plain.flat.unguarded
    have front := isUnguarded_append_group before flats
    have whole : IsUnguarded (folder ++ separator :: '{' :: joined patterns ++ ['}']) :=
      isUnguarded_append.mpr ⟨front, by decide⟩
    have shape := marks_append_group before flats
    rw [marks_of_isFlat inert.plain.flat, List.nil_append] at shape
    obtain ⟨text, same, unguarded, kept⟩ := exists_normalize_eq front
    have none : marksOf [] = [] := rfl
    have few := marksOf_foldl
      (isAbsolute (folder ++ separator :: '{' :: joined patterns ++ ['}'])) []
      (segments (folder ++ separator :: '{' :: joined patterns ++ ['}']))
    rw [← kept, marks_segments whole, marks_closing front, none, List.nil_append,
      List.append_sublist_append_right, shape, List.sublist_cons_iff] at few
    rw [join_pair inert.plain.nonempty, if_neg (by simp [alternation_of_several several]),
      append_alternation folder several, same]
    rcases few with lost | ⟨rest, begins, few⟩
    · -- The opening brace is gone, so the closing one closes nothing.
      obtain ⟨count, -, commas⟩ := List.sublist_replicate_iff.mp lost
      exact .surplus (@isSurplus_of_marks text 0 count unguarded (.inl commas))
    · obtain ⟨count, bound, rfl⟩ := List.sublist_replicate_iff.mp few
      have closed : marks (text ++ ['}'])
          = .opening :: (List.replicate count Lexeme.comma ++ [.closing]) := by
        rw [marks_closing unguarded, begins]
        rfl
      obtain ⟨isWhole, size⟩ := isWhole_of_group
        (isUnguarded_append.mpr ⟨unguarded, by decide⟩) closed
      refine .whole isWhole (by omega) fun all _ => ?_
      -- All texts are there, so no comma is missing and nothing climbed.
      by_contra climbing
      have lost := length_marks_lt_of_climbs (dotDot_not_mem_folder inert.canonical) before several
        flats kept climbing
      rw [begins, marks_of_isFlat inert.plain.flat] at lost
      simp only [List.length_cons, List.length_nil, List.length_replicate] at lost
      omega
  · match patterns, filled with
    | [single], _ =>
      have literal := behind single List.mem_cons_self
      have renders := renders_join_inert inert literal
      have flat : IsFlat (folder ++ separator :: single) :=
        (inert.inert.append literal.separated).flat
      have count := renders.places.length_eq
      rw [denoted_of_isFlat flat] at count
      exact .whole renders.whole (Nat.le_of_eq count) fun _ more => absurd more several
    | _ :: _ :: _, _ => simp at several

end Group

/-- Some of the marks of a row of patterns in front of a closing brace. -/
theorem exists_of_sublist_commas {marks : List Lexeme} {bound : Nat}
    (few : marks.Sublist (List.replicate bound Lexeme.comma ++ [.closing])) :
    ∃ count ≤ bound, marks = List.replicate count Lexeme.comma
      ∨ marks = List.replicate count Lexeme.comma ++ [.closing] := by
  obtain ⟨commas, ends, rfl, one, two⟩ := List.sublist_append_iff.mp few
  obtain ⟨count, bounded, rfl⟩ := List.sublist_replicate_iff.mp one
  refine ⟨count, bounded, ?_⟩
  rcases List.sublist_cons_iff.mp two with none | ⟨rest, rfl, none⟩
  · rw [List.sublist_nil.mp none, List.append_nil]
    exact .inl rfl
  · rw [List.sublist_nil.mp none]
    exact .inr rfl

section Kept

variable {text : Text} {first second : Nat} {stays : Prop} {top : List Lexeme}

/-- The group in front is left as it is. -/
theorem remains_of_kept (unguarded : IsUnguarded text) (many : 1 ≤ second)
    (kept : marks text ++ [.closing]
      = .opening :: (List.replicate first Lexeme.comma ++ [.closing]) ++ top)
    (few : top.Sublist (.opening :: (List.replicate second Lexeme.comma ++ [.closing])))
    (lost : ¬ stays → (marks text).length < first + second + 3) :
    Remains ((first + 1) * (second + 1)) stays (text ++ ['}']) := by
  have whole : IsUnguarded (text ++ ['}']) := isUnguarded_append.mpr ⟨unguarded, by decide⟩
  have less : first + 1 < (first + 1) * (second + 1) := by
    rw [Nat.mul_succ]
    exact Nat.lt_add_of_pos_left (Nat.mul_pos (Nat.succ_pos _) many)
  -- Whatever is left of the group behind ends with the last brace, unless nothing is left of it.
  have ends (start : List Lexeme) (lexeme : Lexeme) (same : marks text ++ [.closing]
      = start ++ [lexeme]) : lexeme = .closing := by
    have last := (List.append_inj' same rfl).2
    exact (List.singleton_inj.mp last).symm
  rcases List.sublist_cons_iff.mp few with lower | ⟨rest, rfl, lower⟩
  · obtain ⟨count, bounded, rfl | rfl⟩ := exists_of_sublist_commas lower
    · cases count with
      | zero =>
        rw [List.replicate_zero, List.append_nil, ← marks_closing unguarded] at kept
        obtain ⟨isWhole, size⟩ := isWhole_of_group whole kept
        exact .whole isWhole (by omega) fun all => absurd all (by omega)
      | succ count =>
        rw [List.replicate_succ', ← List.append_assoc] at kept
        cases ends _ _ kept
    · rw [← List.append_assoc] at kept
      have shape := List.append_inj_left' kept rfl
      rw [List.cons_append, List.append_assoc, List.singleton_append] at shape
      exact .surplus (isSurplus_of_marks unguarded (.inr shape))
  · obtain ⟨count, bounded, rfl | rfl⟩ := exists_of_sublist_commas lower
    · cases count with
      | zero => cases ends _ _ kept
      | succ count =>
        have same : marks text ++ [.closing]
            = (.opening :: (List.replicate first Lexeme.comma ++ [.closing])
              ++ .opening :: List.replicate count Lexeme.comma) ++ [.comma] := by
          rw [kept, List.replicate_succ']
          simp
        cases ends _ _ same
    · have shape : marks (text ++ ['}']) = .opening :: (List.replicate first Lexeme.comma
          ++ .closing :: .opening :: (List.replicate count Lexeme.comma ++ [.closing])) := by
        rw [marks_closing unguarded, kept]
        simp
      obtain ⟨isWhole, size⟩ := isWhole_of_groups whole shape
      refine .whole isWhole ?_ fun all => ?_
      · rw [size]
        exact Nat.mul_le_mul_left _ (Nat.succ_le_succ bounded)
      · by_contra climbing
        have full : count = second := by
          rw [size] at all
          have same := Nat.eq_of_mul_eq_mul_left (Nat.succ_pos first) all
          omega
        have short := lost climbing
        have total := congrArg List.length kept
        simp only [List.length_append, List.length_cons, List.length_nil, List.length_replicate] at total
        omega

/-- The group in front is not closed any more, or gone. -/
theorem remains_of_cut {rest : List Lexeme} {count : Nat} (unguarded : IsUnguarded text)
    (some : 1 ≤ first) (many : 1 ≤ second) (kept : marks text ++ [.closing] = rest ++ top)
    (cut : rest = [] ∨ rest = .opening :: List.replicate count Lexeme.comma) (bounded : count ≤ first)
    (few : top.Sublist (List.replicate second Lexeme.comma ++ [.closing])) :
    Remains ((first + 1) * (second + 1)) stays (text ++ ['}']) := by
  have whole : IsUnguarded (text ++ ['}']) := isUnguarded_append.mpr ⟨unguarded, by decide⟩
  -- A group of commas from both has fewer texts than the product of the two groups.
  have less : first + second + 1 < (first + 1) * (second + 1) := by
    have product := Nat.mul_pos some many
    rw [Nat.succ_mul, Nat.mul_succ]
    omega
  obtain ⟨other, bounded', rfl | rfl⟩ := exists_of_sublist_commas few
  · -- The marks end with the last brace, so a row of commas is not all that is left.
    have member : Lexeme.closing ∈ rest ++ List.replicate other Lexeme.comma := by
      rw [← kept]
      simp
    rcases cut with rfl | rfl <;> simp at member
  · rw [← List.append_assoc] at kept
    have shape := List.append_inj_left' kept rfl
    rcases cut with rfl | rfl
    · rw [List.nil_append] at shape
      exact .surplus (@isSurplus_of_marks text 0 other unguarded (.inl shape))
    · have group : marks (text ++ ['}'])
          = .opening :: (List.replicate (count + other) Lexeme.comma ++ [.closing]) := by
        rw [marks_closing unguarded, shape, List.replicate_add]
        simp
      obtain ⟨isWhole, size⟩ := isWhole_of_group whole group
      exact .whole isWhole (by omega) fun all => absurd all (by omega)

end Kept

section Groups

variable {folders : List Text}

/-- What climbing leaves of the group of the folders: nothing, or its beginning without the brace that
closes it. -/
theorem exists_of_suffix {names rest : List Text} {last : Text} (several : 2 ≤ folders.length)
    (plain : ∀ folder ∈ folders, IsPlainFolder folder)
    (split : segments (alternation folders) = ['{'] :: (names ++ [last ++ ['}']]))
    (suffix : rest <:+ (segments (alternation folders)).reverse)
    (other : rest ≠ (segments (alternation folders)).reverse) :
    rest = [] ∨ ∃ front count, front <+: names ∧ rest.reverse = ['{'] :: front
      ∧ count ≤ folders.length - 1 ∧ marksOf rest = .opening :: List.replicate count Lexeme.comma := by
  have flats : ∀ folder ∈ folders, IsFlat folder := fun folder member => (plain folder member).flat
  -- The stack begins with the closing brace and ends with the opening one; a proper end lacks the first.
  have backwards : (segments (alternation folders)).reverse
      = (last ++ ['}']) :: (names.reverse ++ [['{']]) := by
    rw [split]
    simp
  rw [backwards] at suffix other
  rcases List.suffix_cons_iff.mp suffix with same | suffix
  · exact absurd same other
  · rcases List.suffix_concat_iff.mp suffix with none | ⟨kept, rfl, inner⟩
    · exact .inl none
    · right
      have start : kept.reverse <+: names := by
        rw [← List.reverse_suffix, List.reverse_reverse]
        exact inner
      have unguarded := (denoted_alternation_folders
        (List.ne_nil_of_length_pos (by omega)) plain).1.unguarded
      -- Between the two braces the names of the folders hold nothing but the commas between them.
      have all := marks_segments unguarded
      have opening : marks ['{'] = [.opening] := by rw [marks_opening, marks_of_isFlat (by decide)]
      have ending : IsUnguarded last := by
        have member : last ++ ['}'] ∈ segments (alternation folders) := by simp [split]
        exact (isUnguarded_append.mp (isUnguarded_of_mem_segments unguarded member)).1
      rw [split, marks_alternation several flats, List.flatMap_cons, opening, List.flatMap_append,
        List.flatMap_singleton, marks_closing ending, List.singleton_append, List.cons.injEq,
        ← List.append_assoc] at all
      have commas := List.append_inj_left' all.2 rfl
      have few : (kept.reverse.flatMap marks).Sublist
          (List.replicate (folders.length - 1) Lexeme.comma) := by
        rw [← commas]
        exact (start.sublist.flatMap marks).trans (List.sublist_append_left _ _)
      obtain ⟨count, bounded, same⟩ := List.sublist_replicate_iff.mp few
      refine ⟨kept.reverse, count, start, by simp, bounded, ?_⟩
      rw [marksOf, List.reverse_append, List.flatMap_append, same]
      simp [opening]

/-- Inert patterns behind several folders. -/
theorem remains_groups {patterns : List Text} (several : 2 ≤ folders.length)
    (inert : ∀ folder ∈ folders, IsInertFolder folder) (many : 2 ≤ patterns.length)
    (behind : ∀ pattern ∈ patterns, IsInert pattern) :
    Remains (folders.length * patterns.length)
      (∀ pattern ∈ patterns, climbs 0 (interior pattern) = false)
      (join [alternation folders, alternation patterns]) := by
  have plain : ∀ folder ∈ folders, IsPlainFolder folder := fun folder member =>
    (inert folder member).plain
  have folderFlats : ∀ folder ∈ folders, IsFlat folder := fun folder member => (plain folder member).flat
  have flats : ∀ pattern ∈ patterns, IsFlat pattern := fun pattern member => (behind pattern member).flat
  have nonempty : folders ≠ [] := List.ne_nil_of_length_pos (by omega)
  obtain ⟨names, last, split, -, proper⟩ := exists_segments_alternation several plain
  obtain ⟨next, back, group, name, groupMarks, behindMark⟩ := exists_segments_group many flats
  have before := (denoted_alternation_folders nonempty plain).1.unguarded
  obtain ⟨text, same, unguarded, kept⟩ := exists_normalize_eq (isUnguarded_append_group before flats)
  rw [join_pair (by simp [alternation_of_several several]), if_neg (by simp [alternation_of_several many]),
    append_alternation _ many, same]
  have counts : folders.length * patterns.length
      = (folders.length - 1 + 1) * (patterns.length - 1 + 1) := by
    rw [Nat.sub_add_cancel (by omega), Nat.sub_add_cancel (by omega)]
  have lost : ¬ (∀ pattern ∈ patterns, climbs 0 (interior pattern) = false) →
      (marks text).length < folders.length - 1 + (patterns.length - 1) + 3 := by
    intro climbing
    have still : dotDot ∉ segments (alternation folders) := by
      rw [split]
      exact dotDot_not_mem_names proper
    have fewer := length_marks_lt_of_climbs still before many flats kept climbing
    rw [marks_alternation several folderFlats] at fewer
    simp only [List.length_append, List.length_cons, List.length_nil, List.length_replicate] at fewer
    omega
  -- The walk first lays the names of the folders down, then the first segment of the group.
  generalize isAbsolute (alternation folders ++ separator :: '{' :: joined patterns ++ ['}'])
    = absolute at kept
  rw [List.append_assoc, List.cons_append, List.cons_append, segments_append, group,
    List.foldl_append, List.foldl_cons, split, foldl_walk_names _ _ proper, List.append_nil,
    walk_name _ _ name] at kept
  obtain ⟨top, rest, found, left⟩ := exists_foldl_walk absolute ['{' :: next]
    (['{'] :: (names ++ [last ++ ['}']])).reverse back
  rw [List.singleton_append] at found
  rw [found, marksOf_append] at kept
  rw [counts]
  rcases left with ⟨rfl, few⟩ | ⟨suffix, other, few⟩
  · have folderMarks : marksOf (['{'] :: (names ++ [last ++ ['}']])).reverse
        = .opening :: (List.replicate (folders.length - 1) Lexeme.comma ++ [.closing]) := by
      rw [marksOf, List.reverse_reverse, ← split, marks_segments before,
        marks_alternation several folderFlats]
    have single : marksOf ['{' :: next] = marks ('{' :: next) := by simp [marksOf]
    rw [single, groupMarks] at few
    rw [folderMarks] at kept
    exact remains_of_kept unguarded (by omega) kept few lost
  · rw [← split] at suffix other
    rcases exists_of_suffix several plain split suffix other with rfl | ⟨_, count, -, -, bounded, shape⟩
    · exact @remains_of_cut _ _ _ _ _ [] 0 unguarded (by omega) (by omega) kept (.inl rfl)
        (Nat.zero_le _) (few.trans behindMark)
    · exact remains_of_cut unguarded (by omega) (by omega) kept (.inr shape) bounded
        (few.trans behindMark)

/-- A pattern that opens a group and does not close it. One of the texts behind the brace holds no
`..`. -/
structure IsUnclosed (pattern : Text) : Prop where
  unguarded : IsUnguarded pattern
  shape : ∃ count, marks pattern = .opening :: List.replicate count Lexeme.comma
  calm : ∃ text ∈ denoted (lex (pattern ++ ['}'])), dotDot ∉ (segments text).tail

/-- In a relative walk a `..` only stays at the bottom. -/
theorem getLast?_of_dotDot_mem {stack names : List Text}
    (settled : dotDot ∈ stack → stack.getLast? = some dotDot) :
    dotDot ∈ names.foldl (walk false) stack
      → (names.foldl (walk false) stack).getLast? = some dotDot := by
  induction names generalizing stack with
  | nil => exact settled
  | cons segment names ih =>
    -- One step keeps the invariant: a `..` below the top has been there from the beginning of the row.
    apply ih
    by_cases blank : segment = [] ∨ segment = dot
    · rwa [walk_blank _ _ blank]
    · by_cases parent : segment = dotDot
      · subst parent
        cases stack with
        | nil => exact fun _ => rfl
        | cons top below =>
          rw [walk.eq_def, if_neg (by decide), if_pos rfl]
          simp only
          split
          · -- A name goes, and what is below it was below it before.
            intro member
            have bottom := settled (List.mem_cons_of_mem _ member)
            cases below with
            | nil => cases member
            | cons next below => rwa [List.getLast?_cons_cons] at bottom
          · -- The top is a `..` that nothing takes away, so another one lies on top of it.
            next same =>
            have equal : top = dotDot := by simpa using same
            intro _
            rw [if_neg (by decide), List.getLast?_cons_cons]
            exact settled (equal ▸ List.mem_cons_self)
      · have pushed : walk false stack segment = segment :: stack := by
          rw [walk.eq_def, if_neg blank, if_neg parent]
        rw [pushed]
        intro member
        have inside := (List.mem_cons.mp member).resolve_left (Ne.symm parent)
        cases stack with
        | nil => cases inside
        | cons next below =>
          rw [List.getLast?_cons_cons]
          exact settled inside

/-- The text of some names up to the first comma. -/
theorem exists_piece {names : List Text} {tail : Text}
    (calm : ∀ name ∈ names, separator ∉ name ∧ name ≠ dotDot ∧ CutsName name)
    (ends : tail = [] ∨ tail = [separator]) :
    ∃ piece, ',' ∉ piece ∧ dotDot ∉ segments piece
      ∧ (piece = [] ∨ ∃ rest, piece = separator :: rest)
      ∧ (rooted names ++ tail = piece ∨ ∃ back, rooted names ++ tail = piece ++ ',' :: back) := by
  have blank : dotDot ≠ [] := by decide
  -- The piece grows by whole names until one of them holds a comma.
  induction names with
  | nil =>
    refine ⟨tail, ?_⟩
    rcases ends with rfl | rfl
    · exact ⟨by decide, by decide, .inl rfl, .inl rfl⟩
    · exact ⟨by decide, by decide, .inr ⟨[], rfl⟩, .inl rfl⟩
  | cons name names ih =>
    obtain ⟨single, notParent, cuts⟩ := calm name List.mem_cons_self
    have notParent' : dotDot ≠ name := Ne.symm notParent
    by_cases comma : ',' ∈ name
    · obtain ⟨front, back, same, absent⟩ := List.eq_append_cons_of_mem comma
      have inner : separator ∉ front := by
        intro member
        exact single (by rw [same]; exact List.mem_append_left _ member)
      -- What stands in front of the comma is a segment now, and was chosen not to be a `..`.
      have other : dotDot ≠ front := Ne.symm (cuts front back same)
      refine ⟨separator :: front, by simp [absent, separator], ?_, .inr ⟨front, rfl⟩, .inr
        ⟨back ++ (rooted names ++ tail), by rw [rooted_cons, same]; simp⟩⟩
      rw [segments_separator, segments_single inner]
      simp [other, blank]
    · obtain ⟨piece, absent, still, start, whole⟩ :=
        ih fun other member => calm other (List.mem_cons_of_mem _ member)
      refine ⟨separator :: (name ++ piece), by simp [absent, comma, separator], ?_,
        .inr ⟨name ++ piece, rfl⟩, ?_⟩
      · rcases start with rfl | ⟨rest, rfl⟩
        · rw [List.append_nil, segments_separator, segments_single single]
          simp [notParent', blank]
        · rw [segments_separator, List.mem_cons, not_or] at still
          rw [segments_separator, segments_append, segments_single single]
          simp [notParent', still.2, blank]
      · rw [rooted_cons, List.cons_append, List.append_assoc]
        rcases whole with whole | ⟨back, whole⟩
        · exact .inl (by rw [whole])
        · exact .inr ⟨back, by rw [whole]; simp⟩

theorem cutsName_of_isFlat {name : Text} (flat : IsFlat name) : CutsName name := by
  intro front back cut
  have comma := flat ',' (by simp [cut])
  cases comma

/-- No `..` is left behind a first name. -/
theorem dotDot_not_mem_of_resolve {path first : Text} {names : List Text}
    (relative : isAbsolute path = false) (resolved : resolve path = first :: names)
    (other : first ≠ dotDot) : dotDot ∉ names := by
  intro member
  have settled := @getLast?_of_dotDot_mem [] (segments path) (by simp)
  rw [resolve, relative] at resolved
  rw [← List.head?_reverse, ← List.mem_reverse, resolved] at settled
  exact other (Option.some.inj (settled (List.mem_cons_of_mem _ member)))

/-- A path that resolves to an opening brace and names behind it, with commas for its other marks, is
not closed. -/
theorem isUnclosed_of_resolve {path : Text} {names : List Text} {count : Nat}
    (unguarded : IsUnguarded path) (relative : isAbsolute path = false)
    (resolved : resolve path = ['{'] :: names) (cuts : ∀ name ∈ names, CutsName name)
    (shape : marks (normalize path) = .opening :: List.replicate count Lexeme.comma) :
    IsUnclosed (normalize path) := by
  have plain := (marks_normalize unguarded).1
  have absent := dotDot_not_mem_of_resolve relative resolved (by decide)
  have calm : ∀ name ∈ names, separator ∉ name ∧ name ≠ dotDot ∧ CutsName name := by
    intro name member
    have inside : name ∈ resolve path := resolved ▸ List.mem_cons_of_mem _ member
    have found := (mem_of_mem_foldl (List.mem_reverse.mp inside)).resolve_left (by simp)
    exact ⟨not_mem_of_mem_segments found, fun same => absent (same ▸ member), cuts name member⟩
  obtain ⟨tail, ends, spelling⟩ : ∃ tail, (tail = [] ∨ tail = [separator])
      ∧ normalize path = '{' :: (rooted names ++ tail) := by
    have normal := normalize_of_resolve relative resolved (by decide)
    split at normal
    · exact ⟨[separator], .inr rfl, by rw [normal]; simp⟩
    · exact ⟨[], .inl rfl, by rw [normal]; simp⟩
  -- The text up to the first comma is a choice of the group, wherever it is closed.
  obtain ⟨piece, bare, still, -, cut⟩ := exists_piece calm ends
  rw [spelling] at plain shape ⊢
  have inner := (isUnguarded_cons.mp plain).2
  have commas := shape
  rw [marks_opening, List.cons.injEq] at commas
  refine ⟨plain, ⟨count, shape⟩, piece, mem_denoted_of_cut inner ?_ bare cut,
    fun member => still (List.mem_of_mem_tail member)⟩
  intro lexeme member
  rw [commas.2] at member
  exact List.eq_of_mem_replicate member

/-- A pattern loses a mark if something climbs behind a closing brace. -/
theorem length_marksOf_lt_of_climbs_behind (absolute : Bool) {front token last : Text}
    {names : List Text} (split : segments front = names ++ [last ++ ['}']])
    (proper : ∀ name ∈ names ++ [last ++ ['}']], IsName name)
    (unguarded : IsUnguarded (front ++ separator :: token))
    (climbed : climbs 0 (segments token) = true) :
    (marksOf ((segments (front ++ separator :: token)).foldl (walk absolute) [])).length
      < (marks (front ++ separator :: token)).length := by
  have mark : ¬ IsFlat (last ++ ['}']) := not_isFlat_of_mem (c := '}') (by simp) (by decide)
  have still : dotDot ∉ names :=
    dotDot_not_mem_names fun name member => proper name (List.mem_append_left _ member)
  have plain := plain_of_mem_segments unguarded
  have whole : segments (front ++ separator :: token)
      = names ++ (last ++ ['}']) :: segments token := by
    rw [segments_append, split]
    simp
  rw [← marks_segments unguarded]
  rw [whole] at plain ⊢
  -- The names in front of the closing brace only change the count, and the brace sets it to zero.
  obtain ⟨count, counted⟩ := exists_climbs_append still 0
  exact length_marksOf_lt absolute still (proper _ (by simp)) mark plain
    (by rw [counted, climbs_marked mark]; exact climbed)

/-- A flat token behind the folders leaves an end of their stack, and nothing marked on top of it. -/
theorem exists_walk_folders {token : Text} (several : 2 ≤ folders.length)
    (plain : ∀ folder ∈ folders, IsPlainFolder folder) (flat : IsFlat token) :
    ∃ top rest, (segments (alternation folders ++ separator :: token)).foldl (walk false) []
        = top ++ rest
      ∧ marksOf top = [] ∧ rest <:+ (segments (alternation folders)).reverse := by
  obtain ⟨names, last, split, -, proper⟩ := exists_segments_alternation several plain
  have none : (segments token).flatMap marks = [] := by
    rw [marks_segments flat.unguarded, marks_of_isFlat flat]
  have start := foldl_walk_names false [] proper
  rw [← split, List.append_nil] at start
  obtain ⟨top, rest, found, left⟩ := exists_foldl_walk false []
    (segments (alternation folders)).reverse (segments token)
  refine ⟨top, rest, ?_, ?_, ?_⟩
  · rw [segments_append, List.foldl_append, start]
    exact found
  · rw [none] at left
    rcases left with ⟨-, few⟩ | ⟨-, -, few⟩ <;> exact List.sublist_nil.mp few
  · rcases left with ⟨rfl, -⟩ | ⟨suffix, -⟩
    · exact List.suffix_rfl
    · exact suffix

/-- A single inert pattern behind several folders. -/
theorem remains_single {token : Text} (several : 2 ≤ folders.length)
    (inert : ∀ folder ∈ folders, IsInertFolder folder) (literal : IsInert token)
    (filled : token ≠ []) :
    Remains folders.length (climbs 0 (segments token) = false) (join [alternation folders, token])
      ∨ IsUnclosed (join [alternation folders, token]) := by
  have plain : ∀ folder ∈ folders, IsPlainFolder folder := fun folder member =>
    (inert folder member).plain
  have flats : ∀ folder ∈ folders, IsFlat folder := fun folder member => (plain folder member).flat
  have nonempty : folders ≠ [] := List.ne_nil_of_length_pos (by omega)
  obtain ⟨names, last, split, cuts, proper⟩ := exists_segments_alternation several plain
  have before := (denoted_alternation_folders nonempty plain).1.unguarded
  have behind : IsUnguarded (separator :: token) :=
    isUnguarded_cons.mpr ⟨by decide, literal.flat.unguarded⟩
  have unguarded : IsUnguarded (alternation folders ++ separator :: token) :=
    isUnguarded_append.mpr ⟨before, behind⟩
  have relative : isAbsolute (alternation folders ++ separator :: token) = false := by
    rw [alternation_of_several several]
    rfl
  rw [join_pair (by simp [alternation_of_several several]), if_neg filled]
  obtain ⟨plainJoin, kept⟩ := marks_normalize unguarded
  obtain ⟨top, rest, walked, bare, suffix⟩ := exists_walk_folders several plain literal.flat
  rw [relative, walked, marksOf_append, bare, List.append_nil] at kept
  -- What is left of the folders decides: all of them, nothing, or a beginning of their group.
  by_cases same : rest = (segments (alternation folders)).reverse
  · -- No segment of the folders is gone.
    left
    rw [same, marksOf, List.reverse_reverse, marks_segments before,
      marks_alternation several flats] at kept
    obtain ⟨isWhole, size⟩ := isWhole_of_group plainJoin kept
    refine .whole isWhole (by omega) fun _ => ?_
    by_contra climbing
    rw [← List.cons_append] at split proper
    have fewer := length_marksOf_lt_of_climbs_behind false split proper unguarded
      (by simpa using climbing)
    rw [walked, marksOf_append, bare, List.append_nil, same, marksOf, List.reverse_reverse,
      marks_segments before, marks_append before behind, marks_separator literal.flat.unguarded,
      marks_of_isFlat literal.flat, List.append_nil] at fewer
    exact Nat.lt_irrefl _ fewer
  · rcases exists_of_suffix several plain split suffix same with
      rfl | ⟨front, count, start, backwards, -, shape⟩
    · -- Nothing of the folders is left, so one text remains.
      left
      have flat := (marks_eq_nil_iff plainJoin).mp kept
      have size : (denoted (lex (normalize (alternation folders ++ separator :: token)))).length = 1 := by
        rw [denoted_of_isFlat flat]
        rfl
      exact .whole flat.whole (by omega) fun all => absurd all (by omega)
    · -- The brace that closes the folders is gone, and the one that opens them is not.
      right
      rw [shape] at kept
      have resolved : resolve (alternation folders ++ separator :: token)
          = ['{'] :: (front ++ top.reverse) := by
        rw [resolve, relative, walked, List.reverse_append, backwards, List.cons_append]
      refine isUnclosed_of_resolve unguarded relative resolved ?_ kept
      intro name member
      rcases List.mem_append.mp member with inside | inside
      · exact (cuts name (start.subset inside)).2
      · have left : name ∈ resolve (alternation folders ++ separator :: token) := by
          rw [resolved]
          exact List.mem_cons_of_mem _ member
        have none := List.flatMap_eq_nil_iff.mp bare name inside
        exact cutsName_of_isFlat
          ((marks_eq_nil_iff (isUnguarded_of_mem_resolve unguarded name left)).mp none)

end Groups

end RootedGlob.Anchoring
