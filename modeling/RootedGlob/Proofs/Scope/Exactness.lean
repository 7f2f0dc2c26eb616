import RootedGlob.Proofs.Brace.Remnants
import RootedGlob.Proofs.Glob.Selection
import RootedGlob.Proofs.PatternList.Tokens
import RootedGlob.Scope

/-!
# Combined globs that select a workspace

A combined glob is exact for some folders if it selects what lies at or below a folder, and nothing
else. Then some alternative matches each outermost folder (`IsExact.exists_alternative`), and whatever
an alternative matches is covered. The text of a single folder is an exact glob if it has no wildcard,
no class and no group (`exists_isExact_of_isUnread`), and only then (`isUnread_of_isExact`): a wildcard
matches something next to the folder, too, and a class or a group leaves the alternative too few tokens
to match the folder itself.
-/

namespace RootedGlob.Scope

open RootedGlob.Path Brace Glob Folders PatternList

/-- A combined glob selects what some folder covers, and nothing else. -/
def IsExact (folders : List Text) (glob : Combined) : Prop :=
  ∀ file, IsCanonical file → (glob.isMatch file ↔ ∃ folder ∈ folders, covers folder file)

/-- A folder that lies in no other one. -/
structure IsOutermost (folders : List Text) (folder : Text) : Prop where
  member : folder ∈ folders
  alone : ∀ other ∈ folders, covers other folder → other = folder

/-- Some pattern matches each outermost folder, and the patterns match nothing outside the folders. -/
structure IsTight (folders : List Text) (glob : Combined) : Prop where
  matched : ∀ folder, IsOutermost folders folder → ∃ pattern ∈ glob.patterns, pattern.isMatch folder
  inside : ∀ pattern ∈ glob.patterns, ∀ file, IsCanonical file → pattern.isMatch file →
    ∃ folder ∈ folders, covers folder file

section Outermost

variable {folders : List Text} (canonical : ∀ folder ∈ folders, IsCanonical folder)

include canonical

theorem exists_outermost {folder : Text} (member : folder ∈ folders) :
    ∃ outer, IsOutermost folders outer ∧ covers outer folder := by
  -- A folder around another one has the shorter location.
  induction size : (location folder).length using Nat.strongRecOn generalizing folder with
  | ind n ih =>
    have here := canonical folder member
    by_cases alone : ∀ other ∈ folders, covers other folder → other = folder
    · exact ⟨folder, ⟨member, alone⟩, covers_refl here⟩
    · push Not at alone
      obtain ⟨other, among, above, differs⟩ := alone
      have there := canonical other among
      have start := (covers_iff there here).mp above
      have shorter : (location other).length < n := by
        rw [← size]
        refine Nat.lt_of_le_of_ne start.length_le fun same => differs ?_
        rw [there.spelling, here.spelling, start.eq_of_length same]
      obtain ⟨outer, outermost, around⟩ := ih _ shorter among rfl
      exact ⟨outer, outermost, covers_trans (canonical outer outermost.member) there here around above⟩

variable {source : Text} {glob : Combined} (compiled : Combined.compile source = .ok glob)
  (exact : IsExact folders glob)

include compiled exact

omit canonical in
/-- Whatever an alternative of an exact glob matches is covered. -/
theorem IsExact.covers_of_matches {alternative : Text} (member : alternative ∈ glob.alternatives)
    {pattern : Pattern} (compiles : Pattern.compile alternative = .ok pattern) {file : Text}
    (named : IsCanonical file) (matched : Matches pattern.tokens file) :
    ∃ folder ∈ folders, covers folder file := by
  apply (exact file named).mp
  have proper : ∀ name ∈ location file, IsName name := fun _ => isName_of_mem_location
  rw [named.spelling]
  apply (Combined.isMatch_iff compiled proper (named.spelling ▸ named.noBackslash)).mpr
  refine ⟨location file, List.prefix_rfl, alternative, member, pattern, compiles, ?_⟩
  rwa [← named.spelling]

/-- Some alternative of an exact glob matches an outermost folder itself. -/
theorem IsExact.exists_alternative {folder : Text} (outermost : IsOutermost folders folder) :
    ∃ alternative ∈ glob.alternatives, ∃ pattern, Pattern.compile alternative = .ok pattern
      ∧ Matches pattern.tokens folder := by
  have here := canonical folder outermost.member
  have proper : ∀ name ∈ location folder, IsName name := fun _ => isName_of_mem_location
  have plain : '\\' ∉ spelled (location folder) := here.spelling ▸ here.noBackslash
  have selected := (exact folder here).mpr ⟨folder, outermost.member, covers_refl here⟩
  rw [here.spelling, Combined.isMatch_iff compiled proper plain] at selected
  obtain ⟨front, start, alternative, member, pattern, compiles, matched⟩ := selected
  have named := here.of_prefix start
  -- What it matches lies above the folder and in the workspace, so it is the folder.
  obtain ⟨other, among, above⟩ := exact.covers_of_matches compiled member compiles named matched
  have there := canonical other among
  have top := (covers_iff there named).mp above
  rw [location_spelled fun name inside => proper name (start.subset inside)] at top
  have same := outermost.alone other among ((covers_iff there here).mpr (top.trans start))
  rw [same] at top
  have whole := start.eq_of_length_le top.length_le
  rw [whole, ← here.spelling] at matched
  exact ⟨alternative, member, pattern, compiles, matched⟩

end Outermost

/-- A glob is exact if its patterns are tight. -/
theorem isExact_iff {folders : List Text} (canonical : ∀ folder ∈ folders, IsCanonical folder)
    {source : Text} {glob : Combined} (compiled : Combined.compile source = .ok glob) :
    IsExact folders glob ↔ IsTight folders glob := by
  constructor
  · intro exact
    constructor
    · intro folder outermost
      obtain ⟨alternative, member, pattern, compiles, matched⟩ :=
        exact.exists_alternative canonical compiled outermost
      obtain ⟨other, among, rfl⟩ := List.mem_map.mp member
      have same := Combined.compile_of_mem compiled other among
      rw [compiles, Except.ok.injEq] at same
      exact ⟨other, among, same ▸ (isMatch_iff compiles).mpr matched⟩
    · intro pattern member file named matched
      have compiles := Combined.compile_of_mem compiled pattern member
      exact exact.covers_of_matches compiled (List.mem_map_of_mem member) compiles named
        ((isMatch_iff compiles).mp matched)
  · intro tight file named
    have proper : ∀ name ∈ location file, IsName name := fun _ => isName_of_mem_location
    have selected := Combined.isMatch_iff compiled proper (named.spelling ▸ named.noBackslash)
    rw [← named.spelling] at selected
    rw [selected]
    constructor
    · rintro ⟨front, start, alternative, member, pattern, compiles, matched⟩
      obtain ⟨other, among, rfl⟩ := List.mem_map.mp member
      have same := Combined.compile_of_mem compiled other among
      rw [compiles, Except.ok.injEq] at same
      subst same
      -- A pattern may match a folder above the file: tightness is about the folder, which then covers
      -- the file.
      have above := named.of_prefix start
      obtain ⟨folder, inside, around⟩ :=
        tight.inside pattern among _ above ((isMatch_iff compiles).mpr matched)
      refine ⟨folder, inside, covers_trans (canonical folder inside) above named around ?_⟩
      rw [covers_iff above named, location_spelled fun name found => proper name (start.subset found)]
      exact start
    · rintro ⟨folder, among, above⟩
      obtain ⟨outer, outermost, around⟩ := exists_outermost canonical among
      obtain ⟨pattern, member, matched⟩ := tight.matched outer outermost
      have top := canonical outer outermost.member
      have compiles := Combined.compile_of_mem compiled pattern member
      have start := covers_trans top (canonical folder among) named around above
      rw [covers_iff top named] at start
      refine ⟨location outer, start, _, List.mem_map_of_mem member, pattern, compiles, ?_⟩
      rw [← top.spelling]
      exact (isMatch_iff compiles).mp matched

section Insertion

/-- A name longer than a given length. -/
def filler (length : Nat) : Text := List.replicate (length + 1) 'x'

theorem not_mem_filler (length : Nat) {c : Char} (other : c ≠ 'x') : c ∉ filler length := by
  intro member
  exact other (List.eq_of_mem_replicate member)

theorem isName_of_filler {start rest : Text} (length : Nat) (single : separator ∉ start ++ rest) :
    IsName (start ++ filler length ++ rest) := by
  have inside : 'x' ∈ start ++ filler length ++ rest := by simp [filler]
  refine isName_of_mem inside (by decide) ?_
  have absent := not_mem_filler length (c := separator) (by decide)
  simp only [List.mem_append, not_or] at single ⊢
  exact ⟨⟨single.1, absent⟩, single.2⟩

variable {front back : Text}

/-- A folder does not cover what differs from it by a long name. -/
theorem not_covers_insertion (inner : front ++ back ≠ []) (later : Text) :
    ¬ covers (separator :: (front ++ back)) (separator :: (front ++ filler back.length ++ later)) := by
  simp only [covers, Bool.or_eq_true, beq_iff_eq, Option.bind_eq_some_iff, Text.after?_eq_some_iff]
  rintro ((root | same) | ⟨rest, same, starts⟩)
  · exact inner (List.cons.inj root).2
  · have lengths := congrArg List.length same
    simp only [filler, List.length_cons, List.length_append, List.length_replicate] at lengths
    omega
  · rw [List.cons_append, List.cons.injEq, List.append_assoc, List.append_assoc,
      List.append_right_inj] at same
    rcases List.append_eq_append_iff.mp same.2 with ⟨more, whole, -⟩ | ⟨more, whole, tail⟩
    · have lengths := congrArg List.length whole
      simp only [filler, List.length_append, List.length_replicate] at lengths
      omega
    · cases more with
      | nil =>
        have lengths := congrArg List.length whole
        simp [filler] at lengths
      | cons c more =>
        rw [tail] at starts
        have slash : c = separator := by simpa using starts
        have member : c ∈ filler back.length := by simp [whole]
        exact not_mem_filler back.length (by rw [slash]; decide) member

theorem isCanonical_of_rooted {names : List Text} {path : Text} (spelling : path = rooted names)
    (filled : names ≠ []) (proper : ∀ name ∈ names, IsName name) (absent : '\\' ∉ path) :
    IsCanonical path := by
  have whole : path = spelled names := by rw [spelling, spelled_eq, if_neg filled]
  rw [whole] at absent ⊢
  exact isCanonical_spelled proper absent

/-- A long name can be put into a folder anywhere, and a further segment at the start of one. -/
theorem isCanonical_insertion (canonical : IsCanonical (separator :: (front ++ back)))
    (inner : front ++ back ≠ []) (length : Nat) :
    IsCanonical (separator :: (front ++ filler length ++ back))
      ∧ ((separator :: front).getLast? = some separator →
        IsCanonical (separator :: (front ++ filler length ++ separator :: back))) := by
  obtain ⟨names, proper, spelling⟩ := canonical.names
  have filled : names ≠ [] := by
    rintro rfl
    exact inner (List.cons.inj spelling).2
  rw [spelled_eq, if_neg filled] at spelling
  obtain ⟨before, start, rest, behind, rfl, first, rfl⟩ := exists_rooted_append spelling.symm
  have absent : '\\' ∉ front ∧ '\\' ∉ rest ++ rooted behind := by
    simpa [separator] using canonical.noBackslash
  have fresh := not_mem_filler length (c := '\\') (by decide)
  have cut := proper (start ++ rest) (by simp)
  rw [List.forall_mem_append, List.forall_mem_cons] at proper
  obtain ⟨above, -, below⟩ := proper
  have apart (text : Text) : separator :: (front ++ text) = rooted before ++ separator :: (start ++ text) := by
    rw [← List.cons_append, first]
    simp
  constructor
  · refine @isCanonical_of_rooted (before ++ (start ++ filler length ++ rest) :: behind) _ ?_ ?_ ?_ ?_
    · rw [List.append_assoc, apart, rooted_append, rooted_cons]
      simp
    · simp
    · rw [List.forall_mem_append, List.forall_mem_cons]
      exact ⟨above, isName_of_filler length cut.single, below⟩
    · simp only [List.mem_cons, List.mem_append, not_or] at absent ⊢
      exact ⟨by decide, ⟨absent.1, fresh⟩, absent.2⟩
  · intro ends
    -- Nothing of the name stands in front of the cut.
    have none : start = [] := by
      rcases List.eq_nil_or_concat start with rfl | ⟨init, last, rfl⟩
      · rfl
      · rw [first, List.concat_eq_append, ← List.cons_append, ← List.append_assoc,
          List.getLast?_concat, Option.some.injEq] at ends
        exact absurd cut.single (by simp [ends])
    subst none
    refine @isCanonical_of_rooted (before ++ filler length :: rest :: behind) _ ?_ ?_ ?_ ?_
    · rw [List.append_assoc, apart, rooted_append, rooted_cons, rooted_cons]
      simp
    · simp
    · simp only [List.forall_mem_append, List.forall_mem_cons]
      have name := @isName_of_filler [] [] length (by simp)
      rw [List.nil_append, List.append_nil] at name
      exact ⟨above, name, cut, below⟩
    · simp only [List.mem_cons, List.mem_append, not_or] at absent ⊢
      exact ⟨by decide, ⟨absent.1, fresh⟩, by decide, absent.2⟩

theorem isCanonical_swap {c d : Char} (canonical : IsCanonical (separator :: (front ++ c :: back)))
    (other : c ≠ separator) (ordinary : d ≠ separator ∧ d ≠ '.' ∧ d ≠ '\\') :
    IsCanonical (separator :: (front ++ d :: back)) := by
  obtain ⟨names, proper, spelling⟩ := canonical.names
  have filled : names ≠ [] := by
    rintro rfl
    exact absurd (List.cons.inj spelling).2 (by simp [ofSegments])
  rw [spelled_eq, if_neg filled] at spelling
  obtain ⟨before, start, rest, behind, rfl, first, last⟩ := exists_rooted_append spelling.symm
  obtain ⟨rest, rfl, rfl⟩ : ∃ later, rest = c :: later ∧ back = later ++ rooted behind := by
    cases rest with
    | nil =>
      cases behind with
      | nil => cases last
      | cons next behind => exact absurd (List.cons.inj last).1 other
    | cons e later =>
      obtain ⟨rfl, tail⟩ := List.cons.inj last
      exact ⟨later, rfl, tail⟩
  have absent : '\\' ∉ front ∧ c ≠ '\\' ∧ '\\' ∉ rest ++ rooted behind := by
    have plain := canonical.noBackslash
    simp only [List.mem_cons, List.mem_append, not_or] at plain ⊢
    exact ⟨plain.2.1, Ne.symm plain.2.2.1, plain.2.2.2⟩
  have cut := (proper (start ++ c :: rest) (by simp)).single
  have name : IsName (start ++ d :: rest) := by
    refine isName_of_mem (c := d) (by simp) ordinary.2.1 ?_
    simp only [List.mem_append, List.mem_cons, not_or] at cut ⊢
    exact ⟨cut.1, Ne.symm ordinary.1, cut.2.2⟩
  rw [List.forall_mem_append, List.forall_mem_cons] at proper
  refine @isCanonical_of_rooted (before ++ (start ++ d :: rest) :: behind) _ ?_ (by simp) ?_ ?_
  · rw [← List.cons_append, first, rooted_append, rooted_cons]
    simp
  · rw [List.forall_mem_append, List.forall_mem_cons]
    exact ⟨proper.1, name, proper.2.2⟩
  · simp only [List.mem_cons, List.mem_append, not_or] at absent ⊢
    exact ⟨by decide, absent.1, Ne.symm ordinary.2.2, absent.2.2⟩

end Insertion

section Single

variable {folder : Text} {tokens : List Token} (canonical : IsCanonical folder)
  (matched : Matches (.literal separator :: tokens) folder)
  (covered : ∀ file, IsCanonical file → Matches (.literal separator :: tokens) file → covers folder file)

include canonical matched covered

theorem not_wild_of_covered (inner : folder ≠ [separator]) (placed : isWellPlaced true tokens) :
    .anyRun ∉ tokens ∧ .anyDirectories ∉ tokens := by
  have grown {other : Text} (found : Matches tokens other) :
      Matches (.literal separator :: tokens) (separator :: other) := ⟨separator, other, rfl, rfl, found⟩
  rw [← not_or]
  intro wild
  obtain ⟨c, body, rfl, fits, behind⟩ := matched
  obtain rfl : c = separator := by simpa [Token.fits] using fits
  obtain ⟨front, back, rfl, more⟩ := exists_insertion placed behind wild
  have filled : front ++ back ≠ [] := fun none => inner (by rw [none])
  have single := not_mem_filler back.length (c := '/') (by decide)
  obtain ⟨named, segment⟩ := isCanonical_insertion canonical filled back.length
  rcases more with run | ⟨whole, directories⟩
  · exact not_covers_insertion filled back (covered _ named (grown (run _ single)))
  · have ends : (separator :: front).getLast? = some separator := by
      rcases whole with ⟨rfl, -⟩ | ends
      · rfl
      · rw [List.getLast?_cons, ends]
        rfl
    exact not_covers_insertion filled (separator :: back)
      (covered _ (segment ends) (grown (directories _ single)))

theorem not_mark_of_covered : .anyChar ∉ tokens := by
  intro mark
  obtain ⟨c, body, rfl, fits, behind⟩ := matched
  obtain rfl : c = separator := by simpa [Token.fits] using fits
  obtain ⟨front, d, back, rfl, other, found⟩ := exists_swap behind mark
  obtain ⟨e, ordinary, differs⟩ : ∃ e, (e ≠ separator ∧ e ≠ '.' ∧ e ≠ '\\') ∧ e ≠ d := by
    by_cases same : d = 'x'
    · exact ⟨'y', by decide, by rw [same]; decide⟩
    · exact ⟨'x', by decide, Ne.symm same⟩
  have above := covered _ (isCanonical_swap canonical other ordinary)
    ⟨separator, _, rfl, rfl, found e ordinary.1⟩
  simp only [covers, Bool.or_eq_true, beq_iff_eq, Option.bind_eq_some_iff, Text.after?_eq_some_iff] at above
  rcases above with (root | same) | ⟨rest, same, starts⟩
  · exact absurd (List.cons.inj root).2 (by simp)
  · simp [differs] at same
  · simp [differs] at same

end Single

/-- A folder without wildcards, classes and groups. -/
def IsUnread (folder : Text) : Prop := ∀ c ∈ folder, c ∉ ['*', '?', '[', '{']

instance (folder : Text) : Decidable (IsUnread folder) :=
  List.decidableBAll _ folder

theorem IsUnread.isVerbatim {folder : Text} (unread : IsUnread folder) {c : Char} (inside : c ∈ folder) :
    isVerbatim c := by
  have ordinary := unread c inside
  simp only [List.mem_cons, List.not_mem_nil, or_false, not_or] at ordinary
  simp [Glob.isVerbatim, ordinary]

section Folder

variable {folder : Text} (canonical : IsCanonical folder)

include canonical

theorem isBlankText_of_isCanonical : Text.isBlankText folder = false := by
  obtain ⟨body, rfl⟩ := isAbsolute_iff.mp canonical.isAbsolute
  exact isBlankText_of_mem List.mem_cons_self (by decide)

/-- If a folder is an exact glob for itself, all of its characters are read as themselves. -/
theorem isUnread_of_isExact {glob : Combined} (compiled : Combined.compile folder = .ok glob)
    (exact : IsExact [folder] glob) : IsUnread folder := by
  by_cases root : folder = [separator]
  · rw [root]
    decide
  have alone : IsOutermost [folder] folder := ⟨List.mem_cons_self, by simp⟩
  obtain ⟨alternative, member, pattern, compiles, matched⟩ :=
    exact.exists_alternative (by simpa using canonical) compiled alone
  have covered : ∀ file, IsCanonical file → Matches pattern.tokens file → covers folder file := by
    intro file named found
    simpa using exact.covers_of_matches compiled member compiles named found
  -- The alternative spells the location of a text that the folder denotes as a pattern.
  obtain ⟨texts, expanded, -, found⟩ :=
    Combined.alternatives_eq (isBlankText_of_isCanonical canonical) compiled
  obtain ⟨-, closed, -, rfl⟩ := expand_eq_ok_iff.mp expanded
  rw [found, List.mem_eraseDups] at member
  obtain ⟨text, denotes, rfl⟩ := List.mem_map.mp member
  have absolute : isAbsolute text := by
    obtain ⟨body, rfl⟩ := isAbsolute_iff.mp canonical.isAbsolute
    obtain ⟨rest, rfl⟩ := exists_cons_of_mem_denoted (by decide) closed denotes
    rfl
  have absent : '\\' ∉ text := fun inside =>
    canonical.noBackslash (mem_of_mem_denoted closed denotes inside)
  rw [plainText_of_not_mem absolute absent] at compiles
  obtain ⟨tokens, written, rfl⟩ := Pattern.compile_eq_ok_iff.mp compiles
  obtain ⟨others, behind, rfl⟩ := map_eq_ok_iff.mp (compileFrom_separator.symm.trans written)
  have wild := not_wild_of_covered canonical matched covered root (isWellPlaced_compileFrom behind)
  have mark := not_mark_of_covered canonical matched covered
  -- As many tokens as characters match the folder, so nothing of it was a group or a class.
  have full : (Token.literal '/' :: others).length = folder.length :=
    matched.length_eq (by simpa using wild)
  obtain ⟨few, all⟩ := length_compileFrom written
  have spelling := length_spelled_location absolute
  have left := length_of_mem_denoted closed denotes
  have groups : countGroups folder = 0 := by omega
  rw [denoted_of_countGroups groups, List.mem_singleton] at denotes
  subst denotes
  rw [← canonical.spelling] at all
  obtain ⟨bracket, same⟩ := all full
  have written (c : Char) (inside : c ∈ text) : Token.ofChar c ∈ Token.literal '/' :: others := by
    rw [same]
    exact List.mem_map_of_mem inside
  intro c inside special
  simp only [List.mem_cons, List.not_mem_nil, or_false] at special
  rcases special with rfl | rfl | rfl | rfl
  · exact wild.1 (by simpa [Token.ofChar] using written '*' inside)
  · exact mark (by simpa [Token.ofChar] using written '?' inside)
  · exact bracket inside
  · exact (countGroups_eq_zero_iff ⟨canonical.noBackslash, bracket⟩).mp groups inside

theorem exists_isExact_of_isUnread (unread : IsUnread folder) :
    ∃ glob, Combined.compile folder = .ok glob ∧ IsExact [folder] glob := by
  have unguarded : IsUnguarded folder :=
    ⟨canonical.noBackslash, fun inside => unread _ inside (by decide)⟩
  have verbatim : ∀ c ∈ folder, isVerbatim c := fun _ => unread.isVerbatim
  have groups : countGroups folder = 0 :=
    (countGroups_eq_zero_iff unguarded).mpr fun inside => unread _ inside (by decide)
  have texts := denoted_of_countGroups groups
  have plain := plainText_of_isCanonical canonical
  have compiles : Compiles folder := by
    rw [Compiles, plain]
    exact ⟨_, compile_of_isVerbatim verbatim⟩
  obtain ⟨glob, compiled, found⟩ :=
    Combined.exists_compile (isBlankText_of_isCanonical canonical) (expand_eq_ok_iff.mpr
      ⟨by rw [groups]; decide, depthAfter_flat (List.count_eq_zero.mp groups),
        by rw [texts, List.length_singleton]; decide, rfl⟩)
      (by rw [texts]; simpa using compiles)
  rw [texts, List.map_singleton, plain, eraseDups_of_nodup (by simp)] at found
  refine ⟨glob, compiled, fun file named => ?_⟩
  have proper : ∀ name ∈ location file, IsName name := fun _ => isName_of_mem_location
  have selected := Combined.isMatch_iff_mem compiled (by simpa [found] using verbatim) proper
    (named.spelling ▸ named.noBackslash)
  rw [← named.spelling, found] at selected
  rw [selected]
  simp only [List.mem_singleton, exists_eq_left, covers_iff canonical named]
  constructor
  · rintro ⟨front, start, same⟩
    rwa [← same, location_spelled fun name inside => proper name (start.subset inside)]
  · exact fun start => ⟨location folder, start, canonical.spelling.symm⟩

end Folder

end RootedGlob.Scope
