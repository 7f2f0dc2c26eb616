import RootedGlob.Proofs.Brace.Counting
import RootedGlob.Proofs.Scope.Exactness

/-!
# The default include

Without an include, a search covers the alternation of the workspace folders, and the folders are not
escaped. For a single folder this selects the workspace exactly if the folder has no wildcard, no
class and no group. Several folders share a group, so their commas and closing braces are read, too:
they must not have a closing brace, and their commas must not split off anything outside the workspace
(`selectsWorkspace_iff`).
-/

namespace RootedGlob.Scope

open RootedGlob.Path Brace Glob Folders PatternList

/-- Without an include, a search covers the workspace: a file is selected exactly if some folder contains it. Files
are canonical here, so they have no separator at the end. With one, the path `/a/` lies in the folder `/a`, but the
name of the folder does not select it. -/
def SelectsWorkspace (folders : Folders) (excluded : Option Text) : Prop :=
  ∃ glob, Combined.compile (ofFields folders none excluded).included = .ok glob
    ∧ ∀ file, IsCanonical file → (glob.isMatch file ↔ (folders.around? file).isSome)

/-- What the commas leave of folders that share a group. -/
def pieces (folders : List Text) : List Text := folders.flatMap (List.splitOn ',')

/-- The commas of the folders do not split off anything outside the workspace, and no folder is lost. -/
structure StaysWhole (folders : List Text) : Prop where
  room : (pieces folders).length ≤ maxExpansions
  unclosed : ∀ folder ∈ folders, '}' ∉ folder
  kept : ∀ folder ∈ folders, ∃ outer ∈ folders, ',' ∉ outer ∧ covers outer folder
  inside : ∀ piece ∈ pieces folders, isAbsolute piece →
    ∃ folder ∈ folders, covers folder (plainText piece)

instance (folders : List Text) : Decidable (StaysWhole folders) :=
  decidable_of_iff ((pieces folders).length ≤ maxExpansions ∧ (∀ folder ∈ folders, '}' ∉ folder)
    ∧ (∀ folder ∈ folders, ∃ outer ∈ folders, ',' ∉ outer ∧ covers outer folder)
    ∧ ∀ piece ∈ pieces folders, isAbsolute piece → ∃ folder ∈ folders, covers folder (plainText piece))
    ⟨fun ⟨room, unclosed, kept, inside⟩ => ⟨room, unclosed, kept, inside⟩,
      fun ⟨room, unclosed, kept, inside⟩ => ⟨room, unclosed, kept, inside⟩⟩

section Pieces

theorem pieces_ne_nil {folders : List Text} (nonempty : folders ≠ []) : pieces folders ≠ [] := by
  obtain ⟨folder, others, rfl⟩ := List.exists_cons_of_ne_nil nonempty
  simp [pieces, List.splitOn_ne_nil]

theorem joined_pieces (folders : List Text) : joined (pieces folders) = joined folders := by
  induction folders with
  | nil => rfl
  | cons folder folders ih =>
    have split : pieces (folder :: folders) = folder.splitOn ',' ++ pieces folders := rfl
    have whole : joined (folder.splitOn ',') = folder := List.intercalate_splitOn ','
    have alone : joined [folder] = folder := List.intercalate_singleton
    by_cases none : folders = []
    · subst none
      rw [split, pieces, List.flatMap_nil, List.append_nil, whole, alone]
    · have front := joined_append (List.cons_ne_nil folder []) none
      rw [List.singleton_append, alone] at front
      rw [split, joined_append (List.splitOn_ne_nil _ _) (pieces_ne_nil none), whole, ih, front]

theorem length_le_pieces (folders : List Text) : folders.length ≤ (pieces folders).length := by
  induction folders with
  | nil => exact Nat.zero_le _
  | cons folder folders ih =>
    have some := List.length_pos_iff.mpr (List.splitOn_ne_nil ',' folder)
    have split : pieces (folder :: folders) = folder.splitOn ',' ++ pieces folders := rfl
    rw [split, List.length_append, List.length_cons]
    omega

theorem alternation_pieces {folders : List Text} (several : 2 ≤ folders.length) :
    alternation (pieces folders) = alternation folders := by
  rw [alternation_of_several several, alternation_of_several
    (Nat.le_trans several (length_le_pieces folders)), joined_pieces]

theorem exists_of_mem_pieces {folders : List Text} {piece : Text} (member : piece ∈ pieces folders) {c : Char}
    (inside : c ∈ piece) : ∃ folder ∈ folders, c ∈ folder := by
  obtain ⟨folder, among, split⟩ := List.mem_flatMap.mp member
  exact ⟨folder, among, mem_of_mem_splitOn split inside⟩

theorem not_mem_of_mem_pieces {folders : List Text}
    (canonical : ∀ folder ∈ folders, IsCanonical folder) {piece : Text} (member : piece ∈ pieces folders) :
    '\\' ∉ piece := by
  intro inside
  obtain ⟨folder, among, found⟩ := exists_of_mem_pieces member inside
  exact (canonical folder among).noBackslash found

theorem isVerbatim_plainText {folders : List Text}
    (canonical : ∀ folder ∈ folders, IsCanonical folder) (unread : ∀ folder ∈ folders, IsUnread folder)
    {piece : Text} (member : piece ∈ pieces folders) : ∀ c ∈ plainText piece, isVerbatim c := by
  intro c inside
  rcases mem_of_mem_plainText (not_mem_of_mem_pieces canonical member) inside with found | rfl | rfl
  · obtain ⟨folder, among, written⟩ := exists_of_mem_pieces member found
    exact (unread folder among).isVerbatim written
  · decide
  · decide

end Pieces

section Several

variable {folders : List Text} (several : 2 ≤ folders.length)

include several

theorem mem_alternation {c : Char} (member : c ∈ alternation folders) :
    c ∈ ['{', '}', ','] ∨ ∃ folder ∈ folders, c ∈ folder := by
  rw [alternation_of_several several, List.mem_append, List.mem_cons] at member
  by_cases comma : c = ','
  · exact .inl (by simp [comma])
  · rcases member with (rfl | inner) | closing
    · exact .inl List.mem_cons_self
    · exact .inr (mem_of_mem_joined comma inner)
    · exact .inl (by simp [List.mem_singleton.mp closing])

theorem isBlankText_alternation : Text.isBlankText (alternation folders) = false := by
  rw [alternation_of_several several]
  exact isBlankText_of_mem List.mem_cons_self (by decide)

variable (canonical : ∀ folder ∈ folders, IsCanonical folder)
  (unread : ∀ folder ∈ folders, IsUnread folder)

include canonical unread

theorem isUnguarded_alternation : IsUnguarded (alternation folders) := by
  constructor
  · intro member
    rcases mem_alternation several member with mark | ⟨folder, among, inside⟩
    · exact absurd mark (by decide)
    · exact (canonical folder among).noBackslash inside
  · intro member
    rcases mem_alternation several member with mark | ⟨folder, among, inside⟩
    · exact absurd mark (by decide)
    · exact unread folder among _ inside (by decide)

omit several in
theorem isFlatChar_of_mem {folder : Text} (among : folder ∈ folders) {c : Char} (inside : c ∈ folder)
    (other : c ≠ ',' ∧ c ≠ '}') : isFlatChar c := by
  have ordinary := unread folder among c inside
  simp only [List.mem_cons, List.not_mem_nil, or_false, not_or] at ordinary
  have unescaped : c ≠ '\\' := fun same => (canonical folder among).noBackslash (same ▸ inside)
  simp [isFlatChar, ordinary, other, unescaped]

/-- The first closing brace of the folders closes their group, and what stands behind it ends every
text. -/
theorem exists_append_of_closing {front back : Text} (cut : joined folders = front ++ '}' :: back)
    (first : '}' ∉ front) {text : Text} (member : text ∈ denoted (lex (alternation folders))) :
    ∃ start, text = start ++ (back ++ ['}']) := by
  have whole : alternation folders = ['{'] ++ front ++ ['}'] ++ (back ++ ['}']) := by
    rw [alternation_of_several several, cut]
    simp
  have unguarded := isUnguarded_alternation several canonical unread
  rw [whole, isUnguarded_append, isUnguarded_append, isUnguarded_append] at unguarded
  obtain ⟨⟨⟨opens, inner⟩, closes⟩, outer⟩ := unguarded
  have group := isUnguarded_append.mpr ⟨isUnguarded_append.mpr ⟨opens, inner⟩, closes⟩
  rw [whole] at member
  -- The front has no closing brace and only commas that separate, so the group ends where it is cut,
  -- and no group opens behind it.
  refine exists_append_of_mem_denoted ⟨group, outer⟩ ?_ ?_ member
  · have pieces_whole : ∀ piece ∈ front.splitOn ',', IsWhole piece := by
      intro piece split
      apply IsFlat.whole
      intro c inside
      have found := mem_of_mem_splitOn split inside
      have comma : c ≠ ',' := fun same => not_mem_of_mem_splitOn split (same ▸ inside)
      have among : c ∈ joined folders := by
        rw [cut]
        exact List.mem_append_left _ found
      obtain ⟨folder, member, written⟩ := mem_of_mem_joined comma among
      exact isFlatChar_of_mem canonical unread member written ⟨comma, fun same => first (same ▸ found)⟩
    have level := depthAfter_joined_of_isWhole pieces_whole 1
    have same : joined (front.splitOn ',') = front := List.intercalate_splitOn ','
    rw [same] at level
    rw [lex_append_closing (isUnguarded_append.mpr ⟨opens, inner⟩), List.singleton_append, lex_opening,
      depthAfter_append, depthAfter_cons]
    show depthAfter (depthAfter 1 (lex front)) [.closing] = 0
    rw [level]
    rfl
  · have groups : countGroups (back ++ ['}']) = 0 := by
      rw [countGroups_eq_zero_iff outer, List.mem_append, not_or]
      refine ⟨fun inside => ?_, by decide⟩
      have among : '{' ∈ joined folders := by
        rw [cut]
        exact List.mem_append_right _ (List.mem_cons_of_mem _ inside)
      obtain ⟨folder, member, written⟩ := mem_of_mem_joined (by decide) among
      exact unread folder member '{' written (by decide)
    exact List.count_eq_zero.mp groups

section Compiled

variable {glob : Combined} (compiled : Combined.compile (alternation folders) = .ok glob)

include compiled

/-- The alternatives are the plain texts of what the folders denote together, and are read literally. -/
theorem exists_of_mem_alternatives {alternative : Text} (member : alternative ∈ glob.alternatives) :
    (∀ c ∈ alternative, isVerbatim c) ∧ ∃ text ∈ denoted (lex (alternation folders)),
      '\\' ∉ text ∧ alternative = plainText text := by
  obtain ⟨texts, expanded, -, found⟩ :=
    Combined.alternatives_eq (isBlankText_alternation several) compiled
  obtain ⟨-, closed, -, rfl⟩ := expand_eq_ok_iff.mp expanded
  rw [found, List.mem_eraseDups] at member
  obtain ⟨text, denotes, rfl⟩ := List.mem_map.mp member
  have absent : '\\' ∉ text := fun inside =>
    (isUnguarded_alternation several canonical unread).1 (mem_of_mem_denoted closed denotes inside)
  refine ⟨fun c inside => ?_, text, denotes, absent, rfl⟩
  -- A text has no characters that the alternation does not have, and those are marks of the group or
  -- characters of a folder.
  rcases mem_of_mem_plainText absent inside with inside | rfl | rfl
  · rcases mem_alternation several (mem_of_mem_denoted closed denotes inside) with
      mark | ⟨folder, among, found⟩
    · simp only [List.mem_cons, List.not_mem_nil, or_false] at mark
      rcases mark with rfl | rfl | rfl <;> decide
    · exact (unread folder among).isVerbatim found
  · decide
  · decide

variable (exact : IsExact folders glob)

include exact

/-- An outermost folder is the plain text of something that the folders denote together. -/
theorem exists_of_isOutermost {folder : Text} (outermost : IsOutermost folders folder) :
    ∃ text ∈ denoted (lex (alternation folders)), '\\' ∉ text ∧ isAbsolute text
      ∧ folder = plainText text ∧ location folder = location text := by
  obtain ⟨alternative, member, pattern, compiles, matched⟩ :=
    exact.exists_alternative canonical compiled outermost
  obtain ⟨verbatim, text, denotes, absent, rfl⟩ :=
    exists_of_mem_alternatives several canonical unread compiled member
  rw [matches_iff_eq verbatim compiles] at matched
  have absolute : isAbsolute text := by
    rw [← isAbsolute_plainText absent, ← matched]
    exact (canonical folder outermost.member).isAbsolute
  refine ⟨text, denotes, absent, absolute, matched, ?_⟩
  rw [matched, plainText_of_not_mem absolute absent, location_spelled fun _ => isName_of_mem_location]

/-- The folders of an exact glob do not close their group. -/
theorem not_mem_closing_of_isExact : ∀ folder ∈ folders, '}' ∉ folder := by
  intro folder among inside
  have outermost {inner : Text} (member : inner ∈ folders) :
      ∃ text ∈ denoted (lex (alternation folders)), covers (plainText text) inner
        ∧ IsCanonical (plainText text) ∧ location (plainText text) = location text := by
    obtain ⟨outer, top, above⟩ := exists_outermost canonical member
    obtain ⟨text, denotes, -, -, rfl, same⟩ :=
      exists_of_isOutermost several canonical unread compiled exact top
    exact ⟨text, denotes, above, canonical _ top.member, same⟩
  obtain ⟨head, others, rfl⟩ := List.exists_cons_of_ne_nil (List.ne_nil_of_mem among)
  -- Every text ends with the last brace, so the folder around the first one has a brace.
  have first : '}' ∈ head := by
    have member : '}' ∈ joined (head :: others) := mem_intercalate_of_mem among inside
    obtain ⟨front, back, cut, early⟩ := List.eq_append_cons_of_mem member
    obtain ⟨text, denotes, above, top, -⟩ := outermost List.mem_cons_self
    obtain ⟨start, rfl⟩ := exists_append_of_closing several canonical unread cut early denotes
    refine mem_of_covers top (canonical head List.mem_cons_self) above (by decide) ?_
    rw [← List.append_assoc]
    exact mem_plainText _ (by decide) (by decide) (by simp [segments_nil])
  -- So every text ends with the last folder and a brace, and lies deeper than the last folder.
  obtain ⟨before, last, split⟩ := (List.eq_nil_or_concat (head :: others)).resolve_left (by simp)
  rw [List.concat_eq_append] at split
  have filled : before ≠ [] := by
    rintro rfl
    rw [split] at several
    simp at several
  have member : '}' ∈ joined before := by
    obtain ⟨next, rest, rfl⟩ := List.exists_cons_of_ne_nil filled
    obtain ⟨rfl, -⟩ := List.cons.inj split
    exact mem_intercalate_of_mem List.mem_cons_self first
  obtain ⟨front, back, cut, early⟩ := List.eq_append_cons_of_mem member
  have whole : joined (head :: others) = front ++ '}' :: (back ++ ',' :: last) := by
    have alone : joined [last] = last := List.intercalate_singleton
    rw [split, joined_append filled (List.cons_ne_nil _ _), cut, alone]
    simp
  have among : last ∈ head :: others := by simp [split]
  have below := canonical last among
  obtain ⟨text, denotes, above, top, same⟩ := outermost among
  obtain ⟨start, rfl⟩ := exists_append_of_closing several canonical unread whole early denotes
  rw [covers_iff top below, same] at above
  obtain ⟨names, proper, longer, spelling⟩ := below.exists_concat (c := '}') (by decide)
  have text_eq : start ++ (back ++ ',' :: last ++ ['}']) = start ++ back ++ [','] ++ rooted names := by
    rw [← spelling]
    simp
  rw [text_eq, location_append_rooted _ proper] at above
  have few := above.length_le
  have some := List.length_pos_iff.mpr
    (location_concat_ne_nil (start ++ back) (c := ',') (by decide))
  rw [List.length_append] at few
  omega

end Compiled

section Unclosed

variable (unclosed : ∀ folder ∈ folders, '}' ∉ folder)

include unclosed

/-- Without closing braces, the folders denote their pieces. -/
theorem denoted_unclosed :
    IsWhole (alternation folders) ∧ denoted (lex (alternation folders)) = pieces folders
      ∧ countGroups (alternation folders) = 1 := by
  have flat : ∀ piece ∈ pieces folders, IsFlat piece := by
    intro piece member c inside
    obtain ⟨folder, among, split⟩ := List.mem_flatMap.mp member
    have found := mem_of_mem_splitOn split inside
    exact isFlatChar_of_mem canonical unread among found
      ⟨fun same => not_mem_of_mem_splitOn split (same ▸ inside),
        fun same => unclosed folder among (same ▸ found)⟩
  have wholes : ∀ piece ∈ pieces folders, IsWhole piece := fun piece member => (flat piece member).whole
  have nonempty : folders ≠ [] := List.ne_nil_of_length_pos (by omega)
  obtain ⟨whole, texts⟩ := denoted_alternation_of_isWhole (pieces_ne_nil nonempty) wholes
  have groups := countGroups_alternation wholes
  rw [if_pos (Nat.le_trans several (length_le_pieces folders)),
    List.map_congr_left fun piece member => countGroups_of_isFlat (flat piece member)] at groups
  have alone : (pieces folders).flatMap (denoted ∘ lex) = (pieces folders).flatMap fun piece => [piece] :=
    List.flatMap_congr fun piece member => denoted_of_isFlat (flat piece member)
  -- The folders are cut at their own commas as they are at those between them, so the group is that of
  -- the pieces.
  rw [alternation_pieces several] at whole texts groups
  rw [alone] at texts
  exact ⟨whole, by simpa using texts, by simpa using groups⟩

theorem expand_unclosed {texts : List Text} :
    expand (alternation folders) = .ok texts
      ↔ (pieces folders).length ≤ maxExpansions ∧ texts = pieces folders := by
  obtain ⟨whole, found, groups⟩ := denoted_unclosed several canonical unread unclosed
  rw [expand_eq_ok_iff, found, groups]
  constructor
  · exact fun ⟨_, _, room, same⟩ => ⟨room, same⟩
  · exact fun ⟨room, same⟩ => ⟨by decide, depthAfter_of_isSealed whole.closed, room, same⟩

theorem compile_unclosed_iff :
    (∃ glob, Combined.compile (alternation folders) = .ok glob)
      ↔ (pieces folders).length ≤ maxExpansions := by
  have filled := isBlankText_alternation several
  constructor
  · rintro ⟨glob, compiled⟩
    obtain ⟨texts, expanded, -⟩ := Combined.alternatives_eq filled compiled
    exact ((expand_unclosed several canonical unread unclosed).mp expanded).1
  · intro room
    have expanded := (expand_unclosed several canonical unread unclosed).mpr ⟨room, rfl⟩
    obtain ⟨glob, compiled, -⟩ := Combined.exists_compile filled expanded fun piece member => by
      exact ⟨_, compile_of_isVerbatim (isVerbatim_plainText canonical unread member)⟩
    exact ⟨glob, compiled⟩

/-- Without closing braces, a search covers what lies at or below an absolute piece. -/
theorem isMatch_unclosed_iff {glob : Combined}
    (compiled : Combined.compile (alternation folders) = .ok glob) {file : Text}
    (named : IsCanonical file) :
    glob.isMatch file ↔ ∃ piece ∈ pieces folders, isAbsolute piece ∧ covers (plainText piece) file := by
  obtain ⟨texts, expanded, -, found⟩ :=
    Combined.alternatives_eq (isBlankText_alternation several) compiled
  obtain ⟨-, rfl⟩ := (expand_unclosed several canonical unread unclosed).mp expanded
  have verbatim : ∀ alternative ∈ glob.alternatives, ∀ c ∈ alternative, isVerbatim c := by
    intro alternative member
    rw [found, List.mem_eraseDups] at member
    obtain ⟨piece, inside, rfl⟩ := List.mem_map.mp member
    exact isVerbatim_plainText canonical unread inside
  have proper : ∀ name ∈ location file, IsName name := fun _ => isName_of_mem_location
  have selected := Combined.isMatch_iff_mem compiled verbatim proper
    (named.spelling ▸ named.noBackslash)
  rw [← named.spelling] at selected
  rw [selected]
  constructor
  · rintro ⟨front, start, member⟩
    rw [found, List.mem_eraseDups] at member
    obtain ⟨piece, inside, same⟩ := List.mem_map.mp member
    have absent := not_mem_of_mem_pieces canonical inside
    -- A relative piece selects nothing: what a file's location spells is absolute.
    have absolute : isAbsolute piece := by
      rw [← isAbsolute_plainText absent, same]
      exact isAbsolute_spelled front
    refine ⟨piece, inside, absolute, ?_⟩
    rw [same, named.spelling]
    exact (covers_spelled (fun name among => proper name (start.subset among)) proper).mpr start
  · rintro ⟨piece, inside, absolute, above⟩
    have absent := not_mem_of_mem_pieces canonical inside
    have spelling := plainText_of_not_mem absolute absent
    rw [spelling, named.spelling, covers_spelled (fun _ => isName_of_mem_location) proper] at above
    refine ⟨location piece, above, ?_⟩
    rw [found, List.mem_eraseDups, ← spelling]
    exact List.mem_map_of_mem inside

end Unclosed

/-- An exact glob of several folders keeps them whole. -/
theorem staysWhole_of_isExact {glob : Combined}
    (compiled : Combined.compile (alternation folders) = .ok glob) (exact : IsExact folders glob) :
    StaysWhole folders := by
  have unclosed := not_mem_closing_of_isExact several canonical unread compiled exact
  constructor
  · exact (compile_unclosed_iff several canonical unread unclosed).mp ⟨glob, compiled⟩
  · exact unclosed
  · intro folder among
    obtain ⟨outer, outermost, above⟩ := exists_outermost canonical among
    -- The text that selects an outermost folder spells it, and it is a piece, so it has no comma.
    obtain ⟨text, denotes, absent, -, rfl, -⟩ :=
      exists_of_isOutermost several canonical unread compiled exact outermost
    refine ⟨plainText text, outermost.member, fun inside => ?_, above⟩
    rw [(denoted_unclosed several canonical unread unclosed).2.1] at denotes
    obtain ⟨folder, -, split⟩ := List.mem_flatMap.mp denotes
    rcases mem_of_mem_plainText absent inside with found | same | same
    · exact not_mem_of_mem_splitOn split found
    · exact absurd same (by decide)
    · exact absurd same (by decide)
  · intro piece member absolute
    have named := isCanonical_plainText absolute (not_mem_of_mem_pieces canonical member)
    apply (exact _ named).mp
    apply (isMatch_unclosed_iff several canonical unread unclosed compiled named).mpr
    exact ⟨piece, member, absolute, covers_refl named⟩

theorem exists_isExact_of_staysWhole (whole : StaysWhole folders) :
    ∃ glob, Combined.compile (alternation folders) = .ok glob ∧ IsExact folders glob := by
  obtain ⟨glob, compiled⟩ :=
    (compile_unclosed_iff several canonical unread whole.unclosed).mpr whole.room
  refine ⟨glob, compiled, fun file named => ?_⟩
  rw [isMatch_unclosed_iff several canonical unread whole.unclosed compiled named]
  constructor
  · rintro ⟨piece, member, absolute, above⟩
    obtain ⟨folder, among, around⟩ := whole.inside piece member absolute
    have middle := isCanonical_plainText absolute (not_mem_of_mem_pieces canonical member)
    exact ⟨folder, among, covers_trans (canonical folder among) middle named around above⟩
  · -- The folder itself may be divided. The one around it that is not is a piece of its own.
    rintro ⟨folder, among, above⟩
    obtain ⟨outer, member, undivided, around⟩ := whole.kept folder among
    have top := canonical outer member
    refine ⟨outer, List.mem_flatMap.mpr ⟨outer, member, ?_⟩, top.isAbsolute, ?_⟩
    · rw [List.splitOn_eq_singleton undivided]
      exact List.mem_singleton_self outer
    · rw [plainText_of_isCanonical top]
      exact covers_trans top (canonical folder among) named around above

end Several

/-- Folders without commas and closing braces stay whole. -/
theorem staysWhole_of_not_mem {folders : List Text} (canonical : ∀ folder ∈ folders, IsCanonical folder)
    (undivided : ∀ folder ∈ folders, ',' ∉ folder ∧ '}' ∉ folder)
    (room : folders.length ≤ maxExpansions) : StaysWhole folders := by
  have same : pieces folders = folders := by
    have each : pieces folders = folders.flatMap fun folder => [folder] :=
      List.flatMap_congr fun folder among => List.splitOn_eq_singleton (undivided folder among).1
    simpa using each
  constructor
  · rwa [same]
  · exact fun folder among => (undivided folder among).2
  · exact fun folder among =>
      ⟨folder, among, (undivided folder among).1, covers_refl (canonical folder among)⟩
  · intro piece member absolute
    rw [same] at member
    have top := canonical piece member
    refine ⟨piece, member, ?_⟩
    rw [plainText_of_isCanonical top]
    exact covers_refl top

section Workspace

variable {folders : Folders} (excluded : Option Text)

/-- What lies in the workspace is what some folder covers. -/
theorem selectsWorkspace_iff_isExact :
    SelectsWorkspace folders excluded ↔ ∃ glob, Combined.compile (alternation folders.paths) = .ok glob
      ∧ IsExact folders.paths glob := by
  refine exists_congr fun glob => and_congr_right fun _ => forall₂_congr fun file named => ?_
  rw [isSome_around?_iff named.noBackslash]

/-- Without an include, a search covers exactly the workspace if the alternatives of the folders are
tight. They are if the names of the folders mean nothing to a glob. A single folder must not have a
wildcard, a class or a group; several such folders may have commas, but only inside of other ones. -/
theorem selectsWorkspace_iff {paths : List Text} (built : ofPaths paths = .ok folders)
    (nonempty : folders.paths ≠ []) :
    (SelectsWorkspace folders excluded ↔ ∃ glob,
        Combined.compile (alternation folders.paths) = .ok glob ∧ IsTight folders.paths glob)
      ∧ ((∀ folder ∈ folders.paths, IsUnread folder ∧ ',' ∉ folder ∧ '}' ∉ folder) →
        folders.paths.length ≤ maxExpansions → SelectsWorkspace folders excluded)
      ∧ (folders.paths.length = 1 →
        (SelectsWorkspace folders excluded ↔ ∀ folder ∈ folders.paths, IsUnread folder))
      ∧ (2 ≤ folders.paths.length → (∀ folder ∈ folders.paths, IsUnread folder) →
        (SelectsWorkspace folders excluded ↔ StaysWhole folders.paths)) := by
  have canonical : ∀ folder ∈ folders.paths, IsCanonical folder := fun _ => isCanonical_of_mem_paths built
  rw [selectsWorkspace_iff_isExact]
  generalize folders.paths = folders at nonempty canonical
  have single {folder : Text} (alone : folders = [folder]) : alternation folders = folder := by
    rw [alone]
    rfl
  have several (many : 2 ≤ folders.length) (unread : ∀ folder ∈ folders, IsUnread folder) :
      (∃ glob, Combined.compile (alternation folders) = .ok glob ∧ IsExact folders glob)
        ↔ StaysWhole folders :=
    ⟨fun ⟨_, compiled, exact⟩ => staysWhole_of_isExact many canonical unread compiled exact,
      exists_isExact_of_staysWhole many canonical unread⟩
  have one (length : folders.length = 1) :
      (∃ glob, Combined.compile (alternation folders) = .ok glob ∧ IsExact folders glob)
        ↔ ∀ folder ∈ folders, IsUnread folder := by
    obtain ⟨folder, rfl⟩ := List.length_eq_one_iff.mp length
    rw [List.forall_mem_singleton] at canonical ⊢
    rw [single rfl]
    exact ⟨fun ⟨_, compiled, exact⟩ => isUnread_of_isExact canonical compiled exact,
      exists_isExact_of_isUnread canonical⟩
  refine ⟨exists_congr fun glob => and_congr_right fun compiled => isExact_iff canonical compiled,
    fun plain room => ?_, one, several⟩
  by_cases many : 2 ≤ folders.length
  · apply (several many fun folder among => (plain folder among).1).mpr
    exact staysWhole_of_not_mem canonical (fun folder among => (plain folder among).2) room
  · have some := List.length_pos_iff.mpr nonempty
    exact (one (by omega)).mpr fun folder among => (plain folder among).1

theorem selectsWorkspace_iff_comma :
    ofPaths ["/w".toList, "/w/a,b".toList, "/c/".toList]
        = .ok ⟨["/w".toList, "/w/a,b".toList, "/c".toList]⟩
      ∧ SelectsWorkspace ⟨["/w".toList, "/w/a,b".toList, "/c".toList]⟩ none
      ∧ ¬ SelectsWorkspace ⟨["/a,b".toList, "/c".toList]⟩ none := by
  have nested : ofPaths ["/w".toList, "/w/a,b".toList, "/c/".toList]
      = .ok ⟨["/w".toList, "/w/a,b".toList, "/c".toList]⟩ := by decide +kernel
  have apart : ofPaths ["/a,b".toList, "/c".toList] = .ok ⟨["/a,b".toList, "/c".toList]⟩ := by
    decide +kernel
  refine ⟨nested, ?_, ?_⟩
  · apply ((selectsWorkspace_iff none nested (by simp)).2.2.2 (by decide) (by decide)).mpr
    decide +kernel
  · rw [(selectsWorkspace_iff none apart (by simp)).2.2.2 (by decide) (by decide)]
    decide +kernel

/-- A class in the name of a folder hides what lies in the folder. -/
theorem not_selectsWorkspace_class :
    ofPaths ["/w[x]".toList] = .ok ⟨["/w[x]".toList]⟩
      ∧ ¬ SelectsWorkspace ⟨["/w[x]".toList]⟩ none := by
  refine ⟨by decide +kernel, ?_⟩
  rintro ⟨glob, compiled, selects⟩
  have hidden : ((Combined.compile (ofFields ⟨["/w[x]".toList]⟩ none none).included).toOption.map
      (·.isMatch "/w[x]/f".toList)) = some false := by decide +kernel
  have around : (around? ⟨["/w[x]".toList]⟩ "/w[x]/f".toList).isSome := by decide +kernel
  rw [compiled] at hidden
  have selected := (selects "/w[x]/f".toList ⟨by decide +kernel, by decide⟩).mpr around
  have missed : glob.isMatch "/w[x]/f".toList = false := by simpa [Except.toOption] using hidden
  rw [missed] at selected
  cases selected

end Workspace

end RootedGlob.Scope
