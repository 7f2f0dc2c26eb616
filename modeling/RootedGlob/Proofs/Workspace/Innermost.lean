import RootedGlob.Proofs.Workspace.Folders

/-!
# The innermost folder around a file

Of the folders that cover a file, the one with the longest text is found. Folders that cover one file
cover each other, and of two different ones the inner one is longer (`byteLength_lt_of_covers`). So what is
found is the one folder that all the others cover (`around?_eq_some_iff`), whatever the order of the
folders and however often they stand in the list.
-/

namespace RootedGlob

namespace Text

theorem byteLength_append (first second : Text) :
    byteLength (first ++ second) = byteLength first + byteLength second := by
  have shifted (text : Text) (length : Nat) :
      text.foldl (fun length c => length + c.utf8Size) length = length + byteLength text := by
    induction text generalizing length with
    | nil => rfl
    | cons c text ih =>
      rw [byteLength, List.foldl_cons, List.foldl_cons, ih, ih]
      omega
  rw [byteLength, List.foldl_append, shifted]
  rfl

theorem byteLength_pos {text : Text} (filled : text ≠ []) : 0 < byteLength text := by
  obtain ⟨c, rest, rfl⟩ := List.exists_cons_of_ne_nil filled
  have first : byteLength [c] = c.utf8Size := Nat.zero_add _
  have whole := byteLength_append [c] rest
  have size := c.utf8Size_pos
  rw [List.singleton_append] at whole
  omega

end Text

namespace Folders

open RootedGlob.Path

section Longest

variable {best : Option Text} {folders : List Text} {found : Text}

/-- What is found is one of the candidates, and none of them is longer. -/
theorem foldl_longer_eq_some (result : folders.foldl longer best = some found) :
    (found ∈ folders ∨ best = some found)
      ∧ (∀ folder ∈ folders, Text.byteLength folder ≤ Text.byteLength found)
      ∧ ∀ other, best = some other → Text.byteLength other ≤ Text.byteLength found := by
  induction folders generalizing best with
  | nil =>
    rw [List.foldl_nil] at result
    refine ⟨.inr result, by simp, fun other same => ?_⟩
    rw [result, Option.some.injEq] at same
    exact Nat.le_of_eq (same ▸ rfl)
  | cons folder folders ih =>
    obtain ⟨among, longest, start⟩ := ih result
    -- One step keeps the longer of two texts.
    have step : longer best folder = some folder ∧ (∀ other, best = some other →
          Text.byteLength other ≤ Text.byteLength folder)
        ∨ ∃ other, best = some other ∧ longer best folder = some other
          ∧ Text.byteLength folder ≤ Text.byteLength other := by
      cases best with
      | none => exact .inl ⟨rfl, by simp⟩
      | some other =>
        rw [longer]
        split
        · next shorter => exact .inr ⟨other, rfl, rfl, Nat.le_of_lt shorter⟩
        · next longer =>
          refine .inl ⟨rfl, fun another same => ?_⟩
          rw [← Option.some.inj same]
          exact Nat.le_of_not_lt longer
    rcases step with ⟨kept, before⟩ | ⟨other, rfl, kept, before⟩
    · have least := start folder kept
      refine ⟨?_, List.forall_mem_cons.mpr ⟨least, longest⟩, fun other same => ?_⟩
      · left
        rcases among with inside | same
        · exact List.mem_cons_of_mem _ inside
        · rw [kept, Option.some.injEq] at same
          exact same ▸ List.mem_cons_self
      · exact Nat.le_trans (before other same) least
    · have least := start other kept
      refine ⟨?_, List.forall_mem_cons.mpr ⟨Nat.le_trans before least, longest⟩, fun another same => ?_⟩
      · exact among.imp (List.mem_cons_of_mem _) fun same => kept.symm.trans same
      · rw [← Option.some.inj same]
        exact least

end Longest

/-- Of two different folders, one inside the other, the inner one is longer. -/
theorem byteLength_lt_of_covers {outer inner : Text} (absolute : isAbsolute inner)
    (covered : covers outer inner) (other : outer ≠ inner) :
    Text.byteLength outer < Text.byteLength inner := by
  by_cases root : outer = [separator]
  · obtain ⟨rest, rfl⟩ := isAbsolute_iff.mp absolute
    have filled : rest ≠ [] := by
      rintro rfl
      exact other root
    have more := Text.byteLength_pos filled
    have whole := Text.byteLength_append [separator] rest
    rw [List.singleton_append] at whole
    rw [root]
    omega
  · obtain ⟨more, rfl⟩ := ((covers_iff_append_separator root).mp covered).resolve_left (Ne.symm other)
    have size := Text.byteLength_pos (List.cons_ne_nil separator [])
    rw [Text.byteLength_append, Text.byteLength_append]
    omega

theorem covers_antisymm {one two : Text} (first : IsCanonical one) (second : IsCanonical two)
    (above : covers one two) (below : covers two one) : one = two := by
  rw [covers_iff first second] at above
  rw [covers_iff second first] at below
  rw [first.spelling, second.spelling, above.eq_of_length_le below.length_le]

theorem mem_of_around? {folders : Folders} {file folder : Text}
    (found : folders.around? file = some folder) : folder ∈ folders.paths := by
  obtain ⟨among, -, -⟩ := foldl_longer_eq_some found
  exact (List.mem_filter.mp (among.resolve_right (by simp))).1

/-- The innermost folder around a file is the one that all folders around the file cover. -/
theorem around?_eq_some_iff {folders : Folders} (canonical : ∀ folder ∈ folders.paths, IsCanonical folder)
    {file folder : Text} (file_canonical : IsCanonical file) :
    folders.around? file = some folder ↔ folder ∈ folders.paths ∧ covers folder file
      ∧ ∀ other ∈ folders.paths, covers other file → covers other folder := by
  have innermost {found : Text} (result : folders.around? file = some found) :
      found ∈ folders.paths ∧ covers found file
        ∧ ∀ other ∈ folders.paths, covers other file → covers other found := by
    rw [around?, slashed_of_not_mem file_canonical.noBackslash] at result
    obtain ⟨among, longest, -⟩ := foldl_longer_eq_some result
    obtain ⟨member, covered⟩ := List.mem_filter.mp (among.resolve_right (by simp))
    refine ⟨member, covered, fun other among' above => ?_⟩
    have short := longest other (List.mem_filter.mpr ⟨among', above⟩)
    have one := canonical other among'
    have two := canonical found member
    -- Both lie above the file, so one of them lies above the other.
    rcases List.prefix_or_prefix_of_prefix ((covers_iff one file_canonical).mp above)
      ((covers_iff two file_canonical).mp covered) with outer | inner
    · exact (covers_iff one two).mpr outer
    · have below := (covers_iff two one).mpr inner
      by_cases same : found = other
      · exact same ▸ covers_refl two
      · exact absurd (byteLength_lt_of_covers one.isAbsolute below same) (Nat.not_lt.mpr short)
  refine ⟨innermost, ?_⟩
  rintro ⟨member, covered, last⟩
  have some := (isSome_around?_iff file_canonical.noBackslash).mpr ⟨folder, member, covered⟩
  obtain ⟨found, result⟩ := Option.isSome_iff_exists.mp some
  obtain ⟨among, covered', last'⟩ := innermost result
  rw [result, covers_antisymm (canonical found among) (canonical folder member)
    (last found among covered') (last' folder member covered)]

/-- A normal path lies where its location lies, with or without a separator at the end. -/
theorem around?_of_normal {folders : Folders} (canonical : ∀ folder ∈ folders.paths, IsCanonical folder)
    {path : Text} (absolute : isAbsolute path) (normal : normalize path = path) (absent : '\\' ∉ path) :
    folders.around? path = folders.around? (spelled (location path)) := by
  rw [around?, around?, slashed_of_not_mem absent, slashed_of_not_mem (isCanonical_location absent).noBackslash]
  congr 1
  exact List.filter_congr fun other inside =>
    Bool.eq_iff_iff.mpr (covers_iff_of_normal (canonical other inside) absolute normal)

/-- A folder covers a normal path if its segments are the first ones of the path. -/
theorem covers_iff_filledSegments {folder path : Text} (canonical : IsCanonical folder)
    (absolute : isAbsolute path) (normal : normalize path = path) :
    covers folder path ↔ filledSegments folder <+: filledSegments path := by
  have above : ∀ name ∈ location folder, IsName name := fun _ => isName_of_mem_location
  have below : ∀ name ∈ location path, IsName name := fun _ => isName_of_mem_location
  have within := covers_spelled above below
  rw [← canonical.spelling] at within
  rw [covers_iff_of_normal canonical absolute normal, within, canonical.filledSegments_eq,
    filledSegments_of_normal absolute normal]

/-- Which folder is found depends on nothing but the set of the folders. -/
theorem around?_congr {folders others : Folders} (canonical : ∀ folder ∈ folders.paths, IsCanonical folder)
    (same : ∀ folder, folder ∈ others.paths ↔ folder ∈ folders.paths) {file : Text}
    (file_canonical : IsCanonical file) : others.around? file = folders.around? file := by
  have canonical' : ∀ folder ∈ others.paths, IsCanonical folder := fun folder member =>
    canonical folder ((same folder).mp member)
  refine Option.ext fun folder => ?_
  rw [around?_eq_some_iff canonical' file_canonical, around?_eq_some_iff canonical file_canonical]
  simp only [same]

/-- The innermost folder around a normal path without backslashes. There is one if the segments of some folder are
the first ones of the path. It is one of the folders, it contains the path, and every other folder that contains
the path is a proper ancestor of it. The order of the folders and their repetitions make no difference. -/
theorem around?_innermost {paths : List Text} {folders : Folders} (built : ofPaths paths = .ok folders)
    {file : Text} (absolute : isAbsolute file) (normal : normalize file = file) (absent : '\\' ∉ file) :
    ((folders.around? file).isSome ↔ ∃ folder ∈ folders.paths, filledSegments folder <+: filledSegments file)
      ∧ (∀ folder ∈ folders.paths, covers folder file ↔ filledSegments folder <+: filledSegments file)
      ∧ (∀ found, folders.around? file = some found → found ∈ folders.paths ∧ covers found file
        ∧ ∀ other ∈ folders.paths, covers other file → other = found
          ∨ filledSegments other <+: filledSegments found ∧ filledSegments other ≠ filledSegments found)
      ∧ ∀ paths' others, ofPaths paths' = .ok others →
        (∀ folder, folder ∈ others.paths ↔ folder ∈ folders.paths) →
          others.around? file = folders.around? file := by
  have canonical : ∀ folder ∈ folders.paths, IsCanonical folder := fun _ => isCanonical_of_mem_paths built
  have contained : ∀ folder ∈ folders.paths, covers folder file
      ↔ filledSegments folder <+: filledSegments file := fun folder member =>
    covers_iff_filledSegments (canonical folder member) absolute normal
  have place := isCanonical_location absent
  refine ⟨?_, contained, ?_, ?_⟩
  · rw [isSome_around?_iff absent]
    exact exists_congr fun folder => and_congr_right (contained folder)
  · intro found result
    rw [around?_of_normal canonical absolute normal absent, around?_eq_some_iff canonical place] at result
    obtain ⟨among, around, last⟩ := result
    have inner := canonical found among
    refine ⟨among, (covers_iff_of_normal inner absolute normal).mpr around, fun other member covered => ?_⟩
    have outer := canonical other member
    have above := last other member ((covers_iff_of_normal outer absolute normal).mp covered)
    rw [covers_iff outer inner] at above
    rw [outer.filledSegments_eq, inner.filledSegments_eq]
    -- Both are canonical, so folders of one location are one folder.
    by_cases equal : location other = location found
    · left
      rw [outer.spelling, inner.spelling, equal]
    · exact .inr ⟨above, equal⟩
  · intro paths' others built' same
    rw [around?_of_normal canonical absolute normal absent,
      around?_of_normal (fun folder => isCanonical_of_mem_paths built') absolute normal absent,
      around?_congr canonical same place]

/-- Nested folders, one of them twice, with the root and with a folder whose name only starts alike. -/
theorem around?_innermost_nested :
    let folders : Folders := ⟨["/a/b".toList, "/".toList, "/a".toList, "/a/b".toList, "/a/bc".toList]⟩
    let others : Folders := ⟨["/a/bc".toList, "/a".toList, "/a/b".toList, "/".toList]⟩
    ofPaths ["/a/b/".toList, "/".toList, "\\a".toList, "/a/./b".toList, "/a/bc".toList] = .ok folders
      ∧ (folders.around? "/a/b/c/".toList).isSome
      ∧ folders.around? "/a/b/c/".toList = some "/a/b".toList
      ∧ covers "/a/b".toList "/a/b/c/".toList
      ∧ filledSegments "/a".toList ≠ filledSegments "/a/b".toList
      ∧ others.around? "/a/b/c/".toList = some "/a/b".toList := by
  have built : ofPaths ["/a/b/".toList, "/".toList, "\\a".toList, "/a/./b".toList, "/a/bc".toList]
      = .ok ⟨["/a/b".toList, "/".toList, "/a".toList, "/a/b".toList, "/a/bc".toList]⟩ := by decide +kernel
  have built' : ofPaths ["/a/bc".toList, "/a".toList, "/a/b".toList, "/".toList]
      = .ok ⟨["/a/bc".toList, "/a".toList, "/a/b".toList, "/".toList]⟩ := by decide +kernel
  obtain ⟨some, -, found, order⟩ := around?_innermost built
    (by decide +kernel : isAbsolute "/a/b/c/".toList) (by decide +kernel) (by decide)
  have inner : around? ⟨["/a/b".toList, "/".toList, "/a".toList, "/a/b".toList, "/a/bc".toList]⟩
      "/a/b/c/".toList = .some "/a/b".toList := by decide +kernel
  obtain ⟨-, covered, outer⟩ := found _ inner
  have proper := (outer "/a".toList (by decide) (by decide +kernel)).resolve_left (by decide)
  refine ⟨built, some.mpr ⟨"/a/b".toList, by decide, by decide +kernel⟩, inner, covered, proper.2, ?_⟩
  have same : ∀ folder, folder ∈ ["/a/bc".toList, "/a".toList, "/a/b".toList, "/".toList]
      ↔ folder ∈ ["/a/b".toList, "/".toList, "/a".toList, "/a/b".toList, "/a/bc".toList] := by
    simp only [List.mem_cons, List.not_mem_nil, or_false]
    tauto
  rw [order _ _ built' same, inner]

end Folders

end RootedGlob
