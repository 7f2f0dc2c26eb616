import RootedGlob.Proofs.Anchoring.Layout
import RootedGlob.Proofs.Path.Joining
import RootedGlob.Proofs.PatternList.Seams
import RootedGlob.Scope

/-!
# Blank fields

A field of a search panel holds no pattern if it consists of commas and blanks (`IsVacant`). Only then are there no
tokens in it (`tokens_eq_nil_iff`). Every token becomes part of the combined glob, and no join is empty, so the
combined glob is empty in this case and in no other (`anchor_eq_nil_iff`), whatever the folders are. A search can
therefore take an empty glob as a sign that there is no pattern.
-/

namespace RootedGlob.PatternList

/-- Nothing but commas and blanks. -/
def IsVacant (list : Text) : Prop := ∀ c ∈ list, c = ',' ∨ Text.isBlank c

instance (list : Text) : Decidable (IsVacant list) := List.decidableBAll _ list

/-- A blank in front of a list, or a comma, adds no token. -/
theorem tokens_cons_of_vacant {c : Char} (vacant : c = ',' ∨ Text.isBlank c) (list : Text) :
    tokens (c :: list) = tokens list := by
  rcases vacant with rfl | blank
  · have cut := @tokens_append_comma [] rfl list
    rwa [tokens_nil, List.nil_append, List.nil_append] at cut
  · exact tokens_blank_append (List.forall_mem_singleton.mpr blank) list

/-- Any other character in front of a list belongs to a token. -/
theorem tokens_cons_ne_nil {c : Char} (solid : ¬ (c = ',' ∨ Text.isBlank c)) (list : Text) :
    tokens (c :: list) ≠ [] := by
  rw [not_or] at solid
  have together : Scan.separates {} c = false := by simp [Scan.separates, solid.1]
  have found : cut {} (c :: list) = (c :: (cut (Scan.pass {} c) list).1, (cut (Scan.pass {} c) list).2) := by
    rw [cut, together]
    rfl
  have filled : Text.isBlankText (c :: (cut (Scan.pass {} c) list).1) = false :=
    isBlankText_of_mem List.mem_cons_self solid.2
  rw [tokens_eq_patterns, patterns_of_cut found, filled]
  exact List.cons_ne_nil _ _

theorem tokens_eq_nil_iff {list : Text} : tokens list = [] ↔ IsVacant list := by
  induction list with
  | nil => exact iff_of_true tokens_nil fun c member => absurd member (List.not_mem_nil)
  | cons c list ih =>
    rw [IsVacant, List.forall_mem_cons]
    by_cases vacant : c = ',' ∨ Text.isBlank c
    · rw [tokens_cons_of_vacant vacant, ih, and_iff_right vacant, IsVacant]
    · exact iff_of_false (tokens_cons_ne_nil vacant list) fun whole => vacant whole.1

end RootedGlob.PatternList

namespace RootedGlob.Anchoring

open RootedGlob.Path Brace PatternList

variable {folders tokens : List Text}

theorem alternatives_eq_nil_iff : (Plan.ofTokens folders tokens).alternatives folders = [] ↔ tokens = [] := by
  refine ⟨fun empty => ?_, fun none => by rw [none]; rfl⟩
  rw [Plan.alternatives, ofTokens_eq, List.append_eq_nil_iff, List.append_eq_nil_iff] at empty
  obtain ⟨⟨noAbsolute, noInside⟩, noEverywhere⟩ := empty
  -- A token of any class leaves an alternative: itself, that of its folder, or that of all folders.
  rw [List.eq_nil_iff_forall_not_mem]
  intro token member
  by_cases absolute : isAbsolute token
  · exact List.ne_nil_of_mem (List.mem_filter.mpr ⟨member, absolute⟩) noAbsolute
  · cases found : home? folders token with
    | some folder =>
      have mention : folder ∈ mentioned folders tokens := mem_mentioned.mpr ⟨token, member, found⟩
      rw [List.map_map, List.map_eq_nil_iff] at noInside
      exact List.ne_nil_of_mem mention noInside
    | none =>
      have among : token ∈ tokens.filter (isGeneral folders) :=
        List.mem_filter.mpr ⟨member, isGeneral_iff.mpr ⟨by simpa using absolute, found⟩⟩
      have some : (tokens.filter (isGeneral folders)).map spread ≠ [] := by
        simpa using List.ne_nil_of_mem among
      rw [if_neg some] at noEverywhere
      cases noEverywhere

theorem alternatives_filled (filled : ∀ token ∈ tokens, token ≠ []) :
    ∀ pattern ∈ (Plan.ofTokens folders tokens).alternatives folders, pattern ≠ [] := by
  rw [Plan.alternatives, ofTokens_eq]
  intro pattern member
  rcases List.mem_append.mp member with member | member
  · rcases List.mem_append.mp member with absolute | inside
    · exact filled pattern (List.mem_of_mem_filter absolute)
    · obtain ⟨group, -, rfl⟩ := List.mem_map.mp inside
      exact join_ne_nil _
  · split at member
    · cases member
    · rw [List.mem_singleton.mp member]
      exact join_ne_nil _

/-- The combined glob is empty exactly if there is no pattern in the list. -/
theorem anchor_eq_nil_iff (folders : List Text) (list : Text) : anchor folders list = [] ↔ IsVacant list := by
  rw [← tokens_eq_nil_iff, ← @alternatives_eq_nil_iff folders, anchor]
  constructor
  · intro empty
    by_contra some
    exact alternation_ne_nil some (alternatives_filled fun token member => (piece_of_mem_tokens member).2) empty
  · intro none
    rw [none]
    rfl

end RootedGlob.Anchoring

namespace RootedGlob.Scope

open PatternList Anchoring

variable {folders : Folders}

theorem anchored?_eq_none_iff {field : Option Text} :
    anchored? folders field = none ↔ field = none ∨ ∃ list, field = some list ∧ IsVacant list := by
  cases field with
  | none => exact iff_of_true rfl (.inl rfl)
  | some list => simp [anchored?, anchor_eq_nil_iff]

theorem anchored?_of_not_isVacant {list : Text} (filled : ¬ IsVacant list) :
    anchored? folders (some list) = some (anchor folders.paths list) := by
  simp [anchored?, anchor_eq_nil_iff, filled]

theorem ne_nil_of_anchored? {field : Option Text} {glob : Text} (found : anchored? folders field = some glob) :
    glob ≠ [] := by
  simpa using (Option.filter_eq_some_iff.mp found).2

/-- Without a pattern, every folder is searched, and folders have names. -/
theorem included_ne_nil {paths : List Text} (built : Folders.ofPaths paths = .ok folders)
    (nonempty : folders.paths ≠ []) (included excluded : Option Text) :
    (ofFields folders included excluded).included ≠ [] := by
  rw [ofFields]
  cases found : anchored? folders included with
  | some glob => exact ne_nil_of_anchored? found
  | none =>
    refine Brace.alternation_ne_nil nonempty fun folder member => ?_
    obtain ⟨rest, same⟩ := Path.isAbsolute_iff.mp (Folders.isCanonical_of_mem_paths built member).isAbsolute
    rw [same]
    exact List.cons_ne_nil _ _

/-- Fields of commas and blanks, and only they, hold no pattern. Any other include is anchored at the folders. -/
theorem ofQuery_vacant :
    (∀ folders list, anchor folders list = [] ↔ IsVacant list)
      ∧ ∀ paths folders query, Folders.ofPaths paths = .ok folders → folders.paths ≠ [] →
        (∃ text, query.find = some text ∧ ∃ c ∈ text, ¬ Text.isBlank c) →
        ∃ scope, Resolution.ofQuery folders query = .ready scope
          ∧ (scope.excluded = none
            ↔ query.excluded = none ∨ ∃ list, query.excluded = some list ∧ IsVacant list)
          ∧ (∀ glob, scope.excluded = some glob → glob ≠ [])
          ∧ scope.included ≠ []
          ∧ (∀ list, query.included = some list → IsVacant list →
            Resolution.ofQuery folders { query with included := none } = .ready scope)
          ∧ (∀ list, query.excluded = some list → IsVacant list →
            Resolution.ofQuery folders { query with excluded := none } = .ready scope)
          ∧ ∀ list, query.included = some list → ¬ IsVacant list →
            scope.included = anchor folders.paths list := by
  refine ⟨anchor_eq_nil_iff, fun paths folders query built nonempty ⟨text, asked, c, member, solid⟩ => ?_⟩
  have ready (other : Query) (same : other.find = query.find) :
      Resolution.ofQuery folders other = .ready (ofFields folders other.included other.excluded) := by
    rw [Resolution.ofQuery, same, asked]
    simp [Folders.isEmpty, nonempty, Resolution.isBlankField, isBlankText_of_mem member solid]
  have blank {field : Option Text} {list : Text} (typed : field = some list) (vacant : IsVacant list) :
      anchored? folders field = anchored? folders none :=
    anchored?_eq_none_iff.mpr (.inr ⟨list, typed, vacant⟩)
  refine ⟨_, ready query rfl, anchored?_eq_none_iff, fun glob => ne_nil_of_anchored?,
    included_ne_nil built nonempty _ _, fun list typed vacant => ?_, fun list typed vacant => ?_,
    fun list typed filled => ?_⟩
  · rw [ready { query with included := none } rfl, ofFields, ofFields, blank typed vacant]
  · rw [ready { query with excluded := none } rfl, ofFields, ofFields, blank typed vacant]
  · rw [ofFields, typed, anchored?_of_not_isVacant filled, Option.getD_some]

/-- Commas and blanks of several kinds in both fields, and a folder that is the root. -/
theorem ofQuery_vacant_spaces :
    let folders : Folders := ⟨["/".toList, "/a".toList]⟩
    let query : Query := { find := some "x".toList, included := some [',', '\u3000', ','], excluded := some "\t, ".toList }
    Folders.ofPaths ["/".toList, "/a".toList] = .ok folders ∧ folders.paths ≠ []
      ∧ (∃ text, query.find = some text ∧ ∃ c ∈ text, ¬ Text.isBlank c)
      ∧ IsVacant [',', '\u3000', ',']
      ∧ anchor ["".toList, "..".toList] [',', '\u3000', ','] = []
      ∧ anchor ["".toList, "..".toList] "a/..".toList ≠ []
      ∧ Resolution.ofQuery folders query = .ready ⟨"\x7b/,/a\x7d".toList, none⟩
      ∧ Resolution.ofQuery folders { query with included := none } = Resolution.ofQuery folders query
      ∧ Resolution.ofQuery folders { query with included := some ", a/b,/c".toList }
        = .ready ⟨"\x7b/c,/a/b\x7d".toList, none⟩ := by
  intro folders query
  have built : Folders.ofPaths ["/".toList, "/a".toList] = .ok folders := by decide +kernel
  have nonempty : folders.paths ≠ [] := by decide
  have asked : ∃ text, query.find = some text ∧ ∃ c ∈ text, ¬ Text.isBlank c := ⟨_, rfl, 'x', by decide, by decide⟩
  have vacant : IsVacant [',', '\u3000', ','] := by decide
  obtain ⟨empty, searched⟩ := ofQuery_vacant
  obtain ⟨scope, ready, -, -, -, without, -⟩ := searched _ _ query built nonempty asked
  refine ⟨built, nonempty, asked, vacant, (empty _ _).mpr vacant, mt (empty _ _).mp (by decide),
    by decide +kernel, ?_, by decide +kernel⟩
  rw [ready, without _ rfl vacant]

end RootedGlob.Scope
