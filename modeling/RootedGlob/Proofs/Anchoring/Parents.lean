import RootedGlob.Path.Ancestors
import RootedGlob.Proofs.Anchoring.Inert
import RootedGlob.Proofs.Path.Ancestors

/-!
# Parent segments in an anchored list

A token may lead out of its folder by `..`. If it names a folder, it is meant to be read from the
parent of that folder, otherwise from every folder (`joins`). Anchoring normalizes folders and tokens
when they already stand in groups. As long as no `..` climbs over a segment that holds a mark of such
a group (`StaysInside`), the combined glob expands to the joins one by one
(`expand_of_staysInside`).
-/

namespace RootedGlob.Anchoring

open RootedGlob.Path Brace Glob PatternList

/-- What the tokens of a list ask for: those that belong to a folder, joined with the parent of this
folder, and the general ones, joined with every folder. -/
def joins (folders tokens : List Text) : List Text :=
  (mentioned folders tokens).flatMap (fun folder =>
      (naming folders tokens folder).map fun token =>
        dropTrailingSeparator (join [(parent? folder).getD [], token]))
    ++ folders.flatMap fun folder =>
      (tokens.filter (isGeneral folders)).map fun token =>
        dropTrailingSeparator (join [folder, token])

/-- No `..` climbs over a mark. Tokens of one folder share a group as soon as there are two of them,
and so do the general tokens; a single general token for several folders stands behind the group of
these folders. -/
structure StaysInside (folders tokens : List Text) : Prop where
  named : ∀ folder ∈ mentioned folders tokens, 2 ≤ (naming folders tokens folder).length →
    ∀ token ∈ naming folders tokens folder, climbs 0 (interior (inside token)) = false
  shared : 2 ≤ (tokens.filter (isGeneral folders)).length →
    ∀ token ∈ tokens.filter (isGeneral folders), climbs 0 (interior token) = false
  single : 2 ≤ folders.length → (tokens.filter (isGeneral folders)).length = 1 →
    ∀ token ∈ tokens.filter (isGeneral folders), climbs 0 (segments token) = false

instance (folders tokens : List Text) : Decidable (StaysInside folders tokens) :=
  decidable_of_iff ((∀ folder ∈ mentioned folders tokens,
      2 ≤ (naming folders tokens folder).length →
        ∀ token ∈ naming folders tokens folder, climbs 0 (interior (inside token)) = false)
    ∧ (2 ≤ (tokens.filter (isGeneral folders)).length →
        ∀ token ∈ tokens.filter (isGeneral folders), climbs 0 (interior token) = false)
    ∧ (2 ≤ folders.length → (tokens.filter (isGeneral folders)).length = 1 →
        ∀ token ∈ tokens.filter (isGeneral folders), climbs 0 (segments token) = false))
    ⟨fun ⟨named, shared, single⟩ => ⟨named, shared, single⟩,
      fun ⟨named, shared, single⟩ => ⟨named, shared, single⟩⟩

/-- A token that names a folder or starts with a dot, without anything that patterns read. -/
structure IsPlaced (folders : List Text) (token : Text) : Prop where
  filled : token ≠ []
  inert : IsInert token
  placed : (home? folders token).isSome ∨ token.head? = some '.'

instance (folders : List Text) (token : Text) : Decidable (IsPlaced folders token) :=
  decidable_of_iff
    (token ≠ [] ∧ IsInert token ∧ ((home? folders token).isSome ∨ token.head? = some '.'))
    ⟨fun ⟨filled, inert, placed⟩ => ⟨filled, inert, placed⟩,
      fun ⟨filled, inert, placed⟩ => ⟨filled, inert, placed⟩⟩

namespace IsPlaced

variable {folders : List Text} {token : Text}

theorem relative (placed : IsPlaced folders token) : isAbsolute token = false := by
  rcases placed.placed with named | dotted
  · obtain ⟨folder, found⟩ := Option.isSome_iff_exists.mp named
    exact (mem_of_home? found).2.1
  · rw [isAbsolute, dotted]
    decide

theorem isGeneral_of_home? (placed : IsPlaced folders token) (unnamed : home? folders token = none) :
    isGeneral folders token :=
  isGeneral_iff.mpr ⟨placed.relative, unnamed⟩

theorem spread_eq (placed : IsPlaced folders token) (general : isGeneral folders token) :
    spread token = token := by
  have unnamed := (isGeneral_iff.mp general).2
  rcases placed.placed with named | dotted
  · rw [unnamed] at named
    cases named
  · rw [spread, if_pos dotted]

end IsPlaced

section Joins

variable {folders tokens : List Text}

theorem filter_isAbsolute_of_placed (placed : ∀ token ∈ tokens, IsPlaced folders token) :
    tokens.filter isAbsolute = [] := by
  rw [List.filter_eq_nil_iff]
  intro token member
  rw [(placed token member).relative]
  decide

theorem map_spread_of_placed (placed : ∀ token ∈ tokens, IsPlaced folders token) :
    (tokens.filter (isGeneral folders)).map spread = tokens.filter (isGeneral folders) := by
  have kept : ∀ token ∈ tokens.filter (isGeneral folders), spread token = id token := by
    intro token member
    obtain ⟨among, general⟩ := List.mem_filter.mp member
    exact (placed token among).spread_eq general
  rw [List.map_congr_left kept, List.map_id]

theorem isInert_of_mem_naming (placed : ∀ token ∈ tokens, IsPlaced folders token) (folder : Text) :
    ∀ pattern ∈ (naming folders tokens folder).map inside, IsInert pattern := by
  intro pattern member
  obtain ⟨token, among, rfl⟩ := List.mem_map.mp member
  exact isInert_inside (placed token (mem_naming.mp among).1).inert

theorem isInert_of_mem_general (placed : ∀ token ∈ tokens, IsPlaced folders token) :
    ∀ token ∈ tokens.filter (isGeneral folders), IsInert token ∧ token ≠ [] := by
  intro token member
  have found := placed token (List.mem_filter.mp member).1
  exact ⟨found.inert, found.filled⟩

/-- Every join renders its folders and patterns if nothing climbs over a mark. -/
theorem placeable_of_staysInside (nonempty : folders ≠ [])
    (inert : ∀ folder ∈ folders, IsInertFolder folder)
    (placed : ∀ token ∈ tokens, IsPlaced folders token) (stays : StaysInside folders tokens) :
    Placeable folders tokens := by
  constructor
  · intro token member absolute
    rw [(placed token member).relative] at absolute
    cases absolute
  · exact fun token member _ => (isInert_inside (placed token member).inert).flat.whole
  · intro token member general
    rw [(placed token member).spread_eq general]
    exact (placed token member).inert.flat.whole
  · intro folder mention
    apply renders_join_group (inert folder (mem_of_mem_mentioned mention))
    · simpa using naming_ne_nil mention
    · exact isInert_of_mem_naming placed folder
    · intro several pattern member
      obtain ⟨token, among, rfl⟩ := List.mem_map.mp member
      exact stays.named folder mention (by simpa using several) token among
  · intro others
    rw [map_spread_of_placed placed]
    have behind := isInert_of_mem_general placed
    by_cases several : 2 ≤ folders.length
    · apply renders_join_groups several inert others behind
      · intro token alone
        exact stays.single several (by rw [alone]; rfl) token (by rw [alone]; simp)
      · exact stays.shared
    · match folders, nonempty with
      | [folder], _ =>
        exact renders_join_group (inert folder List.mem_cons_self) others
          (fun token member => (behind token member).1) stays.shared
      | _ :: _ :: _, _ => simp at several

/-- A token behind the name of its folder leads where it leads from the parent of the folder. -/
theorem location_inside {folder token : Text} (canonical : IsCanonical folder) (filled : token ≠ [])
    (found : home? folders token = some folder) :
    ∃ parent, parent? folder = some parent
      ∧ dropTrailingSeparator (join [parent, token])
        = spelled (location (folder ++ separator :: inside token)) := by
  obtain ⟨-, relative, named⟩ := mem_of_home? found
  obtain ⟨names, proper, same⟩ := canonical.names
  rw [same, basename_spelled proper] at named
  have first : firstSegment token ≠ [] := by
    obtain ⟨c, rest, rfl⟩ := List.exists_cons_of_ne_nil filled
    have other : c ≠ separator := by simpa [isAbsolute] using relative
    simp [firstSegment, other]
  -- The root has no name that a token could begin with.
  rcases List.eq_nil_or_concat names with rfl | ⟨front, last, rfl⟩
  · exact absurd named.symm first
  · rw [List.concat_eq_append] at proper same named
    have last_eq : firstSegment token = last := by simpa using named.symm
    have before : ∀ name ∈ front, IsName name := fun name member =>
      proper name (List.mem_append_left _ member)
    refine ⟨spelled front, by rw [same, parent?_spelled proper], ?_⟩
    have absolute := isAbsolute_append (isAbsolute_spelled front) (separator :: token)
    -- The walk behind the folder starts one name deeper than the walk behind its parent.
    have behind : stand (spelled (front ++ [last])) = last :: stand (spelled front) := by
      have one := congrArg List.reverse (location_spelled proper)
      have two := congrArg List.reverse (location_spelled before)
      simp only [location, List.reverse_reverse] at one two
      rw [one, two, List.reverse_append]
      rfl
    rw [join_pair (by simp [spelled]), if_neg filled, dropTrailingSeparator_normalize absolute, same,
      location, location, stand_append, stand_append, behind, inside, last_eq,
      foldl_relative _ (proper last (by simp)) relative]

/-- The joins are where the tokens of a list lead, one by one. -/
theorem joins_eq (inert : ∀ folder ∈ folders, IsInertFolder folder)
    (placed : ∀ token ∈ tokens, IsPlaced folders token) :
    joins folders tokens
      = (layout folders tokens inside spread).map fun part => spelled (location part) := by
  rw [joins, layout, filter_isAbsolute_of_placed placed, List.nil_append, List.map_append,
    List.map_flatMap, List.map_flatMap]
  congr 1
  · refine List.flatMap_congr fun folder mention => ?_
    rw [List.map_map]
    refine List.map_congr_left fun token member => ?_
    obtain ⟨among, found⟩ := mem_naming.mp member
    obtain ⟨parent, above, same⟩ := location_inside
      (inert folder (mem_of_mem_mentioned mention)).canonical (placed token among).filled found
    rw [above, Option.getD_some, same]
    rfl
  · refine List.flatMap_congr fun folder member => ?_
    rw [List.map_map]
    refine List.map_congr_left fun token inner => ?_
    obtain ⟨among, general⟩ := List.mem_filter.mp inner
    have canonical := (inert folder member).canonical
    rw [Function.comp_apply, (placed token among).spread_eq general,
      join_pair (inert folder member).plain.nonempty, if_neg (placed token among).filled,
      dropTrailingSeparator_normalize (isAbsolute_append canonical.isAbsolute _)]

theorem length_mentioned_le_folders : (mentioned folders tokens).length ≤ folders.length :=
  (nodup_eraseDups _).length_le_of_subset fun _ mention => mem_of_mem_mentioned mention

theorem length_mentioned_le_tokens : (mentioned folders tokens).length ≤ tokens.length := by
  have named : (tokens.filterMap (home? folders)).length ≤ tokens.length :=
    List.length_filterMap_le _ _
  refine Nat.le_trans ((nodup_eraseDups _).length_le_of_subset fun folder member => ?_) named
  exact List.mem_eraseDups.mp member

theorem length_joins : (joins folders tokens).length
    = ((mentioned folders tokens).map fun folder => (naming folders tokens folder).length).sum
      + folders.length * (tokens.filter (isGeneral folders)).length := by
  simp [joins, List.length_flatMap]

/-- Every token is joined with one folder, or once with every folder. -/
theorem length_joins_le : (joins folders tokens).length ≤ folders.length * tokens.length := by
  -- A token names one folder or none, so the two kinds share the tokens between them.
  let named := tokens.filter fun token => (home? folders token).isSome
  have each : ∀ folder ∈ mentioned folders tokens,
      (naming folders tokens folder).length ≤ named.length := by
    intro folder _
    apply List.Sublist.length_le
    apply List.monotone_filter_right
    intro token found
    rw [beq_iff_eq] at found
    rw [found]
    rfl
  have one : ((mentioned folders tokens).map fun folder => (naming folders tokens folder).length).sum
      ≤ folders.length * named.length := by
    have few := List.sum_le_card_nsmul _ _ (List.forall_mem_map.mpr each)
    rw [List.length_map, Nat.nsmul_eq_mul] at few
    exact Nat.le_trans few (Nat.mul_le_mul_right _ length_mentioned_le_folders)
  have two : named.length + (tokens.filter (isGeneral folders)).length ≤ tokens.length := by
    have others : (tokens.filter (isGeneral folders)).length
        ≤ (tokens.filter fun token => !(home? folders token).isSome).length := by
      apply List.Sublist.length_le
      apply List.monotone_filter_right
      intro token general
      simp [(isGeneral_iff.mp general).2]
    rw [tokens.length_eq_length_filter_add fun token => (home? folders token).isSome]
    exact Nat.add_le_add_left others _
  have product := Nat.mul_le_mul_left folders.length two
  rw [Nat.mul_add] at product
  rw [length_joins]
  omega

theorem alternatives_of_placed (placed : ∀ token ∈ tokens, IsPlaced folders token) :
    (Plan.ofTokens folders tokens).alternatives folders
      = (mentioned folders tokens).map (fun folder =>
          join [folder, alternation ((naming folders tokens folder).map inside)])
        ++ if tokens.filter (isGeneral folders) = [] then []
          else [join [alternation folders, alternation (tokens.filter (isGeneral folders))]] := by
  rw [ofTokens_eq, Plan.alternatives, filter_isAbsolute_of_placed placed,
    map_spread_of_placed placed]
  simp [Function.comp_def]

/-- The groups of an anchored list are few: one for each folder that several tokens name, two for the
tokens for every folder, and the outermost one. -/
theorem countGroups_anchor_le (nonempty : folders ≠ []) (placeable : Placeable folders tokens)
    (inert : ∀ folder ∈ folders, IsInertFolder folder)
    (placed : ∀ token ∈ tokens, IsPlaced folders token) :
    countGroups (alternation ((Plan.ofTokens folders tokens).alternatives folders))
      ≤ (mentioned folders tokens).length + 3 := by
  have comprise := comprise_alternatives nonempty
    (fun folder member => (inert folder member).plain) placeable
  rw [countGroups_alternation comprise.wholes, alternatives_of_placed placed, List.map_append,
    List.sum_append]
  -- A named folder is no group, and its tokens are at most one.
  have insides : ((mentioned folders tokens).map fun folder =>
      countGroups (join [folder, alternation ((naming folders tokens folder).map inside)])).sum
        ≤ (mentioned folders tokens).length := by
    have each : ∀ folder ∈ mentioned folders tokens,
        countGroups (join [folder, alternation ((naming folders tokens folder).map inside)]) ≤ 1 := by
      intro folder mention
      have single : ∀ other ∈ [folder], IsInert other := by
        simpa using (inert folder (mem_of_mem_mentioned mention)).inert
      have filled : (naming folders tokens folder).map inside ≠ [] := by
        simpa using naming_ne_nil mention
      have pair := countGroups_pair (List.cons_ne_nil folder []) single filled
        (isInert_of_mem_naming placed folder)
      rw [alternation] at pair
      rw [(placeable.joinsInside folder mention).groups, pair, if_neg (by simp), Nat.zero_add]
      split <;> decide
    simpa using List.sum_le_card_nsmul _ 1 (List.forall_mem_map.mpr each)
  -- The folders are one group and the tokens another one.
  have spreads : ((if tokens.filter (isGeneral folders) = [] then []
      else [join [alternation folders, alternation (tokens.filter (isGeneral folders))]]).map
        countGroups).sum ≤ 2 := by
    split
    · simp
    · next others =>
      have renders := placeable.joinsSpread others
      rw [map_spread_of_placed placed] at renders
      have patterns : ∀ token ∈ tokens.filter (isGeneral folders), IsInert token :=
        fun token member => (isInert_of_mem_general placed token member).1
      rw [List.map_singleton, List.sum_singleton, renders.groups,
        countGroups_pair nonempty (fun folder member => (inert folder member).inert) others patterns]
      split <;> split <;> omega
  rw [List.map_map, Function.comp_def]
  have outermost (count : Nat) : (if 2 ≤ count then 1 else 0) ≤ 1 := by split <;> decide
  apply Nat.le_trans (Nat.add_le_add (Nat.add_le_add insides spreads) (outermost _))
  exact Nat.le_refl _

theorem alternatives_ne_nil (filled : tokens ≠ []) (placed : ∀ token ∈ tokens, IsPlaced folders token) :
    (Plan.ofTokens folders tokens).alternatives folders ≠ [] := by
  obtain ⟨token, member⟩ := List.exists_mem_of_ne_nil _ filled
  rw [alternatives_of_placed placed]
  cases found : home? folders token with
  | some folder =>
    have mention : mentioned folders tokens ≠ [] :=
      List.ne_nil_of_mem (mem_mentioned.mpr ⟨token, member, found⟩)
    simp [mention]
  | none =>
    have general := (placed token member).isGeneral_of_home? found
    have others : tokens.filter (isGeneral folders) ≠ [] :=
      List.ne_nil_of_mem (List.mem_filter.mpr ⟨member, general⟩)
    simp only [if_neg others]
    simp

theorem isInert_of_mem_layout (inert : ∀ folder ∈ folders, IsInertFolder folder)
    (placed : ∀ token ∈ tokens, IsPlaced folders token) :
    ∀ part ∈ layout folders tokens inside spread, IsInert part := by
  intro part member
  rw [layout, filter_isAbsolute_of_placed placed, List.nil_append] at member
  rcases List.mem_append.mp member with member | member
  · obtain ⟨folder, mention, inner⟩ := List.mem_flatMap.mp member
    obtain ⟨token, among, rfl⟩ := List.mem_map.mp inner
    apply (inert folder (mem_of_mem_mentioned mention)).inert.append
    exact (isInert_inside (placed token (mem_naming.mp among).1).inert).separated
  · obtain ⟨folder, found, inner⟩ := List.mem_flatMap.mp member
    obtain ⟨token, among, rfl⟩ := List.mem_map.mp inner
    obtain ⟨member, general⟩ := List.mem_filter.mp among
    rw [(placed token member).spread_eq general]
    exact (inert folder found).inert.append (placed token member).inert.separated

/-- If nothing climbs over a mark, the combined glob expands to the joins one by one, and compiles. -/
theorem expand_of_staysInside (nonempty : folders ≠ [])
    (inert : ∀ folder ∈ folders, IsInertFolder folder) (filled : tokens ≠ [])
    (placed : ∀ token ∈ tokens, IsPlaced folders token)
    (room : folders.length * tokens.length ≤ maxExpansions) (stays : StaysInside folders tokens) :
    ∃ texts, expand (alternation ((Plan.ofTokens folders tokens).alternatives folders)) = .ok texts
      ∧ (∀ text ∈ texts, isAbsolute text ∧ Compiles text)
      ∧ texts.map plainText = joins folders tokens := by
  have placeable := placeable_of_staysInside nonempty inert placed stays
  have comprise := comprise_alternatives nonempty
    (fun folder member => (inert folder member).plain) placeable
  have flats := isInert_of_mem_layout inert placed
  obtain ⟨whole, found⟩ :=
    denoted_alternation_of_isWhole (alternatives_ne_nil filled placed) comprise.wholes
  -- The parts are flat, so each of them denotes itself.
  have parts : (layout folders tokens inside spread).flatMap (fun part => denoted (lex part))
      = layout folders tokens inside spread := by
    rw [List.flatMap_congr fun part member => denoted_of_isFlat (flats part member).flat]
    exact List.flatMap_singleton' _
  have places : List.Forall₂ SamePlace
      (denoted (lex (alternation ((Plan.ofTokens folders tokens).alternatives folders))))
      (layout folders tokens inside spread) := by
    have related := comprise.places
    rw [parts] at related
    rw [found]
    exact related
  -- A text and the part at the same place have the same plain text, the spelling of their location.
  have plain {text part : Text} (member : part ∈ layout folders tokens inside spread)
      (same : SamePlace text part) :
      plainText text = spelled (location part) ∧ IsInert (spelled (location part)) := by
    have literal := (flats part member).spelled_location
    rw [plainText_of_isAbsolute same.absolute, location, same.place, ← location, literal.unescaped]
    exact ⟨rfl, literal⟩
  have each : ∀ text ∈ denoted (lex (alternation ((Plan.ofTokens folders tokens).alternatives
      folders))), isAbsolute text ∧ Compiles text := by
    intro text member
    obtain ⟨part, among, same⟩ := exists_of_forall₂ places.flip member
    obtain ⟨text_eq, literal⟩ := plain among same
    exact ⟨same.absolute, _, by rw [text_eq]; exact compile_of_isVerbatim literal.verbatim⟩
  have all : (denoted (lex (alternation ((Plan.ofTokens folders tokens).alternatives folders)))).map
      plainText = joins folders tokens := by
    rw [joins_eq inert placed, ← List.forall₂_eq_eq_eq, List.forall₂_map_left_iff,
      List.forall₂_map_right_iff]
    refine List.forall₂_iff_zip.mpr ⟨places.length_eq, fun {text part} member => ?_⟩
    exact (plain (List.of_mem_zip member).2 (List.forall₂_zip places member)).1
  refine ⟨_, expand_eq_ok_iff.mpr ⟨?_, depthAfter_of_isSealed whole.closed, ?_, rfl⟩, each, all⟩
  · -- A folder with a group is named by a token, so both lists are as long as the named folders.
    have few : (mentioned folders tokens).length * (mentioned folders tokens).length ≤ 64 * 64 :=
      Nat.le_trans (Nat.mul_le_mul length_mentioned_le_folders length_mentioned_le_tokens) room
    have bound : (mentioned folders tokens).length ≤ 64 := Nat.mul_self_le_mul_self_iff.mp few
    have groups := countGroups_anchor_le nonempty placeable inert placed
    have limit : 64 + 3 ≤ maxGroups := by decide
    omega
  · have total := congrArg List.length all
    rw [List.length_map] at total
    rw [total]
    exact Nat.le_trans length_joins_le room

end Joins

end RootedGlob.Anchoring
