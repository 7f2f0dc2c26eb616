import RootedGlob.Proofs.Anchoring.Damage
import RootedGlob.Proofs.Glob.PlainText
import RootedGlob.Proofs.PatternList.Seams

/-!
# When a combined glob selects its joins

The combined glob of a list expands to the joins of its tokens, one by one, exactly if no `..` climbs
over a mark of a group (`expandsToJoins_iff`). A climbing `..` leaves too few texts, or texts with a
stray mark, or a group that is not closed.
-/

namespace RootedGlob.Anchoring

open RootedGlob.Path Brace Glob PatternList

/-- The combined glob of a list expands to the joins of its tokens, one by one. -/
def ExpandsToJoins (folders tokens : List Text) : Prop :=
  ∃ texts, expand (anchor folders ([',', ' '].intercalate tokens)) = .ok texts
    ∧ texts.map plainText = joins folders tokens

/-- The combined glob of a list compiles, and its alternatives are the joins of its tokens. -/
def SelectsJoins (folders tokens : List Text) : Prop :=
  ∃ glob, Combined.compile (anchor folders ([',', ' '].intercalate tokens)) = .ok glob
    ∧ ∀ text, text ∈ glob.alternatives ↔ text ∈ joins folders tokens

theorem Remains.imp {count : Nat} {stays stays' : Prop} {pattern : Text}
    (remains : Remains count stays pattern) (weaker : stays → stays') :
    Remains count stays' pattern := by
  cases remains with
  | whole whole few all => exact .whole whole few fun same => weaker (all same)
  | surplus surplus => exact .surplus surplus

theorem Remains.kind {count : Nat} {stays : Prop} {pattern : Text}
    (remains : Remains count stays pattern) : IsWhole pattern ∨ IsSurplus pattern := by
  cases remains with
  | whole whole => exact .inl whole
  | surplus surplus => exact .inr surplus

section Necessity

variable {folders tokens : List Text}

theorem isInert_of_mem_joins (inert : ∀ folder ∈ folders, IsInertFolder folder)
    (placed : ∀ token ∈ tokens, IsPlaced folders token) :
    ∀ text ∈ joins folders tokens, IsInert text := by
  intro text member
  rw [joins_eq inert placed] at member
  obtain ⟨part, inside, rfl⟩ := List.mem_map.mp member
  exact (isInert_of_mem_layout inert placed part inside).spelled_location

theorem remains_named (inert : ∀ folder ∈ folders, IsInertFolder folder)
    (placed : ∀ token ∈ tokens, IsPlaced folders token) {folder : Text}
    (mention : folder ∈ mentioned folders tokens) :
    Remains (naming folders tokens folder).length
      (2 ≤ (naming folders tokens folder).length →
        ∀ token ∈ naming folders tokens folder, climbs 0 (interior (inside token)) = false)
      (join [folder, alternation ((naming folders tokens folder).map inside)]) := by
  have group := remains_group (inert folder (mem_of_mem_mentioned mention))
    (by simpa using naming_ne_nil mention : (naming folders tokens folder).map inside ≠ [])
    (isInert_of_mem_naming placed folder)
  rw [List.length_map] at group
  exact group.imp fun stays several token among =>
    stays several (inside token) (List.mem_map_of_mem among)

/-- What is left of the join of all folders with the tokens that name none. -/
theorem remains_general (nonempty : folders ≠ [])
    (inert : ∀ folder ∈ folders, IsInertFolder folder)
    (placed : ∀ token ∈ tokens, IsPlaced folders token)
    (others : tokens.filter (isGeneral folders) ≠ []) :
    Remains (folders.length * (tokens.filter (isGeneral folders)).length)
        ((2 ≤ (tokens.filter (isGeneral folders)).length →
            ∀ token ∈ tokens.filter (isGeneral folders), climbs 0 (interior token) = false)
          ∧ (2 ≤ folders.length → (tokens.filter (isGeneral folders)).length = 1 →
            ∀ token ∈ tokens.filter (isGeneral folders), climbs 0 (segments token) = false))
        (join [alternation folders, alternation (tokens.filter (isGeneral folders))])
      ∨ IsUnclosed (join [alternation folders, alternation (tokens.filter (isGeneral folders))]) := by
  have behind := isInert_of_mem_general placed
  generalize tokens.filter (isGeneral folders) = patterns at others behind
  have inerts : ∀ token ∈ patterns, IsInert token := fun token member => (behind token member).1
  -- The damage depends on how many groups there are: two, that of the folders only, or at most that of the
  -- tokens.
  by_cases several : 2 ≤ folders.length
  · by_cases many : 2 ≤ patterns.length
    · left
      refine (remains_groups several inert many inerts).imp fun stays => ⟨fun _ => stays, ?_⟩
      intro _ single
      omega
    · match patterns, others with
      | [token], _ =>
        obtain ⟨literal, filled⟩ := behind token List.mem_cons_self
        have single := remains_single several inert literal filled
        rw [List.length_singleton, Nat.mul_one]
        refine single.imp_left fun remains => remains.imp fun stays => ⟨?_, fun _ _ => ?_⟩
        · intro more
          exact absurd more (by decide)
        · simpa using stays
      | _ :: _ :: _, _ => simp at many
  · match folders, nonempty with
    | [folder], _ =>
      left
      have group := remains_group (inert folder List.mem_cons_self) others inerts
      rw [List.length_singleton, Nat.one_mul]
      exact group.imp fun stays => ⟨stays, fun more => absurd more several⟩
    | _ :: _ :: _, _ => simp at several

/-- A closing brace too many ends every text of a combined glob. -/
theorem exists_closing_of_surplus {patterns : List Text}
    (kinds : ∀ pattern ∈ patterns, IsWhole pattern ∨ IsSurplus pattern)
    (some : ∃ pattern ∈ patterns, IsSurplus pattern) :
    ∃ text ∈ denoted (lex (alternation patterns)), '}' ∈ plainText text := by
  obtain ⟨front, same, unguarded, outside⟩ := exists_alternation_eq kinds some
  obtain ⟨text, member⟩ := List.exists_mem_of_ne_nil _ (denoted_ne_nil (lex (alternation patterns)))
  refine ⟨text, member, ?_⟩
  rw [same] at member
  obtain ⟨start, rfl⟩ := exists_of_mem_denoted_closing unguarded outside member
  exact mem_plainText start (by decide) (by decide) (by decide)

theorem IsUnclosed.depthAfter {pattern : Text} (unclosed : IsUnclosed pattern) (depth : Nat) :
    depthAfter depth (lex pattern) = depth + 1 := by
  obtain ⟨count, shape⟩ := unclosed.shape
  have commas := depthAfter_commas count [] (depth + 1)
  rw [List.append_nil] at commas
  rw [← depthAfter_marks, ← marks, shape, depthAfter_cons]
  exact commas

/-- If the last pattern does not close its group and all groups are closed in the end, then some pattern
closes the group around the patterns too early. -/
theorem depthAfter_of_unclosed {patterns : List Text} {unclosed : Text}
    (kinds : ∀ pattern ∈ patterns, IsWhole pattern ∨ IsSurplus pattern)
    (last : IsUnclosed unclosed)
    (closed : depthAfter 0 (lex ('{' :: joined patterns ++ ',' :: (unclosed ++ ['}']))) = 0) :
    depthAfter 0 (lex ('{' :: joined patterns)) = 0 := by
  have inner := isUnguarded_joined (unguarded_of_kinds kinds)
  have front : IsUnguarded ('{' :: joined patterns) := isUnguarded_cons.mpr ⟨by decide, inner⟩
  have later : IsUnguarded (',' :: (unclosed ++ ['}'])) :=
    isUnguarded_cons.mpr ⟨by decide, isUnguarded_append.mpr ⟨last.unguarded, by decide⟩⟩
  by_cases some : ∃ pattern ∈ patterns, IsSurplus pattern
  · rw [lex_opening, depthAfter_cons]
    exact depthAfter_joined (Nat.le_refl 1) kinds (.inr some)
  · -- Nothing closes the outer group: it is open behind the patterns, and the last one adds its own.
    have wholes : ∀ pattern ∈ patterns, IsWhole pattern := fun pattern member =>
      (kinds pattern member).resolve_right fun surplus => some ⟨pattern, member, surplus⟩
    have open_behind : depthAfter 0 (lex ('{' :: joined patterns)) = 1 := by
      rw [lex_opening, depthAfter_cons]
      exact depthAfter_joined_of_isWhole wholes 1
    rw [lex_append front later, depthAfter_append, open_behind, lex_comma, depthAfter_cons,
      lex_append_closing last.unguarded, depthAfter_append, last.depthAfter] at closed
    cases closed

/-- If the last pattern does not close its group, the combined glob is not closed, or a comma in front
of this group is text. -/
theorem exists_comma_of_unclosed {patterns : List Text} {unclosed : Text}
    (kinds : ∀ pattern ∈ patterns, IsWhole pattern ∨ IsSurplus pattern)
    (last : IsUnclosed unclosed)
    (closed : depthAfter 0 (lex (alternation (patterns ++ [unclosed]))) = 0) :
    ∃ text ∈ denoted (lex (alternation (patterns ++ [unclosed]))), ',' ∈ plainText text := by
  by_cases nonempty : patterns = []
  · subst nonempty
    rw [List.nil_append, alternation, last.depthAfter] at closed
    cases closed
  · have several : 2 ≤ (patterns ++ [unclosed]).length := by
      have filled := List.length_pos_iff.mpr nonempty
      simp only [List.length_append, List.length_singleton]
      omega
    have inner := isUnguarded_joined (unguarded_of_kinds kinds)
    have front : IsUnguarded ('{' :: joined patterns) := isUnguarded_cons.mpr ⟨by decide, inner⟩
    have whole : alternation (patterns ++ [unclosed])
        = '{' :: joined patterns ++ ',' :: (unclosed ++ ['}']) := by
      rw [alternation_of_several several, joined_append nonempty (List.cons_ne_nil _ _)]
      simp [joined]
    rw [whole] at closed ⊢
    have outside := depthAfter_of_unclosed kinds last closed
    -- The last brace closes the group of the last pattern, and the comma before it stands outside.
    obtain ⟨count, shape⟩ := last.shape
    have ends : marks (unclosed ++ ['}'])
        = .opening :: (List.replicate count Lexeme.comma ++ [.closing]) := by
      rw [marks_closing last.unguarded, shape]
      rfl
    have group := (isWhole_of_group (isUnguarded_append.mpr ⟨last.unguarded, by decide⟩) ends).1
    obtain ⟨text, member, calm⟩ := last.calm
    obtain ⟨start, found⟩ := exists_mem_denoted_comma front outside group member
    exact ⟨_, found, mem_plainText start (by decide) (by decide) calm⟩

/-- One alternative of a combined glob, how many texts it stands for, and what keeps all of them. -/
structure Share where
  pattern : Text
  count : Nat
  stays : Prop

/-- The share of a folder that tokens name. -/
def shareOf (folders tokens : List Text) (folder : Text) : Share where
  pattern := join [folder, alternation ((naming folders tokens folder).map inside)]
  count := (naming folders tokens folder).length
  stays := 2 ≤ (naming folders tokens folder).length →
    ∀ token ∈ naming folders tokens folder, climbs 0 (interior (inside token)) = false

/-- The share of the tokens for every folder. -/
def shareOfAll (folders tokens : List Text) : Share where
  pattern := join [alternation folders, alternation (tokens.filter (isGeneral folders))]
  count := folders.length * (tokens.filter (isGeneral folders)).length
  stays := (2 ≤ (tokens.filter (isGeneral folders)).length →
      ∀ token ∈ tokens.filter (isGeneral folders), climbs 0 (interior token) = false)
    ∧ (2 ≤ folders.length → (tokens.filter (isGeneral folders)).length = 1 →
      ∀ token ∈ tokens.filter (isGeneral folders), climbs 0 (segments token) = false)

def shares (folders tokens : List Text) : List Share :=
  (mentioned folders tokens).map (shareOf folders tokens)
    ++ if tokens.filter (isGeneral folders) = [] then [] else [shareOfAll folders tokens]

theorem alternatives_eq_shares (placed : ∀ token ∈ tokens, IsPlaced folders token) :
    (Plan.ofTokens folders tokens).alternatives folders
      = (shares folders tokens).map Share.pattern := by
  rw [alternatives_of_placed placed, shares, List.map_append, List.map_map]
  congr 1
  split <;> rfl

theorem length_joins_eq_shares :
    (joins folders tokens).length = ((shares folders tokens).map Share.count).sum := by
  rw [length_joins, shares, List.map_append, List.sum_append, List.map_map]
  congr 1
  split
  · next none => simp [none]
  · simp [shareOfAll]

theorem staysInside_of_shares (all : ∀ share ∈ shares folders tokens, share.stays) :
    StaysInside folders tokens := by
  have shared : tokens.filter (isGeneral folders) ≠ [] → (shareOfAll folders tokens).stays := by
    intro others
    apply all
    rw [shares, if_neg others]
    exact List.mem_append_right _ List.mem_cons_self
  constructor
  · intro folder mention
    exact all (shareOf folders tokens folder)
      (List.mem_append_left _ (List.mem_map_of_mem mention))
  · intro several token member
    exact (shared (List.ne_nil_of_mem member)).1 several token member
  · intro several single token member
    exact (shared (List.ne_nil_of_mem member)).2 several single token member

/-- Shares that come to all of their texts, without a stray brace, have lost nothing. -/
theorem stays_of_remains {shares : List Share} (nonempty : shares ≠ [])
    (remains : ∀ share ∈ shares, Remains share.count share.stays share.pattern)
    (calm : ∀ text ∈ denoted (lex (alternation (shares.map Share.pattern))), '}' ∉ plainText text)
    (enough : (shares.map Share.count).sum
      ≤ (denoted (lex (alternation (shares.map Share.pattern)))).length) :
    ∀ share ∈ shares, share.stays := by
  have kinds : ∀ pattern ∈ shares.map Share.pattern, IsWhole pattern ∨ IsSurplus pattern :=
    List.forall_mem_map.mpr fun share member => (remains share member).kind
  -- A surplus brace would end up in every text, so each share is whole and has its texts to itself.
  have each : ∀ share ∈ shares, IsWhole share.pattern
      ∧ (denoted (lex share.pattern)).length ≤ share.count
      ∧ ((denoted (lex share.pattern)).length = share.count → share.stays) := by
    intro share member
    cases remains share member with
    | whole whole few all => exact ⟨whole, few, all⟩
    | surplus surplus =>
      obtain ⟨text, found, stray⟩ :=
        exists_closing_of_surplus kinds ⟨_, List.mem_map_of_mem member, surplus⟩
      exact absurd stray (calm text found)
  have wholes : ∀ pattern ∈ shares.map Share.pattern, IsWhole pattern :=
    List.forall_mem_map.mpr fun share member => (each share member).1
  have found := (denoted_alternation_of_isWhole (by simpa using nonempty) wholes).2
  rw [found, List.flatMap_map, List.length_flatMap] at enough
  -- The sum of the bounds is reached, so each of them is.
  have reached := eq_of_sum_map_le (fun share member => (each share member).2.1) enough
  intro share member
  exact (each share member).2.2 (reached share member)

/-- If a combined glob denotes joins only, and as many as there are, nothing climbs over a mark. -/
theorem staysInside_of_denoted (nonempty : folders ≠ [])
    (inert : ∀ folder ∈ folders, IsInertFolder folder) (filled : tokens ≠ [])
    (placed : ∀ token ∈ tokens, IsPlaced folders token)
    (closed : depthAfter 0
      (lex (alternation ((Plan.ofTokens folders tokens).alternatives folders))) = 0)
    (only : ∀ text ∈ denoted (lex (alternation ((Plan.ofTokens folders tokens).alternatives folders))),
      plainText text ∈ joins folders tokens)
    (enough : (joins folders tokens).length
      ≤ (denoted (lex (alternation ((Plan.ofTokens folders tokens).alternatives folders)))).length) :
    StaysInside folders tokens := by
  have calm : ∀ text ∈ denoted (lex (alternation ((Plan.ofTokens folders tokens).alternatives
      folders))), IsInert (plainText text) := fun text member =>
    isInert_of_mem_joins inert placed _ (only text member)
  have some := alternatives_ne_nil filled placed
  rw [alternatives_eq_shares placed] at closed calm enough some
  rw [length_joins_eq_shares] at enough
  have named : ∀ share ∈ (mentioned folders tokens).map (shareOf folders tokens),
      Remains share.count share.stays share.pattern :=
    List.forall_mem_map.mpr fun folder mention => remains_named inert placed mention
  -- Only the last share can be left open.
  have remains : ∀ share ∈ shares folders tokens,
      Remains share.count share.stays share.pattern := by
    intro share member
    rcases List.mem_append.mp member with mention | last
    · exact named share mention
    · split at last
      · cases last
      · next others =>
        rw [List.mem_singleton.mp last]
        refine (remains_general nonempty inert placed others).resolve_right fun unclosed => ?_
        have kinds : ∀ pattern ∈ ((mentioned folders tokens).map (shareOf folders tokens)).map
            Share.pattern, IsWhole pattern ∨ IsSurplus pattern :=
          List.forall_mem_map.mpr fun share member => (named share member).kind
        rw [shares, if_neg others, List.map_append] at closed calm
        obtain ⟨text, found, comma⟩ := exists_comma_of_unclosed kinds unclosed closed
        exact calm text found ',' comma (by decide)
  refine staysInside_of_shares (stays_of_remains (by simpa using some) remains ?_ enough)
  intro text member brace
  exact calm text member '}' brace (by decide)

theorem joins_ne_nil (nonempty : folders ≠ []) (filled : tokens ≠ [])
    (placed : ∀ token ∈ tokens, IsPlaced folders token) : joins folders tokens ≠ [] := by
  intro none
  obtain ⟨named, others⟩ := List.append_eq_nil_iff.mp none
  obtain ⟨token, member⟩ := List.exists_mem_of_ne_nil _ filled
  cases found : home? folders token with
  | some folder =>
    have mention := mem_mentioned.mpr ⟨token, member, found⟩
    apply naming_ne_nil mention
    exact List.map_eq_nil_iff.mp (List.flatMap_eq_nil_iff.mp named folder mention)
  | none =>
    obtain ⟨folder, among⟩ := List.exists_mem_of_ne_nil _ nonempty
    have general := (placed token member).isGeneral_of_home? found
    have empty := List.map_eq_nil_iff.mp (List.flatMap_eq_nil_iff.mp others folder among)
    exact List.filter_eq_nil_iff.mp empty token member general

theorem isWord_of_placed {token : Text} (placed : IsPlaced folders token)
    (trimmed : token.trim = token) : IsWord token := by
  refine ⟨placed.filled, trimmed, fun c member => ?_⟩
  have absent := placed.inert c member
  simp only [List.mem_cons, List.not_mem_nil, or_false, not_or] at absent
  simp [isUncounted, absent]

end Necessity

/-- The combined glob of literal tokens expands to their joins, one by one, exactly if no `..` climbs
over a mark, and then it compiles to these joins. If the joins differ from each other, it compiles to
them in no other case. -/
theorem expandsToJoins_iff {paths tokens : List Text} {folders : Folders}
    (built : Folders.ofPaths paths = .ok folders) (nonempty : folders.paths ≠ [])
    (literal : ∀ folder ∈ folders.paths, IsLiteral folder) (filled : tokens ≠ [])
    (trimmed : ∀ token ∈ tokens, token.trim = token)
    (placed : ∀ token ∈ tokens, IsPlaced folders.paths token)
    (room : folders.paths.length * tokens.length ≤ maxExpansions) :
    (ExpandsToJoins folders.paths tokens ↔ StaysInside folders.paths tokens)
      ∧ (StaysInside folders.paths tokens → SelectsJoins folders.paths tokens)
      ∧ ((joins folders.paths tokens).Nodup → SelectsJoins folders.paths tokens →
          StaysInside folders.paths tokens) := by
  -- Folders are canonical and literal, so they hold nothing that any reading treats as special.
  have inert : ∀ folder ∈ folders.paths, IsInertFolder folder := by
    intro folder member
    have canonical := Folders.isCanonical_of_mem_paths built member
    refine ⟨canonical, fun c inside => ?_⟩
    have slashed : c ≠ '\\' := fun same => canonical.noBackslash (same ▸ inside)
    have absent := literal folder member c inside
    simp only [List.mem_cons, List.not_mem_nil, or_false, not_or] at absent ⊢
    simp [absent, slashed]
  have words : PatternList.tokens ([',', ' '].intercalate tokens) = tokens :=
    tokens_intercalate fun token member =>
      isWord_of_placed (placed token member) (trimmed token member)
  rw [ExpandsToJoins, SelectsJoins, anchor, words]
  have enough := expand_of_staysInside nonempty inert filled placed room
  refine ⟨⟨?_, fun stays => ?_⟩, fun stays => ?_, ?_⟩
  · -- The expansion denotes the joins, and as many as there are, so nothing climbs.
    rintro ⟨texts, expanded, same⟩
    obtain ⟨-, closed, -, rfl⟩ := expand_eq_ok_iff.mp expanded
    apply staysInside_of_denoted nonempty inert filled placed closed
    · intro text member
      rw [← same]
      exact List.mem_map_of_mem member
    · rw [← same, List.length_map]
  · obtain ⟨texts, expanded, -, same⟩ := enough stays
    exact ⟨texts, expanded, same⟩
  · obtain ⟨texts, expanded, each, same⟩ := enough stays
    obtain ⟨-, -, -, rfl⟩ := expand_eq_ok_iff.mp expanded
    have solid := isBlankText_of_denoted fun text member => (each text member).1
    obtain ⟨glob, compiled, found⟩ :=
      Combined.exists_compile solid expanded fun text member => (each text member).2
    refine ⟨glob, compiled, fun text => ?_⟩
    rw [found, same, List.mem_eraseDups]
  · -- Compiling drops doubles, so only joins without doubles give the number of texts back.
    rintro distinct ⟨glob, compiled, same⟩
    have solid : Text.isBlankText
        (alternation ((Plan.ofTokens folders.paths tokens).alternatives folders.paths)) = false := by
      by_contra blank
      rw [Combined.compile, if_pos (by simpa using blank)] at compiled
      cases compiled
      apply joins_ne_nil nonempty filled placed
      rw [List.eq_nil_iff_forall_not_mem]
      intro text member
      cases (same text).mpr member
    obtain ⟨texts, expanded, -, found⟩ := Combined.alternatives_eq solid compiled
    obtain ⟨-, closed, -, rfl⟩ := expand_eq_ok_iff.mp expanded
    simp only [found, List.mem_eraseDups] at same
    apply staysInside_of_denoted nonempty inert filled placed closed
    · exact fun text member => (same _).mp (List.mem_map_of_mem member)
    · have few := distinct.length_le_of_subset fun text member => (same text).mpr member
      rwa [List.length_map] at few

/-- Two folders share a name, so a token that begins with it is read from the parent of the last one. -/
theorem expandsToJoins_iff_parents :
    let folders := ["/w/a".toList, "/b".toList, "/v/a".toList]
    let tokens := ["a/../x".toList, "./y/../z".toList]
    Folders.ofPaths ["/w/a/".toList, "/b".toList, "/v/a".toList] = .ok ⟨folders⟩
      ∧ joins folders tokens = ["/v/x".toList, "/w/a/z".toList, "/b/z".toList, "/v/a/z".toList]
      ∧ StaysInside folders tokens ∧ ExpandsToJoins folders tokens ∧ SelectsJoins folders tokens := by
  intro folders tokens
  have built : Folders.ofPaths ["/w/a/".toList, "/b".toList, "/v/a".toList] = .ok ⟨folders⟩ := by
    decide +kernel
  have stays : StaysInside folders tokens := by decide +kernel
  obtain ⟨expands, selects, -⟩ := expandsToJoins_iff built (by decide) (by decide +kernel)
    (by decide : tokens ≠ []) (by decide +kernel) (by decide +kernel) (by decide)
  exact ⟨built, by decide +kernel, stays, expands.mpr stays, selects stays⟩

/-- Behind several folders a parent segment climbs over the brace that closes them. -/
theorem not_selectsJoins_parent :
    IsPlaced ["/a".toList, "/b".toList] "../x".toList
      ∧ ¬ SelectsJoins ["/a".toList, "/b".toList] ["../x".toList] := by
  refine ⟨by decide +kernel, ?_⟩
  rintro ⟨glob, compiled, -⟩
  have failed : (Combined.compile (anchor ["/a".toList, "/b".toList]
      ([',', ' '].intercalate ["../x".toList]))).toOption = none := by decide +kernel
  rw [compiled] at failed
  cases failed

end RootedGlob.Anchoring
