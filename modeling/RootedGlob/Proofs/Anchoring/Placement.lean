import RootedGlob.Anchoring
import RootedGlob.Proofs.Lists
import Mathlib.Data.List.Induction

/-!
# Where the tokens of a pattern list go

Anchoring places one token after the other, and finds the folder of a token in a table of names. Its result
can be read off the whole list at once, without the table: the absolute tokens, for every folder in the order of
first mention the tokens that belong to it (`home?`), and the general tokens (`ofTokens_eq`).
-/

namespace RootedGlob.Anchoring

open RootedGlob.Path

/-- Taking out the entries of one name leaves those of any other. -/
theorem lookup_filter_ne {name other : Text} (apart : name ≠ other) (table : List (Text × Text)) :
    (table.filter fun (key, _) => key != other).lookup name = table.lookup name := by
  induction table with
  | nil => rfl
  | cons entry table ih =>
    obtain ⟨key, folder⟩ := entry
    by_cases taken : key = other
    · rw [List.filter_cons_of_neg (by simpa using taken), ih, List.lookup_cons,
        beq_false_of_ne (taken ▸ apart)]
    · rw [List.filter_cons_of_pos (by simpa using taken), List.lookup_cons, List.lookup_cons, ih]

theorem lookup_enterName (table : List (Text × Text)) (folder name : Text) :
    (enterName table folder).lookup name
      = if basename folder = name then some folder else table.lookup name := by
  rw [enterName, List.lookup_cons]
  by_cases same : name = basename folder
  · simp [same]
  · rw [beq_false_of_ne same, if_neg (Ne.symm same)]
    exact lookup_filter_ne same table

/-- The table of names has the last folder of every name. -/
theorem folderNamed?_eq (folders : List Text) (name : Text) :
    folderNamed? folders name = folders.reverse.find? fun folder => basename folder == name := by
  rw [folderNamed?, nameTable]
  induction folders using List.reverseRecOn with
  | nil => rfl
  | append_singleton folders folder ih =>
    rw [List.foldl_concat, lookup_enterName, ih, List.reverse_concat, List.find?_cons]
    by_cases same : basename folder = name
    · simp [same]
    · rw [if_neg same, beq_false_of_ne same]

/-- The folder that a relative token belongs to: of the folders whose name is its first segment, the last one. -/
def home? (folders : List Text) (token : Text) : Option Text :=
  if isAbsolute token then none
  else folders.reverse.find? fun folder => basename folder == firstSegment token

/-- A general token is relative, and its first segment is not the name of a folder. -/
def isGeneral (folders : List Text) (token : Text) : Bool :=
  !isAbsolute token && folders.all fun folder => basename folder != firstSegment token

/-- The folders that tokens belong to, in the order of first mention. -/
def mentioned (folders tokens : List Text) : List Text :=
  (tokens.filterMap (home? folders)).eraseDups

/-- The tokens that belong to a folder. -/
def naming (folders tokens : List Text) (folder : Text) : List Text :=
  tokens.filter fun token => home? folders token == some folder

theorem mem_of_home? {folders : List Text} {token folder : Text} (found : home? folders token = some folder) :
    folder ∈ folders ∧ isAbsolute token = false ∧ basename folder = firstSegment token := by
  rw [home?] at found
  split at found
  · cases found
  · next relative =>
    have named := List.find?_some found
    have among := List.mem_of_find?_eq_some found
    exact ⟨List.mem_reverse.mp among, by simpa using relative, by simpa using named⟩

/-- A general token is one that is not absolute and belongs to no folder. -/
theorem isGeneral_iff {folders : List Text} {token : Text} :
    isGeneral folders token ↔ isAbsolute token = false ∧ home? folders token = none := by
  rw [isGeneral, home?, Bool.and_eq_true, Bool.not_eq_true']
  refine and_congr_right fun relative => ?_
  rw [relative]
  simp

theorem mem_mentioned {folders tokens : List Text} {folder : Text} :
    folder ∈ mentioned folders tokens ↔ ∃ token ∈ tokens, home? folders token = some folder := by
  rw [mentioned, List.mem_eraseDups, List.mem_filterMap]

theorem mem_naming {folders tokens : List Text} {folder token : Text} :
    token ∈ naming folders tokens folder ↔ token ∈ tokens ∧ home? folders token = some folder := by
  simp [naming]

theorem naming_ne_nil {folders tokens : List Text} {folder : Text}
    (mention : folder ∈ mentioned folders tokens) :
    naming folders tokens folder ≠ [] := by
  obtain ⟨token, member, found⟩ := mem_mentioned.mp mention
  exact List.ne_nil_of_mem (mem_naming.mpr ⟨member, found⟩)

theorem mem_of_mem_mentioned {folders tokens : List Text} {folder : Text}
    (mention : folder ∈ mentioned folders tokens) :
    folder ∈ folders := by
  obtain ⟨token, -, found⟩ := mem_mentioned.mp mention
  exact (mem_of_home? found).1

/-- The path of a token inside the folder that it belongs to. -/
def inside (token : Text) : Text := relative (firstSegment token) token

/-- The path of a token inside every folder. -/
def spread (token : Text) : Text :=
  if token.head? = some '.' then token else join [anyDepth, token]

/-- A token is placed in the folder that it belongs to. The table of names is used nowhere else. -/
theorem place_eq (folders : List Text) (token : Text) :
    place folders token = if isAbsolute token then .absolute
      else match home? folders token with
        | some folder => .inside folder (inside token)
        | none => .anywhere (spread token) := by
  rw [place, home?]
  by_cases absolute : isAbsolute token
  · rw [if_pos absolute, if_pos absolute]
  · rw [if_neg absolute, if_neg absolute, if_neg absolute, ← folderNamed?_eq]
    cases folderNamed? folders (firstSegment token) with
    | some => rfl
    | none =>
      by_cases dotted : token.head? = some '.' <;> simp [spread, dotted]

/-- Adding to the group of a folder, where every folder has one group. -/
theorem addInside_map (folder pattern : Text) (group : Text → List Text) {keys : List Text}
    (nodup : keys.Nodup) :
    addInside folder pattern (keys.map fun key => (key, group key))
      = if folder ∈ keys
        then keys.map fun key => (key, if key = folder then group key ++ [pattern] else group key)
        else (keys.map fun key => (key, group key)) ++ [(folder, [pattern])] := by
  induction keys with
  | nil => rfl
  | cons key keys ih =>
    obtain ⟨absent, rest⟩ := List.nodup_cons.mp nodup
    rw [List.map_cons, addInside]
    -- The keys differ from each other, so behind the folder's own group nothing changes.
    by_cases same : key = folder
    · subst same
      have others : (keys.map fun other =>
          (other, if other = key then group other ++ [pattern] else group other))
            = keys.map fun other => (other, group other) := by
        refine List.map_congr_left fun other member => ?_
        rw [if_neg fun equal : other = key => absent (equal ▸ member)]
      rw [if_pos rfl, if_pos List.mem_cons_self, List.map_cons, if_pos rfl, others]
    · rw [if_neg same, ih rest]
      by_cases member : folder ∈ keys
      · rw [if_pos member, if_pos (List.mem_cons_of_mem _ member), List.map_cons, if_neg same]
      · rw [if_neg member, if_neg (by simp [Ne.symm same, member]), List.cons_append]

theorem mentioned_concat (folders tokens : List Text) {token folder : Text}
    (found : home? folders token = some folder) :
    mentioned folders (tokens ++ [token]) = if folder ∈ mentioned folders tokens
      then mentioned folders tokens else mentioned folders tokens ++ [folder] := by
  rw [mentioned, List.filterMap_append, List.filterMap_cons, found, List.filterMap_nil,
    eraseDups_concat]
  simp only [mentioned, List.mem_eraseDups]

theorem naming_concat (folders tokens : List Text) {token folder : Text}
    (found : home? folders token = some folder) (key : Text) :
    naming folders (tokens ++ [token]) key
      = if key = folder then naming folders tokens key ++ [token] else naming folders tokens key := by
  rw [naming, List.filter_append, List.filter_cons, found]
  by_cases same : key = folder
  · simp [same, naming]
  · simp [same, Ne.symm same, naming]

theorem naming_of_not_mem {folders tokens : List Text} {folder : Text}
    (absent : folder ∉ mentioned folders tokens) : naming folders tokens folder = [] := by
  rw [naming, List.filter_eq_nil_iff]
  intro token member named
  exact absent (mem_mentioned.mpr ⟨token, member, by simpa using named⟩)

/-- What anchoring makes of a whole list of tokens. -/
theorem ofTokens_eq (folders tokens : List Text) :
    Plan.ofTokens folders tokens =
      { absolute := tokens.filter isAbsolute
        inside := (mentioned folders tokens).map fun folder =>
          (folder, (naming folders tokens folder).map inside)
        anywhere := (tokens.filter (isGeneral folders)).map spread } := by
  -- The plan is a fold, so the induction takes the tokens off at the end.
  induction tokens using List.reverseRecOn with
  | nil => rfl
  | append_singleton tokens token ih =>
    rw [Plan.ofTokens] at ih ⊢
    rw [List.foldl_append, ih, List.foldl_cons, List.foldl_nil, Plan.add, place_eq]
    by_cases absolute : isAbsolute token
    · have nowhere : home? folders token = none := if_pos absolute
      simp [absolute, nowhere, mentioned, naming, isGeneral_iff]
    · rw [if_neg absolute]
      cases found : home? folders token with
      | none => simp [absolute, found, mentioned, naming, isGeneral_iff]
      | some folder =>
        have groups := addInside_map folder (inside token)
          (fun key => (naming folders tokens key).map inside)
          (nodup_eraseDups (tokens.filterMap (home? folders)))
        rw [← mentioned] at groups
        have special : ¬ isGeneral folders token := fun general => by
          rw [(isGeneral_iff.mp general).2] at found
          cases found
        simp only [groups, mentioned_concat folders tokens found, naming_concat folders tokens found]
        -- A folder that came up before has a group to add to; a new one gets a group at the end.
        by_cases member : folder ∈ mentioned folders tokens
        · simp only [if_pos member, List.filter_append, List.filter_cons, absolute, special]
          simp
          intro key _
          split <;> simp
        · have empty := naming_of_not_mem member
          simp only [if_neg member, List.filter_append, List.filter_cons, absolute, special]
          simp [empty]
          intro key among
          rw [if_neg fun same : key = folder => member (same ▸ among)]

end RootedGlob.Anchoring
