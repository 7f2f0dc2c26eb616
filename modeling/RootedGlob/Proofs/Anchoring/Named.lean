import RootedGlob.Proofs.Anchoring.Parents

/-!
# Tokens that name a folder

A token whose first segment is the name of a folder is meant from the parent of that folder on. Anchoring takes
a way round: it resolves the token, finds the path that leads from its first segment to it, with `..` in front
if the token leaves the folder, and joins the folder and that path. Both ways end in the same place, whatever
the token does behind its first segment (`anchor_named`). The folder is the one that the workspace finds by the
name, although anchoring has a table of names of its own (`folderNamed?_eq`).
-/

namespace RootedGlob.Anchoring

open RootedGlob.Path PatternList

/-- A folder joined with the path of a token inside it spells the location that both lead to. -/
theorem join_inside {folder : Text} (canonical : IsCanonical folder) (token : Text) :
    join [folder, inside token] = spelled (location (folder ++ separator :: inside token)) := by
  obtain ⟨rest, start⟩ := isAbsolute_iff.mp canonical.isAbsolute
  obtain ⟨names, whole, kinds⟩ := exists_relative (firstSegment token) token
  rw [join_pair (by simp [start]), inside, whole]
  cases names with
  | nil =>
    -- The token leads to the folder itself.
    have same : location (folder ++ separator :: ofSegments []) = location folder := by
      rw [location, location]
      exact congrArg List.reverse (stand_separator folder)
    have normal : normalize folder = folder := by
      rw [canonical.spelling, normalize_spelled fun _ => isName_of_mem_location]
    rw [same, ← canonical.spelling]
    exact normal
  | cons name names =>
    have filled : ofSegments (name :: names) ≠ [] := by
      simp [ofSegments_cons, (single_of_isName_or_dotDot (kinds name List.mem_cons_self)).1]
    -- The last segment of the path is filled, so no separator is kept at its end.
    have closed := endsWithSeparator_append_rooted folder (List.cons_ne_nil name names)
      fun other member => single_of_isName_or_dotDot (kinds other member)
    rw [rooted_cons, ← ofSegments_cons] at closed
    rw [if_neg filled, normalize_of_isAbsolute (isAbsolute_append canonical.isAbsolute _), closed]
    simp

/-- A list of one token that names a folder is anchored as this token below that folder. -/
theorem anchor_of_home? {folders : List Text} {token folder : Text} (single : tokens token = [token])
    (found : home? folders token = some folder) :
    anchor folders token = join [folder, inside token] := by
  have relative : isAbsolute token = false := (mem_of_home? found).2.1
  have placed : place folders token = .inside folder (inside token) := by
    rw [place_eq, relative, found]
    rfl
  have plan : Plan.ofTokens folders [token] = { inside := [(folder, [inside token])] } := by
    rw [Plan.ofTokens, List.foldl_cons, List.foldl_nil, Plan.add, placed]
    rfl
  rw [anchor, single, plan]
  rfl

/-- A token whose first segment is the name of a folder is placed in the folder that the workspace finds by that
name, and is anchored where it leads from the parent of this folder. -/
theorem anchor_named {paths : List Text} {folders : Folders} {token folder : Text}
    (built : Folders.ofPaths paths = .ok folders) (single : tokens token = [token])
    (relative : isAbsolute token = false) (found : folders.named? (firstSegment token) = some folder) :
    place folders.paths token = .inside folder (inside token)
      ∧ ∃ parent, parent? folder = some parent
        ∧ anchor folders.paths token = dropTrailingSeparator (join [parent, token]) := by
  have named : home? folders.paths token = some folder := by
    rw [home?, relative]
    exact found
  have canonical : IsCanonical folder := Folders.isCanonical_of_mem_paths built (mem_of_home? named).1
  have filled : token ≠ [] := (piece_of_mem_tokens (single ▸ List.mem_singleton_self token)).2
  obtain ⟨parent, above, same⟩ := location_inside canonical filled named
  refine ⟨by rw [place_eq, relative, named]; rfl, parent, above, ?_⟩
  rw [anchor_of_home? single named, join_inside canonical, same]

theorem anchor_named_twice :
    Folders.ofPaths ["/one/src/".toList, "/src".toList] = .ok ⟨["/one/src".toList, "/src".toList]⟩
      ∧ tokens "src/./..//../{a,b}/".toList = ["src/./..//../{a,b}/".toList]
      ∧ Folders.named? ⟨["/one/src".toList, "/src".toList]⟩ "src".toList = some "/src".toList
      ∧ parent? "/src".toList = some "/".toList
      ∧ anchor ["/one/src".toList, "/src".toList] "src/./..//../{a,b}/".toList = "/{a,b}".toList
      ∧ dropTrailingSeparator (join ["/".toList, "src/./..//../{a,b}/".toList]) = "/{a,b}".toList := by
  have built : Folders.ofPaths ["/one/src/".toList, "/src".toList]
      = .ok ⟨["/one/src".toList, "/src".toList]⟩ := by decide +kernel
  have single : tokens "src/./..//../{a,b}/".toList = ["src/./..//../{a,b}/".toList] := by decide +kernel
  have named : Folders.named? ⟨["/one/src".toList, "/src".toList]⟩ "src".toList = some "/src".toList := by
    decide +kernel
  have root : parent? "/src".toList = some "/".toList := by decide +kernel
  have joined : dropTrailingSeparator (join ["/".toList, "src/./..//../{a,b}/".toList])
      = "/{a,b}".toList := by decide +kernel
  obtain ⟨-, parent, above, same⟩ := anchor_named built single (by decide) named
  rw [root, Option.some.injEq] at above
  subst above
  exact ⟨built, single, named, root, same.trans joined, joined⟩

end RootedGlob.Anchoring
