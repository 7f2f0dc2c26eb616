import RootedGlob.Proofs.Anchoring.Order
import RootedGlob.Proofs.Path.Joining

/-!
# Two joins are as good as one

Anchoring joins twice: it puts the segment of any depth in front of a general pattern, and later the folders in
front of the result. Nothing is lost on the way, because nested joins flatten (`join_flattens`).
-/

namespace RootedGlob.Anchoring

open RootedGlob.Path Brace PatternList

/-- A single pattern for every folder is the last alternative of a list, joined with the folders. -/
theorem alternatives_of_single {folders tokens : List Text} {token : Text}
    (single : tokens.filter (isGeneral folders) = [token]) :
    (Plan.ofTokens folders tokens).alternatives folders
      = ({ Plan.ofTokens folders tokens with anywhere := [] } : Plan).alternatives folders
        ++ [join [alternation folders, spread token]] := by
  have everywhere : (Plan.ofTokens folders tokens).anywhere = [spread token] := by
    rw [ofTokens_eq, single]
    rfl
  rw [Plan.alternatives, Plan.alternatives, everywhere]
  simp [alternation]

/-- Nested joins flatten. Parts in front that hold any text may be joined first, and so may parts at the end that
hold any text and do not start at the root. So to put a pattern at any depth and the result below a folder is to
join once, and the only general pattern of a list is anchored by a single join. -/
theorem join_flattens :
    (∀ xs ys : List Text, (∃ x ∈ xs, x ≠ []) → join ([join xs] ++ ys) = join (xs ++ ys))
      ∧ (∀ (xs ys : List Text) first, ys.find? (· ≠ []) = some first → isAbsolute first = false →
        join (xs ++ [join ys]) = join (xs ++ ys))
      ∧ (∀ folder token : Text, join [folder, join [anyDepth, token]] = join [folder, anyDepth, token])
      ∧ ∀ folders list token, (tokens list).filter (isGeneral folders) = [token] → token.head? ≠ some '.' →
        anchor folders list = alternation
          (({ Plan.ofTokens folders (tokens list) with anywhere := [] } : Plan).alternatives folders
            ++ [join [alternation folders, anyDepth, token]]) := by
  have twice (folder token : Text) : join [folder, join [anyDepth, token]] = join [folder, anyDepth, token] := by
    have first : [anyDepth, token].find? (· ≠ []) = some anyDepth := rfl
    exact join_append_join [folder] first rfl
  refine ⟨fun xs ys filled => join_join_append filled ys,
    fun xs ys first found relative => join_append_join xs found relative, twice, ?_⟩
  intro folders list token single dotless
  rw [anchor, alternatives_of_single single, spread, if_neg dotless, twice]

/-- Parts that lead above the root and back, parts of which one is empty, and a list with patterns of all kinds. -/
theorem join_flattens_mixed :
    let folders := ["/a".toList, "/x/b".toList]
    (∃ x ∈ ["".toList, "/a/..".toList, "../b/".toList], x ≠ [])
      ∧ join ([join ["".toList, "/a/..".toList, "../b/".toList]] ++ ["..".toList, "".toList]) = "/".toList
      ∧ ["".toList, "../x/".toList, "/y".toList].find? (· ≠ []) = some "../x/".toList
      ∧ join (["a".toList] ++ [join ["".toList, "../x/".toList, "/y".toList]]) = "x/y".toList
      ∧ (tokens "/c,src/../*.js,b/d".toList).filter (isGeneral folders) = ["src/../*.js".toList]
      ∧ anchor folders "/c,src/../*.js,b/d".toList
        = alternation ["/c".toList, "/x/b/d".toList,
          join [alternation folders, anyDepth, "src/../*.js".toList]] := by
  intro folders
  have filled : ∃ x ∈ ["".toList, "/a/..".toList, "../b/".toList], x ≠ [] := by decide
  have first : ["".toList, "../x/".toList, "/y".toList].find? (· ≠ []) = some "../x/".toList := by decide
  have single : (tokens "/c,src/../*.js,b/d".toList).filter (isGeneral folders) = ["src/../*.js".toList] := by
    decide +kernel
  have others : ({ Plan.ofTokens folders (tokens "/c,src/../*.js,b/d".toList) with anywhere := [] } : Plan).alternatives
      folders = ["/c".toList, "/x/b/d".toList] := by decide +kernel
  obtain ⟨front, back, -, general⟩ := join_flattens
  refine ⟨filled, ?_, first, ?_, single, ?_⟩
  · rw [front _ _ filled]
    decide +kernel
  · rw [back _ _ _ first rfl]
    decide +kernel
  · rw [general folders _ _ single (by decide), others]
    rfl

end RootedGlob.Anchoring
