import RootedGlob.Proofs.Finder.Reporting
import RootedGlob.Proofs.Glob.Subtrees

/-!
# What an exclude takes away

A search reports no file that the excluded glob selects (`not_mem_files_of_isMatch`). As a combined glob selects
what its expansions select, and takes whole subtrees along, an exclude that selects a directory takes everything
below it away (`exclude_takes_subtrees`).
-/

namespace RootedGlob.Finder

open Glob RootedGlob.Path

section Excluded

variable {env : Environment} {options : WalkOptions} {folders : Folders} {scope : Scope} {source path : Text}
  {included excluded : Combined}

/-- A search with an exclude that compiles reports nothing that the exclude selects. -/
theorem not_mem_files_of_isMatch (given : scope.excluded = some source)
    (inside : Combined.compile scope.included = .ok included) (outside : Combined.compile source = .ok excluded)
    (selected : excluded.isMatch path) :
    ∃ findings, find env options folders scope = .ok findings ∧ path ∉ findings.files := by
  have compiled : (scope.excluded.map Combined.compile).getD (.ok {}) = .ok excluded := by
    rw [given]
    exact outside
  refine ⟨_, find_eq_ok inside compiled, fun reported => ?_⟩
  obtain impossible | ⟨-, -, -, -, -, kept⟩ := mem_files_foldl_iff.mp reported
  · cases impossible
  · exact kept selected

end Excluded

/-- A source that is not blank compiles exactly if it expands and every expansion compiles; otherwise it fails with
the fault of the expansion, or with that of the first expansion that has one. Once compiled, the alternatives are
the texts of the expansions in the order of their first occurrences, and the glob selects what the expansions
select. What a normal path without backslashes takes along is selected with it, and if the glob is excluded, no
search reports any of that. -/
theorem exclude_takes_subtrees {source : Text} (filled : Text.isBlankText source = false) :
    ((∃ glob, Combined.compile source = .ok glob)
        ↔ ∃ texts, Brace.expand source = .ok texts ∧ ∀ text ∈ texts, Compiles text)
      ∧ (∀ error, Combined.compile source = .error error ↔
        (∃ cause, Brace.expand source = .error cause ∧ error = .expansion cause)
          ∨ ∃ front text back fault, Brace.expand source = .ok (front ++ text :: back)
            ∧ (∀ other ∈ front, Compiles other) ∧ Pattern.compile (plainText text) = .error fault
            ∧ error = .uncompilable text fault)
      ∧ ∀ glob, Combined.compile source = .ok glob → ∃ texts, Brace.expand source = .ok texts
        ∧ glob.alternatives.Nodup ∧ glob.alternatives = (texts.map plainText).eraseDups
        ∧ (∀ path, glob.isMatch path ↔ Selects texts path)
        ∧ ∀ directory path, isAbsolute directory → normalize directory = directory → '\\' ∉ directory →
          glob.isMatch directory → Continues directory path → glob.isMatch path
            ∧ ∀ env options folders scope included, scope.excluded = some source →
              Combined.compile scope.included = .ok included →
              ∃ findings, find env options folders scope = .ok findings ∧ path ∉ findings.files := by
  refine ⟨Combined.exists_compile_iff filled, fun error => Combined.compile_eq_error_iff filled, ?_⟩
  intro glob compiled
  obtain ⟨texts, expanded, -, alternatives⟩ := Combined.alternatives_eq filled compiled
  refine ⟨texts, expanded, alternatives ▸ nodup_eraseDups _, alternatives,
    fun path => Combined.isMatch_iff_selects filled compiled expanded, ?_⟩
  intro directory path absolute normal plain selected continues
  have further := Combined.isMatch_of_continues compiled absolute normal plain selected continues
  exact ⟨further, fun env options folders scope included given inside =>
    not_mem_files_of_isMatch given inside compiled further⟩

/-- Expansions that come to one text, and a directory that takes along a file below it. -/
theorem exclude_takes_subtrees_nested :
    let glob : Combined := ⟨"/{a/b,a//b/}".toList, [⟨"/a/b".toList, "/a/b".toList.map .literal⟩]⟩
    Text.isBlankText "/{a/b,a//b/}".toList = false ∧ Combined.compile "/{a/b,a//b/}".toList = .ok glob
      ∧ glob.alternatives = ["/a/b".toList] ∧ glob.isMatch "/a/b".toList
      ∧ Continues "/a/b".toList "/a/b/g".toList ∧ glob.isMatch "/a/b/g".toList
      ∧ ∃ findings, find nested everything ⟨["/a".toList]⟩ ⟨"/a/**".toList, some "/{a/b,a//b/}".toList⟩ = .ok findings
        ∧ "/a/b/g".toList ∉ findings.files := by
  intro glob
  have filled : Text.isBlankText "/{a/b,a//b/}".toList = false := by decide +kernel
  have compiled : Combined.compile "/{a/b,a//b/}".toList = .ok glob := by decide +kernel
  have selected : glob.isMatch "/a/b".toList := by decide +kernel
  have continues : Continues "/a/b".toList "/a/b/g".toList :=
    .below (.inr rfl) ⟨"g".toList, rfl, "g".toList, by decide, by decide⟩
  obtain ⟨-, -, selects⟩ := exclude_takes_subtrees filled
  obtain ⟨texts, -, -, -, -, subtrees⟩ := selects glob compiled
  obtain ⟨below, reported⟩ := subtrees _ _ rfl (by decide +kernel) (by decide) selected continues
  exact ⟨filled, compiled, rfl, selected, continues, below, reported _ _ _ _ _ rfl compile_belowNested⟩

/-- Not everything below a selected path is selected, if the path has a separator at its end. -/
theorem not_isMatch_below_separator : ¬ ∀ source glob, Text.isBlankText source = false →
    Combined.compile source = .ok glob → ∀ directory path, isAbsolute directory → normalize directory = directory →
      '\\' ∉ directory → glob.isMatch directory → IsBelow directory path → glob.isMatch path := by
  intro closed
  let glob : Combined := ⟨"/a/*".toList, [⟨"/a/*".toList, "/a/".toList.map .literal ++ [.anyRun]⟩]⟩
  have compiled : Combined.compile "/a/*".toList = .ok glob := by decide +kernel
  have below : IsBelow "/a/".toList "/a/x/".toList := ⟨"x/".toList, rfl, "x".toList, by decide, by decide⟩
  have selected := closed _ glob (by decide +kernel) compiled "/a/".toList "/a/x/".toList rfl (by decide +kernel)
    (by decide) (by decide +kernel) below
  have other : ¬ glob.isMatch "/a/x/".toList := by decide +kernel
  exact other selected

end RootedGlob.Finder
