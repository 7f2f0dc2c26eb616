import RootedGlob.Glob.Combined

/-!
# Patterns that match one text only

A text without wildcards and classes compiles to its own characters, and matches itself and nothing
else.
-/

namespace RootedGlob.Glob

/-- A character that a glob pattern reads as itself. -/
def isVerbatim (c : Char) : Bool := c != '*' && c != '?' && c != '['

section Compile

variable (before : Option Char) (repeats : Bool)

theorem compileFrom_verbatim {c : Char} (verbatim : isVerbatim c) (rest : Text) :
    compileFrom before repeats (c :: rest)
      = (compileFrom (some c) false rest).map (.literal c :: ·) := by
  simp only [isVerbatim, Bool.and_eq_true, bne_iff_ne] at verbatim
  rw [compileFrom.eq_def]
  split <;> simp_all

theorem compileFrom_class {text later : Text} {token : Token}
    (read : readClass? text = some (token, later)) :
    compileFrom before repeats ('[' :: text)
      = (compileFrom (some ']') false later).map (token :: ·) := by
  rw [compileFrom]
  split
  · next none =>
    rw [read] at none
    cases none
  · next some =>
    rw [read, Option.some.injEq, Prod.mk.injEq] at some
    rw [some.1, some.2]

end Compile

theorem compileFrom_of_isVerbatim {text : Text} (verbatim : ∀ c ∈ text, isVerbatim c)
    (before : Option Char) (repeats : Bool) :
    compileFrom before repeats text = .ok (text.map .literal) := by
  induction text generalizing before repeats with
  | nil => rw [compileFrom, List.map_nil]
  | cons c text ih =>
    have here := verbatim c List.mem_cons_self
    have rest := ih (fun d member => verbatim d (List.mem_cons_of_mem _ member)) (some c) false
    rw [compileFrom_verbatim before repeats here, rest]
    rfl

theorem compile_of_isVerbatim {text : Text} (verbatim : ∀ c ∈ text, isVerbatim c) :
    Pattern.compile text = .ok ⟨text, text.map .literal⟩ := by
  rw [Pattern.compile, compileFrom_of_isVerbatim verbatim]
  rfl

theorem unescape_cons {c : Char} (other : c ≠ '\\') (rest : Text) :
    unescape (c :: rest) = c :: unescape rest := by
  rw [unescape.eq_def]
  split <;> simp_all

theorem unescape_of_not_mem {text : Text} (absent : '\\' ∉ text) : unescape text = text := by
  fun_induction unescape text with
  | case1 => rfl
  | case2 => rfl
  | case3 => simp at absent
  | case4 => simp at absent
  | case5 c rest _ _ ih =>
    rw [ih fun member => absent (List.mem_cons_of_mem _ member)]

theorem run_literal_iff {text other : Text} :
    run (text.map .literal) other = .matched ↔ other = text := by
  induction text generalizing other with
  | nil => cases other <;> simp [run]
  | cons c text ih =>
    cases other with
    | nil => simp [run]
    | cons d other =>
      by_cases same : d = c
      · simp [run, Token.fits, same, ih]
      · simp [run, Token.fits, same]

end RootedGlob.Glob
