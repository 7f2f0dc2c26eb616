import RootedGlob.Proofs.Anchoring.Placement

/-!
# The order of tokens

Anchoring sorts the tokens of a list into classes: the absolute ones, those that belong to a folder, a class
for each folder, and the general ones. What it makes of the list depends on the order inside each class and on
the order in which the folders come up, and on nothing else about the order of the tokens (`SameClasses`).
So two lists stand for the same glob if they differ in how tokens of different kinds are mixed.
-/

namespace RootedGlob.Anchoring

open RootedGlob.Path

/-- Lists of tokens that are alike in every class, and in the order in which folders are first mentioned. -/
structure SameClasses (folders tokens others : List Text) : Prop where
  absolute : tokens.filter isAbsolute = others.filter isAbsolute
  general : tokens.filter (isGeneral folders) = others.filter (isGeneral folders)
  inside : ∀ folder ∈ folders, tokens.filter (home? folders · == some folder)
    = others.filter (home? folders · == some folder)
  mentions : (tokens.filterMap (home? folders)).eraseDups = (others.filterMap (home? folders)).eraseDups

/-- Tokens that are alike in every class are placed alike. -/
theorem SameClasses.ofTokens_eq {folders tokens others : List Text} (same : SameClasses folders tokens others) :
    Plan.ofTokens folders tokens = Plan.ofTokens folders others := by
  have mentions : mentioned folders tokens = mentioned folders others := same.mentions
  -- Only folders that tokens name have a group, so the order in the other classes is not asked for.
  have groups : ∀ folder ∈ mentioned folders others, naming folders tokens folder = naming folders others folder :=
    fun folder mention => same.inside folder (mem_of_mem_mentioned mention)
  rw [Anchoring.ofTokens_eq, Anchoring.ofTokens_eq, same.absolute, same.general, mentions]
  congr 1
  exact List.map_congr_left fun folder member => by rw [groups folder member]

section Moving

variable {α β : Type} {x : α} {front passed back : List α}

/-- An element that is kept only where nothing is kept that it moves past stays in its place. -/
theorem filterMap_move {f : α → Option β} (apart : ∀ y ∈ passed, f x = none ∨ f y = none) :
    (front ++ x :: (passed ++ back)).filterMap f = (front ++ passed ++ x :: back).filterMap f := by
  simp only [List.filterMap_append, List.filterMap_cons, List.append_assoc]
  cases kept : f x with
  | none => rfl
  | some y =>
    have gone : passed.filterMap f = [] := by
      rw [List.filterMap_eq_nil_iff]
      intro other member
      simpa [kept] using apart other member
    simp [gone]

theorem filter_move {p : α → Bool} (apart : ∀ y ∈ passed, p x = false ∨ p y = false) :
    (front ++ x :: (passed ++ back)).filter p = (front ++ passed ++ x :: back).filter p := by
  simp only [← List.filterMap_eq_filter]
  refine filterMap_move fun y member => ?_
  simpa [Option.guard] using apart y member

end Moving

section Kinds

/-- The three kinds of tokens. -/
inductive Kind where
  | absolute
  /-- Belongs to a folder. -/
  | inside
  | general
deriving DecidableEq, Repr

def kind (folders : List Text) (token : Text) : Kind :=
  if isAbsolute token then .absolute else if (home? folders token).isSome then .inside else .general

variable {folders : List Text} {token : Text}

theorem kind_of_isAbsolute (absolute : isAbsolute token) :
    kind folders token = .absolute ∧ home? folders token = none := by
  rw [kind, home?, if_pos absolute, if_pos absolute]
  exact ⟨rfl, rfl⟩

theorem kind_of_home? {folder : Text} (found : home? folders token = some folder) :
    kind folders token = .inside := by
  have relative : ¬ isAbsolute token := fun absolute => by
    rw [(kind_of_isAbsolute absolute).2] at found
    cases found
  rw [kind, if_neg relative, found]
  rfl

theorem kind_of_isGeneral (general : isGeneral folders token) :
    kind folders token = .general ∧ home? folders token = none := by
  obtain ⟨relative, unnamed⟩ := isGeneral_iff.mp general
  rw [kind, if_neg (by simp [relative]), unnamed]
  exact ⟨rfl, rfl⟩

variable {front passed back : List Text}

/-- Where a token moves past tokens of other classes, every class keeps its order. -/
theorem sameClasses_move
    (apart : ∀ other ∈ passed, kind folders token ≠ kind folders other ∨ home? folders token ≠ home? folders other)
    (mentions : ((front ++ token :: (passed ++ back)).filterMap (home? folders)).eraseDups
      = ((front ++ passed ++ token :: back).filterMap (home? folders)).eraseDups) :
    SameClasses folders (front ++ token :: (passed ++ back)) (front ++ passed ++ token :: back) := by
  -- A class is known by the kind and the folder of its tokens.
  have move {p : Text → Bool} (k : Kind) (home : Option Text)
      (known : ∀ token, p token → kind folders token = k ∧ home? folders token = home) :
      (front ++ token :: (passed ++ back)).filter p = (front ++ passed ++ token :: back).filter p := by
    refine filter_move fun other member => ?_
    by_contra both
    simp only [not_or, Bool.not_eq_false] at both
    obtain ⟨kinds, homes⟩ := known token both.1
    obtain ⟨kinds', homes'⟩ := known other both.2
    rcases apart other member with different | different
    · exact different (kinds.trans kinds'.symm)
    · exact different (homes.trans homes'.symm)
  refine ⟨move .absolute none fun _ => kind_of_isAbsolute, move .general none fun _ => kind_of_isGeneral, ?_, mentions⟩
  intro folder _
  refine move .inside (some folder) fun token found => ?_
  rw [beq_iff_eq] at found
  exact ⟨kind_of_home? found, found⟩

/-- Tokens of another kind do not change which folders come up first. -/
theorem mentions_move (apart : ∀ other ∈ passed, kind folders token ≠ kind folders other) :
    ((front ++ token :: (passed ++ back)).filterMap (home? folders)).eraseDups
      = ((front ++ passed ++ token :: back).filterMap (home? folders)).eraseDups := by
  refine congrArg List.eraseDups (filterMap_move fun other member => ?_)
  cases found : home? folders token with
  | none => exact .inl rfl
  | some folder =>
    cases found' : home? folders other with
    | none => exact .inr rfl
    | some folder' => exact absurd ((kind_of_home? found).trans (kind_of_home? found').symm) (apart other member)

end Kinds

/-- Only the order inside the classes counts, with the order in which folders are first mentioned. Lists whose
tokens are alike in both stand for the same glob. So a token can move past tokens of another kind: an absolute
token past others, a token of a folder past absolute and general ones, a general token past others. It can also
move past tokens of other folders, as long as the folders come up in the same order. -/
theorem anchor_congr_classes (folders : List Text) :
    (∀ p q, SameClasses folders (PatternList.tokens p) (PatternList.tokens q) → anchor folders p = anchor folders q)
      ∧ (∀ p q front token passed back,
        PatternList.tokens p = front ++ token :: (passed ++ back) →
        PatternList.tokens q = front ++ passed ++ token :: back →
        (∀ other ∈ passed, kind folders token ≠ kind folders other) →
          anchor folders p = anchor folders q)
      ∧ (∀ p q front token passed back,
        PatternList.tokens p = front ++ token :: (passed ++ back) →
        PatternList.tokens q = front ++ passed ++ token :: back →
        (∀ other ∈ passed,
          kind folders token ≠ kind folders other ∨ home? folders token ≠ home? folders other) →
        ((PatternList.tokens p).filterMap (home? folders)).eraseDups
          = ((PatternList.tokens q).filterMap (home? folders)).eraseDups →
          anchor folders p = anchor folders q) := by
  have alike (p q : Text) (same : SameClasses folders (PatternList.tokens p) (PatternList.tokens q)) :
      anchor folders p = anchor folders q := by
    rw [anchor, anchor, same.ofTokens_eq]
  refine ⟨alike, ?_, ?_⟩
  · intro p q front token passed back before after apart
    refine alike p q ?_
    rw [before, after]
    exact sameClasses_move (fun other member => .inl (apart other member)) (mentions_move apart)
  · intro p q front token passed back before after apart mentions
    refine alike p q ?_
    rw [before, after] at mentions ⊢
    exact sameClasses_move apart mentions

/-- Two folders share a name, and one of them is listed twice. The last move is past a token of another folder, when
both folders have come up already. -/
theorem anchor_congr_classes_mixed :
    let folders := ["/a/src".toList, "/b/src".toList, "/c/lib".toList, "/b/src".toList]
    anchor folders "src/a,*.rs,lib/x,/etc,src/b".toList = anchor folders "/etc,src/a,lib/x,src/b,*.rs".toList
      ∧ anchor folders "src/a,*.rs,lib/x".toList = anchor folders "src/a,lib/x,*.rs".toList
      ∧ anchor folders "src/a,lib/x,lib/y,src/b".toList = anchor folders "src/a,lib/x,src/b,lib/y".toList
      ∧ home? folders "src/a".toList = some "/b/src".toList := by
  obtain ⟨alike, kinds, classes⟩ :=
    anchor_congr_classes ["/a/src".toList, "/b/src".toList, "/c/lib".toList, "/b/src".toList]
  refine ⟨alike _ _ ⟨?_, ?_, ?_, ?_⟩, ?_, ?_, by decide +kernel⟩
  · decide +kernel
  · decide +kernel
  · decide +kernel
  · decide +kernel
  · exact kinds _ _ ["src/a".toList] "*.rs".toList ["lib/x".toList] [] (by decide +kernel) (by decide +kernel)
      (by decide +kernel)
  · exact classes _ _ ["src/a".toList, "lib/x".toList] "lib/y".toList ["src/b".toList] [] (by decide +kernel)
      (by decide +kernel) (by decide +kernel) (by decide +kernel)

end RootedGlob.Anchoring
