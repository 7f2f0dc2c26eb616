import RootedGlob.Proofs.Brace.Plain
import RootedGlob.Proofs.Path.Location
import Mathlib.Data.List.Forall2
import Mathlib.Logic.Relation

/-!
# Spellings of a pattern

A pattern with groups is normalized as if it were a path, so its segments may begin in one
alternative and end in another. Dropping a repeated separator, a `.` segment, or a flat name with the
`..` behind it respells the pattern. Respelling keeps all marks, and what it does to the text of a
pattern it does to each text that the pattern denotes (`forall₂_denoted`); these keep their
location (`stand_eq_of_alike`). Normalization is such a respelling as long as every `..` takes away a
flat name (`alike_normalize`).
-/

namespace RootedGlob.Anchoring

open RootedGlob.Path Brace

/-- One step towards a shorter spelling. -/
inductive Respells : Text → Text → Prop
  | repeated (front back : Text) :
      Respells (front ++ separator :: separator :: back) (front ++ separator :: back)
  | current (front back : Text) :
      Respells (front ++ separator :: (dot ++ separator :: back)) (front ++ separator :: back)
  | parent {name : Text} (proper : IsName name) (flat : IsFlat name) (front back : Text) :
      Respells (front ++ separator :: (name ++ separator :: (dotDot ++ separator :: back)))
        (front ++ separator :: back)

/-- Two spellings of one pattern. -/
def Alike : Text → Text → Prop := Relation.EqvGen Respells

namespace Alike

theorem refl (text : Text) : Alike text text := Relation.EqvGen.refl text

theorem symm {first second : Text} (alike : Alike first second) : Alike second first :=
  Relation.EqvGen.symm _ _ alike

theorem trans {first second third : Text} (one : Alike first second) (two : Alike second third) :
    Alike first third := Relation.EqvGen.trans _ _ _ one two

theorem of_step {first second : Text} (step : Respells first second) : Alike first second :=
  .rel _ _ step

/-- What a function or a property makes of a text is the same for all spellings, if it is for one
step. -/
theorem eq_of_step {α : Type} {f : Text → α}
    (step : ∀ {first second}, Respells first second → f first = f second) {first second : Text}
    (alike : Alike first second) : f first = f second := by
  induction alike with
  | rel _ _ once => exact step once
  | refl => rfl
  | symm _ _ _ ih => exact ih.symm
  | trans _ _ _ _ _ one two => exact one.trans two

end Alike

theorem Respells.append_left (start : Text) {first second : Text} (step : Respells first second) :
    Respells (start ++ first) (start ++ second) := by
  cases step with
  | repeated front back => simpa using Respells.repeated (start ++ front) back
  | current front back => simpa using Respells.current (start ++ front) back
  | parent proper flat front back => simpa using Respells.parent proper flat (start ++ front) back

theorem Respells.append_right (tail : Text) {first second : Text} (step : Respells first second) :
    Respells (first ++ tail) (second ++ tail) := by
  cases step with
  | repeated front back => simpa using Respells.repeated front (back ++ tail)
  | current front back => simpa using Respells.current front (back ++ tail)
  | parent proper flat front back => simpa using Respells.parent proper flat front (back ++ tail)

theorem Alike.append_left (start : Text) {first second : Text} (alike : Alike first second) :
    Alike (start ++ first) (start ++ second) := by
  induction alike with
  | rel _ _ step => exact .rel _ _ (step.append_left start)
  | refl => exact .refl _
  | symm _ _ _ ih => exact ih.symm
  | trans _ _ _ _ _ one two => exact one.trans two

theorem Alike.append_right (tail : Text) {first second : Text} (alike : Alike first second) :
    Alike (first ++ tail) (second ++ tail) := by
  induction alike with
  | rel _ _ step => exact .rel _ _ (step.append_right tail)
  | refl => exact .refl _
  | symm _ _ _ ih => exact ih.symm
  | trans _ _ _ _ _ one two => exact one.trans two

theorem Alike.append {first second third fourth : Text} (one : Alike first second)
    (two : Alike third fourth) : Alike (first ++ third) (second ++ fourth) :=
  (one.append_right third).trans (two.append_left second)

/-- All spellings lead to one location. -/
theorem stand_eq_of_alike {first second : Text} (alike : Alike first second) :
    stand first = stand second := by
  refine alike.eq_of_step fun step => ?_
  cases step with
  | repeated front back =>
    rw [stand_append, stand_append, segments_separator, List.foldl_cons, walk_blank _ _ (.inl rfl)]
  | current front back =>
    rw [stand_append, stand_append, segments_append, segments_single (by decide),
      List.singleton_append, List.foldl_cons, walk_blank _ _ (.inr rfl)]
  | parent proper flat front back =>
    rw [stand_append, stand_append, segments_append, segments_append,
      segments_single proper.single, segments_single (by decide), List.singleton_append,
      List.singleton_append, List.foldl_cons, List.foldl_cons, walk_name _ _ proper,
      walk_parent _ _ proper]

/-- A step replaces a flat piece by another one, and would do so behind any text. -/
theorem Respells.exists_pieces {first second : Text} (step : Respells first second) :
    ∃ front long short back, first = front ++ (long ++ back) ∧ second = front ++ (short ++ back)
      ∧ IsFlat long ∧ IsFlat short ∧ ∀ start, Respells (start ++ long) (start ++ short) := by
  -- Each step replaces a piece between two separators by one separator; the piece holds nothing marked.
  cases step with
  | repeated front back =>
    exact ⟨front, [separator, separator], [separator], back, rfl, rfl, by decide, by decide,
      fun start => .repeated start []⟩
  | current front back =>
    exact ⟨front, separator :: (dot ++ [separator]), [separator], back, by simp, by simp, by decide,
      by decide, fun start => .current start []⟩
  | @parent name proper flat front back =>
    refine ⟨front, separator :: (name ++ separator :: (dotDot ++ [separator])), [separator], back,
      by simp, by simp, ?_, by decide, fun start => .parent proper flat start []⟩
    have around : IsFlat (separator :: dotDot ++ [separator]) := by decide
    intro c member
    simp only [List.mem_cons, List.mem_append, List.not_mem_nil, or_false] at member
    rcases member with rfl | inside | rfl | member | rfl
    · decide
    · exact flat c inside
    · decide
    · exact around c (by simp [member])
    · decide

theorem isUnguarded_iff_of_alike {first second : Text} (alike : Alike first second) :
    IsUnguarded first ↔ IsUnguarded second := by
  refine Iff.of_eq (alike.eq_of_step fun step => ?_)
  obtain ⟨front, long, short, back, rfl, rfl, one, two, -⟩ := step.exists_pieces
  simp [isUnguarded_append, one.unguarded, two.unguarded]

/-- The lexemes around the replaced piece stay as they are. -/
theorem Respells.exists_lexemes {first second : Text} (step : Respells first second)
    (unguarded : IsUnguarded first) :
    ∃ front long short back, lex first = front ++ (lex long ++ back)
      ∧ lex second = front ++ (lex short ++ back) ∧ IsFlat long ∧ IsFlat short
      ∧ ∀ start, Respells (start ++ long) (start ++ short) := by
  obtain ⟨front, long, short, back, rfl, rfl, one, two, anywhere⟩ := step.exists_pieces
  obtain ⟨before, -, behind⟩ := isUnguarded_append.mp unguarded |>.imp_right isUnguarded_append.mp
  refine ⟨lex front, long, short, lex back, ?_, ?_, one, two, anywhere⟩
  · rw [lex_append before (isUnguarded_append.mpr ⟨one.unguarded, behind⟩),
      lex_append one.unguarded behind]
  · rw [lex_append before (isUnguarded_append.mpr ⟨two.unguarded, behind⟩),
      lex_append two.unguarded behind]

theorem Alike.eq_of_unguarded_step {α : Type} {f : Text → α}
    (step : ∀ {first second}, Respells first second → IsUnguarded first → f first = f second)
    {first second : Text} (alike : Alike first second) (unguarded : IsUnguarded first) :
    f first = f second := by
  induction alike with
  | rel _ _ once => exact step once unguarded
  | refl => rfl
  | symm _ _ alike ih => exact (ih ((isUnguarded_iff_of_alike alike).mpr unguarded)).symm
  | trans _ _ _ alike _ one two =>
    exact (one unguarded).trans (two ((isUnguarded_iff_of_alike alike).mp unguarded))

theorem isSealed_of_alike {first second : Text} (alike : Alike first second)
    (unguarded : IsUnguarded first) :
    isSealed 0 (lex first) = isSealed 0 (lex second) := by
  refine alike.eq_of_unguarded_step (f := fun text => isSealed 0 (lex text)) ?_ unguarded
  intro first second step unguarded
  obtain ⟨front, long, short, back, one, two, flat, flat', -⟩ := step.exists_lexemes unguarded
  simp only [one, two]
  generalize 0 = depth
  clear one two
  induction front generalizing depth with
  | nil => exact (isSealed_of_isFlat depth flat back).trans (isSealed_of_isFlat depth flat' back).symm
  | cons lexeme front ih => cases lexeme <;> simp [isSealed, ih]

theorem countGroups_of_alike {first second : Text} (alike : Alike first second)
    (unguarded : IsUnguarded first) : countGroups first = countGroups second := by
  refine alike.eq_of_unguarded_step (f := countGroups) ?_ unguarded
  intro first second step unguarded
  obtain ⟨front, long, short, back, one, two, flat, flat', -⟩ := step.exists_lexemes unguarded
  have none := countGroups_of_isFlat flat
  have none' := countGroups_of_isFlat flat'
  rw [countGroups] at none none' ⊢
  rw [countGroups, one, two]
  simp only [List.count_append, none, none']

/-- Readings whose texts are spellings of each other. -/
structure ReadAlike (first second : Reading) : Prop where
  current : List.Forall₂ Alike first.current second.current
  opened : List.Forall₂ (fun one two => List.Forall₂ Alike one.before two.before
    ∧ List.Forall₂ Alike one.finished two.finished) first.opened second.opened

theorem forall₂_alike_refl (texts : List Text) : List.Forall₂ Alike texts texts :=
  List.forall₂_same.mpr fun text _ => .refl text

theorem forall₂_product {first second third fourth : List Text}
    (one : List.Forall₂ Alike first second) (two : List.Forall₂ Alike third fourth) :
    List.Forall₂ Alike (product first third) (product second fourth) := by
  refine List.rel_flatMap one fun start other alike => ?_
  exact List.rel_map (fun _ _ ends => alike.append ends) two

namespace ReadAlike

theorem refl (reading : Reading) : ReadAlike reading reading :=
  ⟨forall₂_alike_refl _, List.forall₂_same.mpr fun _ _ =>
    ⟨forall₂_alike_refl _, forall₂_alike_refl _⟩⟩

theorem symm {first second : Reading} (alike : ReadAlike first second) : ReadAlike second first := by
  constructor
  · exact (alike.current.imp fun _ _ => Alike.symm).flip
  · refine (alike.opened.imp fun one two same => ?_).flip
    exact ⟨(same.1.imp fun _ _ => Alike.symm).flip, (same.2.imp fun _ _ => Alike.symm).flip⟩

theorem write {first second : Reading} (alike : ReadAlike first second) {one two : Text}
    (chunk : ∀ start, Alike (start ++ one) (start ++ two)) :
    ReadAlike (first.write one) (second.write two) :=
  ⟨List.rel_map (fun start _ same => (chunk start).trans (same.append_right two)) alike.current,
    alike.opened⟩

/-- Reading one lexeme extends alike texts by the same text. -/
theorem pass {first second : Reading} (alike : ReadAlike first second) (lexeme : Lexeme) :
    ReadAlike (first.pass lexeme) (second.pass lexeme) := by
  obtain ⟨current, opened⟩ := first
  obtain ⟨current', opened'⟩ := second
  obtain ⟨texts, frames⟩ := alike
  have plain (chunk : Text) : ReadAlike (Reading.write ⟨current, opened⟩ chunk)
      (Reading.write ⟨current', opened'⟩ chunk) := write ⟨texts, frames⟩ fun _ => .refl _
  cases frames with
  | nil =>
    cases lexeme with
    | opening => exact ⟨forall₂_alike_refl _, .cons ⟨texts, .nil⟩ .nil⟩
    | _ => exact plain _
  | cons frame rest =>
    obtain ⟨before, finished⟩ := frame
    cases lexeme with
    | opening =>
      exact ⟨forall₂_alike_refl _, .cons ⟨texts, .nil⟩ (.cons ⟨before, finished⟩ rest)⟩
    | comma =>
      exact ⟨forall₂_alike_refl _, .cons ⟨before, List.rel_append finished texts⟩ rest⟩
    | closing => exact ⟨forall₂_product before (List.rel_append finished texts), rest⟩
    | literal => exact plain _

theorem read {first second : Reading} (alike : ReadAlike first second) (lexemes : List Lexeme) :
    ReadAlike (read first lexemes) (Brace.read second lexemes) := by
  induction lexemes generalizing first second with
  | nil => exact alike
  | cons lexeme lexemes ih => exact ih (alike.pass lexeme)

end ReadAlike

/-- Spellings of one pattern denote spellings of the same texts, in the same order. -/
theorem forall₂_denoted {first second : Text} (alike : Alike first second)
    (unguarded : IsUnguarded first) :
    List.Forall₂ Alike (denoted (lex first)) (denoted (lex second)) := by
  induction alike with
  | rel first second step =>
    obtain ⟨front, long, short, back, one, two, flat, flat', anywhere⟩ :=
      step.exists_lexemes unguarded
    rw [denoted, denoted, one, two]
    simp only [read_append, read_of_isFlat _ flat, read_of_isFlat _ flat']
    exact (((ReadAlike.refl _).write fun start => .of_step (anywhere start)).read back).current
  | refl => exact forall₂_alike_refl _
  | symm _ _ alike ih =>
    exact ((ih ((isUnguarded_iff_of_alike alike).mpr unguarded)).imp fun _ _ => Alike.symm).flip
  | trans _ _ _ alike _ one two =>
    exact forall₂_trans (one unguarded)
      (two ((isUnguarded_iff_of_alike alike).mp unguarded)) Alike.trans

/-- Whether every `..` in a walk takes away a flat name. -/
def TakesFlat : List Text → List Text → Prop
  | _, [] => True
  | stack, segment :: rest =>
    if segment = dotDot then
      ∃ top below, stack = top :: below ∧ IsName top ∧ IsFlat top ∧ TakesFlat below rest
    else TakesFlat (walk true stack segment) rest

theorem takesFlat_of_not_mem {names : List Text} (absent : dotDot ∉ names) (stack : List Text) :
    TakesFlat stack names := by
  induction names generalizing stack with
  | nil => exact trivial
  | cons segment names ih =>
    rw [List.mem_cons, not_or] at absent
    rw [TakesFlat, if_neg (Ne.symm absent.1)]
    exact ih absent.2 _

/-- What such a walk does on top of a location does not depend on that location. -/
theorem foldl_walk_append (absolute : Bool) {stack names : List Text} (takes : TakesFlat stack names)
    (base : List Text) :
    names.foldl (walk absolute) (stack ++ base) = names.foldl (walk true) stack ++ base := by
  -- A `..` finds a name of the walk's own to take away, so the base is never touched.
  induction names generalizing stack with
  | nil => rfl
  | cons segment names ih =>
    rw [TakesFlat] at takes
    rw [List.foldl_cons, List.foldl_cons]
    split at takes
    · next parent =>
      obtain ⟨top, below, rfl, proper, -, rest⟩ := takes
      rw [parent, List.cons_append, walk_parent _ _ proper, walk_parent _ _ proper]
      exact ih rest
    · next other =>
      have same : walk absolute (stack ++ base) segment = walk true stack segment ++ base := by
        rw [walk.eq_def, walk.eq_def]
        split
        · rfl
        · rfl
      rw [same]
      exact ih takes

/-- Behind a separator, text goes on with one. -/
theorem exists_rooted_append (names : List Text) (back : Text) :
    ∃ rest, rooted names ++ separator :: back = separator :: rest := by
  cases names with
  | nil => exact ⟨back, rfl⟩
  | cons name names => exact ⟨_, rfl⟩

/-- A walk that takes away flat names only respells the text that it walks. -/
theorem alike_walk {stack names : List Text} (takes : TakesFlat stack names) (back : Text) :
    Alike (rooted stack.reverse ++ (rooted names ++ separator :: back))
      (rooted (names.foldl (walk true) stack).reverse ++ separator :: back) := by
  -- The names on the stack are spelled in front of the names still to come; each step of the walk
  -- respells what stands between.
  induction names generalizing stack with
  | nil => exact .refl _
  | cons segment names ih =>
    obtain ⟨rest, following⟩ := exists_rooted_append names back
    rw [TakesFlat] at takes
    rw [List.foldl_cons, rooted_cons, List.cons_append, List.append_assoc]
    split at takes
    · next parent =>
      obtain ⟨top, below, rfl, proper, flat, takes⟩ := takes
      rw [parent, walk_parent _ _ proper]
      refine Alike.trans ?_ (ih takes)
      rw [following, List.reverse_cons, rooted_append, rooted_cons, rooted_nil, List.append_nil,
        List.append_assoc, List.cons_append]
      exact .of_step (.parent proper flat _ _)
    · next other =>
      refine Alike.trans ?_ (ih takes)
      by_cases blank : segment = [] ∨ segment = dot
      · rw [walk_blank _ _ blank, following]
        rcases blank with rfl | rfl
        · exact .of_step (.repeated _ _)
        · exact .of_step (.current _ _)
      · have pushed : walk true stack segment = segment :: stack := by
          rw [walk.eq_def, if_neg blank, if_neg other]
        rw [pushed, List.reverse_cons, rooted_append, rooted_cons, rooted_nil, List.append_nil,
          List.append_assoc, List.cons_append]
        exact .refl _

/-- A separator at the end is as good as two of them. -/
theorem alike_closed (text : Text) : Alike (text ++ [separator] ++ [separator]) (text ++ [separator]) := by
  simpa using Alike.of_step (.repeated text [])

/-- A text, closed by a separator, is a spelling of the names that a walk of it leaves. -/
theorem alike_segments {path : Text} (takes : TakesFlat [] (segments path)) :
    Alike (separator :: path ++ [separator]) (rooted (location path) ++ [separator]) := by
  have walked := alike_walk takes []
  rw [rooted_segments] at walked
  exact walked

/-- Normalizing an absolute pattern respells it if every `..` takes away a flat name. -/
theorem alike_normalize {path : Text} (absolute : isAbsolute path)
    (takes : TakesFlat [] (segments path)) :
    Alike (normalize path ++ [separator]) (path ++ [separator]) := by
  have named := alike_segments takes
  have opened : Alike (separator :: path ++ [separator]) (path ++ [separator]) := by
    obtain ⟨rest, rfl⟩ := isAbsolute_iff.mp absolute
    exact .of_step (.repeated [] _)
  refine Alike.trans ?_ (named.symm.trans opened)
  rw [normalize_of_isAbsolute absolute, spelled_eq]
  split
  · exact alike_closed _
  · split
    · next root =>
      rw [root]
      exact alike_closed []
    · exact .refl _

/-- Behind names that stay, normalization respells the rest of a pattern if every `..` takes away a
flat name of that rest. -/
theorem normalize_append {front back first : Text} {names : List Text}
    (split : segments front = first :: names) (proper : ∀ name ∈ first :: names, IsName name)
    (takes : TakesFlat [] (segments back)) :
    ∃ tail, normalize (front ++ separator :: back) = front ++ tail
      ∧ (tail = rooted (location back) ∨ tail = rooted (location back) ++ [separator])
      ∧ Alike (tail ++ [separator]) (separator :: back ++ [separator]) := by
  have whole : front = first ++ rooted names := by
    rw [← ofSegments_cons, ← split, ofSegments_segments]
  have relative : isAbsolute (front ++ separator :: back) = false := by
    rw [whole, List.append_assoc]
    exact isAbsolute_append_of_isName (proper first List.mem_cons_self) _
  have place : resolve (front ++ separator :: back) = first :: (names ++ location back) := by
    have walked := foldl_walk_append false takes ((first :: names).reverse ++ [])
    rw [List.nil_append] at walked
    rw [resolve, relative, segments_append, List.foldl_append, split, foldl_walk_names _ _ proper,
      walked, ← stand, location]
    simp
  have normal := normalize_of_resolve relative place (proper first List.mem_cons_self).nonempty
  rw [rooted_append, ← List.append_assoc, ← whole] at normal
  have named := (alike_segments takes).symm
  rw [normal]
  split
  · exact ⟨rooted (location back) ++ [separator], by rw [List.append_assoc], .inr rfl,
      (alike_closed _).trans named⟩
  · exact ⟨rooted (location back), rfl, .inl rfl, named⟩

end RootedGlob.Anchoring
