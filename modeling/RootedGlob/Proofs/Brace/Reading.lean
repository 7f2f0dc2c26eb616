import RootedGlob.Brace.Group
import Mathlib.Data.List.Basic

/-!
# Reading a brace pattern in one scan

A pattern denotes a list of texts, and a single scan of its lexemes finds them. The scan carries the
texts of the alternative it is in, and one frame for each group that is open around it. A comma
finishes an alternative of the innermost group and a closing brace finishes the group; where no
group is open, both are ordinary text.

A sealed piece of a pattern closes what it opens and has no comma and no closing brace outside its
own groups. It denotes the same texts wherever it stands: reading it continues every text read so
far by every text it denotes (`read_sealed`). So a group of sealed alternatives denotes their texts
one after the other (`read_alternatives`).
-/

namespace RootedGlob.Brace

/-- Every text of the first list continued by every text of the second, the first varying
slowest. -/
def product (starts ends : List Text) : List Text :=
  starts.flatMap fun start => ends.map (start ++ ·)

@[simp] theorem product_nil (ends : List Text) : product [] ends = [] := rfl

theorem product_cons (start : Text) (starts ends : List Text) :
    product (start :: starts) ends = ends.map (start ++ ·) ++ product starts ends := rfl

@[simp] theorem product_empty_left (ends : List Text) : product [[]] ends = ends := by
  simp [product]

@[simp] theorem product_empty_right (starts : List Text) : product starts [[]] = starts := by
  simp [product]

theorem product_append (first second ends : List Text) :
    product (first ++ second) ends = product first ends ++ product second ends :=
  List.flatMap_append

theorem product_singleton (starts : List Text) (text : Text) :
    product starts [text] = starts.map (· ++ text) := by
  induction starts with
  | nil => rfl
  | cons start starts ih => simp [product_cons, ih]

theorem product_map_left (text : Text) (starts ends : List Text) :
    product (starts.map (text ++ ·)) ends = (product starts ends).map (text ++ ·) := by
  simp [product, List.flatMap_map, List.map_flatMap, Function.comp_def]

theorem product_assoc (first second third : List Text) :
    product (product first second) third = product first (product second third) := by
  induction first with
  | nil => rfl
  | cons start starts ih =>
    rw [product_cons, product_append, ih, product_map_left, product_cons]

theorem length_product (starts ends : List Text) :
    (product starts ends).length = starts.length * ends.length := by
  simp [product, List.length_flatMap, List.map_const']

/-- A group that is open: the texts in front of it, and those of its finished alternatives. -/
structure Frame where
  before : List Text
  finished : List Text
deriving DecidableEq, Repr

/-- What a scan has found: the texts of the alternative it is in, and the open groups, the innermost
one first. -/
structure Reading where
  current : List Text := [[]]
  opened : List Frame := []
deriving DecidableEq, Repr

namespace Reading

def write (reading : Reading) (text : Text) : Reading :=
  { reading with current := reading.current.map (· ++ text) }

/-- Reads one lexeme. -/
def pass (reading : Reading) (lexeme : Lexeme) : Reading :=
  match lexeme, reading.opened with
  | .opening, opened => ⟨[[]], ⟨reading.current, []⟩ :: opened⟩
  | .comma, frame :: outer => ⟨[[]], ⟨frame.before, frame.finished ++ reading.current⟩ :: outer⟩
  | .closing, frame :: outer => ⟨product frame.before (frame.finished ++ reading.current), outer⟩
  | other, _ => reading.write other.source

/-- The frames of an inner reading on top of those of an outer one. The texts in front of its
outermost group continue those of the outer reading. -/
def stack (outer : Reading) : List Frame → List Frame
  | [] => outer.opened
  | [frame] => ⟨product outer.current frame.before, frame.finished⟩ :: outer.opened
  | frame :: next :: frames => frame :: stack outer (next :: frames)

/-- A reading that goes on inside another one. -/
def onto (outer inner : Reading) : Reading :=
  match inner.opened with
  | [] => ⟨product outer.current inner.current, outer.opened⟩
  | frames => ⟨inner.current, stack outer frames⟩

end Reading

def read (reading : Reading) (lexemes : List Lexeme) : Reading := lexemes.foldl Reading.pass reading

/-- The texts that a pattern stands for. -/
def denoted (lexemes : List Lexeme) : List Text := (read {} lexemes).current

/-- How many groups are open behind a lexeme. -/
def Lexeme.depthAfter (depth : Nat) : Lexeme → Nat
  | opening => depth + 1
  | closing => depth - 1
  | _ => depth

/-- How many groups are open behind lexemes, closing braces outside every group aside. -/
def depthAfter (depth : Nat) (lexemes : List Lexeme) : Nat :=
  lexemes.foldl Lexeme.depthAfter depth

/-- Whether lexemes that are read inside some groups close exactly these, and have no comma and no
closing brace outside every group. -/
def isSealed (depth : Nat) : List Lexeme → Bool
  | [] => depth == 0
  | .opening :: rest => isSealed (depth + 1) rest
  | .comma :: rest => depth != 0 && isSealed depth rest
  | .closing :: rest => depth != 0 && isSealed (depth - 1) rest
  | .literal _ :: rest => isSealed depth rest

@[simp] theorem read_nil (reading : Reading) : read reading [] = reading := rfl

@[simp] theorem read_cons (reading : Reading) (lexeme : Lexeme) (lexemes : List Lexeme) :
    read reading (lexeme :: lexemes) = read (reading.pass lexeme) lexemes := rfl

theorem read_append (reading : Reading) (first second : List Lexeme) :
    read reading (first ++ second) = read (read reading first) second :=
  List.foldl_append

theorem length_opened_pass (reading : Reading) (lexeme : Lexeme) :
    (reading.pass lexeme).opened.length = lexeme.depthAfter reading.opened.length := by
  obtain ⟨current, opened⟩ := reading
  cases lexeme <;> cases opened <;> rfl

theorem length_opened_read (reading : Reading) (lexemes : List Lexeme) :
    (read reading lexemes).opened.length = depthAfter reading.opened.length lexemes := by
  induction lexemes generalizing reading with
  | nil => rfl
  | cons lexeme lexemes ih =>
    rw [read_cons, ih, length_opened_pass]
    rfl

/-- Reading one lexeme inside another reading, unless it would end a part of the outer one. -/
theorem pass_onto (outer inner : Reading) (lexeme : Lexeme)
    (inside : inner.opened = [] → outer.opened ≠ [] → lexeme ≠ .comma ∧ lexeme ≠ .closing) :
    (outer.onto inner).pass lexeme = outer.onto (inner.pass lexeme) := by
  obtain ⟨start, around⟩ := outer
  obtain ⟨current, opened⟩ := inner
  -- Only the outermost inner frame knows the outer texts, so the cases are no, one and more frames.
  match opened with
  | [] =>
    have text (chunk : Text) :
        (product start current).map (· ++ chunk) = product start (current.map (· ++ chunk)) := by
      rw [← product_singleton, product_assoc, product_singleton]
    cases lexeme with
    | opening => rfl
    | comma =>
      cases around with
      | nil => simp [Reading.onto, Reading.pass, Reading.write, text]
      | cons => exact absurd rfl (inside rfl (by simp)).1
    | closing =>
      cases around with
      | nil => simp [Reading.onto, Reading.pass, Reading.write, text]
      | cons => exact absurd rfl (inside rfl (by simp)).2
    | literal => simp [Reading.onto, Reading.pass, Reading.write, text]
  | [frame] =>
    cases lexeme with
    | closing => simp [Reading.onto, Reading.stack, Reading.pass, product_assoc]
    | _ => rfl
  | frame :: next :: frames => cases lexeme <;> cases frames <;> rfl

theorem read_onto (outer inner : Reading) (lexemes : List Lexeme)
    (closed : isSealed inner.opened.length lexemes) :
    read (outer.onto inner) lexemes = outer.onto (read inner lexemes)
      ∧ (read inner lexemes).opened = [] := by
  induction lexemes generalizing inner with
  | nil => exact ⟨rfl, List.length_eq_zero_iff.mp (by simpa [isSealed] using closed)⟩
  | cons lexeme lexemes ih =>
    have step : isSealed (inner.pass lexeme).opened.length lexemes
        ∧ (inner.opened = [] → lexeme ≠ .comma ∧ lexeme ≠ .closing) := by
      rw [length_opened_pass]
      cases lexeme <;> simp_all [isSealed, Lexeme.depthAfter]
    have found := ih (inner.pass lexeme) step.1
    rw [read_cons, pass_onto outer inner lexeme (fun empty _ => step.2 empty)]
    exact found

/-- A sealed piece continues every text read so far by every text it denotes. -/
theorem read_sealed (reading : Reading) {lexemes : List Lexeme} (closed : isSealed 0 lexemes) :
    read reading lexemes = ⟨product reading.current (denoted lexemes), reading.opened⟩ := by
  have start : reading.onto {} = reading := by simp [Reading.onto]
  obtain ⟨inside, flat⟩ := read_onto reading {} lexemes closed
  rw [start] at inside
  rw [inside, Reading.onto, flat]
  rfl

theorem read_onto_outside (starts : List Text) (inner : Reading) (lexemes : List Lexeme) :
    read (Reading.onto ⟨starts, []⟩ inner) lexemes
      = Reading.onto ⟨starts, []⟩ (read inner lexemes) := by
  induction lexemes generalizing inner with
  | nil => rfl
  | cons lexeme lexemes ih =>
    rw [read_cons, pass_onto _ inner lexeme (fun _ filled => absurd rfl filled)]
    exact ih (inner.pass lexeme)

/-- Outside every group, whatever is read continues the texts in front of it. -/
theorem read_outside (starts : List Text) {lexemes : List Lexeme}
    (closed : depthAfter 0 lexemes = 0) :
    read ⟨starts, []⟩ lexemes = ⟨product starts (denoted lexemes), []⟩ := by
  have start : Reading.onto ⟨starts, []⟩ {} = ⟨starts, []⟩ := by simp [Reading.onto]
  have flat : (read {} lexemes).opened = [] :=
    List.length_eq_zero_iff.mp ((length_opened_read {} lexemes).trans closed)
  have whole := read_onto_outside starts {} lexemes
  rw [start] at whole
  rw [whole, Reading.onto, flat]
  rfl

theorem isSealed_append {depth : Nat} {first : List Lexeme} (closed : isSealed depth first)
    (outer : Nat) (second : List Lexeme) :
    isSealed (depth + outer) (first ++ second) = isSealed outer second := by
  -- The depth of the first part is on top of the outer one all along, and comes to nothing at its end.
  induction first generalizing depth with
  | nil => simp_all [isSealed]
  | cons lexeme first ih =>
    cases lexeme with
    | opening =>
      rw [List.cons_append, isSealed, Nat.add_right_comm]
      exact ih closed
    | literal => exact ih closed
    | comma =>
      simp only [isSealed, Bool.and_eq_true, bne_iff_ne] at closed
      rw [List.cons_append, isSealed, ih closed.2]
      simp [closed.1]
    | closing =>
      simp only [isSealed, Bool.and_eq_true, bne_iff_ne] at closed
      have same : depth + outer - 1 = depth - 1 + outer := by omega
      rw [List.cons_append, isSealed, same, ih closed.2]
      simp [closed.1]

theorem depthAfter_of_isSealed {depth : Nat} {lexemes : List Lexeme}
    (closed : isSealed depth lexemes) : depthAfter depth lexemes = 0 := by
  induction lexemes generalizing depth with
  | nil => simpa [isSealed, depthAfter] using closed
  | cons lexeme lexemes ih => cases lexeme <;> simp_all [isSealed, depthAfter, Lexeme.depthAfter]

/-- The rest of an open group, up to the brace that closes it: sealed alternatives with commas
between them are read as the texts of the one after those of the other. -/
theorem read_alternatives (before finished : List Text) (outer : List Frame)
    {parts : List (List Lexeme)} (nonempty : parts ≠ []) (closed : ∀ part ∈ parts, isSealed 0 part)
    (later : List Lexeme) :
    read ⟨[[]], ⟨before, finished⟩ :: outer⟩
        ([Lexeme.comma].intercalate parts ++ Lexeme.closing :: later)
      = read ⟨product before (finished ++ parts.flatMap denoted), outer⟩ later := by
  -- Every comma moves what was read since the last one to the finished texts.
  induction parts generalizing finished with
  | nil => exact absurd rfl nonempty
  | cons part parts ih =>
    have first := read_sealed ⟨[[]], ⟨before, finished⟩ :: outer⟩ (closed part List.mem_cons_self)
    cases parts with
    | nil =>
      simp only [List.intercalate, List.intersperse, List.flatten_cons, List.flatten_nil,
        List.append_nil, read_append, first, read_cons]
      simp [Reading.pass]
    | cons next parts =>
      have rest := ih (finished ++ denoted part) (List.cons_ne_nil _ _)
        (fun other member => closed other (List.mem_cons_of_mem _ member))
      simp only [List.intercalate, List.intersperse, List.flatten_cons, List.append_assoc,
        List.cons_append, List.nil_append, read_append, first, read_cons] at rest ⊢
      simpa [Reading.pass] using rest

/-- The rest of an open group of sealed alternatives closes this group and nothing else. -/
theorem isSealed_alternatives {parts : List (List Lexeme)} (closed : ∀ part ∈ parts, isSealed 0 part)
    (later : List Lexeme) :
    isSealed 1 ([Lexeme.comma].intercalate parts ++ Lexeme.closing :: later)
      = isSealed 0 later := by
  induction parts with
  | nil => rfl
  | cons part parts ih =>
    have first := isSealed_append (closed part List.mem_cons_self) 1
    rw [Nat.zero_add] at first
    cases parts with
    | nil =>
      rw [List.intercalate_singleton, first]
      rfl
    | cons next parts =>
      rw [List.intercalate_cons_cons, List.append_assoc, List.append_assoc, first]
      exact ih fun other member => closed other (List.mem_cons_of_mem _ member)

/-- No reading runs out of texts. -/
structure Reading.IsFilled (reading : Reading) : Prop where
  current : reading.current ≠ []
  before : ∀ frame ∈ reading.opened, frame.before ≠ []

theorem product_ne_nil {starts ends : List Text} (one : starts ≠ []) (two : ends ≠ []) :
    product starts ends ≠ [] := by
  rw [← List.length_pos_iff, length_product]
  exact Nat.mul_pos (List.length_pos_iff.mpr one) (List.length_pos_iff.mpr two)

theorem Reading.IsFilled.pass {reading : Reading} (filled : reading.IsFilled) (lexeme : Lexeme) :
    (reading.pass lexeme).IsFilled := by
  obtain ⟨current, opened⟩ := reading
  obtain ⟨some, before⟩ := filled
  have written (chunk : Text) : IsFilled (Reading.write ⟨current, opened⟩ chunk) :=
    ⟨by simpa [Reading.write] using some, before⟩
  -- Outside every group a comma and a closing brace are text.
  cases opened with
  | nil =>
    cases lexeme with
    | opening => exact ⟨by simp [Reading.pass], by simpa [Reading.pass] using some⟩
    | _ => exact written _
  | cons frame outer =>
    rw [List.forall_mem_cons] at before
    cases lexeme with
    | opening =>
      exact ⟨by simp [Reading.pass], by simpa [Reading.pass] using ⟨some, before⟩⟩
    | comma => exact ⟨by simp [Reading.pass], by simpa [Reading.pass] using before⟩
    | closing =>
      refine ⟨product_ne_nil before.1 ?_, before.2⟩
      simp [some]
    | literal => exact written _

theorem isFilled_read (lexemes : List Lexeme) {reading : Reading} (filled : reading.IsFilled) :
    (read reading lexemes).IsFilled := by
  induction lexemes generalizing reading with
  | nil => exact filled
  | cons lexeme lexemes ih => exact ih (filled.pass lexeme)

/-- Every pattern denotes some text. -/
theorem denoted_ne_nil (lexemes : List Lexeme) : denoted lexemes ≠ [] :=
  (isFilled_read lexemes ⟨by simp, by simp⟩).current

end RootedGlob.Brace
