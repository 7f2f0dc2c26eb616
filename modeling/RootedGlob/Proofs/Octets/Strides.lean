import RootedGlob.Proofs.Brace.Lexing
import RootedGlob.Proofs.Octets.Offsets

/-!
# Strides of a scan by offsets

The scans of a brace pattern go from offset to offset: over a single byte, over a backslash and the byte behind
it, or over a whole class. What they pass over between two marks is one literal lexeme or a part of it
(`passes_literal`): the byte behind a backslash may be the first one of several that encode the guarded character,
and the scan goes through the others without noticing them.
-/

namespace RootedGlob.Octets

open Brace (Stands cutClass? classLead append_classLead)

section Scanning

/-- The offset behind a byte that reads as one of some marks, or else the offset of the byte. -/
def skip (bytes : List UInt8) (marks : List Char) (offset : Nat) : Nat :=
  if marks.any fun mark => read? bytes offset == some mark then offset + 1 else offset

theorem le_skip (bytes : List UInt8) (marks : List Char) (offset : Nat) : offset ≤ skip bytes marks offset := by
  rw [skip]
  split
  · exact Nat.le_succ offset
  · exact Nat.le_refl offset

/-- The offset behind the beginning of a class: its opening bracket, a sign of negation behind that, and a
closing bracket directly behind them. -/
def classStart (bytes : List UInt8) (offset : Nat) : Nat :=
  skip bytes [']'] (skip bytes ['!', '^'] (offset + 1))

/-- The offset of the bracket that closes a class. -/
def classEnd? (bytes : List UInt8) (offset : Nat) : Option Nat :=
  let start := classStart bytes offset
  ((bytes.drop (min start bytes.length)).findIdx? fun byte => Char.ofUInt8 byte == ']').map (start + ·)

/-- Where a scan goes on behind the byte at an offset. -/
def stride (bytes : List UInt8) (offset : Nat) : Nat :=
  match read? bytes offset with
  | some '\\' => offset + 2
  | some '[' =>
    match classEnd? bytes offset with
    | some last => last + 1
    | none => offset + 1
  | _ => offset + 1

theorem lt_stride (bytes : List UInt8) (offset : Nat) : offset < stride bytes offset := by
  have start : offset < classStart bytes offset := by
    rw [classStart]
    exact Nat.le_trans (le_skip bytes _ _) (le_skip bytes _ _)
  unfold stride
  split
  · omega
  · split
    · next last found =>
      simp only [classEnd?, Option.map_eq_some_iff] at found
      obtain ⟨behind, -, rfl⟩ := found
      omega
    · omega
  · omega

end Scanning

section Classes

/-- Which byte reads as an ASCII mark tells which character it belongs to. -/
theorem eq_of_mem_utf8EncodeChar {c mark : Char} (ascii : mark.toNat < 128) {byte : UInt8}
    (member : byte ∈ String.utf8EncodeChar c) (same : Char.ofUInt8 byte = mark) : c = mark := by
  by_cases wide : 128 ≤ c.toNat
  · have large := wide_of_mem_utf8EncodeChar wide member
    rw [same] at large
    exact absurd large (Nat.not_le.mpr ascii)
  · obtain ⟨single, whole, reads⟩ := utf8EncodeChar_of_ascii (Nat.lt_of_not_le wide)
    rw [whole, List.mem_singleton] at member
    rw [← reads, ← member, same]

/-- The first byte that reads as an ASCII mark is where the mark stands. -/
theorem findIdx?_octets {mark : Char} (ascii : mark.toNat < 128) (text : Text) :
    (octets text).findIdx? (fun byte => Char.ofUInt8 byte == mark)
      = (Text.cutAt? mark text).map fun (before, _) => (octets before).length := by
  induction text with
  | nil => rfl
  | cons c text ih =>
    rw [octets_cons, List.findIdx?_append, ih, Text.cutAt?]
    -- A character in front of the mark has several bytes perhaps, but none that reads as the mark.
    by_cases here : c = mark
    · subst here
      obtain ⟨byte, single, reads⟩ := utf8EncodeChar_of_ascii ascii
      simp [single, reads]
    · have absent : (String.utf8EncodeChar c).findIdx? (fun byte => Char.ofUInt8 byte == mark) = none := by
        rw [List.findIdx?_eq_none_iff]
        intro byte member
        simpa using fun same => here (eq_of_mem_utf8EncodeChar ascii member same)
      rw [absent, if_neg here, Option.none_or, Option.map_map, Option.map_map]
      congr 1
      funext cuts
      simp [Nat.add_comm]

variable (front rest : Text)

theorem skip_of_mem {marks : List Char} {mark : Char} (ascii : mark.toNat < 128) (member : mark ∈ marks) :
    skip (octets (front ++ mark :: rest)) marks (octets front).length = (octets (front ++ [mark])).length := by
  have found := beq_iff_eq.mpr (read?_ascii ascii front rest)
  rw [skip, if_pos (List.any_eq_true.mpr ⟨mark, member, found⟩), length_octets_concat ascii]

theorem skip_of_not_mem {marks : List Char} (ascii : ∀ mark ∈ marks, mark.toNat < 128)
    (absent : ∀ mark ∈ marks, rest.head? ≠ some mark) :
    skip (octets (front ++ rest)) marks (octets front).length = (octets front).length := by
  rw [skip, if_neg]
  intro found
  obtain ⟨mark, member, read⟩ := List.any_eq_true.mp found
  exact absent mark member ((read?_eq_some_iff (ascii mark member) front rest).mp (beq_iff_eq.mp read))

/-- Both ways to read a class pass over the same beginning of it. -/
theorem skip_classLead : skip (octets (front ++ rest)) [']']
    (skip (octets (front ++ rest)) ['!', '^'] (octets front).length)
      = (octets (front ++ (classLead rest).1)).length := by
  have other {rest : Text} {mark : Char} (absent : ∀ later, rest ≠ mark :: later) : rest.head? ≠ some mark :=
    fun next => absurd (List.head?_eq_some_iff.mp next) (not_exists.mpr absent)
  have bracket (front rest : Text) : skip (octets (front ++ ']' :: rest)) [']'] (octets front).length
      = (octets (front ++ [']'])).length := skip_of_mem front rest (by decide) (by decide)
  have noBracket (front : Text) {rest : Text} (absent : ∀ later, rest ≠ ']' :: later) :
      skip (octets (front ++ rest)) [']'] (octets front).length = (octets front).length :=
    skip_of_not_mem front rest (by simp) (by simpa using other absent)
  have sign {c : Char} (known : c = '!' ∨ c = '^') (rest : Text) :
      skip (octets (front ++ c :: rest)) ['!', '^'] (octets front).length = (octets (front ++ [c])).length := by
    rcases known with rfl | rfl <;> exact skip_of_mem front rest (by decide) (by decide)
  have noSign {rest : Text} (absent : ∀ later, rest ≠ '!' :: later) (absent' : ∀ later, rest ≠ '^' :: later) :
      skip (octets (front ++ rest)) ['!', '^'] (octets front).length = (octets front).length :=
    skip_of_not_mem front rest (by simp) (by simpa using ⟨other absent, other absent'⟩)
  -- The six shapes of a beginning: two signs or none, with a bracket behind or not.
  unfold classLead
  split
  · next rest => rw [sign (.inl rfl), List.append_cons front, bracket, ← List.append_cons]
  · next rest => rw [sign (.inr rfl), List.append_cons front, bracket, ← List.append_cons]
  · next rest => rw [noSign (by simp) (by simp), bracket]
  · next rest plain => rw [sign (.inl rfl), List.append_cons front, noBracket _ plain]
  · next rest plain => rw [sign (.inr rfl), List.append_cons front, noBracket _ plain]
  · next closing plain plain' => rw [noSign plain plain', noBracket _ closing, List.append_nil]

theorem classStart_eq : classStart (octets (front ++ '[' :: rest)) (octets front).length
    = (octets (front ++ '[' :: (classLead rest).1)).length := by
  have start := skip_classLead (front ++ ['[']) rest
  rwa [← List.append_cons, ← List.append_cons, length_octets_concat (by decide)] at start

/-- Both ways to read a class come to the same end of it. -/
theorem classEnd?_eq : (classEnd? (octets (front ++ '[' :: rest)) (octets front).length).map (· + 1)
    = (cutClass? rest).map fun (body, _) => (octets (front ++ '[' :: body)).length := by
  have whole : octets (front ++ '[' :: rest)
      = octets (front ++ '[' :: (classLead rest).1) ++ octets (classLead rest).2 := by
    rw [← octets_append, List.append_assoc, List.cons_append, append_classLead]
  have short : (octets (front ++ '[' :: (classLead rest).1)).length ≤ (octets (front ++ '[' :: rest)).length := by
    rw [whole, List.length_append]
    exact Nat.le_add_right _ _
  simp only [classEnd?, classStart_eq, Nat.min_eq_left short]
  rw [whole, List.drop_left, findIdx?_octets (by decide), cutClass?, Option.map_map, Option.map_map,
    Option.map_map]
  congr 1
  funext cuts
  have behind := length_octets_concat (c := ']') (by decide) (front ++ '[' :: (classLead rest).1 ++ cuts.1)
  rw [octets_append _ cuts.1, List.length_append] at behind
  simpa using behind.symm

theorem read?_of_classEnd? {bytes : List UInt8} {offset last : Nat} (found : classEnd? bytes offset = some last) :
    read? bytes last = some ']' := by
  simp only [classEnd?, Option.map_eq_some_iff] at found
  obtain ⟨behind, search, rfl⟩ := found
  obtain ⟨inside, here, -⟩ := List.findIdx?_eq_some_iff_getElem.mp search
  simp only [List.getElem_drop, beq_iff_eq, List.length_drop] at here inside
  have start : classStart bytes offset ≤ bytes.length := by omega
  simp only [Nat.min_eq_left start] at here
  rw [read?, List.getElem?_eq_getElem (by omega), Option.map_some, here]

end Classes

section Passing

/-- A scan goes from an offset to another one without coming to a mark. -/
inductive Leads (bytes : List UInt8) : Nat → Nat → Prop
  | here (offset : Nat) : Leads bytes offset offset
  | step {offset last : Nat} {c : Char} (found : read? bytes offset = some c)
      (ordinary : c ≠ '{' ∧ c ≠ ',' ∧ c ≠ '}') (onward : Leads bytes (stride bytes offset) last) :
      Leads bytes offset last

/-- A scan goes from an offset to another one without coming to a mark, or has no byte left at either. -/
inductive Passes (bytes : List UInt8) : Nat → Nat → Prop
  | here (offset : Nat) : Passes bytes offset offset
  | step {offset last : Nat} {c : Char} (found : read? bytes offset = some c)
      (ordinary : c ≠ '{' ∧ c ≠ ',' ∧ c ≠ '}') (onward : Passes bytes (stride bytes offset) last) :
      Passes bytes offset last
  | past {offset last : Nat} (ends : read? bytes offset = none) (ends' : read? bytes last = none) :
      Passes bytes offset last

theorem Leads.passes {bytes : List UInt8} {offset last : Nat} (leads : Leads bytes offset last) :
    Passes bytes offset last := by
  induction leads with
  | here offset => exact .here offset
  | step found ordinary _ ih => exact .step found ordinary ih

theorem stride_of_some {bytes : List UInt8} {offset : Nat} {c : Char} (found : read? bytes offset = some c) :
    stride bytes offset = if c = '\\' then offset + 2
      else if c = '[' then ((classEnd? bytes offset).map (· + 1)).getD (offset + 1) else offset + 1 := by
  unfold stride
  rw [found]
  split
  · next guard =>
    cases guard
    rfl
  · next opening =>
    cases opening
    cases classEnd? bytes offset <;> rfl
  · next plain plain' => rw [if_neg (by rintro rfl; exact plain rfl), if_neg (by rintro rfl; exact plain' rfl)]

variable (front back : Text)

theorem leads_wide {c : Char} (wide : 128 ≤ c.toNat) (passed : Nat) (within : passed ≤ c.utf8Size) :
    Leads (octets (front ++ c :: back)) ((octets front).length + passed) (octets (front ++ [c])).length := by
  refine wide_induction wide front back (motive := (Leads _ · _)) (.here _)
    (fun offset d found large onward => ?_) within
  have other {mark : Char} (ascii : mark.toNat < 128) : d ≠ mark := by
    rintro rfl
    exact absurd ascii (Nat.not_lt.mpr large)
  refine .step found ⟨other (by decide), other (by decide), other (by decide)⟩ ?_
  rwa [stride_of_some found, if_neg (other (by decide)), if_neg (other (by decide))]

/-- A character that is no mark and guards nothing is passed over, from its start on. -/
theorem leads_char {c : Char} (ordinary : c ≠ '{' ∧ c ≠ ',' ∧ c ≠ '}' ∧ c ≠ '\\' ∧ c ≠ '[') :
    Leads (octets (front ++ c :: back)) (octets front).length (octets (front ++ [c])).length := by
  by_cases wide : 128 ≤ c.toNat
  · exact leads_wide front back wide 0 (Nat.zero_le _)
  · have ascii := Nat.lt_of_not_le wide
    have found := read?_ascii ascii front back
    refine .step found ⟨ordinary.1, ordinary.2.1, ordinary.2.2.1⟩ ?_
    rw [stride_of_some found, if_neg ordinary.2.2.2.1, if_neg ordinary.2.2.2.2, length_octets_concat ascii]
    exact .here _

/-- A backslash and the character behind it are passed over. The scan itself goes on behind the first byte of
this character. -/
theorem leads_escape (c : Char) :
    Leads (octets (front ++ '\\' :: c :: back)) (octets front).length (octets (front ++ ['\\', c])).length := by
  have found := read?_ascii (c := '\\') (by decide) front (c :: back)
  refine .step found (by decide) ?_
  have guard := length_octets_concat (c := '\\') (by decide) front
  rw [stride_of_some found, if_pos rfl, List.append_cons front, List.append_cons front '\\' [c]]
  by_cases wide : 128 ≤ c.toNat
  · -- The scan goes on at the second byte of the guarded character.
    have rest := leads_wide (front ++ ['\\']) back wide 1 c.utf8Size_pos
    rwa [guard] at rest
  · rw [length_octets_concat (Nat.lt_of_not_le wide), guard]
    exact .here _

/-- The scan goes from the start of a literal lexeme to its end, if no character is missing behind a backslash. -/
theorem leads_literal {chunk later : Text} (stands : Stands (.literal chunk) later) (guarding : chunk ≠ ['\\']) :
    Leads (octets (front ++ chunk ++ later)) (octets front).length (octets (front ++ chunk)).length := by
  rw [List.append_assoc]
  -- A character, an escape and a bracket that opens nothing are one step; so is a class up to its end.
  cases stands with
  | plain ordinary => exact leads_char front later ordinary
  | escape c => exact leads_escape front later c
  | dangling => exact absurd rfl guarding
  | bracket unended =>
    have found := read?_ascii (c := '[') (by decide) front later
    have ends := classEnd?_eq front later
    rw [unended, Option.map_none] at ends
    refine .step found (by decide) ?_
    rw [List.singleton_append, stride_of_some found, if_neg (by decide), if_pos rfl, ends,
      length_octets_concat (by decide)]
    exact .here _
  | @charClass body _ ended =>
    have found := read?_ascii (c := '[') (by decide) front (body ++ later)
    have ends := classEnd?_eq front (body ++ later)
    rw [ended, Option.map_some] at ends
    refine .step found (by decide) ?_
    rw [List.cons_append, stride_of_some found, if_neg (by decide), if_pos rfl, ends]
    exact .here _

/-- The scan passes over a literal lexeme. -/
theorem passes_literal {chunk later : Text} (stands : Stands (.literal chunk) later) :
    Passes (octets (front ++ chunk ++ later)) (octets front).length (octets (front ++ chunk)).length := by
  by_cases guarding : chunk = ['\\']
  · subst guarding
    cases stands with
    | plain ordinary => exact absurd rfl ordinary.2.2.2.1
    | dangling =>
      -- The scan leaves the text by one byte more than there is.
      have found := read?_ascii (c := '\\') (by decide) front []
      have size := length_octets_concat (c := '\\') (by decide) front
      rw [List.append_nil]
      refine .step found (by decide) (.past ?_ (read?_eq_none_iff.mpr (Nat.le_refl _)))
      rw [stride_of_some found, if_pos rfl, read?_eq_none_iff, size]
      exact Nat.le_succ _
  · exact (leads_literal front stands guarding).passes

/-- A scan comes from a mark to the character behind it. -/
theorem stride_of_mark (c : Char) (known : c = '{' ∨ c = ',' ∨ c = '}') :
    read? (octets (front ++ [c] ++ back)) (octets front).length = some c
      ∧ stride (octets (front ++ [c] ++ back)) (octets front).length = (octets (front ++ [c])).length := by
  have ascii : c.toNat < 128 := by rcases known with rfl | rfl | rfl <;> decide
  have found := read?_ascii ascii front back
  rw [← List.append_cons, length_octets_concat ascii, stride_of_some found]
  refine ⟨found, ?_⟩
  rcases known with rfl | rfl | rfl <;> rfl

end Passing

end RootedGlob.Octets
