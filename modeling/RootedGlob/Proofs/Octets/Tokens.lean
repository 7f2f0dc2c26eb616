import RootedGlob.Proofs.Lists
import RootedGlob.Proofs.Octets.Offsets
import RootedGlob.Proofs.PatternList.Separation

/-!
# Reading a pattern list by offsets

A cursor over the bytes of a pattern list keeps two offsets: where the piece being read starts, and which byte
comes next. A backslash guards one byte only, so the cursor may come to stand inside a character. The bytes
it finds there mean nothing to it (`next_wide`), and it stands on a boundary again at the next comma. So every
piece is cut out at boundaries, and the tokens are those of the cursor over the characters (`tokens_eq`).
-/

namespace RootedGlob.Octets

open PatternList

/-- A position in the bytes of a pattern list. -/
structure Cursor where
  /-- Where the piece starts that is being read. -/
  start : Nat := 0
  /-- Which byte is read next. -/
  position : Nat := 0
  /-- Whether the end of the list was reached. -/
  ended : Bool := false
deriving DecidableEq, Repr

namespace Cursor

section Reading

/-- Reads bytes up to the next token that is not blank. -/
def next (text : Text) (cursor : Cursor) (scan : Scan) : Except Fault (Option Text × Cursor) :=
  if cursor.ended then .ok (none, cursor)
  else
    match _read : read? (octets text) cursor.position with
    | none => do
      let piece ← slice text cursor.start (octets text).length
      return (if Text.isBlankText piece then none else some piece.trim, { cursor with ended := true })
    | some c =>
      -- The guarded byte is jumped over. It may be the first one of several, or not be there.
      if c = '\\' then next text { cursor with position := cursor.position + 2 } scan
      else if scan.separates c then do
        let piece ← slice text cursor.start cursor.position
        let later := { cursor with start := cursor.position + 1, position := cursor.position + 1 }
        if Text.isBlankText piece then next text later scan else return (some piece.trim, later)
      else next text { cursor with position := cursor.position + 1 } (scan.pass c)
termination_by (octets text).length - cursor.position
decreasing_by
  all_goals
    have := lt_of_read? ‹_›
    omega

/-- How many bytes a cursor can still read. -/
def size (text : Text) (cursor : Cursor) : Nat :=
  if cursor.ended then 0 else (octets text).length - cursor.position + 1

variable {text : Text} {cursor : Cursor} {scan : Scan}

theorem size_lt_of_read? (start : Nat) {position : Nat} {c : Char} (running : ¬ cursor.ended)
    (found : read? (octets text) cursor.position = some c) (onward : cursor.position < position) :
    size text { cursor with start := start, position := position } < size text cursor := by
  have := lt_of_read? found
  simp only [size, running, Bool.false_eq_true, if_false]
  omega

theorem size_of_next {token : Text} {later : Cursor}
    (found : cursor.next text scan = .ok (some token, later)) : later.size text < cursor.size text := by
  -- Every byte that is read moves the cursor on, and the end of the text is a step of its own.
  fun_induction next text cursor scan with
  | case1 => cases found
  | case2 cursor scan running _ =>
    obtain ⟨piece, -, found⟩ := bind_eq_ok_iff.mp found
    obtain ⟨-, rfl⟩ := Prod.mk.inj (Except.ok.inj found)
    rw [size, size, if_pos rfl, if_neg running]
    exact Nat.succ_pos _
  | case3 cursor scan running read ih =>
    exact Nat.lt_trans (ih found) (size_lt_of_read? _ running read (Nat.lt_add_of_pos_right (by decide)))
  | case4 cursor scan running c read _ _ ih =>
    have onward := size_lt_of_read? (cursor.position + 1) running read (Nat.lt_succ_self _)
    obtain ⟨piece, -, found⟩ := bind_eq_ok_iff.mp found
    split at found
    · exact Nat.lt_trans (ih found) onward
    · obtain ⟨-, rfl⟩ := Prod.mk.inj (Except.ok.inj found)
      exact onward
  | case5 cursor scan running c read _ _ ih =>
    exact Nat.lt_trans (ih found) (size_lt_of_read? _ running read (Nat.lt_succ_self _))

/-- All tokens from a position on. -/
def tokens (text : Text) (cursor : Cursor) : Except Fault (List Text) :=
  match _found : cursor.next text {} with
  | .error fault => .error fault
  | .ok (none, _) => .ok []
  | .ok (some token, later) => (tokens text later).map (token :: ·)
termination_by cursor.size text
decreasing_by exact size_of_next ‹_›

end Reading

section Steps

variable {text : Text} {cursor : Cursor} {scan : Scan}

theorem next_of_none (running : cursor.ended = false) (found : read? (octets text) cursor.position = none) :
    cursor.next text scan = (do
      let piece ← slice text cursor.start (octets text).length
      return (if Text.isBlankText piece then none else some piece.trim, { cursor with ended := true })) := by
  rw [next, if_neg (by simp [running])]
  split
  · rfl
  · next other =>
    rw [found] at other
    cases other

theorem next_of_some {c : Char} (running : cursor.ended = false)
    (found : read? (octets text) cursor.position = some c) :
    cursor.next text scan =
      if c = '\\' then next text { cursor with position := cursor.position + 2 } scan
      else if scan.separates c then do
        let piece ← slice text cursor.start cursor.position
        let later := { cursor with start := cursor.position + 1, position := cursor.position + 1 }
        if Text.isBlankText piece then next text later scan else return (some piece.trim, later)
      else next text { cursor with position := cursor.position + 1 } (scan.pass c) := by
  rw [next, if_neg (by simp [running])]
  split
  · next other =>
    rw [found] at other
    cases other
  · next d other =>
    rw [found, Option.some.injEq] at other
    rw [other]

/-- A character that is not ASCII does not count in a scan. -/
theorem pass_of_wide {d : Char} (wide : 128 ≤ d.toNat) (unescaped : scan.escaped = false) :
    d ≠ '\\' ∧ scan.separates d = false ∧ scan.pass d = scan := by
  have other {c : Char} (ascii : c.toNat < 128) : d ≠ c := by
    rintro rfl
    exact absurd ascii (Nat.not_lt.mpr wide)
  refine ⟨other (by decide), by simp [Scan.separates, other (c := ',') (by decide)], ?_⟩
  refine pass_of_isUncounted ?_ unescaped
  simp only [isUncounted, Bool.and_eq_true, bne_iff_ne]
  refine ⟨⟨⟨⟨⟨⟨?_, ?_⟩, ?_⟩, ?_⟩, ?_⟩, ?_⟩, ?_⟩ <;> exact other (by decide)

/-- The bytes of a character that is not ASCII are passed over, from any of them on. -/
theorem next_wide {c : Char} (wide : 128 ≤ c.toNat) {front back : Text} (whole : text = front ++ c :: back)
    (start passed : Nat) (within : passed ≤ c.utf8Size) (unescaped : scan.escaped = false) :
    next text ⟨start, (octets front).length + passed, false⟩ scan
      = next text ⟨start, (octets (front ++ [c])).length, false⟩ scan := by
  subst whole
  refine wide_induction wide front back (motive := fun offset => next _ ⟨start, offset, false⟩ scan = _) rfl
    (fun offset d found large onward => ?_) within
  obtain ⟨plain, together, same⟩ := pass_of_wide large unescaped
  rw [next_of_some rfl found, if_neg plain, if_neg (by simp [together]), same]
  exact onward

/-- A cursor that has read a part of the piece that starts behind some text. -/
def behind (front part : Text) : Cursor := ⟨(octets front).length, (octets (front ++ part)).length, false⟩

variable {front part rest : Text}

theorem next_behind_char {c : Char} (whole : text = front ++ part ++ c :: rest) (plain : c ≠ '\\')
    (unescaped : scan.escaped = false) (together : scan.separates c = false) :
    (behind front part).next text scan = (behind front (part ++ [c])).next text (scan.pass c) := by
  by_cases wide : 128 ≤ c.toNat
  · have skipped := next_wide wide whole (octets front).length 0 (Nat.zero_le _) unescaped
    rw [(pass_of_wide wide unescaped).2.2, behind, behind, ← List.append_assoc]
    exact skipped
  · have ascii := Nat.lt_of_not_le wide
    have found := read?_ascii ascii (front ++ part) rest
    rw [← whole] at found
    rw [behind, next_of_some rfl found, if_neg plain, if_neg (by simp [together]), behind, ← List.append_assoc,
      length_octets_concat ascii]

theorem next_behind_guarded {c : Char} (whole : text = front ++ part ++ '\\' :: c :: rest)
    (unescaped : scan.escaped = false) :
    (behind front part).next text scan = (behind front (part ++ ['\\', c])).next text scan := by
  have found := read?_ascii (c := '\\') (by decide) (front ++ part) (c :: rest)
  rw [← whole] at found
  have guard := length_octets_concat (c := '\\') (by decide) (front ++ part)
  have together : front ++ (part ++ ['\\', c]) = front ++ part ++ ['\\'] ++ [c] := by simp
  rw [behind, next_of_some rfl found, if_pos rfl, behind, together]
  by_cases wide : 128 ≤ c.toNat
  · -- The guard takes the first byte of the character, and the others are passed over.
    have skipped := next_wide wide (whole.trans (List.append_cons _ _ _)) (octets front).length 1 c.utf8Size_pos
      unescaped
    rw [guard] at skipped
    exact skipped
  · rw [length_octets_concat (Nat.lt_of_not_le wide), guard]

end Steps

section Pieces

variable {text : Text} {scan : Scan} {front part rest piece : Text}

/-- At the end of the list the last piece is what is left, blanks at its ends aside. -/
theorem next_behind_end {cursor : Cursor} (whole : text = front ++ part) (running : cursor.ended = false)
    (start : cursor.start = (octets front).length) (ends : read? (octets text) cursor.position = none) :
    ∃ last, last.ended ∧ cursor.next text scan
      = .ok (if Text.isBlankText part then none else some part.trim, last) := by
  have cuts := slice_append front part []
  rw [List.append_nil, ← whole, ← start] at cuts
  refine ⟨{ cursor with ended := true }, rfl, ?_⟩
  rw [next_of_none running ends, cuts]
  rfl

/-- A separating comma ends a piece, which is passed over if it is blank. -/
theorem next_behind_comma (whole : text = front ++ part ++ ',' :: rest) (separates : scan.separates ',') :
    (behind front part).next text scan
      = if Text.isBlankText part then (behind (front ++ part ++ [',']) []).next text {}
        else .ok (some part.trim, behind (front ++ part ++ [',']) []) := by
  have found := read?_ascii (c := ',') (by decide) (front ++ part) rest
  have cuts := slice_append front part (',' :: rest)
  rw [← whole] at found cuts
  have top : scan = {} := eq_start_of_atTop (Bool.and_eq_true_iff.mp separates).2
  rw [behind, next_of_some rfl found, if_neg (by decide), if_pos separates, cuts, behind, List.append_nil,
    length_octets_concat (by decide), top]
  rfl

/-- Where the characters up to the next separating comma are cut off, the bytes are too. -/
theorem next_of_cut (front part : Text) {later : Option Text} (whole : text = front ++ part ++ rest)
    (unescaped : scan.escaped = false) (found : cut scan rest = (piece, later)) :
    later.elim
      (∃ last, last.ended ∧ (behind front part).next text scan
        = .ok (if Text.isBlankText (part ++ piece) then none else some (part ++ piece).trim, last))
      fun rest' => text = front ++ (part ++ piece) ++ ',' :: rest'
        ∧ (behind front part).next text scan
          = if Text.isBlankText (part ++ piece)
            then (behind (front ++ (part ++ piece) ++ [',']) []).next text {}
            else .ok (some (part ++ piece).trim, behind (front ++ (part ++ piece) ++ [',']) []) := by
  induction rest using unguarded.induct generalizing part piece scan with
  | case1 =>
    obtain ⟨rfl, rfl⟩ := Prod.mk.inj found
    rw [List.append_nil] at whole ⊢
    refine next_behind_end whole rfl rfl ?_
    rw [behind, ← whole]
    exact read?_eq_none_iff.mpr (Nat.le_refl _)
  | case2 =>
    have last : cut scan ['\\'] = (['\\'], none) := rfl
    rw [last] at found
    obtain ⟨rfl, rfl⟩ := Prod.mk.inj found
    -- The guard takes a byte that is not there.
    have guard := read?_ascii (c := '\\') (by decide) (front ++ part) []
    rw [← whole] at guard
    rw [behind, next_of_some rfl guard, if_pos rfl]
    rw [List.append_assoc] at whole
    refine next_behind_end whole rfl rfl ?_
    rw [read?_eq_none_iff, whole, ← List.append_assoc, length_octets_concat (by decide)]
    exact Nat.le_succ _
  | case3 c rest ih =>
    have guarded : cut scan ('\\' :: c :: rest)
        = ('\\' :: c :: (cut scan rest).1, (cut scan rest).2) := by
      have apart : (scan.pass '\\').separates c = false := by
        simp [Scan.separates, Scan.atTop, Scan.pass, unescaped]
      rw [cut, if_neg (by simp [Scan.separates]), cut, if_neg (by simp [apart]),
        pass_guarded unescaped]
    rw [guarded] at found
    obtain ⟨rfl, rfl⟩ := Prod.mk.inj found
    have step := ih (part ++ ['\\', c]) (by simp [whole]) unescaped rfl
    rw [next_behind_guarded whole unescaped]
    simpa using step
  | case4 c rest alone guarding ih =>
    have plain := ne_backslash_of_unpaired alone guarding
    rw [cut] at found
    split at found
    · next separates =>
      obtain ⟨rfl, rfl⟩ := Prod.mk.inj found
      obtain rfl : c = ',' := beq_iff_eq.mp (Bool.and_eq_true_iff.mp separates).1
      rw [List.append_nil]
      exact ⟨whole, next_behind_comma whole separates⟩
    · next together =>
      obtain ⟨rfl, rfl⟩ := Prod.mk.inj found
      have onward : (scan.pass c).escaped = false := by rw [pass_of_unescaped unescaped plain]
      have step := ih (part ++ [c]) (by simp [whole]) onward rfl
      rw [next_behind_char whole plain unescaped (by simpa using together)]
      simpa using step

end Pieces

section Tokens

variable {text front rest : Text}

/-- A cursor over the bytes stands where a cursor over the characters has some text left to read. -/
def Faces (text : Text) (cursor : Cursor) (rest : Option Text) : Prop :=
  rest.elim (cursor.ended = true) fun rest => ∃ front, text = front ++ rest ∧ cursor = behind front []

/-- One call of the cursor answers the first token of the text that it faces. -/
theorem next_eq (whole : text = front ++ rest) :
    ∃ later, (behind front []).next text {} = .ok ((firstToken? rest).map Prod.fst, later)
      ∧ later.Faces text ((firstToken? rest).bind Prod.snd) := by
  -- A blank piece is passed over and the cursor faces what is behind its comma; any other piece is the
  -- answer.
  fun_induction firstToken? rest generalizing front with
  | case1 rest piece blank found =>
    obtain ⟨last, ended, next⟩ := next_of_cut front [] (by simpa using whole) rfl found
    refine ⟨last, ?_, ended⟩
    simpa [blank] using next
  | case2 rest piece blank more found _ ih =>
    obtain ⟨split, next⟩ := next_of_cut front [] (by simpa using whole) rfl found
    rw [List.nil_append, if_pos blank] at next
    rw [next]
    exact ih (by simpa using split)
  | case3 rest piece later found solid =>
    have step := next_of_cut front [] (by simpa using whole) rfl found
    cases later with
    | none =>
      obtain ⟨last, ended, next⟩ := step
      refine ⟨last, ?_, ended⟩
      simpa [solid] using next
    | some more =>
      obtain ⟨split, next⟩ := step
      rw [List.nil_append, if_neg solid] at next
      exact ⟨_, next, front ++ piece ++ [','], by simpa using split, rfl⟩

/-- Both cursors answer the same, and face the same text afterwards. -/
theorem next_of_faces {cursor : Cursor} {characters : PatternList.Cursor}
    (faces : cursor.Faces text characters.rest) :
    ∃ later, cursor.next text {} = .ok (characters.next?.map Prod.fst, later)
      ∧ ∀ token onward, characters.next? = some (token, onward) → later.Faces text onward.rest := by
  obtain ⟨_ | rest⟩ := characters
  · refine ⟨cursor, ?_, fun token onward found => by cases found⟩
    have ended : cursor.ended = true := faces
    rw [next, if_pos ended]
    rfl
  · obtain ⟨front, whole, rfl⟩ := faces
    obtain ⟨later, found, faces⟩ := next_eq whole
    refine ⟨later, ?_, fun token onward next => ?_⟩
    · simpa [PatternList.Cursor.next?, Function.comp_def] using found
    · simp only [PatternList.Cursor.next?, Option.bind_some, Option.map_eq_some_iff, Prod.exists,
        Prod.mk.injEq] at next
      obtain ⟨_, rest', first, rfl, rfl⟩ := next
      rwa [first] at faces

theorem tokens_of_next {cursor later : Cursor} {answer : Option Text}
    (found : cursor.next text {} = .ok (answer, later)) :
    cursor.tokens text = answer.elim (.ok []) fun token => (later.tokens text).map (token :: ·) := by
  rw [tokens]
  split
  · next same =>
    rw [found] at same
    cases same
  · next same =>
    rw [found] at same
    cases same
    rfl
  · next same =>
    rw [found] at same
    cases same
    rfl

/-- The tokens that are read by offsets are those that are read by characters. -/
theorem tokens_of_faces {cursor : Cursor} {characters : PatternList.Cursor}
    (faces : cursor.Faces text characters.rest) : cursor.tokens text = .ok characters.tokens := by
  fun_induction PatternList.Cursor.tokens characters generalizing cursor with
  | case1 characters ends =>
    obtain ⟨later, next, -⟩ := next_of_faces faces
    rw [tokens_of_next next, ends]
    rfl
  | case2 characters token onward found ih =>
    obtain ⟨later, next, onwards⟩ := next_of_faces faces
    rw [tokens_of_next next, found, Option.map_some, Option.elim_some, ih (onwards token onward found)]
    rfl

/-- Reading a pattern list by offsets gives its tokens, and no cut on the way is a fault. -/
theorem tokens_eq (text : Text) : tokens text {} = .ok (PatternList.tokens text) :=
  tokens_of_faces ⟨[], rfl, rfl⟩

end Tokens

end Cursor

end RootedGlob.Octets
