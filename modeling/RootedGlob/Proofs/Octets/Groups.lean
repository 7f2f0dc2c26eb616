import RootedGlob.Proofs.Lists
import RootedGlob.Proofs.Octets.Strides

/-!
# Finding groups by offsets

Since a scan by offsets passes over literal lexemes as a whole, it finds the marks of a pattern and no others.
Therefore it counts the same groups (`countGroups_eq`), finds the same first group (`findGroup_eq`) and separates
the same alternatives (`alternatives_eq`) as the scan of characters, from any boundary on.
-/

namespace RootedGlob.Octets

open Brace (Lexeme Search lex lex_opening lex_comma lex_closing lex_literal lexing_induction sources cutAtClosing?
  separate prepend)

section Scanning

/-- How many groups are opened from an offset on. -/
def countGroups (bytes : List UInt8) (offset : Nat) : Nat :=
  match _read : read? bytes offset with
  | none => 0
  | some c => (if c = '{' then 1 else 0) + countGroups bytes (stride bytes offset)
termination_by bytes.length - offset
decreasing_by
  have := lt_of_read? ‹_›
  have := lt_stride bytes offset
  omega

/-- The offsets of the braces of the first group from an offset on. The depth counts the open groups, the first
of which was opened at a known offset. -/
def findGroup (text : Text) (depth opened offset : Nat) :
    Except Brace.ExpansionError (Option (Nat × Nat)) :=
  match _read : read? (octets text) offset with
  | none => if 0 < depth then .error (.unclosedGroup text) else .ok none
  | some c =>
    let next := stride (octets text) offset
    if c = '{' then findGroup text (depth + 1) (if depth = 0 then offset else opened) next
    else if c = '}' then
      -- Outside every group a closing brace changes nothing: the depth stays zero.
      if depth = 1 then .ok (some (opened, offset)) else findGroup text (depth - 1) opened next
    else findGroup text depth opened next
termination_by (octets text).length - offset
decreasing_by
  all_goals
    have := lt_of_read? ‹_›
    have := lt_stride (octets text) offset
    omega

/-- The alternatives of the body of a group from an offset on, of which the first one starts at a known offset. -/
def alternatives (body : Text) (depth start offset : Nat) : Except Fault (List Text) :=
  match _read : read? (octets body) offset with
  | none => do return [← slice body start (octets body).length]
  | some c =>
    let next := stride (octets body) offset
    if c = '{' then alternatives body (depth + 1) start next
    else if c = '}' then alternatives body (depth - 1) start next
    else if c = ',' ∧ depth = 0 then do
      let part ← slice body start offset
      let others ← alternatives body depth (offset + 1) next
      return part :: others
    else alternatives body depth start next
termination_by (octets body).length - offset
decreasing_by
  all_goals
    have := lt_of_read? ‹_›
    have := lt_stride (octets body) offset
    omega

end Scanning

section Counting

variable {bytes : List UInt8} {offset last : Nat}

theorem countGroups_of_none (ends : read? bytes offset = none) : countGroups bytes offset = 0 := by
  rw [countGroups]
  split <;> simp_all

theorem countGroups_of_some {c : Char} (found : read? bytes offset = some c) :
    countGroups bytes offset = (if c = '{' then 1 else 0) + countGroups bytes (stride bytes offset) := by
  rw [countGroups]
  split <;> simp_all

theorem countGroups_of_passes (passes : Passes bytes offset last) :
    countGroups bytes offset = countGroups bytes last := by
  induction passes with
  | here => rfl
  | step found ordinary _ ih => rw [countGroups_of_some found, if_neg ordinary.1, Nat.zero_add, ih]
  | past ends ends' => rw [countGroups_of_none ends, countGroups_of_none ends']

/-- Both scans count the same groups. -/
theorem countGroups_eq (front rest : Text) :
    countGroups (octets (front ++ rest)) (octets front).length = Brace.countGroups rest := by
  unfold Brace.countGroups
  -- Both scans take the text lexeme by lexeme; a lexeme that is no mark is passed over in one stride.
  induction rest using lexing_induction generalizing front with
  | nil =>
    rw [List.append_nil, countGroups_of_none (read?_eq_none_iff.mpr (Nat.le_refl _)), lex, List.count_nil]
  | opening rest ih =>
    obtain ⟨found, onward⟩ := stride_of_mark front rest '{' (by decide)
    rw [List.append_cons, countGroups_of_some found, onward, ih, if_pos rfl, lex_opening, List.count_cons_self,
      Nat.add_comm]
  | comma rest ih =>
    obtain ⟨found, onward⟩ := stride_of_mark front rest ',' (by decide)
    rw [List.append_cons, countGroups_of_some found, onward, ih, if_neg (by decide), lex_comma,
      List.count_cons_of_ne (by decide), Nat.zero_add]
  | closing rest ih =>
    obtain ⟨found, onward⟩ := stride_of_mark front rest '}' (by decide)
    rw [List.append_cons, countGroups_of_some found, onward, ih, if_neg (by decide), lex_closing,
      List.count_cons_of_ne (by decide), Nat.zero_add]
  | literal chunk rest stands ih =>
    rw [← List.append_assoc, countGroups_of_passes (passes_literal front stands), ih, lex_literal stands,
      List.count_cons_of_ne (by simp)]

end Counting

section Finding

variable {text : Text} {depth opened offset last : Nat}

theorem findGroup_of_none (ends : read? (octets text) offset = none) :
    findGroup text depth opened offset = if 0 < depth then .error (.unclosedGroup text) else .ok none := by
  rw [findGroup]
  split <;> simp_all

theorem findGroup_of_some {c : Char} (found : read? (octets text) offset = some c) :
    findGroup text depth opened offset =
      if c = '{' then
        findGroup text (depth + 1) (if depth = 0 then offset else opened) (stride (octets text) offset)
      else if c = '}' then
        if depth = 1 then .ok (some (opened, offset))
        else findGroup text (depth - 1) opened (stride (octets text) offset)
      else findGroup text depth opened (stride (octets text) offset) := by
  rw [findGroup]
  split <;> simp_all

theorem findGroup_of_passes (passes : Passes (octets text) offset last) :
    findGroup text depth opened offset = findGroup text depth opened last := by
  induction passes with
  | here => rfl
  | step found ordinary _ ih => rw [findGroup_of_some found, if_neg ordinary.1, if_neg ordinary.2.2, ih]
  | past ends ends' => rw [findGroup_of_none ends, findGroup_of_none ends']

/-- A group that is open ends at the same brace in both scans. -/
theorem findGroup_inside (front rest : Text) (depth opened : Nat) :
    findGroup (front ++ rest) (depth + 1) opened (octets front).length
      = match cutAtClosing? depth (lex rest) with
        | none => .error (.unclosedGroup (front ++ rest))
        | some (body, _) => .ok (some (opened, (octets (front ++ sources body)).length)) := by
  -- Besides the open group, as many inner groups are open as the depth counts.
  induction rest using lexing_induction generalizing front depth with
  | nil =>
    rw [List.append_nil, findGroup_of_none (read?_eq_none_iff.mpr (Nat.le_refl _)), if_pos (Nat.succ_pos _), lex]
    rfl
  | opening rest ih =>
    obtain ⟨found, onward⟩ := stride_of_mark front rest '{' (by decide)
    rw [List.append_cons, findGroup_of_some found, onward, if_pos rfl, if_neg (Nat.succ_ne_zero _), ih,
      lex_opening, cutAtClosing?]
    cases cutAtClosing? (depth + 1) (lex rest) <;> simp [Lexeme.source]
  | comma rest ih =>
    obtain ⟨found, onward⟩ := stride_of_mark front rest ',' (by decide)
    rw [List.append_cons, findGroup_of_some found, onward, if_neg (by decide), if_neg (by decide), ih, lex_comma]
    simp only [cutAtClosing?]
    cases cutAtClosing? depth (lex rest) <;> simp [Lexeme.source]
  | closing rest ih =>
    obtain ⟨found, onward⟩ := stride_of_mark front rest '}' (by decide)
    rw [List.append_cons, findGroup_of_some found, onward, if_neg (by decide), if_pos rfl, lex_closing,
      cutAtClosing?]
    cases depth with
    | zero => simp
    | succ depth =>
      rw [if_neg (by simp), if_neg (by simp), Nat.add_sub_cancel, Nat.add_sub_cancel, ih]
      cases cutAtClosing? depth (lex rest) <;> simp [Lexeme.source]
  | literal chunk rest stands ih =>
    rw [← List.append_assoc, findGroup_of_passes (passes_literal front stands), ih, lex_literal stands]
    simp only [cutAtClosing?]
    cases cutAtClosing? depth (lex rest) <;> simp [Lexeme.source]

/-- What a search by offsets answers for one by characters that was made behind some text. -/
def located (front rest : Text) : Search → Except Brace.ExpansionError (Option (Nat × Nat))
  | .noGroup => .ok none
  | .unclosed => .error (.unclosedGroup (front ++ rest))
  | .group found => .ok (some ((octets (front ++ found.before)).length,
      (octets (front ++ found.before ++ '{' :: found.body)).length))

theorem located_findIn (front rest : Text) (lexeme : Lexeme) (ordinary : lexeme ≠ .opening)
    (lexemes : List Lexeme) :
    located front (lexeme.source ++ rest) (Brace.findIn (lexeme :: lexemes))
      = located (front ++ lexeme.source) rest (Brace.findIn lexemes) := by
  rw [Brace.findIn.eq_3 _ _ ordinary]
  cases Brace.findIn lexemes <;> simp [located]

/-- Both searches find the same first group. -/
theorem findGroup_eq (front rest : Text) (opened : Nat) :
    findGroup (front ++ rest) 0 opened (octets front).length = located front rest (Brace.findGroup rest) := by
  unfold Brace.findGroup
  -- In front of the group both searches pass over the same lexemes, and behind its first brace they
  -- count the same depth.
  induction rest using lexing_induction generalizing front with
  | nil =>
    rw [List.append_nil, findGroup_of_none (read?_eq_none_iff.mpr (Nat.le_refl _)), if_neg (Nat.lt_irrefl _), lex]
    rfl
  | opening rest ih =>
    obtain ⟨found, onward⟩ := stride_of_mark front rest '{' (by decide)
    rw [List.append_cons, findGroup_of_some found, onward, if_pos rfl, if_pos rfl, findGroup_inside, lex_opening,
      Brace.findIn]
    cases cutAtClosing? 0 (lex rest) <;> simp [located]
  | comma rest ih =>
    obtain ⟨found, onward⟩ := stride_of_mark front rest ',' (by decide)
    rw [List.append_cons, findGroup_of_some found, onward, if_neg (by decide), if_neg (by decide), ih, lex_comma]
    exact (located_findIn front rest .comma (by decide) _).symm
  | closing rest ih =>
    obtain ⟨found, onward⟩ := stride_of_mark front rest '}' (by decide)
    rw [List.append_cons, findGroup_of_some found, onward, if_neg (by decide), if_pos rfl, if_neg (by decide), ih,
      lex_closing]
    exact (located_findIn front rest .closing (by decide) _).symm
  | literal chunk rest stands ih =>
    rw [← List.append_assoc, findGroup_of_passes (passes_literal front stands), ih, lex_literal stands]
    exact (located_findIn front rest (.literal chunk) (by simp) _).symm

/-- The offsets that are found are those of braces, and the first one is not in front of the search. -/
theorem marks_of_findGroup {opening closing : Nat}
    (found : findGroup text depth opened offset = .ok (some (opening, closing))) :
    (if depth = 0 then offset ≤ opening ∧ read? (octets text) opening = some '{' else opening = opened)
      ∧ read? (octets text) closing = some '}' := by
  -- A search that starts further on finds what lies further on.
  have sooner {depth inner opened offset : Nat} (same : inner = 0 ↔ depth = 0)
      (later : if inner = 0 then stride (octets text) offset ≤ opening ∧ read? (octets text) opening = some '{'
        else opening = opened) :
      if depth = 0 then offset ≤ opening ∧ read? (octets text) opening = some '{' else opening = opened := by
    have onward := lt_stride (octets text) offset
    simp only [same] at later
    split at later
    · next outside =>
      rw [if_pos outside]
      exact ⟨Nat.le_trans (Nat.le_of_lt onward) later.1, later.2⟩
    · next inside => rwa [if_neg inside]
  -- Outside every group the first brace is still ahead; inside one it is the one remembered.
  fun_induction findGroup text depth opened offset with
  | case1 => cases found
  | case2 => cases found
  | case3 depth opened offset next read ih =>
    obtain ⟨inner, last⟩ := ih found
    rw [if_neg (Nat.succ_ne_zero _)] at inner
    refine ⟨?_, last⟩
    split
    · next outside => simp [inner, outside, read]
    · next inside => simp [inner, inside]
  | case4 opened offset read =>
    simp only [Except.ok.injEq, Option.some.injEq, Prod.mk.injEq] at found
    exact ⟨found.1.symm, found.2 ▸ read⟩
  | case5 depth opened offset next several _ _ ih =>
    obtain ⟨later, last⟩ := ih found
    exact ⟨sooner (by omega) later, last⟩
  | case6 depth opened offset c _ next _ _ ih =>
    obtain ⟨later, last⟩ := ih found
    exact ⟨sooner Iff.rfl later, last⟩

end Finding

section Separating

variable {body : Text} {depth start offset last : Nat}

theorem alternatives_of_none (ends : read? (octets body) offset = none) :
    alternatives body depth start offset = (slice body start (octets body).length).map fun part => [part] := by
  rw [alternatives]
  split
  · cases slice body start (octets body).length <;> rfl
  · simp_all

theorem alternatives_of_some {c : Char} (found : read? (octets body) offset = some c) :
    alternatives body depth start offset =
      if c = '{' then alternatives body (depth + 1) start (stride (octets body) offset)
      else if c = '}' then alternatives body (depth - 1) start (stride (octets body) offset)
      else if c = ',' ∧ depth = 0 then do
        let part ← slice body start offset
        let others ← alternatives body depth (offset + 1) (stride (octets body) offset)
        return part :: others
      else alternatives body depth start (stride (octets body) offset) := by
  rw [alternatives]
  split <;> simp_all

theorem alternatives_of_passes (passes : Passes (octets body) offset last) :
    alternatives body depth start offset = alternatives body depth start last := by
  induction passes with
  | here => rfl
  | step found ordinary _ ih =>
    rw [alternatives_of_some found, if_neg ordinary.1, if_neg ordinary.2.2,
      if_neg (fun comma => ordinary.2.1 comma.1), ih]
  | past ends ends' => rw [alternatives_of_none ends, alternatives_of_none ends']

theorem map_sources_prepend (lexeme : Lexeme) {parts : List (List Lexeme)} (nonempty : parts ≠ []) :
    (prepend lexeme parts).map sources = (parts.map sources).modifyHead (lexeme.source ++ ·) := by
  cases parts with
  | nil => exact absurd rfl nonempty
  | cons part parts => rfl

/-- A text with part of an alternative in front is separated at the same commas in both scans. -/
theorem alternatives_behind (front part rest : Text) (depth : Nat) :
    alternatives (front ++ part ++ rest) depth (octets front).length (octets (front ++ part)).length
      = .ok (((separate depth (lex rest)).map sources).modifyHead (part ++ ·)) := by
  have onto (lexeme : Lexeme) (depth : Nat) (part rest : Text) :
      ((prepend lexeme (separate depth (lex rest))).map sources).modifyHead (part ++ ·)
        = ((separate depth (lex rest)).map sources).modifyHead (part ++ lexeme.source ++ ·) := by
    rw [map_sources_prepend lexeme (Brace.separate_ne_nil _ _), List.modifyHead_modifyHead]
    simp [Function.comp_def]
  -- The part grows lexeme by lexeme until a comma ends it.
  induction rest using lexing_induction generalizing front part depth with
  | nil =>
    have cuts := slice_append front part []
    rw [List.append_nil] at cuts ⊢
    rw [alternatives_of_none (read?_eq_none_iff.mpr (Nat.le_refl _)), cuts, lex]
    simp [separate, Except.map]
  | opening rest ih =>
    obtain ⟨found, onward⟩ := stride_of_mark (front ++ part) rest '{' (by decide)
    rw [List.append_cons, alternatives_of_some found, onward, if_pos rfl, List.append_assoc front, ih, lex_opening,
      separate, onto]
    rfl
  | comma rest ih =>
    obtain ⟨found, onward⟩ := stride_of_mark (front ++ part) rest ',' (by decide)
    rw [List.append_cons, alternatives_of_some found, onward, if_neg (by decide), if_neg (by decide), lex_comma,
      separate]
    cases depth with
    | zero =>
      have behind := ih (front ++ part ++ [',']) [] 0
      have cuts := slice_append front part (',' :: rest)
      rw [List.append_cons] at cuts
      rw [List.append_nil, length_octets_concat (by decide)] at behind
      rw [if_pos ⟨rfl, rfl⟩, if_pos rfl, cuts, length_octets_concat (by decide), behind]
      have same (parts : List Text) : parts.modifyHead ([] ++ ·) = parts := congrFun List.modifyHead_id parts
      rw [same]
      simp [bind, Except.bind, pure, Except.pure]
    | succ depth =>
      rw [if_neg (by simp), if_neg (by simp), List.append_assoc front, ih, onto]
      rfl
  | closing rest ih =>
    obtain ⟨found, onward⟩ := stride_of_mark (front ++ part) rest '}' (by decide)
    rw [List.append_cons, alternatives_of_some found, onward, if_neg (by decide), if_pos rfl,
      List.append_assoc front, ih, lex_closing, separate, onto]
    rfl
  | literal chunk rest stands ih =>
    rw [← List.append_assoc, alternatives_of_passes (passes_literal (front ++ part) stands),
      List.append_assoc front, ih, lex_literal stands, separate, onto]
    rfl

/-- Both ways to read the body of a group give the same alternatives. -/
theorem alternatives_eq (body : Text) : alternatives body 0 0 0 = .ok (Brace.alternatives body) := by
  have whole := alternatives_behind [] [] body 0
  exact whole.trans (congrArg _ (congrFun List.modifyHead_id _))

/-- There are no more alternatives than places between the bytes, and none is longer than the body. -/
theorem length_of_alternatives {parts : List Text} (found : alternatives body depth start offset = .ok parts) :
    parts.length ≤ (octets body).length - offset + 1
      ∧ ∀ part ∈ parts, (octets part).length ≤ (octets body).length := by
  have short {start stop : Nat} {part : Text} (cuts : slice body start stop = .ok part) :
      (octets part).length ≤ (octets body).length := by
    have := length_of_slice cuts
    omega
  -- A stride goes on by one byte at least, so what is bounded further on is bounded here.
  have grown {offset : Nat} {parts : List Text} {shorter : Prop}
      (later : parts.length ≤ (octets body).length - stride (octets body) offset + 1 ∧ shorter) :
      parts.length ≤ (octets body).length - offset + 1 ∧ shorter := by
    have := lt_stride (octets body) offset
    exact ⟨by omega, later.2⟩
  fun_induction alternatives body depth start offset generalizing parts with
  | case1 depth start offset _ =>
    obtain ⟨part, cuts, found⟩ := bind_eq_ok_iff.mp found
    obtain rfl := Except.ok.inj found
    simpa using short cuts
  | case4 depth start offset c _ next =>
    rename_i ih
    have onward : offset < next := lt_stride (octets body) offset
    have inside : offset < (octets body).length := lt_of_read? ‹_›
    obtain ⟨part, cuts, found⟩ := bind_eq_ok_iff.mp found
    obtain ⟨others, rest, found⟩ := bind_eq_ok_iff.mp found
    obtain rfl := Except.ok.inj found
    obtain ⟨fewer, shorter⟩ := ih rest
    exact ⟨by rw [List.length_cons]; omega, List.forall_mem_cons.mpr ⟨short cuts, shorter⟩⟩
  | case2 | case3 | case5 =>
    rename_i ih
    exact grown (ih found)

end Separating

end RootedGlob.Octets
