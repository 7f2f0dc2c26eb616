import Mathlib.Algebra.Order.BigOperators.Group.List
import Mathlib.Data.Nat.Factorial.Basic
import RootedGlob.Proofs.Octets.Groups
import RootedGlob.Proofs.Octets.Tokens

/-!
# Expanding groups by offsets

An expansion by offsets keeps whole texts on its stack, each with the offset up to which it is known to hold no
group. For a text whose offset lies behind its settled part it takes the same step as the expansion by
characters (`replacements_eq`), and the texts that it pushes have such an offset again. So both run alike to the
end (`drain_eq`).

Without any knowledge about its cuts the expansion ends, since a replacement takes two braces out of the bytes
that are still to be searched, and there are fewer alternatives than such bytes.
-/

namespace RootedGlob.Octets

open Brace (Entry Group classLead append_classLead maxGroups maxExpansions)

/-- A partly expanded pattern, with the offset from which on it is searched. -/
structure Work where
  current : Text
  offset : Nat
deriving DecidableEq, Repr

namespace Work

/-- The texts that replace one whose first group was found at some offsets. -/
def replacements (work : Work) (opening closing : Nat) : Except Fault (List Work) := do
  let before ← slice work.current 0 opening
  let after ← slice work.current (closing + 1) (octets work.current).length
  let body ← slice work.current (opening + 1) closing
  let parts ← alternatives body 0 0 0
  return parts.map fun part => ⟨before ++ part ++ after, opening⟩

/-- A measure that exceeds the sum over the texts that replace this one. -/
def weight (work : Work) : Nat := Nat.factorial ((octets work.current).length - work.offset)

def totalWeight (works : List Work) : Nat := (works.map weight).sum

/-- The texts that replace one weigh less than it does, all together. -/
theorem weight_replacements {work : Work} {opening closing : Nat} {works : List Work}
    (found : findGroup work.current 0 0 work.offset = .ok (some (opening, closing)))
    (replaced : work.replacements opening closing = .ok works) : totalWeight works < work.weight := by
  obtain ⟨before, first, replaced⟩ := bind_eq_ok_iff.mp replaced
  obtain ⟨after, last, replaced⟩ := bind_eq_ok_iff.mp replaced
  obtain ⟨body, middle, replaced⟩ := bind_eq_ok_iff.mp replaced
  obtain ⟨parts, separated, replaced⟩ := bind_eq_ok_iff.mp replaced
  obtain rfl := Except.ok.inj replaced
  obtain ⟨sizeBefore, -⟩ := length_of_slice first
  obtain ⟨sizeAfter, -⟩ := length_of_slice last
  obtain ⟨sizeBody, -⟩ := length_of_slice middle
  obtain ⟨fewer, shorter⟩ := length_of_alternatives separated
  -- The search did not go back, so the braces were among the bytes left to search.
  have order : work.offset ≤ opening := (marks_of_findGroup found).1.1
  -- What is left to search without the two braces.
  obtain ⟨rest, size⟩ : ∃ rest, (octets work.current).length - work.offset = rest + 2 :=
    Nat.exists_eq_add_of_le' (by omega)
  have each : ∀ part ∈ parts, weight ⟨before ++ part ++ after, opening⟩ ≤ Nat.factorial rest := by
    intro part member
    have := shorter part member
    refine Nat.factorial_le ?_
    simp only [octets_append, List.length_append]
    omega
  rw [totalWeight, List.map_map, weight, size]
  calc (parts.map (weight ∘ fun part => ⟨before ++ part ++ after, opening⟩)).sum
      ≤ (parts.map (weight ∘ fun part => ⟨before ++ part ++ after, opening⟩)).length • Nat.factorial rest :=
        List.sum_le_card_nsmul _ _ (List.forall_mem_map.mpr each)
    _ = parts.length * Nat.factorial rest := by rw [List.length_map, Nat.nsmul_eq_mul]
    _ ≤ (rest + 1) * Nat.factorial rest := Nat.mul_le_mul_right _ (by omega)
    _ < Nat.factorial (rest + 2) := (Nat.factorial_lt (Nat.succ_pos rest)).mpr (Nat.lt_succ_self _)

end Work

/-- Works off a stack of texts. The patterns found so far come last one first. -/
def drain (pattern : Text) (found : List Text) : List Work → Except Fault (List Text)
  | [] => .ok found.reverse
  | work :: rest =>
    match _searched : findGroup work.current 0 0 work.offset with
    | .error error => .error (.expansion error)
    | .ok none =>
      if maxExpansions ≤ found.length then .error (.expansion (.tooManyPatterns pattern))
      else drain pattern (work.current :: found) rest
    | .ok (some (opening, closing)) =>
      match _replaced : work.replacements opening closing with
      | .error fault => .error fault
      | .ok works => drain pattern found (works ++ rest)
termination_by works => Work.totalWeight works
decreasing_by
  · have := Nat.factorial_pos ((octets work.current).length - work.offset)
    simp only [Work.totalWeight, List.map_cons, List.sum_cons, Work.weight]
    omega
  · have := Work.weight_replacements ‹_› ‹_›
    simp only [Work.totalWeight, List.map_append, List.sum_append, List.map_cons, List.sum_cons] at this ⊢
    omega

/-- The patterns that a pattern with groups stands for, found by offsets. -/
def expand (pattern : Text) : Except Fault (List Text) :=
  let groups := countGroups (octets pattern) 0
  if maxGroups < groups then .error (.expansion (.tooManyGroups groups)) else drain pattern [] [⟨pattern, 0⟩]

section Running

theorem drain_cons (pattern : Text) (found : List Text) (work : Work) (rest : List Work) :
    drain pattern found (work :: rest) = match findGroup work.current 0 0 work.offset with
      | .error error => .error (.expansion error)
      | .ok none =>
        if maxExpansions ≤ found.length then .error (.expansion (.tooManyPatterns pattern))
        else drain pattern (work.current :: found) rest
      | .ok (some (opening, closing)) =>
        (work.replacements opening closing).bind fun works => drain pattern found (works ++ rest) := by
  rw [drain]
  split
  · next searched => rw [searched]
  · next searched => rw [searched]
  · next searched =>
    rw [searched]
    split
    · next replaced =>
      simp only [replaced]
      rfl
    · next replaced =>
      simp only [replaced]
      rfl

/-- The text of an entry, to be searched behind its settled part. -/
def Work.ofEntry (entry : Entry) : Work := ⟨entry.current, (octets entry.settled).length⟩

/-- A text is cut at the braces of a group into what stands around the group and its body. -/
theorem slices_of_group (front body after : Text) :
    let whole := front ++ '{' :: body ++ '}' :: after
    let opening := (octets front).length
    let closing := (octets (front ++ '{' :: body)).length
    slice whole 0 opening = .ok front ∧ slice whole (opening + 1) closing = .ok body
      ∧ slice whole (closing + 1) (octets whole).length = .ok after := by
  have before := slice_append [] front ('{' :: body ++ '}' :: after)
  have behind := slice_append (front ++ '{' :: body ++ ['}']) after []
  have inside := slice_append (front ++ ['{']) body ('}' :: after)
  rw [List.nil_append, ← List.append_assoc, octets_nil, List.length_nil] at before
  rw [List.append_nil, ← List.append_cons, length_octets_concat (by decide)] at behind
  rw [← List.append_cons, length_octets_concat (by decide)] at inside
  exact ⟨before, inside, behind⟩

/-- A group is replaced by the same texts in both expansions. -/
theorem replacements_eq (front body after : Text) (offset : Nat) :
    Work.replacements ⟨front ++ '{' :: body ++ '}' :: after, offset⟩ (octets front).length
        (octets (front ++ '{' :: body)).length
      = .ok ((Brace.alternatives body).map fun part => ⟨front ++ part ++ after, (octets front).length⟩) := by
  obtain ⟨before, inside, behind⟩ := slices_of_group front body after
  simp only [Work.replacements, before, behind, inside]
  exact congrArg (Except.map _) (alternatives_eq body)

theorem findGroup_ofEntry (entry : Entry) :
    findGroup (Work.ofEntry entry).current 0 0 (Work.ofEntry entry).offset
      = located entry.settled entry.pending (Brace.findGroup entry.pending) := findGroup_eq _ _ 0

/-- The first group of an entry is replaced by its alternatives in both expansions. -/
theorem replacements_ofEntry {entry : Entry} {group : Group} (found : Brace.findGroup entry.pending = .group group) :
    (Work.ofEntry entry).replacements (octets (entry.settled ++ group.before)).length
        (octets (entry.settled ++ group.before ++ '{' :: group.body)).length
      = .ok ((entry.replacements group).map Work.ofEntry) := by
  have replaced := replacements_eq (entry.settled ++ group.before) group.body group.after
    (octets entry.settled).length
  have whole : entry.settled ++ group.before ++ '{' :: group.body ++ '}' :: group.after = entry.current := by
    rw [Entry.current, Brace.findGroup_eq found]
    simp
  have same : (entry.replacements group).map Work.ofEntry
      = (Brace.alternatives group.body).map fun part => ⟨entry.settled ++ group.before ++ part ++ group.after,
        (octets (entry.settled ++ group.before)).length⟩ := by
    simp [Entry.replacements, Work.ofEntry, Entry.current]
  rwa [whole, ← same] at replaced

/-- Both expansions take the same steps, so they end with the same patterns or the same error. -/
theorem drain_eq (pattern : Text) (found : List Text) (entries : List Entry) :
    drain pattern found (entries.map Work.ofEntry) = (Brace.drain pattern found entries).mapError .expansion := by
  fun_induction Brace.drain pattern found entries with
  | case1 =>
    rw [List.map_nil, drain]
    rfl
  | case2 found entry rest searched =>
    rw [List.map_cons, drain_cons, findGroup_ofEntry, searched]
    rfl
  | case3 found entry rest searched full =>
    rw [List.map_cons, drain_cons, findGroup_ofEntry, searched, located, if_pos full]
    rfl
  | case4 found entry rest searched room ih =>
    rw [List.map_cons, drain_cons, findGroup_ofEntry, searched, located, if_neg room]
    exact ih
  | case5 found entry rest group searched ih =>
    rw [List.map_cons, drain_cons, findGroup_ofEntry, searched, located, ← ih, List.map_append]
    exact congrArg (Except.bind · _) (replacements_ofEntry searched)

end Running

/-- Expansion by offsets gives the patterns and the errors of expansion by characters, and no cut on the way is
a fault. -/
theorem expand_eq (text : Text) : expand text = (Brace.expand text).mapError .expansion := by
  have counted : countGroups (octets text) 0 = Brace.countGroups text := countGroups_eq [] text
  simp only [expand, Brace.expand, counted]
  split
  · rfl
  · exact drain_eq text [] [.ofPattern text]

/-- Reading the encoding of a text byte by byte is the same as reading its characters, and every cut is made at
boundaries. The tokens of a list, the expansion of a pattern with its errors and the alternatives of a body are
those of the scans by characters. So no cut on the way is a fault, as a cut anywhere else than at boundaries is. A
search from any boundary on finds the group that follows there. Wherever a search starts, a text can be cut on
both sides of the braces that it finds, and wherever a class begins, a text can be cut behind its beginning and on
both sides of its last bracket. -/
theorem scans_by_octets (text : Text) :
    Cursor.tokens text {} = .ok (PatternList.tokens text)
      ∧ expand text = (Brace.expand text).mapError .expansion
      ∧ alternatives text 0 0 0 = .ok (Brace.alternatives text)
      ∧ (∀ start stop, (∃ middle, slice text start stop = .ok middle)
        ↔ IsBoundary text start ∧ IsBoundary text stop ∧ start ≤ stop)
      ∧ (∀ front rest, text = front ++ rest →
        findGroup text 0 0 (octets front).length = located front rest (Brace.findGroup rest))
      ∧ (∀ offset opening closing, findGroup text 0 0 offset = .ok (some (opening, closing)) →
        ∀ cut ∈ [opening, opening + 1, closing, closing + 1], IsBoundary text cut)
      ∧ (∀ offset, read? (octets text) offset = some '[' →
        IsBoundary text (classStart (octets text) offset)
          ∧ ∀ last, classEnd? (octets text) offset = some last →
            IsBoundary text last ∧ IsBoundary text (last + 1)) := by
  refine ⟨Cursor.tokens_eq text, expand_eq text, alternatives_eq text,
    fun _ _ => exists_slice_iff, ?_, ?_, ?_⟩
  · rintro front rest rfl
    exact findGroup_eq front rest 0
  · intro offset opening closing found
    obtain ⟨⟨-, first⟩, last⟩ := marks_of_findGroup found
    have before := isBoundary_of_read? (by decide) first
    have behind := isBoundary_of_read? (by decide) last
    simp only [List.forall_mem_cons]
    exact ⟨before.1, before.2, behind.1, behind.2, List.forall_mem_nil _⟩
  · intro offset opening
    obtain ⟨front, rest, rfl, rfl⟩ := exists_of_read? (by decide) opening
    refine ⟨?_, fun last found => isBoundary_of_read? (by decide) (read?_of_classEnd? found)⟩
    have behind := isBoundary_length (front ++ '[' :: (classLead rest).1) (classLead rest).2
    rwa [List.append_assoc, List.cons_append, append_classLead, ← classStart_eq] at behind

/-- A backslash in front of a character of two bytes, a group, a class, and a class that does not end. -/
theorem scans_by_octets_accented :
    let text : Text := "\\é\x7ba,ß\x7d,[]ö][!\\".toList
    Cursor.tokens text {} = .ok ["\\é\x7ba,ß\x7d".toList, "[]ö][!\\".toList]
      ∧ expand text = .ok ["\\éa,[]ö][!\\".toList, "\\éß,[]ö][!\\".toList]
      ∧ findGroup text 0 0 3 = .ok (some (3, 8))
      ∧ (∀ cut ∈ [3, 4, 8, 9], IsBoundary text cut)
      ∧ ¬ IsBoundary text 2 ∧ IsBoundary text 12 ∧ IsBoundary text 14 ∧ IsBoundary text 15
      ∧ classStart (octets text) 15 = 17 ∧ IsBoundary text 17 ∧ classEnd? (octets text) 15 = none := by
  obtain ⟨tokens, expanded, -, cuts, searches, groups, classes⟩ :=
    scans_by_octets "\\é\x7ba,ß\x7d,[]ö][!\\".toList
  have found := (searches "\\é".toList "\x7ba,ß\x7d,[]ö][!\\".toList rfl).trans
    (by decide +kernel : _ = .ok (some (3, 8)))
  have first := classes 10 (by decide)
  have second := classes 15 (by decide)
  have ends := first.2 14 (by decide)
  have braces := groups 3 3 8 found
  have apart : ¬ IsBoundary "\\é\x7ba,ß\x7d,[]ö][!\\".toList 2 := by
    intro boundary
    obtain ⟨middle, cut⟩ := (cuts 2 3).mpr ⟨boundary, braces 3 (by decide), by decide⟩
    have fault : slice "\\é\x7ba,ß\x7d,[]ö][!\\".toList 2 3
        = .error (.cut "\\é\x7ba,ß\x7d,[]ö][!\\".toList 2 3) := by decide +kernel
    cases fault.symm.trans cut
  exact ⟨tokens.trans (by decide +kernel), expanded.trans (by decide +kernel), found, braces, apart,
    first.1, ends.1, ends.2, by decide, second.1, by decide⟩

end RootedGlob.Octets
