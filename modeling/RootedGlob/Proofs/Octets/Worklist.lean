import Mathlib.Logic.Relation
import RootedGlob.Proofs.Brace.Resuming
import RootedGlob.Proofs.Octets.Expansion

/-!
# The worklist of an expansion

Expansion by offsets keeps texts on a worklist, each with the offset from which on it is searched. Every text that
comes onto the list is the text of a resumable entry (`exists_entry_of_rewrites`). So it makes no difference where
its search starts, no group opens in front of that offset, the alternatives of its first group can be scanned from
one end to the other wherever they stand, and a text without a group behind the offset has none at all
(`search_resumes`).
-/

namespace RootedGlob.Octets

open Brace (Entry Group Lexeme lex sources isSealed StandsAlone maxExpansions)

section Scanning

/-- The offsets of the braces that open groups, as a scan from an offset on meets them. -/
def openings (bytes : List UInt8) (offset : Nat) : List Nat :=
  match _read : read? bytes offset with
  | none => []
  | some c =>
    let later := openings bytes (stride bytes offset)
    if c = '{' then offset :: later else later
termination_by bytes.length - offset
decreasing_by
  have := lt_of_read? ‹_›
  have := lt_stride bytes offset
  omega

/-- A scan that starts inside as many groups as the depth says comes to a last offset, and has closed them all
there. On its way it meets no closing brace outside every group. No escape and no class reaches over the last
offset, since the scan comes to it. -/
inductive Sweeps (bytes : List UInt8) (last : Nat) : Nat → Nat → Prop
  | ends : Sweeps bytes last 0 last
  | opening {depth offset : Nat} (found : read? bytes offset = some '{')
      (onward : Sweeps bytes last (depth + 1) (stride bytes offset)) : Sweeps bytes last depth offset
  | closing {depth offset : Nat} (found : read? bytes offset = some '}')
      (onward : Sweeps bytes last depth (stride bytes offset)) : Sweeps bytes last (depth + 1) offset
  | other {depth offset : Nat} {c : Char} (found : read? bytes offset = some c) (ordinary : c ≠ '{' ∧ c ≠ '}')
      (onward : Sweeps bytes last depth (stride bytes offset)) : Sweeps bytes last depth offset

variable {bytes : List UInt8} {depth offset last : Nat}

theorem openings_of_none (ends : read? bytes offset = none) : openings bytes offset = [] := by
  rw [openings]
  split <;> simp_all

theorem openings_of_some {c : Char} (found : read? bytes offset = some c) :
    openings bytes offset
      = (if c = '{' then [offset] else []) ++ openings bytes (stride bytes offset) := by
  rw [openings]
  split
  · simp_all
  · next read =>
    rw [found, Option.some.injEq] at read
    subst read
    split <;> rfl

theorem openings_of_passes (passes : Passes bytes offset last) : openings bytes offset = openings bytes last := by
  induction passes with
  | here => rfl
  | step found ordinary _ ih => rw [openings_of_some found, if_neg ordinary.1, List.nil_append, ih]
  | past ends ends' => rw [openings_of_none ends, openings_of_none ends']

/-- A scan does not go back. -/
theorem le_of_mem_openings {opening : Nat} (member : opening ∈ openings bytes offset) : offset ≤ opening := by
  fun_induction openings bytes offset with
  | case1 => cases member
  | case2 offset _ _ ih =>
    rcases List.mem_cons.mp member with rfl | later
    · exact Nat.le_refl _
    · exact Nat.le_trans (Nat.le_of_lt (lt_stride bytes offset)) (ih later)
  | case3 offset c _ _ _ ih => exact Nat.le_trans (Nat.le_of_lt (lt_stride bytes offset)) (ih member)

theorem Sweeps.of_leads (leads : Leads bytes offset last) {stop : Nat} (sweeps : Sweeps bytes stop depth last) :
    Sweeps bytes stop depth offset := by
  induction leads with
  | here => exact sweeps
  | step found ordinary _ ih => exact .other found ⟨ordinary.1, ordinary.2.2⟩ (ih sweeps)

/-- The scan of lexemes that open no group comes to their end without meeting an opening brace. -/
theorem openings_behind {passed : List Lexeme} (unopened : .opening ∉ passed) (front : Text) {later : Text}
    (reads : lex (sources passed ++ later) = passed ++ lex later) :
    openings (octets (front ++ sources passed ++ later)) (octets front).length
      = openings (octets (front ++ sources passed ++ later)) (octets (front ++ sources passed)).length := by
  induction passed generalizing front with
  | nil => simp
  | cons lexeme passed ih =>
    obtain ⟨stands, rest⟩ := Brace.stands_of_reads reads
    rw [List.mem_cons, not_or] at unopened
    have behind := ih unopened.2 (front ++ lexeme.source) rest
    have mark {c : Char} (same : lexeme.source = [c]) (known : c = '{' ∨ c = ',' ∨ c = '}') (other : c ≠ '{') :
        openings (octets (front ++ lexeme.source ++ (sources passed ++ later))) (octets front).length
          = openings (octets (front ++ lexeme.source ++ (sources passed ++ later)))
            (octets (front ++ lexeme.source)).length := by
      obtain ⟨found, onward⟩ := stride_of_mark front (sources passed ++ later) c known
      rw [same, openings_of_some found, onward, if_neg other, List.nil_append]
    -- One lexeme that is no opening brace is passed over without finding one.
    have first : openings (octets (front ++ lexeme.source ++ (sources passed ++ later))) (octets front).length
        = openings (octets (front ++ lexeme.source ++ (sources passed ++ later)))
          (octets (front ++ lexeme.source)).length := by
      cases lexeme with
      | opening => exact absurd rfl unopened.1
      | comma => exact mark rfl (by decide) (by decide)
      | closing => exact mark rfl (by decide) (by decide)
      | literal chunk => exact openings_of_passes (passes_literal front stands)
    simp only [Brace.sources_cons, List.append_assoc] at behind first ⊢
    exact first.trans behind

/-- Lexemes that stand alone are scanned from their start to their end. -/
theorem sweeps_of_reads {part : List Lexeme} {depth : Nat} (closed : isSealed depth part)
    (guarding : .literal ['\\'] ∉ part) (front : Text) {later : Text}
    (reads : lex (sources part ++ later) = part ++ lex later) :
    Sweeps (octets (front ++ sources part ++ later)) (octets (front ++ sources part)).length depth
      (octets front).length := by
  induction part generalizing depth front with
  | nil =>
    have flat : depth = 0 := by simpa [isSealed] using closed
    subst flat
    simpa using Sweeps.ends
  | cons lexeme part ih =>
    obtain ⟨stands, rest⟩ := Brace.stands_of_reads reads
    rw [List.mem_cons, not_or] at guarding
    rw [Brace.sources_cons, ← List.append_assoc front, List.append_assoc _ (sources part)]
    have behind (depth : Nat) (closed : isSealed depth part) := ih closed guarding.2 (front ++ lexeme.source) rest
    simp only [List.append_assoc _ (sources part)] at behind
    -- The depth goes up and down with the braces, and a closing brace never meets depth zero in a
    -- sealed part.
    cases lexeme with
    | opening =>
      obtain ⟨found, onward⟩ := stride_of_mark front (sources part ++ later) '{' (by decide)
      exact .opening found (onward ▸ behind _ closed)
    | comma =>
      simp only [isSealed, Bool.and_eq_true] at closed
      obtain ⟨found, onward⟩ := stride_of_mark front (sources part ++ later) ',' (by decide)
      exact .other found (by decide) (onward ▸ behind _ closed.2)
    | closing =>
      simp only [isSealed, Bool.and_eq_true, bne_iff_ne] at closed
      obtain ⟨outer, rfl⟩ := Nat.exists_eq_succ_of_ne_zero closed.1
      obtain ⟨found, onward⟩ := stride_of_mark front (sources part ++ later) '}' (by decide)
      exact .closing found (onward ▸ behind _ closed.2)
    | literal chunk =>
      have leads := leads_literal front stands (by simpa using Ne.symm guarding.1)
      exact .of_leads leads (behind _ closed)

theorem length_openings (bytes : List UInt8) (offset : Nat) :
    (openings bytes offset).length = countGroups bytes offset := by
  fun_induction openings bytes offset with
  | case1 offset ends => rw [countGroups_of_none ends, List.length_nil]
  | case2 offset _ found ih => rw [countGroups_of_some found, if_pos rfl, List.length_cons, ih, Nat.add_comm]
  | case3 offset c found _ other ih => rw [countGroups_of_some found, if_neg other, Nat.zero_add, ih]

/-- A text opens no group exactly if a scan meets no opening brace, and then it has no group. -/
theorem openings_eq_nil_iff {text : Text} : openings (octets text) 0 = [] ↔ Brace.countGroups text = 0 := by
  rw [← List.length_eq_zero_iff, length_openings]
  exact Eq.congr_left (countGroups_eq [] text)

end Scanning

section Resuming

/-- A search finds the same group behind lexemes that open none. -/
theorem located_append {passed : List Lexeme} (unopened : .opening ∉ passed) (front later : Text)
    (lexemes : List Lexeme) :
    located front (sources passed ++ later) (Brace.findIn (passed ++ lexemes))
      = located (front ++ sources passed) later (Brace.findIn lexemes) := by
  induction passed generalizing front with
  | nil => simp
  | cons lexeme passed ih =>
    rw [List.mem_cons, not_or] at unopened
    rw [Brace.sources_cons, List.append_assoc, List.cons_append,
      located_findIn _ _ _ (Ne.symm unopened.1), ih unopened.2, List.append_assoc]

variable {entry : Entry}

/-- It makes no difference whether the search for a group starts behind the settled part or at the start. -/
theorem findGroup_resumed (resumable : entry.IsResumable) :
    findGroup (Work.ofEntry entry).current 0 0 (Work.ofEntry entry).offset
      = findGroup (Work.ofEntry entry).current 0 0 0 := by
  obtain ⟨passed, unopened, settled, whole⟩ := resumable
  have start := findGroup_eq [] entry.current 0
  rw [Brace.findGroup, whole, Entry.current, ← settled, located_append unopened, List.nil_append,
    List.nil_append, octets_nil, List.length_nil] at start
  rw [findGroup_ofEntry, ← settled, Brace.findGroup, ← start, settled]
  rfl

/-- No group opens in front of the text that is still to be searched. -/
theorem le_of_mem_openings_resumed (resumable : entry.IsResumable) {opening : Nat}
    (member : opening ∈ openings (octets (Work.ofEntry entry).current) 0) : (Work.ofEntry entry).offset ≤ opening := by
  obtain ⟨passed, unopened, settled, whole⟩ := resumable
  rw [Entry.current, ← settled] at whole
  have behind := openings_behind unopened [] whole
  rw [List.nil_append, settled] at behind
  exact le_of_mem_openings (behind ▸ member)

end Resuming

/-- One text is pushed in the place of another one. -/
def Work.Pushes (work next : Work) : Prop :=
  ∃ opening closing works, findGroup work.current 0 0 work.offset = .ok (some (opening, closing))
    ∧ work.replacements opening closing = .ok works ∧ next ∈ works

/-- How many rewrites lead from one text to another one. -/
inductive Rewrites : Nat → Work → Work → Prop
  | none (work : Work) : Rewrites 0 work work
  | more {count : Nat} {first next last : Work} (before : Rewrites count first next) (pushes : next.Pushes last) :
      Rewrites (count + 1) first last

/-- The patterns found so far, the last one first, and the worklist. -/
structure Progress where
  found : List Text
  works : List Work
deriving DecidableEq, Repr

namespace Progress

def start (pattern : Text) : Progress := ⟨[], [⟨pattern, 0⟩]⟩

/-- One turn of the loop; none when the worklist is empty or the expansion fails. -/
def turn? : Progress → Option Progress
  | ⟨_, []⟩ => none
  | ⟨found, work :: rest⟩ =>
    match findGroup work.current 0 0 work.offset with
    | .error _ => none
    | .ok none => if maxExpansions ≤ found.length then none else some ⟨work.current :: found, rest⟩
    | .ok (some (opening, closing)) =>
      (work.replacements opening closing).toOption.map fun works => ⟨found, works ++ rest⟩

def Turns (progress next : Progress) : Prop := progress.turn? = some next

instance (progress next : Progress) : Decidable (progress.Turns next) :=
  inferInstanceAs (Decidable (progress.turn? = some next))

end Progress

section Entries

variable {entry : Entry} {pattern : Text} {work : Work}

/-- A group that is found in the text of an entry is the first one of the entry. -/
theorem exists_group_of_findGroup {opening closing : Nat}
    (found : findGroup (Work.ofEntry entry).current 0 0 (Work.ofEntry entry).offset = .ok (some (opening, closing))) :
    ∃ group, Brace.findGroup entry.pending = .group group
      ∧ (octets (entry.settled ++ group.before)).length = opening
      ∧ (octets (entry.settled ++ group.before ++ '{' :: group.body)).length = closing := by
  rw [findGroup_ofEntry] at found
  cases search : Brace.findGroup entry.pending with
  | noGroup => simp [search, located] at found
  | unclosed => simp [search, located] at found
  | group group =>
    simp only [search, located, Except.ok.injEq, Option.some.injEq, Prod.mk.injEq] at found
    exact ⟨group, rfl, found⟩

/-- If no group is found in the text of an entry, the entry has none. -/
theorem noGroup_of_findGroup
    (found : findGroup (Work.ofEntry entry).current 0 0 (Work.ofEntry entry).offset = .ok none) :
    Brace.findGroup entry.pending = .noGroup := by
  rw [findGroup_ofEntry] at found
  cases search : Brace.findGroup entry.pending with
  | noGroup => rfl
  | unclosed => simp [search, located] at found
  | group group => simp [search, located] at found

/-- What is pushed in the place of an entry's text is the text of an entry that replaces it. -/
theorem pushes_ofEntry_iff {next : Work} : (Work.ofEntry entry).Pushes next
    ↔ ∃ group, Brace.findGroup entry.pending = .group group
      ∧ ∃ replacement ∈ entry.replacements group, next = Work.ofEntry replacement := by
  constructor
  · rintro ⟨opening, closing, works, found, replaced, member⟩
    obtain ⟨group, search, rfl, rfl⟩ := exists_group_of_findGroup found
    rw [replacements_ofEntry search, Except.ok.injEq] at replaced
    subst replaced
    obtain ⟨replacement, among, rfl⟩ := List.mem_map.mp member
    exact ⟨group, search, replacement, among, rfl⟩
  · rintro ⟨group, search, replacement, among, rfl⟩
    refine ⟨_, _, _, ?_, replacements_ofEntry search, List.mem_map_of_mem among⟩
    rw [findGroup_ofEntry, search]
    rfl

/-- Every text on the worklist is the text of a resumable entry, and every rewrite has cost it a group. -/
theorem exists_entry_of_rewrites {count : Nat} (rewrites : Rewrites count ⟨pattern, 0⟩ work) :
    ∃ entry : Entry, entry.IsResumable ∧ work = Work.ofEntry entry
      ∧ count + Brace.countGroups entry.current ≤ Brace.countGroups pattern := by
  generalize origin : (⟨pattern, 0⟩ : Work) = first at rewrites
  induction rewrites with
  | none =>
    refine ⟨.ofPattern pattern, Brace.resumable_ofPattern pattern, origin.symm, ?_⟩
    simp [Entry.ofPattern, Entry.current]
  | more before pushes ih =>
    obtain ⟨entry, resumable, rfl, fewer⟩ := ih origin
    obtain ⟨group, search, replacement, among, rfl⟩ := pushes_ofEntry_iff.mp pushes
    have cost := Brace.countGroups_replacement resumable search among
    exact ⟨replacement, Brace.resumable_replacement resumable search among, rfl, by omega⟩

end Entries

section Turns

variable {pattern : Text}

/-- What the loop has on its worklist and among its patterns comes from the pattern by rewrites. -/
structure Progress.Follows (pattern : Text) (progress : Progress) : Prop where
  works : ∀ work ∈ progress.works, ∃ count, Rewrites count ⟨pattern, 0⟩ work
  found : ∀ text ∈ progress.found, ∃ count work, Rewrites count ⟨pattern, 0⟩ work
    ∧ findGroup work.current 0 0 work.offset = .ok none ∧ work.current = text

/-- What one turn of the loop does. -/
theorem turns_cases {progress next : Progress} (turns : progress.Turns next) :
    ∃ work rest, progress.works = work :: rest
      ∧ (findGroup work.current 0 0 work.offset = .ok none ∧ progress.found.length < maxExpansions
          ∧ next = ⟨work.current :: progress.found, rest⟩
        ∨ ∃ opening closing works, findGroup work.current 0 0 work.offset = .ok (some (opening, closing))
          ∧ work.replacements opening closing = .ok works ∧ next = ⟨progress.found, works ++ rest⟩) := by
  obtain ⟨found, works⟩ := progress
  cases works with
  | nil => cases turns
  | cons work rest =>
    refine ⟨work, rest, rfl, ?_⟩
    simp only [Progress.Turns, Progress.turn?] at turns
    -- A turn needs a search that does not fail, and room for a text if it finds nothing.
    split at turns
    · cases turns
    · next search =>
      split at turns
      · cases turns
      · next room =>
        exact .inl ⟨search, Nat.lt_of_not_le room, (Option.some.inj turns).symm⟩
    · next opening closing search =>
      obtain ⟨works, replaced, rfl⟩ := Option.map_eq_some_iff.mp turns
      refine .inr ⟨opening, closing, works, search, ?_, rfl⟩
      cases result : work.replacements opening closing with
      | error fault => simp [result, Except.toOption] at replaced
      | ok others => simp_all [Except.toOption]

theorem Progress.Follows.turns {progress next : Progress} (follows : progress.Follows pattern)
    (turns : progress.Turns next) : next.Follows pattern := by
  obtain ⟨known, plain⟩ := follows
  obtain ⟨work, rest, whole, ⟨search, -, rfl⟩ | ⟨opening, closing, works, search, replaced, rfl⟩⟩ := turns_cases turns
  · rw [whole, List.forall_mem_cons] at known
    obtain ⟨count, rewrites⟩ := known.1
    exact ⟨known.2, List.forall_mem_cons.mpr ⟨⟨count, work, rewrites, search, rfl⟩, plain⟩⟩
  · rw [whole, List.forall_mem_cons] at known
    obtain ⟨count, rewrites⟩ := known.1
    refine ⟨?_, plain⟩
    rw [List.forall_mem_append]
    exact ⟨fun next member => ⟨count + 1, .more rewrites ⟨opening, closing, works, search, replaced, member⟩⟩,
      known.2⟩

/-- The whole run of the loop stays with rewrites of the pattern. -/
theorem follows_of_turns {progress : Progress}
    (run : Relation.ReflTransGen Progress.Turns (.start pattern) progress) : progress.Follows pattern := by
  induction run with
  | refl => exact ⟨List.forall_mem_singleton.mpr ⟨0, .none _⟩, List.forall_mem_nil _⟩
  | tail _ turns ih => exact ih.turns turns

end Turns

section Alternatives

/-- A text is scanned from its start to its end where it stands between two others: it closes the groups it opens
and no others, and no escape and no class of it reaches over its end. -/
def IsSwept (front text back : Text) : Prop :=
  Sweeps (octets (front ++ text ++ back)) (octets (front ++ text)).length 0 (octets front).length

theorem isSwept_of_standsAlone {part : List Lexeme} {later : Text} (alone : StandsAlone part later) (front : Text) :
    IsSwept front (sources part) later := sweeps_of_reads alone.closed alone.guarding front alone.read

theorem sources_flatMap_cons (parts : List (List Lexeme)) :
    sources (parts.flatMap (.comma :: ·)) = (parts.map sources).flatMap (',' :: ·) := by
  rw [sources, List.flatMap_assoc, List.flatMap_map]
  rfl

/-- The alternatives of the first group of a resumable entry are scanned from start to end in their group, in the
place of their group and by themselves. -/
theorem isSwept_alternatives {entry : Entry} {group : Group} (resumable : entry.IsResumable)
    (found : Brace.findGroup entry.pending = .group group) {first others : List Text} {part : Text}
    (parts : Brace.alternatives group.body = first ++ part :: others) :
    IsSwept (entry.settled ++ group.before ++ '{' :: first.flatMap (· ++ [','])) part
        (others.flatMap (',' :: ·) ++ '}' :: group.after)
      ∧ IsSwept (entry.settled ++ group.before) part group.after ∧ IsSwept [] part [] := by
  obtain ⟨passed, body, later, -, whole, -, -, after, lexed, closed⟩ := Brace.exists_replacements resumable found
  rw [Brace.alternatives, lexed] at parts
  obtain ⟨before, rest, split, rfl, tail⟩ := List.map_eq_append_iff.mp parts
  obtain ⟨lexemes, behind, rfl, rfl, rfl⟩ := List.map_eq_cons_iff.mp tail
  have genuine := Brace.genuine_lex entry.current
  rw [whole] at genuine
  obtain ⟨inside, replaced, alone⟩ :=
    Brace.standsAlone_of_parts genuine split (closed lexemes (by simp [split]))
  rw [Brace.sources_append, sources_flatMap_cons] at inside
  rw [after]
  exact ⟨isSwept_of_standsAlone inside _, isSwept_of_standsAlone replaced _, isSwept_of_standsAlone alone []⟩

/-- The group that is found in the text of a resumable entry, cut at its offsets, with its alternatives. -/
theorem exists_alternatives_of_findGroup {entry : Entry} (resumable : entry.IsResumable) {opening closing : Nat}
    (found : findGroup (Work.ofEntry entry).current 0 0 (Work.ofEntry entry).offset = .ok (some (opening, closing))) :
    let text := (Work.ofEntry entry).current
    ∃ before body after parts, text = before ++ '{' :: body ++ '}' :: after
      ∧ slice text 0 opening = .ok before ∧ slice text (opening + 1) closing = .ok body
      ∧ slice text (closing + 1) (octets text).length = .ok after
      ∧ alternatives body 0 0 0 = .ok parts ∧ [','].intercalate parts = body
      ∧ ∀ first part others, parts = first ++ part :: others →
        IsSwept (before ++ '{' :: first.flatMap (· ++ [','])) part (others.flatMap (',' :: ·) ++ '}' :: after)
          ∧ IsSwept before part after ∧ IsSwept [] part [] := by
  intro text
  obtain ⟨group, search, rfl, rfl⟩ := exists_group_of_findGroup found
  -- The group is found in the pending part, and the settled part stands in front of it.
  have whole : text = entry.settled ++ group.before ++ '{' :: group.body ++ '}' :: group.after := by
    simp only [text, Work.ofEntry]
    rw [Entry.current, Brace.findGroup_eq search]
    simp
  obtain ⟨before, inside, behind⟩ := slices_of_group (entry.settled ++ group.before) group.body group.after
  rw [← whole] at before inside behind
  exact ⟨_, _, _, _, whole, before, inside, behind, alternatives_eq _, Brace.intercalate_alternatives _,
    fun first part others parts => isSwept_alternatives resumable search parts⟩

/-- A text that opens no group has none, wherever it comes from. -/
theorem noGroup_of_countGroups {text : Text} (absent : Brace.countGroups text = 0) :
    openings (octets text) 0 = [] ∧ findGroup text 0 0 0 = .ok none := by
  refine ⟨openings_eq_nil_iff.mpr absent, ?_⟩
  have flat := located_append (List.count_eq_zero.mp absent) [] [] []
  rw [List.append_nil, List.append_nil, Brace.sources_lex] at flat
  exact (findGroup_eq [] text 0).trans flat

end Alternatives

/-- Whatever comes onto the worklist of an expansion may be searched from its offset on. The search finds what it
would find from the start of the text, and no group opens in front of the offset. If it finds a group, the
alternatives with commas between them are the body, and each of them is scanned from its start to its end in its
group, in the place of its group and by itself: its groups are closed, it closes no others, and no escape and no
class reaches over its end. Every text that the loop counts among its patterns, and every text that the expansion
gives in the end, opens no group. -/
theorem search_resumes (pattern : Text) :
    (∀ progress, Relation.ReflTransGen Progress.Turns (.start pattern) progress →
        (∀ work ∈ progress.works, ∃ count, Rewrites count ⟨pattern, 0⟩ work)
          ∧ ∀ text ∈ progress.found, openings (octets text) 0 = [] ∧ findGroup text 0 0 0 = .ok none)
      ∧ (∀ count work, Rewrites count ⟨pattern, 0⟩ work →
        findGroup work.current 0 0 work.offset = findGroup work.current 0 0 0
          ∧ (∀ opening ∈ openings (octets work.current) 0, work.offset ≤ opening)
          ∧ ∀ opening closing, findGroup work.current 0 0 work.offset = .ok (some (opening, closing)) →
            ∃ before body after parts, work.current = before ++ '{' :: body ++ '}' :: after
              ∧ slice work.current 0 opening = .ok before ∧ slice work.current (opening + 1) closing = .ok body
              ∧ slice work.current (closing + 1) (octets work.current).length = .ok after
              ∧ alternatives body 0 0 0 = .ok parts ∧ [','].intercalate parts = body
              ∧ ∀ first part others, parts = first ++ part :: others →
                IsSwept (before ++ '{' :: first.flatMap (· ++ [','])) part
                    (others.flatMap (',' :: ·) ++ '}' :: after)
                  ∧ IsSwept before part after ∧ IsSwept [] part [])
      ∧ ∀ texts, Brace.expand pattern = .ok texts →
        ∀ text ∈ texts, openings (octets text) 0 = [] ∧ findGroup text 0 0 0 = .ok none := by
  refine ⟨fun progress run => ?_, fun count work rewrites => ?_, fun texts expanded text member => ?_⟩
  · obtain ⟨works, found⟩ := follows_of_turns run
    refine ⟨works, fun text member => ?_⟩
    obtain ⟨count, work, rewrites, search, rfl⟩ := found text member
    obtain ⟨entry, resumable, rfl, -⟩ := exists_entry_of_rewrites rewrites
    apply noGroup_of_countGroups
    exact Brace.countGroups_of_noGroup resumable (noGroup_of_findGroup search)
  · obtain ⟨entry, resumable, rfl, -⟩ := exists_entry_of_rewrites rewrites
    refine ⟨findGroup_resumed resumable, fun opening => le_of_mem_openings_resumed resumable, ?_⟩
    exact fun opening closing => exists_alternatives_of_findGroup resumable
  · rw [Brace.expand] at expanded
    split at expanded
    · cases expanded
    · apply noGroup_of_countGroups
      refine Brace.countGroups_of_drain expanded ?_ (List.forall_mem_nil _) text member
      exact List.forall_mem_singleton.mpr (Brace.resumable_ofPattern pattern)

/-- A bracket without an end stands in front of a group with an inner group, where a backslash guards a comma. -/
theorem search_resumes_bracket :
    let pattern : Text := "[\x7ba\\,,\x7bb,\x7d\x7dc".toList
    let work : Work := ⟨"[\x7bb,\x7dc".toList, 1⟩
    Relation.ReflTransGen Progress.Turns (.start pattern) ⟨[], [⟨"[a\\,c".toList, 1⟩, work]⟩
      ∧ (∃ count, Rewrites count ⟨pattern, 0⟩ work)
      ∧ findGroup work.current 0 0 1 = .ok (some (1, 4)) ∧ findGroup work.current 0 0 0 = .ok (some (1, 4))
      ∧ (1 ∈ openings (octets work.current) 0 ∧ work.offset ≤ 1)
      ∧ IsSwept "[\x7b".toList "b".toList ",\x7dc".toList
      ∧ Brace.expand pattern = .ok ["[a\\,c".toList, "[bc".toList, "[c".toList]
      ∧ findGroup "[bc".toList 0 0 0 = .ok none := by
  intro pattern work
  have turns : (Progress.start pattern).Turns ⟨[], [⟨"[a\\,c".toList, 1⟩, work]⟩ := by decide +kernel
  have found : findGroup work.current 0 0 1 = .ok (some (1, 4)) := by decide +kernel
  have opens : 1 ∈ openings (octets work.current) 0 := by decide +kernel
  have expanded : Brace.expand pattern = .ok ["[a\\,c".toList, "[bc".toList, "[c".toList] := by decide +kernel
  obtain ⟨loop, searches, results⟩ := search_resumes pattern
  obtain ⟨works, -⟩ := loop _ (.single turns)
  obtain ⟨count, rewrites⟩ := works work (by simp)
  obtain ⟨same, behind, groups⟩ := searches count work rewrites
  obtain ⟨before, body, after, parts, -, front, inside, behindGroup, separated, -, swept⟩ := groups 1 4 found
  obtain rfl : "[".toList = before := Except.ok.inj ((by decide +kernel : _ = _).symm.trans front)
  obtain rfl : "b,".toList = body := Except.ok.inj ((by decide +kernel : _ = _).symm.trans inside)
  obtain rfl : "c".toList = after := Except.ok.inj ((by decide +kernel : _ = _).symm.trans behindGroup)
  obtain rfl : ["b".toList, []] = parts := Except.ok.inj ((by decide +kernel : _ = _).symm.trans separated)
  obtain ⟨placed, -, -⟩ := swept [] "b".toList [[]] rfl
  exact ⟨.single turns, ⟨count, rewrites⟩, found, same ▸ found, ⟨opens, behind 1 opens⟩, placed, expanded,
    (results _ expanded _ (by simp)).2⟩

end RootedGlob.Octets
