import Mathlib.Data.Multiset.DershowitzManna
import RootedGlob.Proofs.Octets.Worklist

/-!
# Why an expansion ends

A rewrite takes at least one group out of its text, so no text is more rewrites away from the pattern than the
pattern has groups (`count_of_rewrites`). A turn of the loop therefore takes a text from the worklist and puts texts
with fewer groups in its place, or none: the multiset of the numbers of groups goes down (`cost_of_turns`), and the
loop comes to an end on every pattern, whether its groups are closed or not (`expansion_descends`).
-/

namespace RootedGlob.Octets

open Brace (Entry maxExpansions)

section Rewriting

variable {pattern : Text} {count : Nat} {work : Work}

theorem countGroups_octets (text : Text) : countGroups (octets text) 0 = Brace.countGroups text :=
  countGroups_eq [] text

/-- Every rewrite costs a group. -/
theorem count_of_rewrites (rewrites : Rewrites count ⟨pattern, 0⟩ work) :
    count + countGroups (octets work.current) 0 ≤ countGroups (octets pattern) 0 := by
  obtain ⟨entry, -, rfl, fewer⟩ := exists_entry_of_rewrites rewrites
  rw [countGroups_octets, countGroups_octets]
  exact fewer

/-- What takes the place of a text on the worklist, all of it with fewer groups. -/
theorem exists_replacements_of_rewrites (rewrites : Rewrites count ⟨pattern, 0⟩ work) {opening closing : Nat}
    (found : findGroup work.current 0 0 work.offset = .ok (some (opening, closing))) :
    ∃ works, work.replacements opening closing = .ok works
      ∧ ∀ next ∈ works, countGroups (octets next.current) 0 < countGroups (octets work.current) 0 := by
  obtain ⟨entry, resumable, rfl, -⟩ := exists_entry_of_rewrites rewrites
  obtain ⟨group, search, rfl, rfl⟩ := exists_group_of_findGroup found
  refine ⟨_, replacements_ofEntry search, fun next member => ?_⟩
  obtain ⟨replacement, among, rfl⟩ := List.mem_map.mp member
  rw [countGroups_octets, countGroups_octets]
  exact Brace.countGroups_replacement resumable search among

end Rewriting

section Looping

variable {pattern : Text} {progress next : Progress}

/-- The numbers of groups of the texts on the worklist. -/
def Progress.cost (progress : Progress) : Multiset Nat :=
  (progress.works.map fun work => countGroups (octets work.current) 0 : List Nat)

/-- A turn puts smaller numbers in the place of one number. -/
theorem cost_of_turns (follows : progress.Follows pattern) (turns : progress.Turns next) :
    Multiset.IsDershowitzMannaLT next.cost progress.cost := by
  obtain ⟨work, rest, whole, effect⟩ := turns_cases turns
  let kept : Multiset Nat := (rest.map fun work => countGroups (octets work.current) 0 : List Nat)
  have before : progress.cost = kept + {countGroups (octets work.current) 0} := by
    rw [Progress.cost, whole, List.map_cons, ← Multiset.cons_coe, ← Multiset.singleton_add, Multiset.add_comm]
  rcases effect with ⟨-, -, rfl⟩ | ⟨opening, closing, works, search, replaced, rfl⟩
  · exact ⟨kept, 0, {_}, Multiset.singleton_ne_zero _, (Multiset.add_zero kept).symm, before, by simp⟩
  · obtain ⟨count, rewrites⟩ := follows.works work (whole ▸ List.mem_cons_self)
    obtain ⟨others, same, fewer⟩ := exists_replacements_of_rewrites rewrites search
    obtain rfl := Except.ok.inj (replaced.symm.trans same)
    let pushed : Multiset Nat := (works.map fun work => countGroups (octets work.current) 0 : List Nat)
    have after : Progress.cost ⟨progress.found, works ++ rest⟩ = kept + pushed := by
      rw [Progress.cost, List.map_append, ← Multiset.coe_add, Multiset.add_comm]
    refine ⟨kept, pushed, {_}, Multiset.singleton_ne_zero _, after, before, fun number member => ?_⟩
    obtain ⟨other, among, rfl⟩ := List.mem_map.mp (Multiset.mem_coe.mp member)
    exact ⟨_, Multiset.mem_singleton_self _, fewer other among⟩

/-- Whatever the loop has to do, it comes to a turn that is the last one. -/
theorem exists_last_turn (follows : progress.Follows pattern) :
    ∃ last, Relation.ReflTransGen Progress.Turns progress last ∧ last.turn? = none := by
  have descent : WellFounded fun one two : Progress => Multiset.IsDershowitzMannaLT one.cost two.cost :=
    InvImage.wf Progress.cost Multiset.wellFounded_isDershowitzMannaLT
  induction progress using descent.induction with
  | h progress ih =>
    cases turn : progress.turn? with
    | none => exact ⟨progress, .refl, turn⟩
    | some next =>
      have turns : progress.Turns next := turn
      obtain ⟨last, run, rests⟩ := ih next (cost_of_turns follows turns) (follows.turns turns)
      exact ⟨last, .head turns run, rests⟩

/-- A turn does not change what the expansion gives in the end. -/
theorem drain_of_turns (turns : progress.Turns next) :
    drain pattern progress.found progress.works = drain pattern next.found next.works := by
  obtain ⟨work, rest, whole, ⟨search, room, rfl⟩ | ⟨opening, closing, works, search, replaced, rfl⟩⟩ := turns_cases turns
  · rw [whole, drain_cons, search]
    exact if_neg (Nat.not_le.mpr room)
  · rw [whole, drain_cons, search]
    simp only [replaced]
    rfl

theorem drain_of_run (run : Relation.ReflTransGen Progress.Turns progress next) :
    drain pattern progress.found progress.works = drain pattern next.found next.works := by
  induction run with
  | refl => rfl
  | tail _ turns ih => exact ih.trans (drain_of_turns turns)

/-- Where the loop ends, either nothing is left to do or the expansion fails. -/
theorem drain_of_rests (follows : progress.Follows pattern) (rests : progress.turn? = none) :
    progress.works = [] ∧ drain pattern progress.found progress.works = .ok progress.found.reverse
      ∨ ∃ error, drain pattern progress.found progress.works = .error (.expansion error) := by
  obtain ⟨found, works⟩ := progress
  cases works with
  | nil => exact .inl ⟨rfl, by rw [drain]⟩
  | cons work rest =>
    rw [drain_cons]
    simp only [Progress.turn?] at rests
    -- The loop rests on a work if its search fails, or finds nothing while there is no room for a text.
    -- The alternatives of a group that is found never fail.
    cases search : findGroup work.current 0 0 work.offset with
    | error error => exact .inr ⟨error, rfl⟩
    | ok result =>
      rw [search] at rests
      cases result with
      | none =>
        by_cases full : maxExpansions ≤ found.length
        · exact .inr ⟨_, if_pos full⟩
        · simp [full] at rests
      | some group =>
        obtain ⟨opening, closing⟩ := group
        obtain ⟨count, rewrites⟩ := follows.works work List.mem_cons_self
        obtain ⟨works, replaced, -⟩ := exists_replacements_of_rewrites rewrites search
        simp [replaced, Except.toOption] at rests

end Looping

/-- The number of groups measures how far an expansion is from its end. Every text that comes onto the worklist comes
from the pattern by rewrites, and no text is more rewrites away than the pattern has groups more than the text. If
a group is found in it, every text that is pushed in its place opens fewer groups. So the loop comes to an end on
every pattern, and what it has found by then is at most as many rewrites away as the pattern has groups. -/
theorem expansion_descends (pattern : Text) :
    (∀ progress, Relation.ReflTransGen Progress.Turns (.start pattern) progress →
        ∀ work ∈ progress.works, ∃ count, Rewrites count ⟨pattern, 0⟩ work)
      ∧ (∀ count work, Rewrites count ⟨pattern, 0⟩ work →
        count + countGroups (octets work.current) 0 ≤ countGroups (octets pattern) 0
          ∧ ∀ opening closing, findGroup work.current 0 0 work.offset = .ok (some (opening, closing)) →
            ∃ works, work.replacements opening closing = .ok works
              ∧ ∀ next ∈ works, countGroups (octets next.current) 0 < countGroups (octets work.current) 0)
      ∧ ∃ last, Relation.ReflTransGen Progress.Turns (.start pattern) last ∧ last.turn? = none
        ∧ (∀ text ∈ last.found, ∃ count ≤ countGroups (octets pattern) 0, ∃ work, Rewrites count ⟨pattern, 0⟩ work
          ∧ findGroup work.current 0 0 work.offset = .ok none ∧ work.current = text)
        ∧ (last.works = [] ∧ Brace.drain pattern [] [.ofPattern pattern] = .ok last.found.reverse
          ∨ ∃ error, Brace.drain pattern [] [.ofPattern pattern] = .error error) := by
  refine ⟨fun progress run => (follows_of_turns run).works, fun count work rewrites => ?_, ?_⟩
  · exact ⟨count_of_rewrites rewrites, fun opening closing => exists_replacements_of_rewrites rewrites⟩
  · obtain ⟨last, run, rests⟩ := exists_last_turn (follows_of_turns (.refl (a := Progress.start pattern)))
    have follows := follows_of_turns run
    refine ⟨last, run, rests, fun text member => ?_, ?_⟩
    · obtain ⟨count, work, rewrites, found⟩ := follows.found text member
      have cost := count_of_rewrites rewrites
      exact ⟨count, by omega, work, rewrites, found⟩
    · have ends := drain_of_rests follows rests
      -- Both expansions start alike, so they end alike.
      have same : drain pattern last.found last.works
          = (Brace.drain pattern [] [.ofPattern pattern]).mapError .expansion :=
        (drain_of_run run).symm.trans (drain_eq pattern [] [.ofPattern pattern])
      rw [same] at ends
      cases result : Brace.drain pattern [] [.ofPattern pattern] with
      | error error => exact .inr ⟨error, rfl⟩
      | ok texts =>
        rcases ends with ⟨empty, whole⟩ | ⟨error, failed⟩
        · rw [result] at whole
          exact .inl ⟨empty, by rw [Except.ok.inj whole]⟩
        · rw [result] at failed
          cases failed

/-- An inner group, and braces that are guarded and stay so. -/
theorem expansion_descends_nested :
    let pattern : Text := "\x7b\x7ba,b\x7d,[\x7b]\\\x7b\x7d".toList
    Rewrites 1 ⟨pattern, 0⟩ ⟨"\x7ba,b\x7d".toList, 0⟩
      ∧ findGroup "\x7ba,b\x7d".toList 0 0 0 = .ok (some (0, 4))
      ∧ (∃ works, Work.replacements ⟨"\x7ba,b\x7d".toList, 0⟩ 0 4 = .ok works
        ∧ ∀ next ∈ works, countGroups (octets next.current) 0 < 1)
      ∧ 1 + 1 ≤ countGroups (octets pattern) 0
      ∧ ∃ last, Relation.ReflTransGen Progress.Turns (.start pattern) last ∧ last.turn? = none
        ∧ last.found.reverse = ["a".toList, "b".toList, "[\x7b]\\\x7b".toList] := by
  intro pattern
  have turns : (Progress.start pattern).Turns ⟨[], [⟨"\x7ba,b\x7d".toList, 0⟩, ⟨"[\x7b]\\\x7b".toList, 0⟩]⟩ := by
    decide +kernel
  have found : findGroup "\x7ba,b\x7d".toList 0 0 0 = .ok (some (0, 4)) := by decide +kernel
  have drained : Brace.drain pattern [] [.ofPattern pattern]
      = .ok ["a".toList, "b".toList, "[\x7b]\\\x7b".toList] := by decide +kernel
  have single : countGroups (octets "\x7ba,b\x7d".toList) 0 = 1 := by decide +kernel
  have rewrites : Rewrites 1 ⟨pattern, 0⟩ ⟨"\x7ba,b\x7d".toList, 0⟩ :=
    .more (.none _) ⟨0, 12, [⟨"\x7ba,b\x7d".toList, 0⟩, ⟨"[\x7b]\\\x7b".toList, 0⟩], by decide +kernel,
      by decide +kernel, List.mem_cons_self⟩
  obtain ⟨-, descends, last, run, rests, -, outcome⟩ := expansion_descends pattern
  obtain ⟨cost, replaced⟩ := descends 1 _ rewrites
  have pushed := replaced 0 4 found
  rw [single] at cost pushed
  refine ⟨rewrites, found, pushed, cost, last, run, rests, ?_⟩
  rcases outcome with ⟨-, whole⟩ | ⟨error, failed⟩
  · exact Except.ok.inj (whole.symm.trans drained)
  · cases failed.symm.trans drained

end RootedGlob.Octets
