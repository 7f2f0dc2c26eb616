import Mathlib.Algebra.GroupWithZero.Nat
import Mathlib.Algebra.Order.BigOperators.Group.List
import Mathlib.Algebra.Order.Group.Nat
import Mathlib.Data.List.Forall2
import Mathlib.Data.List.Flatten

/-!
# Traversals, pieces and first occurrences

Facts about lists that know nothing about patterns: traversals that may fail, bounded sums, lists that
are split at a mark, and lists from which later occurrences are dropped.
-/

namespace RootedGlob

section Traversal

variable {α β ε : Type} {f : α → Except ε β}

theorem bind_eq_ok_iff {x : Except ε α} {f : α → Except ε β} {y : β} :
    x >>= f = .ok y ↔ ∃ z, x = .ok z ∧ f z = .ok y := by
  cases x <;> simp [bind, Except.bind]

theorem mapM_cons_eq_ok_iff {x : α} {xs : List α} {zs : List β} :
    (x :: xs).mapM f = .ok zs ↔ ∃ y ys, f x = .ok y ∧ xs.mapM f = .ok ys ∧ zs = y :: ys := by
  rw [List.mapM_cons]
  cases head : f x with
  | error => simp [bind, Except.bind]
  | ok y =>
    cases rest : xs.mapM f with
    | error => simp [bind, Except.bind]
    | ok ys =>
      simp only [bind, Except.bind, pure, Except.pure, Except.ok.injEq]
      constructor
      · rintro rfl
        exact ⟨y, ys, rfl, rfl, rfl⟩
      · rintro ⟨_, _, rfl, rfl, rfl⟩
        rfl

/-- A traversal succeeds exactly if it succeeds at each element, and collects what it finds there. -/
theorem mapM_eq_ok_iff {xs : List α} {ys : List β} :
    xs.mapM f = .ok ys ↔ List.Forall₂ (fun x y => f x = .ok y) xs ys := by
  induction xs generalizing ys with
  | nil => cases ys <;> simp [pure, Except.pure]
  | cons x xs ih =>
    rw [mapM_cons_eq_ok_iff]
    constructor
    · rintro ⟨y, rest, head, tail, rfl⟩
      exact .cons head (ih.mp tail)
    · intro related
      cases related with
      | cons head tail => exact ⟨_, _, head, ih.mpr tail, rfl⟩

/-- A traversal fails with the fault of the first element at which it fails. -/
theorem mapM_eq_error_iff {xs : List α} {fault : ε} :
    xs.mapM f = .error fault ↔ ∃ front x back, xs = front ++ x :: back
      ∧ (∀ y ∈ front, ∃ z, f y = .ok z) ∧ f x = .error fault := by
  induction xs with
  | nil => simp [pure, Except.pure]
  | cons x xs ih =>
    -- By induction: either the head fails, or it succeeds and the rest fails at the same element.
    have step : (x :: xs).mapM f = .error fault
        ↔ f x = .error fault ∨ (∃ z, f x = .ok z) ∧ xs.mapM f = .error fault := by
      rw [List.mapM_cons]
      cases f x <;> cases xs.mapM f <;> simp [bind, Except.bind, pure, Except.pure]
    rw [step, ih]
    constructor
    · rintro (fails | ⟨found, front, y, back, rfl, before, fails⟩)
      · exact ⟨[], x, xs, rfl, by simp, fails⟩
      · exact ⟨x :: front, y, back, rfl, List.forall_mem_cons.mpr ⟨found, before⟩, fails⟩
    · rintro ⟨front, y, back, whole, before, fails⟩
      cases front with
      | nil =>
        obtain ⟨rfl, -⟩ := List.cons.inj whole
        exact .inl fails
      | cons z front =>
        obtain ⟨rfl, rfl⟩ := List.cons.inj whole
        obtain ⟨found, before⟩ := List.forall_mem_cons.mp before
        exact .inr ⟨found, front, y, back, rfl, before, fails⟩

theorem forall₂_trans {γ : Type} {related : γ → γ → Prop} {xs ys zs : List γ}
    (one : List.Forall₂ related xs ys) (two : List.Forall₂ related ys zs)
    (trans : ∀ {x y z}, related x y → related y z → related x z) :
    List.Forall₂ related xs zs := by
  induction one generalizing zs with
  | nil => exact two
  | cons head _ ih =>
    cases two with
    | cons next rest => exact .cons (trans head next) (ih rest)

theorem exists_of_forall₂ {γ : Type} {related : γ → β → Prop} {xs : List γ} {ys : List β}
    (all : List.Forall₂ related xs ys) {y : β} (member : y ∈ ys) : ∃ x ∈ xs, related x y := by
  induction all with
  | nil => simp at member
  | cons head _ ih =>
    rcases List.mem_cons.mp member with rfl | member
    · exact ⟨_, List.mem_cons_self, head⟩
    · obtain ⟨x, inside, found⟩ := ih member
      exact ⟨x, List.mem_cons_of_mem _ inside, found⟩

theorem exists_forall₂ {γ : Type} {related : γ → β → Prop} {xs : List γ}
    (each : ∀ x ∈ xs, ∃ y, related x y) : ∃ ys, List.Forall₂ related xs ys := by
  induction xs with
  | nil => exact ⟨[], .nil⟩
  | cons x xs ih =>
    obtain ⟨y, head⟩ := each x List.mem_cons_self
    obtain ⟨ys, rest⟩ := ih fun other member => each other (List.mem_cons_of_mem _ member)
    exact ⟨y :: ys, .cons head rest⟩

end Traversal

/-- Bounds that add up to no more than what they bound are reached everywhere. -/
theorem eq_of_sum_map_le {α : Type} {f g : α → Nat} {xs : List α} (each : ∀ x ∈ xs, f x ≤ g x)
    (enough : (xs.map g).sum ≤ (xs.map f).sum) : ∀ x ∈ xs, f x = g x := by
  intro x member
  by_contra differs
  have less := List.sum_lt_sum f g each ⟨x, member, lt_of_le_of_ne (each x member) differs⟩
  exact absurd enough (not_le.mpr less)

section Pieces

variable {α : Type} [BEq α] [LawfulBEq α] {mark : α} {whole piece : List α}

theorem not_mem_of_mem_splitOn (member : piece ∈ whole.splitOn mark) : mark ∉ piece := by
  induction whole generalizing piece with
  | nil =>
    rw [List.splitOn_nil, List.mem_singleton] at member
    simp [member]
  | cons x whole ih =>
    rw [List.splitOn_cons_eq_if_modifyHead] at member
    split at member
    · rcases List.mem_cons.mp member with rfl | member
      · simp
      · exact ih member
    · -- A character that is no mark goes to the first piece, so only that piece is new.
      next other =>
      obtain ⟨first, rest, split⟩ := List.exists_cons_of_ne_nil (List.splitOn_ne_nil mark whole)
      rw [split, List.modifyHead_cons] at member
      have inside : ∀ other ∈ first :: rest, mark ∉ other := by
        rw [← split]
        exact fun _ => ih
      rcases List.mem_cons.mp member with rfl | member
      · have same : x ≠ mark := by simpa using other
        simp [Ne.symm same, inside first List.mem_cons_self]
      · exact inside piece (List.mem_cons_of_mem _ member)

omit [BEq α] [LawfulBEq α] in
theorem mem_intercalate_of_mem {between : List α} {pieces : List (List α)} (member : piece ∈ pieces)
    {x : α} (inside : x ∈ piece) : x ∈ between.intercalate pieces := by
  induction pieces with
  | nil => cases member
  | cons first pieces ih =>
    cases pieces with
    | nil =>
      rw [List.mem_singleton.mp member] at inside
      simpa using inside
    | cons next pieces =>
      rw [List.intercalate_cons_cons, List.mem_append]
      rcases List.mem_cons.mp member with rfl | member
      · exact .inl (List.mem_append_left _ inside)
      · exact .inr (ih member)

omit [BEq α] [LawfulBEq α] in
theorem intercalate_cons_flatMap (mark : α) (piece : List α) (pieces : List (List α)) :
    [mark].intercalate (piece :: pieces) = piece ++ pieces.flatMap (mark :: ·) := by
  induction pieces generalizing piece with
  | nil => simp
  | cons next pieces ih =>
    rw [List.intercalate_cons_cons, ih next]
    simp

omit [BEq α] [LawfulBEq α] in
/-- What stands in front of a piece and behind it, when pieces are put together with marks between them. -/
theorem intercalate_append_cons (mark : α) (first others : List (List α)) (piece : List α) :
    [mark].intercalate (first ++ piece :: others)
      = first.flatMap (· ++ [mark]) ++ piece ++ others.flatMap (mark :: ·) := by
  induction first with
  | nil => exact intercalate_cons_flatMap mark piece others
  | cons other first ih =>
    obtain ⟨next, rest, same⟩ : ∃ next rest, first ++ piece :: others = next :: rest := by
      cases first <;> exact ⟨_, _, rfl⟩
    rw [List.cons_append, same, List.intercalate_cons_cons, ← same, ih]
    simp

theorem mem_of_mem_splitOn (member : piece ∈ whole.splitOn mark) {x : α} (inside : x ∈ piece) :
    x ∈ whole := by
  have same : [mark].intercalate (whole.splitOn mark) = whole := List.intercalate_splitOn mark
  rw [← same]
  exact mem_intercalate_of_mem member inside

end Pieces

section FirstOccurrences

variable {α : Type} [BEq α] [LawfulBEq α]

theorem filter_eraseDups (p : α → Bool) (xs : List α) :
    xs.eraseDups.filter p = (xs.filter p).eraseDups := by
  match xs with
  | [] => rfl
  | x :: xs =>
    -- `eraseDups` recurses on the tail without the head, so the hypothesis is about that shorter list.
    have rest := filter_eraseDups p (xs.filter fun y => !y == x)
    by_cases kept : p x
    · rw [List.eraseDups_cons, List.filter_cons_of_pos kept, List.filter_cons_of_pos kept,
        List.eraseDups_cons, rest, List.filter_filter, List.filter_filter]
      simp only [Bool.and_comm]
    · rw [List.eraseDups_cons, List.filter_cons_of_neg kept, List.filter_cons_of_neg kept, rest,
        List.filter_filter]
      congr 1
      refine List.filter_congr fun y _ => ?_
      by_cases same : y = x
      · subst same
        simp [kept]
      · simp [same]
termination_by xs.length
decreasing_by exact Nat.lt_succ_of_le (List.length_filter_le _ _)

theorem nodup_eraseDups (xs : List α) : xs.eraseDups.Nodup := by
  match xs with
  | [] => exact .nil
  | x :: xs =>
    rw [List.eraseDups_cons, List.nodup_cons]
    refine ⟨?_, nodup_eraseDups _⟩
    simp
termination_by xs.length
decreasing_by exact Nat.lt_succ_of_le (List.length_filter_le _ _)

theorem eraseDups_of_nodup {xs : List α} (nodup : xs.Nodup) : xs.eraseDups = xs := by
  induction xs with
  | nil => rfl
  | cons x xs ih =>
    obtain ⟨absent, rest⟩ := List.nodup_cons.mp nodup
    have kept : (xs.filter fun y => !y == x) = xs := by
      rw [List.filter_eq_self]
      intro y member
      simpa using fun same : y = x => absent (same ▸ member)
    rw [List.eraseDups_cons, kept, ih rest]

theorem eraseDups_eraseDups (xs : List α) : xs.eraseDups.eraseDups = xs.eraseDups :=
  eraseDups_of_nodup (nodup_eraseDups xs)

theorem eraseDups_concat (xs : List α) (x : α) :
    (xs ++ [x]).eraseDups = if x ∈ xs then xs.eraseDups else xs.eraseDups ++ [x] := by
  rw [List.eraseDups_append]
  by_cases member : x ∈ xs <;> simp [List.removeAll, List.eraseDups_cons, member]

/-- Dropping later occurrences in a part first does not change what is left of the whole. -/
theorem eraseDups_flatMap_eraseDups (parts : List (List α)) :
    (parts.flatMap List.eraseDups).eraseDups = parts.flatten.eraseDups := by
  induction parts with
  | nil => rfl
  | cons part parts ih =>
    have without (rest : List α) : rest.removeAll part.eraseDups = rest.removeAll part := by
      simp [List.removeAll]
    have later (rest : List α) :
        (rest.removeAll part).eraseDups = rest.eraseDups.removeAll part := by
      rw [List.removeAll, List.removeAll, filter_eraseDups]
    rw [List.flatMap_cons, List.flatten_cons, List.eraseDups_append, List.eraseDups_append, without,
      eraseDups_eraseDups, later, later, ih]

theorem mem_of_mem_eraseDupsBy {β : Type} {related : β → β → Bool} {x : β} {xs : List β}
    (member : x ∈ xs.eraseDupsBy related) : x ∈ xs := by
  match xs with
  | [] => exact member
  | y :: xs =>
    rw [List.eraseDupsBy_cons] at member
    rcases List.mem_cons.mp member with rfl | later
    · exact List.mem_cons_self
    · exact List.mem_cons_of_mem _ (List.mem_of_mem_filter (mem_of_mem_eraseDupsBy later))
termination_by xs.length
decreasing_by exact Nat.lt_succ_of_le (List.length_filter_le _ _)

/-- Dropping elements whose image occurred before is dropping later occurrences of images. -/
theorem map_eraseDupsBy {β : Type} (f : β → α) (xs : List β) :
    (xs.eraseDupsBy fun x y => f x == f y).map f = (xs.map f).eraseDups := by
  match xs with
  | [] => rfl
  | x :: xs =>
    have rest := map_eraseDupsBy f (xs.filter fun y => (f y == f x) = false)
    rw [List.eraseDupsBy_cons, List.map_cons, List.map_cons, List.eraseDups_cons, rest,
      List.filter_map]
    congr 3
    refine List.filter_congr fun y _ => ?_
    by_cases same : f y = f x <;> simp [same]
termination_by xs.length
decreasing_by exact Nat.lt_succ_of_le (List.length_filter_le _ _)

end FirstOccurrences

end RootedGlob
