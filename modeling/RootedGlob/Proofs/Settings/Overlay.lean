import Mathlib.Data.List.Basic
import RootedGlob.Value

/-!
# Layers of tables

Layered over each other, tables make one table with all their members (`foldl_overlay`). What stands there under a
name is the value that was given last, or a table that was merged into it afterwards (`holds_overlay`). So a reader
that refuses tables reads the value that was given last (`reads_given`).
-/

namespace RootedGlob

/-- A value that replaces what stands under its name. A table is merged into that instead. -/
def Value.replacing? : Value → Option Value
  | .table _ => none
  | value => some value

namespace Table

/-- The value that a member gives a name. -/
def gives? (name : Text) (member : Text × Value) : Option Value :=
  if member.1 = name then member.2.replacing? else none

/-- The value that members give a name: the last one that replaces the others. -/
def given? (name : Text) (members : Table) : Option Value := members.reverse.findSome? (gives? name)

/-- What can stand under a name where `given` is the value that was given last. -/
inductive Holds (given : Option Value) : Option Value → Prop
  | replaced : Holds given given
  | merged (members : Table) : Holds given (some (.table members))

variable {name : Text} {given : Option Value}

theorem given?_append (name : Text) (members more : Table) :
    given? name (members ++ more) = (given? name more).or (given? name members) := by
  rw [given?, List.reverse_append]
  exact List.findSome?_append

theorem given?_cons (name : Text) (member : Text × Value) (members : Table) :
    given? name (member :: members) = (given? name members).or (gives? name member) := by
  rw [← List.singleton_append, given?_append]
  exact congrArg _ List.findSome?_singleton

theorem given?_flatten_eq_none_iff {tables : List Table} :
    given? name tables.flatten = none ↔ ∀ table ∈ tables, given? name table = none := by
  induction tables with
  | nil => simp [given?]
  | cons table tables ih =>
    rw [List.flatten_cons, given?_append, Option.or_eq_none_iff, ih, List.forall_mem_cons, and_comm]

section Step

theorem lookup_cons (name : Text) (member : Text × Value) (table : Table) :
    List.lookup name (member :: table) = if member.1 = name then some member.2 else table.lookup name := by
  rw [List.lookup_cons]
  split
  · next same => rw [if_pos (beq_iff_eq.mp same).symm]
  · next other => rw [if_neg (beq_eq_false_iff_ne.mp other).symm]

theorem lookup_set (name other : Text) (value : Value) (table : Table) :
    (set other value table).lookup name = if other = name then some value else table.lookup name := by
  induction table with
  | nil => rw [set, lookup_cons]
  | cons member rest ih =>
    obtain ⟨first, old⟩ := member
    rw [set]
    split
    · next same =>
      rw [lookup_cons, lookup_cons, same]
      split <;> rfl
    · next differs =>
      rw [lookup_cons, lookup_cons, ih]
      split
      · next same => rw [if_neg fun also => differs (same.trans also.symm)]
      · rfl

/-- Whatever is put under a name is set there: a value that replaces, or else a table or what stands there. -/
theorem exists_set_of_put (table : Table) (name : Text) (value : Value) :
    ∃ new, put table name value = set name new table ∧ (value.replacing? = some new
      ∨ value.replacing? = none ∧ ((∃ members, new = .table members) ∨ table.lookup name = some new)) := by
  cases value with
  | table members =>
    rw [put]
    split
    · exact ⟨_, rfl, .inr ⟨rfl, .inl ⟨_, rfl⟩⟩⟩
    · next old other =>
      refine ⟨_, rfl, .inr ⟨rfl, ?_⟩⟩
      split
      · -- An empty table changes nothing, and as no table stands there something else does.
        cases found : table.lookup name with
        | none => exact absurd (congrArg (·.getD (.table [])) found) (other [])
        | some value => exact .inr rfl
      · exact .inl ⟨_, rfl⟩
  | null | bool | integer | decimal | text | sequence => exact ⟨_, rfl, .inl rfl⟩

/-- One more member keeps up to date what stands under a name. -/
theorem holds_put {table : Table} (held : Holds given (table.lookup name)) (other : Text) (value : Value) :
    Holds ((gives? name (other, value)).or given) ((put table other value).lookup name) := by
  obtain ⟨new, put, kind⟩ := exists_set_of_put table other value
  rw [put, lookup_set, gives?]
  split
  · next same =>
    obtain rfl : other = name := same
    rcases kind with replaces | ⟨keeps, ⟨members, rfl⟩ | stands⟩
    · rw [replaces]
      exact .replaced
    · exact .merged members
    · rw [keeps, ← stands]
      exact held
  · exact held

end Step

/-- Members that are layered over a table keep up to date what stands under a name. -/
theorem holds_overlay {table : Table} (held : Holds given (table.lookup name)) (members : Table) :
    Holds ((given? name members).or given) ((overlay table members).lookup name) := by
  induction members generalizing table given with
  | nil => exact held
  | cons member members ih =>
    rw [given?_cons, Option.or_assoc]
    exact ih (holds_put held member.1 member.2)

theorem overlay_append (table members more : Table) :
    overlay table (members ++ more) = overlay (overlay table members) more := by
  induction members generalizing table with
  | nil => rfl
  | cons member members ih => exact ih _

/-- Tables that are layered one after the other are layered as one table. -/
theorem foldl_overlay (table : Table) (tables : List Table) :
    tables.foldl overlay table = overlay table tables.flatten := by
  induction tables generalizing table with
  | nil => rfl
  | cons first tables ih => rw [List.foldl_cons, ih, List.flatten_cons, overlay_append]

/-- A reader that refuses tables reads what was given last. -/
theorem reads_given {α : Type} {read? : Option Value → Option α}
    (refuses : ∀ members, read? (some (.table members)) = none) (tables : List Table) {result : α}
    (reads : read? ((tables.foldl overlay []).lookup name) = some result) :
    read? (given? name tables.flatten) = some result := by
  have held : Holds none (List.lookup name []) := .replaced
  rw [foldl_overlay] at reads
  have last := holds_overlay held tables.flatten
  rw [Option.or_none] at last
  generalize (overlay [] tables.flatten).lookup name = found at reads last
  cases last with
  | replaced => exact reads
  | merged members =>
    rw [refuses] at reads
    cases reads

end Table

end RootedGlob
