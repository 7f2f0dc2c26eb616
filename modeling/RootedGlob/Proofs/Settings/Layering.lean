import Mathlib.Data.List.Induction
import RootedGlob.Settings

/-!
# Layers of settings

What a layer says about one thing can be read off the layer alone: an option that it sets, or the place where it
wants the folders to come from. One step of layering takes what the later layer says, and else keeps what held
before. So a run over any number of layers ends with what the last layer says that says anything
(`read_foldl_overriddenBy`), and layering is associative, with the settings that say nothing as its unit
(`overriddenBy_assoc`, `overriddenBy_default`). The two flags are no options, because a layer can only move them in
one direction.
-/

namespace RootedGlob.Settings

attribute [ext] Settings

/-- What the last of some layers says that says anything. -/
def last? {α : Type} (said : Settings → Option α) (layers : List Settings) : Option α :=
  layers.reverse.findSome? said

/-- The place where the folders come from: a list of folders and a workspace file, which belong together. -/
def origin (settings : Settings) : List Text × Option Text := (settings.folders, settings.workspaceFile)

/-- The place that a layer names. Folders count more than a workspace file, and neither comes with the other. -/
def origin? (layer : Settings) : Option (List Text × Option Text) :=
  if layer.folders ≠ [] then some (layer.folders, none)
  else layer.workspaceFile.map fun file => ([], some file)

section Step

variable (settings later : Settings)

theorem included_overriddenBy : (settings.overriddenBy later).included = later.included.or settings.included := rfl

theorem excluded_overriddenBy : (settings.overriddenBy later).excluded = later.excluded.or settings.excluded := rfl

theorem threads_overriddenBy : (settings.overriddenBy later).threads = later.threads.or settings.threads := rfl

theorem logLevel_overriddenBy : (settings.overriddenBy later).logLevel = later.logLevel.or settings.logLevel := rfl

theorem hidden_overriddenBy : (settings.overriddenBy later).hidden = (settings.hidden || later.hidden) := rfl

theorem ignoreFiles_overriddenBy :
    (settings.overriddenBy later).ignoreFiles = (settings.ignoreFiles && later.ignoreFiles) := rfl

/-- A layer that names a place decides both of its parts. -/
theorem origin_overriddenBy : (settings.overriddenBy later).origin = later.origin?.getD settings.origin := by
  by_cases listed : later.folders ≠ []
  · simp [overriddenBy, origin, origin?, listed]
  · cases file : later.workspaceFile <;> simp [overriddenBy, origin, origin?, listed, file]

/-- Layered settings name a place if one of the layers does. -/
theorem origin?_overriddenBy : (settings.overriddenBy later).origin? = later.origin?.or settings.origin? := by
  by_cases listed : later.folders ≠ []
  · simp [overriddenBy, origin?, listed]
  · cases file : later.workspaceFile <;> simp [overriddenBy, origin?, listed, file]

end Step

/-- Settings are equal if their folders come from one place and their options are equal. -/
theorem eq_of_origin {one two : Settings} (place : one.origin = two.origin) (included : one.included = two.included)
    (excluded : one.excluded = two.excluded) (hidden : one.hidden = two.hidden)
    (ignoreFiles : one.ignoreFiles = two.ignoreFiles) (threads : one.threads = two.threads)
    (logLevel : one.logLevel = two.logLevel) : one = two := by
  obtain ⟨folders, file⟩ := Prod.ext_iff.mp place
  exact Settings.ext folders file included excluded hidden ignoreFiles threads logLevel

/-- Layers may be layered over each other first. -/
theorem overriddenBy_assoc (first second third : Settings) :
    (first.overriddenBy second).overriddenBy third = first.overriddenBy (second.overriddenBy third) := by
  apply eq_of_origin
  · -- Both sides are decided by the last of the three that names a place.
    rw [origin_overriddenBy, origin_overriddenBy, origin_overriddenBy, origin?_overriddenBy]
    cases third.origin? <;> rfl
  · exact (Option.or_assoc).symm
  · exact (Option.or_assoc).symm
  · exact Bool.or_assoc _ _ _
  · exact Bool.and_assoc _ _ _
  · exact (Option.or_assoc).symm
  · exact (Option.or_assoc).symm

/-- Settings that say nothing change nothing. -/
theorem overriddenBy_default (settings : Settings) : settings.overriddenBy {} = settings := by
  apply eq_of_origin
  · exact origin_overriddenBy settings {}
  · rfl
  · rfl
  · exact Bool.or_false _
  · exact Bool.and_true _
  · rfl
  · rfl

section Run

variable {α : Type} {said : Settings → Option α} (start : Settings) (layers : List Settings)

theorem last?_append_singleton (layer : Settings) :
    last? said (layers ++ [layer]) = (said layer).or (last? said layers) := by
  rw [last?, List.reverse_append, List.reverse_singleton, List.singleton_append, List.findSome?_cons]
  cases said layer <;> rfl

/-- Where one step takes what a layer says and else keeps what was read, a run takes what the last layer says. -/
theorem read_foldl_overriddenBy {read : Settings → α}
    (step : ∀ settings later, read (settings.overriddenBy later) = (said later).getD (read settings)) :
    read (layers.foldl overriddenBy start) = (last? said layers).getD (read start) := by
  -- The layers are taken from the end, because the last one counts first.
  induction layers using List.reverseRecOn with
  | nil => rfl
  | append_singleton layers layer ih =>
    rw [List.foldl_append, List.foldl_cons, List.foldl_nil, step, ih, last?_append_singleton]
    cases said layer <;> rfl

/-- An option that layers set has in the end the value of the last setter, the start being the first of them. -/
theorem option_foldl_overriddenBy {option : Settings → Option α}
    (step : ∀ settings later, option (settings.overriddenBy later) = (option later).or (option settings)) :
    option (layers.foldl overriddenBy start) = last? option (start :: layers) := by
  induction layers using List.reverseRecOn with
  | nil => exact (List.findSome?_singleton).symm
  | append_singleton layers layer ih =>
    rw [List.foldl_append, List.foldl_cons, List.foldl_nil, step, ih, ← List.cons_append, last?_append_singleton]

theorem hidden_foldl_overriddenBy :
    (layers.foldl overriddenBy start).hidden = true ↔ ∃ layer ∈ start :: layers, layer.hidden = true := by
  induction layers generalizing start with
  | nil => simp
  | cons layer layers ih =>
    rw [List.foldl_cons, ih]
    simp only [hidden_overriddenBy, List.mem_cons, exists_eq_or_imp, Bool.or_eq_true, or_assoc]

theorem ignoreFiles_foldl_overriddenBy :
    (layers.foldl overriddenBy start).ignoreFiles = false
      ↔ ∃ layer ∈ start :: layers, layer.ignoreFiles = false := by
  induction layers generalizing start with
  | nil => simp
  | cons layer layers ih =>
    rw [List.foldl_cons, ih]
    simp only [ignoreFiles_overriddenBy, List.mem_cons, exists_eq_or_imp, Bool.and_eq_false_iff, or_assoc]

end Run

/-- Layers of settings fold by the last setter. Layering is associative, and settings that say nothing can be left
out at the end. Over any number of layers, an option has the value of the last layer that sets it, or else of the
start. Hidden names are walked exactly if the start or some layer asks for it, and ignore files count unless the
start or some layer switches them off. The folders and the workspace file are those of the last layer that names
either: its folders without a workspace file, or else its workspace file without folders. If no layer names either,
both stay as they were. -/
theorem overriddenBy_folds_by_last_setter :
    (∀ first second third : Settings,
        (first.overriddenBy second).overriddenBy third = first.overriddenBy (second.overriddenBy third))
      ∧ (∀ settings : Settings, settings.overriddenBy {} = settings)
      ∧ ∀ (start : Settings) (layers : List Settings), let merged := layers.foldl overriddenBy start
        merged.included = last? included (start :: layers) ∧ merged.excluded = last? excluded (start :: layers)
          ∧ merged.threads = last? threads (start :: layers) ∧ merged.logLevel = last? logLevel (start :: layers)
          ∧ (merged.hidden = true ↔ ∃ layer ∈ start :: layers, layer.hidden = true)
          ∧ (merged.ignoreFiles = false ↔ ∃ layer ∈ start :: layers, layer.ignoreFiles = false)
          ∧ (merged.folders, merged.workspaceFile)
            = (last? origin? layers).getD (start.folders, start.workspaceFile) := by
  refine ⟨overriddenBy_assoc, overriddenBy_default, fun start layers => ?_⟩
  refine ⟨?_, ?_, ?_, ?_, hidden_foldl_overriddenBy start layers, ignoreFiles_foldl_overriddenBy start layers, ?_⟩
  · exact option_foldl_overriddenBy start layers included_overriddenBy
  · exact option_foldl_overriddenBy start layers excluded_overriddenBy
  · exact option_foldl_overriddenBy start layers threads_overriddenBy
  · exact option_foldl_overriddenBy start layers logLevel_overriddenBy
  · exact read_foldl_overriddenBy start layers origin_overriddenBy

/-- A layer that only names a workspace file takes the folders away, and a layer that names nothing leaves it so. -/
example : ((({ folders := ["/a".toList] } : Settings).overriddenBy { workspaceFile := some "w".toList }).overriddenBy
    { hidden := true }).origin = ([], some "w".toList) := by decide

end RootedGlob.Settings
