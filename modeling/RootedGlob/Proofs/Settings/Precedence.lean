import RootedGlob.CommandLine
import RootedGlob.Proofs.Settings.Layering
import RootedGlob.Proofs.Settings.Overlay
import RootedGlob.Proofs.Workspace.Loading

/-!
# Where the folders of a run come from

The folders of a run are decided by the place that its settings name (`chooseFolders_eq`). The options of a command
name a place as a whole, but files are layered member by member, so the folders of one file can meet the workspace
file of another one (`folders_said_append`, `workspaceFile_said_append`). The last file that names a place gets its
way exactly if nothing in later files takes it back and no folders stand before its workspace file
(`origin?_said_iff`).
-/

namespace RootedGlob

namespace Settings

def foldersName : Text := "folders".toList

def workspaceFileName : Text := "workspace_file".toList

/-- What the members of files say about the place where the folders come from. What cannot be read says nothing. -/
def said (members : Table) : Settings where
  folders := (Reading.folders? (members.given? foldersName)).getD []
  workspaceFile := (Reading.optional? Reading.text? (members.given? workspaceFileName)).getD none

/-- The last of some files that name a place gets its way. If it names folders, no later file lists folders, not
even none. If it names a workspace file, no later file gives one, not even null, and the folders that are listed last
are none. -/
def LastPrevails (files : List Table) : Prop :=
  ∀ earlier file later, files = earlier ++ file :: later → (said file).origin? ≠ none →
    (∀ other ∈ later, (said other).origin? = none) →
    if (said file).folders ≠ [] then ∀ other ∈ later, other.given? foldersName = none
    else (∀ other ∈ later, other.given? workspaceFileName = none) ∧ (said files.flatten).folders = []

theorem origin?_eq_none_iff {layer : Settings} :
    layer.origin? = none ↔ layer.folders = [] ∧ layer.workspaceFile = none := by
  rw [origin?]
  split <;> simp_all

theorem origin?_eq_folders_iff {layer : Settings} {folders : List Text} (filled : folders ≠ []) :
    layer.origin? = some (folders, none) ↔ layer.folders = folders := by
  rw [origin?]
  split
  · simp
  · next empty =>
    have differs : layer.folders ≠ folders := fun same => empty (same ▸ filled)
    simp [differs]

theorem origin?_eq_file_iff {layer : Settings} {path : Text} :
    layer.origin? = some ([], some path) ↔ layer.folders = [] ∧ layer.workspaceFile = some path := by
  rw [origin?]
  split <;> simp_all

theorem origin?_congr {one two : Settings} (same : one.origin = two.origin) : one.origin? = two.origin? := by
  obtain ⟨folders, file⟩ := Prod.ext_iff.mp same
  simp only [origin] at folders file
  rw [origin?, origin?, folders, file]

section Said

variable {earlier later : List Table} {file : Table}

/-- Folders count from the last members that list any, or that list none. -/
theorem folders_said_append (members more : Table) : (said (members ++ more)).folders
    = if more.given? foldersName = none then (said members).folders else (said more).folders := by
  simp only [said, Table.given?_append]
  cases more.given? foldersName <;> rfl

/-- A workspace file counts from the last members that give one, or null. -/
theorem workspaceFile_said_append (members more : Table) : (said (members ++ more)).workspaceFile
    = if more.given? workspaceFileName = none then (said members).workspaceFile
      else (said more).workspaceFile := by
  simp only [said, Table.given?_append]
  cases more.given? workspaceFileName <;> rfl

/-- Files that each name no place name none together. -/
theorem origin?_said_of_silent (silent : ∀ other ∈ later, (said other).origin? = none) :
    (said later.flatten).origin? = none := by
  induction later with
  | nil => rfl
  | cons first later ih =>
    rw [List.forall_mem_cons] at silent
    obtain ⟨one, rest⟩ := silent
    -- Each of the two parts comes from the first file or from the others.
    have others := ih rest
    rw [origin?_eq_none_iff] at one others ⊢
    rw [List.flatten_cons, folders_said_append, workspaceFile_said_append]
    constructor
    · split
      · exact one.1
      · exact others.1
    · split
      · exact one.2
      · exact others.2

theorem last?_said_of_silent (silent : ∀ other ∈ later, (said other).origin? = none) :
    last? origin? (later.map said) = none := by
  apply List.findSome?_eq_none_iff.mpr
  intro layer member
  obtain ⟨other, there, rfl⟩ := List.mem_map.mp (List.mem_reverse.mp member)
  exact silent other there

/-- The last file that names a place is the one behind which no file names any. -/
theorem last?_said_append (names : (said file).origin? ≠ none)
    (silent : ∀ other ∈ later, (said other).origin? = none) :
    last? origin? ((earlier ++ file :: later).map said) = (said file).origin? := by
  have behind := last?_said_of_silent silent
  rw [last?] at behind ⊢
  rw [List.map_append, List.reverse_append, List.map_cons, List.reverse_cons, List.append_assoc,
    List.findSome?_append, behind, Option.none_or, List.singleton_append, List.findSome?_cons]
  cases place : (said file).origin? with
  | none => exact absurd place names
  | some place => rfl

/-- Some file is the last one that names a place, unless none does. -/
theorem silent_or_exists_last (files : List Table) : (∀ file ∈ files, (said file).origin? = none)
    ∨ ∃ earlier file later, files = earlier ++ file :: later ∧ (said file).origin? ≠ none
      ∧ ∀ other ∈ later, (said other).origin? = none := by
  induction files with
  | nil => exact .inl fun _ member => absurd member List.not_mem_nil
  | cons first files ih =>
    rcases ih with silent | ⟨earlier, file, later, rfl, names, silent⟩
    · by_cases names : (said first).origin? = none
      · exact .inl (List.forall_mem_cons.mpr ⟨names, silent⟩)
      · exact .inr ⟨[], first, files, rfl, names, silent⟩
    · exact .inr ⟨first :: earlier, file, later, rfl, names, silent⟩

/-- What becomes of the last file that names a place. -/
theorem origin?_said_eq_iff (names : (said file).origin? ≠ none)
    (silent : ∀ other ∈ later, (said other).origin? = none) :
    let together := said (earlier ++ file :: later).flatten
    together.origin? = (said file).origin? ↔
      if (said file).folders ≠ [] then ∀ other ∈ later, other.given? foldersName = none
      else (∀ other ∈ later, other.given? workspaceFileName = none) ∧ together.folders = [] := by
  intro together
  -- What later files take back is gone, because they name nothing themselves.
  obtain ⟨blank, absent⟩ := origin?_eq_none_iff.mp (origin?_said_of_silent silent)
  have whole : (earlier ++ file :: later).flatten = earlier.flatten ++ file ++ later.flatten := by
    rw [List.flatten_append, List.flatten_cons, List.append_assoc]
  have folders : together.folders
      = if Table.given? foldersName later.flatten = none then (said (earlier.flatten ++ file)).folders else [] := by
    rw [← blank, ← folders_said_append, ← whole]
  have workspaceFile : together.workspaceFile
      = if Table.given? workspaceFileName later.flatten = none then (said (earlier.flatten ++ file)).workspaceFile
        else none := by
    rw [← absent, ← workspaceFile_said_append, ← whole]
  by_cases listed : (said file).folders ≠ []
  · -- The file lists its folders itself, so what stands before it does not matter.
    have given : file.given? foldersName ≠ none := by
      intro missing
      apply listed
      rw [said, missing]
      rfl
    have place : (said file).origin? = some ((said file).folders, none) := (origin?_eq_folders_iff listed).mpr rfl
    rw [folders_said_append, if_neg given] at folders
    rw [place, if_pos listed, origin?_eq_folders_iff listed, folders, ← Table.given?_flatten_eq_none_iff]
    split
    · next quiet => exact iff_of_true rfl quiet
    · next taken => exact iff_of_false listed.symm taken
  · -- The file gives its workspace file itself, but folders that stand before it count more.
    have empty : (said file).folders = [] := not_not.mp listed
    obtain ⟨path, named⟩ : ∃ path, (said file).workspaceFile = some path := by
      apply Option.ne_none_iff_exists'.mp
      exact fun missing => names (origin?_eq_none_iff.mpr ⟨empty, missing⟩)
    have given : file.given? workspaceFileName ≠ none := by
      intro missing
      rw [said, missing] at named
      cases named
    have place : (said file).origin? = some ([], some path) := origin?_eq_file_iff.mpr ⟨empty, named⟩
    rw [workspaceFile_said_append, if_neg given, named] at workspaceFile
    rw [place, if_neg listed, origin?_eq_file_iff, workspaceFile, ← Table.given?_flatten_eq_none_iff, and_comm]
    refine and_congr_left fun _ => ?_
    split
    · next quiet => exact iff_of_true rfl quiet
    · next taken => exact iff_of_false (Option.some_ne_none path).symm taken

/-- Together, files name the place that the last of them names if and only if that one gets its way. -/
theorem origin?_said_iff (files : List Table) :
    (said files.flatten).origin? = last? origin? (files.map said) ↔ LastPrevails files := by
  constructor
  · rintro same earlier file later rfl names silent
    rw [last?_said_append names silent] at same
    exact (origin?_said_eq_iff names silent).mp same
  · intro prevails
    rcases silent_or_exists_last files with silent | ⟨earlier, file, later, rfl, names, silent⟩
    · rw [origin?_said_of_silent silent, last?_said_of_silent silent]
    · rw [last?_said_append names silent]
      exact (origin?_said_eq_iff names silent).mpr (prevails earlier file later rfl names silent)

end Said

section Loading

variable {settings : Settings}

theorem reads_of_ofTable? {table : Table} (read : ofTable? table = some settings) :
    Reading.folders? (table.lookup foldersName) = some settings.folders
      ∧ Reading.optional? Reading.text? (table.lookup workspaceFileName) = some settings.workspaceFile := by
  simp only [ofTable?, Option.pure_def, Option.bind_eq_bind, Option.bind_eq_some_iff, Option.some.injEq] at read
  obtain ⟨folders, listed, file, named, _, -, _, -, _, -, _, -, _, -, _, -, rfl⟩ := read
  exact ⟨listed, named⟩

/-- Files that are read together name what their members name, each of the two parts for itself. -/
theorem origin_ofTables {files : List Table} (read : ofTables files = .ok settings) :
    settings.origin = (said files.flatten).origin := by
  rw [ofTables] at read
  split at read
  · next found =>
    cases read
    obtain ⟨listed, named⟩ := reads_of_ofTable? found
    -- A table under one of the two names could not be read.
    have folders := Table.reads_given (fun _ => rfl) files listed
    have workspaceFile := Table.reads_given (fun _ => rfl) files named
    rw [origin, origin, said, folders, workspaceFile]
    rfl
  · cases read

/-- A configuration file that is there is read in the format of its extension. -/
theorem readFile_of_find {disk : Disk} {name : Text} {text : String} {format : Format} {table : Table}
    (found : disk.find (Path.under disk.currentPath name) = .ok (.file text.toUTF8))
    (known : formatOf? (Path.under disk.currentPath name) = some format)
    (parsed : parse? format text.toList = some table) : readFile disk name = .ok table := by
  have regular : disk.isFile (Path.under disk.currentPath name) := by
    rw [Disk.isFile, found]
    rfl
  have readable := Workspace.readText_of_find found
  have there : findFile disk name = .ok (Path.under disk.currentPath name, format) := by
    simp only [findFile, regular, if_true, known]
  simp only [readFile, there, bind, Except.bind, readable, Except.mapError, parsed]

end Loading

end Settings

namespace CommandLine

open Settings

/-- The folders at a place. Without a place they are looked for. -/
def foldersAt (disk : Disk) : Option (List Text × Option Text) → Except Failure Folders
  | some (folders, none) => (Folders.ofPaths folders).mapError .folder
  | some (_, some file) => (Workspace.load disk file).mapError (.workspaceFile file)
  | none => chooseFolders disk {}

/-- The place that the settings name decides which folders a run works on. -/
theorem chooseFolders_eq (disk : Disk) (settings : Settings) :
    chooseFolders disk settings = foldersAt disk settings.origin? := by
  by_cases listed : settings.folders ≠ []
  · rw [chooseFolders, if_pos listed, origin?, if_pos listed]
    rfl
  · rw [chooseFolders, if_neg listed, origin?, if_neg listed]
    cases settings.workspaceFile <;> rfl

/-- The folders of a run come from the last layer that names a place for them, files and options taken alike. -/
def FollowsLastLayer (env : Environment) (arguments : Arguments) : Prop :=
  ∀ files settings, (sources env arguments.config).mapM (readFile env.disk) = .ok files →
    settingsOf env arguments = .ok settings →
    settings.origin? = last? origin? (files.map said ++ [arguments.command.settings])

/-- The settings of a run are those of the files, with the options of the command over them. -/
theorem exists_files_of_settingsOf {env : Environment} {arguments : Arguments} {settings : Settings}
    (loaded : settingsOf env arguments = .ok settings) :
    ∃ files merged, (sources env arguments.config).mapM (readFile env.disk) = .ok files
      ∧ ofTables files = .ok merged ∧ settings = merged.overriddenBy arguments.command.settings := by
  rw [settingsOf, load] at loaded
  cases read : (sources env arguments.config).mapM (readFile env.disk) with
  | error => simp [read, bind, Except.bind, Except.mapError, Except.map] at loaded
  | ok files =>
    cases together : ofTables files with
    | error => simp [read, together, bind, Except.bind, Except.mapError, Except.map] at loaded
    | ok merged =>
      simp only [read, together, bind, Except.bind, Except.mapError, Except.map, Except.ok.injEq] at loaded
      exact ⟨files, merged, rfl, together, loaded.symm⟩

/-- Over the files, the options of the command come first. Below them counts what the members of all files name. -/
theorem origin?_of_layers {files : List Table} {merged : Settings} (read : ofTables files = .ok merged)
    (options : Settings) :
    (merged.overriddenBy options).origin? = options.origin?.or (said files.flatten).origin? := by
  rw [origin?_overriddenBy, origin?_congr (origin_ofTables read)]

/-- Whenever the settings of a run can be loaded, its folders are those of one place: the one that the options of the
command name, or else the one that the members of all configuration files name. This is what the last layer names if
and only if the options name a place, or the last file that names one gets its way. -/
theorem followsLastLayer_iff {env : Environment} {arguments : Arguments} {settings : Settings}
    (loaded : settingsOf env arguments = .ok settings) :
    ∃ files, (sources env arguments.config).mapM (readFile env.disk) = .ok files
      ∧ chooseFolders env.disk settings = foldersAt env.disk settings.origin?
      ∧ settings.origin? = arguments.command.settings.origin?.or (said files.flatten).origin?
      ∧ (FollowsLastLayer env arguments
        ↔ arguments.command.settings.origin? ≠ none ∨ LastPrevails files) := by
  obtain ⟨files, merged, found, read, rfl⟩ := exists_files_of_settingsOf loaded
  have place := origin?_of_layers read arguments.command.settings
  refine ⟨files, found, chooseFolders_eq env.disk _, place, ?_⟩
  have follows : FollowsLastLayer env arguments ↔ arguments.command.settings.origin?.or (said files.flatten).origin?
      = arguments.command.settings.origin?.or (last? origin? (files.map said)) := by
    constructor
    · intro every
      rw [← place, every files _ found loaded, last?_append_singleton]
    · intro same files' settings found' loaded'
      obtain rfl : files = files' := Except.ok.inj (found.symm.trans found')
      obtain rfl : merged.overriddenBy arguments.command.settings = settings :=
        Except.ok.inj (loaded.symm.trans loaded')
      rw [place, same, last?_append_singleton]
  -- Where the options name a place the files do not matter, and elsewhere the options do not.
  rw [follows, ← origin?_said_iff]
  cases arguments.command.settings.origin? with
  | none => simp
  | some place => simp

section Files

/-- An environment with a global and a local configuration file. -/
def withFiles (globalText localText : String) : Environment where
  disk :=
    { root := .directory [
        ("home".toList, .directory [
          (".config".toList, .directory [
            ("wsglob".toList, .directory [("config.yaml".toList, .file globalText.toUTF8)])])]),
        ("work".toList, .directory [(".wsglob.yaml".toList, .file localText.toUTF8)])]
      current := ["work".toList] }
  home := some "/home".toList

/-- Both files are read, the global one first. -/
theorem mapM_readFile_withFiles {globalText localText : String} {first second : Table}
    (one : parse? .yaml globalText.toList = some first) (two : parse? .yaml localText.toList = some second) :
    (sources (withFiles globalText localText) none).mapM (readFile (withFiles globalText localText).disk)
      = .ok [first, second] := by
  let env := withFiles globalText localText
  let globalPath := "/home/.config/wsglob/config.yaml".toList
  -- The local file is looked for by its name alone, and read by its path.
  have above : env.disk.find globalPath = .ok (.file globalText.toUTF8) := by
    have names : globalPath
        = Path.spelled ["home".toList, ".config".toList, "wsglob".toList, "config.yaml".toList] := by decide
    rw [names]
    exact Disk.find_of_at? rfl (by decide) rfl (by simp) (by decide) (by decide) (by decide)
  have here : env.disk.find "/work/.wsglob.yaml".toList = .ok (.file localText.toUTF8) := by
    have names : "/work/.wsglob.yaml".toList = Path.spelled ["work".toList, ".wsglob.yaml".toList] := by decide
    rw [names]
    exact Disk.find_of_at? rfl (by decide) rfl (by simp) (by decide) (by decide) (by decide)
  have beside : env.disk.find localFile = .ok (.file localText.toUTF8) := by
    refine Disk.find_eq_ok_iff.mpr ⟨["work".toList, ".wsglob.yaml".toList], ?_, rfl⟩
    have segments : Path.segments localFile = [".wsglob.yaml".toList] := by decide +kernel
    rw [Disk.locate, if_neg (by decide), if_neg (by decide), if_neg (by decide +kernel), segments]
    exact (Disk.walk_eq_ok_iff (by decide +kernel) rfl rfl (by simp)).mpr ⟨rfl, by decide +kernel⟩
  have both : sources env none = [globalPath, localFile] := by
    have there : env.disk.exists? globalPath ∧ env.disk.exists? localFile := by
      rw [Disk.exists?, Disk.exists?, above, beside]
      exact ⟨rfl, rfl⟩
    have known : env.configDirectory?.map (fun directory => Path.under directory globalFile) = some globalPath := rfl
    simp [sources, known, there]
  rw [both, mapM_eq_ok_iff]
  have kinds : formatOf? globalPath = some .yaml ∧ formatOf? "/work/.wsglob.yaml".toList = some .yaml := by
    decide +kernel
  exact .cons (readFile_of_find above kinds.1 one) (.cons (readFile_of_find here kinds.2 two) .nil)

/-- What a run over both files loads can be computed from their texts. -/
theorem exists_tables_of_withFiles {globalText localText : String} {one two merged : Settings}
    (computed : ((parse? .yaml globalText.toList).bind fun first => (parse? .yaml localText.toList).bind fun second =>
      (ofTable? ([first, second].foldl Table.overlay [])).map fun merged => (said first, said second, merged))
        = some (one, two, merged)) :
    ∃ first second, said first = one ∧ said second = two ∧ ofTables [first, second] = .ok merged
      ∧ (sources (withFiles globalText localText) none).mapM (readFile (withFiles globalText localText).disk)
        = .ok [first, second]
      ∧ ∀ command,
        settingsOf (withFiles globalText localText) { command } = .ok (merged.overriddenBy command.settings) := by
  obtain ⟨first, parsed, computed⟩ := Option.bind_eq_some_iff.mp computed
  obtain ⟨second, parsed', computed⟩ := Option.bind_eq_some_iff.mp computed
  obtain ⟨all, read, same⟩ := Option.map_eq_some_iff.mp computed
  obtain ⟨rfl, rfl, rfl⟩ : said first = one ∧ said second = two ∧ all = merged := by simpa using same
  have files := mapM_readFile_withFiles parsed parsed'
  have together : ofTables [first, second] = .ok all := by rw [ofTables, read]
  refine ⟨first, second, rfl, rfl, together, files, fun command => ?_⟩
  simp only [settingsOf, load, files, bind, Except.bind, together, Except.mapError, Except.map]

/-- Folders of a later file replace the workspace file of an earlier one. -/
theorem followsLastLayer_iff_folders :
    let env := withFiles "workspace_file: w.code-workspace\n" "folders: [\"/b\"]\n"
    let arguments : Arguments := { command := .convert "x".toList {} }
    FollowsLastLayer env arguments ∧ ∃ settings, settingsOf env arguments = .ok settings
      ∧ settings.workspaceFile = some "w.code-workspace".toList
      ∧ chooseFolders env.disk settings = .ok ⟨["/b".toList]⟩ := by
  intro env arguments
  obtain ⟨first, second, one, two, read, found, loaded⟩ := @exists_tables_of_withFiles
    "workspace_file: w.code-workspace\n" "folders: [\"/b\"]\n"
    { workspaceFile := some "w.code-workspace".toList } { folders := ["/b".toList] }
    { folders := ["/b".toList], workspaceFile := some "w.code-workspace".toList } (by decide +kernel)
  obtain ⟨files, found', -, -, follows⟩ := followsLastLayer_iff (loaded arguments.command)
  obtain rfl : [first, second] = files := Except.ok.inj (found.symm.trans found')
  have prevails : LastPrevails [first, second] := by
    apply (origin?_said_iff _).mp
    rw [← origin?_congr (origin_ofTables read), List.map_cons, List.map_cons, List.map_nil, one, two]
    decide
  exact ⟨follows.mpr (.inr prevails), _, loaded arguments.command, rfl, by decide⟩

/-- Folders of an earlier file are not replaced by the workspace file of a later one. -/
theorem not_followsLastLayer_workspaceFile :
    let env := withFiles "folders: [\"/a\"]\n" "workspace_file: w.code-workspace\n"
    ¬ FollowsLastLayer env { command := .convert "x".toList {} } := by
  intro env follows
  obtain ⟨first, second, one, two, -, found, loaded⟩ := @exists_tables_of_withFiles
    "folders: [\"/a\"]\n" "workspace_file: w.code-workspace\n"
    { folders := ["/a".toList] } { workspaceFile := some "w.code-workspace".toList }
    { folders := ["/a".toList], workspaceFile := some "w.code-workspace".toList } (by decide +kernel)
  have same := follows _ _ found (loaded (.convert "x".toList {}))
  rw [List.map_cons, List.map_cons, List.map_nil, one, two] at same
  exact absurd same (by decide)

end Files

end CommandLine

end RootedGlob
