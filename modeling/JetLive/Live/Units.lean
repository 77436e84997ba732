import JetLive.Live.State

/-!
# The compilation units

The units come from `compile_commands.json`. When the file changes, it is read
again, and the difference to the units known so far decides what is compiled and
removed: a unit counts as modified if its command is another string.

A unit keeps the depfile that was found for it, also over a new reading of the
file. Nothing else of a unit changes on the way, so the rest of the development
looks at units without their depfiles (`unitsOf`).
-/

namespace JetLive

open Containers TeenyPath

/-- A project of Xcode has no `compile_commands.json` until one is generated. -/
def LiveConfig.isXcodeProject (config : LiveConfig) : Bool := config.cmakeGenerator = "Xcode"

/-- Start the generation of `compile_commands.json`: the path of the project file, which
is kept if there is no project, and the log entries. -/
def createCompileCommandsJsonFromXcodeProject (config : LiveConfig) (out : Outside) (wait : Bool)
    (pbxProjPath : String) : String × List LogEntry :=
  let xcodeProjectPath := (out.ls config.cmakeBuildDirectory).find? fun el =>
    "xcodeproj".toList.isSuffixOf el.toList
  match xcodeProjectPath.filter fun el => pathExists out.fs el.toList with
  | none =>
      (pbxProjPath,
       [.log .kError ("Cannot find Xcode project in " ++ config.cmakeBuildDirectory)])
  | some el =>
      (String.ofList (append el.toList "project.pbxproj".toList),
       [.log .kDebug ("Found Xcode project: " ++ el),
        .log .kDebug ("Generating compile_commands.json for Xcode project"
          ++ if wait then "" else " async")] ++
       if wait then
         if out.xcodebuildStatus ≠ 0 then [.log .kError "Cannot create compile_commands.json"]
         else [.log .kDebug "compile_commands.json created"]
       else [])

/-- The unit of one entry, unless the entry is skipped. -/
def parseEntry (out : Outside) (cmd : CompileCommand) :
    Option CompilationUnit × List LogEntry :=
  if ¬ pathExists out.fs cmd.directory.toList then
    (none, [.log .kWarning ("Path doesn't exist: " ++ cmd.directory)])
  else
    let dirPath := resolveAbsolute out.fs cmd.directory.toList
    let sourceFilePath :=
      if isAbsolute cmd.file.toList then cmd.file.toList else append dirPath cmd.file.toList
    let resolved := resolveAbsolute out.fs sourceFilePath
    if ¬ pathExists out.fs resolved then
      (none, [.log .kWarning ("Source file doesn't exist: " ++ String.ofList sourceFilePath)])
    else match out.parseCommand cmd.command with
      | none => (none, [])
      | some parser =>
          if parser.output = "" then
            (none, [.log .kWarning ("Cannot find object file path, skipping: "
              ++ String.ofList resolved)])
          else
            let objFilePath :=
              if isAbsolute parser.output.toList then parser.output.toList
              else append dirPath parser.output.toList
            let cu : CompilationUnit :=
              { compilerPath := parser.compilerPath
                compilationCommandStr := cmd.command
                compilationDirStr := String.ofList dirPath
                sourceFilePath := String.ofList resolved
                objFilePath := String.ofList objFilePath
                depFilePath := parser.depFile
                hasColorDiagnosticsFlag := parser.hasColorDiagnosticsFlag }
            (if out.filterCompilationUnit cu then some cu else none, [])

/-- The units of the entries, stored under their source paths; a later entry replaces an
earlier one. -/
def collectUnits (units : List CompilationUnit) : UnorderedMap String CompilationUnit :=
  units.foldl (fun res cu => res.insert cu.sourceFilePath cu) ∅

/-- Read the file with the units; `none` is an exception. -/
def parseCompilationUnitsInternal (out : Outside) (filepath : String) :
    Option (UnorderedMap String CompilationUnit) × List LogEntry :=
  let reading := LogEntry.log .kDebug ("Reading `compile_commands.json` from " ++ filepath)
  match out.database filepath with
  | .unreadable =>
      (some ∅, [reading, .log .kError ("Cannot open 'compile_commands.json' at " ++ filepath)])
  | .malformed => (none, [reading])
  | .entries commands =>
      let parsed := commands.map (parseEntry out)
      (some (collectUnits (parsed.filterMap fun entry => entry.1)),
       reading :: parsed.flatMap fun entry => entry.2)

structure UnitChanges where
  added : List String := []
  modified : List String := []
  removed : List String := []

def UnitChanges.changed (changes : UnitChanges) : Bool :=
  !changes.added.isEmpty || !changes.modified.isEmpty || !changes.removed.isEmpty

theorem UnitChanges.changed_iff (changes : UnitChanges) : changes.changed = true ↔
    changes.added ≠ [] ∨ changes.modified ≠ [] ∨ changes.removed ≠ [] := by
  simp [UnitChanges.changed, or_assoc]

theorem UnitChanges.changed_eq_false_iff (changes : UnitChanges) : changes.changed = false ↔
    changes.added = [] ∧ changes.modified = [] ∧ changes.removed = [] := by
  simp [UnitChanges.changed, and_assoc]

def diffUnits (out : Outside) (old new : UnorderedMap String CompilationUnit) : UnitChanges where
  removed := (out.unitOrder.toList old.keys).filter fun p => (new.lookup p).isNone
  modified := (out.unitOrder.toList old.keys).filter fun p =>
    (new.lookup p).any fun cu =>
      (old.lookup p).any fun oldCu => oldCu.compilationCommandStr ≠ cu.compilationCommandStr
  added := (out.newUnitOrder.toList new.keys).filter fun p => (old.lookup p).isNone

/-- One turn of the loop that keeps the depfiles found for the old units. -/
def carryDepfile (old res : UnorderedMap String CompilationUnit) (p : String) :
    UnorderedMap String CompilationUnit :=
  match res.lookup p, old.lookup p with
  | some cu, some oldCu =>
      if oldCu.depFilePath = "" then res
      else res.insert p { cu with depFilePath := oldCu.depFilePath }
  | _, _ => res

def carryDepfiles (out : Outside) (old new : UnorderedMap String CompilationUnit) :
    UnorderedMap String CompilationUnit :=
  (out.newUnitOrder.toList new.keys).foldl (carryDepfile old) new

def UnitChanges.summary (changes : UnitChanges) : String :=
  "ADDED: " ++ toString changes.added.length ++ ", MODIFIED: "
    ++ toString changes.modified.length ++ ", REMOVED: " ++ toString changes.removed.length

/-- The file that the units come from has changed: the new state and what has changed in
it; `none` is an exception. Any other file leaves the units alone, but the project file
of Xcode starts the generation of a new `compile_commands.json`. -/
def updateCompilationUnits (config : LiveConfig) (filepath : String) (w : LiveWorld) :
    Option (LiveWorld × UnitChanges) × List LogEntry :=
  let out := w.outside
  let path := resolveAbsolute out.fs filepath.toList
  if ¬ pathExists out.fs filepath.toList then (some (w, {}), [])
  else if config.isXcodeProject ∧ samePath w.pbxProjPath.toList path then
    let created := createCompileCommandsJsonFromXcodeProject config out false w.pbxProjPath
    (some ({ w with pbxProjPath := created.1 }, {}), created.2)
  else if ¬ samePath w.compileCommandsPath.toList path then (some (w, {}), [])
  else
    let updating := LogEntry.log .kInfo "Updating compilation units..."
    let old := w.context.compilationUnits
    match parseCompilationUnitsInternal out w.compileCommandsPath with
    | (none, logs) => (none, updating :: logs)
    | (some new, logs) =>
        let changes := diffUnits out old new
        (some ({ w with
                 context := { w.context with compilationUnits := carryDepfiles out old new }
                 readings := w.readings + 1 },
               changes),
         updating :: logs ++ [.log .kInfo changes.summary])

/-! ## Units without their depfiles -/

def CompilationUnit.withoutDepfile (cu : CompilationUnit) : CompilationUnit :=
  { cu with depFilePath := "" }

def unitsOf (units : UnorderedMap String CompilationUnit) (p : String) : Option CompilationUnit :=
  (units.lookup p).map CompilationUnit.withoutDepfile

theorem unitsOf_insert_of_lookup {units : UnorderedMap String CompilationUnit} {p : String}
    {cu cu' : CompilationUnit} (hcu : units.lookup p = some cu)
    (heq : cu'.withoutDepfile = cu.withoutDepfile) :
    unitsOf (units.insert p cu') = unitsOf units := by
  funext q
  by_cases hq : q = p
  · subst hq
    simp [unitsOf, hcu, heq]
  · simp [unitsOf, Finmap.lookup_insert_of_ne _ hq]

theorem unitsOf_carryDepfile (old res : UnorderedMap String CompilationUnit) (p : String) :
    unitsOf (carryDepfile old res p) = unitsOf res := by
  unfold carryDepfile
  split
  · rename_i cu oldCu hcu hold
    split
    · rfl
    · exact unitsOf_insert_of_lookup hcu rfl
  · rfl

theorem unitsOf_carryDepfiles (out : Outside) (old new : UnorderedMap String CompilationUnit) :
    unitsOf (carryDepfiles out old new) = unitsOf new := by
  have key : ∀ (l : List String) (res : UnorderedMap String CompilationUnit),
      unitsOf (l.foldl (carryDepfile old) res) = unitsOf res := by
    intro l
    induction l with
    | nil => exact fun _ => rfl
    | cons p l ih => exact fun res => (ih _).trans (unitsOf_carryDepfile old res p)
  exact key _ new

theorem withoutDepfile_findDepfile (fs : FileSystem) (cu : CompilationUnit) :
    (findDepfile fs cu).withoutDepfile = cu.withoutDepfile := by
  unfold findDepfile
  dsimp only
  split <;> split <;> rfl

theorem withoutDepfile_getDependencies (fs : FileSystem) (dirFilters : Finset String)
    (cu : CompilationUnit) :
    (getDependencies fs dirFilters cu).1.withoutDepfile = cu.withoutDepfile := by
  rw [← withoutDepfile_findDepfile fs cu]
  unfold getDependencies
  dsimp only
  split
  · split <;> rfl
  · split <;> rfl

/-- Finding the dependencies of a known unit changes no unit but for its depfile. -/
theorem unitsOf_updateDependencies (fs : FileSystem) (order : Iteration String) (watching : Bool)
    {cu : CompilationUnit} {context : LiveContext}
    (hcu : context.compilationUnits.lookup cu.sourceFilePath = some cu) :
    unitsOf (updateDependencies fs order watching cu context).1.compilationUnits =
      unitsOf context.compilationUnits :=
  unitsOf_insert_of_lookup hcu (withoutDepfile_getDependencies _ _ _)

def UnitsKeyed (units : String → Option CompilationUnit) : Prop :=
  ∀ p cu, units p = some cu → cu.sourceFilePath = p

theorem sourceFilePath_of_lookup {units : UnorderedMap String CompilationUnit} {p : String}
    {cu : CompilationUnit} (hkeyed : UnitsKeyed (unitsOf units)) (hcu : units.lookup p = some cu) :
    cu.sourceFilePath = p :=
  hkeyed p cu.withoutDepfile (by rw [unitsOf, hcu]; rfl)

theorem collectUnits_keyed (units : List CompilationUnit) :
    UnitsKeyed (unitsOf (collectUnits units)) := by
  have key : ∀ (l : List CompilationUnit) (res : UnorderedMap String CompilationUnit),
      UnitsKeyed (unitsOf res) →
      UnitsKeyed (unitsOf (l.foldl (fun res cu => res.insert cu.sourceFilePath cu) res)) := by
    intro l
    induction l with
    | nil => exact fun _ h => h
    | cons cu l ih =>
        intro res h
        refine ih _ ?_
        intro p cu' hcu'
        by_cases hp : p = cu.sourceFilePath
        · subst hp
          have heq : cu.withoutDepfile = cu' := by simpa [unitsOf] using hcu'
          rw [← heq]
          rfl
        · exact h p cu' (by simpa [unitsOf, Finmap.lookup_insert_of_ne _ hp] using hcu')
  exact key units ∅ (by simp [UnitsKeyed, unitsOf])

@[simp] theorem mem_diffUnits_removed {out : Outside}
    {old new : UnorderedMap String CompilationUnit} {p : String} :
    p ∈ (diffUnits out old new).removed ↔ p ∈ old ∧ new.lookup p = none := by
  simp [diffUnits, Finmap.mem_keys]

@[simp] theorem mem_diffUnits_modified {out : Outside}
    {old new : UnorderedMap String CompilationUnit} {p : String} :
    p ∈ (diffUnits out old new).modified ↔ ∃ cu oldCu, new.lookup p = some cu ∧
      old.lookup p = some oldCu ∧ oldCu.compilationCommandStr ≠ cu.compilationCommandStr := by
  simp only [diffUnits, List.mem_filter, Iteration.mem_toList, Finmap.mem_keys,
    Option.any_eq_true, decide_eq_true_eq]
  constructor
  · rintro ⟨_, cu, hcu, oldCu, hold, hne⟩
    exact ⟨cu, oldCu, hcu, hold, hne⟩
  · rintro ⟨cu, oldCu, hcu, hold, hne⟩
    exact ⟨Finmap.mem_of_lookup_eq_some hold, cu, hcu, oldCu, hold, hne⟩

@[simp] theorem mem_diffUnits_added {out : Outside}
    {old new : UnorderedMap String CompilationUnit} {p : String} :
    p ∈ (diffUnits out old new).added ↔ p ∈ new ∧ old.lookup p = none := by
  simp [diffUnits, Finmap.mem_keys]

theorem parseCompilationUnitsInternal_keyed {out : Outside} {filepath : String}
    {units : UnorderedMap String CompilationUnit}
    (h : (parseCompilationUnitsInternal out filepath).1 = some units) :
    UnitsKeyed (unitsOf units) := by
  unfold parseCompilationUnitsInternal at h
  dsimp only at h
  split at h
  · obtain rfl := Option.some.inj h
    exact collectUnits_keyed []
  · simp at h
  · obtain rfl := Option.some.inj h
    exact collectUnits_keyed _

/-- What a change of a file can do to the units: nothing, or they are read again. -/
theorem updateCompilationUnits_cases {config : LiveConfig} {filepath : String}
    {w w' : LiveWorld} {changes : UnitChanges}
    (h : (updateCompilationUnits config filepath w).1 = some (w', changes)) :
    (∃ pbxProjPath, w' = { w with pbxProjPath } ∧ changes = {}) ∨
      ∃ new, UnitsKeyed (unitsOf new) ∧
        w' = { w with
          context := { w.context with
            compilationUnits := carryDepfiles w.outside w.context.compilationUnits new }
          readings := w.readings + 1 } ∧
        changes = diffUnits w.outside w.context.compilationUnits new := by
  unfold updateCompilationUnits at h
  dsimp only at h
  split at h
  · obtain ⟨rfl, rfl⟩ := Prod.mk.inj (Option.some.inj h)
    exact Or.inl ⟨_, rfl, rfl⟩
  · split at h
    · obtain ⟨rfl, rfl⟩ := Prod.mk.inj (Option.some.inj h)
      exact Or.inl ⟨_, rfl, rfl⟩
    · split at h
      · obtain ⟨rfl, rfl⟩ := Prod.mk.inj (Option.some.inj h)
        exact Or.inl ⟨_, rfl, rfl⟩
      · split at h
        · simp at h
        · rename_i new logs hparse
          obtain ⟨rfl, rfl⟩ := Prod.mk.inj (Option.some.inj h)
          exact Or.inr ⟨new, parseCompilationUnitsInternal_keyed (congrArg Prod.fst hparse),
            rfl, rfl⟩

end JetLive
