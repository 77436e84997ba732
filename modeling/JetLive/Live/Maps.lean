import JetLive.Compiler.Records
import JetLive.Live.Run

/-!
# What happens to the maps of the library

The context of the library holds several maps that have to fit together: the units, the
dependencies and their inverse, the owners of exported symbols, the monitored directories.
`MapStep` lists the ways in which they change, and `LiveRun.mapSteps` says that a run of
the library changes them in no other way. The relation `R` restricts the new readings of
`compile_commands.json`; it is passed on from the calls of the run (`Live.Rereads`).
-/

namespace JetLive

open Containers Relation

namespace LiveWorld

/-- All maps but the owners of exported symbols are the same. -/
structure SameMaps (w w' : LiveWorld) : Prop where
  units : w'.context.compilationUnits = w.context.compilationUnits
  dependencies : w'.context.dependencies = w.context.dependencies
  inverseDependencies : w'.context.inverseDependencies = w.context.inverseDependencies
  dirsToMonitor : w'.context.dirsToMonitor = w.context.dirsToMonitor
  watching : w'.fileWatcher.isSome = w.fileWatcher.isSome
  watches : w'.watches = w.watches

/-- Every owner of an exported symbol was the owner before or is a unit. -/
def ExtendsOwners (w w' : LiveWorld) : Prop :=
  ∀ sym src, w'.context.exportedSymbolNamesInSourceFiles.lookup sym = some src →
    w.context.exportedSymbolNamesInSourceFiles.lookup sym = some src ∨
      src ∈ w.context.compilationUnits

/-- The units have been read, and nothing else is known yet. -/
structure Fresh (w : LiveWorld) : Prop where
  keyed : UnitsKeyed (unitsOf w.context.compilationUnits)
  dependencies : w.context.dependencies = ∅
  inverseDependencies : w.context.inverseDependencies = ∅
  owners : w.context.exportedSymbolNamesInSourceFiles = ∅
  watching : w.fileWatcher = none

end LiveWorld

inductive MapStep (config : LiveConfig) (R : LiveWorld → LiveWorld → Prop) :
    LiveWorld → LiveWorld → Prop
  | keep {w w' : LiveWorld} (hsame : w.SameMaps w') (howners : w.ExtendsOwners w') :
      MapStep config R w w'
  | dependencies (w : LiveWorld) (p : String) :
      MapStep config R w (w.updateDependenciesOf p).1
  | watch (w : LiveWorld) : MapStep config R w (w.setupFileWatcher config).1
  | unwatch (w : LiveWorld) : MapStep config R w { w with fileWatcher := none, watches := ∅ }
  | reread {w w' : LiveWorld} (new : UnorderedMap String CompilationUnit)
      (hkeyed : UnitsKeyed (unitsOf new))
      (hw : w' = { w with
        context := { w.context with
          compilationUnits := carryDepfiles w.outside w.context.compilationUnits new }
        readings := w.readings + 1 })
      (hR : R w w') : MapStep config R w w'
  | remove (w : LiveWorld) (p : String) (hp : w.context.compilationUnits.lookup p = none) :
      MapStep config R w
        { w with context := removeDependencies w.outside.dependencyOrder p w.context }

abbrev MapSteps (config : LiveConfig) (R : LiveWorld → LiveWorld → Prop) :
    LiveWorld → LiveWorld → Prop :=
  ReflTransGen (MapStep config R)

variable {config : LiveConfig} {R : LiveWorld → LiveWorld → Prop} {w w' : LiveWorld}

theorem MapSteps.invariant {J : LiveWorld → Prop}
    (hstep : ∀ w w', MapStep config R w w' → J w → J w') (h : MapSteps config R w w')
    (hw : J w) : J w' := by
  induction h with
  | refl => exact hw
  | tail _ hlast ih => exact hstep _ _ hlast ih

/-- Changes of nothing but the parts that are no maps. -/
theorem MapSteps.other (hsame : w.SameMaps w')
    (howners : w'.context.exportedSymbolNamesInSourceFiles =
      w.context.exportedSymbolNamesInSourceFiles) : MapSteps config R w w' := by
  refine .single (.keep hsame ?_)
  intro sym src hsrc
  rw [howners] at hsrc
  exact Or.inl hsrc

theorem MapStep.keyed (h : MapStep config R w w')
    (hw : UnitsKeyed (unitsOf w.context.compilationUnits)) :
    UnitsKeyed (unitsOf w'.context.compilationUnits) := by
  cases h with
  | keep hsame _ => exact hsame.units ▸ hw
  | dependencies p =>
      rw [LiveWorld.unitsOf_updateDependenciesOf hw p]
      exact hw
  | watch => exact hw
  | unwatch => exact hw
  | reread new hkeyed hw' _ =>
      rw [hw', unitsOf_carryDepfiles]
      exact hkeyed
  | remove p _ => exact hw

theorem mem_units_iff {units : UnorderedMap String CompilationUnit} {p : String} :
    p ∈ units ↔ (unitsOf units p).isSome := by
  rw [unitsOf, Option.isSome_map, Finmap.lookup_isSome]

theorem mem_units_updateDependenciesOf (hkeyed : UnitsKeyed (unitsOf w.context.compilationUnits))
    {p q : String} : q ∈ (w.updateDependenciesOf p).1.context.compilationUnits ↔
      q ∈ w.context.compilationUnits := by
  rw [mem_units_iff, mem_units_iff, LiveWorld.unitsOf_updateDependenciesOf hkeyed]

/-- Without a new reading the same units are known. -/
theorem MapStep.mem_units_iff (h : MapStep config (fun _ _ => False) w w')
    (hw : UnitsKeyed (unitsOf w.context.compilationUnits)) {p : String} :
    p ∈ w'.context.compilationUnits ↔ p ∈ w.context.compilationUnits := by
  cases h with
  | keep hsame _ => rw [hsame.units]
  | dependencies q => exact mem_units_updateDependenciesOf hw
  | watch => exact Iff.rfl
  | unwatch => exact Iff.rfl
  | reread _ _ _ hR => exact hR.elim
  | remove q _ => exact Iff.rfl

theorem MapSteps.mem_units_iff (h : MapSteps config (fun _ _ => False) w w')
    (hw : UnitsKeyed (unitsOf w.context.compilationUnits)) {p : String} :
    p ∈ w'.context.compilationUnits ↔ p ∈ w.context.compilationUnits := by
  induction h with
  | refl => exact Iff.rfl
  | tail hsteps hlast ih =>
      have hkeyed := MapSteps.invariant (fun _ _ hstep => hstep.keyed) hsteps hw
      rw [hlast.mem_units_iff hkeyed, ih]

/-! ## The callbacks of the compiler -/

theorem addExportedSymbols_owners {out : Outside} (known : String → Prop)
    {units : List (String × CompilationUnit)} {names : UnorderedMap String String}
    (hunits : ∀ unit ∈ units, known unit.1) {sym src : String}
    (hsrc : (units.foldl (LiveWorld.addExportedSymbols out) names).lookup sym = some src) :
    names.lookup sym = some src ∨ known src := by
  -- both loops insert a known source under each key
  have key : ∀ (l : List String) (p : String) (names : UnorderedMap String String), known p →
      (l.foldl (fun names el => names.insert el p) names).lookup sym = some src →
      names.lookup sym = some src ∨ known src := by
    intro l p
    induction l with
    | nil => exact fun _ _ h => Or.inl h
    | cons el l ih =>
        intro names hp h
        rcases ih _ hp h with h | h
        · by_cases hel : sym = el
          · subst hel
            have hsrc' : p = src := by simpa using h
            exact Or.inr (hsrc' ▸ hp)
          · exact Or.inl (by simpa [Finmap.lookup_insert_of_ne _ hel] using h)
        · exact Or.inr h
  induction units generalizing names with
  | nil => exact Or.inl hsrc
  | cons unit units ih =>
      obtain ⟨hunit, hunits⟩ := List.forall_mem_cons.mp hunits
      rcases ih hunits hsrc with h | h
      · exact key _ _ _ hunit h
      · exact Or.inr h

theorem mem_of_mem_knownUnits {sourceFilePaths : List String} {unit : String × CompilationUnit}
    (h : unit ∈ w.knownUnits sourceFilePaths) : unit.1 ∈ w.context.compilationUnits := by
  obtain ⟨p, _, hp⟩ := List.mem_filterMap.mp h
  obtain ⟨cu, hcu, rfl⟩ := Option.map_eq_some_iff.mp hp
  exact Finmap.mem_of_lookup_eq_some hcu

theorem mem_of_mem_unitList {unit : String × CompilationUnit} (h : unit ∈ w.unitList) :
    unit.1 ∈ w.context.compilationUnits := by
  obtain ⟨p, _, hp⟩ := List.mem_filterMap.mp h
  obtain ⟨cu, hcu, rfl⟩ := Option.map_eq_some_iff.mp hp
  exact Finmap.mem_of_lookup_eq_some hcu

theorem loadCode_mapSteps (status : ℤ) (libPath : String) (sourceFilePaths : List String)
    (w : LiveWorld) : MapSteps config R w (w.loadCode status libPath sourceFilePaths).1 := by
  unfold LiveWorld.loadCode
  split
  · exact .refl
  · refine .single (.keep ⟨rfl, rfl, rfl, rfl, rfl, rfl⟩ ?_)
    intro sym src hsrc
    exact addExportedSymbols_owners (· ∈ w.context.compilationUnits)
      (fun unit hunit => mem_of_mem_knownUnits hunit) hsrc

theorem host_linkFinished_mapSteps (callback : LinkFinishCallback) (status : ℤ)
    (libPath : String) (sourceFilePaths : List String) (err : String) (w : LiveWorld) :
    MapSteps config R w
      (Live.host.linkFinished callback status libPath sourceFilePaths err w).1 := by
  cases callback with
  | none => exact .refl
  | some n => exact loadCode_mapSteps status libPath sourceFilePaths w

theorem host_compileFinished_mapSteps (callback : FinishCallback) (status : ℤ)
    (path err : String) (w : LiveWorld) :
    MapSteps config R w (Live.host.compileFinished callback status path err w).1 := by
  cases callback with
  | updateDependencies p readings => exact .single (.dependencies w (w.referent p readings))
  | nothing => exact .refl

/-- The maps of a session come from `w` by changes of the maps. -/
theorem mapSteps_stable (w : LiveWorld) :
    Session.Stable Live.host fun s : Live => MapSteps config R w s.world where
  emit _ _ _ hs := hs
  modify _ _ hs := hs
  unit _ _ _ _ hs := hs
  compileFinished s callback status path err hs := by
    rw [Session.callback_world]
    exact hs.trans (host_compileFinished_mapSteps callback status path err s.world)
  linkRefused s callback hs := by
    rw [Session.callback_world]
    exact hs.trans (host_linkFinished_mapSteps callback 125 "" [] "" s.world)

theorem pollLink_mapSteps (env : Environment) (s : Live) :
    MapSteps config R s.world (s.pollLink Live.host env).world := by
  rcases Session.pollLink_cases Live.host env s with
    h | ⟨task, _, status, err, s₁, _, _, _, _, hs₁, h⟩
  · rw [h]
  · rw [h, Session.emit_world, Session.modify_world, Session.callback_world, hs₁.2]
    exact host_linkFinished_mapSteps _ _ _ _ _ _

theorem update_mapSteps (config' : LiveConfig) (env : Environment) (s : Live) :
    MapSteps config R s.world (s.update Live.host config' env).world := by
  rw [Session.update_eq]
  refine ReflTransGen.trans ?_ (pollLink_mapSteps env _)
  exact (mapSteps_stable s.world).beforePollLink config' env s .refl

/-! ## File events -/

/-- The events that handling an event of the queue records: logs, and calls of the
compiler, which is asked to compile known units only. -/
def Event.Handling (known : String → Prop) : Event → Prop
  | .compile cu => known cu.sourceFilePath
  | .remove _ | .link | .host (.log _) => True
  | _ => False

namespace Session.Extends

variable {P : Compiler → Event → Prop} {J : LiveWorld → Prop} {s s' : Live}

theorem emitLogs (h : Extends P J s s') (hlog : ∀ c entry, P c (.host (.log entry)))
    (l : List LogEntry) : Extends P J s (s'.emitLogs l) := by
  refine h.emitHost ?_
  intro e he
  obtain ⟨entry, _, rfl⟩ := List.mem_map.mp he
  exact hlog _ entry

theorem modifyWorld {f : LiveWorld → LiveWorld} (h : Extends P J s s')
    (hf : J s'.world → J (f s'.world)) : Extends P J s (s'.modifyWorld f) :=
  ⟨h.1, hf h.2⟩

theorem act {f : LiveWorld → LiveWorld × List LogEntry} (h : Extends P J s s')
    (hlog : ∀ c entry, P c (.host (.log entry))) (hf : J s'.world → J (f s'.world).1) :
    Extends P J s (s'.act f) :=
  ⟨(h.emitLogs hlog _).1, hf h.2⟩

end Session.Extends

namespace Live

open Session

/-- Handling an event of the queue: known units are compiled, and the maps change step by
step. -/
abbrev Handles (config : LiveConfig) (R : LiveWorld → LiveWorld → Prop) (s s' : Live) : Prop :=
  Extends (fun _ e => e.Handling (· ∈ s'.world.context.compilationUnits))
    (MapSteps config R s.world) s s'

variable {s : Live} {known : String → Prop} {J : LiveWorld → Prop}

theorem compileUnit_extends (complaint : String) (p : String) (hs : J s.world)
    (hkeyed : UnitsKeyed (unitsOf s.world.context.compilationUnits))
    (hknown : p ∈ s.world.context.compilationUnits → known p) :
    Extends (fun _ e => e.Handling known) J s (s.compileUnit complaint p) := by
  unfold compileUnit
  split
  · rename_i cu hcu
    refine Extends.modify (Extends.emit (.refl hs) ?_) _
    rw [Event.Handling, sourceFilePath_of_lookup hkeyed hcu]
    exact hknown (Finmap.mem_of_lookup_eq_some hcu)
  · exact (Extends.refl hs).emitLogs (fun _ _ => trivial) _

theorem foldl_compileUnit_extends (complaint : String) (l : List String) (hs : J s.world)
    (hkeyed : UnitsKeyed (unitsOf s.world.context.compilationUnits))
    (hknown : ∀ p ∈ s.world.context.compilationUnits, known p) :
    Extends (fun _ e => e.Handling known) J s (l.foldl (compileUnit complaint) s) := by
  induction l generalizing s with
  | nil => exact .refl hs
  | cons p l ih =>
      have hworld := compileUnit_world complaint s p
      have hfirst := compileUnit_extends complaint p hs hkeyed (hknown p)
      refine hfirst.trans (ih ?_ ?_ ?_)
      · exact hfirst.2
      · rw [hworld]
        exact hkeyed
      · rw [hworld]
        exact hknown

theorem foldl_compileUnit_world (complaint : String) (l : List String) (s : Live) :
    (l.foldl (compileUnit complaint) s).world = s.world := by
  induction l generalizing s with
  | nil => rfl
  | cons p l ih => rw [List.foldl_cons, ih, compileUnit_world]

theorem foldl_removeUnit_units (l : List String) (s : Live) :
    (l.foldl removeUnit s).world.context.compilationUnits =
      s.world.context.compilationUnits := by
  induction l generalizing s with
  | nil => rfl
  | cons p l ih =>
      rw [List.foldl_cons, ih]
      rfl

theorem foldl_removeUnit_extends (known : String → Prop) (l : List String) (w : LiveWorld)
    (hs : MapSteps config R w s.world)
    (hl : ∀ p ∈ l, s.world.context.compilationUnits.lookup p = none) :
    Extends (fun _ e => e.Handling known) (MapSteps config R w) s (l.foldl removeUnit s) := by
  induction l generalizing s with
  | nil => exact .refl hs
  | cons p l ih =>
      obtain ⟨hp, hl⟩ := List.forall_mem_cons.mp hl
      have hremoved : MapSteps config R w (s.removeUnit p).world :=
        hs.tail (.remove s.world p hp)
      have hfirst : Extends (fun _ e => e.Handling known) (MapSteps config R w) s
          (s.removeUnit p) := by
        refine ⟨⟨[(s.compiler, .remove p)], rfl, ?_⟩, hremoved⟩
        intro x hx
        rw [List.mem_singleton.mp hx]
        trivial
      exact hfirst.trans (ih hremoved hl)

theorem applyChanges_units (changes : UnitChanges) (s : Live) :
    (s.applyChanges changes).world.context.compilationUnits =
      s.world.context.compilationUnits := by
  unfold applyChanges
  rw [modifyWorld_world, foldl_removeUnit_units, foldl_compileUnit_world]

theorem applyChanges_extends {changes : UnitChanges} (w : LiveWorld)
    (hs : MapSteps config R w s.world)
    (hkeyed : UnitsKeyed (unitsOf s.world.context.compilationUnits))
    (hremoved : ∀ p ∈ changes.removed, s.world.context.compilationUnits.lookup p = none) :
    Extends (fun _ e => e.Handling (· ∈ s.world.context.compilationUnits))
      (MapSteps config R w) s (s.applyChanges changes) := by
  have hcompiled := foldl_compileUnit_extends "Cannot find cu for "
    (changes.added ++ changes.modified) hs hkeyed fun p hp => hp
  have hremove := foldl_removeUnit_extends (· ∈ s.world.context.compilationUnits)
    (s := (changes.added ++ changes.modified).foldl (compileUnit "Cannot find cu for ") s)
    changes.removed w hcompiled.2
  rw [foldl_compileUnit_world] at hremove
  unfold applyChanges
  refine (hcompiled.trans (hremove hremoved)).modifyWorld ?_
  exact fun h => h.trans (MapSteps.other ⟨rfl, rfl, rfl, rfl, rfl, rfl⟩ rfl)

theorem lookup_carryDepfiles_eq_none {out : Outside}
    {old new : UnorderedMap String CompilationUnit} {p : String} (hp : new.lookup p = none) :
    (carryDepfiles out old new).lookup p = none := by
  have h := congrFun (unitsOf_carryDepfiles out old new) p
  simpa [unitsOf, hp] using h

theorem onOtherFileChanged_handles {filepath : String}
    (hkeyed : UnitsKeyed (unitsOf s.world.context.compilationUnits))
    (hR : ∀ read ∈ (updateCompilationUnits config filepath s.world).1, R s.world read.1) :
    Handles config R s (s.onOtherFileChanged config filepath).1 := by
  rcases onOtherFileChanged_cases config filepath s with
    ⟨logs, h⟩ | ⟨w, changes, logs, hread, hcases⟩
  · rw [h]
    exact (Extends.refl .refl).emitLogs (fun _ _ => trivial) _
  · -- the world after the new reading, and what is known of it
    have hentered : MapSteps config R s.world w ∧
        UnitsKeyed (unitsOf w.context.compilationUnits) ∧
        ∀ p ∈ changes.removed, w.context.compilationUnits.lookup p = none := by
      have hRw := hR (w, changes) hread
      rcases updateCompilationUnits_cases hread with ⟨path, rfl, rfl⟩ | ⟨new, hnew, rfl, rfl⟩
      · exact ⟨MapSteps.other ⟨rfl, rfl, rfl, rfl, rfl, rfl⟩ rfl, hkeyed, by simp⟩
      · refine ⟨.single (.reread new hnew rfl hRw), ?_, ?_⟩
        · rw [unitsOf_carryDepfiles]
          exact hnew
        · intro p hp
          exact lookup_carryDepfiles_eq_none (mem_diffUnits_removed.mp hp).2
    obtain ⟨hsteps, hwkeyed, hremoved⟩ := hentered
    have hfilters : MapSteps config R s.world (w.updateDirectoryFilters).1 :=
      hsteps.trans (MapSteps.other ⟨rfl, rfl, rfl, rfl, rfl, rfl⟩ rfl)
    have hacted (known : String → Prop) :
        Extends (fun _ e => e.Handling known) (MapSteps config R s.world) s
          (s.afterReading w logs) :=
      Extends.act (Extends.act (.refl .refl) (fun _ _ => trivial) fun _ => hsteps)
        (fun _ _ => trivial) fun _ => hfilters
    rcases hcases with ⟨_, h⟩ | ⟨_, h⟩
    · have hchanged := applyChanges_extends (s := s.afterReading w logs) s.world hfilters hwkeyed
        hremoved
      rw [h, Handles, applyChanges_units]
      exact (hacted _).trans hchanged
    · rw [h]
      exact hacted _

theorem onFileChanged_handles {filepath : String}
    (hkeyed : UnitsKeyed (unitsOf s.world.context.compilationUnits))
    (hR : s.world.context.inverseDependencies.lookup filepath = none →
      ∀ read ∈ (updateCompilationUnits config filepath s.world).1, R s.world read.1) :
    Handles config R s (s.onFileChanged config filepath).1 := by
  unfold onFileChanged
  split
  · rw [Handles, foldl_compileUnit_world]
    exact foldl_compileUnit_extends _ _ .refl hkeyed fun _ hp => hp
  · rename_i hnone
    exact onOtherFileChanged_handles hkeyed (hR hnone)

/-- What a new reading of `compile_commands.json` does is restricted by `R`. -/
def Rereads (R : LiveWorld → LiveWorld → Prop) (config : LiveConfig) (s : Live) :
    LiveCall → Prop
  | .dispatch out (.fileChanged filepath) =>
      s.world.context.inverseDependencies.lookup filepath = none →
        ∀ read ∈ (updateCompilationUnits config filepath (s.ask out).world).1,
          R (s.ask out).world read.1
  | _ => True

instance (R : LiveWorld → LiveWorld → Prop) [∀ w w', Decidable (R w w')] (config : LiveConfig)
    (s : Live) : ∀ call, Decidable (s.Rereads R config call)
  | .dispatch _ (.fileChanged _) => inferInstanceAs (Decidable (_ → ∀ read ∈ _, _))
  | .dispatch _ .tryReload | .fileAction .. | .tryReload | .write _ | .tick .. | .finish =>
      isTrue trivial

theorem rereads_true (config : LiveConfig) (s : Live) (call : LiveCall) :
    s.Rereads (fun _ _ => True) config call := by
  cases call with
  | dispatch out event => cases event <;> simp [Rereads]
  | _ => trivial

theorem dispatch_handles {out : Outside} {event : LiveEvent}
    (hkeyed : UnitsKeyed (unitsOf s.world.context.compilationUnits))
    (hR : s.Rereads R config (.dispatch out event)) :
    Handles config R (s.ask out) ((s.ask out).dispatch config event) := by
  cases event with
  | fileChanged filepath =>
      have hchanged := onFileChanged_handles (s := s.ask out) hkeyed hR
      rcases dispatch_fileChanged_cases config filepath (s.ask out) with ⟨_, h⟩ | ⟨_, h⟩
      · rw [h]
        exact hchanged.modifyWorld fun h =>
          h.trans (MapSteps.other ⟨rfl, rfl, rfl, rfl, rfl, rfl⟩ rfl)
      · rw [h]
        exact hchanged.modifyWorld fun h =>
          h.trans (MapSteps.other ⟨rfl, rfl, rfl, rfl, rfl, rfl⟩ rfl)
  | tryReload =>
      have hlinked : Handles config R (s.ask out) (Session.link reloadCallback (s.ask out)) :=
        (Extends.emit (.refl .refl) trivial).modify _
      exact hlinked.modifyWorld fun h =>
        h.trans (MapSteps.other ⟨rfl, rfl, rfl, rfl, rfl, rfl⟩ rfl)

/-! ## Initialization -/

/-- Nothing but log entries is recorded, and the world satisfies `J`. -/
abbrev Prepares (J : LiveWorld → Prop) (s s' : Live) : Prop :=
  Extends (fun _ e => ∃ entry, e = .host (.log entry)) J s s'

namespace Prepares

variable {s' : Live}

theorem emitLogs (h : Prepares J s s') (l : List LogEntry) : Prepares J s (s'.emitLogs l) :=
  Extends.emitLogs h (fun _ entry => ⟨entry, rfl⟩) l

theorem act {f : LiveWorld → LiveWorld × List LogEntry} (h : Prepares J s s')
    (hf : J s'.world → J (f s'.world).1) : Prepares J s (s'.act f) :=
  Extends.act h (fun _ entry => ⟨entry, rfl⟩) hf

end Prepares

theorem loadCompilationUnits_prepares {filepath : String} {s' : Live} (hs : s.world.Fresh)
    (h : s.loadCompilationUnits config filepath = some s') :
    Prepares LiveWorld.Fresh s s' := by
  refine loadCompilationUnits_rule (I := Prepares LiveWorld.Fresh s)
    (fun _ l h => Prepares.emitLogs h l) ?_ ?_ (.refl hs) h
  · intro s' hs'
    refine Prepares.act hs' ?_
    unfold LiveWorld.generateDatabase
    split
    · exact fun h => ⟨h.keyed, h.dependencies, h.inverseDependencies, h.owners, h.watching⟩
    · exact id
  · intro s' filepath units hkeyed hs'
    exact Prepares.act hs' fun h =>
      ⟨hkeyed, h.dependencies, h.inverseDependencies, h.owners, h.watching⟩

theorem loadDependencies_prepares (hJ : ∀ w p, J w → J (w.updateDependenciesOf p).1) (s : Live)
    (hs : J s.world) : Prepares J s s.loadDependencies :=
  loadDependencies_rule (I := Prepares J s) (fun _ l h => Prepares.emitLogs h l)
    (fun _ p h => Prepares.act h (hJ _ p)) (.refl hs)

theorem loadDependencies_mapSteps (s : Live) :
    Prepares (MapSteps config R s.world) s s.loadDependencies :=
  loadDependencies_prepares (fun w p h => h.tail (.dependencies w p)) s .refl

theorem loadSymbols_prepares (hJ : ∀ w path, J w → J (w.loadProgram path).1) (s : Live)
    (hs : J s.world) : Prepares J s s.loadSymbols :=
  loadSymbols_rule (I := Prepares J s) (fun _ l h => Prepares.emitLogs h l)
    (fun _ path h => Prepares.act h (hJ _ path)) (.refl hs)

theorem loadProgram_mapSteps (path : String) (w : LiveWorld) :
    MapSteps config R w (w.loadProgram path).1 := by
  unfold LiveWorld.loadProgram
  dsimp only
  split
  · exact .refl
  · exact MapSteps.other ⟨rfl, rfl, rfl, rfl, rfl, rfl⟩ rfl

theorem loadExportedSymbols_mapStep (w : LiveWorld) :
    MapStep config R w w.loadExportedSymbols.1 := by
  refine .keep ⟨rfl, rfl, rfl, rfl, rfl, rfl⟩ ?_
  intro sym src hsrc
  exact addExportedSymbols_owners (· ∈ w.context.compilationUnits)
    (fun unit hunit => mem_of_mem_unitList hunit) hsrc

/-- The initialization reads the units, loads their dependencies and goes on from there. -/
theorem create_prepares {filepath : String} {out : Outside} {memory : ProcessMemory}
    (h : create config filepath out memory = some s) :
    ∃ s₁ : Live, Prepares LiveWorld.Fresh { world := { outside := out, memory } } s₁ ∧
      Prepares (MapSteps config R s₁.loadDependencies.world) s₁.loadDependencies s := by
  unfold create at h
  obtain ⟨s₀, hload, rfl⟩ := Option.map_eq_some_iff.mp h
  have hempty : LiveWorld.Fresh { outside := out, memory } :=
    ⟨collectUnits_keyed [], rfl, rfl, rfl, rfl⟩
  have hunits := loadCompilationUnits_prepares hempty hload
  refine ⟨s₀.act LiveWorld.updateDirectoryFilters, hunits.act ?_, ?_⟩
  · exact fun h => ⟨h.keyed, h.dependencies, h.inverseDependencies, h.owners, h.watching⟩
  · dsimp only
    set s₁ : Live := loadDependencies (s₀.act LiveWorld.updateDirectoryFilters)
    have hwatch : Prepares (MapSteps config R s₁.world) s₁
        (s₁.act (LiveWorld.setupFileWatcher config)) :=
      Prepares.act (.refl .refl) fun h => h.tail (.watch s₁.world)
    have hsymbols := hwatch.trans (loadSymbols_prepares
      (fun w path h => h.trans (loadProgram_mapSteps path w)) _ hwatch.2)
    exact Prepares.act hsymbols fun h => h.tail (loadExportedSymbols_mapStep _)

theorem create_mapSteps {filepath : String} {out : Outside} {memory : ProcessMemory}
    (h : create config filepath out memory = some s) :
    ∃ w : LiveWorld, w.Fresh ∧ MapSteps config R w s.world := by
  obtain ⟨s₁, ⟨_, hfresh⟩, hrest⟩ := create_prepares (R := R) h
  exact ⟨s₁.world, hfresh, (loadDependencies_mapSteps s₁).2.trans hrest.2⟩

/-- `J` is kept by the parts of the initialization. -/
structure InitStable (config : LiveConfig) (J : LiveWorld → Prop) : Prop where
  generateDatabase : ∀ w, J w → J (w.generateDatabase config).1
  enterUnits : ∀ w filepath units, J w → J (w.enterUnits filepath units).1
  updateDirectoryFilters : ∀ w, J w → J w.updateDirectoryFilters.1
  updateDependenciesOf : ∀ w p, J w → J (w.updateDependenciesOf p).1
  setupFileWatcher : ∀ w, J w → J (w.setupFileWatcher config).1
  loadProgram : ∀ w path, J w → J (w.loadProgram path).1
  loadExportedSymbols : ∀ w, J w → J w.loadExportedSymbols.1

/-- The rule for the initialization, which records nothing but log entries. -/
theorem InitStable.create {filepath : String} {out : Outside} {memory : ProcessMemory}
    (hJ : InitStable config J) (hinitial : J { outside := out, memory })
    (h : create config filepath out memory = some s) :
    Prepares J { world := { outside := out, memory } } s := by
  have hrule : InitRule config (Prepares J { world := { outside := out, memory } }) :=
    { emitLogs := fun _ l h => Prepares.emitLogs h l
      generateDatabase := fun _ h => Prepares.act h (hJ.generateDatabase _)
      enterUnits := fun _ filepath units _ h => Prepares.act h (hJ.enterUnits _ filepath units)
      updateDirectoryFilters := fun _ h => Prepares.act h (hJ.updateDirectoryFilters _)
      updateDependenciesOf := fun _ p h => Prepares.act h (hJ.updateDependenciesOf _ p)
      setupFileWatcher := fun _ h => Prepares.act h (hJ.setupFileWatcher _)
      loadProgram := fun _ path h => Prepares.act h (hJ.loadProgram _ path)
      loadExportedSymbols := fun _ h => Prepares.act h (hJ.loadExportedSymbols _) }
  exact hrule.create (.refl hinitial) h

/-- The initialization records nothing but log entries. -/
theorem create_logs {filepath : String} {out : Outside} {memory : ProcessMemory}
    (h : create config filepath out memory = some s) :
    Prepares (fun _ => True) { world := { outside := out, memory } } s := by
  have htrivial : InitStable config fun _ => True := by
    constructor <;> intros <;> trivial
  exact htrivial.create trivial h

/-! ## Runs -/

theorem ask_mapSteps (out : Outside) (s : Live) : MapSteps config R s.world (s.ask out).world :=
  MapSteps.other ⟨rfl, rfl, rfl, rfl, rfl, rfl⟩ rfl

theorem recreateFileWatcher_mapSteps (w : LiveWorld) :
    MapSteps config R w (recreateFileWatcher config w).1 := by
  unfold recreateFileWatcher
  dsimp only
  have hdropped : MapSteps config R w
      { w with
        fileWatcher :=
          if w.recreateFileWatcherAfterTicks = recreateFileWatcherMaxTicks then none
          else w.fileWatcher
        watches :=
          if w.recreateFileWatcherAfterTicks = recreateFileWatcherMaxTicks then ∅ else w.watches
        recreateFileWatcherAfterTicks := w.recreateFileWatcherAfterTicks - 1 } := by
    split
    · have hunwatched : MapSteps config R w { w with fileWatcher := none, watches := ∅ } :=
        .single (.unwatch w)
      exact hunwatched.trans (MapSteps.other ⟨rfl, rfl, rfl, rfl, rfl, rfl⟩ rfl)
    · exact MapSteps.other ⟨rfl, rfl, rfl, rfl, rfl, rfl⟩ rfl
  split
  · exact hdropped.tail (.watch _)
  · exact hdropped

theorem tickFileWatcher_mapSteps (s : Live) :
    MapSteps config R s.world (s.tickFileWatcher config).world := by
  refine (recreateFileWatcher_mapSteps s.world).trans
    (MapSteps.other ⟨rfl, rfl, rfl, rfl, ?_, rfl⟩ rfl)
  simp [tickFileWatcher]

theorem draining_mapSteps (draining : Bool) (w : LiveWorld) :
    MapSteps config R w { w with draining } :=
  MapSteps.other ⟨rfl, rfl, rfl, rfl, rfl, rfl⟩ rfl

theorem poll_mapSteps (env : Environment) (s : Live) :
    MapSteps config R s.world (s.poll config env).world :=
  ((tickFileWatcher_mapSteps s).trans (update_mapSteps config env _)).trans
    (draining_mapSteps _ _)

theorem perform_mapSteps {call : LiveCall}
    (hkeyed : UnitsKeyed (unitsOf s.world.context.compilationUnits))
    (hcall : s.Rereads R config call) :
    MapSteps config R s.world (s.perform config call).world := by
  cases call with
  | fileAction directory filename =>
      unfold perform fileAction
      rw [modifyWorld_world]
      split
      · exact MapSteps.other ⟨rfl, rfl, rfl, rfl, by simp, rfl⟩ rfl
      · exact .refl
  | tryReload => exact MapSteps.other ⟨rfl, rfl, rfl, rfl, rfl, rfl⟩ rfl
  | write memory => exact MapSteps.other ⟨rfl, rfl, rfl, rfl, rfl, rfl⟩ rfl
  | tick out env => exact (ask_mapSteps out s).trans (poll_mapSteps env _)
  | dispatch out event => exact (ask_mapSteps out s).trans (dispatch_handles hkeyed hcall).2
  | finish => exact draining_mapSteps false s.world

end Live

/-- The units of a run are stored under their source paths. -/
theorem LiveRun.keyed {P : Live → LiveCall → Prop} {s : Live} (h : LiveRun config P s) :
    UnitsKeyed (unitsOf s.world.context.compilationUnits) := by
  have hkeyed (w w' : LiveWorld) (hstep : MapStep config (fun _ _ => True) w w')
      (hw : UnitsKeyed (unitsOf w.context.compilationUnits)) :
      UnitsKeyed (unitsOf w'.context.compilationUnits) := hstep.keyed hw
  induction h with
  | start filepath out memory hs =>
      obtain ⟨w, hfresh, hsteps⟩ := Live.create_mapSteps (R := fun _ _ => True) hs
      exact hsteps.invariant hkeyed hfresh.keyed
  | @call s _ call _ _ ih =>
      exact MapSteps.invariant hkeyed
        (Live.perform_mapSteps ih (Live.rereads_true config s call)) ih

/-- The rule for runs: what holds after the initialization and is kept by the changes of
the maps holds in every state of a run. -/
theorem LiveRun.invariant {P : Live → LiveCall → Prop} {s : Live} {J : LiveWorld → Prop}
    (hP : ∀ s call, P s call → s.Rereads R config call)
    (hstep : ∀ w w', MapStep config R w w' → J w → J w')
    (hstart : ∀ filepath out memory (s : Live),
      Live.create config filepath out memory = some s → J s.world)
    (h : LiveRun config P s) : J s.world := by
  induction h with
  | start filepath out memory hs => exact hstart filepath out memory _ hs
  | @call s hrun call _ hcall ih =>
      exact MapSteps.invariant hstep (Live.perform_mapSteps hrun.keyed (hP s call hcall)) ih

end JetLive
