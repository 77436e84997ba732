import JetLive.Compiler.Agreement
import JetLive.Compiler.Records
import JetLive.Live.Run

/-!
# What is linked is what is loaded

The objects on the command line of a link process are those of the ready units, and
the callback gets the sources of the same units. But `Live` then looks the objects up
again, in its own units, to load the relocations and the exported symbols. Both agree
as long as no new reading of `compile_commands.json` gives another object to a unit
that the compiler holds without changing its command (`Live.KeepsObjects`): such a unit
does not count as modified and is not compiled again.
-/

namespace JetLive

open Containers EventTrace

/-! ## The link phase -/

/-- The object files on the command line of the process are those of the ready units,
each of them once. -/
def CommandLinksReady (c : Compiler) (process : Process) : Prop :=
  ∃ front objectFilePaths, process.command = front ++ quoteObjectFilePaths objectFilePaths ∧
    objectFilePaths.Nodup ∧ objectFilePaths.toFinset = c.readyObjects

/-- A link process is started with nothing pending and nothing running, for the ready
units; its callback gets the sources that were ready at its start, which are still the
ready ones. -/
def LinkPhase (c : Compiler) : Event → CompilerTrace → Prop
  | .linkStarted process, _ => c.pendingCompilationTasks = [] ∧ c.runningCompilationTasks = ∅ ∧
      CommandLinksReady c process
  | .linkFinished _ _ _ sourceFilePaths _, t => ∃ c₀, (history t).linkStart = some c₀ ∧
      c.readyCompilationUnits = c₀.readyCompilationUnits ∧
      ∀ p, p ∈ sourceFilePaths ↔ p ∈ c₀.readyCompilationUnits
  | _, _ => True

theorem LinksReady.command {config : LiveConfig} {c : Compiler} {process : Process}
    (hlinker : config.linkerType ≠ .kUnknown) (h : LinksReady config c process) :
    CommandLinksReady c process := by
  obtain ⟨libName, baseAddress, objectFilePaths, hcommand, hnodup, hobjects⟩ := h
  obtain ⟨options, hoptions⟩ := createLinkCommand_eq libName c.compilerPath baseAddress
    objectFilePaths hlinker
  refine ⟨_, objectFilePaths, hcommand.trans hoptions, hnodup, ?_⟩
  ext o
  rw [List.mem_toFinset, hobjects, Compiler.mem_readyObjects]

theorem Reached.linkPhase {d : Discipline} {c : Compiler} {t : CompilerTrace}
    (h : Reached d c t) (hedit : d.editGuarded) (hlinker : d.config.linkerType ≠ .kUnknown) :
    Always LinkPhase t := by
  refine h.always ?_
  intro c t c₀ e hreached hemits
  cases e with
  | linkStarted process =>
      obtain ⟨rfl, _, hrunning, hpending, _, hready, hprocess⟩ := hemits
      refine ⟨hpending.resolve_left ?_, hrunning, hprocess.command hlinker⟩
      exact fun hn => hready (hreached.coherent.ready_empty hn)
  | linkFinished callback status libPath sourceFilePaths err =>
      obtain ⟨rfl, hlink, hsources⟩ := hemits
      obtain ⟨_, _, start, hstart, hready⟩ := hreached.quiet hedit hlink
      refine ⟨start, hstart, hready, fun p => ?_⟩
      rw [mem_of_listsReady hreached.coherent hsources, hready]
  | _ => trivial

/-- A reload reads relocations and exported symbols from the objects that were ready
when the link process was started. -/
def LoadsLinked (_ : Compiler) : Event → CompilerTrace → Prop
  | .host (.reload newProgram exportedFrom), t => newProgram.objFilePaths = exportedFrom ∧
      (history t).linkStart.map Compiler.readyObjects = some newProgram.objFilePaths.toFinset
  | _, _ => True

instance (c : Compiler) : ∀ e t, Decidable (LoadsLinked c e t)
  | .host (.reload ..), _ => inferInstanceAs (Decidable (_ ∧ _))
  | .host (.log _), _ | .host .onCodePreLoad, _ | .host .onCodePostLoad, _ => isTrue trivial
  | .log .., _ | .compile _, _ | .remove _, _ | .link, _ | .compileStarted .., _
  | .compileFinished .., _ | .linkStarted _, _ | .dlopen .., _ | .linkRefused _, _
  | .linkFinished .., _ | .linkTaskReset _, _ => isTrue trivial

def Event.NoReload : Event → Prop
  | .host (.reload ..) => False
  | _ => True

theorem Event.Loading.noReload {exitStatus : ℤ} {e : Event} (h : e.Loading exitStatus) :
    e.NoReload := by
  cases e with
  | log => trivial
  | dlopen => trivial
  | _ => exact h.elim

theorem LoadsLinked.of_noReload {c : Compiler} {e : Event} {t : CompilerTrace}
    (h : e.NoReload) : LoadsLinked c e t := by
  cases e with
  | host event =>
      cases event with
      | reload => exact h.elim
      | _ => trivial
  | _ => trivial

/-! ## The units of the library -/

/-- The object that the units of the library give to a source. -/
def LiveWorld.objOf (w : LiveWorld) (p : String) : Option String :=
  (unitsOf w.context.compilationUnits p).map fun cu => cu.objFilePath

theorem LiveWorld.objOf_eq_lookup (w : LiveWorld) (p : String) :
    w.objOf p = (w.context.compilationUnits.lookup p).map fun cu => cu.objFilePath := by
  rw [objOf, unitsOf, Option.map_map]
  rfl

theorem LiveWorld.objOf_congr {w w' : LiveWorld}
    (h : unitsOf w'.context.compilationUnits = unitsOf w.context.compilationUnits) :
    w'.objOf = w.objOf := by
  funext p
  rw [objOf, h, objOf]

theorem objOf_of_lookup {w : LiveWorld} {p : String} {cu : CompilationUnit}
    (hkeyed : UnitsKeyed (unitsOf w.context.compilationUnits))
    (hcu : w.context.compilationUnits.lookup p = some cu) :
    w.objOf cu.sourceFilePath = some cu.objFilePath := by
  rw [sourceFilePath_of_lookup hkeyed hcu, LiveWorld.objOf_eq_lookup, hcu]
  rfl

/-- The callbacks of the library keep the units, compile expected ones and reload nothing
before a link has finished. -/
theorem host_accepts {units : String → Option CompilationUnit} (hkeyed : UnitsKeyed units) :
    Session.Accepts
      (fun _ e => Expected (fun p => (units p).map fun cu => cu.objFilePath) e ∧ e.NoReload)
      (fun w => unitsOf w.context.compilationUnits = units) Live.host where
  own c e he := by
    cases e with
    | compile => exact he.elim
    | host => exact he.elim
    | _ => exact ⟨trivial, trivial⟩
  unit w hw name cu hcu c := by
    subst hw
    obtain ⟨p, hp⟩ := exists_lookup_of_ownerUnit hcu
    exact ⟨objOf_of_lookup hkeyed hp, trivial⟩
  compileFinished callback status path err w hw := by
    subst hw
    cases callback with
    | updateDependencies p readings =>
        refine ⟨LiveWorld.unitsOf_updateDependenciesOf hkeyed _, ?_⟩
        intro e he c
        obtain ⟨entry, _, rfl⟩ := List.mem_map.mp he
        exact ⟨trivial, trivial⟩
    | nothing => exact ⟨rfl, by simp [Live.host]⟩
  linkRefused callback w hw := by
    subst hw
    cases callback with
    | none => exact ⟨rfl, by simp [Live.host]⟩
    | some n =>
        refine ⟨rfl, ?_⟩
        intro e he c
        have hcases : e = .onCodePreLoad ∨ e = .onCodePostLoad := by
          simpa [Live.host, LiveWorld.loadCode] using he
        rcases hcases with rfl | rfl
        · exact ⟨trivial, trivial⟩
        · exact ⟨trivial, trivial⟩

/-- The objects of the known units are the ready ones, if the sources are the ready ones
and the units give them the same objects. -/
theorem knownUnits_objects {w : LiveWorld} {c : Compiler} {sourceFilePaths : List String}
    (hsources : ∀ p, p ∈ sourceFilePaths ↔ p ∈ c.readyCompilationUnits)
    (hexpected : ∀ p cu, c.readyCompilationUnits.lookup p = some cu →
      w.objOf p = some cu.objFilepath) :
    ((w.knownUnits sourceFilePaths).map fun unit => unit.2.objFilePath).toFinset =
      c.readyObjects := by
  ext o
  rw [List.mem_toFinset, Compiler.mem_readyObjects, List.mem_map]
  constructor
  · rintro ⟨unit, hunit, rfl⟩
    obtain ⟨p, hp, hknown⟩ := List.mem_filterMap.mp hunit
    obtain ⟨cu, hcu, rfl⟩ := Option.map_eq_some_iff.mp hknown
    obtain ⟨ready, hready⟩ := Finmap.mem_iff.mp ((hsources p).mp hp)
    refine ⟨p, ready, hready, ?_⟩
    have hobj := hexpected p ready hready
    rw [LiveWorld.objOf_eq_lookup, hcu] at hobj
    exact (Option.some.inj hobj).symm
  · rintro ⟨p, ready, hready, rfl⟩
    have hobj := hexpected p ready hready
    rw [LiveWorld.objOf_eq_lookup] at hobj
    obtain ⟨cu, hcu, hsame⟩ := Option.map_eq_some_iff.mp hobj
    refine ⟨(p, cu), List.mem_filterMap.mpr ⟨p, ?_, by rw [hcu]; rfl⟩, hsame⟩
    exact (hsources p).mpr (Finmap.mem_of_lookup_eq_some hready)

theorem loadCode_loadsLinked {status : ℤ} {libPath : String} {sourceFilePaths : List String}
    {w : LiveWorld} {t : CompilerTrace} (c : Compiler)
    (hstart : (history t).linkStart.map Compiler.readyObjects =
      some ((w.knownUnits sourceFilePaths).map fun unit => unit.2.objFilePath).toFinset) :
    ∀ e ∈ (w.loadCode status libPath sourceFilePaths).2, LoadsLinked c (.host e) t := by
  intro e he
  cases e with
  | reload newProgram exportedFrom =>
      unfold LiveWorld.loadCode at he
      split at he
      · simp at he
      · obtain ⟨rfl, rfl⟩ : newProgram = w.libProgram libPath sourceFilePaths ∧
            exportedFrom = (w.knownUnits sourceFilePaths).map fun unit => unit.2.objFilePath := by
          simpa using he
        exact ⟨rfl, hstart⟩
  | _ => trivial

theorem host_linkFinished_units (callback : LinkFinishCallback) (status : ℤ) (libPath : String)
    (sourceFilePaths : List String) (err : String) (w : LiveWorld) :
    (Live.host.linkFinished callback status libPath sourceFilePaths err
      w).1.context.compilationUnits = w.context.compilationUnits := by
  cases callback with
  | none => rfl
  | some n =>
      simp only [Live.host, LiveWorld.loadCode]
      split <;> rfl

/-! ## The invariant -/

namespace Live

/-- The units are stored under their paths, the compiler works on their objects except
for the stale sources, and every reload so far has read the objects that were linked. -/
structure Settled (stale : List String) (s : Live) : Prop where
  keyed : UnitsKeyed (unitsOf s.world.context.compilationUnits)
  agree : Agree s.world.objOf stale s.compiler
  ready_key : ∀ p cu, s.compiler.readyCompilationUnits.lookup p = some cu →
    cu.sourceFilepath = p
  loads : Always LoadsLinked s.trace

variable {d : Discipline} {stale : List String} {s : Live}

namespace Settled

theorem mono {stale' : List String} (h : Settled stale s) (hsub : stale ⊆ stale') :
    Settled stale' s :=
  { h with agree := h.agree.mono hsub }

theorem emit {e : Event} (h : Settled stale s) (he : e.NoReload) : Settled stale (s.emit e) :=
  { h with loads := (always_cons _ _ _ _).mpr ⟨.of_noReload he, h.loads⟩ }

theorem emitLogs (h : Settled stale s) (l : List LogEntry) : Settled stale (s.emitLogs l) where
  keyed := by
    rw [Session.emitLogs_world]
    exact h.keyed
  agree := by
    rw [Session.emitLogs_world, Session.emitLogs_compiler]
    exact h.agree
  ready_key := by
    rw [Session.emitLogs_compiler]
    exact h.ready_key
  loads := by
    refine Session.always_foldl_host h.loads ?_
    intro e he t _
    obtain ⟨entry, _, rfl⟩ := List.mem_map.mp he
    trivial

/-- Other units take over. -/
theorem enter {stale' : List String} {f : LiveWorld → LiveWorld × List LogEntry}
    (h : Settled stale s) (hkeyed : UnitsKeyed (unitsOf (f s.world).1.context.compilationUnits))
    (hagree : Agree (f s.world).1.objOf stale' s.compiler) : Settled stale' (s.act f) where
  keyed := hkeyed
  agree := by
    rw [Session.act_compiler]
    exact hagree
  ready_key := by
    rw [Session.act_compiler]
    exact h.ready_key
  loads := (h.emitLogs _).loads

theorem modifyWorld {f : LiveWorld → LiveWorld} (h : Settled stale s)
    (hf : unitsOf (f s.world).context.compilationUnits =
      unitsOf s.world.context.compilationUnits) : Settled stale (s.modifyWorld f) where
  keyed := hf ▸ h.keyed
  agree := by
    rw [Session.modifyWorld_world, LiveWorld.objOf_congr hf]
    exact h.agree
  ready_key := h.ready_key
  loads := h.loads

theorem act {f : LiveWorld → LiveWorld × List LogEntry} (h : Settled stale s)
    (hf : unitsOf (f s.world).1.context.compilationUnits =
      unitsOf s.world.context.compilationUnits) : Settled stale (s.act f) := by
  refine h.enter (hf ▸ h.keyed) ?_
  rw [LiveWorld.objOf_congr hf]
  exact h.agree

/-- A loop that deals with one stale source after another. -/
theorem foldl {f : Live → String → Live} {I : Live → Prop} {l : List String}
    (hf : ∀ s stale, ∀ p ∈ l, I s → Settled (p :: stale) s → I (f s p) ∧ Settled stale (f s p))
    (hs : I s) (h : Settled (l ++ stale) s) : Settled stale (l.foldl f s) := by
  induction l generalizing s with
  | nil => exact h
  | cons p l ih =>
      obtain ⟨hs', h'⟩ := hf s (l ++ stale) p List.mem_cons_self hs h
      refine ih ?_ hs' h'
      intro s stale q hq
      exact hf s stale q (List.mem_cons_of_mem _ hq)

/-! ### File events -/

theorem compileUnit {p : String} (complaint : String) (h : Settled (p :: stale) s)
    (hunknown : s.world.context.compilationUnits.lookup p = none → Settled stale s) :
    Settled stale (s.compileUnit complaint p) := by
  unfold Live.compileUnit
  split
  · rename_i cu hcu
    have hpath := sourceFilePath_of_lookup h.keyed hcu
    refine { h.emit (e := .compile cu) trivial with agree := ?_, ready_key := h.ready_key }
    refine Agree.enqueue _ ?_ (objOf_of_lookup h.keyed hcu)
    rw [hpath]
    exact h.agree
  · rename_i hcu
    exact (hunknown hcu).emitLogs _

theorem removeUnit {p : String} (h : Settled (p :: stale) s) :
    Settled stale (s.removeUnit p) := by
  have hremoved : Settled stale (s.remove s.world.outside.readyOrder p) := by
    refine { h.emit (e := .remove p) trivial with
      agree := h.agree.dequeue _ h.ready_key, ready_key := ?_ }
    intro q cu hcu
    have hready : (s.compiler.readyCompilationUnits.erase p).lookup q = some cu := by
      rw [← Compiler.dequeue_ready s.world.outside.readyOrder p h.ready_key]
      exact hcu
    have hne : q ≠ p := by
      rintro rfl
      simp at hready
    rw [Finmap.lookup_erase_ne hne] at hready
    exact h.ready_key q cu hready
  exact hremoved.modifyWorld rfl

theorem applyChanges {changes : UnitChanges}
    (h : Settled (changes.added ++ changes.modified ++ changes.removed) s)
    (hknown : ∀ p ∈ changes.added ++ changes.modified,
      s.world.context.compilationUnits.lookup p ≠ none) :
    Settled [] (s.applyChanges changes) := by
  unfold Live.applyChanges
  refine Settled.modifyWorld ?_ rfl
  refine foldl (I := fun _ => True) (fun _ _ _ _ _ h => ⟨trivial, h.removeUnit⟩) trivial ?_
  rw [List.append_nil]
  -- compiling leaves the units alone, so all of them stay known
  refine foldl (I := fun s' => s'.world = s.world) ?_ rfl h
  intro s' stale p hp hworld hs'
  refine ⟨(compileUnit_world _ s' p).trans hworld, hs'.compileUnit _ ?_⟩
  intro hnone
  rw [hworld] at hnone
  exact absurd hnone (hknown p hp)

end Settled

end Live

/-- The units the compiler holds keep their objects as long as they keep their
commands. -/
def Compiler.SameObjects (c : Compiler) (old new : UnorderedMap String CompilationUnit) : Prop :=
  ∀ p ∈ old.keys, c.Holds p → ∀ oldCu ∈ old.lookup p, ∀ cu ∈ new.lookup p,
    oldCu.compilationCommandStr = cu.compilationCommandStr → oldCu.objFilePath = cu.objFilePath

instance (c : Compiler) (old new : UnorderedMap String CompilationUnit) :
    Decidable (c.SameObjects old new) :=
  inferInstanceAs (Decidable (∀ p ∈ old.keys, _))

/-- After a new reading only the modified and the removed units are stale. -/
theorem Agree.reread {w w' : LiveWorld} {c : Compiler} {new : UnorderedMap String CompilationUnit}
    (h : Agree w.objOf [] c)
    (hunits : w'.context.compilationUnits =
      carryDepfiles w.outside w.context.compilationUnits new)
    (hsame : c.SameObjects w.context.compilationUnits w'.context.compilationUnits) :
    Agree w'.objOf ((diffUnits w.outside w.context.compilationUnits new).modified ++
      (diffUnits w.outside w.context.compilationUnits new).removed) c := by
  refine h.change ?_
  intro p o hholds hnot hobj
  rw [List.mem_append, mem_diffUnits_modified, mem_diffUnits_removed, not_or] at hnot
  obtain ⟨hmodified, hremoved⟩ := hnot
  rw [LiveWorld.objOf_eq_lookup] at hobj
  obtain ⟨oldCu, hold, rfl⟩ := Option.map_eq_some_iff.mp hobj
  have hmem : p ∈ w.context.compilationUnits := Finmap.mem_of_lookup_eq_some hold
  obtain ⟨newCu, hnew⟩ := Option.ne_none_iff_exists'.mp fun hnone => hremoved ⟨hmem, hnone⟩
  -- carrying the depfile over changes nothing else
  have hcarried : unitsOf w'.context.compilationUnits p = some newCu.withoutDepfile := by
    rw [hunits, unitsOf_carryDepfiles, unitsOf, hnew]
    rfl
  obtain ⟨cu, hcu, heq⟩ := Option.map_eq_some_iff.mp hcarried
  have hcommand : oldCu.compilationCommandStr = cu.compilationCommandStr := by
    have hnewCommand : cu.compilationCommandStr = newCu.compilationCommandStr :=
      congrArg (fun cu => cu.compilationCommandStr) heq
    rw [hnewCommand]
    by_contra hne
    exact hmodified ⟨newCu, oldCu, hnew, hold, hne⟩
  rw [LiveWorld.objOf_eq_lookup, hcu, Option.map_some,
    hsame p (Finmap.mem_keys.mpr hmem) hholds oldCu hold cu hcu hcommand]

/-- The added and the modified units are known after a new reading. -/
theorem reread_known {w w' : LiveWorld} {new : UnorderedMap String CompilationUnit}
    (hunits : w'.context.compilationUnits =
      carryDepfiles w.outside w.context.compilationUnits new) {p : String}
    (hp : p ∈ (diffUnits w.outside w.context.compilationUnits new).added ++
      (diffUnits w.outside w.context.compilationUnits new).modified) :
    w'.context.compilationUnits.lookup p ≠ none := by
  have hnew : ∃ newCu, new.lookup p = some newCu := by
    rcases List.mem_append.mp hp with hp | hp
    · exact Finmap.mem_iff.mp (mem_diffUnits_added.mp hp).1
    · obtain ⟨cu, _, hcu, _⟩ := mem_diffUnits_modified.mp hp
      exact ⟨cu, hcu⟩
  obtain ⟨newCu, hnew⟩ := hnew
  intro hnone
  have hcarried : unitsOf w'.context.compilationUnits p = unitsOf new p := by
    rw [hunits, unitsOf_carryDepfiles]
  simp [unitsOf, hnone, hnew] at hcarried

namespace Live

/-- A new reading of `compile_commands.json` gives no other object to a unit that the
compiler holds and whose command stays the same. -/
def KeepsObjects (config : LiveConfig) (s : Live) : LiveCall → Prop
  | .dispatch out (.fileChanged filepath) =>
      s.world.context.inverseDependencies.lookup filepath = none →
        ∀ read ∈ (updateCompilationUnits config filepath (s.ask out).world).1,
          s.compiler.SameObjects s.world.context.compilationUnits
            read.1.context.compilationUnits
  | _ => True

instance (config : LiveConfig) (s : Live) : ∀ call, Decidable (s.KeepsObjects config call)
  | .dispatch _ (.fileChanged _) => inferInstanceAs (Decidable (_ → _))
  | .dispatch _ .tryReload | .fileAction .. | .tryReload | .write _ | .tick .. | .finish =>
      isTrue trivial

variable {d : Discipline} {s : Live}

namespace Settled

theorem onOtherFileChanged {config : LiveConfig} {filepath : String} (h : Settled [] s)
    (hsame : ∀ read ∈ (updateCompilationUnits config filepath s.world).1,
      s.compiler.SameObjects s.world.context.compilationUnits
        read.1.context.compilationUnits) :
    Settled [] (s.onOtherFileChanged config filepath).1 := by
  rcases onOtherFileChanged_cases config filepath s with
    ⟨logs, heq⟩ | ⟨w, changes, logs, hread, hcases⟩
  · rw [heq]
    exact h.emitLogs _
  · rcases updateCompilationUnits_cases hread with ⟨_, rfl, rfl⟩ | ⟨new, hkeyed, hw, rfl⟩
    · rcases hcases with ⟨hchanged, _⟩ | ⟨_, heq⟩
      · exact absurd hchanged (by simp [UnitChanges.changed])
      · rw [heq]
        exact Settled.act (Settled.act h rfl) rfl
    · have hunits := congrArg (fun w => w.context.compilationUnits) hw
      have hstale := h.agree.reread hunits (hsame _ hread)
      have hentered : Settled ((diffUnits s.world.outside s.world.context.compilationUnits
          new).modified ++ (diffUnits s.world.outside s.world.context.compilationUnits
          new).removed) (s.afterReading w logs) := by
        refine Settled.act (Settled.enter h ?_ hstale) rfl
        rw [hunits, unitsOf_carryDepfiles]
        exact hkeyed
      rcases hcases with ⟨_, heq⟩ | ⟨hunchanged, heq⟩
      · rw [heq]
        refine (hentered.mono ?_).applyChanges fun p hp => reread_known hunits hp
        rw [List.append_assoc]
        exact List.subset_append_right _ _
      · -- nothing was modified or removed, so nothing is stale
        obtain ⟨_, hmodified, hremoved⟩ := (UnitChanges.changed_eq_false_iff _).mp hunchanged
        rw [hmodified, hremoved] at hentered
        rw [heq]
        exact hentered

theorem onFileChanged {config : LiveConfig} {filepath : String} (h : Settled [] s)
    (hsame : s.world.context.inverseDependencies.lookup filepath = none →
      ∀ read ∈ (updateCompilationUnits config filepath s.world).1,
        s.compiler.SameObjects s.world.context.compilationUnits
          read.1.context.compilationUnits) :
    Settled [] (s.onFileChanged config filepath).1 := by
  unfold Live.onFileChanged
  split
  · refine List.foldlRecOn _ _ h ?_
    intro s hs p _
    exact (hs.mono (List.nil_subset _)).compileUnit _ fun _ => hs
  · rename_i hnone
    exact h.onOtherFileChanged (hsame hnone)

theorem dispatch {config : LiveConfig} {out : Outside} {event : LiveEvent} (h : Settled [] s)
    (hkeeps : s.KeepsObjects config (.dispatch out event)) :
    Settled [] ((s.ask out).dispatch config event) := by
  have hasked : Settled [] (s.ask out) := h.modifyWorld rfl
  cases event with
  | fileChanged filepath =>
      have hchanged := hasked.onFileChanged hkeeps
      rcases dispatch_fileChanged_cases config filepath (s.ask out) with ⟨_, h⟩ | ⟨_, h⟩
      · rw [h]
        exact hchanged.modifyWorld rfl
      · rw [h]
        exact hchanged.modifyWorld rfl
  | tryReload =>
      have hlinked : Settled [] (Session.link reloadCallback (s.ask out)) :=
        { hasked.emit (e := .link) trivial with
          agree := { hasked.agree with }, ready_key := hasked.ready_key }
      unfold Live.dispatch
      exact hlinked.modifyWorld rfl

/-! ### The parts of `update` -/

theorem tickFileWatcher (config : LiveConfig) (h : Settled [] s) :
    Settled [] (s.tickFileWatcher config) := by
  refine Settled.modifyWorld (h.act ?_) rfl
  unfold recreateFileWatcher
  dsimp only
  split <;> rfl

theorem beforePollLink (env : Environment) (hreached : Reached d s.compiler s.trace)
    (h : Settled [] s) : Settled [] (s.beforePollLink host d.config env) := by
  have hsteps := Session.beforePollLink_steps host env s hreached.coherent.running.key
    hreached.exclusive
  obtain ⟨⟨u, htrace, hu⟩, hunits⟩ :=
    Session.beforePollLink_extends (host_accepts h.keyed) d.config env s rfl
  have hagree : Agree s.world.objOf [] (s.beforePollLink host d.config env).compiler := by
    refine Agree.steps (u := u) ?_ hreached.coherent (fun x hx => (hu x hx).1) h.agree
    rw [← htrace]
    exact hsteps
  have hafter : Reached d _ _ := hreached.trans hsteps
  exact
    { keyed := hunits ▸ h.keyed
      agree := by
        rw [LiveWorld.objOf_congr hunits]
        exact hagree
      ready_key := hafter.coherent.ready_key
      loads := by
        rw [htrace]
        exact Always.append (fun x hx t => .of_noReload (hu x hx).2) h.loads }

/-- At the end of a link the callback finds the units that were linked, with the objects
that were linked. -/
theorem reportLink {sourceFilePaths : List String} (callback : LinkFinishCallback) (status : ℤ)
    (libPath err : String) (hreached : Reached d s.compiler s.trace) (hedit : d.editGuarded)
    (hlink : s.compiler.runningLinkTask ≠ none) (hsources : ListsReady s.compiler sourceFilePaths)
    (h : Settled [] s) :
    Settled [] (s.callback (.linkFinished callback status libPath sourceFilePaths err)
      (host.linkFinished callback status libPath sourceFilePaths err)) := by
  obtain ⟨hpending, hrunning, start, hstart, hready⟩ := hreached.quiet hedit hlink
  have hobjects := knownUnits_objects (w := s.world)
    (fun p => mem_of_listsReady (p := p) hreached.coherent hsources)
    fun p cu hcu => h.agree.ready_expected hpending hrunning hcu
  have hunits := host_linkFinished_units callback status libPath sourceFilePaths err s.world
  have hworld := Session.callback_world
    (.linkFinished callback status libPath sourceFilePaths err)
    (host.linkFinished callback status libPath sourceFilePaths err) s
  refine ⟨?_, ?_, ?_, Session.always_callback h.loads trivial ?_⟩
  · rw [hworld, hunits]
    exact h.keyed
  · rw [hworld, LiveWorld.objOf_congr (congrArg unitsOf hunits), Session.callback_compiler]
    exact h.agree
  · rw [Session.callback_compiler]
    exact h.ready_key
  · intro e he t ht
    cases callback with
    | none => simp [host] at he
    | some n =>
        refine loadCode_loadsLinked _ ?_ e he
        have hkept : (history t).linkStart = some start := by
          rw [ht, ← hstart, History.next]
          split <;> rfl
        rw [hkept, hobjects, Option.map_some, Compiler.readyObjects, Compiler.readyObjects, hready]

theorem resetLink (status : ℤ) (h : Settled [] s) :
    Settled [] ((s.modify fun c =>
      { c with
        runningLinkTask := none
        readyCompilationUnits := if status = 0 then ∅ else c.readyCompilationUnits }).emit
      (.linkTaskReset status)) := by
  refine Settled.emit ⟨h.keyed, h.agree.finishLink status, ?_, h.loads⟩ trivial
  intro p cu hcu
  dsimp only [Session.modify_compiler] at hcu
  split at hcu
  · simp at hcu
  · exact h.ready_key p cu hcu

theorem pollLink (env : Environment) (hreached : Reached d s.compiler s.trace)
    (hedit : d.editGuarded) (h : Settled [] s) : Settled [] (s.pollLink host env) := by
  rcases Session.pollLink_cases host env s with
    hpoll | ⟨task, _, status, err, s₁, htask, _, hcompiler, hsteps, hloaded, hpoll⟩
  · rw [hpoll]
    exact h
  · have hsettled : Settled [] s₁ := by
      obtain ⟨⟨u, htrace, hu⟩, hworld⟩ := hloaded
      refine ⟨hworld ▸ h.keyed, ?_, ?_, ?_⟩
      · rw [hworld, hcompiler]
        exact h.agree
      · rw [hcompiler]
        exact h.ready_key
      · rw [htrace]
        exact Always.append (fun x hx t => .of_noReload (hu x hx).noReload) h.loads
    rw [hpoll]
    refine Settled.resetLink _ (Settled.reportLink _ _ _ _ (hreached.trans (hsteps d)) hedit ?_
      ⟨env.readyOrder, rfl⟩ hsettled)
    rw [hcompiler, htask]
    simp

theorem poll (env : Environment) (hreached : Reached d s.compiler s.trace)
    (hedit : d.editGuarded) (h : Settled [] s) : Settled [] (s.poll d.config env) := by
  have hticked : Reached d (s.tickFileWatcher d.config).compiler
      (s.tickFileWatcher d.config).trace := hreached.trans (tickFileWatcher_steps d.config s)
  have hwatched := h.tickFileWatcher d.config
  have hsteps := Session.beforePollLink_steps host env (s.tickFileWatcher d.config)
    hticked.coherent.running.key hticked.exclusive
  have hupdated : Settled [] ((s.tickFileWatcher d.config).update host d.config env) := by
    rw [Session.update_eq]
    exact (hwatched.beforePollLink env hticked).pollLink env (hticked.trans hsteps) hedit
  unfold Live.poll
  exact hupdated.modifyWorld rfl

/-! ### Initialization -/

/-- The initialization, while the compiler holds nothing. -/
theorem initRule (config : LiveConfig) :
    InitRule config fun s => s.compiler = {} ∧ Settled [] s where
  emitLogs _ l h := ⟨by simpa using h.1, h.2.emitLogs l⟩
  generateDatabase s h := by
    refine ⟨by simpa using h.1, h.2.act ?_⟩
    unfold LiveWorld.generateDatabase
    split <;> rfl
  enterUnits s filepath units hkeyed h := by
    refine ⟨by simpa using h.1, h.2.enter hkeyed ?_⟩
    rw [h.1]
    exact Agree.initial _
  updateDirectoryFilters _ h := ⟨by simpa using h.1, h.2.act rfl⟩
  updateDependenciesOf _ p h :=
    ⟨by simpa using h.1, h.2.act (LiveWorld.unitsOf_updateDependenciesOf h.2.keyed p)⟩
  setupFileWatcher _ h := ⟨by simpa using h.1, h.2.act rfl⟩
  loadProgram s path h := by
    refine ⟨by simpa using h.1, h.2.act ?_⟩
    unfold LiveWorld.loadProgram
    dsimp only
    split <;> rfl
  loadExportedSymbols _ h := ⟨by simpa using h.1, h.2.act rfl⟩

theorem create {config : LiveConfig} {filepath : String} {out : Outside}
    {memory : ProcessMemory} (h : Live.create config filepath out memory = some s) :
    Settled [] s := by
  have hempty : Settled [] { world := { outside := out, memory } } :=
    ⟨collectUnits_keyed [], Agree.initial _, by simp, always_nil _⟩
  exact ((initRule config).create ⟨rfl, hempty⟩ h).2

end Settled

end Live

theorem LiveRun.settled {config : LiveConfig} {s : Live}
    (h : LiveRun config (Live.KeepsObjects config) s) : s.Settled [] := by
  induction h with
  | start filepath out memory hs => exact Live.Settled.create hs
  | @call s hrun call _ hcall ih =>
      cases call with
      | fileAction directory filename =>
          unfold Live.perform Live.fileAction
          refine ih.modifyWorld ?_
          split <;> rfl
      | tryReload =>
          unfold Live.perform Live.tryReload
          exact (ih.emitLogs _).modifyWorld rfl
      | write memory =>
          unfold Live.perform
          exact ih.modifyWorld rfl
      | tick out env =>
          obtain ⟨hreached, _⟩ := hrun.reached_gated
          have hasked : (s.ask out).Settled [] := ih.modifyWorld rfl
          exact hasked.poll (d := .gated config) env hreached trivial
      | dispatch out event => exact ih.dispatch hcall
      | finish =>
          unfold Live.perform
          exact ih.modifyWorld rfl

/-- In a run in which no new reading of `compile_commands.json` moves the object of a unit
that the compiler holds, every reload reads the objects that were linked. A link is
started with nothing pending and nothing running and with the objects of the ready units,
and these stay the same until its callback gets their sources. -/
theorem LiveRun.loads_linked {config : LiveConfig} {s : Live}
    (hlinker : config.linkerType ≠ .kUnknown)
    (h : LiveRun config (Live.KeepsObjects config) s) :
    Always LinkPhase s.trace ∧ Quiet s.compiler (history s.trace) ∧
      Always LoadsLinked s.trace := by
  obtain ⟨hreached, _⟩ := h.reached_gated
  exact ⟨hreached.linkPhase trivial hlinker, hreached.quiet trivial, h.settled.loads⟩

/-- One unit, compiled in the given directory to an object with a relative path. -/
def unitIn (directory : String) : List CompileCommand := [⟨"a.o", directory, "/p/a.cpp"⟩]

/-- The unit is edited and compiled, the units are read again with the given directory,
and then a reload is requested and its link succeeds. -/
def reloadAfterReread (directory : String) : Live :=
  let old := Outside.ofCommands (unitIn "/b1")
  let new := Outside.ofCommands (unitIn directory)
  let linked := { Environment.finished "" 0 with linkExitStatus := some (0, "") }
  .after (unitIn "/b1") [.fileAction "/p/" "a.cpp", .tick old (.finished "" 0),
    .dispatch old (.fileChanged "/p/a.cpp"), .finish, .tick old (.finished "" 0), .finish,
    .fileAction "/p/" "compile_commands.json", .tick new (.finished "/p/a.cpp" 0),
    .dispatch new (.fileChanged "/p/compile_commands.json"), .tryReload,
    .dispatch new .tryReload, .finish, .tick new (.finished "" 0), .tick new linked]

/-- The second reading finds the unit where it was, and one reload has read its object. -/
theorem reloadAfterReread_loads_linked :
    ((reloadAfterReread "/b1").world.context.programs.map fun program =>
        program.objFilePaths) = [["/b1/a.o"]] ∧
      Always LinkPhase (reloadAfterReread "/b1").trace ∧
      Quiet (reloadAfterReread "/b1").compiler (history (reloadAfterReread "/b1").trace) ∧
      Always LoadsLinked (reloadAfterReread "/b1").trace := by
  have hrun : LiveRun {} (Live.KeepsObjects {}) (reloadAfterReread "/b1") :=
    (LiveRun.started _ (unitIn "/b1")).calls _ (by decide +kernel)
  exact ⟨by decide +kernel, LiveRun.loads_linked (by decide) hrun⟩

/-- The second reading moves the object of the unit: the object in the old directory is
linked and the one in the new directory is read. -/
theorem reloadAfterReread_not_loads_linked :
    LiveRun {} (fun _ _ => True) (reloadAfterReread "/b2") ∧
      ¬ Always LoadsLinked (reloadAfterReread "/b2").trace :=
  ⟨(LiveRun.started _ (unitIn "/b1")).calls _ (by decide +kernel), by decide +kernel⟩

end JetLive
