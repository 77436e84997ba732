import JetLive.Compiler.CommandLines
import JetLive.Compiler.Requests
import JetLive.Library.Walk
import JetLive.Live.Maps

/-!
# The depfile that is written and the depfile that is read

A compilation gets the depfile of its unit on the command line, and `getDependencies` opens the
depfile of the unit when the dependencies are needed. In between the units may be read again. The
path is the same string in both places, since a unit keeps its depfile until it is removed
(`DepfilesKept`).

But the compiler runs in the directory of the unit, and the library opens the file in the working
directory of the process. A relative path denotes the same file in both directories only if it
climbs to a common ancestor of them. The path stands on the command line without quotes, so it has
to be a word for the shell. And the callback of the compilation has a reference to the unit in the
map that a new reading replaces: after that it may open the depfile of another unit.
-/

namespace JetLive

open Containers EventTrace TeenyPath Walks

/-! ## The file of a path -/

/-- What a component of a path means. -/
def moveOf (component : Path) : Move Path :=
  if component = [] ∨ component = ['.'] then .stay
  else if component = ['.', '.'] then .up
  else .down component

def moves (p : Path) : List (Move Path) := (p.splitOn '/').map moveOf

/-- How many directories a path climbs up from where it starts. -/
def climbs (p : Path) : ℕ := (course (moves p)).climbs

variable {config : LiveConfig} {w w' : LiveWorld} {cu : CompilationUnit}

theorem findDepfile_of_ne {fs : FileSystem} (h : cu.depFilePath ≠ "") :
    findDepfile fs cu = cu := by
  simp [findDepfile, h]

theorem getDependencies_fst (fs : FileSystem) (dirFilters : Finset String)
    (cu : CompilationUnit) : (getDependencies fs dirFilters cu).1 = findDepfile fs cu := by
  unfold getDependencies
  dsimp only
  split
  · split <;> rfl
  · split <;> rfl

theorem exists_of_isAbsolute {p : Path} (h : isAbsolute p = true) : ∃ c r, p = '/' :: c :: r := by
  unfold isAbsolute at h
  split at h
  · exact ⟨_, _, rfl⟩
  · exact ⟨_, _, rfl⟩
  · exact absurd h (by simp)

section FoundDepfiles

variable {out : Outside} {cmd : CompileCommand}
  (hrealpath : ∀ p r, out.fs.realpath p = some r → r.toList.head? = some '/')
  (haccess : out.fs.access "" = false)

include hrealpath haccess

theorem exists_resolveAbsolute {p : Path} (h : pathExists out.fs p = true) :
    ∃ r, resolveAbsolute out.fs p = '/' :: r := by
  rw [pathExists] at h
  unfold resolveAbsolute at h ⊢
  by_cases hp : isAbsolute p = true
  · rw [if_pos hp]
    obtain ⟨c, r, rfl⟩ := exists_of_isAbsolute hp
    exact ⟨_, rfl⟩
  · rw [if_neg hp] at h ⊢
    cases hr : out.fs.realpath (String.ofList p) with
    | none => simp [hr, haccess] at h
    | some r => exact List.head?_eq_some_iff.mp (hrealpath _ r hr)

/-- The object file of an entry has an absolute path. -/
theorem exists_objFilePath (h : (parseEntry out cmd).1 = some cu) :
    ∃ c r, cu.objFilePath.toList = '/' :: c :: r := by
  unfold parseEntry at h
  split at h
  · exact absurd h (by simp)
  rename_i hdirectory
  obtain ⟨dir, hdir⟩ := exists_resolveAbsolute hrealpath haccess (not_not.mp hdirectory)
  extract_lets dirPath sourceFilePath resolved at h
  split at h
  · exact absurd h (by simp)
  split at h
  · exact absurd h (by simp)
  split at h
  · exact absurd h (by simp)
  rename_i parser _ houtput
  extract_lets objFilePath unit at h
  have hobj : ∃ c r, objFilePath = '/' :: c :: r := by
    unfold objFilePath
    split
    · exact exists_of_isAbsolute ‹_›
    · have hne : parser.output.toList ≠ [] := fun heq => houtput (String.toList_eq_nil_iff.mp heq)
      obtain ⟨c, r, heq⟩ := List.exists_cons_of_ne_nil hne
      have hdirPath : dirPath = '/' :: dir := hdir
      rw [hdirPath, heq, append, if_neg (List.cons_ne_nil c r)]
      split
      · cases dir <;> exact ⟨_, _, rfl⟩
      · cases dir <;> exact ⟨_, _, rfl⟩
  split at h
  · obtain rfl := Option.some.inj h
    rwa [← String.toList_ofList (l := objFilePath)] at hobj
  · exact absurd h (by simp)

/-- For an entry without a depfile an absolute path is found, if any. -/
theorem findDepfile_of_parseEntry (h : (parseEntry out cmd).1 = some cu)
    (hempty : cu.depFilePath = "") (fs : FileSystem) :
    (findDepfile fs cu).depFilePath = "" ∨
      (findDepfile fs cu).depFilePath.toList.head? = some '/' := by
  obtain ⟨c, r, hobj⟩ := exists_objFilePath hrealpath haccess h
  unfold findDepfile
  dsimp only
  split
  · rw [if_neg (by simp)]
    exact .inr (by simp [hobj])
  · split
    · exact .inr (by simp [hobj])
    · exact .inl hempty

end FoundDepfiles

/-- The unit of the same source has the same depfile, if there was one. -/
def LiveWorld.KeepsDepfile (w : LiveWorld) (cu : CompilationUnit) : Prop :=
  cu.depFilePath ≠ "" → ∃ cu', w.context.compilationUnits.lookup cu.sourceFilePath = some cu' ∧
    cu'.depFilePath = cu.depFilePath

theorem LiveWorld.keepsDepfile_of_lookup (hkeyed : UnitsKeyed (unitsOf w.context.compilationUnits))
    {p : String} (hcu : w.context.compilationUnits.lookup p = some cu) : w.KeepsDepfile cu := by
  intro _
  rw [sourceFilePath_of_lookup hkeyed hcu]
  exact ⟨cu, hcu, rfl⟩

theorem LiveWorld.KeepsDepfile.congr (h : w.KeepsDepfile cu)
    (hunits : w'.context.compilationUnits = w.context.compilationUnits) : w'.KeepsDepfile cu := by
  unfold LiveWorld.KeepsDepfile
  rwa [hunits]

theorem LiveWorld.KeepsDepfile.updateDependenciesOf (h : w.KeepsDepfile cu)
    (hkeyed : UnitsKeyed (unitsOf w.context.compilationUnits)) (p : String) :
    (w.updateDependenciesOf p).1.KeepsDepfile cu := by
  intro hne
  obtain ⟨cu', hcu', hdepfile⟩ := h hne
  cases hlookup : w.context.compilationUnits.lookup p with
  | none =>
      refine ⟨cu', ?_, hdepfile⟩
      rw [LiveWorld.updateDependenciesOf, hlookup]
      exact hcu'
  | some unit =>
      have hpath := sourceFilePath_of_lookup hkeyed hlookup
      rw [LiveWorld.updateDependenciesOf_context hlookup, updateDependencies]
      by_cases hp : cu.sourceFilePath = unit.sourceFilePath
      · obtain rfl : cu' = unit := by
          rw [hp, hpath, hlookup] at hcu'
          exact (Option.some.inj hcu').symm
        refine ⟨_, by rw [hp]; exact Finmap.lookup_insert _, ?_⟩
        rw [getDependencies_fst, findDepfile_of_ne (by rwa [hdepfile]), hdepfile]
      · exact ⟨cu', (Finmap.lookup_insert_of_ne _ hp).trans hcu', hdepfile⟩

/-- Without a new reading every unit keeps its depfile. -/
theorem MapStep.keepsDepfile (h : MapStep config (fun _ _ => False) w w')
    (hkeyed : UnitsKeyed (unitsOf w.context.compilationUnits)) (hcu : w.KeepsDepfile cu) :
    w'.KeepsDepfile cu := by
  cases h with
  | keep hsame _ => exact hcu.congr hsame.units
  | dependencies p => exact hcu.updateDependenciesOf hkeyed p
  | watch => exact hcu.congr rfl
  | unwatch => exact hcu.congr rfl
  | reread _ _ _ hR => exact hR.elim
  | remove p _ => exact hcu.congr rfl

theorem MapSteps.keepsDepfile (h : MapSteps config (fun _ _ => False) w w')
    (hkeyed : UnitsKeyed (unitsOf w.context.compilationUnits)) (hcu : w.KeepsDepfile cu) :
    UnitsKeyed (unitsOf w'.context.compilationUnits) ∧ w'.KeepsDepfile cu := by
  refine MapSteps.invariant (J := fun w => UnitsKeyed (unitsOf w.context.compilationUnits) ∧
    w.KeepsDepfile cu) ?_ h ⟨hkeyed, hcu⟩
  rintro w w' hstep ⟨hkeyed, hcu⟩
  exact ⟨hstep.keyed hkeyed, hstep.keepsDepfile hkeyed hcu⟩

section CarriedDepfiles

variable {out : Outside} {old new res : UnorderedMap String CompilationUnit} {p : String}
  {oldCu newCu : CompilationUnit}

theorem lookup_carryDepfile (hold : old.lookup p = some oldCu) (hne : oldCu.depFilePath ≠ "")
    (hres : res.lookup p = some newCu) (q : String) :
    (carryDepfile old res q).lookup p =
      some (if q = p then { newCu with depFilePath := oldCu.depFilePath } else newCu) := by
  by_cases hq : q = p
  · subst hq
    rw [if_pos rfl, carryDepfile, hres, hold]
    simp [hne]
  · rw [if_neg hq, ← hres]
    unfold carryDepfile
    split
    · split
      · rfl
      · exact Finmap.lookup_insert_of_ne _ (Ne.symm hq)
    · rfl

theorem lookup_foldl_carryDepfile (hold : old.lookup p = some oldCu)
    (hne : oldCu.depFilePath ≠ "") (hres : res.lookup p = some newCu) (l : List String) :
    (l.foldl (carryDepfile old) res).lookup p =
      some (if p ∈ l then { newCu with depFilePath := oldCu.depFilePath } else newCu) := by
  induction l generalizing res newCu with
  | nil => simpa using hres
  | cons q l ih =>
      rw [List.foldl_cons, ih (lookup_carryDepfile hold hne hres q)]
      by_cases hq : p = q <;> by_cases hp : p ∈ l <;> simp [hq, hp, eq_comm (a := q)]

/-- A unit keeps its depfile over a new reading. -/
theorem lookup_carryDepfiles (hold : old.lookup p = some oldCu) (hne : oldCu.depFilePath ≠ "")
    (hnew : new.lookup p = some newCu) :
    (carryDepfiles out old new).lookup p =
      some { newCu with depFilePath := oldCu.depFilePath } := by
  rw [carryDepfiles, lookup_foldl_carryDepfile hold hne hnew, if_pos]
  rw [Iteration.mem_toList, Finmap.mem_keys]
  exact Finmap.mem_of_lookup_eq_some hnew

end CarriedDepfiles

/-- A new reading keeps the depfiles of all units but the removed ones. -/
theorem LiveWorld.KeepsDepfile.reread {new : UnorderedMap String CompilationUnit}
    (h : w.KeepsDepfile cu)
    (hw : w'.context.compilationUnits =
      carryDepfiles w.outside w.context.compilationUnits new)
    (hremoved : cu.sourceFilePath ∉
      (diffUnits w.outside w.context.compilationUnits new).removed) : w'.KeepsDepfile cu := by
  intro hne
  obtain ⟨oldCu, hold, hdepfile⟩ := h hne
  rw [mem_diffUnits_removed, not_and] at hremoved
  obtain ⟨newCu, hnew⟩ := Option.ne_none_iff_exists'.mp
    (hremoved (Finmap.mem_of_lookup_eq_some hold))
  refine ⟨{ newCu with depFilePath := oldCu.depFilePath }, ?_, hdepfile⟩
  rw [hw, lookup_carryDepfiles hold (by rwa [hdepfile]) hnew]

/-! ## The invariant -/

theorem Event.Loading.keepsRequests {exitStatus : ℤ} {e : Event} (h : e.Loading exitStatus) :
    e.KeepsRequests := by
  cases e with
  | compile => exact h
  | remove => exact h
  | _ => trivial

namespace Live

open Session

/-- The units are stored under their paths, and the requested ones have kept their depfiles, but for
the stale sources. -/
structure DepfilesKept (stale : List String) (s : Live) : Prop where
  keyed : UnitsKeyed (unitsOf s.world.context.compilationUnits)
  kept : ∀ cu, Requested cu s.trace → cu.sourceFilePath ∉ stale → s.world.KeepsDepfile cu

/-- Nothing is requested or removed, and the units are not read again. -/
abbrev KeepsRequests (config : LiveConfig) (s s' : Live) : Prop :=
  Extends (fun _ e => e.KeepsRequests) (MapSteps config (fun _ _ => False) s.world) s s'

variable {d : Discipline} {stale : List String} {s s' : Live}

namespace DepfilesKept

theorem grow (h : DepfilesKept stale s) (hs' : KeepsRequests config s s') :
    DepfilesKept stale s' := by
  obtain ⟨⟨u, htrace, hu⟩, hsteps⟩ := hs'
  refine ⟨hsteps.invariant (fun _ _ hstep => hstep.keyed) h.keyed, fun cu hcu hstale => ?_⟩
  rw [htrace, requested_append_iff hu] at hcu
  exact (hsteps.keepsDepfile h.keyed (h.kept cu hcu hstale)).2

theorem emitLogs (h : DepfilesKept stale s) (l : List LogEntry) :
    DepfilesKept stale (s.emitLogs l) := by
  have hlogs : KeepsRequests {} s (s.emitLogs l) :=
    (Extends.refl .refl).emitLogs (fun _ _ => trivial) l
  exact h.grow hlogs

/-- Other units take over. -/
theorem enter {stale' : List String} {f : LiveWorld → LiveWorld × List LogEntry}
    (h : DepfilesKept stale s)
    (hkeyed : UnitsKeyed (unitsOf (f s.world).1.context.compilationUnits))
    (hf : ∀ cu, cu.sourceFilePath ∉ stale' → cu.sourceFilePath ∉ stale ∧
      (s.world.KeepsDepfile cu → (f s.world).1.KeepsDepfile cu)) :
    DepfilesKept stale' (s.act f) := by
  refine ⟨hkeyed, fun cu hcu hstale => ?_⟩
  obtain ⟨hstale, hkeeps⟩ := hf cu hstale
  have hkept := (h.emitLogs (f s.world).2).kept cu hcu hstale
  rw [Session.emitLogs_world] at hkept
  exact hkeeps hkept

theorem modifyWorld {f : LiveWorld → LiveWorld} (h : DepfilesKept stale s)
    (hf : (f s.world).context.compilationUnits = s.world.context.compilationUnits) :
    DepfilesKept stale (s.modifyWorld f) :=
  ⟨hf ▸ h.keyed, fun cu hcu hstale => (h.kept cu hcu hstale).congr hf⟩

theorem act {f : LiveWorld → LiveWorld × List LogEntry} (h : DepfilesKept stale s)
    (hf : (f s.world).1.context.compilationUnits = s.world.context.compilationUnits) :
    DepfilesKept stale (s.act f) :=
  h.enter (hf ▸ h.keyed) fun _ hstale => ⟨hstale, fun hcu => hcu.congr hf⟩

/-! ### File events -/

theorem compileUnit (complaint : String) (p : String) (h : DepfilesKept stale s) :
    DepfilesKept stale (s.compileUnit complaint p) := by
  unfold Live.compileUnit
  split
  · rename_i unit hunit
    refine ⟨h.keyed, fun cu hcu hstale => ?_⟩
    rcases hcu with rfl | hcu
    · exact LiveWorld.keepsDepfile_of_lookup h.keyed hunit
    · exact h.kept cu hcu hstale
  · exact h.emitLogs _

theorem foldl_compileUnit (complaint : String) (l : List String) (h : DepfilesKept stale s) :
    DepfilesKept stale (l.foldl (Live.compileUnit complaint) s) :=
  List.foldlRecOn l _ h fun _ hs p _ => hs.compileUnit complaint p

theorem removeUnit {p : String} (h : DepfilesKept (p :: stale) s) :
    DepfilesKept stale (s.removeUnit p) := by
  refine ⟨h.keyed, fun cu hcu hstale => ?_⟩
  obtain ⟨hne, hcu⟩ := hcu
  refine LiveWorld.KeepsDepfile.congr (h.kept cu hcu ?_) rfl
  rw [List.mem_cons, not_or]
  exact ⟨hne.symm, hstale⟩

theorem foldl_removeUnit {l : List String} (h : DepfilesKept l s) :
    DepfilesKept [] (l.foldl Live.removeUnit s) := by
  induction l generalizing s with
  | nil => exact h
  | cons p l ih => exact ih h.removeUnit

theorem applyChanges {changes : UnitChanges} (h : DepfilesKept changes.removed s) :
    DepfilesKept [] (s.applyChanges changes) := by
  unfold Live.applyChanges
  exact (h.foldl_compileUnit _ _).foldl_removeUnit.modifyWorld rfl

theorem afterReading {filepath : String} {w : LiveWorld} {changes : UnitChanges}
    (h : DepfilesKept [] s)
    (hread : (updateCompilationUnits config filepath s.world).1 = some (w, changes))
    (logs : List LogEntry) : DepfilesKept changes.removed (s.afterReading w logs) := by
  unfold Live.afterReading
  rcases updateCompilationUnits_cases hread with ⟨_, rfl, rfl⟩ | ⟨new, hkeyed, rfl, rfl⟩
  · exact DepfilesKept.act (DepfilesKept.act h rfl) rfl
  · refine DepfilesKept.act (h.enter ?_ fun cu hcu => ⟨List.not_mem_nil, fun hkept => ?_⟩) rfl
    · rw [unitsOf_carryDepfiles]
      exact hkeyed
    · exact hkept.reread rfl hcu

theorem onOtherFileChanged {filepath : String} (h : DepfilesKept [] s) :
    DepfilesKept [] (s.onOtherFileChanged config filepath).1 := by
  rcases onOtherFileChanged_cases config filepath s with
    ⟨logs, heq⟩ | ⟨w, changes, logs, hread, ⟨_, heq⟩ | ⟨hunchanged, heq⟩⟩
  · rw [heq]
    exact h.emitLogs _
  · rw [heq]
    exact (h.afterReading hread logs).applyChanges
  · have hentered := h.afterReading hread logs
    rw [((UnitChanges.changed_eq_false_iff changes).mp hunchanged).2.2] at hentered
    rw [heq]
    exact hentered

theorem onFileChanged {filepath : String} (h : DepfilesKept [] s) :
    DepfilesKept [] (s.onFileChanged config filepath).1 := by
  unfold Live.onFileChanged
  split
  · exact h.foldl_compileUnit _ _
  · exact h.onOtherFileChanged

theorem dispatch {event : LiveEvent} (h : DepfilesKept [] s) :
    DepfilesKept [] (s.dispatch config event) := by
  cases event with
  | fileChanged filepath =>
      have hchanged : DepfilesKept [] (s.onFileChanged config filepath).1 := h.onFileChanged
      rcases dispatch_fileChanged_cases config filepath s with ⟨_, heq⟩ | ⟨_, heq⟩
      · rw [heq]
        exact hchanged.modifyWorld rfl
      · rw [heq]
        exact hchanged.modifyWorld rfl
  | tryReload =>
      have hlinked : KeepsRequests config s (Session.link reloadCallback s) :=
        (Extends.emit (.refl .refl) trivial).modify _
      unfold Live.dispatch
      exact (h.grow hlinked).modifyWorld rfl

/-! ### The parts of `update` -/

theorem stable (config : LiveConfig) : Stable host (DepfilesKept []) where
  emit s e he h := by
    have hemitted : KeepsRequests config s (s.emit e) :=
      Extends.emit (.refl .refl) (by cases e <;> first | exact he.elim | trivial)
    exact h.grow hemitted
  modify s f h := ⟨h.keyed, h.kept⟩
  unit s name unit hunit h := by
    refine ⟨h.keyed, fun cu hcu hstale => ?_⟩
    rcases hcu with rfl | hcu
    · obtain ⟨p, hp⟩ := exists_lookup_of_ownerUnit hunit
      exact LiveWorld.keepsDepfile_of_lookup h.keyed hp
    · exact h.kept cu hcu hstale
  compileFinished s callback status path err h := by
    have hcalled : KeepsRequests config s (s.callback (.compileFinished callback status path err)
        (host.compileFinished callback status path err)) :=
      Extends.callback (.refl .refl) trivial
        (host_compileFinished_mapSteps callback status path err s.world) fun _ _ => trivial
    exact h.grow hcalled
  linkRefused s callback h := by
    have hcalled : KeepsRequests config s (s.callback (.linkRefused callback)
        (host.linkFinished callback 125 "" [] "")) :=
      Extends.callback (.refl .refl) trivial
        (host_linkFinished_mapSteps callback 125 "" [] "" s.world) fun _ _ => trivial
    exact h.grow hcalled

theorem pollLink (env : Environment) (h : DepfilesKept [] s) :
    DepfilesKept [] (s.pollLink host env) := by
  have hpolled : KeepsRequests {} s (s.pollLink host env) := by
    refine ⟨?_, pollLink_mapSteps env s⟩
    rcases Session.pollLink_cases host env s with
      heq | ⟨task, exitStatus, status, err, s₁, _, _, _, _, ⟨⟨u, htrace, hu⟩, _⟩, heq⟩
    · rw [heq]
      exact ⟨[], rfl, by simp⟩
    · have hloaded : Extends (fun _ e => e.KeepsRequests) (fun _ => True) s s₁ :=
        ⟨⟨u, htrace, fun x hx => (hu x hx).keepsRequests⟩, trivial⟩
      rw [heq]
      refine (Extends.emit (Extends.modify (hloaded.callback ?_ ?_ ?_) _) ?_).1
      · trivial
      · trivial
      · exact fun _ _ => trivial
      · trivial
  exact h.grow hpolled

theorem poll (env : Environment) (h : DepfilesKept [] s) :
    DepfilesKept [] (s.poll config env) := by
  have hrecorded : Extends (fun _ e => e.KeepsRequests) (fun _ => True) s
      (s.tickFileWatcher config) :=
    Extends.modifyWorld (Extends.act (.refl trivial) (fun _ _ => trivial) fun _ => trivial)
      fun _ => trivial
  have hticked : KeepsRequests config s (s.tickFileWatcher config) :=
    ⟨hrecorded.1, tickFileWatcher_mapSteps s⟩
  have hupdated := ((stable config).beforePollLink config env _ (h.grow hticked)).pollLink env
  unfold Live.poll
  exact hupdated.modifyWorld rfl

theorem create {filepath : String} {out : Outside} {memory : ProcessMemory}
    (h : Live.create config filepath out memory = some s)
    (hkeyed : UnitsKeyed (unitsOf s.world.context.compilationUnits)) : DepfilesKept [] s := by
  obtain ⟨⟨u, htrace, hu⟩, _⟩ := create_logs h
  refine ⟨hkeyed, fun cu hcu _ => ?_⟩
  rw [htrace, requested_append_iff] at hcu
  · exact hcu.elim
  · intro x hx
    obtain ⟨entry, hentry⟩ := hu x hx
    rw [hentry]
    trivial

end DepfilesKept

end Live

/-- The compiler was in the state `c`, and the source has not been removed since. -/
def Live.KeptSince (s : Live) (p : String) (c : Compiler) : Prop :=
  c = s.compiler ∨ ∃ u e t, s.trace = u ++ (c, e) :: t ∧ ∀ x ∈ u ++ [(c, e)], x.2 ≠ .remove p

/-- Every compilation was started for a requested unit. -/
theorem LiveRun.exists_requested {P : Live → LiveCall → Prop} {s : Live}
    (h : LiveRun config P s) {p : String} {c : Compiler} {task : Task}
    (hsince : s.KeptSince p c) (htask : c.runningCompilationTasks.lookup p = some task) :
    ∃ unit callback, Requested unit s.trace ∧ unit.sourceFilePath = p ∧
      task = compilationTask unit callback := by
  obtain ⟨hholds, halways⟩ := h.reached_gated.1.holdsRequested
  rcases hsince with rfl | ⟨u, e, t, htrace, hkept⟩
  · exact hholds.running p task htask
  · have hthen : HoldsRequested c t := halways c e t (htrace ▸ List.suffix_append _ _)
    obtain ⟨unit, callback, hunit, rfl, heq⟩ := hthen.running p task htask
    refine ⟨unit, callback, ?_, rfl, heq⟩
    rw [htrace, ← List.singleton_append, ← List.append_assoc]
    exact hunit.append hkept

end JetLive
