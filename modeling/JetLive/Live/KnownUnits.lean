import JetLive.Live.Agreement
import JetLive.Live.Gate
import JetLive.Live.Maps

/-!
# References to units

The compiler holds source paths on its own, and the context records the unit that exports
a symbol. A new reading of `compile_commands.json` replaces the units and leaves both to
the code that follows it. The compiler forgets the units that are gone, so it holds known
units only. The owners of exported symbols are not visited.
-/

namespace JetLive

open Containers

variable {config : LiveConfig} {R : LiveWorld → LiveWorld → Prop} {w w' : LiveWorld}

/-! ## What the compiler holds -/

def Live.HoldsKnown (s : Live) : Prop :=
  ∀ p, s.compiler.Holds p → p ∈ s.world.context.compilationUnits

namespace Live

open Session

variable {d : Discipline} {s s' : Live} {p : String}

/-- If known units are compiled, then what is held was held before or is known. -/
theorem holds_of_extends {P : Compiler → Event → Prop} {J : LiveWorld → Prop}
    (known : String → Prop) (hP : ∀ c cu, P c (.compile cu) → known cu.sourceFilePath)
    (hc : Coherent d s.compiler (history s.trace)) (hsteps : Steps d s.core s'.core)
    (hextends : Extends P J s s') (hp : s'.compiler.Holds p) : s.compiler.Holds p ∨ known p := by
  obtain ⟨u, htrace, hu⟩ := hsteps.holds hc
  obtain ⟨⟨v, htrace', hv⟩, _⟩ := hextends
  obtain rfl : u = v := List.append_cancel_right (htrace.symm.trans htrace')
  rcases hu p hp with hp | ⟨⟨c, e⟩, hx, cu, rfl, rfl⟩
  · exact Or.inl hp
  · exact Or.inr (hP c cu (hv _ hx))

/-! ### One tick -/

theorem HoldsKnown.beforePollLink (env : Environment) (hreached : Reached d s.compiler s.trace)
    (hkeyed : UnitsKeyed (unitsOf s.world.context.compilationUnits)) (hs : s.HoldsKnown) :
    Live.HoldsKnown (s.beforePollLink host d.config env) := by
  have hsteps := beforePollLink_steps host env s hreached.coherent.running.key hreached.exclusive
  have hextends := beforePollLink_extends (host_accepts hkeyed) d.config env s rfl
  intro p hp
  rw [mem_units_iff, hextends.2, ← mem_units_iff]
  refine (holds_of_extends (· ∈ s.world.context.compilationUnits) ?_ hreached.coherent hsteps
    hextends hp).elim (hs p) id
  intro c cu hcu
  rw [mem_units_iff]
  obtain ⟨cu', hcu', _⟩ := Option.map_eq_some_iff.mp hcu.1
  rw [hcu', Option.isSome_some]

/-- The end of a link leaves no more than was held before. -/
theorem holds_pollLink (env : Environment) (hp : (s.pollLink host env).compiler.Holds p) :
    s.compiler.Holds p := by
  rcases pollLink_cases host env s with
    h | ⟨task, _, status, err, s₁, _, _, hcompiler, _, _, h⟩
  · rw [h] at hp
    exact hp
  · rw [h, emit_compiler, modify_compiler, callback_compiler, hcompiler] at hp
    rcases hp with hpend | hrun | hready
    · exact Or.inl hpend
    · exact Or.inr (Or.inl hrun)
    · dsimp only at hready
      split at hready
      · exact absurd hready Finmap.notMem_empty
      · exact Or.inr (Or.inr hready)

theorem HoldsKnown.tickFileWatcher (hs : s.HoldsKnown)
    (hkeyed : UnitsKeyed (unitsOf s.world.context.compilationUnits)) :
    (s.tickFileWatcher config).HoldsKnown := by
  intro p hp
  have hsteps : MapSteps config (fun _ _ => False) s.world (s.tickFileWatcher config).world :=
    tickFileWatcher_mapSteps s
  rw [hsteps.mem_units_iff hkeyed]
  refine hs p ?_
  simpa [Live.tickFileWatcher] using hp

theorem HoldsKnown.pollLink (env : Environment) (hs : s.HoldsKnown)
    (hkeyed : UnitsKeyed (unitsOf s.world.context.compilationUnits)) :
    Live.HoldsKnown (s.pollLink host env) := by
  intro p hp
  have hsteps : MapSteps {} (fun _ _ => False) s.world (s.pollLink host env).world :=
    pollLink_mapSteps env s
  rw [hsteps.mem_units_iff hkeyed]
  exact hs p (holds_pollLink env hp)

/-! ### One event -/

theorem foldl_removeUnit_removed (l : List String) (s : Live)
    (h : p ∈ l ∨ p ∈ (history s.trace).removed) :
    p ∈ (history (l.foldl removeUnit s).trace).removed := by
  induction l generalizing s with
  | nil => simpa using h
  | cons q l ih =>
      refine ih _ ?_
      rw [List.mem_cons, or_assoc] at h
      rcases h with rfl | h | h
      · exact Or.inr (Finset.mem_insert_self p _)
      · exact Or.inl h
      · exact Or.inr (Finset.mem_insert_of_mem h)

theorem applyChanges_removed {changes : UnitChanges} (hp : p ∈ changes.removed) (s : Live) :
    p ∈ (history (s.applyChanges changes).trace).removed :=
  foldl_removeUnit_removed changes.removed _ (Or.inl hp)

/-- A unit that is missing after a new reading is listed as removed. -/
theorem mem_removed_of_read {filepath : String} {w w' : LiveWorld} {changes : UnitChanges}
    (hread : (updateCompilationUnits config filepath w).1 = some (w', changes))
    (hp : p ∈ w.context.compilationUnits) (hgone : p ∉ w'.context.compilationUnits) :
    p ∈ changes.removed := by
  rcases updateCompilationUnits_cases hread with ⟨_, rfl, rfl⟩ | ⟨new, _, rfl, rfl⟩
  · exact absurd hp hgone
  · rw [mem_units_iff, unitsOf_carryDepfiles, ← mem_units_iff] at hgone
    exact mem_diffUnits_removed.mpr ⟨hp, Finmap.lookup_eq_none.mpr hgone⟩

theorem onOtherFileChanged_removed {filepath : String}
    (hp : p ∈ s.world.context.compilationUnits)
    (hgone : p ∉ (s.onOtherFileChanged config filepath).1.world.context.compilationUnits) :
    p ∈ (history (s.onOtherFileChanged config filepath).1.trace).removed := by
  rcases onOtherFileChanged_cases config filepath s with
    ⟨logs, h⟩ | ⟨w, changes, logs, hread, ⟨_, h⟩ | ⟨hunchanged, h⟩⟩
  · rw [h] at hgone
    exact absurd hp (by simpa using hgone)
  · rw [h, applyChanges_units] at hgone
    rw [h]
    exact applyChanges_removed (mem_removed_of_read hread hp hgone) _
  · -- a unit that is missing would be a change
    rw [h] at hgone
    have hremoved := mem_removed_of_read hread hp hgone
    simp [UnitChanges.changed, List.ne_nil_of_mem hremoved] at hunchanged

/-- A unit that is gone after a file event was removed from the compiler. -/
theorem onFileChanged_removed {filepath : String} (hp : p ∈ s.world.context.compilationUnits)
    (hgone : p ∉ (s.onFileChanged config filepath).1.world.context.compilationUnits) :
    p ∈ (history (s.onFileChanged config filepath).1.trace).removed := by
  unfold onFileChanged at hgone ⊢
  cases hdeps : s.world.context.inverseDependencies.lookup filepath with
  | none =>
      rw [hdeps] at hgone
      exact onOtherFileChanged_removed hp hgone
  | some deps =>
      rw [hdeps] at hgone
      dsimp only at hgone
      rw [foldl_compileUnit_world] at hgone
      exact absurd hp hgone

theorem HoldsKnown.dispatch {event : LiveEvent} (hs : s.HoldsKnown)
    (hkeyed : UnitsKeyed (unitsOf s.world.context.compilationUnits)) {out : Outside}
    (hreached : Reached d s.compiler s.trace)
    (hsteps : Steps d s.core ((s.ask out).dispatch config event).core) :
    ((s.ask out).dispatch config event).HoldsKnown := by
  have hafter : Reached d ((s.ask out).dispatch config event).compiler
      ((s.ask out).dispatch config event).trace := hreached.trans hsteps
  have hhandles : Handles config (fun _ _ => True) (s.ask out)
      ((s.ask out).dispatch config event) :=
    dispatch_handles hkeyed (rereads_true config s (.dispatch out event))
  intro p hp
  rcases holds_of_extends (s := s.ask out)
    (· ∈ ((s.ask out).dispatch config event).world.context.compilationUnits) (fun _ _ h => h)
    hreached.coherent hsteps hhandles hp with hp' | hp'
  · -- a unit that is gone would have been removed from the compiler
    by_contra hgone
    refine hafter.coherent.removed_gone p ?_ hp
    cases event with
    | fileChanged filepath =>
        rcases dispatch_fileChanged_cases config filepath (s.ask out) with ⟨_, h⟩ | ⟨_, h⟩
        · rw [h] at hgone ⊢
          exact onFileChanged_removed (s := s.ask out) (hs p hp') hgone
        · rw [h] at hgone ⊢
          exact onFileChanged_removed (s := s.ask out) (hs p hp') hgone
    | tryReload => exact absurd (hs p hp') hgone
  · exact hp'

def atPollLink (config : LiveConfig) (out : Outside) (env : Environment) (s : Live) : Live :=
  Session.beforePollLink host config env ((s.ask out).tickFileWatcher config)

theorem atPollLink_mapSteps (out : Outside) (env : Environment) (s : Live) :
    MapSteps config R s.world (s.atPollLink config out env).world := by
  have hticked : MapSteps config R s.world ((s.ask out).tickFileWatcher config).world :=
    (ask_mapSteps out s).trans (tickFileWatcher_mapSteps _)
  exact (mapSteps_stable s.world).beforePollLink config env _ hticked

theorem atPollLink_reached (out : Outside) (env : Environment)
    (hreached : Reached d s.compiler s.trace) :
    Reached d (s.atPollLink d.config out env).compiler (s.atPollLink d.config out env).trace := by
  have hticked : Reached d ((s.ask out).tickFileWatcher d.config).compiler
      ((s.ask out).tickFileWatcher d.config).trace :=
    hreached.trans (tickFileWatcher_steps d.config (s.ask out))
  exact hticked.trans (beforePollLink_steps host env _ hticked.coherent.running.key
    hticked.exclusive)

theorem HoldsKnown.atPollLink (out : Outside) (env : Environment)
    (hreached : Reached d s.compiler s.trace)
    (hkeyed : UnitsKeyed (unitsOf s.world.context.compilationUnits)) (hs : s.HoldsKnown) :
    (s.atPollLink d.config out env).HoldsKnown := by
  have hasked : (s.ask out).HoldsKnown := hs
  have hticked : Reached d ((s.ask out).tickFileWatcher d.config).compiler
      ((s.ask out).tickFileWatcher d.config).trace :=
    hreached.trans (tickFileWatcher_steps d.config (s.ask out))
  have hsteps : MapSteps d.config (fun _ _ => True) (s.ask out).world
      ((s.ask out).tickFileWatcher d.config).world := tickFileWatcher_mapSteps _
  exact (hasked.tickFileWatcher hkeyed).beforePollLink env hticked
    (hsteps.invariant (fun _ _ hstep => hstep.keyed) hkeyed)

end Live

theorem LiveRun.holdsKnown {P : Live → LiveCall → Prop} {s : Live} (h : LiveRun config P s) :
    s.HoldsKnown := by
  induction h with
  | start filepath out memory hs =>
      have hsteps := (Live.create_edits (d := .gated config) hs).steps
      intro p hp
      refine (Live.holds_of_extends (fun _ => False) ?_ (Coherent.initial _) hsteps
        (Live.create_logs hs) hp).elim ?_ False.elim
      · rintro c cu ⟨entry, hentry⟩
        cases hentry
      · exact fun hempty => absurd hempty (Compiler.not_holds_initial p)
  | @call s hrun call hallowed _ ih =>
      obtain ⟨hreached, hgated⟩ := hrun.reached_gated
      cases call with
      | fileAction directory filename =>
          intro p hp
          have hknown := ih p hp
          unfold Live.perform Live.fileAction
          rw [Session.modifyWorld_world]
          split <;> exact hknown
      | tryReload => exact fun p hp => ih p (by simpa [Live.perform, Live.tryReload] using hp)
      | write memory => exact ih
      | tick out env =>
          have hpolled := ih.atPollLink out env hreached hrun.keyed
          have hsteps : MapSteps config (fun _ _ => True) s.world
            (s.atPollLink config out env).world := Live.atPollLink_mapSteps out env s
          have hafter := hpolled.pollLink env
            (hsteps.invariant (fun _ _ hstep => hstep.keyed) hrun.keyed)
          exact fun p hp => hafter p hp
      | dispatch out event =>
          obtain ⟨hdraining, hevent, htop⟩ := hallowed
          have hasked : (s.ask out).Gated (.gated config) := hgated
          refine ih.dispatch hrun.keyed hreached ?_
          cases event with
          | fileChanged filepath =>
              exact (Live.dispatch_fileChanged config hasked hdraining hevent).1
          | tryReload => exact (Live.dispatch_tryReload config hasked hdraining htop).1
      | finish => exact ih

/-- In every run the compiler holds known units only, also when a call of `update` polls the
running link; so every source that is reported to the callback of a link is the source of
a unit. -/
theorem LiveRun.holds_known_units {P : Live → LiveCall → Prop} {s : Live}
    (h : LiveRun config P s) :
    (∀ p, s.compiler.Holds p → p ∈ s.world.context.compilationUnits) ∧
    ∀ out env, let polled := s.atPollLink config out env
      (∀ p, polled.compiler.Holds p → p ∈ polled.world.context.compilationUnits) ∧
      ∀ cu ∈ polled.compiler.readyList env.readyOrder,
        cu.sourceFilepath ∈ polled.world.context.compilationUnits := by
  refine ⟨h.holdsKnown, ?_⟩
  intro out env polled
  obtain ⟨hreached, _⟩ := h.reached_gated
  have hholds := h.holdsKnown.atPollLink out env hreached h.keyed
  refine ⟨hholds, ?_⟩
  intro cu hcu
  obtain ⟨p, _, hp⟩ := List.mem_filterMap.mp hcu
  have hpolled : Reached (.gated config) polled.compiler polled.trace :=
    Live.atPollLink_reached out env hreached
  rw [hpolled.coherent.ready_key p cu hp]
  exact hholds p (Or.inr (Or.inr (Finmap.mem_of_lookup_eq_some hp)))

/-- Both units are compiled when one of them is dropped. -/
def shrunkRun : Live :=
  .after twoUnits [.fileAction "/p/" "a.cpp", .fileAction "/p/" "b.cpp",
    .tick (.ofCommands twoUnits) (.finished "" 0),
    .dispatch (.ofCommands twoUnits) (.fileChanged "/p/a.cpp"),
    .dispatch (.ofCommands twoUnits) (.fileChanged "/p/b.cpp"), .finish,
    .fileAction "/p/" "compile_commands.json", .tick (.ofCommands twoUnits) (.finished "" 0),
    .dispatch (.ofCommands [⟨"b.o", "/p", "/p/b.cpp"⟩])
      (.fileChanged "/p/compile_commands.json")]

theorem shrunkRun_holds_known_units :
    (shrunkRun.compiler.Holds "/p/b.cpp" ∧ ¬ shrunkRun.compiler.Holds "/p/a.cpp") ∧
      ∀ p, shrunkRun.compiler.Holds p → p ∈ shrunkRun.world.context.compilationUnits := by
  have hrun : LiveRun {} (fun _ _ => True) shrunkRun :=
    (LiveRun.started _ twoUnits).calls _ (by decide +kernel)
  exact ⟨by decide +kernel, hrun.holds_known_units.1⟩

/-! ## The owners of exported symbols -/

def LiveWorld.OwnersKnown (w : LiveWorld) : Prop :=
  ∀ sym src, w.context.exportedSymbolNamesInSourceFiles.lookup sym = some src →
    src ∈ w.context.compilationUnits

/-- A new reading of `compile_commands.json` drops no unit that owns an exported symbol. -/
def LiveWorld.KeepsOwners (w w' : LiveWorld) : Prop :=
  ∀ sym ∈ w.context.exportedSymbolNamesInSourceFiles.keys,
    ∀ src ∈ w.context.exportedSymbolNamesInSourceFiles.lookup sym,
      src ∈ w.context.compilationUnits → src ∈ w'.context.compilationUnits

instance (w w' : LiveWorld) : Decidable (w.KeepsOwners w') :=
  inferInstanceAs (Decidable (∀ sym ∈ _, ∀ src ∈ _, _ → _))

theorem MapStep.ownersKnown (h : MapStep config LiveWorld.KeepsOwners w w')
    (hkeyed : UnitsKeyed (unitsOf w.context.compilationUnits)) (hw : w.OwnersKnown) :
    w'.OwnersKnown := by
  intro sym src hsrc
  cases h with
  | keep hsame howners =>
      rw [hsame.units]
      exact (howners sym src hsrc).elim (hw sym src) id
  | dependencies p =>
      rw [mem_units_updateDependenciesOf hkeyed]
      refine hw sym src ?_
      unfold LiveWorld.updateDependenciesOf at hsrc
      split at hsrc <;> exact hsrc
  | watch => exact hw sym src hsrc
  | unwatch => exact hw sym src hsrc
  | reread new _ hw' hR =>
      have hsrc' : w.context.exportedSymbolNamesInSourceFiles.lookup sym = some src := by
        rw [hw'] at hsrc
        exact hsrc
      exact hR sym (Finmap.mem_keys.mpr (Finmap.mem_of_lookup_eq_some hsrc')) src hsrc'
        (hw sym src hsrc')
  | remove p _ => exact hw sym src hsrc

def Live.atDecideLink (config : LiveConfig) (out : Outside) (env : Environment) (s : Live) :
    Live :=
  Session.beforeDecideLink Live.host config env ((s.ask out).tickFileWatcher config)

theorem Live.atDecideLink_mapSteps (out : Outside) (env : Environment) (s : Live) :
    MapSteps config R s.world (s.atDecideLink config out env).world := by
  have hticked : MapSteps config R s.world ((s.ask out).tickFileWatcher config).world :=
    (ask_mapSteps out s).trans (tickFileWatcher_mapSteps _)
  exact (mapSteps_stable s.world).beforeDecideLink config env _ hticked

/-- The units are stored under their source paths and own the exported symbols. -/
def LiveWorld.Owned (w : LiveWorld) : Prop :=
  UnitsKeyed (unitsOf w.context.compilationUnits) ∧ w.OwnersKnown

theorem MapStep.owned (h : MapStep config LiveWorld.KeepsOwners w w') (hw : w.Owned) :
    w'.Owned :=
  ⟨h.keyed hw.1, h.ownersKnown hw.1 hw.2⟩

/-- In a run that drops no owner of an exported symbol, every owner is a unit, also when
`doLink` looks for the owners of undefined symbols. -/
theorem LiveRun.owners_known {s : Live}
    (h : LiveRun config (Live.Rereads LiveWorld.KeepsOwners config) s) :
    s.world.OwnersKnown ∧ ∀ out env, (s.atDecideLink config out env).world.OwnersKnown := by
  have hs : s.world.Owned := by
    refine LiveRun.invariant (fun _ _ hcall => hcall) (fun _ _ hstep => hstep.owned) ?_ h
    intro filepath out memory s hs
    obtain ⟨w, hfresh, hsteps⟩ := Live.create_mapSteps (R := LiveWorld.KeepsOwners) hs
    refine hsteps.invariant (fun _ _ hstep => hstep.owned) ⟨hfresh.keyed, ?_⟩
    intro sym src hsrc
    simp [hfresh.owners] at hsrc
  refine ⟨hs.2, ?_⟩
  intro out env
  exact ((Live.atDecideLink_mapSteps out env s).invariant (fun _ _ hstep => hstep.owned) hs).2

/-- One unit is edited, compiled, linked and loaded, and then the file with the units is
written anew. The object of the unit exports one symbol. -/
def reloadAndReread (commands : List CompileCommand) : List LiveCall :=
  let out := { Outside.ofCommands twoUnits with exportedSymbolNames := fun _ => ["f"] }
  editAndReload ++ [.tick out (.finished "" 0), .finish, .tick out (.finished "/p/a.cpp" 0),
    .tick out .linked, .finish, .fileAction "/p/" "compile_commands.json",
    .tick out (.finished "" 0),
    .dispatch (.ofCommands commands) (.fileChanged "/p/compile_commands.json")]

/-- The other unit is dropped. -/
def keptOwnerRun : Live := .after twoUnits (reloadAndReread [⟨"a.o", "/p", "/p/a.cpp"⟩])

theorem keptOwnerRun_owners_known :
    keptOwnerRun.world.context.exportedSymbolNamesInSourceFiles.lookup "f" = some "/p/a.cpp" ∧
      keptOwnerRun.world.OwnersKnown := by
  have hrun : LiveRun {} (Live.Rereads LiveWorld.KeepsOwners {}) keptOwnerRun :=
    (LiveRun.started _ twoUnits).calls _ (by decide +kernel)
  obtain ⟨hknown, _⟩ := hrun.owners_known
  refine ⟨by decide +kernel, ?_⟩
  assumption

theorem LiveWorld.not_ownersKnown (sym src : String)
    (howner : w.context.exportedSymbolNamesInSourceFiles.lookup sym = some src)
    (hunit : w.context.compilationUnits.lookup src = none) : ¬ w.OwnersKnown :=
  fun h => Finmap.lookup_eq_none.mp hunit (h sym src howner)

/-- The owner itself is dropped. -/
def lostOwnerRun : Live := .after twoUnits (reloadAndReread [⟨"b.o", "/p", "/p/b.cpp"⟩])

/-- The symbol keeps its owner, which is no unit any more. -/
theorem lostOwnerRun_not_owners_known :
    LiveRun {} (fun _ _ => True) lostOwnerRun ∧ ¬ lostOwnerRun.world.OwnersKnown ∧
      lostOwnerRun.world.context.exportedSymbolNamesInSourceFiles.lookup "f" =
        some "/p/a.cpp" := by
  exact ⟨(LiveRun.started _ twoUnits).calls _ (by decide +kernel),
    LiveWorld.not_ownersKnown "f" "/p/a.cpp" (by decide +kernel) (by decide +kernel),
    by decide +kernel⟩

end JetLive
