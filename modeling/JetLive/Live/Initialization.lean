import JetLive.Live.Operations

/-!
# The initialization

The initialization is made of parts that change the world and record log entries. A predicate
that all of them keep holds after it; the rules here say so once, for the loops over the units
and the loaded programs too.
-/

namespace JetLive

open Containers

namespace Live

variable {config : LiveConfig} {I : Live → Prop} {s s' : Live}

theorem loadCompilationUnits_rule {filepath : String}
    (hlogs : ∀ s l, I s → I (s.emitLogs l))
    (hgenerate : ∀ s, I s → I (s.act (LiveWorld.generateDatabase config)))
    (henter : ∀ s filepath units, UnitsKeyed (unitsOf units) → I s →
      I (s.act (LiveWorld.enterUnits filepath units)))
    (hs : I s) (h : s.loadCompilationUnits config filepath = some s') : I s' := by
  unfold loadCompilationUnits at h
  dsimp only at h
  split at h
  · simp at h
  · rename_i units logs hparse
    obtain rfl := Option.some.inj h
    have hkeyed : UnitsKeyed (unitsOf units) :=
      LiveWorld.parseCompilationUnits_keyed (congrArg Prod.fst hparse)
    exact henter _ filepath units hkeyed (hlogs _ logs (hgenerate _ (hlogs s _ hs)))

theorem loadDependencies_rule (hlogs : ∀ s l, I s → I (s.emitLogs l))
    (hupdate : ∀ s p, I s → I (s.act (·.updateDependenciesOf p))) (hs : I s) :
    I s.loadDependencies := by
  refine hlogs _ _ (List.foldlRecOn _ _ (hlogs s _ hs) ?_)
  exact fun s hs unit _ => hupdate s unit.1 hs

theorem loadSymbols_rule (hlogs : ∀ s l, I s → I (s.emitLogs l))
    (hload : ∀ s path, I s → I (s.act (LiveWorld.loadProgram path))) (hs : I s) :
    I s.loadSymbols := by
  refine hlogs _ _ (List.foldlRecOn _ _ hs ?_)
  exact fun s hs path _ => hload s path hs

/-- All parts of the initialization keep `I`. -/
structure InitRule (config : LiveConfig) (I : Live → Prop) : Prop where
  emitLogs : ∀ s l, I s → I (s.emitLogs l)
  generateDatabase : ∀ s, I s → I (s.act (LiveWorld.generateDatabase config))
  enterUnits : ∀ s filepath units, UnitsKeyed (unitsOf units) → I s →
    I (s.act (LiveWorld.enterUnits filepath units))
  updateDirectoryFilters : ∀ s, I s → I (s.act LiveWorld.updateDirectoryFilters)
  updateDependenciesOf : ∀ s p, I s → I (s.act (·.updateDependenciesOf p))
  setupFileWatcher : ∀ s, I s → I (s.act (LiveWorld.setupFileWatcher config))
  loadProgram : ∀ s path, I s → I (s.act (LiveWorld.loadProgram path))
  loadExportedSymbols : ∀ s, I s → I (s.act LiveWorld.loadExportedSymbols)

theorem InitRule.create {filepath : String} {out : Outside} {memory : ProcessMemory}
    (hI : InitRule config I) (hinitial : I { world := { outside := out, memory } })
    (h : create config filepath out memory = some s) : I s := by
  unfold Live.create at h
  obtain ⟨s₁, hload, rfl⟩ := Option.map_eq_some_iff.mp h
  have hunits : I s₁ := loadCompilationUnits_rule hI.emitLogs hI.generateDatabase hI.enterUnits
    hinitial hload
  have hdependencies := loadDependencies_rule hI.emitLogs hI.updateDependenciesOf
    (hI.updateDirectoryFilters s₁ hunits)
  have hsymbols := loadSymbols_rule hI.emitLogs hI.loadProgram
    (hI.setupFileWatcher _ hdependencies)
  exact hI.loadExportedSymbols _ hsymbols

end Live

end JetLive
