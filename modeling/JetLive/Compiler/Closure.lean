import JetLive.Compiler.Run
import JetLive.Library.Worklist

/-!
# The objects of a link

The loop of `doLink` over the undefined symbols is a worklist: the requests are the symbols,
and a symbol is answered by the object of the unit that exports it. The loop therefore ends
with the least set of objects that contains the ready ones and the objects of all units that
are needed by an object of the set, in whatever order it takes the symbols.
-/

namespace JetLive

open Containers Worklist

def ownerObject (context : LiveContext) (undefSymName : String) : Option String :=
  (ownerUnit context undefSymName).map fun cu => cu.objFilePath

/-- With each object also the objects of the known units that export its undefined symbols,
unless a loaded program exports them. -/
def LinkClosed (context : LiveContext) (undefinedOf : String → Finset String)
    (objects : Set String) : Prop :=
  ∀ o ∈ objects, ∀ undefSymName ∈ undefinedOf o,
    (∀ program ∈ context.programs, undefSymName ∉ program.symbols.exportedSymbolNames) →
    ∀ sourceFilePath cu,
      context.exportedSymbolNamesInSourceFiles.lookup undefSymName = some sourceFilePath →
      context.compilationUnits.lookup sourceFilePath = some cu → cu.objFilePath ∈ objects

theorem ownerObject_eq_some {context : LiveContext} {undefSymName o : String} :
    ownerObject context undefSymName = some o ↔
      (∀ program ∈ context.programs, undefSymName ∉ program.symbols.exportedSymbolNames) ∧
      ∃ sourceFilePath cu,
        context.exportedSymbolNamesInSourceFiles.lookup undefSymName = some sourceFilePath ∧
        context.compilationUnits.lookup sourceFilePath = some cu ∧ cu.objFilePath = o := by
  unfold ownerObject ownerUnit
  split
  · rename_i hexported
    simp only [Option.map_none, reduceCtorEq, false_iff, not_and]
    intro hnot
    obtain ⟨program, hprogram, hmem⟩ := List.any_eq_true.mp hexported
    exact absurd (of_decide_eq_true hmem) (hnot program hprogram)
  · rename_i hexported
    have hnot : ∀ program ∈ context.programs,
        undefSymName ∉ program.symbols.exportedSymbolNames := by
      intro program hprogram hmem
      exact hexported (List.any_eq_true.mpr ⟨program, hprogram, decide_eq_true hmem⟩)
    simp only [Option.map_eq_some_iff, Option.bind_eq_some_iff]
    constructor
    · rintro ⟨cu, ⟨p, hp, hcu⟩, ho⟩
      exact ⟨hnot, p, cu, hp, hcu, ho⟩
    · rintro ⟨_, p, cu, hp, hcu, ho⟩
      exact ⟨cu, ⟨p, hp, hcu⟩, ho⟩

theorem linkClosed_iff (context : LiveContext) (undefinedOf : String → Finset String)
    (objects : Set String) :
    LinkClosed context undefinedOf objects ↔
      IsClosed (ownerObject context) undefinedOf objects := by
  constructor
  · intro h o ho name hname c hc
    obtain ⟨hnot, p, cu, hp, hcu, rfl⟩ := ownerObject_eq_some.mp hc
    exact h o ho name hname hnot p cu hp hcu
  · intro h o ho name hname hnot p cu hp hcu
    apply h o ho name hname
    exact ownerObject_eq_some.mpr ⟨hnot, p, cu, hp, hcu, rfl⟩

/-- The rounds come to an end, whichever symbols they take. -/
theorem wellFounded_round (context : LiveContext) (undefinedOf : String → Finset String) :
    WellFounded fun x y => Round (ownerObject context) undefinedOf y x := by
  apply Subrelation.wf (r := InvImage (· < ·)
    fun x : Finset String × Finset String => openWork context undefinedOf x.1 x.2)
  · intro x y hround
    cases hround with
    | settled ha hc => exact openWork_erase_lt context undefinedOf _ ha
    | discovered ha hc hnew =>
        obtain ⟨cu, hcu, rfl⟩ := Option.map_eq_some_iff.mp hc
        exact openWork_insert_lt undefinedOf ha (objFilePath_mem_unitObjects hcu) hnew
  · exact InvImage.wf _ Nat.lt_wfRel.wf

namespace Session

variable {W : Type*}

def readySymbols (env : Environment) (s : Session W) : Finset String :=
  (s.compiler.readyList env.readyOrder).foldl
    (fun names cu => names ∪ env.undefinedSymbolNames cu.objFilepath) ∅

/-- The state at the begin of the loop of `doLink`. -/
def linkStart (env : Environment) (s : Session W) : LinkSearch W where
  session := s.modify fun c => { c with shouldLink := false }
  uniqueObjectFilePaths :=
    ((s.compiler.readyList env.readyOrder).map fun cu => cu.objFilepath).toFinset
  pendingCompilation := false

/-- The state at the end of the loop of `doLink`. -/
def linkSearch (context : LiveContext) (env : Environment) (s : Session W) : LinkSearch W :=
  resolveUndefined context env 0 (s.readySymbols env) (s.linkStart env)

/-- The loop consists of rounds and ends without an open symbol. -/
theorem resolveUndefined_rounds (context : LiveContext) (env : Environment) (round : ℕ)
    (names : Finset String) (search : LinkSearch W) :
    Rounds (ownerObject context) env.undefinedSymbolNames (names, search.uniqueObjectFilePaths)
      (∅, (resolveUndefined context env round names search).uniqueObjectFilePaths) := by
  fun_induction resolveUndefined context env round names search with
  | case1 round names search hname =>
      have hempty : names = ∅ := by
        apply Finset.eq_empty_of_forall_notMem
        intro a ha
        rw [← (env.symbolOrder round).mem_toList, List.head?_eq_none_iff.mp hname] at ha
        exact List.not_mem_nil ha
      rw [hempty]
  | case2 round names search name hname hcu ih =>
      refine .head (.settled ((env.symbolOrder round).mem_of_first hname) ?_) ih
      intro c hc
      simp [ownerObject, hcu] at hc
  | case3 round names search name hname cu hcu hobj ih =>
      refine .head (.settled ((env.symbolOrder round).mem_of_first hname) ?_) ih
      intro c hc
      obtain rfl : cu.objFilePath = c := by simpa [ownerObject, hcu] using hc
      exact hobj
  | case4 round names search name hname cu hcu hobj ih =>
      refine .head (.discovered ((env.symbolOrder round).mem_of_first hname) ?_ hobj) ih
      simp [ownerObject, hcu]

/-- A compilation is asked for exactly if an object was added. -/
theorem resolveUndefined_pendingCompilation (context : LiveContext) (env : Environment)
    (round : ℕ) (names : Finset String) (search : LinkSearch W)
    (h : search.pendingCompilation = false) :
    (resolveUndefined context env round names search).pendingCompilation = true ↔
      search.uniqueObjectFilePaths ⊂
        (resolveUndefined context env round names search).uniqueObjectFilePaths := by
  fun_induction resolveUndefined context env round names search with
  | case1 round names search => simp [h]
  | case2 round names search name hname hcu ih => exact ih h
  | case3 round names search name hname cu hcu hobj ih => exact ih h
  | case4 round names search name hname cu hcu hobj ih =>
      have hsub := (resolveUndefined_rounds context env (round + 1)
        (names.erase name ∪ env.undefinedSymbolNames cu.objFilePath)
        { session := search.session.compile cu .nothing
          uniqueObjectFilePaths := insert cu.objFilePath search.uniqueObjectFilePaths
          pendingCompilation := true }).subset
      rw [iff_true_left (pendingCompilation_resolveUndefined context env _ _ _ rfl)]
      exact (Finset.ssubset_insert hobj).trans_subset hsub

/-- The loop begins with the ready objects. -/
theorem linkStart_uniqueObjectFilePaths (env : Environment) (s : Session W) :
    (s.linkStart env).uniqueObjectFilePaths = s.compiler.readyObjects := by
  ext o
  rw [linkStart, List.mem_toFinset, List.mem_map, Compiler.mem_readyObjects]
  constructor
  · rintro ⟨cu, hcu, rfl⟩
    obtain ⟨p, hp⟩ := (mem_readyList env.readyOrder s.compiler cu).mp hcu
    exact ⟨p, cu, hp, rfl⟩
  · rintro ⟨p, cu, hp, rfl⟩
    exact ⟨cu, (mem_readyList env.readyOrder s.compiler cu).mpr ⟨p, hp⟩, rfl⟩

theorem mem_readySymbols (env : Environment) (s : Session W) (a : String) :
    a ∈ s.readySymbols env ↔ ∃ o ∈ (s.linkStart env).uniqueObjectFilePaths,
      a ∈ env.undefinedSymbolNames o := by
  have hfold : ∀ (units : List ShortCompilationUnit) (names : Finset String),
      a ∈ units.foldl (fun names cu => names ∪ env.undefinedSymbolNames cu.objFilepath) names ↔
        a ∈ names ∨ ∃ cu ∈ units, a ∈ env.undefinedSymbolNames cu.objFilepath := by
    intro units
    induction units with
    | nil => simp
    | cons cu units ih =>
        intro names
        rw [List.foldl_cons, ih, Finset.mem_union]
        simp [or_assoc]
  rw [readySymbols, hfold]
  simp [linkStart]

/-- The loop ends with the least closed set of objects. -/
theorem linkSearch_isLeast (context : LiveContext) (env : Environment) (s : Session W) :
    IsLeast {objects : Set String | ↑s.compiler.readyObjects ⊆ objects ∧
        LinkClosed context env.undefinedSymbolNames objects}
      ↑(s.linkSearch context env).uniqueObjectFilePaths := by
  have hrounds := resolveUndefined_rounds context env 0 (s.readySymbols env) (s.linkStart env)
  have hleast := hrounds.isLeast (s.mem_readySymbols env)
  rw [linkStart_uniqueObjectFilePaths] at hleast
  simp only [linkClosed_iff]
  exact hleast

theorem doLink_eq (config : LiveConfig) (context : LiveContext) (env : Environment)
    (finishCallback : LinkFinishCallback) (s : Session W) :
    s.doLink config context env finishCallback =
      if s.compiler.readyCompilationUnits.keys = ∅ then s.addLog .kInfo "Nothing to reload."
      else if (s.linkSearch context env).pendingCompilation then
        (s.linkSearch context env).session.modify fun c =>
          { c with shouldLink := true, pendingLinkingFinishCallback := finishCallback }
      else ((s.linkSearch context env).session.modify fun c =>
          { c with shouldLink := s.compiler.shouldLink }).startLink config env finishCallback
        (env.objectOrder.toList (s.linkSearch context env).uniqueObjectFilePaths) := rfl

/-- Without ready units there is no object to begin with, and none is added. -/
theorem linkSearch_of_not_ready (context : LiveContext) (env : Environment) (s : Session W)
    (h : s.compiler.readyCompilationUnits.keys = ∅) :
    (s.linkSearch context env).uniqueObjectFilePaths = ∅ := by
  have hready : s.compiler.readyObjects = ∅ := by
    simp [Compiler.readyObjects, h]
  have hleast := s.linkSearch_isLeast context env
  rw [hready] at hleast
  have hsub := hleast.2 ⟨by simp, fun o ho => absurd ho (Set.notMem_empty o)⟩
  exact Finset.coe_eq_empty.mp (Set.subset_empty_iff.mp hsub)

/-- A link is deferred exactly if the search has added an object. -/
theorem doLink_shouldLink_iff (config : LiveConfig) (context : LiveContext) (env : Environment)
    (finishCallback : LinkFinishCallback) (s : Session W)
    (hrequest : s.compiler.shouldLink = false) :
    (s.doLink config context env finishCallback).compiler.shouldLink = true ↔
      s.compiler.readyObjects ⊂ (s.linkSearch context env).uniqueObjectFilePaths := by
  have hsearch := resolveUndefined_pendingCompilation context env 0 (s.readySymbols env)
    (s.linkStart env) rfl
  rw [linkStart_uniqueObjectFilePaths] at hsearch
  rw [doLink_eq]
  split
  · rename_i hempty
    rw [linkSearch_of_not_ready context env s hempty]
    simp [hrequest]
  · split
    · rename_i hpending
      exact iff_of_true rfl (hsearch.mp hpending)
    · rename_i hpending
      refine iff_of_false ?_ fun hlarger => hpending (hsearch.mpr hlarger)
      simp [startLink, hrequest]

/-- The loop of `doLink` over the undefined symbols terminates, whichever symbols it takes, and
ends with the least set of objects that contains the ready ones and is closed; the link is
deferred exactly if this set is larger than that of the ready objects. -/
theorem doLink_least_closure (config : LiveConfig) (context : LiveContext) (env : Environment)
    (finishCallback : LinkFinishCallback) (s : Session W)
    (hrequest : s.compiler.shouldLink = false) :
    (WellFounded fun x y => Round (ownerObject context) env.undefinedSymbolNames y x) ∧
    IsLeast {objects : Set String | ↑s.compiler.readyObjects ⊆ objects ∧
        LinkClosed context env.undefinedSymbolNames objects}
      ↑(s.linkSearch context env).uniqueObjectFilePaths ∧
    ((s.doLink config context env finishCallback).compiler.shouldLink = true ↔
      s.compiler.readyObjects ⊂ (s.linkSearch context env).uniqueObjectFilePaths) := by
  refine ⟨wellFounded_round context env.undefinedSymbolNames, ?_, ?_⟩
  · exact s.linkSearch_isLeast context env
  · exact s.doLink_shouldLink_iff config context env finishCallback hrequest

end Session

/-! ### Two objects that need each other -/

def circularContext : LiveContext where
  compilationUnits := Finmap.insert "/p/b.cpp"
    { sourceFilePath := "/p/b.cpp", objFilePath := "/p/b.o" }
    (Finmap.singleton "/p/a.cpp" { sourceFilePath := "/p/a.cpp", objFilePath := "/p/a.o" })
  exportedSymbolNamesInSourceFiles :=
    Finmap.insert "g" "/p/b.cpp" (Finmap.singleton "f" "/p/a.cpp")

def circularEnvironment : Environment :=
  { Environment.finished "" 0 with
    undefinedSymbolNames := fun o =>
      if o = "/p/a.o" then {"g"} else if o = "/p/b.o" then {"f"} else ∅ }

/-- The first of the two objects is ready. -/
def circularSession : Session Unit where
  compiler :=
    { readyCompilationUnits := Finmap.singleton "/p/a.cpp" ⟨"/p/a.cpp", "/p/a.o"⟩ }
  world := ()

theorem circularSession_least_closure :
    circularSession.compiler.shouldLink = false ∧
    (circularSession.doLink {} circularContext circularEnvironment none).compiler.shouldLink =
      true := by
  obtain ⟨_, ⟨⟨hready, hclosed⟩, _⟩, hdefer⟩ := circularSession.doLink_least_closure {}
    circularContext circularEnvironment none rfl
  have ha : "/p/a.o" ∈ circularSession.compiler.readyObjects := by decide +kernel
  have hb := hclosed "/p/a.o" (hready ha) "g" (by decide) (by simp [circularContext])
    "/p/b.cpp" { sourceFilePath := "/p/b.cpp", objFilePath := "/p/b.o" } (by decide +kernel)
    (by decide +kernel)
  refine ⟨rfl, hdefer.mpr ⟨Finset.coe_subset.mp hready, ?_⟩⟩
  intro hsub
  exact absurd (hsub hb) (by decide +kernel)

end JetLive
