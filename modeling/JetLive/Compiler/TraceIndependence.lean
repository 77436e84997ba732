import JetLive.Compiler.Closure

/-!
# The compiler does not read its trace

The trace of a session is a history variable: an operation adds to it, and what it does besides does
not depend on what is there. So every operation commutes with `withPast`, which puts an earlier
trace below the one of the session.
-/

namespace JetLive

namespace Session

variable {W : Type*}

def withPast (past : CompilerTrace) (s : Session W) : Session W :=
  { s with trace := s.trace ++ past }

variable (past : CompilerTrace) (s : Session W)

@[simp] theorem withPast_compiler : (s.withPast past).compiler = s.compiler := rfl

@[simp] theorem withPast_world : (s.withPast past).world = s.world := rfl

@[simp] theorem withPast_emit (e : Event) :
    (s.withPast past).emit e = (s.emit e).withPast past := rfl

@[simp] theorem withPast_addLog (severity : LogSeverity) (message : String) :
    (s.withPast past).addLog severity message = (s.addLog severity message).withPast past := rfl

@[simp] theorem withPast_modify (f : Compiler → Compiler) :
    (s.withPast past).modify f = (s.modify f).withPast past := rfl

theorem withPast_foldl {α : Type*} {f : Session W → α → Session W}
    (hf : ∀ s a, f (s.withPast past) a = (f s a).withPast past) (l : List α) (s : Session W) :
    l.foldl f (s.withPast past) = (l.foldl f s).withPast past := by
  induction l generalizing s with
  | nil => rfl
  | cons a l ih => rw [List.foldl_cons, hf, ih, List.foldl_cons]

@[simp] theorem withPast_callback (e : Event) (effect : W → W × List HostEvent) :
    (s.withPast past).callback e effect = (s.callback e effect).withPast past :=
  withPast_foldl past (f := fun s e => s.emit (.host e)) (fun _ _ => rfl) (effect s.world).2
    { s.emit e with world := (effect s.world).1 }

theorem withPast_pollTask (host : Host W) (env : Environment) (key : String) :
    pollTask host env (s.withPast past) key = (pollTask host env s key).withPast past := by
  unfold pollTask
  rw [withPast_compiler]
  split
  · split <;> simp
  · rfl

theorem withPast_pollCompilations (host : Host W) (env : Environment) :
    (s.withPast past).pollCompilations host env = (s.pollCompilations host env).withPast past := by
  unfold pollCompilations
  dsimp only
  rw [withPast_foldl past (fun s key => withPast_pollTask past s host env key)]
  simp

theorem withPast_startPending (n : ℕ) (pending : List PendingCompilationTask) :
    startPending n pending (s.withPast past) = (startPending n pending s).withPast past := by
  induction pending generalizing s with
  | nil => rfl
  | cons task rest ih =>
      unfold startPending
      rw [withPast_compiler]
      split
      · exact ih ((s.doCompile task.cu task.finishCallback).modify fun c =>
          { c with pendingCompilationTasks := c.pendingCompilationTasks.tail })
      · rfl

/-! ## The loop of `doLink` -/

section ResolveUndefined

variable {context : LiveContext} {env : Environment} {round : ℕ} {names : Finset String}
  {search : LinkSearch W} {name : String} {cu : CompilationUnit}

theorem resolveUndefined_of_none (hname : (env.symbolOrder round).first names = none) :
    resolveUndefined context env round names search = search := by
  rw [resolveUndefined]
  split
  · rfl
  · rename_i name hsome
    exact absurd (hname.symm.trans hsome) (by simp)

theorem resolveUndefined_of_no_owner (hname : (env.symbolOrder round).first names = some name)
    (hcu : ownerUnit context name = none) :
    resolveUndefined context env round names search =
      resolveUndefined context env (round + 1) (names.erase name) search := by
  rw [resolveUndefined]
  split
  · rename_i hnone
    exact absurd (hname.symm.trans hnone) (by simp)
  · rename_i name' hname'
    obtain rfl := Option.some.inj (hname.symm.trans hname')
    split
    · rfl
    · rename_i cu hcu'
      exact absurd (hcu.symm.trans hcu') (by simp)

theorem resolveUndefined_of_owner (hname : (env.symbolOrder round).first names = some name)
    (hcu : ownerUnit context name = some cu) :
    resolveUndefined context env round names search =
      if cu.objFilePath ∈ search.uniqueObjectFilePaths then
        resolveUndefined context env (round + 1) (names.erase name) search
      else
        resolveUndefined context env (round + 1)
          (names.erase name ∪ env.undefinedSymbolNames cu.objFilePath)
          { session := search.session.compile cu .nothing
            uniqueObjectFilePaths := insert cu.objFilePath search.uniqueObjectFilePaths
            pendingCompilation := true } := by
  rw [resolveUndefined]
  split
  · rename_i hnone
    exact absurd (hname.symm.trans hnone) (by simp)
  · rename_i name' hname'
    obtain rfl := Option.some.inj (hname.symm.trans hname')
    split
    · rename_i hnone
      exact absurd (hcu.symm.trans hnone) (by simp)
    · rename_i cu' hcu'
      obtain rfl := Option.some.inj (hcu.symm.trans hcu')
      split <;> rfl

end ResolveUndefined

def LinkSearch.withPast (past : CompilerTrace) (search : LinkSearch W) : LinkSearch W :=
  { search with session := search.session.withPast past }

theorem withPast_resolveUndefined (context : LiveContext) (env : Environment) (round : ℕ)
    (names : Finset String) (search : LinkSearch W) :
    resolveUndefined context env round names (search.withPast past) =
      (resolveUndefined context env round names search).withPast past := by
  fun_induction resolveUndefined context env round names search with
  | case1 round names search hnone => exact resolveUndefined_of_none hnone
  | case2 round names search name hname hcu ih =>
      rw [resolveUndefined_of_no_owner hname hcu, ih]
  | case3 round names search name hname cu hcu hobj ih =>
      rw [resolveUndefined_of_owner hname hcu, if_pos (by exact hobj), ih]
  | case4 round names search name hname cu hcu hobj ih =>
      rw [resolveUndefined_of_owner hname hcu, if_neg (by exact hobj), ← ih]
      rfl

/-! ## The rest of `update` -/

theorem withPast_linkSearch (context : LiveContext) (env : Environment) :
    (s.withPast past).linkSearch context env = (s.linkSearch context env).withPast past :=
  withPast_resolveUndefined past context env 0 (s.readySymbols env) (s.linkStart env)

theorem withPast_doLink (config : LiveConfig) (context : LiveContext) (env : Environment)
    (finishCallback : LinkFinishCallback) :
    (s.withPast past).doLink config context env finishCallback =
      (s.doLink config context env finishCallback).withPast past := by
  rw [doLink_eq, doLink_eq, withPast_linkSearch, withPast_compiler]
  split
  · rfl
  · change (if (s.linkSearch context env).pendingCompilation then _ else _) = _
    split <;> rfl

theorem withPast_decideLink (host : Host W) (config : LiveConfig) (env : Environment) :
    (s.withPast past).decideLink host config env =
      (s.decideLink host config env).withPast past := by
  have hlogFailed : ∀ s : Session W, (s.withPast past).logFailed = s.logFailed.withPast past := by
    intro s
    unfold logFailed
    simp only [withPast_addLog, withPast_compiler]
    rw [withPast_foldl past (fun _ _ => rfl)]
    rfl
  unfold decideLink
  rw [withPast_compiler]
  split
  · dsimp only
    rw [withPast_modify, withPast_compiler]
    split
    · exact withPast_doLink past _ config _ env _
    · rw [hlogFailed, withPast_callback, withPast_compiler]
  · rfl

theorem withPast_pollLink (host : Host W) (env : Environment) :
    (s.withPast past).pollLink host env = (s.pollLink host env).withPast past := by
  have hload : ∀ (libPath : String) (status : ℤ) (s : Session W),
      (s.withPast past).loadLibrary env libPath status =
        ((s.loadLibrary env libPath status).1.withPast past,
          (s.loadLibrary env libPath status).2) := by
    intro libPath status s
    unfold loadLibrary
    split
    · cases env.dlerror <;> rfl
    · rfl
  unfold pollLink
  rw [withPast_compiler]
  split
  · dsimp only
    split <;> simp [hload]
  · rfl

theorem withPast_beforePollLink (host : Host W) (config : LiveConfig) (env : Environment) :
    (s.withPast past).beforePollLink host config env =
      (s.beforePollLink host config env).withPast past := by
  unfold beforePollLink
  simp only [withPast_pollCompilations, withPast_compiler, withPast_startPending,
    withPast_decideLink]

theorem withPast_update (host : Host W) (config : LiveConfig) (env : Environment) :
    (s.withPast past).update host config env = (s.update host config env).withPast past := by
  rw [update_eq, update_eq, withPast_beforePollLink, withPast_pollLink]

structure Alike (s s' : Session W) : Prop where
  compiler : s.compiler = s'.compiler
  world : s.world = s'.world

/-- Operations that do not read the trace keep sessions alike. -/
theorem Alike.map {f : Session W → Session W}
    (hf : ∀ past s, f (s.withPast past) = (f s).withPast past) {s s' : Session W} (h : Alike s s') :
    Alike (f s) (f s') := by
  let bare : Session W := { compiler := s.compiler, world := s.world }
  have hs : s = bare.withPast s.trace := rfl
  have hs' : s' = bare.withPast s'.trace := by
    obtain ⟨_, _, _⟩ := s'
    obtain ⟨rfl, rfl⟩ := h
    rfl
  rw [hs, hs', hf, hf]
  exact ⟨rfl, rfl⟩

end Session

end JetLive
