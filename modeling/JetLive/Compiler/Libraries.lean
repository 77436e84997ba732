import JetLive.Compiler.Run

/-!
# The reload libraries

Each link process gets a library name with the next number. The loader hands out the library it
already has when a path is opened again, so a reload would silently do nothing if a name came
twice. Here it is followed over whole runs which process writes which library and which libraries
are opened: every opened library is the output of a link process of its own, and none is opened
twice.
-/

namespace JetLive

open Containers

/-- The path that is given to `dlopen`. -/
def reloadLibraryPath (config : LiveConfig) (k : ℕ) : String :=
  config.cmakeBuildDirectory ++ "/" ++ reloadLibraryName k

theorem reloadLibraryPath_injective (config : LiveConfig) :
    Function.Injective (reloadLibraryPath config) := by
  intro k k' h
  simp only [reloadLibraryPath, reloadLibraryName, Nat.toString_eq_ofList_toDigits,
    ← String.toList_inj, String.toList_append, String.toList_ofList, List.append_assoc,
    List.append_cancel_left_eq, List.append_cancel_right_eq] at h
  simpa using congrArg (fun digits => Nat.ofDigitChars 10 digits 0) h

def LinksLibrary (config : LiveConfig) (k : ℕ) (process : Process) : Prop :=
  ∃ compilerPath baseAddress objectFilePaths, process =
    ⟨createLinkCommand (reloadLibraryName k) compilerPath baseAddress config.linkerType
      objectFilePaths, config.cmakeBuildDirectory⟩

/-- The link processes that were started, the latest first. -/
def startedLinks : CompilerTrace → List Process
  | [] => []
  | (_, .linkStarted process) :: t => process :: startedLinks t
  | _ :: t => startedLinks t

def openedLibraries : CompilerTrace → List String
  | [] => []
  | (_, .dlopen libPath _) :: t => libPath :: openedLibraries t
  | _ :: t => openedLibraries t

namespace Session

variable {W : Type*} {s s' s'' : Session W} {config : LiveConfig}

structure SameLinks (s s' : Session W) : Prop where
  currentLibIndex : s'.compiler.currentLibIndex = s.compiler.currentLibIndex
  runningLinkTask : s'.compiler.runningLinkTask = s.compiler.runningLinkTask
  started : startedLinks s'.trace = startedLinks s.trace
  opened : openedLibraries s'.trace = openedLibraries s.trace

namespace SameLinks

theorem refl (s : Session W) : SameLinks s s := ⟨rfl, rfl, rfl, rfl⟩

theorem trans (h : SameLinks s s') (h' : SameLinks s' s'') : SameLinks s s'' :=
  ⟨h'.currentLibIndex.trans h.currentLibIndex, h'.runningLinkTask.trans h.runningLinkTask,
    h'.started.trans h.started, h'.opened.trans h.opened⟩

theorem foldl {α : Type*} {f : Session W → α → Session W} (hf : ∀ s a, SameLinks s (f s a))
    (l : List α) (s : Session W) : SameLinks s (l.foldl f s) := by
  induction l generalizing s with
  | nil => exact .refl s
  | cons a l ih => exact (hf s a).trans (ih _)

theorem addLog (s : Session W) (severity : LogSeverity) (message : String) :
    SameLinks s (s.addLog severity message) := ⟨rfl, rfl, rfl, rfl⟩

/-- A callback of another kind. -/
theorem callback {e : Event} (hstarted : ∀ process, e ≠ .linkStarted process)
    (hopened : ∀ libPath opened, e ≠ .dlopen libPath opened)
    (effect : W → W × List HostEvent) (s : Session W) : SameLinks s (s.callback e effect) := by
  have hemit : SameLinks s { s.emit e with world := (effect s.world).1 } := by
    refine ⟨rfl, rfl, ?_, ?_⟩
    · cases e <;> first | rfl | exact absurd rfl (hstarted _)
    · cases e <;> first | rfl | exact absurd rfl (hopened _ _)
  refine hemit.trans ?_
  exact foldl (f := fun s e => s.emit (.host e)) (fun _ _ => ⟨rfl, rfl, rfl, rfl⟩) _ _

theorem pollTask (host : Host W) (env : Environment) (s : Session W) (key : String) :
    SameLinks s (s.pollTask host env key) := by
  unfold Session.pollTask
  split
  · rename_i status _ _ _
    refine trans ?_ (callback (by simp) (by simp) _ _)
    by_cases hstatus : status = 0
    · rw [if_pos hstatus]
      exact ⟨rfl, rfl, rfl, rfl⟩
    · rw [if_neg hstatus]
      exact ⟨rfl, rfl, rfl, rfl⟩
  · exact .refl s

theorem pollCompilations (host : Host W) (env : Environment) (s : Session W) :
    SameLinks s (s.pollCompilations host env) :=
  (foldl (pollTask host env) _ s).trans ⟨rfl, rfl, rfl, rfl⟩

theorem startPending (n : ℕ) (pending : List PendingCompilationTask) (s : Session W) :
    SameLinks s (Session.startPending n pending s) := by
  induction pending generalizing s with
  | nil => exact .refl s
  | cons task rest ih =>
      unfold Session.startPending
      split
      · refine trans ?_ (ih _)
        exact ⟨rfl, rfl, rfl, rfl⟩
      · exact .refl s

theorem resolveUndefined (context : LiveContext) (env : Environment) (round : ℕ)
    (names : Finset String) (search : LinkSearch W) :
    SameLinks search.session
      (Session.resolveUndefined context env round names search).session := by
  fun_induction Session.resolveUndefined context env round names search with
  | case1 => exact .refl _
  | case2 _ _ _ _ _ _ ih => exact ih
  | case3 _ _ _ _ _ _ _ _ ih => exact ih
  | case4 _ _ _ _ _ _ _ _ ih =>
      refine trans ?_ ih
      exact ⟨rfl, rfl, rfl, rfl⟩

theorem logFailed (s : Session W) : SameLinks s s.logFailed :=
  ((addLog s _ _).trans (foldl (fun _ _ => addLog _ _ _) _ _)).trans (addLog _ _ _)

end SameLinks

/-- The processes that were started have written the libraries with the numbers so far, and the
opened libraries are among them, each of them once. -/
structure Shelf (config : LiveConfig) (s : Session W) (indices : List ℕ) : Prop where
  index : s.compiler.currentLibIndex = (startedLinks s.trace).length + 1
  started : ∀ k process, (startedLinks s.trace).reverse[k]? = some process →
    LinksLibrary config (k + 1) process
  opened : openedLibraries s.trace = indices.map (reloadLibraryPath config)
  descending : indices.Pairwise (· > ·)
  bounds : ∀ k ∈ indices, 0 < k ∧ k < s.compiler.currentLibIndex
  task : ∀ task, s.compiler.runningLinkTask = some task → ∃ k,
    s.compiler.currentLibIndex = k + 1 ∧ 0 < k ∧
    task.cuOrLibFilepath = reloadLibraryPath config k ∧ k ∉ indices

namespace Shelf

variable {indices : List ℕ}

theorem initial (config : LiveConfig) (w : W) :
    Shelf config ({ world := w } : Session W) [] where
  index := rfl
  started := by simp [startedLinks]
  opened := rfl
  descending := .nil
  bounds := by simp
  task := by simp

theorem of_same (h : Shelf config s indices) (hs : SameLinks s s') : Shelf config s' indices where
  index := by rw [hs.currentLibIndex, hs.started, h.index]
  started := by rw [hs.started]; exact h.started
  opened := by rw [hs.opened, h.opened]
  descending := h.descending
  bounds := by rw [hs.currentLibIndex]; exact h.bounds
  task := by rw [hs.currentLibIndex, hs.runningLinkTask]; exact h.task

/-- A link process is started, with the next number. -/
theorem startLink (h : Shelf config s indices) (env : Environment) (callback : LinkFinishCallback)
    (objectFilePaths : List String) :
    Shelf config (s.startLink config env callback objectFilePaths) indices := by
  refine ⟨?_, ?_, h.opened, h.descending, ?_, ?_⟩
  · exact congrArg (· + 1) h.index
  · intro k process hk
    change ((_ :: startedLinks s.trace).reverse)[k]? = some process at hk
    rw [List.reverse_cons] at hk
    rcases Nat.lt_trichotomy k (startedLinks s.trace).length with hlt | rfl | hgt
    · rw [List.getElem?_append_left (by simpa using hlt)] at hk
      exact h.started k process hk
    · rw [List.getElem?_append_right (by simp)] at hk
      obtain rfl : _ = process := by simpa using hk
      exact ⟨_, _, objectFilePaths, by rw [← h.index]⟩
    · rw [List.getElem?_eq_none (by simp; omega)] at hk
      simp at hk
  · intro k hk
    exact ⟨(h.bounds k hk).1, Nat.lt_succ_of_lt (h.bounds k hk).2⟩
  · intro task htask
    obtain rfl := Option.some.inj htask
    refine ⟨s.compiler.currentLibIndex, rfl, by simp [h.index], rfl, ?_⟩
    intro hmem
    exact absurd (h.bounds _ hmem).2 (by simp)

theorem doLink (h : Shelf config s indices) (context : LiveContext) (env : Environment)
    (callback : LinkFinishCallback) :
    Shelf config (s.doLink config context env callback) indices := by
  unfold Session.doLink
  split
  · exact h.of_same (.addLog s _ _)
  · dsimp only
    have htaken : Shelf config (s.modify fun c => { c with shouldLink := false }) indices :=
      h.of_same ⟨rfl, rfl, rfl, rfl⟩
    have hsearch := fun names objects => htaken.of_same (SameLinks.resolveUndefined context env 0
      names ⟨s.modify fun c => { c with shouldLink := false }, objects, false⟩)
    split
    · exact (hsearch _ _).of_same ⟨rfl, rfl, rfl, rfl⟩
    · refine startLink ?_ env callback _
      exact (hsearch _ _).of_same ⟨rfl, rfl, rfl, rfl⟩

theorem decideLink (h : Shelf config s indices) (host : Host W) (env : Environment) :
    Shelf config (s.decideLink host config env) indices := by
  unfold Session.decideLink
  split
  · dsimp only
    have htaken : Shelf config (s.modify fun c => { c with shouldLink := false }) indices :=
      h.of_same ⟨rfl, rfl, rfl, rfl⟩
    split
    · exact htaken.doLink _ env _
    · exact htaken.of_same ((SameLinks.logFailed _).trans (.callback (by simp) (by simp) _ _))
  · exact h

end Shelf

theorem openedLibraries_loadLibrary (env : Environment) (libPath : String) (status : ℤ)
    (s : Session W) :
    openedLibraries (s.loadLibrary env libPath status).1.trace =
      if status = 0 then libPath :: openedLibraries s.trace else openedLibraries s.trace := by
  unfold loadLibrary
  split
  · cases env.dlerror <;> rfl
  · rfl

theorem startedLinks_loadLibrary (env : Environment) (libPath : String) (status : ℤ)
    (s : Session W) :
    startedLinks (s.loadLibrary env libPath status).1.trace = startedLinks s.trace := by
  unfold loadLibrary
  split
  · cases env.dlerror <;> rfl
  · rfl

namespace Shelf

variable {indices : List ℕ}

/-- The running link ends, and its library is opened if it was linked. -/
theorem pollLink (h : Shelf config s indices) (host : Host W) (env : Environment) :
    ∃ indices', Shelf config (s.pollLink host env) indices' := by
  unfold Session.pollLink
  split
  · rename_i task exitStatus err htask hexit
    obtain ⟨k, hindex, hpos, hpath, hfresh⟩ := h.task task htask
    dsimp only
    set logged := if exitStatus ≠ 0 then
        s.addLog .kWarning ("Link failed: " ++ task.cuOrLibFilepath ++ "\n" ++ err)
      else s.addLog .kInfo "Linked successfully" with hlogged
    have hsame : SameLinks s logged := by
      rw [hlogged]
      split <;> exact .addLog s _ _
    set loaded := logged.loadLibrary env task.cuOrLibFilepath exitStatus with hloaded
    have hcompiler : loaded.1.compiler.currentLibIndex = k + 1 := by
      rw [hloaded, loadLibrary_compiler, hsame.currentLibIndex, hindex]
    have hstarted : startedLinks loaded.1.trace = startedLinks s.trace := by
      rw [hloaded, startedLinks_loadLibrary, hsame.started]
    have hopened : openedLibraries loaded.1.trace =
        (if exitStatus = 0 then k :: indices else indices).map (reloadLibraryPath config) := by
      rw [hloaded, openedLibraries_loadLibrary, hsame.opened, h.opened, hpath]
      split <;> rfl
    refine ⟨if exitStatus = 0 then k :: indices else indices, ?_⟩
    generalize hcalled : Session.callback _ _ loaded.1 = called
    have hcallback : SameLinks loaded.1 called := by
      rw [← hcalled]
      exact .callback (by simp) (by simp) _ _
    have hindices : ∀ i ∈ indices, i < k := by
      intro i hi
      have hlt := (h.bounds i hi).2
      have hne : i ≠ k := fun heq => hfresh (heq ▸ hi)
      omega
    refine ⟨?_, ?_, ?_, ?_, ?_, by simp⟩
    · change called.compiler.currentLibIndex = (startedLinks called.trace).length + 1
      rw [hcallback.currentLibIndex, hcallback.started, hcompiler, hstarted, ← h.index, hindex]
    · change ∀ i process, (startedLinks called.trace).reverse[i]? = some process →
        LinksLibrary config (i + 1) process
      rw [hcallback.started, hstarted]
      exact h.started
    · exact hcallback.opened.trans hopened
    · split
      · exact List.pairwise_cons.mpr ⟨hindices, h.descending⟩
      · exact h.descending
    · change ∀ i ∈ _, 0 < i ∧ i < called.compiler.currentLibIndex
      rw [hcallback.currentLibIndex, hcompiler]
      intro i hi
      have hcases : i = k ∨ i ∈ indices := by
        split at hi
        · exact List.mem_cons.mp hi
        · exact Or.inr hi
      rcases hcases with rfl | hi
      · exact ⟨hpos, Nat.lt_succ_self i⟩
      · exact ⟨(h.bounds i hi).1, Nat.lt_succ_of_lt (hindices i hi)⟩
  · exact ⟨indices, h⟩

end Shelf

end Session

namespace Run

variable {W : Type*} {host : Host W} {d : Discipline} {s : Session W}

theorem shelf (h : Run host d s) : ∃ indices, s.Shelf d.config indices := by
  induction h with
  | start w => exact ⟨[], .initial d.config w⟩
  | @call s _ call _ ih =>
      obtain ⟨indices, hshelf⟩ := ih
      cases call with
      | compile cu callback => exact ⟨indices, hshelf.of_same ⟨rfl, rfl, rfl, rfl⟩⟩
      | remove order p => exact ⟨indices, hshelf.of_same ⟨rfl, rfl, rfl, rfl⟩⟩
      | link callback => exact ⟨indices, hshelf.of_same ⟨rfl, rfl, rfl, rfl⟩⟩
      | update env =>
          have hbefore : Session.Shelf d.config (s.beforeDecideLink host d.config env) indices :=
            hshelf.of_same
              ((Session.SameLinks.pollCompilations host env s).trans (.startPending _ _ _))
          exact (hbefore.decideLink host env).pollLink host env
  | outside _ w ih =>
      obtain ⟨indices, hshelf⟩ := ih
      exact ⟨indices, hshelf.of_same ⟨rfl, rfl, rfl, rfl⟩⟩

/-- **Every library is opened once**: after any calls, no path was given to `dlopen` twice, and
every path given to it is that of the library that one of the link processes was told to write,
the one with the same number. -/
theorem opens_own_libraries (h : Run host d s) :
    (openedLibraries s.trace).Nodup ∧ ∀ libPath ∈ openedLibraries s.trace,
      ∃ k process, libPath = reloadLibraryPath d.config (k + 1) ∧
        (startedLinks s.trace).reverse[k]? = some process ∧
        LinksLibrary d.config (k + 1) process := by
  obtain ⟨indices, hshelf⟩ := h.shelf
  have hnodup : indices.Nodup := hshelf.descending.imp fun hlt => Nat.ne_of_gt hlt
  refine ⟨?_, ?_⟩
  · rw [hshelf.opened]
    exact hnodup.map (reloadLibraryPath_injective d.config)
  · rw [hshelf.opened]
    intro libPath hmem
    obtain ⟨k, hk, rfl⟩ := List.mem_map.mp hmem
    obtain ⟨hpos, hlt⟩ := hshelf.bounds k hk
    rw [hshelf.index] at hlt
    obtain ⟨k, rfl⟩ := Nat.exists_eq_succ_of_ne_zero (Nat.pos_iff_ne_zero.mp hpos)
    have hbound : k < (startedLinks s.trace).reverse.length := by
      rw [List.length_reverse]
      omega
    have hprocess := List.getElem?_eq_getElem hbound
    exact ⟨k, _, rfl, hprocess, hshelf.started k _ hprocess⟩

/-- Two reloads. -/
theorem opens_own_libraries_twice : ∃ s : Session Unit, Run Host.idle (.free {}) s ∧
    openedLibraries s.trace = ["/lib_reload2.so", "/lib_reload1.so"] ∧
    (openedLibraries s.trace).Nodup := by
  have hrun := Run.after
    (Call.compileOne { sourceFilePath := "a.cpp" } 0 ++ [.link none, .update .linked] ++
      Call.compileOne { sourceFilePath := "a.cpp" } 0 ++ [.link none, .update .linked])
  exact ⟨_, hrun, by decide +kernel, hrun.opens_own_libraries.1⟩

end Run

end JetLive
