import JetLive.Library.Debounce
import JetLive.Library.Loop
import JetLive.Live.Operations

/-!
# The file watcher

The operating system often reports several events for one change of a file. The listener of the
watcher collapses them: it has a table with the times of the events it has accepted, from which
obsolete times are removed at every event. The events it appends are those that `Debounce` keeps.
-/

namespace JetLive

open Containers

/-- `efsw::Action`. -/
inductive EfswAction
  | add
  | delete
  | modified
  | moved
  deriving DecidableEq, Repr

/-- `FileWatcher::Action`. -/
inductive WatcherAction
  | kAdded
  | kMoved
  | kModified
  | kDeleted
  deriving DecidableEq, Repr

/-- `FileWatcher::Event`. -/
structure WatcherEvent where
  action : WatcherAction
  directory : String
  filename : String
  oldFilename : String
  deriving DecidableEq, Repr

def WatcherEvent.toFileEvent (event : WatcherEvent) : FileEvent :=
  { directory := event.directory, filename := event.filename }

/-- What the listener is called with, and the time in nanoseconds when this happens. -/
structure RawEvent where
  dir : String
  filename : String
  action : EfswAction
  oldFilename : String := ""
  now : ℤ
  deriving DecidableEq, Repr

namespace RawEvent

def fullFilepath (e : RawEvent) : String := e.dir ++ e.filename

def enumMapping : EfswAction → WatcherAction
  | .add => .kAdded
  | .moved => .kMoved
  | .modified => .kModified
  | .delete => .kDeleted

def toEvent (e : RawEvent) : WatcherEvent :=
  { action := enumMapping e.action, directory := e.dir, filename := e.filename,
    oldFilename := e.oldFilename }

/-- The event is not ignored at once. There may be no filter function. -/
def Accepted (filterFunction : Option (String → String → Bool)) (e : RawEvent) : Prop :=
  e.action ≠ .delete ∧ ∀ f ∈ filterFunction, f e.dir e.filename = true

instance (filterFunction : Option (String → String → Bool)) (e : RawEvent) :
    Decidable (e.Accepted filterFunction) :=
  inferInstanceAs (Decidable (_ ∧ _))

end RawEvent

/-- What happens to a watcher: the thread of the watcher calls its listener, and the application
updates it. -/
inductive WatcherCall
  | fileAction (e : RawEvent)
  | update

/-- `m_modificationTimePoints` and `m_fileEvents`. -/
structure FileWatcher where
  modificationTimePoints : UnorderedMap String ℤ := ∅
  fileEvents : List WatcherEvent := []

namespace FileWatcher

/-- `m_fileModificationWindowMsec`, in nanoseconds. -/
def fileModificationWindow : ℤ := 100 * 1000000

/-- Remove the obsolete time points; the loop that collects them may take any order. -/
def removeObsolete (order : Iteration String) (now : ℤ) (timePoints : UnorderedMap String ℤ) :
    UnorderedMap String ℤ :=
  let timePointsToRemove := (order.toList timePoints.keys).filter fun el =>
    (timePoints.lookup el).any fun tp => fileModificationWindow < now - tp
  eraseAll timePoints timePointsToRemove

variable (filterFunction : Option (String → String → Bool)) (order : Iteration String)

def handleFileAction (w : FileWatcher) (e : RawEvent) : FileWatcher :=
  if e.action = .delete then w
  else if filterFunction.any fun f => !f e.dir e.filename then w
  else
    let timePoints := removeObsolete order e.now w.modificationTimePoints
    if e.fullFilepath ∈ timePoints then { w with modificationTimePoints := timePoints }
    else
      { modificationTimePoints := timePoints.insert e.fullFilepath e.now
        fileEvents := w.fileEvents ++ [e.toEvent] }

/-- `FileWatcher::update`: the events go to the callback. -/
def update (w : FileWatcher) : FileWatcher × List WatcherEvent :=
  ({ w with fileEvents := [] }, w.fileEvents)

def perform (w : FileWatcher) : WatcherCall → FileWatcher
  | .fileAction e => w.handleFileAction filterFunction order e
  | .update => w.update.1

def run (calls : List WatcherCall) : FileWatcher := calls.foldl (perform filterFunction order) {}

def rawEvents (calls : List WatcherCall) : List RawEvent :=
  calls.filterMap fun
    | .fileAction e => some e
    | .update => none

def Appends (w : FileWatcher) (e : RawEvent) : Prop :=
  (w.handleFileAction filterFunction order e).fileEvents = w.fileEvents ++ [e.toEvent]

instance (w : FileWatcher) (e : RawEvent) : Decidable (w.Appends filterFunction order e) :=
  inferInstanceAs (Decidable (_ = _))

def delivered (w : FileWatcher) : List WatcherCall → List WatcherEvent
  | [] => []
  | .update :: calls => w.update.2 ++ delivered w.update.1 calls
  | .fileAction e :: calls => delivered (w.handleFileAction filterFunction order e) calls

def appendedBy (w : FileWatcher) : WatcherCall → Option RawEvent
  | .fileAction e => if w.Appends filterFunction order e then some e else none
  | .update => none

def appended (calls : List WatcherCall) : List RawEvent :=
  Loop.outputs (perform filterFunction order) (appendedBy filterFunction order) {} calls

/-! ## The table of time points -/

variable {filterFunction order} {w : FileWatcher} {kept : List RawEvent} {e : RawEvent} {now : ℤ}

theorem lookup_removeObsolete (order : Iteration String) (now : ℤ)
    (timePoints : UnorderedMap String ℤ) (k : String) :
    (removeObsolete order now timePoints).lookup k =
      (timePoints.lookup k).filter fun tp => now - tp ≤ fileModificationWindow := by
  rw [removeObsolete, lookup_eraseAll]
  cases htp : timePoints.lookup k with
  | none => simp
  | some tp =>
      have hmem : k ∈ timePoints := Finmap.mem_of_lookup_eq_some htp
      simp only [List.mem_filter, Iteration.mem_toList, Finmap.mem_keys, hmem, htp, true_and,
        Option.any_some, decide_eq_true_eq, Option.filter_some]
      split_ifs with h h' <;> first | rfl | omega

/-- The table has the times of the appended events that are not obsolete. -/
abbrev Tracks (w : FileWatcher) (kept : List RawEvent) (now : ℤ) : Prop :=
  Debounce.Tracks RawEvent.fullFilepath RawEvent.now fileModificationWindow
    w.modificationTimePoints.lookup kept now

/-- No appended event of the same file lies at most 100 ms before the event. -/
abbrev Fresh (kept : List RawEvent) (e : RawEvent) : Prop :=
  Debounce.Fresh RawEvent.fullFilepath RawEvent.now fileModificationWindow kept e

/-- The appended events after one more accepted event. -/
abbrev keep (kept : List RawEvent) (e : RawEvent) : List RawEvent :=
  Debounce.keep RawEvent.fullFilepath RawEvent.now fileModificationWindow kept e

abbrev keepAll (kept l : List RawEvent) : List RawEvent :=
  Debounce.keepAll RawEvent.fullFilepath RawEvent.now fileModificationWindow kept l

/-- The listener looks at the table for an accepted event only. -/
theorem handleFileAction_eq (w : FileWatcher) (e : RawEvent) :
    w.handleFileAction filterFunction order e =
      if e.Accepted filterFunction then
        if e.fullFilepath ∈ removeObsolete order e.now w.modificationTimePoints then
          { w with modificationTimePoints := removeObsolete order e.now w.modificationTimePoints }
        else
          { modificationTimePoints :=
              (removeObsolete order e.now w.modificationTimePoints).insert e.fullFilepath e.now
            fileEvents := w.fileEvents ++ [e.toEvent] }
      else w := by
  unfold handleFileAction RawEvent.Accepted
  cases filterFunction with
  | none => by_cases hdelete : e.action = .delete <;> simp [hdelete]
  | some f =>
      by_cases hdelete : e.action = .delete <;> cases hf : f e.dir e.filename <;>
        simp [hdelete, hf]

/-- One call of the listener with an accepted event. -/
theorem Tracks.handleFileAction (h : w.Tracks kept now) (hle : now ≤ e.now)
    (haccepted : e.Accepted filterFunction) (order : Iteration String) :
    (w.Appends filterFunction order e ↔ Fresh kept e) ∧
      (w.handleFileAction filterFunction order e).Tracks (keep kept e) e.now := by
  have hpurged := (h.mono hle).purge (lookup_removeObsolete order e.now w.modificationTimePoints)
  have hfresh := hpurged.eq_none_iff fun k tp htp => by
    rw [lookup_removeObsolete, Option.filter_eq_some_iff] at htp
    simpa using htp.2
  rw [Finmap.lookup_eq_none] at hfresh
  rw [Appends, handleFileAction_eq, if_pos haccepted, keep, Debounce.keep]
  by_cases hmem : e.fullFilepath ∈ removeObsolete order e.now w.modificationTimePoints
  · have hnot : ¬ Fresh kept e := fun hf => hfresh.mpr hf hmem
    rw [if_pos hmem, if_neg hnot]
    exact ⟨iff_of_false (by simp) hnot, hpurged⟩
  · have hyes := hfresh.mp hmem
    rw [if_neg hmem, if_pos hyes]
    refine ⟨iff_of_true rfl hyes, hpurged.record hyes fun k => ?_⟩
    by_cases hk : k = e.fullFilepath
    · subst hk
      rw [if_pos rfl]
      exact Finmap.lookup_insert _
    · rw [if_neg hk]
      exact Finmap.lookup_insert_of_ne _ hk

theorem handleFileAction_of_not_accepted (h : ¬ e.Accepted filterFunction) :
    w.handleFileAction filterFunction order e = w := by
  rw [handleFileAction_eq, if_neg h]

theorem not_appends_of_not_accepted (h : ¬ e.Accepted filterFunction) :
    ¬ w.Appends filterFunction order e := by
  rw [Appends, handleFileAction_of_not_accepted h]
  simp

theorem Tracks.append_appendedBy (h : w.Tracks kept now) (hle : now ≤ e.now)
    (haccepted : e.Accepted filterFunction) (order : Iteration String) :
    kept ++ (appendedBy filterFunction order w (.fileAction e)).toList = keep kept e := by
  obtain ⟨happends, _⟩ := h.handleFileAction hle haccepted order
  rw [appendedBy, keep, Debounce.keep]
  by_cases hfresh : Fresh kept e
  · rw [if_pos hfresh, if_pos (happends.mpr hfresh), Option.toList_some]
  · rw [if_neg hfresh, if_neg (mt happends.mp hfresh), Option.toList_none, List.append_nil]

theorem appendedBy_of_not_accepted (h : ¬ e.Accepted filterFunction) :
    appendedBy filterFunction order w (.fileAction e) = none := by
  rw [appendedBy, if_neg (not_appends_of_not_accepted h)]

/-- The listener appends the event or leaves the events as they are. -/
theorem fileEvents_handleFileAction (w : FileWatcher) (e : RawEvent) :
    (w.handleFileAction filterFunction order e).fileEvents =
      w.fileEvents ++ ((appendedBy filterFunction order w (.fileAction e)).map
        RawEvent.toEvent).toList := by
  by_cases h : w.Appends filterFunction order e
  · rw [appendedBy, if_pos h]
    exact h
  · rw [appendedBy, if_neg h, Option.map_none, Option.toList_none, List.append_nil]
    unfold Appends at h
    rw [handleFileAction_eq] at h ⊢
    split_ifs at h ⊢
    · rfl
    · exact absurd rfl h
    · rfl

/-! ## Runs -/

variable {calls : List WatcherCall}

theorem appended_concat (calls : List WatcherCall) (call : WatcherCall) :
    appended filterFunction order (calls ++ [call]) = appended filterFunction order calls ++
      (appendedBy filterFunction order (run filterFunction order calls) call).toList := by
  rw [appended, Loop.outputs_append, Loop.outputs_cons, Loop.outputs_nil, List.append_nil]
  rfl

theorem run_concat (calls : List WatcherCall) (call : WatcherCall) :
    run filterFunction order (calls ++ [call]) =
      (run filterFunction order calls).perform filterFunction order call :=
  List.foldl_concat _ _ _ _

theorem tracks_empty (now : ℤ) : ({} : FileWatcher).Tracks [] now :=
  (Debounce.Tracks.nil now).mono le_rfl

/-- The appended events are those of the accepted ones that are kept, and the table tracks them at
any time after the last event. -/
theorem tracks_run (order : Iteration String)
    (hsorted : (rawEvents calls).Pairwise fun e e' => e.now ≤ e'.now) :
    (∀ now, (∀ e ∈ rawEvents calls, e.now ≤ now) →
        (run filterFunction order calls).Tracks (appended filterFunction order calls) now) ∧
      appended filterFunction order calls =
        keepAll [] ((rawEvents calls).filter (RawEvent.Accepted filterFunction)) := by
  induction calls using List.reverseRecOn with
  | nil => exact ⟨fun now _ => tracks_empty now, rfl⟩
  | append_singleton calls call ih =>
      rw [run_concat, appended_concat]
      cases call with
      | update =>
          have hraw : rawEvents (calls ++ [.update]) = rawEvents calls := by
            simp [rawEvents]
          rw [hraw] at hsorted ⊢
          obtain ⟨htracks, heq⟩ := ih hsorted
          rw [appendedBy, Option.toList_none, List.append_nil]
          exact ⟨htracks, heq⟩
      | fileAction e =>
          have hraw : rawEvents (calls ++ [.fileAction e]) = rawEvents calls ++ [e] := by
            simp [rawEvents]
          rw [hraw] at hsorted ⊢
          obtain ⟨hsorted, _, hle⟩ := List.pairwise_append.mp hsorted
          obtain ⟨htracks, heq⟩ := ih hsorted
          have htracks := htracks e.now fun e' he' => hle e' he' e (List.mem_singleton_self e)
          have hkeep : keepAll [] ((rawEvents calls ++ [e]).filter
              (RawEvent.Accepted filterFunction)) = keepAll (appended filterFunction order calls)
                ([e].filter (RawEvent.Accepted filterFunction)) := by
            rw [heq, List.filter_append]
            exact Debounce.keepAll_append _ _ _
          rw [hkeep, perform]
          by_cases haccepted : e.Accepted filterFunction
          · rw [htracks.append_appendedBy le_rfl haccepted order,
              List.filter_cons_of_pos (by simpa using haccepted)]
            refine ⟨fun now hnow => ?_, rfl⟩
            exact (htracks.handleFileAction le_rfl haccepted order).2.mono (hnow e (by simp))
          · rw [appendedBy_of_not_accepted haccepted, handleFileAction_of_not_accepted haccepted,
              List.filter_cons_of_neg (by simpa using haccepted), Option.toList_none,
              List.append_nil]
            exact ⟨fun now hnow => htracks.mono (hnow e (by simp)), rfl⟩

/-- The events that went to the callback and those that wait are the appended ones. -/
theorem delivered_append_fileEvents (w : FileWatcher) (calls : List WatcherCall) :
    delivered filterFunction order w calls ++
        (calls.foldl (perform filterFunction order) w).fileEvents =
      w.fileEvents ++ (Loop.outputs (perform filterFunction order)
        (appendedBy filterFunction order) w calls).map RawEvent.toEvent := by
  induction calls generalizing w with
  | nil => simp [delivered]
  | cons call calls ih =>
      rw [List.foldl_cons, Loop.outputs_cons, List.map_append, ← Option.toList_map]
      cases call with
      | update =>
          rw [delivered, List.append_assoc]
          exact congrArg (w.fileEvents ++ ·) (ih w.update.1)
      | fileAction e =>
          rw [delivered, ← List.append_assoc, ← fileEvents_handleFileAction]
          exact ih _

/-- The calls without the events of other files. -/
def callsOf (f : String) (calls : List WatcherCall) : List WatcherCall :=
  calls.filter fun
    | .fileAction e => e.fullFilepath = f
    | .update => true

theorem rawEvents_callsOf (f : String) (calls : List WatcherCall) :
    rawEvents (callsOf f calls) = (rawEvents calls).filter (·.fullFilepath = f) := by
  induction calls with
  | nil => rfl
  | cons call calls ih =>
      cases call with
      | update => exact ih
      | fileAction e =>
          by_cases he : e.fullFilepath = f
          · simp [callsOf, rawEvents, he] at ih ⊢
            exact ih
          · simp [callsOf, rawEvents, he] at ih ⊢
            exact ih

theorem callsOf_sorted (f : String)
    (hsorted : (rawEvents calls).Pairwise fun e e' => e.now ≤ e'.now) :
    (rawEvents (callsOf f calls)).Pairwise fun e e' => e.now ≤ e'.now := by
  rw [rawEvents_callsOf]
  exact hsorted.filter _

section

variable {before after : List WatcherCall}

/-- The events before one of the calls come in order and not after it. -/
theorem rawEvents_before
    (hsorted : (rawEvents (before ++ .fileAction e :: after)).Pairwise
      fun e e' => e.now ≤ e'.now) :
    (rawEvents before).Pairwise (fun e e' => e.now ≤ e'.now) ∧
      ∀ e' ∈ rawEvents before, e'.now ≤ e.now := by
  have hraw : rawEvents (before ++ .fileAction e :: after) =
      rawEvents before ++ e :: rawEvents after := by
    simp [rawEvents]
  rw [hraw] at hsorted
  obtain ⟨hbefore, _, hle⟩ := List.pairwise_append.mp hsorted
  exact ⟨hbefore, fun e' he' => hle e' he' e List.mem_cons_self⟩

/-- What the listener does with an event in a run. -/
theorem appends_run_iff (order : Iteration String)
    (hsorted : (rawEvents (before ++ .fileAction e :: after)).Pairwise
      fun e e' => e.now ≤ e'.now) :
    (run filterFunction order before).Appends filterFunction order e ↔
      e.Accepted filterFunction ∧ ∀ e' ∈ appended filterFunction order before,
        e'.fullFilepath = e.fullFilepath → fileModificationWindow < e.now - e'.now := by
  obtain ⟨hbefore, hle⟩ := rawEvents_before hsorted
  by_cases haccepted : e.Accepted filterFunction
  · have htracks : (run filterFunction order before).Tracks
        (appended filterFunction order before) e.now := (tracks_run order hbefore).1 e.now hle
    rw [and_iff_right haccepted]
    exact (htracks.handleFileAction le_rfl haccepted order).1
  · exact iff_of_false (not_appends_of_not_accepted haccepted) fun h => haccepted h.1

/-- Only events that came before are appended. -/
theorem now_le_of_mem_appended (order : Iteration String)
    (hsorted : (rawEvents (before ++ .fileAction e :: after)).Pairwise
      fun e e' => e.now ≤ e'.now) {e' : RawEvent}
    (he' : e' ∈ appended filterFunction order before) : e'.now ≤ e.now := by
  obtain ⟨hbefore, hle⟩ := rawEvents_before hsorted
  rw [(tracks_run order hbefore).2] at he'
  rcases Debounce.mem_of_mem_keepAll he' with he' | he'
  · exact absurd he' List.not_mem_nil
  · exact hle e' (List.mem_filter.mp he').1

end

/-- An event is appended exactly if it is accepted and no earlier appended event of the same file
lies at most 100 ms before it. For a file this does not depend on the events of other files, and
before every accepted event that is dropped there is an appended one of the same file. -/
theorem appended_exact (filterFunction : Option (String → String → Bool))
    (order : Iteration String)
    (hsorted : (rawEvents calls).Pairwise fun e e' => e.now ≤ e'.now) :
    delivered filterFunction order {} calls ++ (run filterFunction order calls).fileEvents =
        (appended filterFunction order calls).map RawEvent.toEvent ∧
      (∀ before e after, calls = before ++ .fileAction e :: after →
        ((run filterFunction order before).Appends filterFunction order e ↔
            e.Accepted filterFunction ∧ ∀ e' ∈ appended filterFunction order before,
              e'.fullFilepath = e.fullFilepath → fileModificationWindow < e.now - e'.now) ∧
          (e.Accepted filterFunction → ¬ (run filterFunction order before).Appends
              filterFunction order e →
            ∃ e' ∈ appended filterFunction order before, e'.fullFilepath = e.fullFilepath ∧
              e'.now ≤ e.now ∧ e.now - e'.now ≤ fileModificationWindow)) ∧
      ∀ f, (appended filterFunction order calls).filter (·.fullFilepath = f) =
        appended filterFunction order (callsOf f calls) := by
  refine ⟨delivered_append_fileEvents {} calls, ?_, ?_⟩
  · rintro before e after rfl
    have happends : _ ↔ e.Accepted filterFunction ∧ _ := appends_run_iff order hsorted
    refine ⟨happends, fun haccepted hnot => ?_⟩
    have hstale := mt happends.mpr hnot
    simp only [haccepted, true_and, not_forall, not_lt] at hstale
    obtain ⟨e', he', hfile, hwindow⟩ := hstale
    exact ⟨e', he', hfile, now_le_of_mem_appended order hsorted he', hwindow⟩
  · intro f
    rw [(tracks_run order hsorted).2, (tracks_run order (callsOf_sorted f hsorted)).2,
      rawEvents_callsOf, Debounce.filter_keepAll, List.filter_nil, List.filter_filter,
      List.filter_filter]
    simp only [Bool.and_comm]

/-- In a run of the library a call of the listener is one `fileAction` if the event is appended,
and nothing otherwise. -/
theorem fileAction_appendedBy {s : Live} (order : Iteration String) (e : RawEvent)
    (h : s.world.fileWatcher = some (w.fileEvents.map WatcherEvent.toFileEvent)) :
    let filterFunction := some fun _ filename => Live.watched filename
    ((appendedBy filterFunction order w (.fileAction e)).toList.foldl
        (fun s e => s.fileAction e.dir e.filename) s).world.fileWatcher =
      some ((w.handleFileAction filterFunction order e).fileEvents.map
        WatcherEvent.toFileEvent) := by
  intro filterFunction
  rw [fileEvents_handleFileAction]
  by_cases happends : w.Appends filterFunction order e
  · have haccepted : e.Accepted filterFunction := by
      by_contra hnot
      exact not_appends_of_not_accepted hnot happends
    have hwatched : Live.watched e.filename = true := haccepted.2 _ rfl
    simp [appendedBy, happends, Live.fileAction, Session.modifyWorld, hwatched, h,
      RawEvent.toEvent, WatcherEvent.toFileEvent]
  · simp [appendedBy, happends, h]

end FileWatcher

/-- Two files change; the second event of the first one is exactly 100 ms after the first, the
third one a nanosecond later. -/
def burst : List WatcherCall :=
  let event (filename : String) (now : ℤ) : WatcherCall :=
    .fileAction { dir := "/p/", filename, action := .modified, now }
  [event "a.cpp" 0, event "b.cpp" 50000000, .update, event "a.cpp" 100000000,
    event "b.cpp" 100000001, event "a.cpp" 100000001]

example : (FileWatcher.appended none Iteration.increasing burst).map
    (fun e => (e.filename, e.now)) =
      [("a.cpp", 0), ("b.cpp", 50000000), ("a.cpp", 100000001)] := by
  decide +kernel

theorem burst_appended_exact :
    (FileWatcher.appended none Iteration.increasing burst).filter (·.fullFilepath = "/p/a.cpp") =
      FileWatcher.appended none Iteration.increasing (FileWatcher.callsOf "/p/a.cpp" burst) := by
  obtain ⟨_, _, hfiles⟩ := FileWatcher.appended_exact none Iteration.increasing
    (by decide : (FileWatcher.rawEvents burst).Pairwise fun e e' => e.now ≤ e'.now)
  exact hfiles "/p/a.cpp"

end JetLive
