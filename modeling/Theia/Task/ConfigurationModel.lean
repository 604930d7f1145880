import Theia.PluginExt.ManifestLoader
/-!
# `TaskConfigurationModel`: a folder's tasks, kept in step with the preferences

`TaskConfigurationModel` (`packages/task/src/browser/task-configuration-model.ts`) holds the tasks
that the `tasks` preference gives one workspace folder. It reads them when it is made, and again
at every change of `tasks` that affects the folder, until it is disposed. The preference service
is not among the sources: a change brings what `resolve('tasks', undefined, folder)` gives after
it, and the model reacts to the changes one by one (`step`, `run`).

* `run_spec`: a run of a model that is not disposed, by induction over its events from what
  one step does (`run_of_disposed`, `step_preferenceChanged`).
* `run_create`: after any run, a model holds the tasks of the last resolution that a change of
  `tasks` affecting the folder brought before `dispose` (of its first one when there is none),
  and `onDidChange` has fired once for each of these changes and for no other event.
-/

namespace Theia.Task

open Theia.PluginExt (Json)

/-- What `preferences.resolve('tasks', undefined, workspaceFolderUri)` gives: the URI of the
configuration the value comes from, and the value, `none` for `undefined`. -/
structure Resolved where
  configUri : Option (List Char)
  value : Option Json

/-- `TaskConfigurationModel.JsonContent`. -/
structure JsonContent where
  uri : Option (List Char)
  configurations : List Json

/-- `parseConfigurations`: the items of `value.tasks` when the value is an object whose `tasks` is
an array. JSON objects inherit no `tasks`, so `'tasks' in value` asks for an own property. -/
def parseConfigurations (resolved : Resolved) : JsonContent :=
  { uri := resolved.configUri
    configurations :=
      match resolved.value with
      | some (.obj fields) =>
        match fields.lookup "tasks".toList with
        | some (.arr tasks) => tasks
        | _ => []
      | _ => [] }

/-- The model: its content, how many times `onDidChange` has fired, and whether it is disposed. -/
structure TaskConfigurationModel where
  json : JsonContent
  fired : Nat
  disposed : Bool

namespace TaskConfigurationModel

/-- The constructor: `reconcile()` fires before anyone can listen, then the model subscribes to
the preference changes. -/
def create (resolved : Resolved) : TaskConfigurationModel := ⟨parseConfigurations resolved, 0, false⟩

/-- `reconcile`. -/
def reconcile (m : TaskConfigurationModel) (resolved : Resolved) : TaskConfigurationModel :=
  { m with json := parseConfigurations resolved, fired := m.fired + 1 }

/-- The model's listener of `onPreferenceChanged`. -/
def onPreferenceChanged (m : TaskConfigurationModel) (preferenceName : List Char) (affects : Bool)
    (resolved : Resolved) : TaskConfigurationModel :=
  if preferenceName = "tasks".toList ∧ affects then m.reconcile resolved else m

/-- `setConfigurations(value)`: the preference it sets, with the value, in the folder's scope. -/
def setConfigurations (workspaceFolderUri : List Char) (value : Json) : List Char × Json × List Char :=
  ("tasks.tasks".toList, value, workspaceFolderUri)

/-- What reaches the model: a change of a preference, with whether it affects the folder and what
`resolve` gives after it, or `dispose`. -/
inductive Event where
  | preferenceChanged (preferenceName : List Char) (affects : Bool) (resolved : Resolved)
  | dispose

/-- `dispose` removes the listener with the emitter, so later changes reach nothing. -/
def step (m : TaskConfigurationModel) : Event → TaskConfigurationModel
  | .preferenceChanged preferenceName affects resolved =>
    if m.disposed then m else m.onPreferenceChanged preferenceName affects resolved
  | .dispose => { m with disposed := true }

def run (m : TaskConfigurationModel) (events : List Event) : TaskConfigurationModel :=
  events.foldl step m

/-! ## What a run does -/

/-- Whether an event is `dispose`. -/
def Event.isDispose : Event → Bool
  | .preferenceChanged .. => false
  | .dispose => true

/-- The resolution a change of `tasks` affecting the folder brings. -/
def Event.tasksChange : Event → Option Resolved
  | .preferenceChanged preferenceName affects resolved =>
    if preferenceName = "tasks".toList ∧ affects then some resolved else none
  | .dispose => none

/-- The changes of `tasks` affecting the folder that come before `dispose`. -/
def tasksChanges (events : List Event) : List Resolved :=
  (events.takeWhile (!·.isDispose)).filterMap Event.tasksChange

theorem run_of_disposed {m : TaskConfigurationModel} (h : m.disposed = true) (events : List Event) :
    run m events = m := by
  induction events with
  | nil => rfl
  | cons e events ih =>
    have hstep : step m e = m := by
      cases e with
      | preferenceChanged => exact if_pos h
      | dispose => cases m; cases h; rfl
    rw [run, List.foldl_cons, hstep]
    exact ih

theorem step_preferenceChanged {m : TaskConfigurationModel} (h : m.disposed = false) (preferenceName : List Char)
    (affects : Bool) (resolved : Resolved) :
    step m (.preferenceChanged preferenceName affects resolved) =
      match (Event.preferenceChanged preferenceName affects resolved).tasksChange with
      | some resolved => m.reconcile resolved
      | none => m := by
  simp only [step, h, Bool.false_eq_true, if_false, onPreferenceChanged, Event.tasksChange]
  split <;> rfl

/-- A run from a model that is not disposed: its content comes from the last change of `tasks`
before `dispose`, and it fires once per such change. -/
theorem run_spec {m : TaskConfigurationModel} (h : m.disposed = false) (events : List Event) :
    (run m events).json = ((tasksChanges events).getLast?.map parseConfigurations).getD m.json ∧
      (run m events).fired = m.fired + (tasksChanges events).length := by
  induction events generalizing m with
  | nil => simp [run, tasksChanges]
  | cons e events ih =>
    have hrun : run m (e :: events) = run (step m e) events := rfl
    cases e with
    | dispose =>
      rw [hrun, step, run_of_disposed rfl]
      simp [tasksChanges, Event.isDispose]
    | preferenceChanged preferenceName affects resolved =>
      have hchanges : tasksChanges (.preferenceChanged preferenceName affects resolved :: events) =
          (Event.preferenceChanged preferenceName affects resolved).tasksChange.toList ++ tasksChanges events := by
        simp only [tasksChanges, List.takeWhile_cons, Event.isDispose, Bool.not_false, if_true,
          List.filterMap_cons]
        cases Event.tasksChange _ <;> rfl
      rw [hrun, step_preferenceChanged h, hchanges]
      cases Event.tasksChange (.preferenceChanged preferenceName affects resolved) with
      | none => exact ih h
      | some resolved' =>
        obtain ⟨ihjson, ihfired⟩ := @ih (m.reconcile resolved') h
        refine ⟨?_, ?_⟩
        · rw [ihjson, Option.toList_some, List.singleton_append, List.getLast?_cons]
          cases (tasksChanges events).getLast? <;> rfl
        · rw [ihfired, Option.toList_some, List.singleton_append, List.length_cons]
          simp only [reconcile]
          omega

/-- A model follows the changes of `tasks` that affect its folder until it is disposed, and
announces each of them once. -/
theorem run_create (resolved : Resolved) (events : List Event) :
    (run (create resolved) events).json = parseConfigurations ((tasksChanges events).getLast?.getD resolved) ∧
      (run (create resolved) events).fired = (tasksChanges events).length := by
  obtain ⟨hjson, hfired⟩ := @run_spec (create resolved) rfl events
  refine ⟨?_, by rw [hfired, create, Nat.zero_add]⟩
  rw [hjson]
  cases (tasksChanges events).getLast? <;> rfl

end TaskConfigurationModel

end Theia.Task
