import Mathlib.Data.List.Basic
/-!
# Collapsing a side panel: `SideTabBar`'s mouse handling

A side panel collapses when its selected tab is clicked: `SideTabBar.handleEvent`
(`packages/core/src/browser/shell/tab-bars.ts`) emits `collapseRequested` when the mouse goes up
on the current tab without a drag since it went down there. The handlers keep one piece of state,
`mouseData`, the press in progress.

* `handleEvent_fst_eq_some`: what one event does to the press: only a left press on the current
  tab, off its close icon and with no press in progress, starts one; only a left release, or a
  left move of `DRAG_THRESHOLD` pixels from where it went down, ends one.
* `mouseData_run`: after any run from a bar with no press, a press is in progress exactly when
  one started and nothing since ended it.
* `collapse_iff`: an event requests the collapse of tab `index` exactly when it is a left release
  over that tab, and the press in progress went down on it, when it was the current tab.

What the superclass's handler does with the same events (selecting and dragging tabs) is left
out: the current index and the tab under the pointer are read from the event, as the handlers
find them. Coordinates are whole pixels (`Int`).
-/

namespace Theia.Core

/-- What the handlers read of a mouse event. -/
structure MouseEvent where
  button : Int
  clientX : Int
  clientY : Int
  /-- `ArrayExt.findFirstIndex(tabs, tab => ElementExt.hitTest(tab, event.clientX, event.clientY))`:
  the first tab under the pointer, or `-1`. -/
  index : Int
  /-- The close icon of that tab contains the event's target. -/
  onCloseIcon : Bool
  deriving DecidableEq, Repr

/-- The events `handleEvent` tells apart; a `mousedown` comes with the bar's `currentIndex`. -/
inductive MouseEventType where
  | mousedown (event : MouseEvent) (currentIndex : Int)
  | mouseup (event : MouseEvent)
  | mousemove (event : MouseEvent)
  | other
  deriving DecidableEq, Repr

/-- `mouseData`: where the press went down, and on which tab. -/
structure MouseData where
  pressX : Int
  pressY : Int
  mouseDownTabIndex : Int
  deriving DecidableEq, Repr

namespace SideTabBar

/-- `SideTabBar.DRAG_THRESHOLD`. -/
def DRAG_THRESHOLD : Nat := 5

/-- `onMouseDown`: a left press on the current tab, off its close icon, starts a press. -/
def onMouseDown (mouseData : Option MouseData) (event : MouseEvent) (currentIndex : Int) : Option MouseData :=
  if event.button ≠ 0 ∨ mouseData.isSome then mouseData
  else if event.index < 0 ∨ event.index ≠ currentIndex then mouseData
  else if event.onCloseIcon then mouseData
  else some ⟨event.clientX, event.clientY, event.index⟩

/-- `onMouseUp`: the press after, and the tab whose collapse is requested. -/
def onMouseUp (mouseData : Option MouseData) (event : MouseEvent) : Option MouseData × Option Int :=
  if event.button ≠ 0 then (mouseData, none)
  else
    match mouseData with
    | none => (none, none)
    | some data =>
      if event.index < 0 ∨ event.index ≠ data.mouseDownTabIndex then (none, none)
      else (none, some event.index)

/-- `onMouseMove`: a left move of `DRAG_THRESHOLD` from the press ends it. -/
def onMouseMove (mouseData : Option MouseData) (event : MouseEvent) : Option MouseData :=
  if event.button ≠ 0 then mouseData
  else
    match mouseData with
    | none => none
    | some data =>
      if (event.clientX - data.pressX).natAbs ≥ DRAG_THRESHOLD ∨ (event.clientY - data.pressY).natAbs ≥ DRAG_THRESHOLD
      then none
      else some data

/-- `handleEvent`, past the superclass: the press after the event, and the tab whose collapse it
requests. -/
def handleEvent (mouseData : Option MouseData) : MouseEventType → Option MouseData × Option Int
  | .mousedown event currentIndex => (onMouseDown mouseData event currentIndex, none)
  | .mouseup event => onMouseUp mouseData event
  | .mousemove event => (onMouseMove mouseData event, none)
  | .other => (mouseData, none)

/-- A run: the press after the events, and the collapses requested, in order. -/
def run (mouseData : Option MouseData) : List MouseEventType → Option MouseData × List Int
  | [] => (mouseData, [])
  | event :: events =>
    let next := handleEvent mouseData event
    let rest := run next.1 events
    (rest.1, next.2.toList ++ rest.2)

theorem run_append (mouseData : Option MouseData) (events events' : List MouseEventType) :
    run mouseData (events ++ events') =
      ((run (run mouseData events).1 events').1, (run mouseData events).2 ++ (run (run mouseData events).1 events').2) := by
  induction events generalizing mouseData with
  | nil => rfl
  | cons event events ih => simp [run, ih]

theorem run_append_singleton (mouseData : Option MouseData) (events : List MouseEventType) (event : MouseEventType) :
    run mouseData (events ++ [event]) =
      ((handleEvent (run mouseData events).1 event).1,
        (run mouseData events).2 ++ (handleEvent (run mouseData events).1 event).2.toList) := by
  simp [run_append, run]

/-! ## A press, and what ends it -/

/-- `event` starts the press `data`: a left press on the current tab, off its close icon. -/
def Presses (data : MouseData) : MouseEventType → Prop
  | .mousedown mouse currentIndex =>
    mouse.button = 0 ∧ 0 ≤ mouse.index ∧ mouse.index = currentIndex ∧ mouse.onCloseIcon = false ∧
      ⟨mouse.clientX, mouse.clientY, mouse.index⟩ = data
  | _ => False

/-- `event` does not end the press `data`: it is no left release, and no left move of
`DRAG_THRESHOLD` from where the press went down. -/
def Keeps (data : MouseData) : MouseEventType → Prop
  | .mouseup mouse => mouse.button ≠ 0
  | .mousemove mouse =>
    mouse.button ≠ 0 ∨
      (mouse.clientX - data.pressX).natAbs < DRAG_THRESHOLD ∧ (mouse.clientY - data.pressY).natAbs < DRAG_THRESHOLD
  | _ => True

/-- What one event does to the press. -/
theorem handleEvent_fst_eq_some {mouseData : Option MouseData} {event : MouseEventType} {data : MouseData} :
    (handleEvent mouseData event).1 = some data ↔
      (mouseData = none ∧ Presses data event) ∨ (mouseData = some data ∧ Keeps data event) := by
  cases event with
  | mousedown mouse currentIndex =>
    cases mouseData with
    | none =>
      simp only [handleEvent, onMouseDown, Presses, Option.isSome_none, Bool.false_eq_true, or_false, true_and,
        false_and, reduceCtorEq]
      split_ifs with hbutton hindex hclose
      · simp [hbutton]
      · simp only [reduceCtorEq, false_iff, not_and]
        omega
      · simp [hclose]
      · simp only [ne_eq, Decidable.not_not, not_or, Int.not_lt] at hbutton hindex
        obtain ⟨hnonneg, rfl⟩ := hindex
        simp [hbutton, hnonneg, hclose]
    | some data' => simp [handleEvent, onMouseDown, Presses, Keeps]
  | mouseup mouse =>
    cases mouseData with
    | none => simp only [handleEvent, onMouseUp, Presses]; split_ifs <;> simp
    | some data' =>
      simp only [handleEvent, onMouseUp, Keeps]
      split_ifs <;> simp_all
  | mousemove mouse =>
    cases mouseData with
    | none => simp only [handleEvent, onMouseMove, Presses]; split_ifs <;> simp
    | some data' =>
      simp only [handleEvent, onMouseMove, Keeps, Presses, reduceCtorEq, false_and, false_or, Option.some.injEq]
      split_ifs with hbutton hfar
      · simp [hbutton]
      · simp only [false_iff, not_and]
        rintro rfl
        omega
      · rw [Option.some.injEq, iff_self_and]
        rintro rfl
        omega
  | other => cases mouseData <;> simp [handleEvent, Presses, Keeps]

/-- Which events request a collapse. -/
theorem handleEvent_snd_eq_some {mouseData : Option MouseData} {event : MouseEventType} {index : Int} :
    (handleEvent mouseData event).2 = some index ↔
      ∃ mouse data, event = .mouseup mouse ∧ mouse.button = 0 ∧ mouseData = some data ∧ 0 ≤ mouse.index ∧
        mouse.index = data.mouseDownTabIndex ∧ mouse.index = index := by
  cases event with
  | mouseup mouse =>
    simp only [handleEvent, onMouseUp]
    split_ifs with hbutton
    · simp [hbutton]
    · cases mouseData with
      | none => simp
      | some data =>
        simp only [MouseEventType.mouseup.injEq, exists_eq_left', Option.some.injEq, exists_eq_left]
        split_ifs with hindex
        · simp only [false_iff, not_exists, not_and]
          rintro _ _ rfl - rfl hnonneg htab -
          omega
        · show some mouse.index = some index ↔ _
          constructor
          · rintro ⟨⟩
            exact ⟨mouse, data, rfl, by omega, rfl, by omega, by omega, rfl⟩
          · rintro ⟨_, _, rfl, -, rfl, -, -, rfl⟩
            rfl
  | _ => simp [handleEvent]

theorem append_singleton_eq_append_cons {α : Type} {events pre post : List α} {event press : α} :
    events ++ [event] = pre ++ press :: post ↔
      (pre = events ∧ press = event ∧ post = []) ∨ ∃ post', post = post' ++ [event] ∧ events = pre ++ press :: post' := by
  constructor
  · intro h
    rcases List.eq_nil_or_concat post with rfl | ⟨post', last, rfl⟩
    · obtain ⟨h, hlast⟩ := List.append_inj' h rfl
      simp only [List.cons.injEq, and_true] at hlast
      exact .inl ⟨h.symm, hlast.symm, rfl⟩
    · rw [List.concat_eq_append, ← List.cons_append, ← List.append_assoc] at h
      obtain ⟨h, hlast⟩ := List.append_inj' h rfl
      simp only [List.cons.injEq, and_true] at hlast
      exact .inr ⟨post', by rw [List.concat_eq_append, hlast], h⟩
  · rintro (⟨rfl, rfl, rfl⟩ | ⟨post', rfl, rfl⟩) <;> simp

/-- After any run from a bar with no press, a press is in progress exactly when one started and
nothing since ended it. -/
theorem mouseData_run {events : List MouseEventType} {data : MouseData} :
    (run none events).1 = some data ↔
      ∃ pre press post, events = pre ++ press :: post ∧ (run none pre).1 = none ∧ Presses data press ∧
        ∀ event ∈ post, Keeps data event := by
  induction events using List.reverseRecOn with
  | nil => simp [run]
  | append_singleton events event ih =>
    rw [run_append_singleton, handleEvent_fst_eq_some, ih]
    simp only [append_singleton_eq_append_cons]
    constructor
    · rintro (⟨hnone, hpress⟩ | ⟨⟨pre, press, post, rfl, hpre, hpress, hpost⟩, hkeep⟩)
      · exact ⟨events, event, [], .inl ⟨rfl, rfl, rfl⟩, hnone, hpress, fun _ h => absurd h (List.not_mem_nil _)⟩
      · refine ⟨pre, press, post ++ [event], .inr ⟨post, rfl, rfl⟩, hpre, hpress, fun e he => ?_⟩
        rcases List.mem_append.1 he with he | he
        · exact hpost e he
        · rw [List.mem_singleton.1 he]; exact hkeep
    · rintro ⟨pre, press, post, ⟨rfl, rfl, rfl⟩ | ⟨post', rfl, rfl⟩, hpre, hpress, hpost⟩
      · exact .inl ⟨hpre, hpress⟩
      · exact .inr ⟨⟨pre, press, post', rfl, hpre, hpress, fun e he => hpost e (List.mem_append_left _ he)⟩,
          hpost event (List.mem_append_right _ (List.mem_singleton_self _))⟩

/-- An event after a run from a bar with no press requests the collapse of tab `index` exactly
when it is a left release over that tab, and since the bar last had no press a left press went
down on that tab, then the current one, off its close icon, with no left release and no left move
of `DRAG_THRESHOLD` pixels since. -/
theorem collapse_iff {events : List MouseEventType} {event : MouseEventType} {index : Int} :
    (handleEvent (run none events).1 event).2 = some index ↔
      ∃ mouse, event = .mouseup mouse ∧ mouse.button = 0 ∧ 0 ≤ index ∧ mouse.index = index ∧
        ∃ pre press post data, events = pre ++ press :: post ∧ (run none pre).1 = none ∧ Presses data press ∧
          data.mouseDownTabIndex = index ∧ ∀ e ∈ post, Keeps data e := by
  rw [handleEvent_snd_eq_some]
  constructor
  · rintro ⟨mouse, data, rfl, hbutton, hdata, hindex, htab, rfl⟩
    obtain ⟨pre, press, post, hevents, hpre, hpress, hpost⟩ := mouseData_run.1 hdata
    exact ⟨mouse, rfl, hbutton, hindex, rfl, pre, press, post, data, hevents, hpre, hpress, htab.symm, hpost⟩
  · rintro ⟨mouse, rfl, hbutton, hindex, rfl, pre, press, post, data, hevents, hpre, hpress, htab, hpost⟩
    exact ⟨mouse, data, rfl, hbutton, mouseData_run.2 ⟨pre, press, post, hevents, hpre, hpress, hpost⟩, hindex,
      htab.symm, rfl⟩

end SideTabBar

end Theia.Core
