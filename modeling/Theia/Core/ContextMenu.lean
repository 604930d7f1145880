import Mathlib.Data.List.Basic
/-!
# Context menus: one open at a time, the last one rendered

`ContextMenuRenderer.render` (`packages/core/src/browser/context-menu-renderer.ts`) asks
`doRender` for a fresh `ContextMenuAccess` and makes it current with `setCurrent`. Before it
assigns the new access, `setCurrent` disposes what it collected for the previous one: that access
itself, and the listener on its `onDispose` that unsets `current`.

* `World` is the renderer together with every access rendered so far, in render order. An access
  is named by its index.
* `DisposableCollection` and `Emitter` of `packages/core/src/common` are not in the sources; they
  are modelled as far as this file uses them. A collection's `dispose` pops its elements and
  disposes them, last pushed first. `push` wraps an element's `dispose` so that an element
  disposed on its own first leaves the collection. A collection is `disposed` once it is empty,
  and then fires `onDispose` once and drops its listeners.
* `run` performs a list of operations: `render`, or `dispose` of an access rendered so far.
  The reachable worlds are exactly `closed k` and `opened k` (`run_shaped`), and from this shape
  `run_consistent` reads off what `current` promises, over one access per `render`, each current
  once rendered.
-/

namespace Theia.Core

/-! ## The renderer and its accesses -/

/-- What `ContextMenuRenderer.toDisposeOnSetCurrent` holds: the subscription of the renderer's
listener to an access's `onDispose`, or an access itself. -/
inductive Held where
  | listener (access : Nat)
  | access (access : Nat)
  deriving DecidableEq, Repr

/-- A `ContextMenuAccess`: whether its `toDispose` collection is disposed, and whether the
renderer's listener is still subscribed to its `onDispose`. -/
structure ContextMenuAccess where
  disposed : Bool
  listened : Bool
  deriving DecidableEq, Repr

/-- A `ContextMenuRenderer` with every access `doRender` returned, in render order. -/
structure World where
  accesses : List ContextMenuAccess
  current : Option Nat
  toDisposeOnSetCurrent : List Held
  deriving DecidableEq, Repr

namespace World

/-- A renderer that has rendered nothing yet. -/
def init : World := ⟨[], none, []⟩

/-- `ContextMenuAccess.dispose` as the access defines it: its collection, which holds only the
menu's `toClose`, is disposed; then `onDispose` fires, running the renderer's listener
(`this._current = undefined`) if it is subscribed, and drops its listeners. A disposed access
does nothing. -/
def disposeAccess (w : World) (i : Nat) : World :=
  match w.accesses[i]? with
  | some a =>
    if a.disposed then w
    else
      let w := { w with accesses := w.accesses.set i ⟨true, false⟩ }
      if a.listened then { w with current := none } else w
  | none => w

/-- Disposing the subscription returned by `current.onDispose`: the listener is removed. -/
def unsubscribe (w : World) (i : Nat) : World :=
  match w.accesses[i]? with
  | some a => { w with accesses := w.accesses.set i { a with listened := false } }
  | none => w

/-- `dispose` of an element pushed into `toDisposeOnSetCurrent`: `DisposableCollection.push`
wrapped it to leave the collection first, then run its own `dispose`. -/
def disposeHeld (w : World) (held : Held) : World :=
  let w := { w with toDisposeOnSetCurrent := w.toDisposeOnSetCurrent.erase held }
  match held with
  | .listener i => unsubscribe w i
  | .access i => disposeAccess w i

@[simp] theorem toDisposeOnSetCurrent_disposeAccess (w : World) (i : Nat) :
    (disposeAccess w i).toDisposeOnSetCurrent = w.toDisposeOnSetCurrent := by
  unfold disposeAccess; split <;> [split_ifs <;> rfl; rfl]

@[simp] theorem toDisposeOnSetCurrent_unsubscribe (w : World) (i : Nat) :
    (unsubscribe w i).toDisposeOnSetCurrent = w.toDisposeOnSetCurrent := by
  unfold unsubscribe; split <;> rfl

@[simp] theorem toDisposeOnSetCurrent_disposeHeld (w : World) (held : Held) :
    (disposeHeld w held).toDisposeOnSetCurrent = w.toDisposeOnSetCurrent.erase held := by
  cases held <;> simp [disposeHeld]

/-- The loop of `toDisposeOnSetCurrent.dispose()`: while the collection is not empty, pop its last
element and dispose it, for at most `fuel` rounds. -/
def disposeLoop : Nat → World → World
  | 0, w => w
  | fuel + 1, w =>
    match w.toDisposeOnSetCurrent.getLast? with
    | none => w
    | some held =>
      disposeLoop fuel (disposeHeld { w with toDisposeOnSetCurrent := w.toDisposeOnSetCurrent.dropLast } held)

/-- `toDisposeOnSetCurrent.dispose()`. Each round shortens the collection, so as many rounds as
it has elements empty it (`toDisposeOnSetCurrent_disposeAll`). -/
def disposeAll (w : World) : World := disposeLoop w.toDisposeOnSetCurrent.length w

theorem toDisposeOnSetCurrent_disposeLoop (fuel : Nat) :
    ∀ w : World, w.toDisposeOnSetCurrent.length ≤ fuel → (disposeLoop fuel w).toDisposeOnSetCurrent = [] := by
  induction fuel with
  | zero => intro w hw; simpa [disposeLoop] using hw
  | succ fuel ih =>
    intro w hw
    rw [disposeLoop]
    cases hl : w.toDisposeOnSetCurrent.getLast? with
    | none => simpa using hl
    | some held =>
      apply ih
      have := List.length_erase_le held w.toDisposeOnSetCurrent.dropLast
      simp only [toDisposeOnSetCurrent_disposeHeld, List.length_dropLast] at this ⊢
      omega

/-- The collection is empty once it has been disposed. -/
theorem toDisposeOnSetCurrent_disposeAll (w : World) : (disposeAll w).toDisposeOnSetCurrent = [] :=
  toDisposeOnSetCurrent_disposeLoop _ w le_rfl

/-- `ContextMenuRenderer.setCurrent`: nothing if `current` is already set to it; otherwise the
collection is disposed, `current` assigned, and for an access the listener that unsets
`current` and the access itself are pushed. -/
def setCurrent (w : World) (current : Option Nat) : World :=
  if w.current = current then w
  else
    let w := { disposeAll w with current := current }
    match current with
    | none => w
    | some i =>
      match w.accesses[i]? with
      | some a =>
        { w with accesses := w.accesses.set i { a with listened := true },
                 toDisposeOnSetCurrent := w.toDisposeOnSetCurrent ++ [.listener i, .access i] }
      | none => w

/-- `ContextMenuRenderer.render`: `doRender` returns a fresh access, which is made current and
returned. -/
def render (w : World) : World × Nat :=
  let i := w.accesses.length
  (setCurrent { w with accesses := w.accesses ++ [⟨false, false⟩] } (some i), i)

/-! ### Accesses are only updated in place -/

@[simp] theorem length_disposeAccess (w : World) (i : Nat) :
    (disposeAccess w i).accesses.length = w.accesses.length := by
  unfold disposeAccess; split <;> [split_ifs <;> simp; rfl]

@[simp] theorem length_unsubscribe (w : World) (i : Nat) :
    (unsubscribe w i).accesses.length = w.accesses.length := by
  unfold unsubscribe; split <;> simp

@[simp] theorem length_disposeHeld (w : World) (held : Held) :
    (disposeHeld w held).accesses.length = w.accesses.length := by
  cases held <;> simp [disposeHeld]

theorem length_disposeLoop (fuel : Nat) : ∀ w : World, (disposeLoop fuel w).accesses.length = w.accesses.length := by
  induction fuel with
  | zero => exact fun _ => rfl
  | succ fuel ih => intro w; rw [disposeLoop]; split <;> simp [ih]

@[simp] theorem length_setCurrent (w : World) (current : Option Nat) :
    (setCurrent w current).accesses.length = w.accesses.length := by
  unfold setCurrent disposeAll
  split_ifs
  · rfl
  · split
    · exact length_disposeLoop _ _
    · dsimp only; split <;> simp [length_disposeLoop]

/-- `render` returns the access it added last. -/
theorem render_snd (w : World) : (render w).2 = (render w).1.accesses.length - 1 := by
  simp [render]

end World

/-- What a client does with a renderer: render a menu, or dispose an access it was given. -/
inductive Op where
  | render
  | dispose (access : Nat)
  deriving DecidableEq, Repr

/-- One operation. `dispose` of an access the renderer never returned is not an operation of a
client and changes nothing. -/
def step (w : World) : Op → World
  | .render => (World.render w).1
  | .dispose i => if i < w.accesses.length then World.disposeHeld w (.access i) else w

/-- The renderer after a list of operations. -/
def run (ops : List Op) : World := ops.foldl step World.init

/-! ## The reachable worlds -/

/-- `k` disposed accesses, the last of which keeps its spent listener subscription in the
collection. -/
def closed : Nat → World
  | 0 => World.init
  | k + 1 => ⟨List.replicate (k + 1) ⟨true, false⟩, none, [.listener k]⟩

/-- `k` disposed accesses and after them an open one, which is current. -/
def opened (k : Nat) : World :=
  ⟨List.replicate k ⟨true, false⟩ ++ [⟨false, true⟩], some k, [.listener k, .access k]⟩

@[simp] theorem getElem?_opened (k i : Nat) :
    (opened k).accesses[i]? =
      if i < k then some ⟨true, false⟩ else if i = k then some ⟨false, true⟩ else none := by
  simp only [opened]
  rcases Nat.lt_trichotomy i k with hik | rfl | hik
  · simp [hik, List.getElem?_append_left]
  · simp
  · simp [List.getElem?_append_right, hik.le, Nat.not_lt.mpr hik.le, hik.ne',
      Nat.sub_eq_zero_iff_le]; omega

theorem getElem?_replicate_append (k i : Nat) (a : ContextMenuAccess) (l : List ContextMenuAccess) :
    (List.replicate k a ++ l)[i]? = if i < k then some a else l[i - k]? := by
  split_ifs with hi
  · rw [List.getElem?_append_left (by simpa using hi), List.getElem?_replicate_of_lt hi]
  · rw [List.getElem?_append_right (by simpa using hi), List.length_replicate]

theorem render_closed (k : Nat) : World.render (closed k) = (opened k, k) := by
  cases k with
  | zero => simp [World.render, World.setCurrent, closed, World.init, World.disposeAll, World.disposeLoop, opened]
  | succ k =>
    simp [World.render, World.setCurrent, closed, World.disposeAll, World.disposeLoop, World.disposeHeld, World.unsubscribe, List.getElem?_append_left, List.getElem?_append_right, opened]

theorem render_opened (k : Nat) : World.render (opened k) = (opened (k + 1), k + 1) := by
  simp [World.render, World.setCurrent, opened]
  simp [World.disposeAll, World.disposeLoop, World.disposeHeld, World.disposeAccess, World.unsubscribe, getElem?_replicate_append, List.getElem?_cons_zero, List.replicate_succ', -List.getElem?_eq_getElem,
    show ¬ k + 1 < k by omega]

theorem dispose_closed (k i : Nat) (hi : i < k) : World.disposeHeld (closed k) (.access i) = closed k := by
  cases k with
  | zero => omega
  | succ k => simp [closed, World.disposeHeld, World.disposeAccess, List.getElem?_replicate, hi]

theorem dispose_opened (k i : Nat) (hi : i < k + 1) :
    World.disposeHeld (opened k) (.access i) = if i < k then opened k else closed (k + 1) := by
  split_ifs with hik
  · simp [opened, World.disposeHeld, World.disposeAccess, getElem?_replicate_append, hik, hik.ne]
  · obtain rfl : i = k := by omega
    simp [opened, closed, World.disposeHeld, World.disposeAccess, getElem?_replicate_append, List.replicate_succ']

/-- The worlds a client can reach. -/
def Shaped (w : World) : Prop := ∃ k, w = closed k ∨ w = opened k

theorem step_shaped {w : World} (hw : Shaped w) (op : Op) : Shaped (step w op) := by
  obtain ⟨k, rfl | rfl⟩ := hw
  · cases op with
    | render => exact ⟨k, Or.inr (by rw [step, render_closed])⟩
    | dispose i =>
      refine ⟨k, Or.inl ?_⟩
      rw [step]; split_ifs with hi
      · exact dispose_closed k i (by cases k <;> simp_all [closed, World.init])
      · rfl
  · cases op with
    | render => exact ⟨k + 1, Or.inr (by rw [step, render_opened])⟩
    | dispose i =>
      rw [step]; split_ifs with hi
      · rw [dispose_opened k i (by simpa [opened] using hi)]
        split_ifs
        · exact ⟨k, Or.inr rfl⟩
        · exact ⟨k + 1, Or.inl rfl⟩
      · exact ⟨k, Or.inr rfl⟩

theorem foldl_step_shaped (ops : List Op) : ∀ w, Shaped w → Shaped (ops.foldl step w) := by
  induction ops with
  | nil => exact fun w hw => hw
  | cons op ops ih => exact fun w hw => ih _ (step_shaped hw op)

/-- Every world a client reaches is `closed k` or `opened k`. -/
theorem run_shaped (ops : List Op) : Shaped (run ops) :=
  foldl_step_shaped ops _ ⟨0, Or.inl rfl⟩

/-- Disposing a replaced access changes nothing; disposing the current one unsets `current`. -/
example : run [.render, .render, .dispose 0] = opened 1 ∧
    run [.render, .render, .dispose 0, .dispose 1, .dispose 1] = closed 2 := by decide

/-! ## What `current` promises -/

/-- What the renderer promises about `current`, over the accesses it has returned: `current` is
unset or the last access; once there is an access, `current` is unset exactly when the last one is
disposed; and every access returned before the last is disposed. -/
structure World.Consistent (w : World) : Prop where
  current_last : w.current = none ∨ w.current = some (w.accesses.length - 1) ∧ w.accesses ≠ []
  current_unset : ∀ a ∈ w.accesses.getLast?, w.current = none ↔ a.disposed = true
  earlier_disposed : ∀ a ∈ w.accesses.dropLast, a.disposed = true

theorem closed_consistent (k : Nat) : (closed k).Consistent := by
  cases k with
  | zero => exact ⟨Or.inl rfl, by simp [closed, World.init], by simp [closed, World.init]⟩
  | succ k =>
    refine ⟨Or.inl rfl, ?_, ?_⟩
    · simp [closed, List.getLast?_replicate]
    · simp [closed, List.dropLast_replicate, List.mem_replicate]

theorem opened_consistent (k : Nat) : (opened k).Consistent := by
  refine ⟨Or.inr ⟨by simp [opened], by simp [opened]⟩, ?_, ?_⟩
  · simp [opened]
  · simp [opened, List.dropLast_concat, List.mem_replicate]

/-! ## One access per render -/

theorem length_step (w : World) (op : Op) :
    (step w op).accesses.length = w.accesses.length + if op = .render then 1 else 0 := by
  cases op with
  | render => simp [step, World.render]
  | dispose i => rw [if_neg nofun, step]; split_ifs <;> simp

theorem length_foldl_step (ops : List Op) :
    ∀ w, (ops.foldl step w).accesses.length = w.accesses.length + ops.count .render := by
  induction ops with
  | nil => exact fun _ => rfl
  | cons op ops ih =>
    intro w
    rw [List.foldl_cons, ih, length_step, List.count_cons]
    cases op with
    | render => simp; omega
    | dispose => simp

/-- The access a `render` returns is current afterwards. -/
theorem current_render_run (ops : List Op) :
    (World.render (run ops)).1.current = some (World.render (run ops)).2 := by
  obtain ⟨k, h | h⟩ := run_shaped ops <;> rw [h]
  · rw [render_closed]; rfl
  · rw [render_opened]; rfl

/-- After any run the renderer keeps its promises about `current`, over one access per `render`;
and a further `render` returns the index of the access it appends, which becomes current. -/
theorem run_consistent (ops : List Op) :
    (run ops).Consistent ∧ (run ops).accesses.length = ops.count .render ∧
      (World.render (run ops)).2 = (run ops).accesses.length ∧
      (World.render (run ops)).1.current = some (World.render (run ops)).2 := by
  refine ⟨?_, (length_foldl_step ops _).trans (Nat.zero_add _), rfl, current_render_run ops⟩
  obtain ⟨k, h | h⟩ := run_shaped ops <;> rw [h]
  · exact closed_consistent k
  · exact opened_consistent k

end Theia.Core
