import Mathlib.Data.List.Basic
/-!
# Revealing a tab: `ScrollableTabBar.revealTab`

`revealTab(index)` (`packages/core/src/browser/shell/tab-bars.ts`) scrolls a tab bar, at the next
animation frame, so that the tab at `index` comes into view. A call made while a reveal is pending
returns the pending promise and queues nothing; `onResize` reveals the current tab.

* On one axis the frame sets `revealScroll`. Where the tab fits, that is the position nearest to
  the current one from which the whole tab is seen (`revealScroll_eq_clamp`,
  `inView_revealFrame`); a tab already in view is left where it is (`revealScroll_of_inView`).
* The bar is a state machine over `revealTab`, `onResize` and animation frames. At most one of
  its callbacks is ever queued, the pending promise's (`Inv`, `frames_run`), so the check
  `this.pendingReveal === result` of the callback always holds (`animationFrame_clears`). Against
  the abstract model `Pending`, one slot that keeps the first index asked for since the last
  frame, every run reveals the same tabs (`revealed_run`): of the reveals asked for between two
  frames, only the first is done.

Coordinates are whole pixels (`Int`).
-/

namespace Theia.Core

/-! ## One axis -/

/-- The scroll position the frame callback sets on one axis: `scroll` is the host's, `start` and
`size` the tab's offset and client size, `clientSize` the host's; `start + size - clientSize` is
`right` (horizontal) or `bottom` (vertical). -/
def revealScroll (scroll start size clientSize : Int) : Int :=
  if scroll > start then start
  else if scroll < start + size - clientSize ∧ size < clientSize then start + size - clientSize
  else scroll

/-- The tab, from `start` for `size`, is within the host's view from `scroll` for `clientSize`. -/
def InView (scroll start size clientSize : Int) : Prop :=
  scroll ≤ start ∧ start + size ≤ scroll + clientSize

/-- `revealScroll` clamps the scroll position into the positions that show the tab's start and,
when the tab fits, its end. -/
theorem revealScroll_eq_clamp (scroll start size clientSize : Int) :
    revealScroll scroll start size clientSize =
      if size < clientSize then max (start + size - clientSize) (min scroll start) else min scroll start := by
  unfold revealScroll
  split <;> split <;> omega

theorem inView_revealScroll {scroll start size clientSize : Int} (h : size < clientSize) :
    InView (revealScroll scroll start size clientSize) start size clientSize := by
  rw [revealScroll_eq_clamp, if_pos h, InView]
  omega

/-- No position that shows the tab is nearer to the scroll position than the one set. -/
theorem revealScroll_nearest {scroll start size clientSize t : Int} (ht : InView t start size clientSize) :
    (revealScroll scroll start size clientSize - scroll).natAbs ≤ (t - scroll).natAbs := by
  rw [InView] at ht
  rw [revealScroll_eq_clamp]
  split <;> omega

theorem revealScroll_of_inView {scroll start size clientSize : Int} (h : InView scroll start size clientSize) :
    revealScroll scroll start size clientSize = scroll := by
  rw [InView] at h
  rw [revealScroll_eq_clamp]
  split <;> omega

/-! ## The frame callback -/

inductive Orientation where
  | horizontal
  | vertical
  deriving DecidableEq, Repr

/-- The box of a rendered tab, as the callback reads it. -/
structure TabBox where
  offsetLeft : Int
  offsetTop : Int
  clientWidth : Int
  clientHeight : Int
  deriving DecidableEq, Repr

/-- What the callback reads of the page when its frame comes. -/
structure Layout where
  orientation : Orientation
  isVisible : Bool
  /-- `this.contentNode.children`. -/
  tabs : List TabBox
  /-- `clientWidth` and `clientHeight` of `this.scrollbarHost`. -/
  clientWidth : Int
  clientHeight : Int
  deriving DecidableEq, Repr

/-- `scrollLeft` and `scrollTop` of the scrollbar host. -/
structure ScrollPosition where
  scrollLeft : Int
  scrollTop : Int
  deriving DecidableEq, Repr

/-- `this.contentNode.children[index]`. -/
def Layout.tab (layout : Layout) (index : Int) : Option TabBox :=
  if index < 0 then none else layout.tabs[index.toNat]?

/-- The scrolling done by the callback `revealTab(index)` queues. -/
def revealFrame (layout : Layout) (index : Int) (position : ScrollPosition) : ScrollPosition :=
  match layout.tab index with
  | some tab =>
    if layout.isVisible then
      match layout.orientation with
      | .horizontal =>
        { position with
          scrollLeft := revealScroll position.scrollLeft tab.offsetLeft tab.clientWidth layout.clientWidth }
      | .vertical =>
        { position with
          scrollTop := revealScroll position.scrollTop tab.offsetTop tab.clientHeight layout.clientHeight }
    else position
  | none => position

/-- The scroll position along the bar. -/
def Orientation.scroll : Orientation → ScrollPosition → Int
  | .horizontal, position => position.scrollLeft
  | .vertical, position => position.scrollTop

/-- The tab's offset along the bar. -/
def Orientation.start : Orientation → TabBox → Int
  | .horizontal, tab => tab.offsetLeft
  | .vertical, tab => tab.offsetTop

/-- The tab's client size along the bar. -/
def Orientation.size : Orientation → TabBox → Int
  | .horizontal, tab => tab.clientWidth
  | .vertical, tab => tab.clientHeight

/-- The host's client size along the bar. -/
def Layout.clientSize (layout : Layout) : Int :=
  match layout.orientation with
  | .horizontal => layout.clientWidth
  | .vertical => layout.clientHeight

/-- Along the bar, the callback sets `revealScroll` of what it reads along the bar. -/
theorem scroll_revealFrame {layout : Layout} {index : Int} {tab : TabBox} (htab : layout.tab index = some tab)
    (hvisible : layout.isVisible) (position : ScrollPosition) :
    layout.orientation.scroll (revealFrame layout index position) =
      revealScroll (layout.orientation.scroll position) (layout.orientation.start tab)
        (layout.orientation.size tab) layout.clientSize := by
  simp only [revealFrame, htab, hvisible, if_true, Layout.clientSize]
  cases layout.orientation <;> rfl

/-- After the frame, a visible tab that fits is in view, from the position nearest to the one
before that shows it. -/
theorem inView_revealFrame {layout : Layout} {index : Int} {tab : TabBox} (htab : layout.tab index = some tab)
    (hvisible : layout.isVisible) (hfits : layout.orientation.size tab < layout.clientSize)
    (position : ScrollPosition) :
    InView (layout.orientation.scroll (revealFrame layout index position)) (layout.orientation.start tab)
        (layout.orientation.size tab) layout.clientSize ∧
      ∀ t, InView t (layout.orientation.start tab) (layout.orientation.size tab) layout.clientSize →
        (layout.orientation.scroll (revealFrame layout index position) - layout.orientation.scroll position).natAbs ≤
          (t - layout.orientation.scroll position).natAbs := by
  rw [scroll_revealFrame htab hvisible]
  exact ⟨inView_revealScroll hfits, fun _ ht => revealScroll_nearest ht⟩

/-- A tab bar with two tabs of width 40 in a host 60 wide, scrolled to 0: revealing the second
tab, which starts at 40, scrolls to 20. -/
theorem inView_revealFrame_second :
    (⟨.horizontal, true, [⟨0, 0, 40, 20⟩, ⟨40, 0, 40, 20⟩], 60, 20⟩ : Layout).tab 1 = some ⟨40, 0, 40, 20⟩ ∧
      InView (Orientation.horizontal.scroll (revealFrame ⟨.horizontal, true, [⟨0, 0, 40, 20⟩, ⟨40, 0, 40, 20⟩], 60, 20⟩
        1 ⟨0, 0⟩)) 40 40 60 :=
  ⟨rfl, (@inView_revealFrame ⟨.horizontal, true, [⟨0, 0, 40, 20⟩, ⟨40, 0, 40, 20⟩], 60, 20⟩ 1 ⟨40, 0, 40, 20⟩
    rfl rfl (by decide) ⟨0, 0⟩).1⟩

/-! ## The bar -/

/-- The state of a `ScrollableTabBar` that `revealTab` reads and writes. -/
structure ScrollableTabBar where
  /-- `pendingReveal`, by the number of its promise. -/
  pendingReveal : Option Nat
  /-- The callbacks `window.requestAnimationFrame` holds for the bar, in order: the promise each
  resolves, and the index it reveals. -/
  frames : List (Nat × Int)
  /-- The number of promises made so far: the next one's number. -/
  promises : Nat
  position : ScrollPosition
  deriving DecidableEq, Repr

namespace ScrollableTabBar

/-- `revealTab(index)`: the promise returned, and the bar after. -/
def revealTab (bar : ScrollableTabBar) (index : Int) : Nat × ScrollableTabBar :=
  match bar.pendingReveal with
  | some pending => (pending, bar)
  | none =>
    (bar.promises, { bar with
      pendingReveal := some bar.promises
      frames := bar.frames ++ [(bar.promises, index)]
      promises := bar.promises + 1 })

/-- `onResize`, past the superclass: a bar with a scroll bar reveals its current tab. -/
def onResize (bar : ScrollableTabBar) (scrollBar : Bool) (currentIndex : Int) : ScrollableTabBar :=
  if scrollBar ∧ currentIndex ≥ 0 then (bar.revealTab currentIndex).2 else bar

/-- The next animation frame runs the first callback queued: it scrolls, clears `pendingReveal`
if that is still its promise, and resolves its promise, returned with the index it revealed. -/
def animationFrame (bar : ScrollableTabBar) (layout : Layout) : Option ((Nat × Int) × ScrollableTabBar) :=
  match bar.frames with
  | [] => none
  | (result, index) :: rest =>
    some ((result, index), { bar with
      frames := rest
      position := revealFrame layout index bar.position
      pendingReveal := if bar.pendingReveal = some result then none else bar.pendingReveal })

/-- What happens to a bar. -/
inductive Event where
  | revealTab (index : Int)
  | resize (scrollBar : Bool) (currentIndex : Int)
  | animationFrame (layout : Layout)
  deriving DecidableEq, Repr

/-- One event: the bar after it, and the index a frame revealed. -/
def step (bar : ScrollableTabBar) : Event → ScrollableTabBar × Option Int
  | .revealTab index => ((bar.revealTab index).2, none)
  | .resize scrollBar currentIndex => (bar.onResize scrollBar currentIndex, none)
  | .animationFrame layout =>
    match bar.animationFrame layout with
    | some ((_, index), bar') => (bar', some index)
    | none => (bar, none)

/-- A run: the bar after the events, and the indices revealed, in order. -/
def run (bar : ScrollableTabBar) : List Event → ScrollableTabBar × List Int
  | [] => (bar, [])
  | event :: events =>
    let next := step bar event
    let rest := run next.1 events
    (rest.1, next.2.toList ++ rest.2)

/-- A bar as constructed: nothing pending, nothing queued. -/
def init (position : ScrollPosition) : ScrollableTabBar := ⟨none, [], 0, position⟩

/-! ## The abstract model -/

/-- One slot: the index waiting for the next frame. A reveal asked for while one waits changes
nothing; a frame reveals what waits and empties the slot. -/
def Pending.step (pending : Option Int) : Event → Option Int × Option Int
  | .revealTab index => (pending.or (some index), none)
  | .resize scrollBar currentIndex =>
    (if scrollBar ∧ currentIndex ≥ 0 then pending.or (some currentIndex) else pending, none)
  | .animationFrame _ => (none, pending)

def Pending.run (pending : Option Int) : List Event → Option Int × List Int
  | [] => (pending, [])
  | event :: events =>
    let next := Pending.step pending event
    let rest := Pending.run next.1 events
    (rest.1, next.2.toList ++ rest.2)

/-- The bar's slot: the index of the callback queued. -/
def toPending (bar : ScrollableTabBar) : Option Int := bar.frames.head?.map Prod.snd

/-- The bar's callbacks are those of its pending promise: none, or that promise's one. -/
def Inv (bar : ScrollableTabBar) : Prop := bar.frames.map Prod.fst = bar.pendingReveal.toList

theorem inv_init (position : ScrollPosition) : Inv (init position) := rfl

theorem frames_of_inv {bar : ScrollableTabBar} (h : Inv bar) :
    (bar.pendingReveal = none ∧ bar.frames = []) ∨
      ∃ pending index, bar.pendingReveal = some pending ∧ bar.frames = [(pending, index)] := by
  unfold Inv at h
  cases hpending : bar.pendingReveal with
  | none =>
    rw [hpending, Option.toList_none, List.map_eq_nil_iff] at h
    exact .inl ⟨rfl, h⟩
  | some pending =>
    rw [hpending, Option.toList_some, List.map_eq_cons_iff] at h
    obtain ⟨⟨pending', index⟩, rest, hframes, rfl, hrest⟩ := h
    rw [List.map_eq_nil_iff] at hrest
    exact .inr ⟨pending', index, rfl, hrest ▸ hframes⟩

/-- A reveal keeps the invariant and does to the slot what the model does. -/
theorem revealTab_refines {bar : ScrollableTabBar} (h : Inv bar) (index : Int) :
    Inv (bar.revealTab index).2 ∧ toPending (bar.revealTab index).2 = (toPending bar).or (some index) := by
  rcases frames_of_inv h with ⟨hpending, hframes⟩ | ⟨pending, index', hpending, hframes⟩
  · simp [revealTab, hpending, hframes, Inv, toPending]
  · simp [revealTab, hpending, hframes, Inv, toPending]

/-- The check of the callback always holds: a frame finds its own promise pending, and clears it. -/
theorem animationFrame_clears {bar bar' : ScrollableTabBar} {layout : Layout} {result : Nat × Int}
    (h : Inv bar) (hframe : bar.animationFrame layout = some (result, bar')) :
    bar.pendingReveal = some result.1 ∧ bar'.pendingReveal = none ∧ bar'.frames = [] := by
  rcases frames_of_inv h with ⟨-, hframes⟩ | ⟨pending, index, hpending, hframes⟩
  · simp [animationFrame, hframes] at hframe
  · simp only [animationFrame, hframes, hpending, Option.some.injEq, Prod.mk.injEq] at hframe
    obtain ⟨rfl, rfl⟩ := hframe
    simp [hpending]

/-- One event keeps the invariant and does what the model does, to the slot and to what is
revealed. -/
theorem step_refines {bar : ScrollableTabBar} (h : Inv bar) (event : Event) :
    Inv (bar.step event).1 ∧ toPending (bar.step event).1 = (Pending.step (toPending bar) event).1 ∧
      (bar.step event).2 = (Pending.step (toPending bar) event).2 := by
  cases event with
  | revealTab index => exact ⟨(revealTab_refines h index).1, (revealTab_refines h index).2, rfl⟩
  | resize scrollBar currentIndex =>
    by_cases hresize : scrollBar ∧ currentIndex ≥ 0
    · simpa only [step, onResize, Pending.step, if_pos hresize, and_true] using revealTab_refines h currentIndex
    · simpa only [step, onResize, Pending.step, if_neg hresize, and_true] using h
  | animationFrame layout =>
    rcases frames_of_inv h with ⟨hpending, hframes⟩ | ⟨pending, index, hpending, hframes⟩
    · simp [step, Pending.step, animationFrame, hframes, toPending, h]
    · simp [step, Pending.step, animationFrame, hframes, hpending, toPending, Inv]

/-- Every run from a bar that keeps the invariant reveals the tabs the model reveals, and ends
in a bar that keeps it, with the model's slot. -/
theorem run_refines {bar : ScrollableTabBar} (h : Inv bar) (events : List Event) :
    Inv (bar.run events).1 ∧ toPending (bar.run events).1 = (Pending.run (toPending bar) events).1 ∧
      (bar.run events).2 = (Pending.run (toPending bar) events).2 := by
  induction events generalizing bar with
  | nil => exact ⟨h, rfl, rfl⟩
  | cons event events ih =>
    obtain ⟨hinv, hpending, hrevealed⟩ := step_refines h event
    obtain ⟨hinv', hpending', hrevealed'⟩ := ih hinv
    simp only [run, Pending.run]
    rw [← hpending, ← hrevealed]
    exact ⟨hinv', hpending', by rw [hrevealed']⟩

/-- A bar as constructed reveals, in any run, what the one-slot model reveals: at each frame the
first index asked for since the frame before, if any. -/
theorem revealed_run (position : ScrollPosition) (events : List Event) :
    ((init position).run events).2 = (Pending.run none events).2 :=
  (run_refines (inv_init position) events).2.2

/-- In every run of a bar as constructed, nothing is pending and nothing is queued, or the
pending promise's callback is the one callback queued. -/
theorem frames_run (position : ScrollPosition) (events : List Event) :
    (((init position).run events).1.pendingReveal = none ∧ ((init position).run events).1.frames = []) ∨
      ∃ pending index, ((init position).run events).1.pendingReveal = some pending ∧
        ((init position).run events).1.frames = [(pending, index)] :=
  frames_of_inv (run_refines (inv_init position) events).1

end ScrollableTabBar

end Theia.Core
