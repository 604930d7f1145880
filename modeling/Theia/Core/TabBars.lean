import Theia.Js.Map
import Theia.Js.Text
/-!
# Tabs with the same label: `TabBarRenderer.findDuplicateLabels`

`renderLabel` (`packages/core/src/browser/shell/tab-bars.ts`) shows, beside the label of a tab
whose label another tab of the bar shares, the partial path `findDuplicateLabels` gives its
caption. `findDuplicateLabels` groups the titles by label. For each group of two or more it first
gives every caption a default, its last three directories, then walks the directories of all the
captions from the left: at step `i` a caption whose directory is unique among the paths still
walked gets that directory, decorated with `.../` and `/...` by whether it is the caption's first
and last directory, and leaves the walk.

* `findDuplicateLabels_has`, `has_findDuplicateLabels_iff`: the captions that get an entry are
  exactly those whose label another title shares.
* `findDuplicateLabels_partial_path`: an entry is the caption's last three directories, after
  `.../` exactly when it has more, or one of its directories, after `.../` and before `/...`
  unless the first and the last directory have its name. The walk keeps `PathsOf` (each path
  walked is its caption's directories, or emptied) and `StepsOf` (each index filed under a
  directory is of a caption with that directory) through every turn.
* `renderLabel_same_details`: three captions `r/s/f`, `r/t/s/f` and `r/t/u/f`. At step 1 `s` is
  unique to the first and it leaves the walk; at step 2 `s` is unique again, to the second. Both
  get `.../s`, so two tabs labelled `f` show the same details.
-/

namespace Theia.Core

open Theia.Js

/-- The fields of a `Title<Widget>` that `findDuplicateLabels` and `renderLabel` read. -/
structure Title where
  label : List Char
  caption : List Char
  deriving DecidableEq, Repr

/-- One turn of `titles.forEach`: the caption filed under its label, by its index. -/
def groupTitle (labelGroups : JsMap (List Char) (JsMap Nat (List Char))) (entry : Nat × Title) :
    JsMap (List Char) (JsMap Nat (List Char)) :=
  let labelGroups := if labelGroups.has entry.2.label then labelGroups else labelGroups.set entry.2.label []
  labelGroups.set entry.2.label (((labelGroups.get entry.2.label).getD []).set entry.1 entry.2.caption)

/-- `labelGroups`: for each label, in order of first appearance, its titles' captions by index. -/
def labelGroups (titles : List Title) : JsMap (List Char) (JsMap Nat (List Char)) :=
  titles.enum.foldl groupTitle []

/-- `steps.slice(-4, -1).join('/')`, after `.../` when there are more than four steps. -/
def defaultDisplayedPath (steps : List (List Char)) : List Char :=
  let shown := ['/'].intercalate ((steps.take (steps.length - 1)).drop (steps.length - 4))
  if steps.length > 4 then ".../".toList ++ shown else shown

/-- The paths of a group walked so far, by index, and `originalToDisplayedMap`. -/
abbrev Walk := JsMap Nat (List (List Char)) × JsMap (List Char) (List Char)

/-- One turn of `labelGroup.forEach`: `maxPathLength`, the caption's directories, and its default. -/
def initPath (acc : Nat × Walk) (entry : Nat × List Char) : Nat × Walk :=
  let steps := entry.2.splitOn '/'
  (max acc.1 steps.length, acc.2.1.set entry.1 (steps.take (steps.length - 1)),
    acc.2.2.set entry.2 (defaultDisplayedPath steps))

/-- One turn of `paths.forEach` at step `i`: a walked path too short for `i` is emptied, a longer
one is filed under its `i`-th directory in `stepOccurrences`. -/
def collectStep (i : Nat) (acc : JsMap Nat (List (List Char)) × JsMap (List Char) (List Nat))
    (entry : Nat × List (List Char)) : JsMap Nat (List (List Char)) × JsMap (List Char) (List Nat) :=
  let step := entry.2.getD i []
  if entry.2.length > 0 then
    if i > entry.2.length - 1 then (acc.1.set entry.1 [], acc.2)
    else if !acc.2.has step then (acc.1, acc.2.set step [entry.1])
    else (acc.1, acc.2.set step (((acc.2.get step).getD []) ++ [entry.1]))
  else acc

/-- The displayed path of `originalPath` found unique at the directory `displayedPath`: `/...`
after it unless it is the caption's last directory, `.../` before it unless it is the first. -/
def decorate (originalPath displayedPath : List Char) : List Char :=
  let originalElements := originalPath.splitOn '/'
  let displayedElements := displayedPath.splitOn '/'
  let displayedPath :=
    if (originalElements.drop (originalElements.length - 2)).head? ≠ displayedElements.getLast? then
      displayedPath ++ "/...".toList
    else displayedPath
  if originalElements.head? ≠ displayedElements.head? then ".../".toList ++ displayedPath else displayedPath

/-- One turn of `stepOccurrences.forEach`: a directory of one path only gives that path's caption
its displayed path, and the path leaves the walk. -/
def resolveStep (labelGroup : JsMap Nat (List Char)) (acc : Walk) (occurrence : List Char × List Nat) :
    Walk :=
  if occurrence.2.length = 1 then
    match labelGroup.get (occurrence.2.headD 0) with
    | some originalPath =>
      if originalPath ≠ [] then
        (acc.1.set (occurrence.2.headD 0) [], acc.2.set originalPath (decorate originalPath occurrence.1))
      else acc
    | none => acc
  else acc

/-- One turn of the `while (i < maxPathLength - 1)` loop. -/
def walkStep (labelGroup : JsMap Nat (List Char)) (acc : Walk) (i : Nat) : Walk :=
  let collected := acc.1.foldl (collectStep i) (acc.1, [])
  collected.2.foldl (resolveStep labelGroup) (collected.1, acc.2)

/-- The body of `labelGroups.forEach` for one group. -/
def processGroup (originalToDisplayedMap : JsMap (List Char) (List Char))
    (labelGroup : JsMap Nat (List Char)) : JsMap (List Char) (List Char) :=
  if labelGroup.length > 1 then
    let init := labelGroup.foldl initPath (0, [], originalToDisplayedMap)
    ((List.range (init.1 - 1)).foldl (walkStep labelGroup) init.2).2
  else originalToDisplayedMap

/-- `TabBarRenderer.findDuplicateLabels`. -/
def findDuplicateLabels (titles : List Title) : JsMap (List Char) (List Char) :=
  (labelGroups titles).foldl (fun originalToDisplayedMap group => processGroup originalToDisplayedMap group.2) []

/-- The label details `renderLabel` shows beside `title.label`: none in a side panel or in a bar
of fewer than two tabs, else the displayed path of the caption, unless it is missing or empty. -/
def renderLabelDetails (titles : List Title) (isInSidePanel : Bool) (title : Title) : Option (List Char) :=
  if isInSidePanel || titles.length < 2 then none
  else
    match (findDuplicateLabels titles).get title.caption with
    | some labelDetails => if labelDetails ≠ [] then some labelDetails else none
    | none => none

/-! ## Every caption of a shared label gets an entry -/

theorem get_groupTitle (labelGroups : JsMap (List Char) (JsMap Nat (List Char))) (entry : Nat × Title)
    (l : List Char) :
    (groupTitle labelGroups entry).get l =
      if l = entry.2.label then some (((labelGroups.get entry.2.label).getD []).set entry.1 entry.2.caption)
      else labelGroups.get l := by
  by_cases hG : labelGroups.has entry.2.label
  · by_cases hl : l = entry.2.label <;> simp [groupTitle, JsMap.get_set, hG, hl]
  · by_cases hl : l = entry.2.label <;>
      simp [groupTitle, JsMap.get_set, hG, hl, JsMap.get_eq_none (Bool.eq_false_iff.2 hG)]

/-- The titles after index `n` leave the captions filed at smaller indexes alone. -/
theorem get_foldl_groupTitle_of_lt (titles : List Title) (n : Nat)
    (labelGroups : JsMap (List Char) (JsMap Nat (List Char))) (l : List Char) {index : Nat}
    (hindex : index < n) :
    ((((titles.enumFrom n).foldl groupTitle labelGroups).get l).getD []).get index =
      ((labelGroups.get l).getD []).get index := by
  induction titles generalizing n labelGroups with
  | nil => rfl
  | cons title titles ih =>
    rw [List.enumFrom_cons, List.foldl_cons, ih (n + 1) _ (by omega), get_groupTitle]
    split
    · subst l; simp [JsMap.get_set, Nat.ne_of_lt hindex]
    · rfl

theorem get_foldl_groupTitle (titles : List Title) (n : Nat)
    (labelGroups : JsMap (List Char) (JsMap Nat (List Char))) {i : Nat} {title : Title}
    (h : titles[i]? = some title) :
    ((((titles.enumFrom n).foldl groupTitle labelGroups).get title.label).getD []).get (n + i) =
      some title.caption := by
  induction titles generalizing n i labelGroups with
  | nil => cases h
  | cons first titles ih =>
    rw [List.enumFrom_cons, List.foldl_cons]
    cases i with
    | zero =>
      rw [List.getElem?_cons_zero, Option.some.injEq] at h
      subst h
      rw [get_foldl_groupTitle_of_lt _ _ _ _ (by omega), get_groupTitle, if_pos rfl]
      simp [JsMap.get_set]
    | succ k =>
      rw [List.getElem?_cons_succ] at h
      rw [show n + (k + 1) = n + 1 + k by omega]
      exact ih (n + 1) _ h

/-- The group of a title's label files its caption under its index. -/
theorem get_labelGroups {titles : List Title} {i : Nat} {title : Title} (h : titles[i]? = some title) :
    ((((labelGroups titles).get title.label).getD []).get i) = some title.caption := by
  simpa using get_foldl_groupTitle titles 0 [] h

theorem has_resolveStep {originalToDisplayedMap : JsMap (List Char) (List Char)} {k : List Char}
    (labelGroup : JsMap Nat (List Char)) (paths : JsMap Nat (List (List Char)))
    (h : originalToDisplayedMap.has k) (occurrence : List Char × List Nat) :
    (resolveStep labelGroup (paths, originalToDisplayedMap) occurrence).2.has k := by
  unfold resolveStep
  repeat' split
  all_goals first | exact h | exact JsMap.has_of_has_set h _ _

/-- A turn of the walk only adds displayed paths. -/
theorem has_walkStep {acc : Walk} {k : List Char} (labelGroup : JsMap Nat (List Char)) (h : acc.2.has k)
    (i : Nat) : (walkStep labelGroup acc i).2.has k :=
  List.foldlRecOn (motive := fun acc : Walk => acc.2.has k = true) _ _ _ h
    fun acc hacc occurrence _ => has_resolveStep labelGroup acc.1 hacc occurrence

theorem has_processGroup_of_has {originalToDisplayedMap : JsMap (List Char) (List Char)} {k : List Char}
    (h : originalToDisplayedMap.has k) (labelGroup : JsMap Nat (List Char)) :
    (processGroup originalToDisplayedMap labelGroup).has k := by
  unfold processGroup
  split
  · refine List.foldlRecOn (motive := fun acc : Walk => acc.2.has k = true) _ _ _ ?_
      fun acc hacc i _ => has_walkStep labelGroup hacc i
    exact List.foldlRecOn (motive := fun acc : Nat × Walk => acc.2.2.has k = true) _ _ _ h
      fun acc hacc entry _ => JsMap.has_of_has_set hacc _ _
  · exact h

/-- The defaults give every caption of the group an entry. -/
theorem has_foldl_initPath (labelGroup : JsMap Nat (List Char)) (acc : Nat × Walk) :
    ∀ entry ∈ labelGroup, (labelGroup.foldl initPath acc).2.2.has entry.2 := by
  induction labelGroup generalizing acc with
  | nil => intro entry h; cases h
  | cons first labelGroup ih =>
    intro entry h
    rw [List.foldl_cons]
    rcases List.mem_cons.1 h with rfl | h
    · exact List.foldlRecOn (motive := fun acc : Nat × Walk => acc.2.2.has entry.2 = true) _ _ _
        (JsMap.has_set_self _ _ _) fun acc hacc entry _ => JsMap.has_of_has_set hacc _ _
    · exact ih _ entry h

theorem has_processGroup (originalToDisplayedMap : JsMap (List Char) (List Char))
    {labelGroup : JsMap Nat (List Char)} (hsize : 1 < labelGroup.length) {entry : Nat × List Char}
    (h : entry ∈ labelGroup) : (processGroup originalToDisplayedMap labelGroup).has entry.2 := by
  rw [processGroup, if_pos hsize]
  exact List.foldlRecOn (motive := fun acc : Walk => acc.2.has entry.2 = true) _ _ _
    (has_foldl_initPath labelGroup _ entry h) fun acc hacc i _ => has_walkStep labelGroup hacc i

/-- Every group of two or more gives each of its captions an entry, whatever came before. -/
theorem has_foldl_processGroup (groups : JsMap (List Char) (JsMap Nat (List Char)))
    (originalToDisplayedMap : JsMap (List Char) (List Char)) :
    ∀ group ∈ groups, 1 < group.2.length → ∀ entry ∈ group.2,
      (groups.foldl (fun m group => processGroup m group.2) originalToDisplayedMap).has entry.2 := by
  induction groups generalizing originalToDisplayedMap with
  | nil => intro group h; cases h
  | cons first groups ih =>
    intro group hgroup hsize entry hentry
    rw [List.foldl_cons]
    rcases List.mem_cons.1 hgroup with rfl | hgroup
    · exact List.foldlRecOn (motive := fun m : JsMap (List Char) (List Char) => m.has entry.2 = true) _ _ _
        (has_processGroup _ hsize hentry) fun m hm group _ => has_processGroup_of_has hm _
    · exact ih _ group hgroup hsize entry hentry

/-- A caption whose label another title shares gets an entry in `findDuplicateLabels`. -/
theorem findDuplicateLabels_has {titles : List Title} {i j : Nat} {title other : Title}
    (hi : titles[i]? = some title) (hj : titles[j]? = some other) (hij : i ≠ j)
    (hlabel : other.label = title.label) : (findDuplicateLabels titles).has title.caption := by
  have hgi := get_labelGroups hi
  have hgj := get_labelGroups hj
  rw [hlabel] at hgj
  set group := ((labelGroups titles).get title.label).getD []
  have hsize : 1 < group.length :=
    JsMap.one_lt_length (a := i) (b := j) (by rw [← JsMap.get_isSome, hgi]; rfl)
      (by rw [← JsMap.get_isSome, hgj]; rfl) hij
  have hget : (labelGroups titles).get title.label = some group := by
    cases h : (labelGroups titles).get title.label with
    | none => simp [group, h] at hsize
    | some g => simp [group, h]
  exact has_foldl_processGroup _ [] (title.label, group) (JsMap.mem_of_get hget) hsize
    (i, title.caption) (JsMap.mem_of_get hgi)

/-! ## What the details of a caption are made of

The walk only ever writes a caption's default or one of its directories, decorated: the details
shown beside a label are the tab's last three directories, or one directory of its own caption,
marked by comparing its name with the first and the last directory. -/

/-- What the walk may show for `caption`, of directories `dirs`: its last three directories,
after `.../` exactly when it has more; or one directory `dir` of it, after `.../` unless the first
directory is named `dir`, and before `/...` unless the last one is. The markers compare names,
not places. -/
def IsPartialPath (caption displayed : List Char) : Prop :=
  let dirs := (caption.splitOn '/').dropLast
  displayed = (if 3 < dirs.length then ".../".toList else []) ++ ['/'].intercalate (dirs.drop (dirs.length - 3)) ∨
    ∃ dir ∈ dirs, displayed = (if dirs.head? = some dir then [] else ".../".toList) ++ dir ++
      (if dirs.getLast? = some dir then [] else "/...".toList)

theorem isPartialPath_defaultDisplayedPath (caption : List Char) :
    IsPartialPath caption (defaultDisplayedPath (caption.splitOn '/')) := by
  refine .inl ?_
  have hdrop : (caption.splitOn '/').length - 4 = (caption.splitOn '/').dropLast.length - 3 := by
    rw [List.length_dropLast]; omega
  have hlen : (caption.splitOn '/').length > 4 ↔ 3 < (caption.splitOn '/').dropLast.length := by
    rw [List.length_dropLast]; omega
  rw [defaultDisplayedPath, ← List.dropLast_eq_take, hdrop]
  simp only [hlen]
  split_ifs <;> rfl

/-- `decorate` at a directory of the caption: the caption's last two parts are its last directory
and its file name, and the directory is one part of its own. -/
theorem isPartialPath_decorate {caption dir : List Char} (h : dir ∈ (caption.splitOn '/').dropLast) :
    IsPartialPath caption (decorate caption dir) := by
  refine .inr ⟨dir, h, ?_⟩
  have hdir : dir.splitOn '/' = [dir] :=
    splitOn_of_not_mem (not_mem_of_mem_splitOn (List.mem_of_mem_dropLast h))
  obtain ⟨init, last, hdirs⟩ : ∃ init last, (caption.splitOn '/').dropLast = init ++ [last] :=
    ⟨_, _, (List.dropLast_append_getLast (List.ne_nil_of_mem h)).symm⟩
  have hne : caption.splitOn '/' ≠ [] := List.splitOnP_ne_nil _ caption
  have hsteps : caption.splitOn '/' = init ++ [last, (caption.splitOn '/').getLast hne] := by
    conv_lhs => rw [← List.dropLast_append_getLast hne, hdirs]
    simp
  generalize (caption.splitOn '/').getLast hne = file at hsteps
  have hdrop : (init ++ [last, file]).drop ((init ++ [last, file]).length - 2) = [last, file] := by simp
  have hlast : (init ++ [last, file]).dropLast = init ++ [last] := by simp [List.dropLast_append_of_ne_nil]
  have hhead : (init ++ [last, file]).head? = (init ++ [last]).head? := by cases init <;> rfl
  simp only [decorate, hdir, hsteps, hdrop, hlast, hhead, List.head?_cons, List.getLast?_singleton,
    List.getLast?_concat]
  by_cases hfirst : (init ++ [last]).head? = some dir <;> by_cases hlast : some last = some dir <;>
    simp only [hfirst, hlast, ne_eq, not_true_eq_false, not_false_eq_true, if_true, if_false,
      List.nil_append, List.append_nil, List.append_assoc]

/-- A displayed path the walk of `labelGroup` may write: of the caption of one of its entries. -/
def Shown (labelGroup : JsMap Nat (List Char)) (caption displayed : List Char) : Prop :=
  (∃ entry ∈ labelGroup, entry.2 = caption) ∧ IsPartialPath caption displayed

/-- Each walked path is its caption's directories, or emptied. -/
def PathsOf (labelGroup : JsMap Nat (List Char)) (paths : JsMap Nat (List (List Char))) : Prop :=
  ∀ entry ∈ paths, entry.2 = [] ∨
    ∃ caption, labelGroup.get entry.1 = some caption ∧ entry.2 = (caption.splitOn '/').dropLast

/-- Each index filed under a directory in `stepOccurrences` is of a caption with that directory. -/
def StepsOf (labelGroup : JsMap Nat (List Char)) (stepOccurrences : JsMap (List Char) (List Nat)) :
    Prop :=
  ∀ occurrence ∈ stepOccurrences, ∀ index ∈ occurrence.2,
    ∃ caption, labelGroup.get index = some caption ∧ occurrence.1 ∈ (caption.splitOn '/').dropLast

/-- Every entry of `originalToDisplayedMap` satisfies `P`. -/
def EntriesSatisfy (P : List Char → List Char → Prop) (m : JsMap (List Char) (List Char)) : Prop :=
  ∀ caption displayed, m.get caption = some displayed → P caption displayed

section Walk

variable {labelGroup : JsMap Nat (List Char)} {P : List Char → List Char → Prop}

theorem EntriesSatisfy.set {m : JsMap (List Char) (List Char)} (h : EntriesSatisfy P m)
    {caption displayed : List Char} (hP : P caption displayed) : EntriesSatisfy P (m.set caption displayed) := by
  intro c d hget
  rw [JsMap.get_set] at hget
  split at hget
  · cases hget; subst c; exact hP
  · exact h c d hget

theorem PathsOf.set {paths : JsMap Nat (List (List Char))} (h : PathsOf labelGroup paths) {index : Nat}
    {path : List (List Char)} (hpath : path = [] ∨
      ∃ caption, labelGroup.get index = some caption ∧ path = (caption.splitOn '/').dropLast) :
    PathsOf labelGroup (paths.set index path) :=
  fun entry hentry => (JsMap.mem_set hentry).elim (fun h => h ▸ hpath) (h entry)

/-- The indexes filed under `step` before an append are of captions with that directory. -/
theorem StepsOf.getD {stepOccurrences : JsMap (List Char) (List Nat)} (h : StepsOf labelGroup stepOccurrences)
    (step : List Char) : ∀ index ∈ (stepOccurrences.get step).getD [],
      ∃ caption, labelGroup.get index = some caption ∧ step ∈ (caption.splitOn '/').dropLast := by
  cases hget : stepOccurrences.get step with
  | none => nofun
  | some indexes => exact h (step, indexes) (JsMap.mem_of_get hget)

theorem collectStep_inv {i : Nat} {acc : JsMap Nat (List (List Char)) × JsMap (List Char) (List Nat)}
    (hpaths : PathsOf labelGroup acc.1) (hsteps : StepsOf labelGroup acc.2) {entry : Nat × List (List Char)}
    (hentry : entry.2 = [] ∨
      ∃ caption, labelGroup.get entry.1 = some caption ∧ entry.2 = (caption.splitOn '/').dropLast) :
    PathsOf labelGroup (collectStep i acc entry).1 ∧ StepsOf labelGroup (collectStep i acc entry).2 := by
  dsimp only [collectStep]
  split
  · rename_i hlen
    obtain ⟨caption, hget, hdirs⟩ := hentry.resolve_left (List.ne_nil_of_length_pos hlen)
    split
    · exact ⟨hpaths.set (.inl rfl), hsteps⟩
    · rename_i hi
      have hstep : entry.2.getD i [] ∈ (caption.splitOn '/').dropLast := by
        rw [← hdirs, List.getD_eq_getElem?_getD, List.getElem?_eq_getElem (by omega), Option.getD_some]
        exact List.getElem_mem _
      have hnew : StepsOf labelGroup (acc.2.set (entry.2.getD i []) ((acc.2.get (entry.2.getD i [])).getD [] ++ [entry.1])) := by
        intro occurrence hocc index hindex
        rcases JsMap.mem_set hocc with rfl | hocc
        · rcases List.mem_append.1 hindex with hindex | hindex
          · exact hsteps.getD _ index hindex
          · exact ⟨caption, List.mem_singleton.1 hindex ▸ hget, hstep⟩
        · exact hsteps occurrence hocc index hindex
      split
      · rename_i hhas
        refine ⟨hpaths, ?_⟩
        rw [JsMap.get_eq_none (by simpa using hhas)] at hnew
        exact hnew
      · exact ⟨hpaths, hnew⟩
  · exact ⟨hpaths, hsteps⟩

/-- Resolving a directory unique to one path gives that path's caption its decorated directory. -/
theorem resolveStep_inv (hP : ∀ caption displayed, Shown labelGroup caption displayed → P caption displayed)
    {acc : Walk} (hpaths : PathsOf labelGroup acc.1) (hmap : EntriesSatisfy P acc.2)
    {occurrence : List Char × List Nat} (hocc : ∀ index ∈ occurrence.2,
      ∃ caption, labelGroup.get index = some caption ∧ occurrence.1 ∈ (caption.splitOn '/').dropLast) :
    PathsOf labelGroup (resolveStep labelGroup acc occurrence).1 ∧
      EntriesSatisfy P (resolveStep labelGroup acc occurrence).2 := by
  unfold resolveStep
  split
  · rename_i hlen
    obtain ⟨index, hindex⟩ := List.length_eq_one.1 hlen
    split
    · rename_i originalPath hget
      split
      · obtain ⟨caption, hcap, hdir⟩ := hocc index (by simp [hindex])
        rw [hindex, List.headD_cons, hcap, Option.some.injEq] at hget
        subst hget
        exact ⟨hpaths.set (.inl rfl), hmap.set (hP _ _
          ⟨⟨(index, caption), JsMap.mem_of_get hcap, rfl⟩, isPartialPath_decorate hdir⟩)⟩
      · exact ⟨hpaths, hmap⟩
    · exact ⟨hpaths, hmap⟩
  · exact ⟨hpaths, hmap⟩

theorem walkStep_inv (hP : ∀ caption displayed, Shown labelGroup caption displayed → P caption displayed)
    {acc : Walk} (hpaths : PathsOf labelGroup acc.1) (hmap : EntriesSatisfy P acc.2) (i : Nat) :
    PathsOf labelGroup (walkStep labelGroup acc i).1 ∧ EntriesSatisfy P (walkStep labelGroup acc i).2 := by
  have hcollect : PathsOf labelGroup (acc.1.foldl (collectStep i) (acc.1, [])).1 ∧
      StepsOf labelGroup (acc.1.foldl (collectStep i) (acc.1, [])).2 :=
    List.foldlRecOn (motive := fun x : JsMap Nat (List (List Char)) × JsMap (List Char) (List Nat) =>
        PathsOf labelGroup x.1 ∧ StepsOf labelGroup x.2) _ _ _
      ⟨hpaths, fun _ h => (nomatch h)⟩ fun x hx entry hentry => collectStep_inv hx.1 hx.2 (hpaths entry hentry)
  exact List.foldlRecOn (motive := fun x : Walk => PathsOf labelGroup x.1 ∧ EntriesSatisfy P x.2) _ _ _
    ⟨hcollect.1, hmap⟩ fun x hx occurrence hocc => resolveStep_inv hP hx.1 hx.2 (hcollect.2 occurrence hocc)

/-- The defaults give each caption of the group its last directories, and each path its caption's
directories. -/
theorem initPath_inv (hP : ∀ caption displayed, Shown labelGroup caption displayed → P caption displayed)
    (hkeys : (labelGroup.map Prod.fst).Nodup) (acc : Nat × Walk) (hpaths : PathsOf labelGroup acc.2.1)
    (hmap : EntriesSatisfy P acc.2.2) :
    PathsOf labelGroup (labelGroup.foldl initPath acc).2.1 ∧
      EntriesSatisfy P (labelGroup.foldl initPath acc).2.2 :=
  List.foldlRecOn (motive := fun x : Nat × Walk => PathsOf labelGroup x.2.1 ∧ EntriesSatisfy P x.2.2) _ _ _
    ⟨hpaths, hmap⟩ fun _ hx entry hentry =>
      ⟨hx.1.set (.inr ⟨entry.2, JsMap.get_of_mem hkeys hentry, (List.dropLast_eq_take _).symm⟩),
        hx.2.set (hP _ _ ⟨⟨entry, hentry, rfl⟩, isPartialPath_defaultDisplayedPath entry.2⟩)⟩

/-- Whatever it held before, a group adds only displayed paths it may show. -/
theorem processGroup_inv (hkeys : (labelGroup.map Prod.fst).Nodup)
    (hP : 1 < labelGroup.length → ∀ caption displayed, Shown labelGroup caption displayed → P caption displayed)
    {m : JsMap (List Char) (List Char)} (hm : EntriesSatisfy P m) : EntriesSatisfy P (processGroup m labelGroup) := by
  unfold processGroup
  split
  · rename_i hlen
    exact (List.foldlRecOn (motive := fun x : Walk => PathsOf labelGroup x.1 ∧ EntriesSatisfy P x.2) _ _ _
      (initPath_inv (hP hlen) hkeys (0, [], m) (fun _ h => (nomatch h)) hm)
      fun x hx i _ => walkStep_inv (hP hlen) hx.1 hx.2 i).2
  · exact hm

end Walk

/-- The groups of `labelGroups titles`: each files a caption under one index at most, and the
caption under `index` is that of `titles[index]`, of the group's label. -/
def GroupsOf (titles : List Title) (labelGroups : JsMap (List Char) (JsMap Nat (List Char))) : Prop :=
  ∀ group ∈ labelGroups, (group.2.map Prod.fst).Nodup ∧
    ∀ entry ∈ group.2, ∃ title, titles[entry.1]? = some title ∧ title.label = group.1 ∧ title.caption = entry.2

theorem GroupsOf.set_group {titles : List Title} {labelGroups : JsMap (List Char) (JsMap Nat (List Char))}
    (h : GroupsOf titles labelGroups) {entry : Nat × Title} (hentry : entry ∈ titles.enum) :
    GroupsOf titles (labelGroups.set entry.2.label
      (((labelGroups.get entry.2.label).getD []).set entry.1 entry.2.caption)) := by
  have hold : (((labelGroups.get entry.2.label).getD []).map Prod.fst).Nodup ∧
      ∀ e ∈ (labelGroups.get entry.2.label).getD [],
        ∃ title, titles[e.1]? = some title ∧ title.label = entry.2.label ∧ title.caption = e.2 := by
    cases hget : labelGroups.get entry.2.label with
    | none => exact ⟨List.nodup_nil, nofun⟩
    | some group => exact h _ (JsMap.mem_of_get hget)
  intro group hgroup
  rcases JsMap.mem_set hgroup with rfl | hgroup
  · refine ⟨JsMap.nodup_keys_set hold.1 _ _, fun e he => ?_⟩
    rcases JsMap.mem_set he with rfl | he
    · exact ⟨entry.2, List.mem_enum_iff_getElem?.1 hentry, rfl, rfl⟩
    · exact hold.2 e he
  · exact h group hgroup

theorem groupsOf_labelGroups (titles : List Title) : GroupsOf titles (labelGroups titles) :=
  List.foldlRecOn (motive := GroupsOf titles) _ _ _ (fun _ h => (nomatch h)) fun groups hgroups entry hentry => by
    unfold groupTitle
    refine GroupsOf.set_group ?_ hentry
    split
    · exact hgroups
    · intro group hgroup
      rcases JsMap.mem_set hgroup with rfl | hgroup
      · exact ⟨List.nodup_nil, nofun⟩
      · exact hgroups group hgroup

/-- Every entry of `findDuplicateLabels` is written by the walk of a group of two or more. -/
theorem entriesSatisfy_findDuplicateLabels (titles : List Title) :
    EntriesSatisfy (fun caption displayed => ∃ group ∈ labelGroups titles, 1 < group.2.length ∧
      Shown group.2 caption displayed) (findDuplicateLabels titles) :=
  List.foldlRecOn (motive := EntriesSatisfy _) _ _ _ (fun _ _ h => (nomatch h)) fun _ hm group hgroup =>
    processGroup_inv (groupsOf_labelGroups titles group hgroup).1 (fun hlen _ _ hs => ⟨group, hgroup, hlen, hs⟩) hm

/-- The captions that get details are exactly those whose label another title shares. -/
theorem has_findDuplicateLabels_iff {titles : List Title} {caption : List Char} :
    (findDuplicateLabels titles).has caption ↔
      ∃ (i j : Nat) (title other : Title), titles[i]? = some title ∧ titles[j]? = some other ∧ i ≠ j ∧
        other.label = title.label ∧ title.caption = caption := by
  constructor
  · intro h
    obtain ⟨displayed, hget⟩ := Option.isSome_iff_exists.1 ((JsMap.get_isSome _ _).trans h)
    obtain ⟨group, hgroup, hlen, ⟨entry, hentry, rfl⟩, -⟩ := entriesSatisfy_findDuplicateLabels titles _ _ hget
    obtain ⟨hkeys, hentries⟩ := groupsOf_labelGroups titles group hgroup
    obtain ⟨e, he, hne⟩ := JsMap.exists_key_ne hkeys hlen entry.1
    obtain ⟨title, hi, hlabel, hcaption⟩ := hentries entry hentry
    obtain ⟨other, hj, hlabel', -⟩ := hentries e he
    exact ⟨entry.1, e.1, title, other, hi, hj, Ne.symm hne, hlabel'.trans hlabel.symm, hcaption⟩
  · rintro ⟨i, j, title, other, hi, hj, hij, hlabel, rfl⟩
    exact findDuplicateLabels_has hi hj hij hlabel

/-- The details of a caption are its last three directories, marked `.../` exactly when it has
more, or one of its directories, marked `.../` unless the first directory has its name and `/...`
unless the last one has. -/
theorem findDuplicateLabels_partial_path {titles : List Title} {caption displayed : List Char}
    (h : (findDuplicateLabels titles).get caption = some displayed) :
    let dirs := (caption.splitOn '/').dropLast
    displayed = (if 3 < dirs.length then ".../".toList else []) ++ ['/'].intercalate (dirs.drop (dirs.length - 3)) ∨
      ∃ dir ∈ dirs, displayed = (if dirs.head? = some dir then [] else ".../".toList) ++ dir ++
        (if dirs.getLast? = some dir then [] else "/...".toList) := by
  obtain ⟨-, -, -, -, hpath⟩ := entriesSatisfy_findDuplicateLabels titles _ _ h
  exact hpath

/-- Two `f` tabs, of `d/x/d/f` and `e/x/d/f`: the first shows its first directory `d`, unmarked,
since its last directory is named `d` too, though `x` and `d` are left out after it. -/
theorem findDuplicateLabels_partial_path_repeated :
    (findDuplicateLabels [⟨"f".toList, "d/x/d/f".toList⟩, ⟨"f".toList, "e/x/d/f".toList⟩]).get
        "d/x/d/f".toList = some "d".toList ∧
      let dirs := ("d/x/d/f".toList.splitOn '/').dropLast
      ("d".toList = (if 3 < dirs.length then ".../".toList else []) ++ ['/'].intercalate (dirs.drop (dirs.length - 3)) ∨
        ∃ dir ∈ dirs, "d".toList = (if dirs.head? = some dir then [] else ".../".toList) ++ dir ++
          (if dirs.getLast? = some dir then [] else "/...".toList)) := by
  refine ⟨?h, findDuplicateLabels_partial_path ?h⟩
  decide

/-! ## Same-named tabs the details do not tell apart -/

/-- Two tabs labelled `f`, of captions `r/s/f` and `r/t/s/f`, show the same details `.../s`. -/
theorem renderLabel_same_details :
    let titles : List Title :=
      [⟨"f".toList, "r/s/f".toList⟩, ⟨"f".toList, "r/t/s/f".toList⟩, ⟨"f".toList, "r/t/u/f".toList⟩]
    renderLabelDetails titles false ⟨"f".toList, "r/s/f".toList⟩ = some ".../s".toList ∧
      renderLabelDetails titles false ⟨"f".toList, "r/t/s/f".toList⟩ = some ".../s".toList := by
  decide

end Theia.Core
