import Mathlib.Data.List.GetD
import Theia.Git.BlameFormat
import Theia.Git.CommitDetails

/-!
# `GitBlameParser.createFileBlame` and `DugiteGit.blame`

`createFileBlame` walks the parsed entries once. For each entry it looks its sha up in a map of
commits and, only when the sha is new, awaits `commitBody(sha)` and stores the commit built from
the entry; then it writes one `CommitLine` per line of the entry into the sparse `lines` array.
The walk runs in any monad: `commitBody` is the only effect.

* The line table does not depend on the effect, and the effect is one `commitBody` call per
  distinct sha, in order of first appearance (`foldlM_blameStep`): the loop is the fetch loop over
  `firstByKey Entry.sha` of the entries, the first entry of each sha.
* In the line table, index `i` holds the line of the last entry that covers it, and is a hole
  when none does (`getD_writeAll`).
* `DugiteGit.blame` hands the parser a `commitBodyReader` that answers the empty body for the
  uncommitted sha without running git.

The JavaScript array is a list of options, `none` for a hole. A write at a key that is not an
array index (a negative number, `NaN`) makes a property that is no element of the array, and is
left out.
-/

namespace Theia.Git

open Js

/-- `CommitLine`. -/
structure CommitLine where
  sha : Option (List Char)
  line : JsNumber
  deriving DecidableEq, Repr

/-- `GitFileBlame`: the file, its commits, and the array of lines, `none` for a hole. -/
structure FileBlame where
  uri : List Char
  commits : List Commit
  lines : List (Option CommitLine)
  deriving DecidableEq, Repr

/-- The element of the line array at index `i`: `none` for a hole and past the end. -/
def FileBlame.lineAt (fileBlame : FileBlame) (i : Nat) : Option CommitLine :=
  fileBlame.lines.getD i none

/-! ## The line array -/

/-- `lines[index] = value` on an array: past the end it grows with holes up to `index`. -/
def setIndex {α : Type} (lines : List (Option α)) (index : Nat) (value : α) : List (Option α) :=
  if index < lines.length then lines.set index (some value)
  else lines ++ List.replicate (index - lines.length) none ++ [some value]

/-- `lines[key] = value` for a number key: only a non-negative integer is an array index. -/
def setKey {α : Type} (lines : List (Option α)) : JsNumber → α → List (Option α)
  | .int (.ofNat index), value => setIndex lines index value
  | _, _ => lines

/-- `entry.line! + lineOffset`: an `undefined` or `NaN` line gives `NaN`. -/
def offsetLine (line : Option JsNumber) (lineOffset : Nat) : JsNumber :=
  match line with
  | some (.int l) => .int (l + lineOffset)
  | _ => .nan

/-- How many `lineOffset` from `0` pass `lineOffset < lineCount`. -/
def offsetCount : Option JsNumber → Nat
  | some (.int c) => c.toNat
  | _ => 0

/-- One turn of the inner loop of `createFileBlame`: `lines[line.line] = line`. -/
def writeLine (sha : Option (List Char)) (line : Option JsNumber) (lines : List (Option CommitLine))
    (lineOffset : Nat) : List (Option CommitLine) :=
  let commitLine : CommitLine := ⟨sha, offsetLine line lineOffset⟩
  setKey lines commitLine.line commitLine

/-- The inner loop of `createFileBlame`: the lines of one entry. -/
def writeLines (lines : List (Option CommitLine)) (sha : Option (List Char))
    (line lineCount : Option JsNumber) : List (Option CommitLine) :=
  (List.range (offsetCount lineCount)).foldl (writeLine sha line) lines

/-! ## The commits -/

/-- A `Map<string, Commit>`: its entries in insertion order. -/
abbrev ShaMap := List (Option (List Char) × Commit)

/-- `Map.get`. -/
def ShaMap.get (commits : ShaMap) (sha : Option (List Char)) : Option Commit :=
  (commits.find? (·.1 = sha)).map (·.2)

/-- `Map.set`: a key already present keeps its place. -/
def ShaMap.set (commits : ShaMap) (sha : Option (List Char)) (commit : Commit) : ShaMap :=
  if commits.any (·.1 = sha) then commits.map fun p => if p.1 = sha then (sha, commit) else p
  else commits ++ [(sha, commit)]

/-- The commit `createFileBlame` builds from an entry and the body of its sha. -/
def Entry.commit (entry : Entry) (body : List Char) : Commit where
  sha := entry.sha
  author := { name := entry.author, email := entry.authorMail, timestamp := entry.authorTime,
              tzOffset := entry.authorTz }
  summary := entry.summary
  body := some body

section Loop

variable {m : Type → Type} [Monad m]

/-- One turn of the loop of `createFileBlame`: the map lookup, `commitBody` for a new sha only,
then the lines of the entry. -/
def blameStep (commitBody : Option (List Char) → m (List Char))
    (state : ShaMap × List (Option CommitLine)) (entry : Entry) :
    m (ShaMap × List (Option CommitLine)) := do
  let sha := entry.sha
  let commits ← match state.1.get sha with
    | some _ => pure state.1
    | none => do
      let body ← commitBody sha
      pure (state.1.set sha (entry.commit body))
  pure (commits, writeLines state.2 sha entry.line entry.lineCount)

/-- `GitBlameParser.createFileBlame`. -/
def createFileBlame (uri : List Char) (blameEntries : List Entry)
    (commitBody : Option (List Char) → m (List Char)) : m FileBlame := do
  let state ← blameEntries.foldlM (blameStep commitBody) ([], [])
  pure ⟨uri, state.1.map (·.2), state.2⟩

/-- `GitBlameParser.parse`: nothing for an empty output. -/
def GitBlameParser.parse (fileUri gitBlameOutput : List Char)
    (commitBody : Option (List Char) → m (List Char)) : m (Option FileBlame) :=
  if gitBlameOutput.isEmpty then pure none
  else some <$> createFileBlame fileUri (parseEntries gitBlameOutput) commitBody

/-- `s.indexOf(c, position)`: the first index from `position` on that holds `c`, or `-1`. -/
def indexOfFrom (s : List Char) (c : Char) (position : Nat) : Int :=
  match (s.drop position).indexOf? c with
  | some k => position + k
  | none => -1

/-- The body in what `git rev-list --format=%B --max-count=1 <sha>` prints: the text from its
second newline on (from the first when that opens the output), trimmed. -/
def revListBody (revOutput : List Char) : List Char :=
  let nl := indexOfFrom revOutput '\n' 0
  let nl := if nl > 0 then indexOfFrom revOutput '\n' (nl.toNat + 1) else nl
  trim (revOutput.drop (max 0 nl).toNat)

/-- The `commitBodyReader` of `DugiteGit.blame`. `revList sha` stands for the output of
`git rev-list --format=%B --max-count=1 <sha>`, which it runs. -/
def DugiteGit.commitBodyReader (revList : Option (List Char) → m (List Char))
    (sha : Option (List Char)) : m (List Char) :=
  if isUncommittedSha sha then pure [] else revListBody <$> revList sha

/-- `DugiteGit.blame` once git has answered: `untracked` is whether the status lists the file as
new, `stdout` what `git blame --root --incremental` printed. -/
def DugiteGit.blame (uri : List Char) (untracked : Bool) (stdout : List Char)
    (revList : Option (List Char) → m (List Char)) : m (Option FileBlame) :=
  if untracked then pure none
  else GitBlameParser.parse uri (trim stdout) (DugiteGit.commitBodyReader revList)

end Loop

/-! ## The first entry of each sha -/

section FirstByKey

variable {α β : Type} [DecidableEq β] (key : α → β)

/-- The elements whose key no earlier element has, in order. -/
def firstByKey : List α → List α
  | [] => []
  | a :: l => a :: (firstByKey l).filter (fun b => key b ≠ key a)

/-- Filtering by a property of the key commutes with keeping the first of each key. -/
theorem firstByKey_filter (q : β → Bool) (l : List α) :
    firstByKey key (l.filter fun a => q (key a)) = (firstByKey key l).filter fun a => q (key a) := by
  induction l with
  | nil => rfl
  | cons a l ih =>
    by_cases hq : q (key a) = true
    · simp only [List.filter_cons, hq, ite_true, firstByKey, ih, List.filter_filter, Bool.and_comm]
    · simp only [List.filter_cons, hq, firstByKey, ih, List.filter_filter, Bool.false_eq_true,
        ite_false]
      exact List.filter_congr fun b _ => by
        by_cases hb : q (key b) = true
        · simp [hb, show key b ≠ key a from fun h => hq (h ▸ hb)]
        · simp [hb]

theorem firstByKey_sublist (l : List α) : List.Sublist (firstByKey key l) l := by
  induction l with
  | nil => exact List.Sublist.slnil
  | cons a l ih => exact ((List.filter_sublist _).trans ih).cons₂ a

/-- No key is kept twice. -/
theorem nodup_map_firstByKey (l : List α) : ((firstByKey key l).map key).Nodup := by
  induction l with
  | nil => exact List.nodup_nil
  | cons a l ih =>
    rw [firstByKey, List.map_cons, List.nodup_cons]
    refine ⟨fun hmem => ?_, ih.sublist ((List.filter_sublist _).map key)⟩
    obtain ⟨b, hb, hab⟩ := List.mem_map.mp hmem
    exact absurd hab (of_decide_eq_true (List.mem_filter.mp hb).2)

/-- Every key is kept. -/
theorem exists_mem_firstByKey {a : α} {l : List α} (ha : a ∈ l) :
    ∃ b ∈ firstByKey key l, key b = key a := by
  induction l with
  | nil => cases ha
  | cons c l ih =>
    rcases List.mem_cons.mp ha with rfl | ha
    · exact ⟨a, List.mem_cons_self _ _, rfl⟩
    · obtain ⟨b, hb, hab⟩ := ih ha
      by_cases hbc : key b = key c
      · exact ⟨c, List.mem_cons_self _ _, hbc ▸ hab⟩
      · exact ⟨b, List.mem_cons_of_mem _ (List.mem_filter.mpr ⟨hb, decide_eq_true hbc⟩), hab⟩

/-- What is kept of a key is the first element with that key. -/
theorem find?_of_mem_firstByKey {b : α} {l : List α} (hb : b ∈ firstByKey key l) :
    l.find? (fun a => key a = key b) = some b := by
  induction l with
  | nil => cases hb
  | cons a l ih =>
    rcases List.mem_cons.mp hb with rfl | hb
    · simp
    · obtain ⟨hb, hne⟩ := List.mem_filter.mp hb
      simp [List.find?_cons, ih hb, Ne.symm (of_decide_eq_true hne)]

end FirstByKey

/-! ## The loop -/

@[simp] theorem ShaMap.get_nil (sha : Option (List Char)) : ShaMap.get [] sha = none := rfl

theorem ShaMap.get_append_isNone (commits : ShaMap) (key : Option (List Char)) (commit : Commit)
    (sha : Option (List Char)) :
    ((commits ++ [(key, commit)]).get sha).isNone = ((commits.get sha).isNone && decide (sha ≠ key)) := by
  cases h : commits.find? (·.1 = sha) <;> by_cases hk : key = sha <;>
    simp [ShaMap.get, List.find?_append, h, hk, eq_comm]

/-- `Map.set` of a key the map does not hold appends it. -/
theorem ShaMap.set_of_get (commits : ShaMap) {sha : Option (List Char)} (h : commits.get sha = none)
    (commit : Commit) : commits.set sha commit = commits ++ [(sha, commit)] := by
  have hall : ∀ p ∈ commits, ¬ p.1 = sha := by
    simpa only [ShaMap.get, Option.map_eq_none', List.find?_eq_none, decide_eq_true_eq] using h
  rw [ShaMap.set, if_neg]
  simpa only [List.any_eq_true, decide_eq_true_eq, not_exists, not_and] using hall

/-- The entries the loop fetches a body for: of the shas the map does not hold, the first entry. -/
def newEntries (commits : ShaMap) (entries : List Entry) : List Entry :=
  firstByKey Entry.sha (entries.filter fun e => (commits.get e.sha).isNone)

theorem newEntries_nil (entries : List Entry) : newEntries [] entries = firstByKey Entry.sha entries := by
  simp [newEntries]

theorem newEntries_cons_of_get {commits : ShaMap} {entry : Entry} {commit : Commit}
    (h : commits.get entry.sha = some commit) (rest : List Entry) :
    newEntries commits (entry :: rest) = newEntries commits rest := by
  simp [newEntries, List.filter_cons, h]

theorem newEntries_cons_of_get_none {commits : ShaMap} {entry : Entry}
    (h : commits.get entry.sha = none) (rest : List Entry) :
    newEntries commits (entry :: rest) =
      entry :: (newEntries commits rest).filter fun e => e.sha ≠ entry.sha := by
  simp [newEntries, List.filter_cons, h, firstByKey]

/-- Storing a sha takes its entries out of those to fetch. -/
theorem newEntries_append (commits : ShaMap) (key : Option (List Char)) (commit : Commit)
    (entries : List Entry) :
    newEntries (commits ++ [(key, commit)]) entries =
      (newEntries commits entries).filter fun e => e.sha ≠ key := by
  have hfilter := firstByKey_filter Entry.sha (fun sha => decide (sha ≠ key))
    (entries.filter fun e => (commits.get e.sha).isNone)
  simp only [List.filter_filter] at hfilter
  simp only [newEntries, ShaMap.get_append_isNone, hfilter, Bool.and_comm]

/-- The line array after the lines of every entry in turn. -/
def writeAll (lines : List (Option CommitLine)) (entries : List Entry) : List (Option CommitLine) :=
  entries.foldl (fun lines entry => writeLines lines entry.sha entry.line entry.lineCount) lines

/-! ## The line array, index by index -/

theorem getD_setIndex {α : Type} (lines : List (Option α)) (index i : Nat) (value : α) :
    (setIndex lines index value).getD i none = if i = index then some value else lines.getD i none := by
  unfold setIndex
  split_ifs with hlt hi hi
  · simp [hi, List.getD_eq_getElem?_getD, List.getElem?_set, hlt]
  · simp [List.getD_eq_getElem?_getD, List.getElem?_set, Ne.symm hi]
  · subst hi
    rw [List.getD_append_right _ _ _ _ (by simp; omega), List.length_append, List.length_replicate,
      show i - (lines.length + (i - lines.length)) = 0 by omega]
    rfl
  · rcases Nat.lt_or_ge i lines.length with hil | hil
    · rw [List.append_assoc, List.getD_append _ _ _ _ hil]
    · rw [List.getD_eq_default _ _ hil, List.append_assoc, List.getD_append_right _ _ _ _ hil]
      rcases Nat.lt_or_ge (i - lines.length) (index - lines.length) with hj | hj
      · rw [List.getD_append _ _ _ _ (by simpa using hj), List.getD_eq_getElem?_getD,
          List.getElem?_getD_replicate_default_eq]
      · exact List.getD_eq_default _ _ (by simp; omega)

/-- A line at offset `k` from line `l` is written at index `l + k` when that is an index. -/
theorem getD_writeLine (sha : Option (List Char)) (l : Int) (lines : List (Option CommitLine))
    (k i : Nat) :
    (writeLine sha (some (.int l)) lines k).getD i none =
      if l + k = i then some ⟨sha, .int i⟩ else lines.getD i none := by
  simp only [writeLine, offsetLine]
  cases hlk : l + k with
  | ofNat j =>
    simp only [setKey, getD_setIndex, Int.ofNat_eq_coe, Nat.cast_inj]
    by_cases hij : i = j <;> simp [hij, eq_comm]
  | negSucc j => simp [setKey]

/-- An entry without a numeric line writes no element. -/
theorem writeLine_of_not_int (sha : Option (List Char)) (line : Option JsNumber)
    (hline : ∀ l, line ≠ some (.int l)) : writeLine sha line = fun lines _ => lines := by
  funext lines k
  rcases line with _ | _ | _
  · rfl
  · exact absurd rfl (hline _)
  · rfl

/-- Whether index `i` is among the `lineCount` lines of an entry from `line` on. -/
def Entry.covers (entry : Entry) (i : Nat) : Bool :=
  match entry.line with
  | some (.int l) => decide (l ≤ i ∧ (i : Int) < l + offsetCount entry.lineCount)
  | _ => false

theorem getD_foldl_writeLine (sha : Option (List Char)) (l : Int) (lines : List (Option CommitLine))
    (i n : Nat) :
    ((List.range n).foldl (writeLine sha (some (.int l))) lines).getD i none =
      if l ≤ i ∧ (i : Int) < l + n then some ⟨sha, .int i⟩ else lines.getD i none := by
  induction n with
  | zero => rw [if_neg (by omega)]; rfl
  | succ n ih =>
    rw [List.range_succ, List.foldl_append, List.foldl_cons, List.foldl_nil, getD_writeLine, ih]
    split_ifs <;> first | rfl | (exfalso; omega)

/-- The lines of an entry fill exactly the indexes it covers. -/
theorem getD_writeLines (lines : List (Option CommitLine)) (entry : Entry) (i : Nat) :
    (writeLines lines entry.sha entry.line entry.lineCount).getD i none =
      if entry.covers i then some ⟨entry.sha, .int i⟩ else lines.getD i none := by
  rcases entry with ⟨_, sha, _, _ | l | _, lineCount, _⟩
  · simp [writeLines, Entry.covers, writeLine_of_not_int sha none (by simp)]
  · simp only [writeLines, Entry.covers, getD_foldl_writeLine, decide_eq_true_eq]
  · simp [writeLines, Entry.covers, writeLine_of_not_int sha (some .nan) (by simp)]

/-- Index `i` of the line array holds the line of the last entry that covers it. -/
theorem getD_writeAll (entries : List Entry) (i : Nat) :
    ∀ lines, (writeAll lines entries).getD i none =
      ((entries.reverse.find? (·.covers i)).map fun entry => ⟨entry.sha, .int i⟩).or
        (lines.getD i none) := by
  induction entries with
  | nil => intro lines; simp [writeAll]
  | cons entry rest ih =>
    intro lines
    have := ih (writeLines lines entry.sha entry.line entry.lineCount)
    simp only [writeAll, List.foldl_cons] at this ⊢
    rw [this, getD_writeLines, List.reverse_cons, List.find?_append]
    cases rest.reverse.find? (·.covers i) <;> by_cases hc : entry.covers i <;> simp [hc]

section Run

variable {m : Type → Type} [Monad m]

/-- A fetch: `commitBody` of the entry's sha, and the commit stored under it. -/
def fetchStep (commitBody : Option (List Char) → m (List Char)) (commits : ShaMap) (entry : Entry) :
    m ShaMap :=
  (fun body => commits ++ [(entry.sha, entry.commit body)]) <$> commitBody entry.sha

variable [LawfulMonad m]

/-- The loop of `createFileBlame` is the fetch loop over the new entries, the first of each sha,
with the lines of every entry written alongside. -/
theorem foldlM_blameStep (commitBody : Option (List Char) → m (List Char)) (entries : List Entry) :
    ∀ commits lines, entries.foldlM (blameStep commitBody) (commits, lines) =
      (fun commits => (commits, writeAll lines entries)) <$>
        (newEntries commits entries).foldlM (fetchStep commitBody) commits := by
  induction entries with
  | nil => intro commits lines; simp [newEntries, firstByKey, writeAll]
  | cons entry rest ih =>
    intro commits lines
    cases hget : commits.get entry.sha with
    | some commit =>
      simp [blameStep, hget, ih, newEntries_cons_of_get hget, writeAll]
    | none =>
      simp [blameStep, hget, ih, newEntries_cons_of_get_none hget, newEntries_append, fetchStep,
        ShaMap.set_of_get _ hget, writeAll]

/-- `createFileBlame` is the fetch loop over the first entry of each sha, and the line array of all
the entries. -/
theorem createFileBlame_eq (uri : List Char) (entries : List Entry)
    (commitBody : Option (List Char) → m (List Char)) :
    createFileBlame uri entries commitBody =
      (fun commits => ⟨uri, commits.map (·.2), writeAll [] entries⟩) <$>
        (firstByKey Entry.sha entries).foldlM (fetchStep commitBody) [] := by
  simp [createFileBlame, foldlM_blameStep, newEntries_nil]

end Run

/-- The calls a capability was made, each with its answer. -/
abbrev Calls := List (Option (List Char) × List Char)

/-- A capability that records each call; its answer may depend on the calls made before. -/
def recording (respond : Calls → Option (List Char) → List Char) (sha : Option (List Char)) :
    StateM Calls (List Char) :=
  fun calls => (respond calls sha, calls ++ [(sha, respond calls sha)])

/-! ## The calls of `commitBody` -/

theorem run_fetchStep_recording (respond : Calls → Option (List Char) → List Char)
    (commits : ShaMap) (entry : Entry) (calls : Calls) :
    (fetchStep (recording respond) commits entry).run calls =
      (commits ++ [(entry.sha, entry.commit (respond calls entry.sha))],
        calls ++ [(entry.sha, respond calls entry.sha)]) := rfl

/-- The fetch loop calls the capability once per entry, in order. -/
theorem calls_foldlM_fetchStep (respond : Calls → Option (List Char) → List Char)
    (entries : List Entry) : ∀ (commits : ShaMap) (calls : Calls),
      ((entries.foldlM (fetchStep (recording respond)) commits).run calls).2.map Prod.fst =
        calls.map Prod.fst ++ entries.map Entry.sha := by
  induction entries with
  | nil => intro commits calls; simp
  | cons entry rest ih =>
    intro commits calls
    simp [StateT.run_bind, run_fetchStep_recording, ih]

/-- The fetch loop stores with each commit the answer of the call made for it. -/
theorem bodies_foldlM_fetchStep (respond : Calls → Option (List Char) → List Char)
    (entries : List Entry) : ∀ (commits : ShaMap) (calls : Calls),
      commits.map (fun p => (p.2.sha, p.2.body)) = calls.map (fun call => (call.1, some call.2)) →
      let run := (entries.foldlM (fetchStep (recording respond)) commits).run calls
      run.1.map (fun p => (p.2.sha, p.2.body)) = run.2.map (fun call => (call.1, some call.2)) := by
  induction entries with
  | nil => intro commits calls h; exact h
  | cons entry rest ih =>
    intro commits calls h
    simp only [List.foldlM_cons, StateT.run_bind, run_fetchStep_recording]
    exact ih _ _ (by simp [h, Entry.commit])

/-- `createFileBlame` calls `commitBody` once for each distinct sha, in order of first appearance,
and stores with each commit the body that call answered. -/
theorem createFileBlame_calls (respond : Calls → Option (List Char) → List Char) (uri : List Char)
    (entries : List Entry) :
    let run := (createFileBlame uri entries (recording respond)).run []
    run.2.map Prod.fst = (firstByKey Entry.sha entries).map Entry.sha ∧
      (run.2.map Prod.fst).Nodup ∧
      run.1.commits.map (fun commit => (commit.sha, commit.body)) =
        run.2.map fun call => (call.1, some call.2) := by
  have hcalls := calls_foldlM_fetchStep respond (firstByKey Entry.sha entries) [] []
  have hbodies := bodies_foldlM_fetchStep respond (firstByKey Entry.sha entries) [] [] rfl
  simp only [List.map_nil, List.nil_append] at hcalls hbodies
  simp only [createFileBlame_eq, StateT.run_map, Id.map_eq, List.map_map]
  exact ⟨hcalls, hcalls ▸ nodup_map_firstByKey _ _, hbodies⟩

/-! ## The reader of `DugiteGit.blame` -/

theorem run_fetchStep_commitBodyReader (respond : Calls → Option (List Char) → List Char)
    (commits : ShaMap) (entry : Entry) (calls : Calls) :
    (fetchStep (DugiteGit.commitBodyReader (recording respond)) commits entry).run calls =
      if isUncommittedSha entry.sha then (commits ++ [(entry.sha, entry.commit [])], calls)
      else (commits ++ [(entry.sha, entry.commit (revListBody (respond calls entry.sha)))],
        calls ++ [(entry.sha, respond calls entry.sha)]) := by
  unfold fetchStep DugiteGit.commitBodyReader
  split <;> rfl

/-- Through the reader, no call is for the uncommitted sha, and its commit has the empty body. -/
theorem reader_foldlM_fetchStep (respond : Calls → Option (List Char) → List Char)
    (entries : List Entry) : ∀ (commits : ShaMap) (calls : Calls),
      (∀ call ∈ calls, isUncommittedSha call.1 = false) →
      (∀ p ∈ commits, isUncommittedSha p.2.sha = true → p.2.body = some []) →
      let run := (entries.foldlM (fetchStep (DugiteGit.commitBodyReader (recording respond)))
        commits).run calls
      (∀ call ∈ run.2, isUncommittedSha call.1 = false) ∧
        ∀ p ∈ run.1, isUncommittedSha p.2.sha = true → p.2.body = some [] := by
  induction entries with
  | nil => intro commits calls hcalls hcommits; exact ⟨hcalls, hcommits⟩
  | cons entry rest ih =>
    intro commits calls hcalls hcommits
    simp only [List.foldlM_cons, StateT.run_bind, run_fetchStep_commitBodyReader]
    by_cases hu : isUncommittedSha entry.sha = true
    · simp only [hu, ite_true]
      refine ih _ _ hcalls fun p hp hpu => ?_
      rcases List.mem_append.mp hp with hp | hp
      · exact hcommits p hp hpu
      · simp only [List.mem_singleton] at hp; subst hp; rfl
    · simp only [hu, Bool.false_eq_true, ite_false]
      refine ih _ _ (fun call hc => ?_) fun p hp hpu => ?_
      · rcases List.mem_append.mp hc with hc | hc
        · exact hcalls call hc
        · simp only [List.mem_singleton] at hc; subst hc; simpa using hu
      · rcases List.mem_append.mp hp with hp | hp
        · exact hcommits p hp hpu
        · simp only [List.mem_singleton] at hp; subst hp; exact absurd hpu hu

/-- The parser calls `commitBody` for the uncommitted sha: it fetches the body of every new sha. -/
theorem parse_fetches_uncommitted :
    isUncommittedSha (some "0000000000000000000000000000000000000000".toList) = true ∧
      ((GitBlameParser.parse [] "0000000000000000000000000000000000000000 1 1 1\nfilename f".toList
        (recording fun _ _ => [])).run []).2 =
        [(some "0000000000000000000000000000000000000000".toList, [])] :=
  ⟨rfl, rfl⟩

/-- `DugiteGit.blame` runs `git rev-list` for no uncommitted sha, and gives every commit of an
uncommitted sha the empty body. -/
theorem blame_reads_no_uncommitted (uri : List Char) (untracked : Bool) (stdout : List Char)
    (respond : Calls → Option (List Char) → List Char) :
    let run := (DugiteGit.blame uri untracked stdout (recording respond)).run []
    (∀ call ∈ run.2, isUncommittedSha call.1 = false) ∧
      ∀ fileBlame ∈ run.1, ∀ commit ∈ fileBlame.commits,
        isUncommittedSha commit.sha = true → commit.body = some [] := by
  unfold DugiteGit.blame GitBlameParser.parse
  split_ifs
  · simp
  · simp
  · obtain ⟨hcalls, hcommits⟩ := reader_foldlM_fetchStep respond
      (firstByKey Entry.sha (parseEntries (trim stdout))) [] [] (by simp) (by simp)
    simp only [createFileBlame_eq, StateT.run_map, Id.map_eq, Option.mem_def, Option.some.injEq,
      forall_eq', List.mem_map]
    exact ⟨hcalls, by rintro _ ⟨p, hp, rfl⟩; exact hcommits p hp⟩

/-! ## The blame of a well-formed listing -/

/-- Whether a hunk's lines, `r - 1` to `r - 1 + c - 1` for result line `r` and count `c`,
include index `i`. -/
def Hunk.covers (h : Hunk) (i : Nat) : Bool :=
  decide (digitsValue h.resultLine - 1 ≤ i ∧ i < digitsValue h.resultLine - 1 + digitsValue h.lineCount)

theorem Hunk.entry_covers {h : Hunk} (hwf : h.WellFormed) (i : Nat) : h.entry.covers i = h.covers i := by
  have := hwf.resultLine.2
  simp only [Entry.covers, Hunk.entry, offsetCount, Int.toNat_natCast, Hunk.covers]
  congr 1
  apply propext
  omega

theorem find?_congr {α : Type} {p q : α → Bool} {l : List α} (h : ∀ a ∈ l, p a = q a) :
    l.find? p = l.find? q := by
  induction l with
  | nil => rfl
  | cons a l ih =>
    simp only [List.find?_cons, h a (List.mem_cons_self _ _),
      ih fun b hb => h b (List.mem_cons_of_mem _ hb)]

theorem firstByKey_map {α γ β : Type} [DecidableEq β] (key : γ → β) (f : α → γ) (l : List α) :
    firstByKey key (l.map f) = (firstByKey (fun a => key (f a)) l).map f := by
  induction l with
  | nil => rfl
  | cons a l ih => simp [firstByKey, ih, List.filter_map, Function.comp_def]

theorem firstByKey_some {α β : Type} [DecidableEq β] (key : α → β) (l : List α) :
    firstByKey (fun a => some (key a)) l = firstByKey key l := by
  induction l with
  | nil => rfl
  | cons a l ih => simp [firstByKey, ih]

theorem foldlM_fetchStep_pure (commitBody : Option (List Char) → List Char) (entries : List Entry) :
    ∀ commits, entries.foldlM (fetchStep fun sha => (pure (commitBody sha) : Id (List Char))) commits =
      commits ++ entries.map fun e => (e.sha, e.commit (commitBody e.sha)) := by
  induction entries with
  | nil => intro commits; simp
  | cons entry rest ih =>
    intro commits
    exact (ih (commits ++ [(entry.sha, entry.commit (commitBody entry.sha))])).trans (by simp)

/-- With a `commitBody` that answers at once, `createFileBlame` gives the commit of the first entry
of each sha and the line array of all the entries. -/
theorem createFileBlame_pure (uri : List Char) (entries : List Entry)
    (commitBody : Option (List Char) → List Char) :
    Id.run (createFileBlame uri entries fun sha => pure (commitBody sha)) =
      ⟨uri, (firstByKey Entry.sha entries).map (fun e => e.commit (commitBody e.sha)),
        writeAll [] entries⟩ := by
  rw [createFileBlame_eq, foldlM_fetchStep_pure]
  simp [Id.run]

theorem blameText_ne_nil {hunks : List Hunk} (hne : hunks ≠ []) : blameText hunks ≠ [] := by
  obtain ⟨h, hs, rfl⟩ := List.exists_cons_of_ne_nil hne
  have hheader : ∀ l : List (List Char), ['\n'].intercalate (h.header :: l) ≠ [] := by
    intro l; cases l <;> simp [List.intercalate, List.intersperse_cons_cons, Hunk.header_eq]
  rw [blameText, List.flatMap_cons, Hunk.lines, List.cons_append]
  exact hheader _

/-- The blame of every non-empty well-formed listing: one commit per distinct sha in order of first
appearance, built from its first hunk with the body `commitBody` answers, and at every index the
line of the last hunk that covers it, or a hole. -/
theorem parse_blameText (uri : List Char) {hunks : List Hunk} (hne : hunks ≠ [])
    (hwf : ∀ h ∈ hunks, h.WellFormed) (commitBody : Option (List Char) → List Char) :
    ∃ fileBlame, Id.run (GitBlameParser.parse uri (blameText hunks) fun sha => pure (commitBody sha)) =
        some fileBlame ∧ fileBlame.uri = uri ∧
      fileBlame.commits =
        (firstByKey Hunk.sha hunks).map (fun h => h.entry.commit (commitBody (some h.sha))) ∧
      ∀ i, fileBlame.lineAt i = (hunks.reverse.find? (·.covers i)).map fun h => ⟨some h.sha, .int i⟩ := by
  refine ⟨Id.run (createFileBlame uri (parseEntries (blameText hunks)) fun sha => pure (commitBody sha)),
    ?_, rfl, ?_, fun i => ?_⟩
  · rw [GitBlameParser.parse, if_neg (by simp [blameText_ne_nil hne])]
    rfl
  · rw [createFileBlame_pure, parseEntries_wellFormed hunks hwf, firstByKey_map]
    simp [Hunk.entry, firstByKey_some]
  · rw [createFileBlame_pure, parseEntries_wellFormed hunks hwf, FileBlame.lineAt, getD_writeAll,
      ← List.map_reverse, List.find?_map, Function.comp_def,
      find?_congr fun h hh => Hunk.entry_covers (hwf h (List.mem_reverse.mp hh)) i]
    cases hunks.reverse.find? (·.covers i) <;> simp [Hunk.entry]

/-- The summary of a hunk whose summary is one double quote comes out empty. -/
theorem parse_loneQuoteSummary :
    (Id.run (GitBlameParser.parse "u".toList "abc 1 1 1\nsummary \"\nfilename f".toList
      fun _ => pure [])).map (fun fileBlame => fileBlame.commits.map (·.summary)) = some [some []] :=
  rfl

/-! ## The author time in the two parsers -/

/-- At author time `1`, the log parser's timestamp is `1` and the blame parser's is `1000`. -/
theorem authorTime_one :
    (CommitDetailsParser.parse GitUtils.sample []
        (.raw "\x02abc\x01e\x01n\x011\x01r\x01s\x01b\x01".toList)
        CommitDetailsParser.COMMIT_CHUNK_DELIMITER).map (fun commits => commits.map (·.author.timestamp)) =
      .ok [some (.int 1)] ∧
    (Id.run (GitBlameParser.parse [] "abc 1 1 1\nauthor-time 1\nfilename f".toList fun _ => pure [])).map
      (fun fileBlame => fileBlame.commits.map (·.author.timestamp)) = some [some (.int 1000)] := by
  let r : LogRecord :=
    ⟨"abc".toList, "abc".toList, "e".toList, "n".toList, 1, "r".toList, "s".toList, "b".toList, []⟩
  have hwf : ∀ r' ∈ [r], r'.WellFormed := by
    simp only [List.mem_singleton, forall_eq]
    exact ⟨by decide, by decide, by simp [r], by simp [r]⟩
  have htime : decimalInt r.time = ['1'] := by
    show decimal 1 = ['1']
    rw [decimal, if_pos (by norm_num)]
    rfl
  have htext : "\x02abc\x01e\x01n\x011\x01r\x01s\x01b\x01".toList = logOutput [r] := by
    rw [logOutput_eq, List.map_singleton, List.flatMap_singleton, chunk_eq, htime]
    rfl
  refine ⟨?_, rfl⟩
  rw [htext, CommitDetailsParser.parse, OutputParser.split, splitOn_logOutput [r] hwf,
    mapM_parseChunk GitUtils.sample [] [r] hwf, List.mapM_cons, List.mapM_nil,
    LogRecord.read, NameStatusParser.parse, parseFrom_end GitUtils.sample [] _ 0 (by simp [r, OutputParser.split])]
  rfl

end Theia.Git
