import Theia.Js.Text

/-!
# `NameStatusParser`: file changes from `git diff --name-status -z`

Git lists each change as tokens: the raw status, then the old path when the status is a
similarity status (a rename or a copy, `R100`, `C075`), then the path. `NameStatusParser.parse`
walks the tokens with a cursor that moves by three after a similarity status and by two after
any other, and never looks at a path to decide where a change ends.

`GitUtils.mapStatus` and `GitUtils.isSimilarityStatus` live in `../common`, which is not in the
sources, and `OutputParser.toUri` goes through `FileUri` and `Path.join`: the model takes these
three as the fields of `GitUtils`.

* `parseFrom_append_tokens`: from a change boundary, the walk reads the changes one by one
  (`RawChange.read`), so a rejected status is the first error on both sides and file names that
  look like statuses change nothing.
* `split_joined`: the NUL-joined tokens, with or without a final NUL, split back into the
  tokens.
* `parse_joined_tokens`: the parse of a listing is one record per change, in order.
-/

namespace Theia.Git

open Js

/-- `GitFileStatus`. -/
inductive GitFileStatus where
  | new | copied | modified | renamed | deleted | conflicted
  deriving DecidableEq, Repr

/-- `GitFileChange` as the parsers build it (they never set `staged`). -/
structure GitFileChange where
  status : GitFileStatus
  uri : List Char
  oldUri : Option (List Char)
  deriving DecidableEq, Repr

/-- The helpers the parsers call whose code is not in the sources. -/
structure GitUtils where
  /-- `GitUtils.mapStatus`: the status of a raw status token, or the error it throws. -/
  mapStatus : List Char → Except String GitFileStatus
  /-- `GitUtils.isSimilarityStatus`: whether a raw status is a rename or a copy. -/
  isSimilarityStatus : List Char → Bool
  /-- `FileUri.create(Path.join(FileUri.fsPath(repositoryUri), pathSegment)).toString()`. -/
  toUri : List Char → List Char → List Char

/-- `OutputParser.LINE_DELIMITER`, the `NUL` delimiter. -/
def OutputParser.LINE_DELIMITER : Char := '\x00'

/-- The `input: string | string[]` of a parser. -/
inductive Input where
  | raw (text : List Char)
  | items (items : List (List Char))

/-- `OutputParser.split`: the items of the input, empty ones dropped. -/
def OutputParser.split (input : Input) (delimiter : Char) : List (List Char) :=
  (match input with
    | .raw text => text.splitOn delimiter
    | .items items => items).filter fun item => !item.isEmpty

/-- `this.toUri(repositoryUri, items[i])`: `Path.join` throws on the `undefined` that a read past
the end of `items` gives. -/
def OutputParser.toUri (g : GitUtils) (repositoryUri : List Char) :
    Option (List Char) → Except String (List Char)
  | some pathSegment => pure (g.toUri repositoryUri pathSegment)
  | none => throw "The \"path\" argument must be of type string. Received undefined"

/-- The `while (index < items.length)` loop of `NameStatusParser.parse`, from `index` on. -/
def NameStatusParser.parseFrom (g : GitUtils) (repositoryUri : List Char)
    (items : List (List Char)) (index : Nat) : Except String (List GitFileChange) :=
  if h : index < items.length then do
    let rawStatus := items[index]
    let status ← g.mapStatus rawStatus
    if g.isSimilarityStatus rawStatus then
      let uri ← OutputParser.toUri g repositoryUri items[index + 2]?
      let oldUri ← OutputParser.toUri g repositoryUri items[index + 1]?
      let changes ← parseFrom g repositoryUri items (index + 3)
      pure ({ status, uri, oldUri := some oldUri } :: changes)
    else
      let uri ← OutputParser.toUri g repositoryUri items[index + 1]?
      let changes ← parseFrom g repositoryUri items (index + 2)
      pure ({ status, uri, oldUri := none } :: changes)
  else pure []
termination_by items.length - index

/-- `NameStatusParser.parse`. -/
def NameStatusParser.parse (g : GitUtils) (repositoryUri : List Char) (input : Input)
    (delimiter : Char) : Except String (List GitFileChange) :=
  NameStatusParser.parseFrom g repositoryUri (OutputParser.split input delimiter) 0

/-! ## Changes and their tokens -/

/-- A change as git lists it: the raw status, the old path of a rename or copy, the path. -/
structure RawChange where
  status : List Char
  oldPath : Option (List Char)
  path : List Char
  deriving DecidableEq, Repr

/-- The tokens git writes for a change. -/
def RawChange.tokens (c : RawChange) : List (List Char) :=
  c.status :: (c.oldPath.toList ++ [c.path])

/-- The old path is there exactly when the status is a similarity status. -/
def RawChange.WellFormed (g : GitUtils) (c : RawChange) : Prop :=
  c.oldPath.isSome = g.isSimilarityStatus c.status

/-- What a change should be read as: its status mapped, its paths made URIs. -/
def RawChange.read (g : GitUtils) (repositoryUri : List Char) (c : RawChange) :
    Except String GitFileChange := do
  let status ← g.mapStatus c.status
  pure { status, uri := g.toUri repositoryUri c.path, oldUri := c.oldPath.map (g.toUri repositoryUri) }

section Walk

variable (g : GitUtils) (repositoryUri : List Char)

theorem parseFrom_end (items : List (List Char)) (index : Nat) (h : items.length ≤ index) :
    NameStatusParser.parseFrom g repositoryUri items index = pure [] := by
  rw [NameStatusParser.parseFrom, dif_neg (by omega)]

theorem getElem?_append_length {α : Type} (pre rest : List α) (k : Nat) :
    (pre ++ rest)[pre.length + k]? = rest[k]? := by
  rw [List.getElem?_append_right (by omega), Nat.add_sub_cancel_left]

theorem getElem?_append_length_cons {α : Type} (pre rest : List α) (a : α) :
    (pre ++ a :: rest)[pre.length]? = some a := by
  rw [List.getElem?_append_right le_rfl, Nat.sub_self]; simp

/-- One turn of the loop, at a cursor that reads `rawStatus`. -/
theorem parseFrom_of_getElem? {items : List (List Char)} {index : Nat} {rawStatus : List Char}
    (h : items[index]? = some rawStatus) :
    NameStatusParser.parseFrom g repositoryUri items index = (do
      let status ← g.mapStatus rawStatus
      if g.isSimilarityStatus rawStatus then
        let uri ← OutputParser.toUri g repositoryUri items[index + 2]?
        let oldUri ← OutputParser.toUri g repositoryUri items[index + 1]?
        let changes ← NameStatusParser.parseFrom g repositoryUri items (index + 3)
        pure ({ status, uri, oldUri := some oldUri } :: changes)
      else
        let uri ← OutputParser.toUri g repositoryUri items[index + 1]?
        let changes ← NameStatusParser.parseFrom g repositoryUri items (index + 2)
        pure ({ status, uri, oldUri := none } :: changes)) := by
  obtain ⟨hlt, rfl⟩ := List.getElem?_eq_some_iff.mp h
  rw [NameStatusParser.parseFrom, dif_pos hlt]

/-- From a change boundary the cursor walk reads the changes one by one. -/
theorem parseFrom_append_tokens (changes : List RawChange) (hwf : ∀ c ∈ changes, c.WellFormed g) :
    ∀ pre : List (List Char),
      NameStatusParser.parseFrom g repositoryUri (pre ++ changes.flatMap RawChange.tokens)
        pre.length = changes.mapM (RawChange.read g repositoryUri) := by
  induction changes with
  | nil => intro pre; simpa using parseFrom_end g repositoryUri pre pre.length le_rfl
  | cons c cs ih =>
    intro pre
    have hc : c.WellFormed g := hwf c (by simp)
    have ih := ih (fun c hc => hwf c (by simp [hc]))
    rcases c with ⟨status, _ | o, path⟩
    · have hs : g.isSimilarityStatus status = false := by simpa [RawChange.WellFormed] using hc.symm
      have key : NameStatusParser.parseFrom g repositoryUri
          (pre ++ status :: path :: cs.flatMap RawChange.tokens) (pre.length + 2) =
          cs.mapM (RawChange.read g repositoryUri) := by simpa using ih (pre ++ [status, path])
      rw [show (⟨status, none, path⟩ :: cs).flatMap RawChange.tokens =
          status :: path :: cs.flatMap RawChange.tokens from rfl,
        @parseFrom_of_getElem? g repositoryUri _ _ status
          (getElem?_append_length_cons pre _ status), List.mapM_cons]
      simp only [getElem?_append_length]
      simp [hs, key, RawChange.read, OutputParser.toUri]
    · have hs : g.isSimilarityStatus status = true := by simpa [RawChange.WellFormed] using hc.symm
      have key : NameStatusParser.parseFrom g repositoryUri
          (pre ++ status :: o :: path :: cs.flatMap RawChange.tokens) (pre.length + 3) =
          cs.mapM (RawChange.read g repositoryUri) := by simpa using ih (pre ++ [status, o, path])
      rw [show (⟨status, some o, path⟩ :: cs).flatMap RawChange.tokens =
          status :: o :: path :: cs.flatMap RawChange.tokens from rfl,
        @parseFrom_of_getElem? g repositoryUri _ _ status
          (getElem?_append_length_cons pre _ status), List.mapM_cons]
      simp only [getElem?_append_length]
      simp [hs, key, RawChange.read, OutputParser.toUri]

/-- With every status accepted, the changes read as one record each, in order. -/
theorem mapM_read_of_accepted (changes : List RawChange)
    (hacc : ∀ c ∈ changes, ∃ status, g.mapStatus c.status = .ok status) :
    ∃ records, changes.mapM (RawChange.read g repositoryUri) = .ok records ∧
      List.Forall₂ (fun c r => g.mapStatus c.status = .ok r.status ∧
        r.uri = g.toUri repositoryUri c.path ∧ r.oldUri = c.oldPath.map (g.toUri repositoryUri))
        changes records := by
  induction changes with
  | nil => exact ⟨[], rfl, .nil⟩
  | cons c cs ih =>
    obtain ⟨status, hs⟩ := hacc c (by simp)
    obtain ⟨records, hrec, hall⟩ := ih (fun c hc => hacc c (by simp [hc]))
    refine ⟨⟨status, g.toUri repositoryUri c.path, c.oldPath.map (g.toUri repositoryUri)⟩ :: records,
      ?_, .cons ⟨hs, rfl, rfl⟩ hall⟩
    rw [List.mapM_cons, hrec]
    simp [RawChange.read, hs]
    rfl

end Walk

/-- `GitUtils` with the statuses git writes (`M`, `A`, `D`, `R…`, `C…`) and URIs made by `/`. -/
def GitUtils.sample : GitUtils where
  mapStatus
    | ['M'] => .ok .modified
    | ['A'] => .ok .new
    | ['D'] => .ok .deleted
    | 'R' :: _ => .ok .renamed
    | 'C' :: _ => .ok .copied
    | s => .error ("Unexpected status: " ++ String.mk s)
  isSimilarityStatus s := s.head? == some 'R' || s.head? == some 'C'
  toUri repositoryUri pathSegment := repositoryUri ++ '/' :: pathSegment

instance (g : GitUtils) : DecidablePred (RawChange.WellFormed g) :=
  fun c => inferInstanceAs (Decidable (c.oldPath.isSome = g.isSimilarityStatus c.status))

/-- The NUL-joined tokens, with or without a final NUL, split back into the tokens. -/
theorem split_joined (tokens : List (List Char)) (trailing : Bool)
    (h : ∀ t ∈ tokens, t ≠ [] ∧ OutputParser.LINE_DELIMITER ∉ t) :
    OutputParser.split (.raw ([OutputParser.LINE_DELIMITER].intercalate tokens ++
      if trailing then [OutputParser.LINE_DELIMITER] else [])) OutputParser.LINE_DELIMITER =
      tokens := by
  by_cases hnil : tokens = []
  · subst hnil; cases trailing <;> rfl
  · have hsplit := List.splitOn_intercalate tokens OutputParser.LINE_DELIMITER
      (fun l hl => (h l hl).2) hnil
    have hkeep : tokens.filter (fun item => !item.isEmpty) = tokens :=
      List.filter_eq_self.mpr fun t ht => by simpa using (h t ht).1
    cases trailing
    · simp [OutputParser.split, hsplit, hkeep]
    · simp [OutputParser.split, splitOn_append_delimiter, hsplit, hkeep]

theorem parse_joined_tokens (g : GitUtils) (repositoryUri : List Char)
    (changes : List RawChange) (trailing : Bool) (hwf : ∀ c ∈ changes, c.WellFormed g)
    (htokens : ∀ c ∈ changes, ∀ t ∈ c.tokens, t ≠ [] ∧ OutputParser.LINE_DELIMITER ∉ t)
    (hacc : ∀ c ∈ changes, ∃ status, g.mapStatus c.status = .ok status) :
    ∃ records, NameStatusParser.parse g repositoryUri
        (.raw ([OutputParser.LINE_DELIMITER].intercalate (changes.flatMap RawChange.tokens) ++
          if trailing then [OutputParser.LINE_DELIMITER] else []))
        OutputParser.LINE_DELIMITER = .ok records ∧
      List.Forall₂ (fun c r => g.mapStatus c.status = .ok r.status ∧
        r.uri = g.toUri repositoryUri c.path ∧ r.oldUri = c.oldPath.map (g.toUri repositoryUri))
        changes records := by
  rw [NameStatusParser.parse, split_joined _ _ (fun t ht => by
      obtain ⟨c, hc, htc⟩ := List.mem_flatMap.mp ht
      exact htokens c hc t htc)]
  have hwalk := parseFrom_append_tokens g repositoryUri changes hwf []
  rw [List.nil_append, List.length_nil] at hwalk
  rw [hwalk]
  exact mapM_read_of_accepted g repositoryUri changes hacc

/-- The listing `M a/foo.ts R100 b/bar.ts b/bar2.ts`, NUL-terminated. -/
theorem parse_joined_tokens_rename : ∃ records, NameStatusParser.parse GitUtils.sample "r".toList
      (.raw ([OutputParser.LINE_DELIMITER].intercalate
        (["M", "a/foo.ts", "R100", "b/bar.ts", "b/bar2.ts"].map String.toList) ++
          [OutputParser.LINE_DELIMITER])) OutputParser.LINE_DELIMITER = .ok records ∧
    List.Forall₂ (fun (c : RawChange) (r : GitFileChange) =>
      GitUtils.sample.mapStatus c.status = .ok r.status ∧
      r.uri = GitUtils.sample.toUri "r".toList c.path ∧
      r.oldUri = c.oldPath.map (GitUtils.sample.toUri "r".toList))
      [⟨"M".toList, none, "a/foo.ts".toList⟩, ⟨"R100".toList, some "b/bar.ts".toList, "b/bar2.ts".toList⟩]
      records :=
  parse_joined_tokens GitUtils.sample "r".toList
    [⟨"M".toList, none, "a/foo.ts".toList⟩, ⟨"R100".toList, some "b/bar.ts".toList, "b/bar2.ts".toList⟩]
    true (by decide) (by decide) (by
      intro c hc
      simp only [List.mem_cons, List.not_mem_nil, or_false] at hc
      rcases hc with rfl | rfl <;> exact ⟨_, rfl⟩)

end Theia.Git
