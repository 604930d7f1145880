import Theia.Git.CommitDetails
/-!
# `DugiteGit`: the commands around the parsers

What `DugiteGit` (`packages/git/src/node/dugite-git.ts`) does between a request and git: the
status it maps, the remotes it reads, the revisions it names, and what it asks git or `dugite`
to run. Git itself, `dugite`'s calls and the paths of the file system are parameters: `GitUtils`
for URIs, the output of `git remote`, the current branch `listBranch` finds, and what
`locator.locate` answers.

* `getRemotes_lines`: the remotes are the lines `git remote` prints, so the default remote is the
  first of them.
* `length_repositories_le`: when the locator keeps to the count it is asked for, `repositories`
  lists at most `maxCount` repositories, or the one containing the workspace when that count is
  not positive.
-/

namespace Theia.Git

open Js

/-- A string's truthiness: `undefined` and `''` are falsy. -/
def truthy : Option (List Char) → Option (List Char)
  | some (c :: cs) => some (c :: cs)
  | _ => none

@[simp] theorem truthy_none : truthy none = none := rfl

@[simp] theorem truthy_some_nil : truthy (some []) = none := rfl

@[simp] theorem truthy_some_cons (c : Char) (cs : List Char) : truthy (some (c :: cs)) = some (c :: cs) := rfl

/-- `fail(repository, message)`: the error it throws, `${message} [${repository}]`. -/
def DugiteGit.fail {α : Type} (repository : List Char) (message : String) : Except String α :=
  .error ((if message.isEmpty then "" else message ++ " ") ++ "[" ++ String.mk repository ++ "]")

/-! ## The status of the working directory -/

/-- `AppFileStatus` of `dugite`: the six statuses, or any other value, as `${toMap}` prints it. -/
inductive AppFileStatus where
  | new | modified | deleted | copied | renamed | conflicted
  | other (value : List Char)
  deriving DecidableEq, Repr

/-- `mapFileStatus`: `dugite`'s status to the one of the same name. -/
def DugiteGit.mapFileStatus : AppFileStatus → Except String GitFileStatus
  | .conflicted => .ok .conflicted
  | .copied => .ok .copied
  | .deleted => .ok .deleted
  | .modified => .ok .modified
  | .new => .ok .new
  | .renamed => .ok .renamed
  | .other value => .error ("Unexpected application file status: " ++ String.mk value)

/-- The fields of `dugite`'s `FileChange` that `mapFileChange` reads. -/
structure DugiteFileChange where
  path : List Char
  status : AppFileStatus
  oldPath : Option (List Char)
  staged : Bool
  deriving DecidableEq, Repr

/-- `GitFileChange` as `mapFileChange` builds it, with `staged`. -/
structure StatusFileChange extends GitFileChange where
  staged : Bool
  deriving DecidableEq, Repr

/-- `mapFileChange`: the path joined to the repository and made a URI, the status mapped. -/
def DugiteGit.mapFileChange (g : GitUtils) (repositoryUri : List Char) (toMap : DugiteFileChange) :
    Except String StatusFileChange := do
  let status ← DugiteGit.mapFileStatus toMap.status
  pure { uri := g.toUri repositoryUri toMap.path, status,
         oldUri := (truthy toMap.oldPath).map (g.toUri repositoryUri), staged := toMap.staged }

/-- `mapFileChanges`: `Promise.all` of the files' mappings, which rejects with the first
rejection, in order. -/
def DugiteGit.mapFileChanges (g : GitUtils) (repositoryUri : List Char) (files : List DugiteFileChange) :
    Except String (List StatusFileChange) :=
  files.mapM (DugiteGit.mapFileChange g repositoryUri)

/-! ## Remotes -/

/-- `text.match(/\S+/g) || []`: the maximal runs of characters that are not white space. -/
def words (text : List Char) : List (List Char) :=
  (text.splitOnP isWhiteSpace).filter (· ≠ [])

/-- `getRemotes`, given the output of `git remote`: `(result.stdout || '').trim().match(/\S+/g) || []`. -/
def DugiteGit.getRemotes (stdout : Option (List Char)) : List (List Char) :=
  words (trim (stdout.getD []))

/-- `getDefaultRemote`: the remote asked for, or the first `git remote` lists. -/
def DugiteGit.getDefaultRemote (remote : Option (List Char)) (stdout : Option (List Char)) : Option (List Char) :=
  match remote with
  | none => (DugiteGit.getRemotes stdout).head?
  | some remote => some remote

theorem splitOnP_go_append_sep {p : Char → Bool} {c : Char} (hc : p c = true) (text acc : List Char) :
    List.splitOnP.go p (text ++ [c]) acc = List.splitOnP.go p text acc ++ [[]] := by
  induction text generalizing acc with
  | nil => simp [List.splitOnP.go, hc]
  | cons d text ih =>
    simp only [List.cons_append, List.splitOnP.go]
    split <;> simp [ih]

theorem words_append_whiteSpace {c : Char} (hc : isWhiteSpace c = true) (text : List Char) :
    words (text ++ [c]) = words text := by
  simp [words, List.splitOnP, splitOnP_go_append_sep hc]

theorem words_cons_whiteSpace {c : Char} (hc : isWhiteSpace c = true) (text : List Char) :
    words (c :: text) = words text := by
  simp [words, List.splitOnP_cons, hc]

theorem words_dropWhile (text : List Char) : words (text.dropWhile isWhiteSpace) = words text := by
  induction text with
  | nil => rfl
  | cons c text ih =>
    rw [List.dropWhile_cons]
    split
    · rename_i hc
      rw [ih, words_cons_whiteSpace hc]
    · rfl

/-- `trim` changes no word. -/
theorem words_trim (text : List Char) : words (trim text) = words text := by
  rw [trim, ← words_dropWhile text]
  generalize text.dropWhile isWhiteSpace = text
  induction text using List.reverseRecOn with
  | nil => rfl
  | append_singleton text c ih =>
    rw [List.reverse_append, List.reverse_singleton, List.singleton_append, List.dropWhile_cons]
    split
    · rename_i hc
      rw [ih, words_append_whiteSpace hc]
    · rw [List.reverse_cons, List.reverse_reverse]

/-- Names with no white space, one per line, are read back. -/
theorem words_lines {names : List (List Char)} (h : ∀ name ∈ names, name ≠ [] ∧ ∀ c ∈ name, isWhiteSpace c = false) :
    words (names.flatMap (· ++ ['\n'])) = names := by
  induction names with
  | nil => rfl
  | cons name names ih =>
    obtain ⟨hne, hname⟩ := h name (.head _)
    have ih := ih fun n hn => h n (.tail _ hn)
    rw [List.flatMap_cons, List.append_assoc, List.singleton_append]
    simp only [words] at ih ⊢
    rw [List.splitOnP_first _ _ (fun c hc => by simp [hname c hc]) _ (by decide), List.filter_cons_of_pos (by simpa using hne),
      ih]

/-- The remotes are the lines `git remote` prints, so the default remote is the first of them. -/
theorem getRemotes_lines {names : List (List Char)}
    (h : ∀ name ∈ names, name ≠ [] ∧ ∀ c ∈ name, isWhiteSpace c = false) :
    DugiteGit.getRemotes (some (names.flatMap (· ++ ['\n']))) = names ∧
      DugiteGit.getDefaultRemote none (some (names.flatMap (· ++ ['\n']))) = names.head? := by
  have hremotes : DugiteGit.getRemotes (some (names.flatMap (· ++ ['\n']))) = names := by
    rw [DugiteGit.getRemotes, Option.getD_some, words_trim, words_lines h]
  exact ⟨hremotes, by rw [DugiteGit.getDefaultRemote, hremotes]⟩

/-- `origin` and `upstream`. -/
theorem getRemotes_lines_two :
    (∀ name ∈ ["origin".toList, "upstream".toList], name ≠ [] ∧ ∀ c ∈ name, isWhiteSpace c = false) ∧
      DugiteGit.getRemotes (some (["origin".toList, "upstream".toList].flatMap (· ++ ['\n']))) =
        ["origin".toList, "upstream".toList] ∧
      DugiteGit.getDefaultRemote none (some (["origin".toList, "upstream".toList].flatMap (· ++ ['\n']))) =
        some "origin".toList :=
  have h : ∀ name ∈ ["origin".toList, "upstream".toList], name ≠ [] ∧ ∀ c ∈ name, isWhiteSpace c = false := by
    decide
  ⟨h, getRemotes_lines h⟩

/-! ## Revisions -/

/-- `Git.Options.Range.fromRevision`: a number or a string. -/
inductive FromRevision where
  | number (n : Int)
  | string (s : List Char)
  deriving DecidableEq, Repr

/-- `Git.Options.Range`. -/
structure Range where
  fromRevision : Option FromRevision
  toRevision : Option (List Char)
  deriving DecidableEq, Repr

/-- `mapRange`: the revision range a `log` or `diff` names. -/
def DugiteGit.mapRange (toMap : Option Range) : List Char :=
  match toMap with
  | none => "HEAD".toList
  | some range =>
    match range.fromRevision with
    | some (.number fromRevision) =>
      let toRevision := (truthy range.toRevision).getD "HEAD".toList
      toRevision ++ '~' :: decimalInt fromRevision ++ "..".toList ++ toRevision
    | some (.string fromRevision) =>
      fromRevision ++ match truthy range.toRevision with
        | some toRevision => "..".toList ++ toRevision
        | none => []
    | none => (truthy range.toRevision).getD "HEAD".toList

/-- `getCommitish`: `index` is the empty commit-ish. -/
def DugiteGit.getCommitish (commitish : Option (List Char)) : List Char :=
  match truthy commitish with
  | some commitish => if "index".toList = commitish then [] else commitish
  | none => []

/-- `dugite`'s `GitResetMode`. -/
inductive GitResetMode where
  | hard | soft | mixed
  deriving DecidableEq, Repr

/-- `getResetMode`. -/
def DugiteGit.getResetMode (mode : List Char) : Except String GitResetMode :=
  if mode = "hard".toList then .ok .hard
  else if mode = "soft".toList then .ok .soft
  else if mode = "mixed".toList then .ok .mixed
  else .error ("Unexpected Git reset mode: " ++ String.mk mode ++ ".")

/-- `reset`: the mode and the revision it hands `dugite`'s `reset`. -/
def DugiteGit.reset (mode : List Char) : Except String (GitResetMode × List Char) := do
  let resetMode ← DugiteGit.getResetMode mode
  pure (resetMode, if mode ≠ [] then mode else "HEAD".toList)

/-! ## Commands -/

/-- `log`'s options, `undefined` ones as `none` or `false`. -/
structure LogOptions where
  branch : Option (List Char)
  range : Option Range
  /-- An integer `maxCount`. -/
  maxCount : Option Int
  shortSha : Bool
  /-- The path of `uri` relative to the repository, `Path.relative(...)`. -/
  file : Option (List Char)
  deriving DecidableEq, Repr

/-- The placeholders of `log`: the short hash in place of the hash with `shortSha`. -/
def DugiteGit.logPlaceholders (shortSha : Bool) : List CommitPlaceholders :=
  if shortSha then .shortHash :: CommitDetailsParser.DEFAULT_PLACEHOLDERS.drop 1
  else CommitDetailsParser.DEFAULT_PLACEHOLDERS

/-- The arguments `log` runs git with. -/
def DugiteGit.logArgs (options : LogOptions) : List (List Char) :=
  ["log".toList] ++ (truthy options.branch).toList ++
    [DugiteGit.mapRange options.range, "-C".toList, "-M".toList, "-m".toList] ++
    (match options.maxCount with
      | some maxCount => if 0 < maxCount then ["-n".toList, decimalInt maxCount] else []
      | none => []) ++
    ["--name-status".toList, "--date=unix".toList,
      "--format=".toList ++ CommitDetailsParser.getFormat (DugiteGit.logPlaceholders options.shortSha),
      "-z".toList, "--".toList] ++
    (options.file.map fun file => if file = [] then ".".toList else file).toList

/-- The arguments `diff` runs git with. -/
def DugiteGit.diffArgs (range : Option Range) (file : Option (List Char)) : List (List Char) :=
  ["diff".toList, "--name-status".toList, "-C".toList, "-M".toList, "-z".toList, DugiteGit.mapRange range] ++
    (file.map fun file => ["--".toList, file]).getD []

/-- `diff`: the changes of git's output, trimmed. -/
def DugiteGit.diff (g : GitUtils) (repositoryUri stdout : List Char) : Except String (List GitFileChange) :=
  NameStatusParser.parse g repositoryUri (.raw (trim stdout)) OutputParser.LINE_DELIMITER

/-- The arguments `blame` runs git with, `--contents -` when it pipes the editor's content. -/
def DugiteGit.blameArgs (content : Option (List Char)) (file : List Char) : List (List Char) :=
  ["blame".toList, "--root".toList, "--incremental".toList] ++
    (if (truthy content).isSome then ["--contents".toList, "-".toList] else []) ++ ["--".toList, file]

/-- The placeholders of `log` are seven, the hash first, so `parseChunk` reads its fields where
they are. -/
theorem logPlaceholders_fields (shortSha : Bool) :
    (DugiteGit.logPlaceholders shortSha).length = 7 ∧
      (DugiteGit.logPlaceholders shortSha).drop 1 = CommitDetailsParser.DEFAULT_PLACEHOLDERS.drop 1 := by
  cases shortSha <;> decide

/-- `push`'s options. -/
structure PushOptions where
  remote : Option (List Char)
  localBranch : Option (List Char)
  remoteBranch : Option (List Char)
  setUpstream : Bool
  force : Bool
  deriving DecidableEq, Repr

/-- What `push` runs: git with arguments, or `dugite`'s `push`. -/
inductive PushCall where
  | exec (args : List (List Char))
  | push (remote branchName : List Char) (remoteBranch : Option (List Char))
  deriving DecidableEq, Repr

/-- `getCurrentBranch`, given the name of the branch `listBranch` finds current. -/
def DugiteGit.getCurrentBranch (repositoryPath : List Char) (localBranch currentBranch : Option (List Char)) :
    Except String (List Char) :=
  match localBranch with
  | some localBranch => .ok localBranch
  | none =>
    match currentBranch with
    | some name => .ok name
    | none => DugiteGit.fail repositoryPath "No current branch."

/-- `push`, given the output of `git remote` and the current branch. -/
def DugiteGit.push (repositoryUri : List Char) (remotes : Option (List Char)) (currentBranch : Option (List Char))
    (options : PushOptions) : Except String PushCall :=
  match DugiteGit.getDefaultRemote options.remote remotes with
  | none => DugiteGit.fail repositoryUri "No configured push destination."
  | some currentRemote => do
    let branchName ← DugiteGit.getCurrentBranch repositoryUri options.localBranch currentBranch
    if options.setUpstream || options.force then
      pure (.exec (["push".toList] ++ (if options.force then ["--force".toList] else []) ++
        (if options.setUpstream then ["--set-upstream".toList] else []) ++ (truthy (some currentRemote)).toList ++
        [branchName ++ match truthy options.remoteBranch with
          | some remoteBranch => ':' :: remoteBranch
          | none => []]))
    else pure (.push currentRemote branchName options.remoteBranch)

/-- What `pull` runs: git with arguments, or `dugite`'s `pull`. -/
inductive PullCall where
  | exec (args : List (List Char))
  | pull (remote : List Char) (branch : Option (List Char))
  deriving DecidableEq, Repr

/-- The error of `fetch` and `pull` without a remote. -/
def DugiteGit.noRemote : String :=
  "No remote repository specified. Please, specify either a URL or a remote name from which new revisions should be fetched."

/-- `pull`, given the output of `git remote`: with `rebase`, git with `-r`. -/
def DugiteGit.pull (repositoryUri : List Char) (remotes : Option (List Char)) (remote branch : Option (List Char))
    (rebase : Bool) : Except String PullCall :=
  match DugiteGit.getDefaultRemote remote remotes with
  | none => DugiteGit.fail repositoryUri DugiteGit.noRemote
  | some currentRemote =>
    if rebase then
      .ok (.exec (["pull".toList, "-r".toList] ++ (truthy (some currentRemote)).toList ++ (truthy branch).toList))
    else .ok (.pull currentRemote branch)

/-- `fetch`, given the output of `git remote`: the remote `dugite`'s `fetch` runs with. -/
def DugiteGit.fetch (repositoryUri : List Char) (remotes : Option (List Char)) (remote : Option (List Char)) :
    Except String (List Char) :=
  match truthy (DugiteGit.getDefaultRemote remote remotes) with
  | some currentRemote => .ok currentRemote
  | none => DugiteGit.fail repositoryUri DugiteGit.noRemote

/-- `branch`'s options, as the guards of `GitUtils` (not among the sources) tell them apart, in
the order `branch` asks them: a listing, a creation, a rename, a deletion, or none of these. -/
inductive BranchOptions where
  | list (type : List Char)
  | create (toCreate : List Char) (startPoint : Option (List Char))
  | rename (toRename newName : List Char) (force : Bool)
  | delete (toDelete : List Char) (force remote : Bool)
  | other
  deriving DecidableEq, Repr

/-- What `branch` asks `dugite`: `listBranch` of a type, or one of its branch commands. -/
inductive BranchCall where
  | listBranch (type : List Char)
  | createBranch (name : List Char) (startPoint : Option (List Char))
  | renameBranch (branch newName : List Char) (force : Bool)
  | deleteBranch (branch : List Char) (force remote : Bool)
  deriving DecidableEq, Repr

/-- `branch`: `force` and `remote` are `!!options.force` and `!!options.remote`, and options of no
kind print as `[object Object]` in the error. -/
def DugiteGit.branch (repositoryUri : List Char) (options : BranchOptions) : Except String BranchCall :=
  match options with
  | .list type => .ok (.listBranch type)
  | .create toCreate startPoint => .ok (.createBranch toCreate startPoint)
  | .rename _ newName force => .ok (.renameBranch newName newName force)
  | .delete toDelete force remote => .ok (.deleteBranch toDelete force remote)
  | .other => DugiteGit.fail repositoryUri "Unexpected git branch options: [object Object]."

/-! ## Repositories -/

/-- `repositories`, given `resolveContainingPath`'s answer and what `locator.locate` answers for
a `maxCount`. -/
def DugiteGit.repositories (getUri : List Char → List Char) (containingPath : Option (List Char))
    (maxCount : Option Int) (locate : Option Int → List (List Char)) : List (List Char) :=
  let repositories := (truthy containingPath).toList.map getUri
  let located (maxCount : Option Int) :=
    ((locate maxCount).filter fun repositoryPath => containingPath ≠ some repositoryPath).map getUri
  match maxCount.map (· - (repositories.length : Int)) with
  | some maxCount => if maxCount ≤ 0 then repositories else repositories ++ located (some maxCount)
  | none => repositories ++ located none

/-- When the locator lists at most the count it is asked for, `repositories` lists at most
`maxCount` repositories, or the one containing the workspace when `maxCount` is not positive. -/
theorem length_repositories_le (getUri : List Char → List Char) (containingPath : Option (List Char))
    {locate : Option Int → List (List Char)} (hlocate : ∀ n, (locate (some n)).length ≤ n.toNat) (maxCount : Int) :
    (DugiteGit.repositories getUri containingPath (some maxCount) locate).length ≤
      max maxCount.toNat (truthy containingPath).toList.length := by
  have hcontaining : (truthy containingPath).toList.length ≤ 1 := by
    cases truthy containingPath <;> simp
  simp only [DugiteGit.repositories, Option.map_some', List.length_map]
  split_ifs with hle
  · simp only [List.length_map]
    omega
  · have hfilter := List.length_filter_le (fun repositoryPath => decide (containingPath ≠ some repositoryPath))
      (locate (some (maxCount - (truthy containingPath).toList.length)))
    have hlocated := hlocate (maxCount - (truthy containingPath).toList.length)
    simp only [List.length_append, List.length_map]
    omega

/-- With a locator that lists at most what it is asked for, no more than two repositories. -/
theorem length_repositories_le_two :
    (∀ n : Int, ((fun m : Option Int => (List.replicate ((m.getD 0).toNat) "r".toList)) (some n)).length ≤ n.toNat) ∧
      (DugiteGit.repositories id (some "w".toList) (some 2)
        (fun m => List.replicate ((m.getD 0).toNat) "r".toList)).length ≤ max (2 : Int).toNat 1 :=
  ⟨fun n => by simp, length_repositories_le id (some "w".toList) (fun n => by simp) 2⟩

end Theia.Git
