import Theia.Git.NameStatus

/-!
# `CommitDetailsParser`: commits from `git log`

`DugiteGit.log` asks git for `--name-status --date=unix --format=<getFormat …> -z`: every commit
is a `\x02`, then the placeholders' fields each followed by `\x01`, then the commit's
name-status tokens each followed by `NUL`. `CommitDetailsParser.parse` cuts the output at `\x02`,
trims each chunk, splits it at `\x01` and reads the fields by position; the eighth piece goes to
`NameStatusParser`.

`LogRecord.render` is git's side: what `git log` prints for a format string. The round trip
`parse_logOutput` says that for every list of commits whose fields hold no `\x01` or `\x02` the
parser gives back each commit's fields and the name-status reading of its tokens, in order,
from the raw text and from the chunks `DugiteGit.log` passes. The argument is three splits: at
`\x02` (`splitOn_append_initiated`), at `\x01` (`List.splitOn_intercalate` over the eight
pieces) and at `NUL` (`splitOn_terminated`), with `trim` leaving every chunk alone because a
chunk starts with the hash and ends with `\x01` or `NUL`.
-/

namespace Theia.Git

open Js

/-- `CommitPlaceholders`: the `git log --format` codes the parser knows. -/
inductive CommitPlaceholders where
  | hash | shortHash | authorEmail | authorName | authorDate | authorRelativeDate | subject | body
  deriving DecidableEq, Repr

/-- The format code of a placeholder (`CommitPlaceholders.HASH = '%H'`, …). -/
def CommitPlaceholders.code : CommitPlaceholders → List Char
  | .hash => "%H".toList
  | .shortHash => "%h".toList
  | .authorEmail => "%aE".toList
  | .authorName => "%aN".toList
  | .authorDate => "%ad".toList
  | .authorRelativeDate => "%ar".toList
  | .subject => "%s".toList
  | .body => "%b".toList

/-- `CommitDetailsParser.ENTRY_DELIMITER`. -/
def CommitDetailsParser.ENTRY_DELIMITER : Char := '\x01'

/-- `CommitDetailsParser.COMMIT_CHUNK_DELIMITER`. -/
def CommitDetailsParser.COMMIT_CHUNK_DELIMITER : Char := '\x02'

/-- `CommitDetailsParser.DEFAULT_PLACEHOLDERS`. -/
def CommitDetailsParser.DEFAULT_PLACEHOLDERS : List CommitPlaceholders :=
  [.hash, .authorEmail, .authorName, .authorDate, .authorRelativeDate, .subject, .body]

/-- `getFormat(...placeholders)`: `'%x02' + placeholders.join('%x01') + '%x01'`. -/
def CommitDetailsParser.getFormat (placeholders : List CommitPlaceholders) : List Char :=
  "%x02".toList ++ "%x01".toList.intercalate (placeholders.map CommitPlaceholders.code) ++
    "%x01".toList

/-- `CommitIdentity`. -/
structure CommitIdentity where
  name : Option (List Char)
  email : Option (List Char)
  timestamp : Option JsNumber
  tzOffset : Option JsNumber
  deriving DecidableEq, Repr

/-- `Commit`, with the fields that may be `undefined` at run time as options. -/
structure Commit where
  sha : Option (List Char)
  author : CommitIdentity
  summary : Option (List Char)
  body : Option (List Char)
  deriving DecidableEq, Repr

/-- `CommitWithChanges`. -/
structure CommitWithChanges extends Commit where
  authorDateRelative : Option (List Char)
  fileChanges : List GitFileChange
  deriving DecidableEq, Repr

/-- The body of the `for (const chunk of chunks)` loop: a chunk's fields by position. -/
def CommitDetailsParser.parseChunk (g : GitUtils) (repositoryUri chunk : List Char) :
    Except String CommitWithChanges := do
  let parts := (trim chunk).splitOn CommitDetailsParser.ENTRY_DELIMITER
  let timestamp := parseIntAt parts 3
  let fileChanges ← NameStatusParser.parse g repositoryUri (.raw (trim (parts[7]?.getD [])))
    OutputParser.LINE_DELIMITER
  pure { sha := parts[0]?, author := { timestamp, email := parts[1]?, name := parts[2]?, tzOffset := none },
         authorDateRelative := parts[4]?, summary := parts[5]?, body := parts[6]?, fileChanges }

/-- `CommitDetailsParser.parse`. -/
def CommitDetailsParser.parse (g : GitUtils) (repositoryUri : List Char) (input : Input)
    (delimiter : Char) : Except String (List CommitWithChanges) :=
  (OutputParser.split input delimiter).mapM (CommitDetailsParser.parseChunk g repositoryUri)

/-- The chunks `DugiteGit.log` hands to the parser: the output trimmed, split at `\x02`, empty
items dropped. -/
def DugiteGit.logChunks (stdout : List Char) : List (List Char) :=
  ((trim stdout).splitOn CommitDetailsParser.COMMIT_CHUNK_DELIMITER).filter fun item => !item.isEmpty

/-! ## What git prints -/

/-- A commit as `git log` prints it: the fields of the placeholders (`time` is `%ad` under
`--date=unix`) and the changes of `--name-status`. -/
structure LogRecord where
  sha : List Char
  shortSha : List Char
  email : List Char
  name : List Char
  time : Int
  relativeDate : List Char
  subject : List Char
  body : List Char
  changes : List RawChange
  deriving DecidableEq, Repr

/-- What `git log --date=unix` prints for a format string: `%x01` and `%x02` are the bytes, each
placeholder is its field, any other character is itself. -/
def LogRecord.render (r : LogRecord) : List Char → List Char
  | '%' :: 'x' :: '0' :: '1' :: rest => '\x01' :: r.render rest
  | '%' :: 'x' :: '0' :: '2' :: rest => '\x02' :: r.render rest
  | '%' :: 'H' :: rest => r.sha ++ r.render rest
  | '%' :: 'h' :: rest => r.shortSha ++ r.render rest
  | '%' :: 'a' :: 'E' :: rest => r.email ++ r.render rest
  | '%' :: 'a' :: 'N' :: rest => r.name ++ r.render rest
  | '%' :: 'a' :: 'd' :: rest => decimalInt r.time ++ r.render rest
  | '%' :: 'a' :: 'r' :: rest => r.relativeDate ++ r.render rest
  | '%' :: 's' :: rest => r.subject ++ r.render rest
  | '%' :: 'b' :: rest => r.body ++ r.render rest
  | c :: rest => c :: r.render rest
  | [] => []

/-- The name-status part of a commit: its tokens, each followed by `NUL` (`-z`). -/
def LogRecord.nameStatus (r : LogRecord) : List Char :=
  (r.changes.flatMap RawChange.tokens).flatMap (· ++ [OutputParser.LINE_DELIMITER])

/-- The output of `git log` with the default placeholders. -/
def logOutput (records : List LogRecord) : List Char :=
  records.flatMap fun r =>
    r.render (CommitDetailsParser.getFormat CommitDetailsParser.DEFAULT_PLACEHOLDERS) ++ r.nameStatus

/-- What a commit should be read as: its own fields, and the name-status reading of its tokens. -/
def LogRecord.read (g : GitUtils) (repositoryUri : List Char) (r : LogRecord) :
    Except String CommitWithChanges := do
  let fileChanges ← NameStatusParser.parse g repositoryUri
    (.items (r.changes.flatMap RawChange.tokens)) OutputParser.LINE_DELIMITER
  pure { sha := some r.sha,
         author := { timestamp := some (.int r.time), email := some r.email, name := some r.name,
                     tzOffset := none },
         authorDateRelative := some r.relativeDate, summary := some r.subject, body := some r.body,
         fileChanges }

/-- A raw status as git writes it: a letter, then the digits of a similarity score. -/
def IsStatusCode (s : List Char) : Prop :=
  ∃ c ds, s = c :: ds ∧ c.isAlpha = true ∧ ∀ d ∈ ds, d.isDigit = true

/-- The commits the round trip is about: no field holds `\x01` or `\x02`, the hash does not start
with white space, statuses are git's codes, paths are non-empty and free of `NUL`, `\x01` and
`\x02`. -/
structure LogRecord.WellFormed (r : LogRecord) : Prop where
  fields : ∀ f ∈ [r.sha, r.email, r.name, r.relativeDate, r.subject, r.body],
    CommitDetailsParser.ENTRY_DELIMITER ∉ f ∧ CommitDetailsParser.COMMIT_CHUNK_DELIMITER ∉ f
  sha : ∀ c ∈ r.sha.head?, isWhiteSpace c = false
  statuses : ∀ c ∈ r.changes, IsStatusCode c.status
  paths : ∀ c ∈ r.changes, ∀ p ∈ c.oldPath.toList ++ [c.path], p ≠ [] ∧
    OutputParser.LINE_DELIMITER ∉ p ∧ CommitDetailsParser.ENTRY_DELIMITER ∉ p ∧
    CommitDetailsParser.COMMIT_CHUNK_DELIMITER ∉ p

/-! ## The round trip -/

section RoundTrip

open CommitDetailsParser

/-- The eight pieces of a commit's chunk: the seven fields and the name-status part. -/
def LogRecord.pieces (r : LogRecord) : List (List Char) :=
  [r.sha, r.email, r.name, decimalInt r.time, r.relativeDate, r.subject, r.body, r.nameStatus]

/-- What follows a commit's `\x02`: its pieces joined by `\x01`. -/
def LogRecord.chunk (r : LogRecord) : List Char :=
  [ENTRY_DELIMITER].intercalate r.pieces

theorem render_defaultFormat (r : LogRecord) :
    r.render (getFormat DEFAULT_PLACEHOLDERS) ++ r.nameStatus = COMMIT_CHUNK_DELIMITER :: r.chunk := by
  have h : r.render (getFormat DEFAULT_PLACEHOLDERS) =
      '\x02' :: (r.sha ++ '\x01' :: (r.email ++ '\x01' :: (r.name ++ '\x01' :: (decimalInt r.time ++
        '\x01' :: (r.relativeDate ++ '\x01' :: (r.subject ++ '\x01' :: (r.body ++ ['\x01']))))))) := rfl
  simp [h, LogRecord.chunk, LogRecord.pieces, List.intercalate, List.intersperse_cons_cons,
    ENTRY_DELIMITER, COMMIT_CHUNK_DELIMITER]

theorem logOutput_eq (records : List LogRecord) :
    logOutput records = (records.map LogRecord.chunk).flatMap (COMMIT_CHUNK_DELIMITER :: ·) := by
  simp [logOutput, render_defaultFormat, List.flatMap_map]

theorem toNat_ge_of_isStatusCode {s : List Char} (h : IsStatusCode s) : ∀ c ∈ s, 48 ≤ c.toNat := by
  obtain ⟨a, ds, rfl, ha, hds⟩ := h
  intro c hc
  rcases List.mem_cons.mp hc with rfl | hc
  · have : (65 ≤ c.toNat ∧ c.toNat ≤ 90) ∨ (97 ≤ c.toNat ∧ c.toNat ≤ 122) := by
      simpa [Char.isAlpha, Char.isUpper, Char.isLower, Char.le_def] using ha
    omega
  · have : 48 ≤ c.toNat ∧ c.toNat ≤ 57 := by simpa [Char.isDigit, Char.le_def] using hds c hc
    omega

variable {r : LogRecord}

/-- No token of a commit's changes is empty or holds `NUL`, `\x01` or `\x02`. -/
theorem tokens_clean (hwf : r.WellFormed) : ∀ t ∈ r.changes.flatMap RawChange.tokens, t ≠ [] ∧
    OutputParser.LINE_DELIMITER ∉ t ∧ ENTRY_DELIMITER ∉ t ∧ COMMIT_CHUNK_DELIMITER ∉ t := by
  intro t ht
  obtain ⟨c, hc, ht⟩ := List.mem_flatMap.mp ht
  rcases List.mem_cons.mp ht with rfl | ht
  · have hcode := hwf.statuses c hc
    have hge := toNat_ge_of_isStatusCode hcode
    obtain ⟨a, ds, heq, -⟩ := hcode
    exact ⟨by simp [heq], not_mem_of_le_toNat hge (by decide), not_mem_of_le_toNat hge (by decide),
      not_mem_of_le_toNat hge (by decide)⟩
  · exact hwf.paths c hc t ht

theorem nameStatus_clean (hwf : r.WellFormed) :
    ENTRY_DELIMITER ∉ r.nameStatus ∧ COMMIT_CHUNK_DELIMITER ∉ r.nameStatus := by
  constructor <;>
  · intro hmem
    obtain ⟨t, ht, hmem⟩ := List.mem_flatMap.mp hmem
    rcases List.mem_append.mp hmem with hmem | hmem
    · have := tokens_clean hwf t ht
      tauto
    · simp [OutputParser.LINE_DELIMITER, ENTRY_DELIMITER, COMMIT_CHUNK_DELIMITER] at hmem

theorem nameStatus_head (hwf : r.WellFormed) : ∀ c ∈ r.nameStatus.head?, isWhiteSpace c = false := by
  intro c hc
  cases hch : r.changes with
  | nil => simp [LogRecord.nameStatus, hch] at hc
  | cons ch chs =>
    obtain ⟨a, ds, heq, ha, -⟩ := hwf.statuses ch (by simp [hch])
    simp [LogRecord.nameStatus, hch, RawChange.tokens, heq] at hc
    exact hc ▸ isWhiteSpace_of_isAlpha ha

theorem nameStatus_last : ∀ c ∈ r.nameStatus.getLast?, c = OutputParser.LINE_DELIMITER := by
  unfold LogRecord.nameStatus
  induction r.changes.flatMap RawChange.tokens with
  | nil => simp
  | cons t ts ih =>
    intro c hc
    rw [List.flatMap_cons, List.getLast?_append] at hc
    cases hlast : (ts.flatMap (· ++ [OutputParser.LINE_DELIMITER])).getLast? with
    | none => simp_all
    | some d => simp_all

/-- The chunk's eight pieces, written out. -/
theorem chunk_eq (r : LogRecord) : r.chunk = r.sha ++ ENTRY_DELIMITER :: (r.email ++ ENTRY_DELIMITER ::
    (r.name ++ ENTRY_DELIMITER :: (decimalInt r.time ++ ENTRY_DELIMITER :: (r.relativeDate ++
      ENTRY_DELIMITER :: (r.subject ++ ENTRY_DELIMITER :: (r.body ++ ENTRY_DELIMITER :: r.nameStatus)))))) := by
  simp [LogRecord.chunk, LogRecord.pieces, List.intercalate, List.intersperse_cons_cons]

theorem pieces_clean (hwf : r.WellFormed) :
    ∀ l ∈ r.pieces, ENTRY_DELIMITER ∉ l ∧ COMMIT_CHUNK_DELIMITER ∉ l := by
  have htime := toNat_ge_of_isSignedDecimal (decimalInt_isSignedDecimal r.time)
  have hf := hwf.fields
  simp only [LogRecord.pieces, List.mem_cons, List.not_mem_nil, or_false, forall_eq_or_imp,
    forall_eq] at hf ⊢
  exact ⟨hf.1, hf.2.1, hf.2.2.1, ⟨not_mem_of_le_toNat htime (by decide),
    not_mem_of_le_toNat htime (by decide)⟩, hf.2.2.2.1, hf.2.2.2.2.1, hf.2.2.2.2.2,
    nameStatus_clean hwf⟩

theorem chunk_head (hwf : r.WellFormed) : ∀ c ∈ r.chunk.head?, isWhiteSpace c = false := by
  rw [chunk_eq]
  intro c hc
  rw [List.head?_append] at hc
  cases hs : r.sha.head? with
  | none => simp only [hs, Option.none_or, List.head?_cons, Option.mem_def, Option.some.injEq] at hc
            subst hc; decide
  | some d => simp only [hs, Option.or_some, Option.mem_def, Option.some.injEq] at hc
              exact hc ▸ hwf.sha d hs

theorem chunk_last : ∀ c ∈ r.chunk.getLast?, isWhiteSpace c = false := by
  rw [chunk_eq]
  intro c hc
  simp only [List.getLast?_append, List.getLast?_cons] at hc
  cases hl : r.nameStatus.getLast? with
  | none => simp [hl] at hc; subst hc; decide
  | some d => simp [hl] at hc; rw [← hc, nameStatus_last d hl]; decide

theorem trim_chunk (hwf : r.WellFormed) : trim r.chunk = r.chunk :=
  trim_eq_self (chunk_head hwf) chunk_last

/-- The name-status part of a commit splits at `NUL` into its tokens. -/
theorem split_nameStatus (hwf : r.WellFormed) :
    OutputParser.split (.raw (trim r.nameStatus)) OutputParser.LINE_DELIMITER =
      OutputParser.split (.items (r.changes.flatMap RawChange.tokens)) OutputParser.LINE_DELIMITER := by
  rw [trim_eq_self (nameStatus_head hwf) (fun c hc => by rw [nameStatus_last c hc]; decide)]
  simp [OutputParser.split, LogRecord.nameStatus,
    splitOn_terminated _ _ (fun t ht => (tokens_clean hwf t ht).2.1)]

/-- A commit's chunk reads as the commit. -/
theorem parseChunk_chunk (g : GitUtils) (repositoryUri : List Char) (hwf : r.WellFormed) :
    parseChunk g repositoryUri r.chunk = r.read g repositoryUri := by
  have hsplit : r.chunk.splitOn ENTRY_DELIMITER = r.pieces :=
    List.splitOn_intercalate _ _ (fun l hl => (pieces_clean hwf l hl).1) (by simp [LogRecord.pieces])
  simp only [parseChunk, trim_chunk hwf, hsplit, NameStatusParser.parse]
  simp only [LogRecord.pieces, parseIntAt, List.getElem?_cons_succ, List.getElem?_cons_zero,
    Option.getD_some, parseInt_decimalInt, split_nameStatus hwf]
  rfl

theorem commitDelimiter_not_mem_chunk (hwf : r.WellFormed) : COMMIT_CHUNK_DELIMITER ∉ r.chunk := by
  have h := pieces_clean hwf
  simp only [LogRecord.pieces, List.mem_cons, List.not_mem_nil, or_false, forall_eq_or_imp,
    forall_eq] at h
  rw [chunk_eq]
  simp only [List.mem_append, List.mem_cons, not_or]
  refine ⟨h.1.2, by decide, h.2.1.2, by decide, h.2.2.1.2, by decide, h.2.2.2.1.2, by decide,
    h.2.2.2.2.1.2, by decide, h.2.2.2.2.2.1.2, by decide, h.2.2.2.2.2.2.1.2, by decide,
    h.2.2.2.2.2.2.2.2⟩

theorem chunk_ne_nil (r : LogRecord) : r.chunk ≠ [] := by simp [chunk_eq]

variable (g : GitUtils) (repositoryUri : List Char)

theorem mapM_parseChunk (records : List LogRecord) (hwf : ∀ r ∈ records, r.WellFormed) :
    (records.map LogRecord.chunk).mapM (parseChunk g repositoryUri) =
      records.mapM (LogRecord.read g repositoryUri) := by
  induction records with
  | nil => rfl
  | cons r rs ih =>
    simp only [List.map_cons, List.mapM_cons, parseChunk_chunk g repositoryUri (hwf r (by simp)),
      ih (fun r hr => hwf r (by simp [hr]))]

/-- The output splits at `\x02` into the commits' chunks. -/
theorem splitOn_logOutput (records : List LogRecord) (hwf : ∀ r ∈ records, r.WellFormed) :
    ((logOutput records).splitOn COMMIT_CHUNK_DELIMITER).filter (fun item => !item.isEmpty) =
      records.map LogRecord.chunk := by
  rw [logOutput_eq, ← List.nil_append ((records.map _).flatMap _),
    splitOn_append_initiated _ _ _ (by simp) (fun l hl => by
      obtain ⟨r, hr, rfl⟩ := List.mem_map.mp hl
      exact commitDelimiter_not_mem_chunk (hwf r hr))]
  simp only [List.filter_cons, List.isEmpty_nil, Bool.not_true, Bool.false_eq_true, ite_false]
  exact List.filter_eq_self.mpr fun l hl => by
    obtain ⟨r, -, rfl⟩ := List.mem_map.mp hl
    simpa using chunk_ne_nil r

/-- The last character of the output is the last character of the last chunk. -/
theorem logOutput_last (records : List LogRecord) :
    ∀ c ∈ (logOutput records).getLast?, isWhiteSpace c = false := by
  rw [logOutput_eq]
  induction records with
  | nil => simp
  | cons r rs ih =>
    intro c hc
    rw [List.map_cons, List.flatMap_cons, List.getLast?_append, List.getLast?_cons] at hc
    cases hl : ((rs.map LogRecord.chunk).flatMap (COMMIT_CHUNK_DELIMITER :: ·)).getLast? with
    | some d => simp only [hl, Option.or_some, Option.mem_def, Option.some.injEq] at hc
                exact hc ▸ ih d hl
    | none =>
      obtain ⟨d, hd⟩ := Option.ne_none_iff_exists'.mp
        (mt List.getLast?_eq_none_iff.mp (chunk_ne_nil r))
      simp only [hl, Option.none_or, hd, Option.getD_some, Option.mem_def, Option.some.injEq] at hc
      exact hc ▸ chunk_last d hd

theorem parse_logOutput (records : List LogRecord) (hwf : ∀ r ∈ records, r.WellFormed) :
    CommitDetailsParser.parse g repositoryUri (.raw (logOutput records)) COMMIT_CHUNK_DELIMITER =
        records.mapM (LogRecord.read g repositoryUri) ∧
      CommitDetailsParser.parse g repositoryUri (.items (DugiteGit.logChunks (logOutput records)))
        COMMIT_CHUNK_DELIMITER = records.mapM (LogRecord.read g repositoryUri) := by
  have htrim : trim (logOutput records) = logOutput records := by
    refine trim_eq_self (fun c hc => ?_) (logOutput_last records)
    cases records with
    | nil => simp [logOutput] at hc
    | cons r rs =>
      rw [logOutput_eq] at hc
      simp only [List.map_cons, List.flatMap_cons, List.cons_append, List.head?_cons,
        Option.mem_def, Option.some.injEq] at hc
      subst hc; decide
  have hchunks := splitOn_logOutput records hwf
  refine ⟨?_, ?_⟩
  · rw [CommitDetailsParser.parse, OutputParser.split, hchunks, mapM_parseChunk g repositoryUri records hwf]
  · rw [CommitDetailsParser.parse, DugiteGit.logChunks, htrim, hchunks, OutputParser.split,
      List.filter_eq_self.mpr fun l hl => by
        obtain ⟨r, -, rfl⟩ := List.mem_map.mp hl
        simpa using chunk_ne_nil r]
    exact mapM_parseChunk g repositoryUri records hwf

end RoundTrip

/-- Two commits: a rename with a two-line body, and one with no changes and empty fields. -/
theorem parse_logOutput_two_commits :
    let records : List LogRecord :=
      [⟨"b1e".toList, "b1".toList, "jane@x.com".toList, "Jane".toList, 1600000000, "2 days ago".toList,
          "fix bug".toList, " line one\n line two ".toList,
          [⟨"R100".toList, some "a.ts".toList, "b.ts".toList⟩]⟩,
        ⟨"c0ffee".toList, [], [], [], -5, [], [], [], []⟩]
    CommitDetailsParser.parse GitUtils.sample "r".toList (.raw (logOutput records))
        CommitDetailsParser.COMMIT_CHUNK_DELIMITER = records.mapM (LogRecord.read GitUtils.sample "r".toList) ∧
      CommitDetailsParser.parse GitUtils.sample "r".toList
        (.items (DugiteGit.logChunks (logOutput records))) CommitDetailsParser.COMMIT_CHUNK_DELIMITER =
        records.mapM (LogRecord.read GitUtils.sample "r".toList) :=
  parse_logOutput GitUtils.sample "r".toList _ (by
    intro r hr
    simp only [List.mem_cons, List.not_mem_nil, or_false] at hr
    rcases hr with rfl | rfl
    · exact ⟨by decide, by decide, fun c hc => by
        simp only [List.mem_singleton] at hc
        exact hc ▸ ⟨'R', "100".toList, rfl, rfl, by decide⟩, by decide⟩
    · exact ⟨by decide, by decide, by simp, by simp⟩)

end Theia.Git
