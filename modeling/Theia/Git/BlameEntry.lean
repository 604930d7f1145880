import Theia.Js.Text

/-!
# `GitBlameParser.parseEntries`: the incremental blame accumulator

`git blame --incremental` writes, for every hunk, a header line `<sha> <source line> <result line>
<count>`, then field lines `<tag> <value>` in any order, then a `filename <name>` line that ends
the hunk. `parseEntries` is a two-state machine over the lines: with no entry in progress it
starts one, and `pumpEntry` fills the entry in progress until a `filename` line flushes it.

`pumpEntry` splits a line at spaces. A line of fewer than two parts changes nothing
(`pumpEntry_short`); the first line of an entry is its header (`pumpEntry_header`); after that
the first part is the tag and the rest of the line, joined again, its value (`pumpEntry_tag`).
`parseLine` is one turn of the loop and `parseLines` its run, with `parseLines_append` to cut a
run at any line. Only a line that starts with the `filename ` tag ends an entry: every other line
keeps an entry with a sha in progress, with its sha (`pumpEntry_inert`, `parseLines_inert`).
-/

namespace Theia.Git

open Js

/-- `GitBlameParser.Entry`. -/
structure Entry where
  fileName : Option (List Char) := none
  sha : Option (List Char) := none
  previousSha : Option (List Char) := none
  line : Option JsNumber := none
  lineCount : Option JsNumber := none
  author : Option (List Char) := none
  authorMail : Option (List Char) := none
  authorTime : Option JsNumber := none
  authorTz : Option JsNumber := none
  summary : Option (List Char) := none
  deriving DecidableEq, Repr

/-- `GitBlameParser.isUncommittedSha`: `(sha || '').startsWith('0000000')`. -/
def isUncommittedSha (sha : Option (List Char)) : Bool :=
  "0000000".toList.isPrefixOf (sha.getD [])

/-- The text before the last `>` of a segment, if it has one. -/
def beforeLastGt (segment : List Char) : Option (List Char) :=
  match segment.reverse.dropWhile (· != '>') with
  | [] => none
  | _ :: before => some before.reverse

/-- Group 2 of `rest.match(/(<(.*)>)/)`: at the first `<` from which a `>` is reachable without
crossing a line terminator (what `.` does not match), the text up to the last such `>`. -/
def matchMail : List Char → Option (List Char)
  | [] => none
  | c :: rest =>
    if c = '<' then
      match beforeLastGt (rest.takeWhile fun d => !isLineTerminator d) with
      | some address => some address
      | none => matchMail rest
    else matchMail rest

/-- `summary.startsWith('"') && summary.endsWith('"')`, then `summary.substr(1, summary.length - 2)`. -/
def unquote (summary : List Char) : List Char :=
  if summary.head? = some '"' ∧ summary.getLast? = some '"' then
    (summary.drop 1).take (summary.length - 2)
  else summary

/-- The `else if` chain of `pumpEntry` once the entry has its sha: the first part is the tag,
`rest` the other parts joined by spaces; `filename` ends the entry. -/
def pumpField (entry : Entry) (uncommitted : Bool) (firstPart : List Char)
    (parts : List (List Char)) : Entry × Bool :=
  let rest := [' '].intercalate (parts.drop 1)
  if firstPart = "author".toList then
    ({ entry with author := some (if uncommitted then "You".toList else rest) }, false)
  else if firstPart = "author-mail".toList then
    ({ entry with authorMail := some ((matchMail rest).getD rest) }, false)
  else if firstPart = "author-time".toList then
    ({ entry with authorTime := some ((parseIntAt parts 1).map (· * 1000)) }, false)
  else if firstPart = "author-tz".toList then
    ({ entry with authorTz := some (parseIntAt parts 1) }, false)
  else if firstPart = "summary".toList then
    ({ entry with summary := some (if uncommitted then "uncommitted".toList else unquote rest) }, false)
  else if firstPart = "previous".toList then
    ({ entry with previousSha := parts[1]? }, false)
  else if firstPart = "filename".toList then
    ({ entry with fileName := some rest }, true)
  else (entry, false)

/-- `GitBlameParser.pumpEntry`: the entry after one line, and whether the line ended it. -/
def pumpEntry (entry : Entry) (outputLine : List Char) : Entry × Bool :=
  let parts := outputLine.splitOn ' '
  if parts.length < 2 then (entry, false)
  else
    match entry.sha with
    | none =>
      ({ entry with sha := some (parts.headD []), line := some ((parseIntAt parts 2).map (· - 1)),
                    lineCount := some (parseIntAt parts 3) }, false)
    | some _ => pumpField entry (isUncommittedSha entry.sha) (parts.headD []) parts

/-- Modelled from the spec: `strings.split` of `@theia/core/lib/common/strings` is not in the
sources; the blame listing is newline-delimited, so it yields the text between newlines. -/
def strings.split (s : List Char) (splitter : Char) : List (List Char) :=
  s.splitOn splitter

/-- The state of the `parseEntries` loop: the entries flushed so far, and `current`. -/
structure Acc where
  result : List Entry
  current : Option Entry
  deriving DecidableEq, Repr

/-- One turn of the loop: `current` defaults to `{}`, and a `true` from `pumpEntry` flushes it. -/
def parseLine (acc : Acc) (line : List Char) : Acc :=
  let (entry, done) := pumpEntry (acc.current.getD {}) line
  if done then ⟨acc.result ++ [entry], none⟩ else ⟨acc.result, some entry⟩

/-- The loop over a list of lines. -/
def parseLines (acc : Acc) (lines : List (List Char)) : Acc :=
  lines.foldl parseLine acc

/-- `GitBlameParser.parseEntries`. -/
def parseEntries (rawOutput : List Char) : List Entry :=
  (parseLines ⟨[], none⟩ (strings.split rawOutput '\n')).result

theorem parseLines_append (acc : Acc) (xs ys : List (List Char)) :
    parseLines acc (xs ++ ys) = parseLines (parseLines acc xs) ys :=
  List.foldl_append _ _ _ _

@[simp] theorem parseLines_nil (acc : Acc) : parseLines acc [] = acc := rfl

theorem parseLines_cons (acc : Acc) (line : List Char) (lines : List (List Char)) :
    parseLines acc (line :: lines) = parseLines (parseLine acc line) lines := rfl

/-- One turn, given what `pumpEntry` makes of the line. -/
theorem parseLine_of_pumpEntry (result : List Entry) (current : Option Entry) {line : List Char}
    {entry : Entry} {done : Bool} (h : pumpEntry (current.getD {}) line = (entry, done)) :
    parseLine ⟨result, current⟩ line = if done then ⟨result ++ [entry], none⟩ else ⟨result, some entry⟩ := by
  simp only [parseLine, h]

/-! ## One line -/

theorem pumpEntry_short (entry : Entry) {outputLine : List Char}
    (h : (outputLine.splitOn ' ').length < 2) : pumpEntry entry outputLine = (entry, false) := by
  simp [pumpEntry, h]

theorem pumpEntry_header (entry : Entry) {outputLine : List Char} (hsha : entry.sha = none)
    (h : 2 ≤ (outputLine.splitOn ' ').length) :
    pumpEntry entry outputLine =
      ({ entry with sha := some ((outputLine.splitOn ' ').headD []),
                    line := some ((parseIntAt (outputLine.splitOn ' ') 2).map (· - 1)),
                    lineCount := some (parseIntAt (outputLine.splitOn ' ') 3) }, false) := by
  simp [pumpEntry, hsha, show ¬ (outputLine.splitOn ' ').length < 2 by omega]

/-- A line `tag value` splits at its first space into the tag and the parts of the value. -/
theorem splitOn_tag {tag : List Char} (htag : ' ' ∉ tag) (value : List Char) :
    (tag ++ ' ' :: value).splitOn ' ' = tag :: value.splitOn ' ' :=
  splitOn_append_cons htag value

/-- A tagged line of an entry that has its sha goes to the `else if` chain, with the value as the
rest of the line. -/
theorem pumpEntry_tag (entry : Entry) {sha : List Char} (hsha : entry.sha = some sha)
    {tag : List Char} (htag : ' ' ∉ tag) (value : List Char) :
    pumpEntry entry (tag ++ ' ' :: value) =
      pumpField entry (isUncommittedSha (some sha)) tag (tag :: value.splitOn ' ') := by
  have hlen : 2 ≤ (tag :: value.splitOn ' ').length := by
    obtain ⟨w, ws, hw⟩ := List.exists_cons_of_ne_nil (List.splitOnP_ne_nil (· == ' ') value)
    simp [List.splitOn, hw]
  rw [pumpEntry, splitOn_tag htag, if_neg (by omega), hsha]
  rfl

/-- The rest of a tagged line is its value. -/
theorem rest_of_tag (tag value : List Char) :
    [' '].intercalate ((tag :: value.splitOn ' ').drop 1) = value :=
  List.intercalate_splitOn value ' '

/-- A line of at least two parts, once the entry has its sha, goes to the `else if` chain under its
first part, and starts with that part and a space. -/
theorem pumpEntry_parts (entry : Entry) {sha : List Char} (hsha : entry.sha = some sha)
    {line : List Char} (hlen : ¬ (line.splitOn ' ').length < 2) :
    ∃ first rest, first ++ [' '] <+: line ∧
      pumpEntry entry line = pumpField entry (isUncommittedSha (some sha)) first (first :: rest) := by
  obtain ⟨first, second, rest, hparts⟩ : ∃ first second rest,
      line.splitOn ' ' = first :: second :: rest := by
    match line.splitOn ' ', hlen with
    | first :: second :: rest, _ => exact ⟨first, second, rest, rfl⟩
    | [], h => simp at h
    | [_], h => simp at h
  refine ⟨first, second :: rest, ?_, ?_⟩
  · have hline := List.intercalate_splitOn line ' '
    rw [hparts, List.intercalate, List.intersperse_cons_cons] at hline
    exact ⟨(List.intersperse [' '] (second :: rest)).flatten, by rw [← hline]; simp⟩
  · simp only [pumpEntry, hparts, List.length_cons, hsha]
    rfl

theorem pumpEntry_filename (entry : Entry) {sha : List Char} (hsha : entry.sha = some sha)
    (fileName : List Char) :
    pumpEntry entry ("filename".toList ++ ' ' :: fileName) = ({ entry with fileName := some fileName }, true) := by
  rw [pumpEntry_tag entry hsha (by decide), pumpField, rest_of_tag]
  rfl

/-! ## Lines that do not end the entry -/

/-- The tag of the line that ends an entry, with its space. -/
def filenameTag : List Char := "filename".toList ++ [' ']

/-- Every tag but `filename` fills a field, or none, and keeps the entry going with its sha. -/
theorem pumpField_of_ne_filename (entry : Entry) (uncommitted : Bool) {firstPart : List Char}
    (h : firstPart ≠ "filename".toList) (parts : List (List Char)) :
    (pumpField entry uncommitted firstPart parts).2 = false ∧
      (pumpField entry uncommitted firstPart parts).1.sha = entry.sha := by
  simp only [pumpField, apply_ite Prod.snd, apply_ite Prod.fst, apply_ite Entry.sha, if_neg h, ite_self,
    and_self]

/-- A line that does not start with the `filename ` tag leaves an entry with a sha unflushed, with
the same sha. -/
theorem pumpEntry_inert (entry : Entry) {sha : List Char} (hsha : entry.sha = some sha)
    {line : List Char} (hline : ¬ filenameTag <+: line) :
    pumpEntry entry line = ((pumpEntry entry line).1, false) ∧
      (pumpEntry entry line).1.sha = some sha := by
  by_cases hlen : (line.splitOn ' ').length < 2
  · simp [pumpEntry_short entry hlen, hsha]
  · obtain ⟨first, rest, hprefix, hpump⟩ := pumpEntry_parts entry hsha hlen
    have hfirst : first ≠ "filename".toList := by rintro rfl; exact hline hprefix
    obtain ⟨hdone, hkeep⟩ := pumpField_of_ne_filename entry (isUncommittedSha (some sha)) hfirst (first :: rest)
    rw [hpump]
    exact ⟨Prod.ext rfl hdone, hkeep.trans hsha⟩

/-- An entry without a sha takes the line as its header, or ignores it: it is never ended. -/
theorem pumpEntry_fresh {entry : Entry} (hsha : entry.sha = none) (line : List Char) :
    (pumpEntry entry line).2 = false := by
  by_cases hlen : (line.splitOn ' ').length < 2
  · rw [pumpEntry_short entry hlen]
  · simp [pumpEntry, hlen, hsha]

/-- A line that does not start with the `filename ` tag ends no entry. -/
theorem pumpEntry_snd_of_inert (entry : Entry) {line : List Char} (hline : ¬ filenameTag <+: line) :
    (pumpEntry entry line).2 = false := by
  cases hsha : entry.sha with
  | none => exact pumpEntry_fresh hsha line
  | some sha => rw [(pumpEntry_inert entry hsha hline).1]

/-- What the loop flushes after a start: the start's entries, then what it flushes from none. -/
theorem result_parseLines (result : List Entry) (current : Option Entry) (lines : List (List Char)) :
    (parseLines ⟨result, current⟩ lines).result = result ++ (parseLines ⟨[], current⟩ lines).result := by
  induction lines generalizing result current with
  | nil => simp
  | cons line lines ih =>
    cases hp : pumpEntry (current.getD {}) line with
    | mk entry done =>
      rw [parseLines_cons, parseLines_cons, parseLine_of_pumpEntry result current hp,
        parseLine_of_pumpEntry [] current hp]
      cases done
      · simp only [Bool.false_eq_true, ite_false]; exact ih _ _
      · simp only [ite_true]; rw [ih, ih ([] ++ [entry]), List.append_assoc]; rfl

/-- Lines that do not start with the `filename ` tag flush nothing, from any state. -/
theorem result_parseLines_inert (result : List Entry) (current : Option Entry)
    {lines : List (List Char)} (hlines : ∀ l ∈ lines, ¬ filenameTag <+: l) :
    (parseLines ⟨result, current⟩ lines).result = result := by
  induction lines generalizing current with
  | nil => rfl
  | cons line lines ih =>
    have hpump := pumpEntry_snd_of_inert (current.getD {}) (hlines line (by simp))
    rw [parseLines_cons, parseLine_of_pumpEntry result current
      (Prod.ext rfl hpump : pumpEntry _ line = ((pumpEntry _ line).1, false)), if_neg (by simp)]
    exact ih _ fun l hl => hlines l (by simp [hl])

/-- The entry after `pumpEntry` of each line in turn, the flush flags set aside. -/
def pumpLines (entry : Entry) (lines : List (List Char)) : Entry :=
  lines.foldl (fun entry line => (pumpEntry entry line).1) entry

/-- Lines that do not start with the `filename ` tag only pump the entry in progress. -/
theorem parseLines_inert (result : List Entry) (lines : List (List Char))
    (hlines : ∀ l ∈ lines, ¬ filenameTag <+: l) :
    ∀ (entry : Entry) {sha : List Char}, entry.sha = some sha →
      parseLines ⟨result, some entry⟩ lines = ⟨result, some (pumpLines entry lines)⟩ ∧
        (pumpLines entry lines).sha = some sha := by
  induction lines with
  | nil => intro entry sha hsha; exact ⟨rfl, hsha⟩
  | cons line lines ih =>
    intro entry sha hsha
    obtain ⟨hpump, hsha'⟩ := pumpEntry_inert entry hsha (hlines line (by simp))
    rw [parseLines_cons, parseLine_of_pumpEntry result (some entry) hpump]
    exact ih (fun l hl => hlines l (by simp [hl])) _ hsha'

/-! ## What a flushed entry holds -/

namespace Entry

/-- An entry whose sha came with its header line, which also set the line and the line count. -/
def Headed (entry : Entry) : Prop :=
  entry.sha.isSome → entry.line.isSome ∧ entry.lineCount.isSome

/-- The fields `createFileBlame` reads with `!`, and the file name, all assigned. -/
def Complete (entry : Entry) : Prop :=
  entry.sha.isSome ∧ entry.line.isSome ∧ entry.lineCount.isSome ∧ entry.fileName.isSome

end Entry

/-- The `else if` chain keeps the fields the header set. -/
theorem pumpField_header (entry : Entry) (uncommitted : Bool) (firstPart : List Char)
    (parts : List (List Char)) :
    (pumpField entry uncommitted firstPart parts).1.sha = entry.sha ∧
      (pumpField entry uncommitted firstPart parts).1.line = entry.line ∧
      (pumpField entry uncommitted firstPart parts).1.lineCount = entry.lineCount := by
  simp only [pumpField, apply_ite Prod.fst, apply_ite Entry.sha, apply_ite Entry.line,
    apply_ite Entry.lineCount, ite_self, and_self]

/-- The chain ends the entry only at `filename`, which assigns the file name. -/
theorem fileName_pumpField {entry : Entry} {uncommitted : Bool} {firstPart : List Char}
    {parts : List (List Char)} (h : (pumpField entry uncommitted firstPart parts).2 = true) :
    (pumpField entry uncommitted firstPart parts).1.fileName.isSome := by
  by_cases hfirst : firstPart = "filename".toList
  · subst hfirst; rfl
  · rw [(pumpField_of_ne_filename entry uncommitted hfirst parts).1] at h; cases h

/-- One line keeps the entry headed, and ends it only complete. -/
theorem pumpEntry_headed {entry : Entry} (h : entry.Headed) (line : List Char) :
    (pumpEntry entry line).1.Headed ∧
      ((pumpEntry entry line).2 = true → (pumpEntry entry line).1.Complete) := by
  by_cases hlen : (line.splitOn ' ').length < 2
  · rw [pumpEntry_short entry hlen]
    exact ⟨h, fun hdone => by cases hdone⟩
  · cases hsha : entry.sha with
    | none =>
      rw [pumpEntry_header entry hsha (by omega)]
      exact ⟨fun _ => ⟨rfl, rfl⟩, fun hdone => by cases hdone⟩
    | some sha =>
      obtain ⟨first, rest, -, hpump⟩ := pumpEntry_parts entry hsha hlen
      obtain ⟨hs, hl, hc⟩ := pumpField_header entry (isUncommittedSha (some sha)) first (first :: rest)
      have hheaded : (pumpField entry (isUncommittedSha (some sha)) first (first :: rest)).1.Headed := by
        unfold Entry.Headed; rw [hs, hl, hc]; exact h
      have hshaSome : (pumpField entry (isUncommittedSha (some sha)) first (first :: rest)).1.sha.isSome := by
        rw [hs, hsha]; rfl
      rw [hpump]
      exact ⟨hheaded, fun hdone =>
        ⟨hshaSome, (hheaded hshaSome).1, (hheaded hshaSome).2, fileName_pumpField hdone⟩⟩

/-- The invariant of the `parseEntries` loop: every flushed entry is complete, and the entry in
progress is headed. -/
def Acc.Valid (acc : Acc) : Prop :=
  (∀ entry ∈ acc.result, entry.Complete) ∧ (acc.current.getD {}).Headed

theorem Acc.Valid.parseLine {acc : Acc} (h : acc.Valid) (line : List Char) :
    (parseLine acc line).Valid := by
  obtain ⟨hresult, hcurrent⟩ := h
  obtain ⟨hheaded, hdone⟩ := pumpEntry_headed hcurrent line
  cases hp : pumpEntry (acc.current.getD {}) line with
  | mk entry done =>
    rw [hp] at hheaded hdone
    rw [show acc = ⟨acc.result, acc.current⟩ from rfl, parseLine_of_pumpEntry acc.result acc.current hp]
    cases done
    · exact ⟨hresult, hheaded⟩
    · refine ⟨fun e he => ?_, fun hsome => by cases hsome⟩
      rcases List.mem_append.1 he with he | he
      · exact hresult e he
      · rw [List.mem_singleton.1 he]; exact hdone rfl

theorem Acc.Valid.parseLines {acc : Acc} (h : acc.Valid) (lines : List (List Char)) :
    (Theia.Git.parseLines acc lines).Valid := by
  induction lines generalizing acc with
  | nil => exact h
  | cons line lines ih => rw [parseLines_cons]; exact ih (h.parseLine line)

/-- Whatever the text, every entry `parseEntries` returns has its sha, line, line count and file
name assigned (line and line count may be `NaN`): an entry is flushed only by a `filename` line,
and only once a header line has set the other three. -/
theorem parseEntries_complete (rawOutput : List Char) :
    ∀ entry ∈ parseEntries rawOutput,
      entry.sha.isSome ∧ entry.line.isSome ∧ entry.lineCount.isSome ∧ entry.fileName.isSome :=
  have hinit : Acc.Valid ⟨[], none⟩ := ⟨fun _ h => (nomatch h), fun h => nomatch h⟩
  (hinit.parseLines _).1

/-- The garbage line `junk text` is taken for a header, with no line number, and `filename f`
flushes it with all four fields assigned. -/
theorem parseEntries_complete_junk :
    let entry : Entry :=
      { sha := some "junk".toList, line := some .nan, lineCount := some .nan,
        fileName := some "f".toList }
    entry ∈ parseEntries "junk text\nfilename f".toList ∧
      entry.sha.isSome ∧ entry.line.isSome ∧ entry.lineCount.isSome ∧ entry.fileName.isSome :=
  have h : ({ sha := some "junk".toList, line := some .nan, lineCount := some .nan,
              fileName := some "f".toList } : Entry) ∈
      parseEntries "junk text\nfilename f".toList := by decide
  ⟨h, parseEntries_complete _ _ h⟩

end Theia.Git
