import Theia.Git.BlameEntry

/-!
# The incremental blame format, and what `parseEntries` reads from it

A `Hunk` is what `git blame --incremental` writes for one range of lines: the header, field
lines in any order and any number (`author`, `author-mail`, `author-time`, `author-tz`,
`summary`, `previous`, and lines of other tags), then the `filename` line. `blameText` joins the
lines of a list of hunks by newlines.

The parse is read in two layers.

* Framing. Whatever the values, a hunk whose lines hold no newline, whose sha has no space and
  none of whose field lines starts with the `filename ` tag (`Hunk.Framed`) is cut out of the
  listing on its own: the header starts an entry, the field lines only pump it
  (`parseLines_inert`), the `filename` line flushes it (`parseLines_hunk`). So the parse of a
  listing is `Hunk.parsedEntry` of each hunk, in order (`parseEntries_blameText`).
* Values. `Hunk.entry` says what a hunk denotes: its sha, its zero-based first line, its count,
  and for each field the value of its last line of that tag (`fieldsEntry`). For a well-formed
  hunk the parser builds exactly that (`parsedEntry_eq_entry`): the header starts the entry of no
  fields (`pumpEntry_header_wellFormed`) and every field line updates it to the entry of the
  fields read so far (`pumpEntry_field`). Hence `parseEntries_wellFormed`.
-/

namespace Theia.Git

open Js

/-- A field line of a hunk. -/
inductive FieldLine where
  | author (name : List Char)
  | authorMail (mail : List Char)
  | authorTime (time : List Char)
  | authorTz (zone : List Char)
  | summary (text : List Char)
  | previous (sha fileName : List Char)
  | other (line : List Char)
  deriving DecidableEq, Repr

/-- The text of a field line. -/
def FieldLine.text : FieldLine → List Char
  | .author name => "author".toList ++ ' ' :: name
  | .authorMail mail => "author-mail".toList ++ ' ' :: ('<' :: mail ++ ['>'])
  | .authorTime time => "author-time".toList ++ ' ' :: time
  | .authorTz zone => "author-tz".toList ++ ' ' :: zone
  | .summary text => "summary".toList ++ ' ' :: text
  | .previous sha fileName => "previous".toList ++ ' ' :: (sha ++ ' ' :: fileName)
  | .other line => line

/-- The tags `pumpEntry` reads. -/
def knownTags : List (List Char) :=
  ["author", "author-mail", "author-time", "author-tz", "summary", "previous", "filename"].map
    String.toList

/-- The field lines `git blame --incremental` writes for a commit: no value holds a newline, a
mail holds no `<`, `>` or other line terminator, times and zones are signed decimals, a
`previous` sha has no space, and a line of another tag does not start with a known tag and a
space. -/
def FieldLine.WellFormed : FieldLine → Prop
  | .author name => '\n' ∉ name
  | .authorMail mail => '<' ∉ mail ∧ '>' ∉ mail ∧ ∀ c ∈ mail, isLineTerminator c = false
  | .authorTime time => IsSignedDecimal time
  | .authorTz zone => IsSignedDecimal zone
  | .summary text => '\n' ∉ text
  | .previous sha fileName => ' ' ∉ sha ∧ '\n' ∉ sha ∧ '\n' ∉ fileName
  | .other line => '\n' ∉ line ∧ ∀ tag ∈ knownTags, ¬ (tag ++ [' ']) <+: line

/-- One range of lines of `git blame --incremental` output. -/
structure Hunk where
  sha : List Char
  sourceLine : List Char
  resultLine : List Char
  lineCount : List Char
  fields : List FieldLine
  fileName : List Char
  deriving DecidableEq, Repr

/-- The header line: `<sha> <source line> <result line> <count>`. -/
def Hunk.header (h : Hunk) : List Char :=
  [' '].intercalate [h.sha, h.sourceLine, h.resultLine, h.lineCount]

/-- The lines of a hunk. -/
def Hunk.lines (h : Hunk) : List (List Char) :=
  h.header :: (h.fields.map FieldLine.text ++ ["filename".toList ++ ' ' :: h.fileName])

/-- The listing of a list of hunks. -/
def blameText (hunks : List Hunk) : List Char :=
  ['\n'].intercalate (hunks.flatMap Hunk.lines)

/-- A hunk as `git blame` writes it: a sha without spaces or newlines, decimal line numbers with
a one-based result line, well-formed field lines, a file name without newline. -/
structure Hunk.WellFormed (h : Hunk) : Prop where
  sha : ' ' ∉ h.sha ∧ '\n' ∉ h.sha
  sourceLine : IsDecimal h.sourceLine
  resultLine : IsDecimal h.resultLine ∧ 1 ≤ digitsValue h.resultLine
  lineCount : IsDecimal h.lineCount
  fields : ∀ f ∈ h.fields, f.WellFormed
  fileName : '\n' ∉ h.fileName

/-! ## What a hunk denotes -/

/-- The name of an `author` line. -/
def FieldLine.author? : FieldLine → Option (List Char)
  | .author name => some name
  | _ => none

/-- The address of an `author-mail` line. -/
def FieldLine.authorMail? : FieldLine → Option (List Char)
  | .authorMail mail => some mail
  | _ => none

/-- The numeral of an `author-time` line. -/
def FieldLine.authorTime? : FieldLine → Option (List Char)
  | .authorTime time => some time
  | _ => none

/-- The numeral of an `author-tz` line. -/
def FieldLine.authorTz? : FieldLine → Option (List Char)
  | .authorTz zone => some zone
  | _ => none

/-- The text of a `summary` line. -/
def FieldLine.summary? : FieldLine → Option (List Char)
  | .summary text => some text
  | _ => none

/-- The sha of a `previous` line. -/
def FieldLine.previous? : FieldLine → Option (List Char)
  | .previous sha _ => some sha
  | _ => none

/-- The value of the last field line a selector picks. -/
def lastOf {α : Type} (fields : List FieldLine) (select : FieldLine → Option α) : Option α :=
  (fields.filterMap select).getLast?

/-- The fields an entry of `sha` gets from its field lines: each the value of the last line of its
tag, `You` and `uncommitted` standing for the name and summary of the uncommitted sha, the time
in milliseconds, a quoted summary without its quotes. -/
def fieldsEntry (sha : List Char) (fields : List FieldLine) : Entry where
  previousSha := lastOf fields FieldLine.previous?
  author := (lastOf fields FieldLine.author?).map fun name =>
    if isUncommittedSha (some sha) then "You".toList else name
  authorMail := lastOf fields FieldLine.authorMail?
  authorTime := (lastOf fields FieldLine.authorTime?).map fun time => .int (1000 * numeralValue time)
  authorTz := (lastOf fields FieldLine.authorTz?).map fun zone => .int (numeralValue zone)
  summary := (lastOf fields FieldLine.summary?).map fun text =>
    if isUncommittedSha (some sha) then "uncommitted".toList else unquote text

/-- The entry a hunk denotes. -/
def Hunk.entry (h : Hunk) : Entry :=
  { fieldsEntry h.sha h.fields with
    fileName := some h.fileName, sha := some h.sha,
    line := some (.int ((digitsValue h.resultLine : Int) - 1)),
    lineCount := some (.int (digitsValue h.lineCount)) }

/-! ## The run along a hunk -/

/-- The entry in progress after a header and the field lines `fields`. -/
def progress (sha : List Char) (line lineCount : JsNumber) (fields : List FieldLine) : Entry :=
  { fieldsEntry sha fields with sha := some sha, line := some line, lineCount := some lineCount }

theorem lastOf_append_singleton {α : Type} (fields : List FieldLine) (f : FieldLine)
    (select : FieldLine → Option α) :
    lastOf (fields ++ [f]) select = (select f).or (lastOf fields select) := by
  cases h : select f <;> simp [lastOf, List.filterMap_append, List.getLast?_append, h]

/-- A decimal numeral has no space, so it is one part of a line. -/
theorem splitOn_space_signedDecimal {s : List Char} (h : IsSignedDecimal s) : s.splitOn ' ' = [s] :=
  List.splitOnP_eq_single _ _ fun c hc hd =>
    absurd (toNat_ge_of_isSignedDecimal h c hc) (by rw [beq_iff_eq.mp hd]; decide)

/-- `/(<(.*)>)/` finds the address of a bracketed mail. -/
theorem matchMail_bracketed {mail : List Char} (hterm : ∀ c ∈ mail, isLineTerminator c = false) :
    matchMail ('<' :: (mail ++ ['>'])) = some mail := by
  have htake : (mail ++ ['>']).takeWhile (fun d => !isLineTerminator d) = mail ++ ['>'] :=
    List.takeWhile_eq_self_iff.mpr fun c hc => by
      rcases List.mem_append.mp hc with hc | hc
      · simp [hterm c hc]
      · simp only [List.mem_singleton] at hc; subst hc; decide
  simp [matchMail, htake, beforeLastGt]

section Step

variable {sha : List Char} {line lineCount : JsNumber} {fields : List FieldLine}

theorem progress_sha : (progress sha line lineCount fields).sha = some sha := rfl

/-- A field line updates the entry in progress to the entry of the field lines read so far. -/
theorem pumpEntry_field {f : FieldLine} (hf : f.WellFormed) :
    pumpEntry (progress sha line lineCount fields) f.text =
      (progress sha line lineCount (fields ++ [f]), false) := by
  cases f with
  | author value | summary value =>
    rw [FieldLine.text, pumpEntry_tag _ progress_sha (by decide)]
    simp [pumpField, List.intercalate_splitOn, progress, fieldsEntry, lastOf_append_singleton,
      FieldLine.author?, FieldLine.authorMail?, FieldLine.authorTime?, FieldLine.authorTz?,
      FieldLine.summary?, FieldLine.previous?]
  | authorMail mail =>
    rw [FieldLine.text, pumpEntry_tag _ progress_sha (by decide)]
    simp [pumpField, List.intercalate_splitOn, matchMail_bracketed hf.2.2, progress,
      fieldsEntry, lastOf_append_singleton, FieldLine.author?, FieldLine.authorMail?,
      FieldLine.authorTime?, FieldLine.authorTz?, FieldLine.summary?, FieldLine.previous?]
  | authorTime numeral | authorTz numeral =>
    rw [FieldLine.text, pumpEntry_tag _ progress_sha (by decide)]
    simp [pumpField, splitOn_space_signedDecimal hf, parseIntAt, parseInt_signedDecimal hf, progress,
      fieldsEntry, lastOf_append_singleton, FieldLine.author?, FieldLine.authorMail?,
      FieldLine.authorTime?, FieldLine.authorTz?, FieldLine.summary?, FieldLine.previous?, mul_comm]
  | previous previousSha fileName =>
    rw [FieldLine.text, pumpEntry_tag _ progress_sha (by decide), splitOn_tag hf.1]
    simp [pumpField, progress, fieldsEntry, lastOf_append_singleton, FieldLine.author?,
      FieldLine.authorMail?, FieldLine.authorTime?, FieldLine.authorTz?, FieldLine.summary?,
      FieldLine.previous?]
  | other text =>
    obtain ⟨-, htags⟩ := hf
    have hsame : progress sha line lineCount (fields ++ [.other text]) =
        progress sha line lineCount fields := by
      simp [progress, fieldsEntry, lastOf_append_singleton, FieldLine.author?, FieldLine.authorMail?,
        FieldLine.authorTime?, FieldLine.authorTz?, FieldLine.summary?, FieldLine.previous?]
    rw [hsame, FieldLine.text]
    by_cases hlen : (text.splitOn ' ').length < 2
    · exact pumpEntry_short _ hlen
    · obtain ⟨first, rest, hprefix, hpump⟩ := pumpEntry_parts _ progress_sha hlen
      have hnot : first ∉ knownTags := fun hmem => htags first hmem hprefix
      simp only [knownTags, List.map_cons, List.map_nil, List.mem_cons, List.not_mem_nil, or_false,
        not_or] at hnot
      obtain ⟨h1, h2, h3, h4, h5, h6, h7⟩ := hnot
      rw [hpump, pumpField, if_neg h1, if_neg h2, if_neg h3, if_neg h4, if_neg h5, if_neg h6,
        if_neg h7]

/-- The field lines pump the entry in progress to the entry of all the fields read. -/
theorem pumpLines_fields (more : List FieldLine) (hmore : ∀ f ∈ more, f.WellFormed) :
    ∀ fields, pumpLines (progress sha line lineCount fields) (more.map FieldLine.text) =
      progress sha line lineCount (fields ++ more) := by
  induction more with
  | nil => simp [pumpLines]
  | cons f more ih =>
    intro fields
    simp only [pumpLines, List.map_cons, List.foldl_cons, pumpEntry_field (hmore f (by simp))] at ih ⊢
    rw [ih (fun f hf => hmore f (by simp [hf])), List.append_assoc, List.singleton_append]

end Step
/-! ## Framing: the parser cuts the listing at the hunks -/

/-- What the parser needs of a hunk to cut it out of a listing, whatever its values: no line
holds a newline, the sha has no space, and no field line starts with the `filename ` tag. -/
structure Hunk.Framed (h : Hunk) : Prop where
  sha : ' ' ∉ h.sha ∧ '\n' ∉ h.sha
  numbers : '\n' ∉ h.sourceLine ∧ '\n' ∉ h.resultLine ∧ '\n' ∉ h.lineCount
  fields : ∀ f ∈ h.fields, '\n' ∉ f.text ∧ ¬ filenameTag <+: f.text
  fileName : '\n' ∉ h.fileName

instance (h : Hunk) : Decidable h.Framed :=
  decidable_of_iff ((' ' ∉ h.sha ∧ '\n' ∉ h.sha) ∧
      ('\n' ∉ h.sourceLine ∧ '\n' ∉ h.resultLine ∧ '\n' ∉ h.lineCount) ∧
      (∀ f ∈ h.fields, '\n' ∉ f.text ∧ ¬ filenameTag <+: f.text) ∧ '\n' ∉ h.fileName)
    ⟨fun ⟨a, b, c, d⟩ => ⟨a, b, c, d⟩, fun ⟨a, b, c, d⟩ => ⟨a, b, c, d⟩⟩

/-- The entry in progress once the parser has read a hunk's header and field lines. -/
def Hunk.openEntry (h : Hunk) : Entry :=
  pumpLines (pumpEntry {} h.header).1 (h.fields.map FieldLine.text)

/-- The entry the parser builds from the lines of one hunk. -/
def Hunk.parsedEntry (h : Hunk) : Entry :=
  (pumpEntry h.openEntry ("filename".toList ++ ' ' :: h.fileName)).1

theorem Hunk.header_eq (h : Hunk) :
    h.header = h.sha ++ ' ' :: [' '].intercalate [h.sourceLine, h.resultLine, h.lineCount] := by
  simp [Hunk.header, List.intercalate, List.intersperse_cons_cons]

/-- The header of a hunk starts an entry with the hunk's sha. -/
theorem pumpEntry_hunkHeader {h : Hunk} (hsha : ' ' ∉ h.sha) :
    pumpEntry {} h.header = ((pumpEntry {} h.header).1, false) ∧
      (pumpEntry {} h.header).1.sha = some h.sha := by
  have hparts := splitOn_tag hsha ([' '].intercalate [h.sourceLine, h.resultLine, h.lineCount])
  rw [← Hunk.header_eq] at hparts
  have hlen : 2 ≤ (h.header.splitOn ' ').length := by
    obtain ⟨w, ws, hw⟩ := List.exists_cons_of_ne_nil
      (List.splitOnP_ne_nil (· == ' ') ([' '].intercalate [h.sourceLine, h.resultLine, h.lineCount]))
    rw [hparts]
    simp [List.splitOn, hw]
  simp [pumpEntry_header {} rfl hlen, hparts]

/-- The header and field lines of a framed hunk leave its entry in progress, with its sha. -/
theorem parseLines_header_fields {h : Hunk} (hf : h.Framed) (result : List Entry) :
    parseLines ⟨result, none⟩ (h.header :: h.fields.map FieldLine.text) =
        ⟨result, some h.openEntry⟩ ∧ h.openEntry.sha = some h.sha := by
  obtain ⟨hheader, hsha⟩ := pumpEntry_hunkHeader hf.sha.1
  rw [parseLines_cons, parseLine_of_pumpEntry result none hheader, if_neg (by simp)]
  exact parseLines_inert result _ (by simpa using fun f hf' => (hf.fields f hf').2) _ hsha

theorem Hunk.parsedEntry_eq {h : Hunk} (hf : h.Framed) :
    h.parsedEntry = { h.openEntry with fileName := some h.fileName } := by
  rw [Hunk.parsedEntry, pumpEntry_filename _ (parseLines_header_fields hf []).2]

/-- A framed hunk's lines, from no entry in progress, flush exactly the entry built from them. -/
theorem parseLines_hunk {h : Hunk} (hf : h.Framed) (result : List Entry) :
    parseLines ⟨result, none⟩ h.lines = ⟨result ++ [h.parsedEntry], none⟩ := by
  obtain ⟨hrun, hsha⟩ := parseLines_header_fields hf result
  rw [Hunk.lines, ← List.cons_append, parseLines_append, hrun, parseLines_cons,
    parseLine_of_pumpEntry result (some h.openEntry) (pumpEntry_filename _ hsha h.fileName),
    Hunk.parsedEntry_eq hf]
  rfl

theorem parseLines_hunks (hunks : List Hunk) (hf : ∀ h ∈ hunks, h.Framed) :
    ∀ result, parseLines ⟨result, none⟩ (hunks.flatMap Hunk.lines) =
      ⟨result ++ hunks.map Hunk.parsedEntry, none⟩ := by
  induction hunks with
  | nil => simp
  | cons h hunks ih =>
    intro result
    rw [List.flatMap_cons, parseLines_append, parseLines_hunk (hf h (by simp)),
      ih (fun h hh => hf h (by simp [hh]))]
    simp

theorem newline_not_mem_lines {h : Hunk} (hf : h.Framed) : ∀ l ∈ h.lines, '\n' ∉ l := by
  intro l hl
  simp only [Hunk.lines, List.mem_cons, List.mem_append, List.mem_map, List.not_mem_nil,
    or_false] at hl
  rcases hl with rfl | ⟨f, hmem, rfl⟩ | rfl
  · simp [Hunk.header_eq, List.intercalate, List.intersperse_cons_cons, hf.sha.2, hf.numbers]
  · exact (hf.fields f hmem).1
  · simpa using hf.fileName

/-- The listing splits into the lines of its hunks. -/
theorem split_blameText {hunks : List Hunk} (hne : hunks ≠ []) (hf : ∀ h ∈ hunks, h.Framed) :
    strings.split (blameText hunks) '\n' = hunks.flatMap Hunk.lines := by
  obtain ⟨h, hs, rfl⟩ := List.exists_cons_of_ne_nil hne
  exact List.splitOn_intercalate _ _ (fun l hl => by
      obtain ⟨h', hh', hl⟩ := List.mem_flatMap.mp hl
      exact newline_not_mem_lines (hf h' hh') l hl)
    (by simp [Hunk.lines])

/-- The parse of a listing of framed hunks is the entry of each hunk, in order. -/
theorem parseEntries_blameText (hunks : List Hunk) (hf : ∀ h ∈ hunks, h.Framed) :
    parseEntries (blameText hunks) = hunks.map Hunk.parsedEntry := by
  cases hunks with
  | nil => rfl
  | cons h hs =>
    rw [parseEntries, split_blameText (List.cons_ne_nil h hs) hf, parseLines_hunks _ hf]
    rfl

/-! ## What the parser reads from a well-formed hunk -/

theorem FieldLine.WellFormed.framed {f : FieldLine} (hf : f.WellFormed) :
    '\n' ∉ f.text ∧ ¬ filenameTag <+: f.text := by
  have hdec : ∀ s, IsSignedDecimal s → '\n' ∉ s := fun s hs hmem =>
    absurd (toNat_ge_of_isSignedDecimal hs _ hmem) (by decide)
  cases f with
  | author name => simpa [FieldLine.text, filenameTag] using hf
  | authorMail mail =>
    refine ⟨fun hm => absurd (hf.2.2 _ (by simpa [FieldLine.text] using hm)) (by decide), ?_⟩
    simp [FieldLine.text, filenameTag]
  | authorTime time => simpa [FieldLine.text, filenameTag] using hdec _ hf
  | authorTz zone => simpa [FieldLine.text, filenameTag] using hdec _ hf
  | summary text => simpa [FieldLine.text, filenameTag] using hf
  | previous sha fileName => simpa [FieldLine.text, filenameTag] using ⟨hf.2.1, hf.2.2⟩
  | other text => exact ⟨hf.1, hf.2 _ (by simp [knownTags])⟩

theorem Hunk.WellFormed.framed {h : Hunk} (hwf : h.WellFormed) : h.Framed := by
  have hdec : ∀ s, IsDecimal s → '\n' ∉ s := fun s hs hmem =>
    absurd (toNat_ge_of_isSignedDecimal (Or.inl hs) _ hmem) (by decide)
  exact ⟨hwf.sha, ⟨hdec _ hwf.sourceLine, hdec _ hwf.resultLine.1, hdec _ hwf.lineCount⟩,
    fun f hf => (hwf.fields f hf).framed, hwf.fileName⟩

/-- The header of a well-formed hunk starts the entry of its sha, zero-based first line and
count. -/
theorem pumpEntry_header_wellFormed {h : Hunk} (hwf : h.WellFormed) :
    (pumpEntry {} h.header).1 = progress h.sha
      (.int ((digitsValue h.resultLine : Int) - 1)) (.int (digitsValue h.lineCount)) [] := by
  have hdec : ∀ s, IsDecimal s → ' ' ∉ s := fun s hs hmem =>
    absurd (toNat_ge_of_isSignedDecimal (Or.inl hs) _ hmem) (by decide)
  have hparts : h.header.splitOn ' ' = [h.sha, h.sourceLine, h.resultLine, h.lineCount] :=
    List.splitOn_intercalate _ _ (by
      simp only [List.mem_cons, List.not_mem_nil, or_false]
      rintro l (rfl | rfl | rfl | rfl)
      exacts [hwf.sha.1, hdec _ hwf.sourceLine, hdec _ hwf.resultLine.1, hdec _ hwf.lineCount])
      (by simp)
  have hlen : 2 ≤ (h.header.splitOn ' ').length := by simp [hparts]
  simp [pumpEntry_header {} rfl hlen, hparts, parseIntAt, parseInt_decimal hwf.resultLine.1,
    parseInt_decimal hwf.lineCount, progress, fieldsEntry, lastOf]

/-- The parser builds from a well-formed hunk the entry it denotes. -/
theorem parsedEntry_eq_entry {h : Hunk} (hwf : h.WellFormed) : h.parsedEntry = h.entry := by
  rw [Hunk.parsedEntry, Hunk.openEntry, pumpEntry_header_wellFormed hwf, pumpLines_fields _ hwf.fields [],
    List.nil_append, pumpEntry_filename _ progress_sha]
  rfl

/-- The parse of every well-formed listing is one entry per hunk, in order. -/
theorem parseEntries_wellFormed (hunks : List Hunk) (hwf : ∀ h ∈ hunks, h.WellFormed) :
    parseEntries (blameText hunks) = hunks.map Hunk.entry := by
  rw [parseEntries_blameText hunks fun h hh => (hwf h hh).framed]
  exact List.map_congr_left fun h hh => parsedEntry_eq_entry (hwf h hh)

end Theia.Git
