import Theia.Node.Buffer
import Theia.Js.Number
/-!
# The debug adapter stream: framing, and reading it chunk by chunk

`StreamCommunicationProvider` (`packages/debug/src/node/stream-communication-provider.ts`) talks
to a debug adapter over a pair of streams. `send` frames a message as
`Content-Length: <bytes>\r\n\r\n<message>`; `handleData` appends each chunk the adapter writes to
a buffer and then runs a `while (true)` loop. While `contentLength` is negative (or `NaN`) it looks
for a header: it drops whatever comes before the first `Content-Length`, and once a `\r\n\r\n` is
in the buffer it reads the header's lines and sets `contentLength` from each `Content-Length`
line. While `contentLength >= 0` it waits for that many bytes and fires them as a message.

* `step` is one step of the loop, `run` the loop until it breaks, `handleData` and `feed` the
  provider fed one chunk or a list of chunks.
* `run_append` is what makes the reading independent of how the stream is cut into chunks: the
  loop on `buf ++ e` is the loop on `buf`, then on what it left with `e` appended. A header read
  early from a short buffer is one with no `Content-Length` in it, which sets nothing, while a
  longer buffer drops those bytes unread; the two runs meet again (`run_extend_of_continue`).
* `run_sends` reads back what `send` wrote, message by message.
-/

namespace Theia.Debug

open Theia.Js Theia.Node

/-- `StreamCommunicationProvider.CONTENT_LENGTH`. -/
def CONTENT_LENGTH : List Char := "Content-Length".toList

/-- `StreamCommunicationProvider.TWO_CRLF`. -/
def TWO_CRLF : List Char := "\r\n\r\n".toList

/-! ## Reading a header -/

/-- `header.split('\r\n')`. -/
def splitLines : List Char → List (List Char)
  | [] => [[]]
  | '\r' :: '\n' :: s => [] :: splitLines s
  | c :: s =>
    match splitLines s with
    | l :: ls => (c :: l) :: ls
    | [] => [[c]]

/-- Where `/: +/` first matches in `line`: the text before the match, and the text after it. -/
def colonSpaces : List Char → Option (List Char × List Char)
  | [] => none
  | ':' :: ' ' :: s => some ([], s.dropWhile (· = ' '))
  | c :: s => (colonSpaces s).map fun r => (c :: r.1, r.2)

theorem length_colonSpaces_lt {line before after : List Char}
    (h : colonSpaces line = some (before, after)) : after.length < line.length := by
  induction line using colonSpaces.induct generalizing before after with
  | case1 => simp [colonSpaces] at h
  | case2 s =>
    simp only [colonSpaces, Option.some.injEq, Prod.mk.injEq] at h
    rw [← h.2]
    exact Nat.lt_of_le_of_lt (List.dropWhile_suffix _).length_le (by simp only [List.length_cons]; omega)
  | case3 c s hc ih =>
    rw [colonSpaces.eq_3 c s hc, Option.map_eq_some'] at h
    obtain ⟨⟨b, a⟩, hs, hba⟩ := h
    cases hba
    exact Nat.lt_succ_of_lt (ih hs)

/-- `line.split(/: +/)`. -/
def splitColonSpaces (line : List Char) : List (List Char) :=
  match h : colonSpaces line with
  | none => [line]
  | some (before, after) => before :: splitColonSpaces after
termination_by line.length
decreasing_by exact length_colonSpaces_lt h

theorem splitColonSpaces_of_none {line : List Char} (h : colonSpaces line = none) :
    splitColonSpaces line = [line] := by
  rw [splitColonSpaces]; split <;> simp_all

theorem splitColonSpaces_of_some {line before after : List Char}
    (h : colonSpaces line = some (before, after)) :
    splitColonSpaces line = before :: splitColonSpaces after := by
  rw [splitColonSpaces]; split <;> simp_all

/-- The loop over the header's `lines`: each line whose `pair[0]` is `Content-Length` sets
`contentLength` to `+pair[1]`. -/
def headerContentLength (header : List Char) (contentLength : Numeric) : Numeric :=
  (splitLines header).foldl (fun contentLength line =>
    let pair := splitColonSpaces line
    if pair[0]? = some CONTENT_LENGTH then toNumberOpt pair[1]? else contentLength) contentLength

/-- The first line of a header is a prefix of it, and every line is a part of it. -/
theorem splitLines_within (s : List Char) :
    (∀ l ∈ (splitLines s).head?, l <+: s) ∧ ∀ l ∈ splitLines s, l <:+: s := by
  induction s using splitLines.induct with
  | case1 => simp [splitLines]
  | case2 s ih =>
    simp only [splitLines, List.head?_cons, Option.mem_def, Option.some.injEq, forall_eq',
      List.nil_prefix, List.mem_cons, forall_eq_or_imp, List.nil_infix, true_and]
    exact fun l hl => (ih.2 l hl).trans ((List.suffix_cons _ _).trans (List.suffix_cons _ _)).isInfix
  | case3 c s hc l ls hls ih =>
    rw [splitLines.eq_3 c s hc, hls]
    rw [hls] at ih
    simp only [List.head?_cons, Option.mem_def, Option.some.injEq, forall_eq', List.mem_cons,
      forall_eq_or_imp] at ih ⊢
    have hfirst := (List.prefix_cons_inj c).2 ih.1
    exact ⟨hfirst, hfirst.isInfix, fun l' hl' => (ih.2.2 l' hl').trans (List.suffix_cons _ _).isInfix⟩
  | case4 c s hc hnil =>
    rw [splitLines.eq_3 c s hc, hnil]
    have : [c] <+: c :: s := (List.prefix_cons_inj c).2 List.nil_prefix
    exact ⟨by simp, by simpa using this.isInfix⟩

theorem prefix_of_colonSpaces {line before after : List Char}
    (h : colonSpaces line = some (before, after)) : before <+: line := by
  induction line using colonSpaces.induct generalizing before after with
  | case1 => simp [colonSpaces] at h
  | case2 s =>
    simp only [colonSpaces, Option.some.injEq, Prod.mk.injEq] at h
    rw [← h.1]; exact List.nil_prefix
  | case3 c s hc ih =>
    rw [colonSpaces.eq_3 c s hc, Option.map_eq_some'] at h
    obtain ⟨⟨b, a⟩, hs, hba⟩ := h
    cases hba
    exact (List.prefix_cons_inj c).2 (ih hs)

/-- `pair[0]` is a prefix of the line. -/
theorem prefix_of_splitColonSpaces {line first : List Char}
    (h : (splitColonSpaces line)[0]? = some first) : first <+: line := by
  rw [splitColonSpaces] at h
  split at h
  · simp only [List.getElem?_cons_zero, Option.some.injEq] at h; rw [← h]
  · rename_i before after hc
    simp only [List.getElem?_cons_zero, Option.some.injEq] at h
    exact h ▸ prefix_of_colonSpaces hc

/-- A header with no `Content-Length` in it sets nothing. -/
theorem headerContentLength_of_absent {header : List Char} (h : ¬ CONTENT_LENGTH <:+: header)
    (contentLength : Numeric) : headerContentLength header contentLength = contentLength := by
  have hlines : ∀ line ∈ splitLines header, (splitColonSpaces line)[0]? ≠ some CONTENT_LENGTH :=
    fun line hline hfirst =>
      h ((prefix_of_splitColonSpaces hfirst).isInfix.trans ((splitLines_within header).2 line hline))
  unfold headerContentLength
  generalize splitLines header = lines at hlines
  induction lines generalizing contentLength with
  | nil => rfl
  | cons line lines ih =>
    rw [List.foldl_cons, if_neg (hlines line (List.mem_cons_self _ _))]
    exact ih contentLength (fun l hl => hlines l (List.mem_cons_of_mem _ hl))

/-! ## The header `send` writes -/

/-- `Content-Length: n`, the header `send` writes for a message of `n` bytes. -/
def contentLengthHeader (n : Nat) : List Char := CONTENT_LENGTH ++ ": ".toList ++ decimal n

theorem splitLines_of_not_mem {s : List Char} (h : '\r' ∉ s) : splitLines s = [s] := by
  induction s with
  | nil => rfl
  | cons c s ih =>
    have hc : c ≠ '\r' := fun hc => h (hc ▸ List.mem_cons_self _ _)
    rw [splitLines.eq_3 c s (fun _ hc' _ => hc hc'), ih (fun hs => h (List.mem_cons_of_mem _ hs))]

theorem colonSpaces_of_not_mem {s : List Char} (h : ':' ∉ s) : colonSpaces s = none := by
  induction s with
  | nil => rfl
  | cons c s ih =>
    have hc : c ≠ ':' := fun hc => h (hc ▸ List.mem_cons_self _ _)
    rw [colonSpaces.eq_3 c s (fun _ hc' _ => hc hc'), ih (fun hs => h (List.mem_cons_of_mem _ hs))]
    rfl

theorem colonSpaces_append_of_not_mem {pre : List Char} (h : ':' ∉ pre) (rest : List Char) :
    colonSpaces (pre ++ rest) = (colonSpaces rest).map fun r => (pre ++ r.1, r.2) := by
  induction pre with
  | nil => simp
  | cons c pre ih =>
    have hc : c ≠ ':' := fun hc => h (hc ▸ List.mem_cons_self _ _)
    rw [List.cons_append, colonSpaces.eq_3 c _ (fun _ hc' _ => hc hc'),
      ih (fun hs => h (List.mem_cons_of_mem _ hs)), Option.map_map]
    rfl

theorem digit_bounds_of_mem_decimal {n : Nat} {c : Char} (hc : c ∈ decimal n) :
    48 ≤ c.toNat ∧ c.toNat ≤ 57 := by
  simpa [Char.isDigit, Char.le_def] using (decimal_isDecimal n).2 c hc

theorem splitColonSpaces_contentLengthHeader (n : Nat) :
    splitColonSpaces (contentLengthHeader n) = [CONTENT_LENGTH, decimal n] := by
  have hdigits : ∀ c ∈ decimal n, c ≠ ':' ∧ c ≠ ' ' := fun c hc => by
    have := digit_bounds_of_mem_decimal hc
    constructor <;> (rintro rfl; simp at this)
  have hcolon : colonSpaces (decimal n) = none := colonSpaces_of_not_mem fun h => (hdigits _ h).1 rfl
  obtain ⟨d, ds, hd⟩ := List.exists_cons_of_ne_nil (decimal_isDecimal n).1
  have hdrop : (decimal n).dropWhile (· = ' ') = decimal n := by
    rw [hd, List.dropWhile_cons_of_neg (by simpa using (hdigits d (hd ▸ List.mem_cons_self _ _)).2)]
  have hsplit : colonSpaces (contentLengthHeader n) = some (CONTENT_LENGTH, decimal n) := by
    rw [contentLengthHeader, List.append_assoc, colonSpaces_append_of_not_mem (by decide),
      show ": ".toList ++ decimal n = ':' :: ' ' :: decimal n from rfl, colonSpaces, hdrop]
    rfl
  rw [splitColonSpaces_of_some hsplit, splitColonSpaces_of_none hcolon]

/-- The header `send` writes sets `contentLength` to the message's length. -/
theorem toNat_of_mem_contentLengthHeader {n : Nat} {c : Char} (hc : c ∈ contentLengthHeader n) :
    32 ≤ c.toNat ∧ c.toNat < 0x80 := by
  simp only [contentLengthHeader, List.mem_append] at hc
  rcases hc with (hc | hc) | hc
  · revert c; decide
  · revert c; decide
  · have := digit_bounds_of_mem_decimal hc; omega

theorem headerContentLength_contentLengthHeader (n : Nat) (contentLength : Numeric) :
    headerContentLength (contentLengthHeader n) contentLength = .finite n := by
  have hr : '\r' ∉ contentLengthHeader n := fun h => by
    have := toNat_of_mem_contentLengthHeader h; simp at this
  simp [headerContentLength, splitLines_of_not_mem hr, splitColonSpaces_contentLengthHeader,
    toNumberOpt, toNumber_decimal]

/-- What `send(message)` writes: `Content-Length: ` and the message's UTF-8 length in decimal,
`\r\n\r\n`, then the message, all as UTF-8. -/
def send (message : List Char) : List UInt8 :=
  utf8Encode (CONTENT_LENGTH ++ ": ".toList ++ decimal (utf8Encode message).length ++ TWO_CRLF ++ message)

/-! ## The provider -/

/-- The state `handleData` works on. -/
structure StreamCommunicationProvider where
  contentLength : Numeric
  buffer : List UInt8
  deriving DecidableEq, Repr

namespace StreamCommunicationProvider

/-- A new provider: `contentLength = -1` and an empty buffer. -/
def init : StreamCommunicationProvider := ⟨.finite (-1), []⟩

/-- What a header step makes of the buffer first: the bytes before the first `Content-Length`
are logged and dropped. -/
def dropUnrecognized (buffer : List UInt8) : List UInt8 :=
  match indexOf (utf8Encode CONTENT_LENGTH) buffer with
  | some idx => if idx > 0 then buffer.drop idx else buffer
  | none => buffer

/-- The rest of a header step, on the buffer `dropUnrecognized` left: with a `\r\n\r\n` in it,
the header before it is read and dropped, and the loop goes on; without one, the loop breaks. -/
def headerStep (contentLength : Numeric) (buffer : List UInt8) :
    StreamCommunicationProvider × Option (List Char) × Bool :=
  match indexOf (utf8Encode TWO_CRLF) buffer with
  | some idx =>
    (⟨headerContentLength (utf8Decode (buffer.take idx)) contentLength,
      buffer.drop (idx + TWO_CRLF.length)⟩, none, true)
  | none => (⟨contentLength, buffer⟩, none, false)

/-- One step of the `while (true)` loop of `handleData`: the provider after it, the message it
fires, and whether it ends with `continue` (`true`) or `break` (`false`). -/
def step (p : StreamCommunicationProvider) : StreamCommunicationProvider × Option (List Char) × Bool :=
  if p.contentLength.geZero then
    if p.contentLength.le p.buffer.length then
      let message := utf8Decode (p.buffer.take p.contentLength.truncNat)
      (⟨.finite (-1), p.buffer.drop p.contentLength.truncNat⟩,
        if message.length > 0 then some message else none, true)
    else (p, none, false)
  else headerStep p.contentLength (dropUnrecognized p.buffer)

/-- The loop, for at most `fuel` rounds: the messages fired, and the provider after. -/
def loop : Nat → StreamCommunicationProvider → List (List Char) × StreamCommunicationProvider
  | 0, p => ([], p)
  | fuel + 1, p =>
    match step p with
    | (p', message, true) => (message.toList ++ (loop fuel p').1, (loop fuel p').2)
    | (p', _, false) => ([], p')

/-- A bound on the rounds left: each `continue` lowers it (`measure_round_lt`). -/
def measure (p : StreamCommunicationProvider) : Nat :=
  2 * p.buffer.length + if p.contentLength.geZero then 1 else 0

/-- The loop until it breaks. -/
def run (p : StreamCommunicationProvider) : List (List Char) × StreamCommunicationProvider :=
  loop (p.measure + 1) p

/-- `handleData(data)`: the buffer is extended by `data`, then the loop runs. -/
def handleData (p : StreamCommunicationProvider) (data : List UInt8) :
    List (List Char) × StreamCommunicationProvider :=
  run { p with buffer := p.buffer ++ data }

/-- Chunks fed to `handleData` one after another: the messages fired, in order, and the provider
after. -/
def feed (p : StreamCommunicationProvider) :
    List (List UInt8) → List (List Char) × StreamCommunicationProvider
  | [] => ([], p)
  | data :: chunks =>
    ((handleData p data).1 ++ (feed (handleData p data).2 chunks).1, (feed (handleData p data).2 chunks).2)

/-! ## The loop ends -/

theorem length_dropUnrecognized_le (buffer : List UInt8) :
    (dropUnrecognized buffer).length ≤ buffer.length := by
  unfold dropUnrecognized; split
  · split_ifs <;> simp
  · rfl

theorem length_TWO_CRLF : (utf8Encode TWO_CRLF).length = 4 ∧ TWO_CRLF.length = 4 := by decide

theorem measure_round_lt {p : StreamCommunicationProvider} (h : (step p).2.2 = true) :
    (step p).1.measure < p.measure := by
  unfold step at h ⊢
  by_cases hge : p.contentLength.geZero = true
  · by_cases hle : p.contentLength.le p.buffer.length = true
    · simp only [hge, hle, if_true]
      simp [measure, hge]; omega
    · simp [hge, hle] at h
  · simp only [hge, Bool.false_eq_true, if_false] at h ⊢
    unfold headerStep at h ⊢
    rcases hidx : indexOf (utf8Encode TWO_CRLF) (dropUnrecognized p.buffer) with _ | idx
    · simp [hidx] at h
    · have h1 := length_add_le_of_indexOf hidx (by decide)
      have h2 := length_dropUnrecognized_le p.buffer
      have h4 := length_TWO_CRLF
      simp only [measure, hge, List.length_drop]
      split_ifs <;> omega

/-- Any fuel beyond `measure` gives the same run: the loop has broken by then. -/
theorem loop_eq_loop {p : StreamCommunicationProvider} {f₁ f₂ : Nat} (h₁ : p.measure < f₁)
    (h₂ : p.measure < f₂) : loop f₁ p = loop f₂ p := by
  induction f₁ generalizing p f₂ with
  | zero => omega
  | succ f ih =>
    obtain ⟨g, rfl⟩ : ∃ g, f₂ = g + 1 := ⟨f₂ - 1, by omega⟩
    simp only [loop]
    rcases hr : step p with ⟨p', message, _ | _⟩
    · rfl
    · have hlt : p'.measure < p.measure := by
        simpa [hr] using measure_round_lt (show (step p).2.2 = true by rw [hr])
      dsimp only
      rw [ih (by omega) (show p'.measure < g by omega)]

theorem loop_eq_run {p : StreamCommunicationProvider} {fuel : Nat} (h : p.measure < fuel) :
    loop fuel p = run p :=
  loop_eq_loop h (Nat.lt_succ_self _)

theorem run_of_continue {p p' : StreamCommunicationProvider} {message : Option (List Char)}
    (h : step p = (p', message, true)) : run p = (message.toList ++ (run p').1, (run p').2) := by
  have hlt : p'.measure < p.measure := by
    simpa [h] using measure_round_lt (show (step p).2.2 = true by rw [h])
  rw [run, loop, h]
  dsimp only
  rw [loop_eq_run hlt]

theorem run_of_break {p p' : StreamCommunicationProvider} {message : Option (List Char)}
    (h : step p = (p', message, false)) : run p = ([], p') := by
  rw [run, loop, h]

/-- A run is decided by its rounds. -/
theorem run_congr {p q : StreamCommunicationProvider} (h : step p = step q) : run p = run q := by
  rcases hq : step q with ⟨q', message, _ | _⟩
  · rw [run_of_break (h.trans hq), run_of_break hq]
  · rw [run_of_continue (h.trans hq), run_of_continue hq]

/-! ## Reading a longer buffer -/

/-- `p` with `e` appended to its buffer. -/
def extend (p : StreamCommunicationProvider) (e : List UInt8) : StreamCommunicationProvider :=
  { p with buffer := p.buffer ++ e }

theorem bytes_facts : utf8Encode CONTENT_LENGTH ≠ [] ∧ utf8Encode TWO_CRLF ≠ [] ∧
    (∀ x ∈ utf8Encode CONTENT_LENGTH, x ∉ utf8Encode TWO_CRLF) ∧
    IsAscii CONTENT_LENGTH ∧ CONTENT_LENGTH ≠ [] := by
  decide

theorem dropUnrecognized_of_some {buffer : List UInt8} {i : Nat}
    (h : indexOf (utf8Encode CONTENT_LENGTH) buffer = some i) : dropUnrecognized buffer = buffer.drop i := by
  unfold dropUnrecognized; rw [h]; dsimp only; split_ifs with hi
  · rfl
  · rw [show i = 0 by omega, List.drop_zero]

theorem dropUnrecognized_of_none {buffer : List UInt8}
    (h : indexOf (utf8Encode CONTENT_LENGTH) buffer = none) : dropUnrecognized buffer = buffer := by
  unfold dropUnrecognized; rw [h]

theorem dropUnrecognized_append_of_some {buffer : List UInt8} {i : Nat}
    (h : indexOf (utf8Encode CONTENT_LENGTH) buffer = some i) (e : List UInt8) :
    dropUnrecognized (buffer ++ e) = dropUnrecognized buffer ++ e := by
  have := length_add_le_of_indexOf h bytes_facts.1
  rw [dropUnrecognized_of_some (indexOf_append_of_some h e), dropUnrecognized_of_some h,
    List.drop_append_of_le_length (by omega)]

/-- Once the unrecognized bytes are dropped, there are none left to drop. -/
theorem dropUnrecognized_dropUnrecognized_append {buffer : List UInt8} {i : Nat}
    (h : indexOf (utf8Encode CONTENT_LENGTH) buffer = some i) (e : List UInt8) :
    dropUnrecognized (dropUnrecognized buffer ++ e) = dropUnrecognized buffer ++ e := by
  have h0 : indexOf (utf8Encode CONTENT_LENGTH) (dropUnrecognized buffer) = some 0 := by
    rw [dropUnrecognized_of_some h, ← Nat.sub_self i]; exact indexOf_drop h le_rfl
  rw [dropUnrecognized_append_of_some h0, dropUnrecognized_of_some h0, List.drop_zero]

theorem headerStep_of_some {contentLength : Numeric} {buffer : List UInt8} {j : Nat}
    (h : indexOf (utf8Encode TWO_CRLF) buffer = some j) :
    headerStep contentLength buffer =
      (⟨headerContentLength (utf8Decode (buffer.take j)) contentLength, buffer.drop (j + 4)⟩, none, true) := by
  unfold headerStep; rw [h]; rfl

theorem headerStep_of_none {contentLength : Numeric} {buffer : List UInt8}
    (h : indexOf (utf8Encode TWO_CRLF) buffer = none) :
    headerStep contentLength buffer = (⟨contentLength, buffer⟩, none, false) := by
  unfold headerStep; rw [h]

theorem headerStep_append_of_some {contentLength : Numeric} {buffer : List UInt8} {j : Nat}
    (h : indexOf (utf8Encode TWO_CRLF) buffer = some j) (e : List UInt8) :
    headerStep contentLength (buffer ++ e) =
      ((headerStep contentLength buffer).1.extend e, none, true) := by
  have := length_add_le_of_indexOf h bytes_facts.2.1
  have h4 := length_TWO_CRLF.1
  rw [headerStep_of_some (indexOf_append_of_some h e), headerStep_of_some h,
    List.take_append_of_le_length (by omega), List.drop_append_of_le_length (by omega)]
  rfl

theorem step_of_geZero_of_le (p : StreamCommunicationProvider) (hge : p.contentLength.geZero = true)
    (hle : p.contentLength.le p.buffer.length = true) :
    step p = (⟨.finite (-1), p.buffer.drop p.contentLength.truncNat⟩,
      (let message := utf8Decode (p.buffer.take p.contentLength.truncNat)
       if message.length > 0 then some message else none), true) := by
  simp only [step, hge, hle, if_true]

theorem step_of_geZero_of_not_le (p : StreamCommunicationProvider) (hge : p.contentLength.geZero = true)
    (hle : ¬ p.contentLength.le p.buffer.length = true) : step p = (p, none, false) := by
  simp only [step, hge, hle, Bool.false_eq_true, if_true, if_false]

theorem step_of_not_geZero (p : StreamCommunicationProvider) (hge : ¬ p.contentLength.geZero = true) :
    step p = headerStep p.contentLength (dropUnrecognized p.buffer) := by
  simp only [step, hge, Bool.false_eq_true, if_false]

/-- With `contentLength = -1` the loop looks for a header. -/
theorem step_neg_one (buffer : List UInt8) :
    step ⟨.finite (-1), buffer⟩ = headerStep (.finite (-1)) (dropUnrecognized buffer) :=
  step_of_not_geZero _ (by simp)

/-- A header read from the buffer before any `Content-Length` has arrived sets nothing. -/
theorem headerContentLength_of_none {buffer : List UInt8}
    (h : indexOf (utf8Encode CONTENT_LENGTH) buffer = none) (j : Nat) (contentLength : Numeric) :
    headerContentLength (utf8Decode (buffer.take j)) contentLength = contentLength := by
  refine headerContentLength_of_absent (fun hinf => ?_) contentLength
  have := utf8Encode_infix_of_infix_utf8Decode bytes_facts.2.2.2.1 bytes_facts.2.2.2.2 _ hinf
  have htake : buffer.take j <+: buffer := List.take_prefix j buffer
  exact not_infix_of_indexOf_eq_none h (this.trans htake.isInfix)

theorem step_extend_of_le {p : StreamCommunicationProvider} (hge : p.contentLength.geZero = true)
    (hle : p.contentLength.le p.buffer.length = true) (e : List UInt8) :
    step (p.extend e) = ((step p).1.extend e, (step p).2) := by
  have hn := Numeric.truncNat_le hle
  rw [step_of_geZero_of_le (p.extend e) hge (Numeric.le_of_le hle (by simp [extend])),
    step_of_geZero_of_le p hge hle]
  simp only [extend, List.take_append_of_le_length hn, List.drop_append_of_le_length hn]

/-- A step that goes on from `p` goes on the same way from `p` with more bytes; or, when it
read a header before any `Content-Length` had arrived, the longer buffer drops those bytes and
the runs meet again. -/
theorem run_extend_of_continue {p p' : StreamCommunicationProvider} {message : Option (List Char)}
    (h : step p = (p', message, true)) (e : List UInt8) :
    run (p.extend e) = (message.toList ++ (run (p'.extend e)).1, (run (p'.extend e)).2) := by
  by_cases hge : p.contentLength.geZero = true
  · by_cases hle : p.contentLength.le p.buffer.length = true
    · exact run_of_continue (by rw [step_extend_of_le hge hle, h])
    · simp [step_of_geZero_of_not_le p hge hle] at h
  have hround := step_of_not_geZero p hge
  have hround' : step (p.extend e) = headerStep p.contentLength (dropUnrecognized (p.buffer ++ e)) :=
    step_of_not_geZero (p.extend e) hge
  rcases hcl : indexOf (utf8Encode CONTENT_LENGTH) p.buffer with _ | i
  · -- no `Content-Length` yet: the header read is one that sets nothing
    rw [hround, dropUnrecognized_of_none hcl] at h
    rcases htwo : indexOf (utf8Encode TWO_CRLF) p.buffer with _ | j
    · simp [headerStep_of_none htwo] at h
    rw [headerStep_of_some htwo, headerContentLength_of_none hcl] at h
    simp only [Prod.mk.injEq] at h
    obtain ⟨rfl, rfl, -⟩ := h
    have hj := length_add_le_of_indexOf htwo bytes_facts.2.1
    have h4 := length_TWO_CRLF.1
    rcases hq : indexOf (utf8Encode CONTENT_LENGTH) (p.buffer ++ e) with _ | q
    · -- it has not arrived with `e` either: the same step
      refine run_of_continue ?_
      rw [hround', dropUnrecognized_of_none hq, headerStep_append_of_some htwo, headerStep_of_some htwo,
        headerContentLength_of_none hcl]
    · -- it arrives with `e`, after the header: the longer buffer drops the header unread
      have hjq : j + 4 ≤ q := by
        rcases disjoint_of_prefix_drop (indexOf_eq_some_iff.1 hq).1
            ((indexOf_eq_some_iff.1 (indexOf_append_of_some htwo e)).1) bytes_facts.1 bytes_facts.2.1
            bytes_facts.2.2.1 with hqj | hjq
        · exact absurd (prefix_drop_of_prefix_drop_append (indexOf_eq_some_iff.1 hq).1 (by omega))
            (indexOf_eq_none_iff.1 hcl q)
        · simpa [length_TWO_CRLF.1] using hjq
      simp only [Option.toList, List.nil_append]
      refine run_congr ?_
      have hq' := indexOf_drop hq hjq
      rw [hround', step_of_not_geZero (StreamCommunicationProvider.extend
        ⟨p.contentLength, p.buffer.drop (j + 4)⟩ e) hge, dropUnrecognized_of_some hq]
      simp only [extend]
      rw [← List.drop_append_of_le_length (by omega), dropUnrecognized_of_some hq', List.drop_drop,
        show j + 4 + (q - (j + 4)) = q by omega]
  · -- the bytes before `Content-Length` are dropped from either buffer alike
    rw [hround] at h
    rcases htwo : indexOf (utf8Encode TWO_CRLF) (dropUnrecognized p.buffer) with _ | j
    · simp [headerStep_of_none htwo] at h
    rw [headerStep_of_some htwo, Prod.mk.injEq, Prod.mk.injEq] at h
    obtain ⟨rfl, rfl, -⟩ := h
    refine run_of_continue ?_
    rw [hround', dropUnrecognized_append_of_some hcl, headerStep_append_of_some htwo,
      headerStep_of_some htwo]

theorem run_extend_of_break {p p' : StreamCommunicationProvider} {message : Option (List Char)}
    (h : step p = (p', message, false)) (e : List UInt8) : run (p.extend e) = run (p'.extend e) := by
  by_cases hge : p.contentLength.geZero = true
  · by_cases hle : p.contentLength.le p.buffer.length = true
    · simp [step_of_geZero_of_le p hge hle] at h
    · rw [step_of_geZero_of_not_le p hge hle, Prod.mk.injEq] at h
      rw [← h.1]
  rw [step_of_not_geZero p hge] at h
  rcases htwo : indexOf (utf8Encode TWO_CRLF) (dropUnrecognized p.buffer) with _ | j
  · rw [headerStep_of_none htwo, Prod.mk.injEq] at h
    rw [← h.1]
    refine run_congr ?_
    rw [step_of_not_geZero (p.extend e) hge, step_of_not_geZero (StreamCommunicationProvider.extend
      ⟨p.contentLength, dropUnrecognized p.buffer⟩ e) hge]
    simp only [extend]
    rcases hcl : indexOf (utf8Encode CONTENT_LENGTH) p.buffer with _ | i
    · rw [dropUnrecognized_of_none hcl]
    · rw [dropUnrecognized_append_of_some hcl, dropUnrecognized_dropUnrecognized_append hcl]
  · simp [headerStep_of_some htwo] at h

/-- The loop on a longer buffer is the loop on the shorter one, then on what it left with the
rest appended. -/
theorem run_append (p : StreamCommunicationProvider) (e : List UInt8) :
    run (p.extend e) = ((run p).1 ++ (run ((run p).2.extend e)).1, (run ((run p).2.extend e)).2) := by
  induction' hm : p.measure using Nat.strong_induction_on with m ih generalizing p
  rcases hr : step p with ⟨p', message, _ | _⟩
  · rw [run_extend_of_break hr, run_of_break hr]; rfl
  · have hlt : p'.measure < m := by
      rw [← hm]; simpa [hr] using measure_round_lt (show (step p).2.2 = true by rw [hr])
    rw [run_extend_of_continue hr, run_of_continue hr, ih _ hlt p' rfl]
    simp

/-! ## Chunks -/

theorem handleData_append (p : StreamCommunicationProvider) (a b : List UInt8) :
    handleData p (a ++ b) =
      ((handleData p a).1 ++ (handleData (handleData p a).2 b).1, (handleData (handleData p a).2 b).2) := by
  have h := run_append (p.extend a) b
  simp only [extend, List.append_assoc] at h
  exact h

theorem feed_eq_handleData (p : StreamCommunicationProvider) {chunks : List (List UInt8)}
    (hne : chunks ≠ []) : feed p chunks = handleData p chunks.flatten := by
  induction chunks generalizing p with
  | nil => exact absurd rfl hne
  | cons data chunks ih =>
    cases chunks with
    | nil => simp [feed]
    | cons data' chunks =>
      rw [feed, ih _ (List.cons_ne_nil _ _),
        show (data :: data' :: chunks).flatten = data ++ (data' :: chunks).flatten from rfl,
        handleData_append]

theorem run_init : run init = ([], init) := by decide

/-- A new provider reads a stream the same whatever chunks it comes in. -/
theorem feed_init (chunks : List (List UInt8)) : feed init chunks = handleData init chunks.flatten := by
  cases chunks with
  | nil => exact run_init.symm
  | cons data chunks => exact feed_eq_handleData init (List.cons_ne_nil _ _)

end StreamCommunicationProvider

open StreamCommunicationProvider

theorem feed_chunkings (chunks₁ chunks₂ : List (List UInt8)) (h : chunks₁.flatten = chunks₂.flatten) :
    feed init chunks₁ = feed init chunks₂ ∧ feed init chunks₁ = feed init [chunks₁.flatten] := by
  refine ⟨by rw [feed_init, feed_init, h], ?_⟩
  rw [feed_init, feed_init, List.flatten_singleton]

theorem feed_chunkings_inside_header :
    let stream := send "hi".toList
    [stream.take 5, stream.drop 5].flatten = [stream].flatten ∧
      feed init [stream.take 5, stream.drop 5] = feed init [stream] ∧
      feed init [stream.take 5, stream.drop 5] = feed init [[stream.take 5, stream.drop 5].flatten] :=
  ⟨by simp, feed_chunkings _ _ (by simp)⟩



/-! ## Reading what `send` wrote -/

theorem send_eq (message : List Char) :
    send message = utf8Encode (contentLengthHeader (utf8Encode message).length) ++ utf8Encode TWO_CRLF ++
      (utf8Encode message) := by
  simp [send, contentLengthHeader]

theorem send_eq_CONTENT_LENGTH (message : List Char) :
    send message = utf8Encode CONTENT_LENGTH ++
      utf8Encode (": ".toList ++ decimal (utf8Encode message).length ++ TWO_CRLF ++ message) := by
  simp [send]

theorem not_mem_utf8Encode_contentLengthHeader (n : Nat) :
    (13 : UInt8) ∉ utf8Encode (contentLengthHeader n) := by
  have hascii : IsAscii (contentLengthHeader n) := fun c hc => (toNat_of_mem_contentLengthHeader hc).2
  rw [utf8Encode_of_isAscii hascii]
  intro h
  obtain ⟨c, hc, h13⟩ := List.mem_map.1 h
  have hb := toNat_of_mem_contentLengthHeader hc
  have := congrArg UInt8.toNat h13
  rw [toNat_toUInt8 (by omega), show (13 : UInt8).toNat = 13 from rfl] at this
  omega

/-- A step on a buffer that starts with what `send` wrote reads its header. -/
theorem step_send (message : List Char) (rest : List UInt8) :
    step ⟨.finite (-1), send message ++ rest⟩ =
      (⟨.finite (utf8Encode message).length, utf8Encode message ++ rest⟩, none, true) := by
  have hcl : indexOf (utf8Encode CONTENT_LENGTH) (send message ++ rest) = some 0 :=
    indexOf_of_starts (by rw [send_eq_CONTENT_LENGTH, List.append_assoc]; exact List.prefix_append _ _)
  have htwo : indexOf (utf8Encode TWO_CRLF) (send message ++ rest) =
      some (utf8Encode (contentLengthHeader (utf8Encode message).length)).length := by
    rw [send_eq, List.append_assoc]
    exact indexOf_append_of_not_mem (by decide) (not_mem_utf8Encode_contentLengthHeader _) _
  rw [step_neg_one, dropUnrecognized_of_some hcl, List.drop_zero, headerStep_of_some htwo, send_eq]
  simp only [List.append_assoc, List.take_left', utf8Decode_utf8Encode,
    headerContentLength_contentLengthHeader, List.drop_append, List.drop_left' length_TWO_CRLF.1]

/-- A step on a buffer that starts with a message's bytes, after its header, fires it. -/
theorem step_message (message : List Char) (rest : List UInt8) :
    step ⟨.finite (utf8Encode message).length, utf8Encode message ++ rest⟩ =
      (⟨.finite (-1), rest⟩, if message ≠ [] then some message else none, true) := by
  rw [step_of_geZero_of_le _ (by simp) (by simp)]
  simp [List.length_pos, utf8Decode_utf8Encode]

/-- The loop reads back what `send` wrote: each non-empty message, in order. -/
theorem run_sends (messages : List (List Char)) :
    run ⟨.finite (-1), (messages.map send).flatten⟩ = (messages.filter fun m => m ≠ [], init) := by
  induction messages with
  | nil => exact run_init
  | cons m ms ih =>
    rw [List.map_cons, List.flatten_cons, run_of_continue (step_send m _),
      run_of_continue (step_message m _), ih]
    by_cases hm : m = [] <;> simp [hm]

/-- Bytes before a message's `Content-Length`, with none in them, are dropped. -/
theorem run_garbage_send {garbage : List UInt8} (hg : ¬ utf8Encode CONTENT_LENGTH <:+: garbage)
    (message : List Char) (rest : List UInt8) :
    run ⟨.finite (-1), garbage ++ (send message ++ rest)⟩ = run ⟨.finite (-1), send message ++ rest⟩ := by
  refine run_congr ?_
  have hborder : ∀ k < (utf8Encode CONTENT_LENGTH).length, 0 < k →
      ¬ (utf8Encode CONTENT_LENGTH).drop k <+: utf8Encode CONTENT_LENGTH := by decide
  have hcl : indexOf (utf8Encode CONTENT_LENGTH) (garbage ++ (send message ++ rest)) =
      some garbage.length := by
    rw [send_eq_CONTENT_LENGTH, List.append_assoc, ← List.append_assoc garbage]
    exact indexOf_append_of_absent hg hborder _
  have hcl' : indexOf (utf8Encode CONTENT_LENGTH) (send message ++ rest) = some 0 :=
    indexOf_of_starts (by rw [send_eq_CONTENT_LENGTH, List.append_assoc]; exact List.prefix_append _ _)
  rw [step_neg_one, step_neg_one, dropUnrecognized_of_some hcl', dropUnrecognized_of_some hcl,
    List.drop_zero, List.drop_left]

/-- Bytes with no `Content-Length` in them fire nothing and set nothing. -/
theorem run_garbage {garbage : List UInt8} (hg : indexOf (utf8Encode CONTENT_LENGTH) garbage = none) :
    (run ⟨.finite (-1), garbage⟩).1 = [] ∧ (run ⟨.finite (-1), garbage⟩).2.contentLength = .finite (-1) := by
  induction' hlen : garbage.length using Nat.strong_induction_on with len ih generalizing garbage
  have hround : step ⟨.finite (-1), garbage⟩ = headerStep (.finite (-1)) garbage := by
    rw [step_neg_one, dropUnrecognized_of_none hg]
  rcases htwo : indexOf (utf8Encode TWO_CRLF) garbage with _ | j
  · rw [run_of_break (hround.trans (headerStep_of_none htwo))]
    exact ⟨rfl, rfl⟩
  · rw [headerStep_of_some htwo, headerContentLength_of_none hg] at hround
    have hj := length_add_le_of_indexOf htwo bytes_facts.2.1
    have h4 := length_TWO_CRLF.1
    rw [run_of_continue hround]
    exact ih _ (by simp; omega) (indexOf_drop_of_none hg _) rfl

theorem feed_sends (messages : List (List Char)) (garbage : List UInt8)
    (hg : ¬ utf8Encode CONTENT_LENGTH <:+: garbage) (chunks : List (List UInt8))
    (hchunks : chunks.flatten = garbage ++ (messages.map send).flatten) :
    (feed init chunks).1 = messages.filter (fun m => m ≠ []) ∧
      (feed init chunks).2.contentLength = .finite (-1) ∧
      (messages ≠ [] → (feed init chunks).2.buffer = []) := by
  rw [feed_init, hchunks, handleData]
  simp only [init, List.nil_append]
  cases messages with
  | nil =>
    simp only [List.map_nil, List.flatten_nil, List.append_nil]
    obtain ⟨h1, h2⟩ := run_garbage (indexOf_eq_none_of_absent hg)
    exact ⟨h1, h2, fun h => absurd rfl h⟩
  | cons m ms =>
    rw [List.map_cons, List.flatten_cons, run_garbage_send hg, ← List.flatten_cons, ← List.map_cons,
      run_sends]
    exact ⟨rfl, rfl, fun _ => rfl⟩

theorem feed_sends_after_garbage :
    let chunks := [[120] ++ (send "hi".toList).take 3, (send "hi".toList).drop 3]
    ¬ utf8Encode CONTENT_LENGTH <:+: [120] ∧ chunks.flatten = [120] ++ ([ "hi".toList ].map send).flatten ∧
      ((feed init chunks).1 = ["hi".toList].filter (fun m => m ≠ []) ∧
        (feed init chunks).2.contentLength = .finite (-1) ∧
        (["hi".toList] ≠ [] → (feed init chunks).2.buffer = [])) :=
  ⟨by decide, by simp, feed_sends ["hi".toList] [120] (by decide)
    [[120] ++ (send "hi".toList).take 3, (send "hi".toList).drop 3] (by simp)⟩

/-- Stray bytes with no message after them stay in the buffer. -/
theorem feed_garbage_stays :
    ¬ utf8Encode CONTENT_LENGTH <:+: [120] ∧ feed init [[120]] = ([], ⟨.finite (-1), [120]⟩) := by
  decide

end Theia.Debug
