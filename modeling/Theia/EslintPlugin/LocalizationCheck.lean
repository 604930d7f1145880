import Theia.Js.StringLiteral
/-!
# The `localization-check` lint rule

`localization-check` (`dev-packages/eslint-plugin/rules/localization-check.js`) looks at every call
`nls.localize(key, value, …)` and `nls.localizeByDefault(value, …)` whose message is a string
literal, against the set `messages` of default messages (`nls.metadata.json`, each `&&` removed).
A `localizeByDefault` of an unknown message is reported with the known message nearest by
`levenshtein`, and fixed to it; a `localize` of a known message is fixed to `localizeByDefault`.

`levenshtein` (`js-levenshtein`) is not in the sources: every result here holds for any distance.

* `lowest_spec`: the suggestion is the first message of least distance.
* `stringLiteralValue_fixLiteral`: the literal the fix writes reads back as the message exactly
  when the message has no `\`, LF or CR: the fix escapes `'` and nothing else.
* `check_applyFix_replaceMessage`, `check_applyFix_toLocalizeByDefault`: after its fix, a call
  passes the rule; for a `localizeByDefault` call, when the message the fix writes reads back.
-/

namespace Theia.EslintPlugin

open Theia.Js

/-! ## The default messages -/

/-- `e.replace(/&&/g, '')`: each `&&`, from the left, goes. -/
def removeAmpersands : List Char → List Char
  | '&' :: '&' :: rest => removeAmpersands rest
  | c :: rest => c :: removeAmpersands rest
  | [] => []

/-- `new Set(values)`: the values in order of first appearance. -/
def toSet (values : List (List Char)) : List (List Char) :=
  values.foldl (fun set value => if value ∈ set then set else set ++ [value]) []

/-- `messages`: the messages of each file of `metadata.messages` in order, the files from the last
to the first (`reduceRight`), each without `&&`, as a set. -/
def messagesOf (metadata : List (List (List Char))) : List (List Char) :=
  toSet ((metadata.foldr (fun curr prev => prev ++ curr) []).map removeAmpersands)

theorem mem_toSet {values : List (List Char)} {value : List Char} : value ∈ toSet values ↔ value ∈ values := by
  suffices h : ∀ set : List (List Char), value ∈ values.foldl (fun set value => if value ∈ set then set else set ++ [value]) set ↔
      value ∈ set ∨ value ∈ values by simpa using h []
  induction values with
  | nil => simp
  | cons first values ih =>
    intro set
    rw [List.foldl_cons, ih]
    by_cases hv : value = first
    · subst hv
      split <;> simp_all
    · split <;> simp [hv, or_comm, or_left_comm]

/-- A value is a default message exactly when some file has it, up to its `&&`. -/
theorem mem_messagesOf {metadata : List (List (List Char))} {value : List Char} :
    value ∈ messagesOf metadata ↔ ∃ file ∈ metadata, ∃ message ∈ file, removeAmpersands message = value := by
  have hfold : ∀ files : List (List (List Char)), ∀ message,
      message ∈ files.foldr (fun curr prev => prev ++ curr) [] ↔ ∃ file ∈ files, message ∈ file := by
    intro files message
    induction files with
    | nil => simp
    | cons file files ih => simp [ih, or_comm]
  simp only [messagesOf, mem_toSet, List.mem_map, hfold]
  constructor
  · rintro ⟨message, ⟨file, hfile, hmessage⟩, rfl⟩
    exact ⟨file, hfile, message, hmessage, rfl⟩
  · rintro ⟨file, hfile, message, hmessage, rfl⟩
    exact ⟨message, ⟨file, hfile, hmessage⟩, rfl⟩

/-! ## The suggestion -/

/-- One turn of `for (const message of messages)`: the message is the suggestion if it is nearer
than every one before it. `Number.MAX_VALUE`, the distance to start from, is `none`. -/
def lowestStep (levenshtein : List Char → List Char → Nat) (value : List Char)
    (lowest : Option Nat × List Char) (message : List Char) : Option Nat × List Char :=
  match lowest.1 with
  | some lowestDistance =>
    if levenshtein value message < lowestDistance then (some (levenshtein value message), message) else lowest
  | none => (some (levenshtein value message), message)

/-- `lowestDistance` and `lowestMessage` after the loop. -/
def lowest (levenshtein : List Char → List Char → Nat) (value : List Char) (messages : List (List Char)) :
    Option Nat × List Char :=
  messages.foldl (lowestStep levenshtein value) (none, [])

/-- `lowest` is the first of `messages` of least distance from `value`, with its distance. -/
def FirstLowest (levenshtein : List Char → List Char → Nat) (value : List Char) (messages : List (List Char))
    (lowest : Option Nat × List Char) : Prop :=
  lowest.1 = some (levenshtein value lowest.2) ∧ ∃ pre post, messages = pre ++ lowest.2 :: post ∧
    (∀ message ∈ pre, levenshtein value lowest.2 < levenshtein value message) ∧
    ∀ message ∈ post, levenshtein value lowest.2 ≤ levenshtein value message

theorem FirstLowest.lowestStep {levenshtein : List Char → List Char → Nat} {value : List Char}
    {messages : List (List Char)} {lowest : Option Nat × List Char}
    (h : FirstLowest levenshtein value messages lowest) (message : List Char) :
    FirstLowest levenshtein value (messages ++ [message]) (lowestStep levenshtein value lowest message) := by
  obtain ⟨hdistance, pre, post, rfl, hpre, hpost⟩ := h
  unfold EslintPlugin.lowestStep
  rw [hdistance]
  dsimp only
  split
  · rename_i hlt
    refine ⟨rfl, pre ++ lowest.2 :: post, [], by simp, fun m hm => ?_, by simp⟩
    simp only [List.mem_append, List.mem_cons] at hm
    rcases hm with hm | rfl | hm
    · exact hlt.trans (hpre m hm)
    · exact hlt
    · exact Nat.lt_of_lt_of_le hlt (hpost m hm)
  · rename_i hle
    refine ⟨hdistance, pre, post ++ [message], by simp, hpre, fun m hm => ?_⟩
    rcases List.mem_append.1 hm with hm | hm
    · exact hpost m hm
    · rw [List.mem_singleton.1 hm]; omega

/-- The loop, from a suggestion that is the first of least distance among the messages before it,
ends on the first of least distance among all of them. -/
theorem FirstLowest.foldl {levenshtein : List Char → List Char → Nat} {value : List Char}
    {pre : List (List Char)} {lowest : Option Nat × List Char} (h : FirstLowest levenshtein value pre lowest)
    (messages : List (List Char)) :
    FirstLowest levenshtein value (pre ++ messages) (messages.foldl (EslintPlugin.lowestStep levenshtein value) lowest) := by
  induction messages generalizing pre lowest with
  | nil => simpa using h
  | cons message messages ih => simpa using ih (h.lowestStep message)

theorem firstLowest_lowestStep_none (levenshtein : List Char → List Char → Nat) (value message : List Char) :
    FirstLowest levenshtein value [message] (lowestStep levenshtein value (none, []) message) :=
  ⟨rfl, [], [], rfl, nofun, nofun⟩

/-- The loop ends on the first message of least distance. -/
theorem lowest_spec (levenshtein : List Char → List Char → Nat) (value : List Char)
    {messages : List (List Char)} (h : messages ≠ []) :
    FirstLowest levenshtein value messages (lowest levenshtein value messages) := by
  obtain ⟨first, rest, rfl⟩ := List.exists_cons_of_ne_nil h
  exact (firstLowest_lowestStep_none levenshtein value first).foldl rest

/-- With `Open` and `Close` known, the suggestion for `Opne` by difference of length is `Open`. -/
theorem lowest_spec_open : ["Close".toList, "Open".toList] ≠ [] ∧
    FirstLowest (fun a b => a.length - b.length + (b.length - a.length)) "Opne".toList
      ["Close".toList, "Open".toList]
      (lowest (fun a b => a.length - b.length + (b.length - a.length)) "Opne".toList
        ["Close".toList, "Open".toList]) :=
  ⟨by decide, lowest_spec _ _ (by decide)⟩

/-- A suggestion is one of the messages. -/
theorem mem_of_lowest {levenshtein : List Char → List Char → Nat} {value : List Char}
    {messages : List (List Char)} (h : (lowest levenshtein value messages).2 ≠ []) :
    (lowest levenshtein value messages).2 ∈ messages := by
  cases messages with
  | nil => exact absurd rfl h
  | cons first rest =>
    obtain ⟨-, pre, post, hmessages, -⟩ := (firstLowest_lowestStep_none levenshtein value first).foldl rest
    rw [lowest, List.foldl_cons]
    show _ ∈ [first] ++ rest
    rw [hmessages]
    simp

/-! ## The calls and the rule -/

/-- An argument of a call as `evaluateLocalize` sees it: a string literal, or anything else. -/
inductive Argument where
  | stringLiteral (value : List Char)
  | other
  deriving DecidableEq, Repr

/-- The callee of a call: `super`, `object.property` of two names, or anything else. -/
inductive Callee where
  | super
  | member (object property : List Char)
  | other
  deriving DecidableEq, Repr

/-- The fields of a `CallExpression` the rule reads. -/
structure CallExpression where
  callee : Callee
  arguments : List Argument
  deriving DecidableEq, Repr

/-- `evaluateLocalize`: the message's value, and whether the call is `localizeByDefault`. -/
def evaluateLocalize (node : CallExpression) : Option (List Char × Bool) :=
  match node.callee with
  | .member object property =>
    if object = "nls".toList then
      if property = "localize".toList then
        match node.arguments[1]? with
        | some (Argument.stringLiteral value) => some (value, false)
        | _ => none
      else if property = "localizeByDefault".toList then
        match node.arguments[0]? with
        | some (Argument.stringLiteral value) => some (value, true)
        | _ => none
      else none
    else none
  | _ => none

/-- What a fix does to the source. -/
inductive Fix where
  /-- `fixer.replaceText(localizeNode, text)`: the message's literal becomes `text`. -/
  | replaceMessage (text : List Char)
  /-- `fixer.replaceText(node, updatedCall)`: the call becomes `nls.localizeByDefault(argsCode)`,
  given as the arguments it is written with. -/
  | toLocalizeByDefault (arguments : List Argument)
  deriving DecidableEq, Repr

/-- `context.report`: the message and the fix. -/
structure Report where
  message : List Char
  fix : Option Fix
  deriving DecidableEq, Repr

/-- `message.replace(/'/g, "\\'")`: each `'` after a `\`. -/
def escapeQuotes (message : List Char) : List Char :=
  message.flatMap fun c => if c = '\'' then ['\\', '\''] else [c]

/-- `'${lowestMessage.replace(/'/g, "\\'")}'`: the literal the fix of a `localizeByDefault` writes. -/
def fixLiteral (message : List Char) : List Char := '\'' :: (escapeQuotes message ++ ['\''])

/-- The `CallExpression` handler: what it reports on `node`. -/
def check (levenshtein : List Char → List Char → Nat) (messages : List (List Char)) (node : CallExpression) :
    Option Report :=
  match node.callee with
  | .super => none
  | _ =>
    match evaluateLocalize node with
    | some (value, byDefault) =>
      if value = [] then none
      else if byDefault ∧ value ∉ messages then
        let lowestMessage := (lowest levenshtein value messages).2
        if lowestMessage ≠ [] then
          some ⟨"'".toList ++ value ++ "' is not a valid default value. Did you mean '".toList ++
            lowestMessage ++ "'?".toList, some (.replaceMessage (fixLiteral lowestMessage))⟩
        else some ⟨"'".toList ++ value ++ "' is not a valid default value.".toList, none⟩
      else if ¬byDefault ∧ value ∈ messages then
        some ⟨"'".toList ++ value ++ "' can be translated using the 'nls.localizeByDefault' function.".toList,
          some (.toLocalizeByDefault (node.arguments.drop 1))⟩
      else none
    | none => none

/-- The call after a fix, as the fixed text parses: `none` when the literal the fix wrote is not
one. -/
def applyFix (node : CallExpression) : Fix → Option CallExpression
  | .replaceMessage text =>
    (stringLiteralValue text).map fun value => { node with arguments := node.arguments.set 0 (.stringLiteral value) }
  | .toLocalizeByDefault arguments => some ⟨.member "nls".toList "localizeByDefault".toList, arguments⟩

/-! ## The literal the fix writes, read back -/

@[simp] theorem escapeQuotes_nil : escapeQuotes [] = [] := rfl

theorem escapeQuotes_cons (c : Char) (message : List Char) :
    escapeQuotes (c :: message) = (if c = '\'' then ['\\', '\''] else [c]) ++ escapeQuotes message := by
  simp [escapeQuotes]

/-- A message without `\`, LF or CR. -/
def Clean (message : List Char) : Prop := ∀ c ∈ message, c ≠ '\\' ∧ c ≠ '\n' ∧ c ≠ '\r'

instance : DecidablePred Clean := fun message => inferInstanceAs (Decidable (∀ c ∈ message, _))

theorem stringLiteralValue_quote_eq_some {text value : List Char} :
    stringLiteralValue ('\'' :: text) = some value ↔ readLiteral (.chars .plain) text = some (value, []) := by
  simp only [stringLiteralValue]
  split <;> simp_all

/-- A character other than `'`, `\`, LF and CR stands for itself. -/
theorem step_plain {c : Char} (hq : c ≠ '\'') (hb : c ≠ '\\') (hlf : c ≠ '\n') (hcr : c ≠ '\r') :
    step (.chars .plain) c = .write [c] (.chars .plain) := by
  simp [step, hq, hb, hlf, hcr]

theorem readLiteral_plain_escaped_quote (rest : List Char) :
    readLiteral (.chars .plain) ('\\' :: '\'' :: rest) = prepend ['\''] (readLiteral (.chars .plain) rest) := by
  simp [readLiteral, step, singleEscape]

/-- A clean message is read back from its escaped text. -/
theorem readLiteral_escapeQuotes {message : List Char} (h : Clean message) :
    readLiteral (.chars .plain) (escapeQuotes message ++ ['\'']) = some (message, []) := by
  induction message with
  | nil => simp [readLiteral, step]
  | cons c message ih =>
    have ih' := ih fun d hd => h d (.tail _ hd)
    obtain ⟨hb, hlf, hcr⟩ := h c (.head _)
    by_cases hq : c = '\''
    · subst hq
      simp [escapeQuotes_cons, readLiteral_plain_escaped_quote, ih']
    · simp [escapeQuotes_cons, hq, readLiteral_cons, step_plain hq hb hlf hcr, ih']

/-- From any state, the value read from an escaped message and its closing `'` is no longer than
the message: every character writes at most one, and an escaped quote writes one for two. -/
theorem length_le_of_readLiteral_escapeQuotes (message : List Char) :
    ∀ (state : LiteralState) (value : List Char),
      readLiteral state (escapeQuotes message ++ ['\'']) = some (value, []) → value.length ≤ message.length := by
  induction message with
  | nil =>
    intro state value h
    rw [escapeQuotes_nil, List.nil_append, readLiteral_cons] at h
    split at h
    · cases h
    · simp only [Option.some.injEq, Prod.mk.injEq] at h
      simp [← h.1]
    · simp at h
  | cons c message ih =>
    intro state value h
    by_cases hq : c = '\''
    · subst hq
      rw [escapeQuotes_cons, if_pos rfl, List.append_assoc, List.cons_append, List.cons_append, List.nil_append] at h
      rcases readLiteral_escaped_quote state (escapeQuotes message ++ ['\'']) with h' | h' | h' <;> rw [h'] at h
      · cases h
      · simp at h
      · obtain ⟨⟨value', rest⟩, hread, heq⟩ := Option.map_eq_some'.1 h
        simp only [Prod.mk.injEq] at heq
        obtain ⟨rfl, rfl⟩ := heq
        simpa using ih _ _ hread
    · rw [escapeQuotes_cons, if_neg hq, List.singleton_append, List.cons_append, readLiteral_cons] at h
      split at h
      · cases h
      · rename_i hclose
        exact absurd (eq_quote_of_step_close hclose) hq
      · rename_i e next hwrite
        obtain ⟨⟨value', rest⟩, hread, heq⟩ := Option.map_eq_some'.1 h
        simp only [Prod.mk.injEq] at heq
        obtain ⟨rfl, rfl⟩ := heq
        have := ih _ _ hread
        have := length_le_one_of_step_write hwrite
        simp only [List.length_append, List.length_cons]
        omega

/-- A message with a `\`, LF or CR is not read back: the value is shorter, or there is none. -/
theorem length_lt_of_readLiteral_escapeQuotes {message : List Char} (h : ¬Clean message) {value : List Char}
    (hread : readLiteral (.chars .plain) (escapeQuotes message ++ ['\'']) = some (value, [])) :
    value.length < message.length := by
  induction message generalizing value with
  | nil => exact absurd (fun _ => nofun) h
  | cons c message ih =>
    by_cases hc : c ≠ '\\' ∧ c ≠ '\n' ∧ c ≠ '\r'
    · have hmessage : ¬Clean message := fun hclean =>
        h fun d hd => (List.mem_cons.1 hd).elim (fun hd => hd ▸ hc) (hclean d)
      by_cases hq : c = '\''
      · subst hq
        rw [escapeQuotes_cons, if_pos rfl, List.append_assoc, List.cons_append, List.cons_append, List.nil_append,
          readLiteral_plain_escaped_quote] at hread
        obtain ⟨⟨value', rest⟩, hread', heq⟩ := Option.map_eq_some'.1 hread
        simp only [Prod.mk.injEq] at heq
        obtain ⟨rfl, rfl⟩ := heq
        simpa using ih hmessage hread'
      · rw [escapeQuotes_cons, if_neg hq, List.singleton_append, List.cons_append, readLiteral_cons,
          step_plain hq hc.1 hc.2.1 hc.2.2] at hread
        obtain ⟨⟨value', rest⟩, hread', heq⟩ := Option.map_eq_some'.1 hread
        simp only [Prod.mk.injEq] at heq
        obtain ⟨rfl, rfl⟩ := heq
        simpa using ih hmessage hread'
    · rw [escapeQuotes_cons, if_neg (fun hq => hc (by subst hq; decide)), List.singleton_append, List.cons_append,
        readLiteral_cons] at hread
      simp only [not_and_or, not_not] at hc
      rcases hc with rfl | rfl | rfl
      · rw [show step (.chars .plain) '\\' = .write [] .escape by decide] at hread
        simp only [prepend_nil] at hread
        have := length_le_of_readLiteral_escapeQuotes message _ _ hread
        simp only [List.length_cons]
        omega
      · cases hread
      · cases hread

theorem stringLiteralValue_fixLiteral_of_clean {message : List Char} (h : Clean message) :
    stringLiteralValue (fixLiteral message) = some message :=
  stringLiteralValue_quote_eq_some.2 (readLiteral_escapeQuotes h)

/-- The literal the fix writes reads back as its message exactly when the message has no `\`, LF
or CR: the fix escapes each `'` and nothing else, so a `\` of the message starts an escape and a
line break ends the literal. -/
theorem stringLiteralValue_fixLiteral (message : List Char) :
    stringLiteralValue (fixLiteral message) = some message ↔
      ∀ c ∈ message, c ≠ '\\' ∧ c ≠ '\n' ∧ c ≠ '\r' := by
  refine ⟨fun h => ?_, stringLiteralValue_fixLiteral_of_clean⟩
  rw [fixLiteral, stringLiteralValue_quote_eq_some] at h
  by_contra hclean
  exact absurd (length_lt_of_readLiteral_escapeQuotes hclean h) (lt_irrefl _)

/-! ## What the rule reports, and what its fixes do -/

section Rule

variable {levenshtein : List Char → List Char → Nat} {messages : List (List Char)}

/-- The call `evaluateLocalize` reads: `nls.localizeByDefault` with the literal first, or
`nls.localize` with it second. -/
theorem evaluateLocalize_eq_some {node : CallExpression} {value : List Char} {byDefault : Bool}
    (h : evaluateLocalize node = some (value, byDefault)) :
    node.callee = .member "nls".toList (if byDefault then "localizeByDefault" else "localize").toList ∧
      node.arguments[if byDefault then 0 else 1]? = some (.stringLiteral value) := by
  unfold evaluateLocalize at h
  split at h
  · rename_i object property hcallee
    split_ifs at h with hobject hlocalize hbyDefault
    · split at h
      · rename_i hvalue
        cases h
        simp [hcallee, hobject, hlocalize, hvalue]
      · cases h
    · split at h
      · rename_i hvalue
        cases h
        simp [hcallee, hobject, hbyDefault, hvalue]
      · cases h
  · cases h

/-- A call `evaluateLocalize` reads is left alone when its message is empty, or known exactly when
the call is `localizeByDefault`. -/
theorem check_eq_none_of_evaluateLocalize {node : CallExpression} {value : List Char} {byDefault : Bool}
    (h : evaluateLocalize node = some (value, byDefault)) (hnone : value = [] ∨ (value ∈ messages ↔ byDefault)) :
    check levenshtein messages node = none := by
  simp only [check, (evaluateLocalize_eq_some h).1, h]
  rcases hnone with rfl | hmem
  · simp
  · cases byDefault <;> simp only [Bool.false_eq_true, iff_false, iff_true] at hmem <;> simp [hmem]

/-- What a report is made of: a call `evaluateLocalize` reads, with a non-empty message that is
either unknown to a `localizeByDefault`, with the suggestion's fix if there is a suggestion, or
known to a `localize`, with the fix to `localizeByDefault`. -/
theorem check_eq_some {node : CallExpression} {report : Report} (h : check levenshtein messages node = some report) :
    ∃ value byDefault, evaluateLocalize node = some (value, byDefault) ∧ value ≠ [] ∧
      ((byDefault = true ∧ value ∉ messages ∧
          report.fix = if (lowest levenshtein value messages).2 ≠ [] then
            some (.replaceMessage (fixLiteral (lowest levenshtein value messages).2)) else none) ∨
        (byDefault = false ∧ value ∈ messages ∧ report.fix = some (.toLocalizeByDefault (node.arguments.drop 1)))) := by
  unfold check at h
  split at h
  · cases h
  · split at h
    · rename_i value byDefault heval
      dsimp only at h
      split_ifs at h with hempty hunknown hlowest hknown <;> cases h
      · exact ⟨value, byDefault, heval, hempty, .inl ⟨hunknown.1, hunknown.2, by simp [hlowest]⟩⟩
      · exact ⟨value, byDefault, heval, hempty, .inl ⟨hunknown.1, hunknown.2, by simp [hlowest]⟩⟩
      · exact ⟨value, byDefault, heval, hempty, .inr ⟨by simpa using hknown.1, hknown.2, rfl⟩⟩
    · cases h

/-- A report whose fix replaces the message is on a `localizeByDefault` of an unknown message, and
its fix writes the suggestion. -/
theorem replaceMessage_of_check {node : CallExpression} {report : Report} {text : List Char}
    (hcheck : check levenshtein messages node = some report) (hfix : report.fix = some (.replaceMessage text)) :
    ∃ value, evaluateLocalize node = some (value, true) ∧ (lowest levenshtein value messages).2 ≠ [] ∧
      text = fixLiteral (lowest levenshtein value messages).2 := by
  obtain ⟨value, byDefault, heval, -, ⟨rfl, -, hreport⟩ | ⟨-, -, hreport⟩⟩ := check_eq_some hcheck <;>
    rw [hfix] at hreport
  · split at hreport
    · rename_i hlowest
      cases hreport
      exact ⟨value, heval, hlowest, rfl⟩
    · cases hreport
  · cases hreport

/-- A report whose fix makes the call a `localizeByDefault` is on a `localize` of a known message,
and the fix keeps the arguments after the key. -/
theorem toLocalizeByDefault_of_check {node : CallExpression} {report : Report} {arguments : List Argument}
    (hcheck : check levenshtein messages node = some report)
    (hfix : report.fix = some (.toLocalizeByDefault arguments)) :
    ∃ value, evaluateLocalize node = some (value, false) ∧ value ∈ messages ∧ arguments = node.arguments.drop 1 := by
  obtain ⟨value, byDefault, heval, -, ⟨-, -, hreport⟩ | ⟨rfl, hmem, hreport⟩⟩ := check_eq_some hcheck <;>
    rw [hfix] at hreport
  · split at hreport <;> cases hreport
  · cases hreport
    exact ⟨value, heval, hmem, rfl⟩

/-- After the fix of an unknown `localizeByDefault` message, the call passes the rule, when the
suggestion has no `\`, LF or CR: otherwise the literal the fix writes stands for another message,
or for none (`stringLiteralValue_fixLiteral`). -/
theorem check_applyFix_replaceMessage {node : CallExpression} {value : List Char}
    (hnode : evaluateLocalize node = some (value, true)) (hclean : Clean (lowest levenshtein value messages).2)
    {report : Report} {text : List Char} (hcheck : check levenshtein messages node = some report)
    (hfix : report.fix = some (.replaceMessage text)) :
    ∃ node', applyFix node (.replaceMessage text) = some node' ∧ check levenshtein messages node' = none := by
  obtain ⟨value', hnode', hlowest, rfl⟩ := replaceMessage_of_check hcheck hfix
  obtain rfl : value = value' := by
    rw [hnode] at hnode'
    cases hnode'
    rfl
  obtain ⟨hcallee, hfirst⟩ := evaluateLocalize_eq_some hnode
  simp only [if_true] at hcallee hfirst
  refine ⟨_, by rw [applyFix, stringLiteralValue_fixLiteral_of_clean hclean]; rfl,
    check_eq_none_of_evaluateLocalize (show evaluateLocalize _ = some ((lowest levenshtein value messages).2, true)
      from ?_) (.inr (iff_of_true (mem_of_lowest hlowest) rfl))⟩
  obtain ⟨hlength, -⟩ := List.getElem?_eq_some_iff.1 hfirst
  simp [evaluateLocalize, hcallee, hlength]

/-- `nls.localizeByDefault('Opne')`, with `Close` and `Open` known, is fixed to `'Open'`, which
passes. -/
theorem check_applyFix_replaceMessage_opne :
    ∃ node', applyFix ⟨.member "nls".toList "localizeByDefault".toList, [.stringLiteral "Opne".toList]⟩
        (.replaceMessage (fixLiteral "Open".toList)) = some node' ∧
      check (fun a b => a.length - b.length + (b.length - a.length)) ["Close".toList, "Open".toList] node' = none :=
  @check_applyFix_replaceMessage _ _ _ "Opne".toList (by decide) (by decide) _ _ (by rfl) (by rfl)

/-- After the fix of a `localize` of a known message, the call passes the rule. -/
theorem check_applyFix_toLocalizeByDefault {node : CallExpression} {report : Report}
    {arguments : List Argument} (hcheck : check levenshtein messages node = some report)
    (hfix : report.fix = some (.toLocalizeByDefault arguments)) :
    ∃ node', applyFix node (.toLocalizeByDefault arguments) = some node' ∧ check levenshtein messages node' = none := by
  obtain ⟨value, hnode, hmem, rfl⟩ := toLocalizeByDefault_of_check hcheck hfix
  have hsecond := (evaluateLocalize_eq_some hnode).2
  refine ⟨_, rfl, check_eq_none_of_evaluateLocalize (show evaluateLocalize _ = some (value, true) from ?_)
    (.inr (iff_of_true hmem rfl))⟩
  simp only [Bool.false_eq_true, if_false] at hsecond
  simp [evaluateLocalize, hsecond]

/-- `nls.localize('key', 'Open')`, with `Open` known, is fixed to `nls.localizeByDefault('Open')`,
which passes. -/
theorem check_applyFix_toLocalizeByDefault_open :
    ∃ node', applyFix ⟨.member "nls".toList "localize".toList, [.stringLiteral "key".toList, .stringLiteral "Open".toList]⟩
        (.toLocalizeByDefault [.stringLiteral "Open".toList]) = some node' ∧
      check (fun a b => a.length - b.length + (b.length - a.length)) ["Close".toList, "Open".toList] node' = none :=
  check_applyFix_toLocalizeByDefault (by rfl) (by rfl)

end Rule

end Theia.EslintPlugin
