import Mathlib.Data.List.Basic
/-!
# Single-quoted string literals of ECMAScript

`stringLiteralValue` reads the text of one `'…'` literal as a parser of strict-mode code reads it
(ECMAScript, String Literals): its string value, or `none` when the text is not exactly one such
literal. The reader is a machine over the characters, `readLiteral`, whose state says what the
characters read so far still ask for.

A string is the list of its code points here, so an escape that stands for a lone surrogate
(`\uD800`) has no value and is read as `none`.

* `step`: what one character does, in every state: the reader fails, closes the literal (only
  at a `'`), or writes at most one character and goes on (`step_sound`). `readLiteral` runs it
  over the text.
* `readLiteral_escaped_quote`: what `\'` does, in every state.
-/

namespace Theia.Js

/-- What the escape just read asks of the next character: nothing, not a digit (after `\0`), or
nothing but an LF it takes as its own (after `\` CR). -/
inductive After where
  | plain
  | zero
  | cr
  deriving DecidableEq, Repr

/-- Where the reader is in a literal. -/
inductive LiteralState where
  /-- Between characters. -/
  | chars (after : After)
  /-- After a `\`. -/
  | escape
  /-- After `\u`. -/
  | unicode
  /-- In `\xHH` or `\uHHHH`: the hex digits still to read, and the value so far. -/
  | hex (left value : Nat)
  /-- In `\u{…}`: the value so far and the number of digits read. -/
  | braced (value digits : Nat)
  deriving DecidableEq, Repr

/-- `SingleEscapeCharacter`, and the character its escape stands for. -/
def singleEscape : Char → Option Char
  | '\'' => some '\''
  | '"' => some '"'
  | '\\' => some '\\'
  | 'b' => some '\x08'
  | 'f' => some '\x0c'
  | 'n' => some '\n'
  | 'r' => some '\r'
  | 't' => some '\t'
  | 'v' => some '\x0b'
  | _ => none

/-- The value of a `HexDigit`. -/
def hexDigitValue (c : Char) : Option Nat :=
  if '0' ≤ c ∧ c ≤ '9' then some (c.toNat - 48)
  else if 'a' ≤ c ∧ c ≤ 'f' then some (c.toNat - 87)
  else if 'A' ≤ c ∧ c ≤ 'F' then some (c.toNat - 55)
  else none

/-- The character of code point `n`, unless `n` is a surrogate or beyond Unicode. -/
def codePoint (n : Nat) : Option Char := if n.isValidChar then some (Char.ofNat n) else none

/-- What one character does to the reader. -/
inductive Step where
  /-- The text is not a literal. -/
  | fail
  /-- The closing `'`. -/
  | close
  /-- Writes `e` to the value and goes on in `next`. -/
  | write (e : List Char) (next : LiteralState)
  deriving DecidableEq, Repr

/-- The transition of the reader on the character `c`. -/
def step : LiteralState → Char → Step
  | .chars after, c =>
    if after = .cr ∧ c = '\n' then .write [] (.chars .plain)
    else if after = .zero ∧ c.isDigit then .fail
    else if c = '\'' then .close
    else if c = '\\' then .write [] .escape
    else if c = '\n' ∨ c = '\r' then .fail
    else .write [c] (.chars .plain)
  | .escape, c =>
    if c = '\n' ∨ c = '\u2028' ∨ c = '\u2029' then .write [] (.chars .plain)
    else if c = '\r' then .write [] (.chars .cr)
    else match singleEscape c with
      | some v => .write [v] (.chars .plain)
      | none =>
        if c = '0' then .write ['\x00'] (.chars .zero)
        else if c.isDigit then .fail
        else if c = 'x' then .write [] (.hex 2 0)
        else if c = 'u' then .write [] .unicode
        else .write [c] (.chars .plain)
  | .unicode, c =>
    if c = '{' then .write [] (.braced 0 0)
    else match hexDigitValue c with
      | some v => .write [] (.hex 3 v)
      | none => .fail
  | .hex left value, c =>
    match hexDigitValue c with
    | some v =>
      if left ≤ 1 then
        match codePoint (value * 16 + v) with
        | some ch => .write [ch] (.chars .plain)
        | none => .fail
      else .write [] (.hex (left - 1) (value * 16 + v))
    | none => .fail
  | .braced value digits, c =>
    if c = '}' then
      if 0 < digits ∧ value ≤ 0x10FFFF then
        match codePoint value with
        | some ch => .write [ch] (.chars .plain)
        | none => .fail
      else .fail
    else match hexDigitValue c with
      | some v => .write [] (.braced (value * 16 + v) (digits + 1))
      | none => .fail

/-- Writes `e` before the value read after it. -/
def prepend (e : List Char) : Option (List Char × List Char) → Option (List Char × List Char) :=
  Option.map fun read => (e ++ read.1, read.2)

/-- The rest of a literal from `state`: its value up to the closing `'`, and the text after it. -/
def readLiteral : LiteralState → List Char → Option (List Char × List Char)
  | _, [] => none
  | state, c :: rest =>
    match step state c with
    | .fail => none
    | .close => some ([], rest)
    | .write e next => prepend e (readLiteral next rest)

/-- The string value of `text` read as one single-quoted literal. -/
def stringLiteralValue : List Char → Option (List Char)
  | '\'' :: rest =>
    match readLiteral (.chars .plain) rest with
    | some (value, []) => some value
    | _ => none
  | _ => none

@[simp] theorem prepend_nil (read : Option (List Char × List Char)) : prepend [] read = read := by
  cases read <;> rfl

@[simp] theorem prepend_none (e : List Char) : prepend e none = none := rfl

@[simp] theorem prepend_some (e value rest : List Char) :
    prepend e (some (value, rest)) = some (e ++ value, rest) := rfl

@[simp] theorem readLiteral_nil (state : LiteralState) : readLiteral state [] = none := by
  cases state <;> rfl

theorem readLiteral_cons (state : LiteralState) (c : Char) (rest : List Char) :
    readLiteral state (c :: rest) =
      match step state c with
      | .fail => none
      | .close => some ([], rest)
      | .write e next => prepend e (readLiteral next rest) := rfl

/-- What a character may do: fail, close the literal at a `'`, or write at most one character. -/
def Step.Sound (c : Char) : Step → Prop
  | .fail => True
  | .close => c = '\''
  | .write e _ => e.length ≤ 1

theorem step_sound (state : LiteralState) (c : Char) : (step state c).Sound c := by
  cases state <;> dsimp only [step] <;> repeat' split
  all_goals first | assumption | simp [Step.Sound]

/-- Only a `'` closes the literal. -/
theorem eq_quote_of_step_close {state : LiteralState} {c : Char} (h : step state c = .close) : c = '\'' := by
  simpa [h, Step.Sound] using step_sound state c

/-- A character writes at most one character. -/
theorem length_le_one_of_step_write {state next : LiteralState} {c : Char} {e : List Char}
    (h : step state c = .write e next) : e.length ≤ 1 := by
  simpa [h, Step.Sound] using step_sound state c

/-- `\'`, in any state: the reader fails, reads `\\` and closes at the `'`, or reads the quote. -/
theorem readLiteral_escaped_quote (state : LiteralState) (rest : List Char) :
    readLiteral state ('\\' :: '\'' :: rest) = none ∨
      readLiteral state ('\\' :: '\'' :: rest) = some (['\\'], rest) ∨
      readLiteral state ('\\' :: '\'' :: rest) = prepend ['\''] (readLiteral (.chars .plain) rest) := by
  cases state with
  | chars after => cases after <;> simp [readLiteral, step, singleEscape]
  | escape => simp [readLiteral, step, singleEscape]
  | unicode => simp [readLiteral, step, hexDigitValue]
  | hex left value => simp [readLiteral, step, hexDigitValue]
  | braced value digits => simp [readLiteral, step, hexDigitValue]

end Theia.Js
