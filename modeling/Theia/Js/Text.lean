import Mathlib.Data.List.Basic
import Mathlib.Tactic.IntervalCases

/-!
# JavaScript strings and numbers

The parsers of `dugite-git.ts` read git's output with the string methods of JavaScript. A
string is the list of its characters; everything the parsers split on is ASCII, so this is the
same as splitting the UTF-16 code units.

* `split`: `s.split(d)` for a one-character separator is `List.splitOn`, so its facts
  (`List.splitOn_intercalate`, `List.splitOnP_first`) are used by name.
* `trim`, `isWhiteSpace`: `String.prototype.trim` and the ECMAScript white space it removes.
* `JsNumber`, `parseInt`: `parseInt(s, 10)` yields an integer or `NaN`. Integers are exact here:
  the rounding of a double beyond `2 ^ 53` is not modelled.
* `IsDecimal`, `IsSignedDecimal`, `numeralValue`: the numerals git writes, and what they denote;
  `parseInt_signedDecimal` says `parseInt` reads them.
-/

namespace Theia.Js

/-! ## White space -/

/-- ECMAScript `LineTerminator`: LF, CR, U+2028 and U+2029. -/
def isLineTerminator (c : Char) : Bool :=
  c.toNat ∈ [0x0a, 0x0d, 0x2028, 0x2029]

/-- ECMAScript `WhiteSpace` (TAB, VT, FF, ZWNBSP and the `Zs` spaces) or a `LineTerminator`:
what `trim` removes and `parseInt` skips. -/
def isWhiteSpace (c : Char) : Bool :=
  c.toNat ∈ [0x09, 0x0b, 0x0c, 0x20, 0xa0, 0x1680, 0x202f, 0x205f, 0x3000, 0xfeff] ||
    (decide (0x2000 ≤ c.toNat) && decide (c.toNat ≤ 0x200a)) || isLineTerminator c

/-- `s.trim()`. -/
def trim (s : List Char) : List Char :=
  ((s.dropWhile isWhiteSpace).reverse.dropWhile isWhiteSpace).reverse

theorem isWhiteSpace_of_isDigit {c : Char} (h : c.isDigit = true) : isWhiteSpace c = false := by
  have h : 48 ≤ c.toNat ∧ c.toNat ≤ 57 := by
    simpa [Char.isDigit, Char.le_def] using h
  simp only [isWhiteSpace, isLineTerminator, List.mem_cons, List.not_mem_nil, Bool.or_eq_false_iff,
    decide_eq_false_iff_not, Bool.and_eq_false_imp, decide_eq_true_eq, or_false]
  omega

theorem isWhiteSpace_of_isAlpha {c : Char} (h : c.isAlpha = true) : isWhiteSpace c = false := by
  have h : (65 ≤ c.toNat ∧ c.toNat ≤ 90) ∨ (97 ≤ c.toNat ∧ c.toNat ≤ 122) := by
    simpa [Char.isAlpha, Char.isUpper, Char.isLower, Char.le_def] using h
  simp only [isWhiteSpace, isLineTerminator, List.mem_cons, List.not_mem_nil, Bool.or_eq_false_iff,
    decide_eq_false_iff_not, Bool.and_eq_false_imp, decide_eq_true_eq, or_false]
  omega

/-- `trim` leaves a string alone when it neither starts nor ends with white space. -/
theorem trim_eq_self {s : List Char} (hhead : ∀ c ∈ s.head?, isWhiteSpace c = false)
    (hlast : ∀ c ∈ s.getLast?, isWhiteSpace c = false) : trim s = s := by
  cases s with
  | nil => rfl
  | cons c cs =>
    have hc : isWhiteSpace c = false := hhead c rfl
    obtain ⟨init, d, hs⟩ : ∃ init d, c :: cs = init ++ [d] :=
      ⟨_, _, (List.dropLast_append_getLast (List.cons_ne_nil c cs)).symm⟩
    have hd : isWhiteSpace d = false := hlast d (by rw [hs]; simp)
    rw [trim, List.dropWhile_cons_of_neg (by simp [hc]), hs]
    simp [hd]

/-! ## Splitting -/

/-- Text without the delimiter is one part. -/
theorem splitOn_of_not_mem {d : Char} {l : List Char} (hl : d ∉ l) : l.splitOn d = [l] :=
  List.splitOnP_eq_single _ _ fun c hc hd => hl (by simpa using (beq_iff_eq.mp hd) ▸ hc)

/-- The parts hold no delimiter. -/
theorem not_mem_of_mem_splitOn {d : Char} {l piece : List Char} (h : piece ∈ l.splitOn d) : d ∉ piece := by
  induction l generalizing piece with
  | nil => rw [List.splitOn_nil, List.mem_singleton] at h; exact h ▸ List.not_mem_nil d
  | cons c l ih =>
    rw [List.splitOn, List.splitOnP_cons] at h
    split at h
    · rcases List.mem_cons.1 h with rfl | h
      · exact List.not_mem_nil d
      · exact ih h
    · rename_i hc
      obtain ⟨first, rest, hsplit⟩ := List.exists_cons_of_ne_nil (List.splitOnP_ne_nil (· == d) l)
      have hl : l.splitOn d = first :: rest := hsplit
      rw [hsplit, List.modifyHead_cons] at h
      rcases List.mem_cons.1 h with rfl | h
      · have hfirst : d ∉ first := ih (hl ▸ List.mem_cons_self first rest)
        rintro (_ | ⟨_, hd⟩)
        · exact hc (beq_self_eq_true d)
        · exact hfirst hd
      · exact ih (hl ▸ List.mem_cons_of_mem first h)

theorem intercalate_singleton (d : Char) (l : List Char) : [d].intercalate [l] = l := by
  simp [List.intercalate]

theorem intercalate_cons_cons (d : Char) (l l' : List Char) (ls : List (List Char)) :
    [d].intercalate (l :: l' :: ls) = l ++ d :: [d].intercalate (l' :: ls) := by
  simp [List.intercalate, List.intersperse_cons_cons]

/-- Joining two non-empty runs of pieces puts one delimiter between them. -/
theorem intercalate_append {d : Char} {ls ls' : List (List Char)} (hls : ls ≠ []) (hls' : ls' ≠ []) :
    [d].intercalate (ls ++ ls') = [d].intercalate ls ++ d :: [d].intercalate ls' := by
  induction ls with
  | nil => exact absurd rfl hls
  | cons l ls ih =>
    obtain ⟨l', ls'', rfl⟩ := List.exists_cons_of_ne_nil hls'
    cases ls with
    | nil => rw [List.singleton_append, intercalate_cons_cons, intercalate_singleton]
    | cons m ms =>
      have hcons : [d].intercalate (l :: ((m :: ms) ++ l' :: ls'')) =
          l ++ d :: [d].intercalate ((m :: ms) ++ l' :: ls'') := by
        rw [List.cons_append, intercalate_cons_cons, ← List.cons_append]
      rw [List.cons_append, hcons, ih (List.cons_ne_nil _ _), intercalate_cons_cons]
      simp

/-- Pieces joined before a last one: each earlier piece followed by the delimiter. -/
theorem intercalate_append_singleton (d : Char) (ls : List (List Char)) (l : List Char) :
    [d].intercalate (ls ++ [l]) = ls.flatMap (· ++ [d]) ++ l := by
  induction ls with
  | nil => exact intercalate_singleton d l
  | cons m ms ih =>
    obtain ⟨l', ls', hl'⟩ := List.exists_cons_of_ne_nil (List.append_ne_nil_of_right_ne_nil ms
      (List.cons_ne_nil l []))
    rw [List.cons_append, hl', intercalate_cons_cons, ← hl', ih]
    simp

/-- Non-empty pieces joined, then the delimiter: each piece followed by the delimiter. -/
theorem intercalate_append_delimiter {d : Char} {ls : List (List Char)} (hls : ls ≠ []) :
    [d].intercalate ls ++ [d] = ls.flatMap (· ++ [d]) := by
  rw [← List.dropLast_append_getLast hls, intercalate_append_singleton, List.flatMap_append]
  simp

/-- A piece without the delimiter, then the delimiter: the piece is the first part. -/
theorem splitOn_append_cons {d : Char} {l : List Char} (hl : d ∉ l) (rest : List Char) :
    (l ++ d :: rest).splitOn d = l :: rest.splitOn d :=
  List.splitOnP_first _ _ (fun c hc hd => hl (by simpa using (beq_iff_eq.mp hd) ▸ hc)) _
    (by simp) _

theorem splitOn_append_delimiter (d : Char) (s : List Char) :
    (s ++ [d]).splitOn d = s.splitOn d ++ [[]] := by
  induction s with
  | nil => simp [List.splitOn, List.splitOnP_cons]
  | cons c s ih =>
    simp only [List.splitOn] at ih ⊢
    rw [List.cons_append, List.splitOnP_cons, List.splitOnP_cons, ih]
    split
    · rfl
    · obtain ⟨w, ws, hw⟩ := List.exists_cons_of_ne_nil (List.splitOnP_ne_nil (· == d) s)
      rw [hw]; rfl

/-- Tokens each followed by the delimiter split back into the tokens and a last empty piece. -/
theorem splitOn_terminated (d : Char) (ls : List (List Char)) (h : ∀ l ∈ ls, d ∉ l) :
    (ls.flatMap (· ++ [d])).splitOn d = ls ++ [[]] := by
  induction ls with
  | nil => rfl
  | cons l ls ih =>
    rw [List.flatMap_cons, List.append_assoc, List.singleton_append, List.cons_append]
    simp only [List.splitOn] at ih ⊢
    rw [List.splitOnP_first _ _ (fun c hc hd => h l (by simp) (by simpa using (beq_iff_eq.mp hd) ▸ hc))
      _ (by simp), ih (fun l hl => h l (by simp [hl]))]

/-- A piece followed by pieces each introduced by the delimiter splits back into the pieces. -/
theorem splitOn_append_initiated (d : Char) (l : List Char) (ls : List (List Char))
    (hl : d ∉ l) (h : ∀ l ∈ ls, d ∉ l) : (l ++ ls.flatMap (d :: ·)).splitOn d = l :: ls := by
  induction ls generalizing l with
  | nil =>
    simp only [List.flatMap_nil, List.append_nil, List.splitOn]
    exact List.splitOnP_eq_single _ _ fun c hc hd => hl (by simpa using (beq_iff_eq.mp hd) ▸ hc)
  | cons l' ls ih =>
    rw [List.flatMap_cons, List.cons_append]
    simp only [List.splitOn] at ih ⊢
    rw [List.splitOnP_first _ _ (fun c hc hd => hl (by simpa using (beq_iff_eq.mp hd) ▸ hc)) _
      (by simp), ih l' (h l' (by simp)) (fun l hl => h l (by simp [hl]))]

/-! ## Numbers -/

/-- A JavaScript number as the parsers compute it: an integer, or `NaN`. -/
inductive JsNumber where
  | int (n : Int)
  | nan
  deriving DecidableEq, Repr

/-- Integer arithmetic on a number (`x - 1`, `x * 1000`, `x + offset`); `NaN` stays `NaN`. -/
def JsNumber.map (f : Int → Int) : JsNumber → JsNumber
  | .int n => .int (f n)
  | .nan => .nan

@[simp] theorem JsNumber.map_int (f : Int → Int) (n : Int) : (JsNumber.int n).map f = .int (f n) :=
  rfl

@[simp] theorem JsNumber.map_nan (f : Int → Int) : JsNumber.nan.map f = .nan := rfl

/-- The value of a run of decimal digits, most significant first. -/
def digitsValue (ds : List Char) : Nat :=
  ds.foldl (fun n d => 10 * n + (d.toNat - '0'.toNat)) 0

theorem digitsValue_append_digit (ds : List Char) (d : Char) :
    digitsValue (ds ++ [d]) = 10 * digitsValue ds + (d.toNat - '0'.toNat) := by
  simp [digitsValue]

/-- The sign `parseInt` reads: a leading `-` or `+` is taken off. -/
def readSign : List Char → Bool × List Char
  | '-' :: r => (true, r)
  | '+' :: r => (false, r)
  | r => (false, r)

/-- `parseInt(s, 10)`: leading white space, an optional sign, then the longest run of decimal
digits; `NaN` when there is no digit. -/
def parseInt (s : List Char) : JsNumber :=
  let (negative, rest) := readSign (s.dropWhile isWhiteSpace)
  match rest.takeWhile Char.isDigit with
  | [] => .nan
  | ds => .int (if negative then -(digitsValue ds : Int) else digitsValue ds)

/-- `parseInt(parts[i], 10)` for a part that may be missing: `parseInt(undefined)` is `NaN`. -/
def parseIntAt (parts : List (List Char)) (i : Nat) : JsNumber :=
  match parts[i]? with
  | some p => parseInt p
  | none => .nan

/-! ## Numerals -/

/-- A decimal numeral: a non-empty run of digits. -/
def IsDecimal (s : List Char) : Prop := s ≠ [] ∧ ∀ c ∈ s, c.isDigit = true

/-- A signed decimal numeral, as git writes times and zones (`1600000000`, `+0200`, `-0500`). -/
def IsSignedDecimal (s : List Char) : Prop :=
  IsDecimal s ∨ (∃ ds, s = '+' :: ds ∧ IsDecimal ds) ∨ (∃ ds, s = '-' :: ds ∧ IsDecimal ds)

/-- The integer a signed decimal numeral denotes. -/
def numeralValue : List Char → Int
  | '-' :: ds => -(digitsValue ds : Int)
  | '+' :: ds => digitsValue ds
  | ds => digitsValue ds

theorem readSign_of_isDigit {c : Char} (cs : List Char) (hc : c.isDigit = true) :
    readSign (c :: cs) = (false, c :: cs) := by
  have hm : c ≠ '-' := by rintro rfl; exact absurd hc (by decide)
  have hp : c ≠ '+' := by rintro rfl; exact absurd hc (by decide)
  unfold readSign
  split <;> simp_all

theorem numeralValue_of_isDigit {c : Char} (cs : List Char) (hc : c.isDigit = true) :
    numeralValue (c :: cs) = digitsValue (c :: cs) := by
  have hm : c ≠ '-' := by rintro rfl; exact absurd hc (by decide)
  have hp : c ≠ '+' := by rintro rfl; exact absurd hc (by decide)
  unfold numeralValue
  split <;> simp_all

/-- `parseInt` of a string that starts with its digits, after an optional sign. -/
theorem parseInt_digits (negative : Bool) (s ds : List Char) (hs : readSign s = (negative, ds))
    (hw : ∀ c ∈ s.head?, isWhiteSpace c = false) (h : IsDecimal ds) :
    parseInt s = .int (if negative then -(digitsValue ds : Int) else digitsValue ds) := by
  obtain ⟨hne, hd⟩ := h
  have hdrop : s.dropWhile isWhiteSpace = s := by
    cases s with
    | nil => rfl
    | cons c cs => exact List.dropWhile_cons_of_neg (by simp [hw c rfl])
  obtain ⟨c, cs, rfl⟩ := List.exists_cons_of_ne_nil hne
  simp only [parseInt, hdrop, hs, List.takeWhile_eq_self_iff.mpr hd]

theorem parseInt_signedDecimal {s : List Char} (h : IsSignedDecimal s) :
    parseInt s = .int (numeralValue s) := by
  rcases h with h | ⟨ds, rfl, h⟩ | ⟨ds, rfl, h⟩
  · obtain ⟨c, cs, rfl⟩ := List.exists_cons_of_ne_nil h.1
    have hc := h.2 c (by simp)
    rw [parseInt_digits false _ _ (readSign_of_isDigit cs hc)
      (by simp [isWhiteSpace_of_isDigit hc]) h, numeralValue_of_isDigit cs hc]
    rfl
  · rw [parseInt_digits false ('+' :: ds) ds rfl (by simp; decide) h]; rfl
  · rw [parseInt_digits true ('-' :: ds) ds rfl (by simp; decide) h]; rfl

theorem digitChar_isDigit {d : Nat} (h : d < 10) : (Char.ofNat (48 + d)).isDigit = true := by
  interval_cases d <;> rfl

theorem digitChar_toNat {d : Nat} (h : d < 10) : (Char.ofNat (48 + d)).toNat = 48 + d := by
  interval_cases d <;> rfl

/-- `n` written in decimal. -/
def decimal (n : Nat) : List Char :=
  (if n < 10 then [] else decimal (n / 10)) ++ [Char.ofNat (48 + n % 10)]
decreasing_by omega

theorem decimal_isDecimal (n : Nat) : IsDecimal (decimal n) := by
  induction n using Nat.strong_induction_on with
  | _ n ih =>
    rw [decimal]
    refine ⟨by simp, fun c hc => ?_⟩
    simp only [List.mem_append, List.mem_singleton] at hc
    rcases hc with hc | rfl
    · split at hc
      · simp at hc
      · exact (ih (n / 10) (by omega)).2 c hc
    · exact digitChar_isDigit (Nat.mod_lt _ (by omega))

theorem digitsValue_decimal (n : Nat) : digitsValue (decimal n) = n := by
  induction n using Nat.strong_induction_on with
  | _ n ih =>
    rw [decimal, digitsValue_append_digit, digitChar_toNat (Nat.mod_lt _ (by omega))]
    split
    · simp [digitsValue]; omega
    · rw [ih (n / 10) (by omega)]; simp; omega

/-- An integer written in decimal, with a `-` when negative. -/
def decimalInt : Int → List Char
  | .ofNat n => decimal n
  | .negSucc n => '-' :: decimal (n + 1)

theorem decimalInt_isSignedDecimal (t : Int) : IsSignedDecimal (decimalInt t) := by
  cases t with
  | ofNat n => exact Or.inl (decimal_isDecimal n)
  | negSucc n => exact Or.inr (Or.inr ⟨_, rfl, decimal_isDecimal (n + 1)⟩)

theorem numeralValue_decimalInt (t : Int) : numeralValue (decimalInt t) = t := by
  cases t with
  | ofNat n =>
    obtain ⟨hne, hd⟩ := decimal_isDecimal n
    obtain ⟨c, cs, hcs⟩ := List.exists_cons_of_ne_nil hne
    simp only [decimalInt, hcs, numeralValue_of_isDigit cs (hd c (by simp [hcs]))]
    rw [← hcs, digitsValue_decimal]
    rfl
  | negSucc n =>
    simp only [decimalInt, numeralValue, digitsValue_decimal]
    rfl

theorem parseInt_decimal {ds : List Char} (h : IsDecimal ds) : parseInt ds = .int (digitsValue ds) := by
  obtain ⟨c, cs, rfl⟩ := List.exists_cons_of_ne_nil h.1
  rw [parseInt_signedDecimal (Or.inl h), numeralValue_of_isDigit cs (h.2 c (by simp))]

/-- Characters at or above `k` are none of the control characters below it. -/
theorem not_mem_of_le_toNat {s : List Char} {k : Nat} (h : ∀ c ∈ s, k ≤ c.toNat) {d : Char}
    (hd : d.toNat < k) : d ∉ s :=
  fun hmem => absurd (h d hmem) (by omega)

theorem toNat_ge_of_isSignedDecimal {s : List Char} (h : IsSignedDecimal s) : ∀ c ∈ s, 43 ≤ c.toNat := by
  have hdigits : ∀ ds, IsDecimal ds → ∀ c ∈ ds, 43 ≤ c.toNat := fun ds h c hc => by
    have : 48 ≤ c.toNat ∧ c.toNat ≤ 57 := by simpa [Char.isDigit, Char.le_def] using h.2 c hc
    omega
  rcases h with h | ⟨ds, rfl, h⟩ | ⟨ds, rfl, h⟩
  · exact hdigits s h
  all_goals
    intro c hc
    rcases List.mem_cons.mp hc with rfl | hc
    · decide
    · exact hdigits ds h c hc

theorem parseInt_decimalInt (t : Int) : parseInt (decimalInt t) = .int t := by
  rw [parseInt_signedDecimal (decimalInt_isSignedDecimal t), numeralValue_decimalInt]

end Theia.Js
