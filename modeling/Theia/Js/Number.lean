import Mathlib.Data.Rat.Floor
import Theia.Js.Text
/-!
# JavaScript's unary plus on strings

`StreamCommunicationProvider.handleData` reads a header's length with `+pair[1]`, ECMAScript's
`StringToNumber`: white space around the literal is ignored, an empty string is `0`, a literal is
a decimal with optional fraction and exponent, `Infinity`, or a `0b`/`0o`/`0x` integer, and
anything else is `NaN`.

* `Numeric` is the number `+s` yields. A finite value is an exact rational: the rounding of a
  double is not modelled (nor `-0`, which compares and slices as `0`).
* `toNumber` is `+s`; `toNumber_decimal` says it reads back the decimal numerals `send` writes.
* `geZero`, `le`, `truncNat` are the comparisons and the offset the stream takes from its
  `contentLength`.
-/

namespace Theia.Js

/-- A JavaScript number as `+s` yields it. -/
inductive Numeric where
  | nan
  | infinity (negative : Bool)
  | finite (q : ℚ)
  deriving DecidableEq, Repr

namespace Numeric

/-- `x >= 0`. -/
def geZero : Numeric → Bool
  | .finite q => decide (0 ≤ q)
  | .infinity negative => !negative
  | .nan => false

/-- `n >= x`, for a natural number `n` such as a buffer's length. -/
def le (x : Numeric) (n : Nat) : Bool :=
  match x with
  | .finite q => decide (q ≤ n)
  | .infinity negative => negative
  | .nan => false

/-- The offset `Buffer.slice(x)` and `toString(_, 0, x)` use for a finite `0 ≤ x`: `x` truncated
(both read `Math.trunc(x)`; `toString` reads `x | 0`, the same below `2 ^ 31`). -/
def truncNat : Numeric → Nat
  | .finite q => ⌊q⌋.toNat
  | _ => 0

theorem truncNat_le {x : Numeric} {n : Nat} (h : x.le n = true) : x.truncNat ≤ n := by
  cases x with
  | finite q =>
    have hq : q ≤ n := by simpa [le] using h
    have : ⌊q⌋ ≤ n := (Int.floor_mono hq).trans_eq (Int.floor_natCast n)
    simp only [truncNat]; omega
  | _ => exact Nat.zero_le _

theorem le_of_le {x : Numeric} {n m : Nat} (h : x.le n = true) (hnm : n ≤ m) : x.le m = true := by
  cases x with
  | finite q =>
    simp only [le, decide_eq_true_eq] at h ⊢
    exact h.trans (by exact_mod_cast hnm)
  | _ => exact h

@[simp] theorem geZero_finite_nat (n : Nat) : (finite n).geZero = true := by simp [geZero]

@[simp] theorem le_finite_nat (n m : Nat) : (finite n).le m = decide (n ≤ m) := by simp [le]

@[simp] theorem truncNat_finite_nat (n : Nat) : (finite n).truncNat = n := by simp [truncNat]

@[simp] theorem geZero_neg_one : (finite (-1)).geZero = false := by decide

end Numeric

/-! ## `StringToNumber` -/

/-- The value of a run of digits in `base`, if they are all digits of it. -/
def digitsIn (base : Nat) (ds : List Char) : Option Nat :=
  ds.foldlM (fun n c =>
    let d := if c.isDigit then c.toNat - '0'.toNat
      else if 'a' ≤ c ∧ c ≤ 'f' then c.toNat - 'a'.toNat + 10
      else if 'A' ≤ c ∧ c ≤ 'F' then c.toNat - 'A'.toNat + 10
      else base
    if d < base then some (base * n + d) else none) 0

/-- `NonDecimalIntegerLiteral`: `0b`, `0o` or `0x`, in either case, then one or more digits of
that base. -/
def nonDecimal : List Char → Option Nat
  | '0' :: p :: ds =>
    let base := if p = 'b' ∨ p = 'B' then 2 else if p = 'o' ∨ p = 'O' then 8
      else if p = 'x' ∨ p = 'X' then 16 else 0
    if base = 0 ∨ ds = [] then none else digitsIn base ds
  | _ => none

/-- `StrUnsignedDecimalLiteral` other than `Infinity`: digits, an optional fraction and an optional
exponent, with a digit before or after the point. -/
def unsignedDecimal (s : List Char) : Option ℚ :=
  let int := s.takeWhile Char.isDigit
  let (frac, rest) := match s.dropWhile Char.isDigit with
    | '.' :: r => (r.takeWhile Char.isDigit, r.dropWhile Char.isDigit)
    | r => ([], r)
  if int = [] ∧ frac = [] then none
  else
    let mantissa : ℚ := (digitsValue (int ++ frac) : ℚ) / 10 ^ frac.length
    match rest with
    | [] => some mantissa
    | e :: r =>
      if e = 'e' ∨ e = 'E' then
        let (negative, ds) := readSign r
        if ds ≠ [] ∧ ds.all Char.isDigit then
          some (mantissa * 10 ^ (if negative then -(digitsValue ds : Int) else digitsValue ds))
        else none
      else none

/-- `StrDecimalLiteral`: an optional sign, then `Infinity` or an unsigned decimal literal. -/
def strDecimal (s : List Char) : Option Numeric :=
  let (negative, r) := readSign s
  if r = "Infinity".toList then some (.infinity negative)
  else (unsignedDecimal r).map fun q => .finite (if negative then -q else q)

/-- `+s`, ECMAScript's `StringToNumber`. -/
def toNumber (s : List Char) : Numeric :=
  let t := trim s
  if t = [] then .finite 0
  else
    match nonDecimal t with
    | some n => .finite n
    | none => (strDecimal t).getD .nan

/-- `+x` for `x` that may be `undefined`, which is `NaN`. -/
def toNumberOpt : Option (List Char) → Numeric
  | some s => toNumber s
  | none => .nan

/-! ## Reading back a decimal numeral -/

theorem nonDecimal_of_isDecimal {s : List Char} (h : IsDecimal s) : nonDecimal s = none := by
  unfold nonDecimal
  split
  · rename_i p ds
    have hdigit : 48 ≤ p.toNat ∧ p.toNat ≤ 57 := by
      simpa [Char.isDigit, Char.le_def] using h.2 p (by simp)
    have hne : ∀ c : Char, 57 < c.toNat → p ≠ c := fun c hc hpc => by subst hpc; omega
    simp [hne 'b' (by decide), hne 'B' (by decide), hne 'o' (by decide), hne 'O' (by decide),
      hne 'x' (by decide), hne 'X' (by decide)]
  · rfl

theorem unsignedDecimal_of_isDecimal {s : List Char} (h : IsDecimal s) :
    unsignedDecimal s = some (digitsValue s) := by
  simp [unsignedDecimal, List.takeWhile_eq_self_iff.2 h.2, List.dropWhile_eq_nil_iff.2 h.2, h.1]

/-- `+` reads back a decimal numeral. -/
theorem toNumber_isDecimal {s : List Char} (h : IsDecimal s) : toNumber s = .finite (digitsValue s) := by
  obtain ⟨c, cs, rfl⟩ := List.exists_cons_of_ne_nil h.1
  have hc := h.2 c (by simp)
  have hlast : ∀ d ∈ (c :: cs).getLast?, isWhiteSpace d = false := fun d hd =>
    isWhiteSpace_of_isDigit (h.2 d (List.mem_of_mem_getLast? hd))
  have hI : c :: cs ≠ "Infinity".toList := by
    rintro hcs; simp only [String.toList, List.cons.injEq] at hcs; rw [hcs.1] at hc; exact absurd hc (by decide)
  simp only [toNumber, trim_eq_self (by simpa using isWhiteSpace_of_isDigit hc) hlast,
    if_neg h.1, nonDecimal_of_isDecimal h, strDecimal, readSign_of_isDigit cs hc, if_neg hI,
    unsignedDecimal_of_isDecimal h]
  rfl

theorem toNumber_decimal (n : Nat) : toNumber (decimal n) = .finite n := by
  rw [toNumber_isDecimal (decimal_isDecimal n), digitsValue_decimal]

end Theia.Js
