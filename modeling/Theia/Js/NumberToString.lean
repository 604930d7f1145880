import Mathlib.Data.Rat.Floor
import Theia.Js.Text
/-!
# `Number::toString`: how a number is written into a string

`buildSearchUri` writes the size and the offset of a search with `'size=' + param.size`, which
converts the number with ECMAScript's `Number::toString(x, 10)`. The conversion writes `x` from
the shortest decimal `s × 10 ^ (n - k)` that reads back as `x`, where `s` has `k` digits: in plain
notation for `10 ^ -7 ≤ |x| < 10 ^ 21`, and with an exponent, `e+` or `e-`, outside.

* `NumberValue` is a number by that decimal. Which decimals are the shortest of a double, the
  rounding of a double, is not modelled: a decimal stands for itself.
* `value_bounds`: `10 ^ (n - 1) ≤ |x| < 10 ^ n`, so `plus_mem_toString_iff`: the text of `x` holds
  a `+` exactly when `|x| ≥ 10 ^ 21`.
-/

namespace Theia.Js

/-! ## Digits -/

theorem length_decimal (m : Nat) :
    (decimal m).length = if m < 10 then 1 else (decimal (m / 10)).length + 1 := by
  rw [decimal]
  split <;> simp

/-- `m > 0` has `k` digits when `10 ^ (k - 1) ≤ m < 10 ^ k`. -/
theorem decimal_length_bounds (m : Nat) :
    m < 10 ^ (decimal m).length ∧ (0 < m → 10 ^ ((decimal m).length - 1) ≤ m) := by
  induction m using Nat.strong_induction_on with
  | _ m ih =>
    rw [length_decimal]
    split
    · exact ⟨by simpa using ‹m < 10›, fun hm => by simpa using hm⟩
    · obtain ⟨hlt, hle⟩ := ih (m / 10) (by omega)
      obtain ⟨L, hL⟩ : ∃ L, (decimal (m / 10)).length = L + 1 :=
        ⟨_, (Nat.succ_pred_eq_of_pos (List.length_pos.2 (decimal_isDecimal _).1)).symm⟩
      rw [hL] at hlt hle ⊢
      have hle : 10 ^ L ≤ m / 10 := hle (by omega)
      rw [Nat.pow_succ] at hlt
      refine ⟨by rw [Nat.pow_succ]; omega, fun _ => ?_⟩
      calc 10 ^ (L + 1 + 1 - 1) = 10 ^ L * 10 := by rw [Nat.add_sub_cancel, Nat.pow_succ]
        _ ≤ m / 10 * 10 := Nat.mul_le_mul_right 10 hle
        _ ≤ m := Nat.div_mul_le_self m 10

theorem plus_not_mem_decimal (m : Nat) : '+' ∉ decimal m := fun h =>
  absurd ((decimal_isDecimal m).2 _ h) (by decide)

/-! ## Numbers -/

/-- A finite non-zero magnitude by its shortest decimal `s × 10 ^ (n - k)`, where `s` has `k`
digits. Since `k` is as small as possible, `s` has no trailing zero. -/
structure ShortestDecimal where
  s : Nat
  n : Int
  s_mod_ten : s % 10 ≠ 0

/-- A value of ECMAScript's Number type: `NaN`, zero (`-0` is written and tested as `+0`), an
infinity, or a finite non-zero number by its sign and magnitude. -/
inductive NumberValue where
  | nan
  | zero
  | infinity (negative : Bool)
  | finite (negative : Bool) (d : ShortestDecimal)

/-- The characters a number's text is made of: letters and digits, `.`, `-` and `+`. -/
def isNumberChar (c : Char) : Bool := c.isAlphanum || c == '.' || c == '-' || c == '+'

namespace ShortestDecimal

/-- `k`, the number of digits of `s`. -/
def k (d : ShortestDecimal) : Nat := (decimal d.s).length

/-- The magnitude, `s × 10 ^ (n - k)`. -/
def value (d : ShortestDecimal) : ℚ := d.s * 10 ^ (d.n - d.k)

/-- Steps 6 to 10 of `Number::toString(x, 10)`, for `x > 0`. -/
def toString (d : ShortestDecimal) : List Char :=
  let digits := decimal d.s
  if (d.k : Int) ≤ d.n ∧ d.n ≤ 21 then digits ++ List.replicate (d.n - d.k).toNat '0'
  else if 0 < d.n ∧ d.n ≤ 21 then digits.take d.n.toNat ++ '.' :: digits.drop d.n.toNat
  else if -6 < d.n ∧ d.n ≤ 0 then '0' :: '.' :: (List.replicate (-d.n).toNat '0' ++ digits)
  else
    let exponent := 'e' :: (if 0 < d.n - 1 then '+' else '-') :: decimal (d.n - 1).natAbs
    (if d.k = 1 then digits else digits.take 1 ++ '.' :: digits.drop 1) ++ exponent

theorem s_pos (d : ShortestDecimal) : 0 < d.s := Nat.pos_of_ne_zero fun h => d.s_mod_ten (by simp [h])

/-- The magnitude has `n` digits before the point: `10 ^ (n - 1) ≤ x < 10 ^ n`. -/
theorem value_bounds (d : ShortestDecimal) : (10 : ℚ) ^ (d.n - 1) ≤ d.value ∧ d.value < 10 ^ d.n := by
  obtain ⟨hlt, hle⟩ := decimal_length_bounds d.s
  have hk : 0 < d.k := List.length_pos.2 (decimal_isDecimal d.s).1
  have h10 : (0 : ℚ) < 10 := by norm_num
  have hpow : (0 : ℚ) < 10 ^ (d.n - d.k) := zpow_pos h10 _
  have hlt' : (d.s : ℚ) < 10 ^ (d.k : Int) := by exact_mod_cast hlt
  have hle' : (10 : ℚ) ^ ((d.k : Int) - 1) ≤ d.s := by
    have : ((d.k - 1 : Nat) : Int) = (d.k : Int) - 1 := by omega
    rw [← this, zpow_natCast]
    exact_mod_cast hle d.s_pos
  constructor
  · calc (10 : ℚ) ^ (d.n - 1) = 10 ^ ((d.k : Int) - 1) * 10 ^ (d.n - d.k) := by
          rw [← zpow_add₀ h10.ne', sub_add_sub_cancel']
      _ ≤ d.value := mul_le_mul_of_nonneg_right hle' hpow.le
  · calc d.value < 10 ^ (d.k : Int) * 10 ^ (d.n - d.k) := mul_lt_mul_of_pos_right hlt' hpow
      _ = 10 ^ d.n := by rw [← zpow_add₀ h10.ne', add_sub_cancel]

theorem le_value_iff (d : ShortestDecimal) : (10 : ℚ) ^ 21 ≤ d.value ↔ 21 < d.n := by
  obtain ⟨hlo, hhi⟩ := value_bounds d
  have h21 : (10 : ℚ) ^ 21 = 10 ^ (21 : Int) := (zpow_natCast 10 21).symm
  rw [h21]
  constructor
  · intro h
    by_contra hn
    exact absurd (h.trans_lt (hhi.trans_le (zpow_le_zpow_right₀ (by norm_num) (by omega)))) (lt_irrefl _)
  · intro hn
    exact (zpow_le_zpow_right₀ (by norm_num) (by omega)).trans hlo

/-- What the text of a magnitude is made of: the digits of `s` and of the exponent, `0`, `.`,
`e`, `-`, and a `+` only for an exponent of a magnitude from `10 ^ 21` on. -/
theorem mem_toString {d : ShortestDecimal} {c : Char} (h : c ∈ d.toString) :
    c ∈ decimal d.s ∨ c ∈ decimal (d.n - 1).natAbs ∨ c ∈ ['0', '.', 'e', '-'] ∨ (c = '+' ∧ 21 < d.n) := by
  unfold toString at h
  by_cases h1 : (d.k : Int) ≤ d.n ∧ d.n ≤ 21
  · rw [if_pos h1, List.mem_append, List.mem_replicate] at h
    rcases h with h | ⟨-, rfl⟩
    · exact .inl h
    · simp
  rw [if_neg h1] at h
  by_cases h2 : 0 < d.n ∧ d.n ≤ 21
  · rw [if_pos h2, List.mem_append, List.mem_cons] at h
    rcases h with h | rfl | h
    · exact .inl (List.mem_of_mem_take h)
    · simp
    · exact .inl (List.mem_of_mem_drop h)
  rw [if_neg h2] at h
  by_cases h3 : -6 < d.n ∧ d.n ≤ 0
  · rw [if_pos h3, List.mem_cons, List.mem_cons, List.mem_append, List.mem_replicate] at h
    rcases h with rfl | rfl | ⟨-, rfl⟩ | h
    · simp
    · simp
    · simp
    · exact .inl h
  rw [if_neg h3, List.mem_append, List.mem_cons, List.mem_cons] at h
  rcases h with h | rfl | h | h
  · split_ifs at h
    · exact .inl h
    · rw [List.mem_append, List.mem_cons] at h
      rcases h with h | rfl | h
      · exact .inl (List.mem_of_mem_take h)
      · simp
      · exact .inl (List.mem_of_mem_drop h)
  · simp
  · split_ifs at h
    · exact .inr (.inr (.inr ⟨h, by omega⟩))
    · simp [h]
  · exact .inr (.inl h)

/-- A magnitude from `10 ^ 21` on is written with an exponent `e+`. -/
theorem plus_mem_toString {d : ShortestDecimal} (h : 21 < d.n) : '+' ∈ d.toString := by
  unfold toString
  dsimp only
  rw [if_neg (by omega), if_neg (by omega), if_neg (by omega), if_pos (by omega : 0 < d.n - 1)]
  exact List.mem_append_right _ (List.mem_cons_of_mem _ (List.mem_cons_self _ _))

theorem plus_mem_toString_iff (d : ShortestDecimal) : '+' ∈ d.toString ↔ 21 < d.n := by
  refine ⟨fun h => ?_, plus_mem_toString⟩
  rcases mem_toString h with h | h | h | ⟨-, h⟩
  · exact absurd h (plus_not_mem_decimal _)
  · exact absurd h (plus_not_mem_decimal _)
  · exact absurd h (by decide)
  · exact h

end ShortestDecimal

namespace NumberValue

/-- `Number::toString(x, 10)`. -/
def toString : NumberValue → List Char
  | .nan => "NaN".toList
  | .zero => "0".toList
  | .infinity negative => (if negative then "-Infinity" else "Infinity").toList
  | .finite negative d => (if negative then ['-'] else []) ++ d.toString

/-- `ToBoolean`: `NaN` and zero are falsy. -/
def truthy : NumberValue → Bool
  | .nan | .zero => false
  | _ => true

/-- `|x| ≥ 10 ^ 21`. -/
def isLarge : NumberValue → Bool
  | .finite _ d => decide ((10 : ℚ) ^ 21 ≤ d.value)
  | _ => false

/-- The text of a number holds a `+` exactly when `|x| ≥ 10 ^ 21`. -/
theorem plus_mem_toString_iff (x : NumberValue) : '+' ∈ x.toString ↔ x.isLarge = true := by
  cases x with
  | nan => decide
  | zero => decide
  | infinity negative => cases negative <;> decide
  | finite negative d =>
    rw [toString, isLarge, decide_eq_true_iff, ShortestDecimal.le_value_iff, ← d.plus_mem_toString_iff]
    cases negative <;> simp

/-- The text of a number is made of letters and digits, `.`, `-` and `+`. -/
theorem isNumberChar_of_mem_toString (x : NumberValue) : ∀ c ∈ x.toString, isNumberChar c = true := by
  have hdigit : ∀ m, ∀ c ∈ decimal m, isNumberChar c = true := fun m c hc => by
    simp [isNumberChar, Char.isAlphanum, (decimal_isDecimal m).2 c hc]
  cases x with
  | nan => decide
  | zero => decide
  | infinity negative => cases negative <;> decide
  | finite negative d =>
    intro c hc
    rw [toString, List.mem_append] at hc
    rcases hc with hc | hc
    · cases negative
      · exact absurd hc (List.not_mem_nil c)
      · rw [List.mem_singleton.1 hc]; rfl
    · rcases ShortestDecimal.mem_toString hc with hc | hc | hc | ⟨rfl, -⟩
      · exact hdigit _ c hc
      · exact hdigit _ c hc
      · exact (by decide : ∀ c ∈ ['0', '.', 'e', '-'], isNumberChar c = true) c hc
      · rfl

end NumberValue

end Theia.Js
