import Theia.Js.Text
import Mathlib.Data.List.Sort
/-!
# Session log folders of the plugin host: `PluginPathsServiceImpl`

`getHostLogPath` (`PluginPathsServiceImpl`, `unnamed/part_002`) makes the folder of this session's
host logs under the plugins' logs folder, named by `generateTimeFolderName`, and starts
`cleanupOldLogs`, which removes the session folders beyond the `maxSessionLogsFolders` newest.
Both rest on the names `SESSION_TIMESTAMP_PATTERN`, `/^\d{8}T\d{6}$/`, accepts.

* `generateTimeFolderName`: `new Date().toISOString()` without its `-`, its `:` and all from the
  `.` on. `generateTimeFolderName_eq` is the name for a year of four digits, and
  `errors_generateTimeFolderName` says the error is logged exactly when the year has not.
* `codeUnitLt`: strings as `sort()` compares them. `codeUnitLt_generateTimeFolderName`: the names
  of years `0 … 9999` compare as the times they stand for, to the second, and two sessions of the
  same second get the same name.
* `cleanupOldLogs`: `mem_cleanupOldLogs_iff` says a folder is removed exactly when it is a session
  folder and at least the slice's start of the session folders are newer. So
  `cleanupOldLogs_keeps_current`: the folder of this session is kept, when the others are of
  earlier times and at least one folder is kept.
-/

namespace Theia.PluginExt

open Theia.Js

/-! ## The pattern -/

/-- `SESSION_TIMESTAMP_PATTERN.test(name)`: eight digits, a `T`, six digits and nothing else
(`\d` is `0-9`). -/
def SESSION_TIMESTAMP_PATTERN.test (name : List Char) : Bool :=
  match name.splitAt 8 with
  | (date, 'T' :: time) =>
    date.length == 8 && date.all Char.isDigit && time.length == 6 && time.all Char.isDigit
  | _ => false

/-- `${SESSION_TIMESTAMP_PATTERN}`: the pattern as a template literal prints it. -/
def SESSION_TIMESTAMP_PATTERN.toString : List Char := "/^\\d\x7b8\x7dT\\d\x7b6\x7d$/".toList

theorem test_iff {name : List Char} :
    SESSION_TIMESTAMP_PATTERN.test name ↔
      ∃ date time, name = date ++ 'T' :: time ∧ date.length = 8 ∧ date.all Char.isDigit ∧
        time.length = 6 ∧ time.all Char.isDigit := by
  constructor
  · intro h
    unfold SESSION_TIMESTAMP_PATTERN.test at h
    split at h
    · rename_i date time hsplit
      rw [List.splitAt_eq, Prod.mk.injEq] at hsplit
      simp only [Bool.and_eq_true, beq_iff_eq] at h
      exact ⟨date, time, by rw [← hsplit.1, ← hsplit.2, List.take_append_drop], h.1.1.1, h.1.1.2, h.1.2, h.2⟩
    · cases h
  · rintro ⟨date, time, rfl, h8, hdate, h6, htime⟩
    simp [SESSION_TIMESTAMP_PATTERN.test, List.splitAt_eq, List.take_left' h8, List.drop_left' h8, h8, hdate,
      h6, htime]

theorem length_of_test {name : List Char} (h : SESSION_TIMESTAMP_PATTERN.test name) : name.length = 15 := by
  obtain ⟨date, time, rfl, h8, -, h6, -⟩ := test_iff.1 h
  simp [h8, h6]

/-! ## The folder name -/

/-- The UTC fields of a `Date` that `toISOString` prints (`getUTCFullYear`, `getUTCMonth` counted
from `0`, `getUTCDate`, …), each in its range; a `Date` lies between the years `-271821` and
`275760`. -/
structure DateTime where
  year : Int
  month : Fin 12
  day : Nat
  hours : Fin 24
  minutes : Fin 60
  seconds : Fin 60
  milliseconds : Fin 1000
  day_pos : 0 < day
  day_le : day ≤ 31
  year_ge : -271821 ≤ year
  year_le : year ≤ 275760
  deriving DecidableEq

/-- The date time to the second as one number, which grows with time. -/
def DateTime.stamp (d : DateTime) : Int :=
  ((((d.year * 12 + d.month.val) * 32 + d.day) * 24 + d.hours.val) * 60 + d.minutes.val) * 60 + d.seconds.val

/-- The last `width` decimal digits of `n`, most significant first: a field of the date time
string format, written with exactly its digits. -/
def fixedDigits : Nat → Nat → List Char
  | 0, _ => []
  | width + 1, n => fixedDigits width (n / 10) ++ [Char.ofNat (48 + n % 10)]

/-- The year of the date time string format: four digits, or a sign and six. -/
def isoYear (year : Int) : List Char :=
  if 0 ≤ year ∧ year ≤ 9999 then fixedDigits 4 year.toNat
  else (if year < 0 then '-' else '+') :: fixedDigits 6 year.natAbs

/-- `Date.prototype.toISOString`: `YYYY-MM-DDTHH:mm:ss.sssZ`. -/
def toISOString (d : DateTime) : List Char :=
  isoYear d.year ++ '-' :: fixedDigits 2 (d.month.val + 1) ++ '-' :: fixedDigits 2 d.day ++
    'T' :: fixedDigits 2 d.hours.val ++ ':' :: fixedDigits 2 d.minutes.val ++
    ':' :: fixedDigits 2 d.seconds.val ++ '.' :: fixedDigits 3 d.milliseconds.val ++ ['Z']

/-- `s.replace(/[-:]|(\..*)/g, '')` on the rest of `s`, `skipping` while `.*` is consuming: each
`-` and `:` goes, and each `.` with what follows it up to a line terminator. -/
def replaceSeparators (skipping : Bool) : List Char → List Char
  | [] => []
  | c :: rest =>
    if skipping && !isLineTerminator c then replaceSeparators true rest
    else if c = '-' || c = ':' then replaceSeparators false rest
    else if c = '.' then replaceSeparators true rest
    else c :: replaceSeparators false rest

/-- `generateTimeFolderName` at the time `now`: the name, and the errors it logs. -/
def generateTimeFolderName (now : DateTime) : List Char × List (List Char) :=
  let timeStamp := replaceSeparators false (toISOString now)
  if !SESSION_TIMESTAMP_PATTERN.test timeStamp then
    (timeStamp, ["Generated log folder name: \"".toList ++ timeStamp ++
      "\" does not match expected pattern: ".toList ++ SESSION_TIMESTAMP_PATTERN.toString])
  else (timeStamp, [])

@[simp] theorem length_fixedDigits (width n : Nat) : (fixedDigits width n).length = width := by
  induction width generalizing n with
  | zero => rfl
  | succ width ih => simp [fixedDigits, ih]

theorem isDigit_of_mem_fixedDigits {width n : Nat} {c : Char} (h : c ∈ fixedDigits width n) :
    c.isDigit := by
  induction width generalizing n with
  | zero => cases h
  | succ width ih =>
    rcases List.mem_append.1 h with h | h
    · exact ih h
    · rw [List.mem_singleton.1 h]
      exact digitChar_isDigit (Nat.mod_lt _ (by omega))

theorem toNat_of_isDigit {c : Char} (h : c.isDigit) : 48 ≤ c.toNat ∧ c.toNat ≤ 57 := by
  simpa [Char.isDigit, Char.le_def] using h

@[simp] theorem all_isDigit_fixedDigits (width n : Nat) : (fixedDigits width n).all Char.isDigit :=
  List.all_eq_true.2 fun _ => isDigit_of_mem_fixedDigits

@[simp] theorem replaceSeparators_fixedDigits_append (width n : Nat) (rest : List Char) :
    replaceSeparators false (fixedDigits width n ++ rest) = fixedDigits width n ++ replaceSeparators false rest := by
  generalize hds : fixedDigits width n = ds
  have hdigit : ∀ c ∈ ds, 48 ≤ c.toNat ∧ c.toNat ≤ 57 :=
    fun c hc => toNat_of_isDigit (isDigit_of_mem_fixedDigits (hds ▸ hc))
  clear hds
  induction ds with
  | nil => rfl
  | cons c ds ih =>
    have hc := hdigit c (.head _)
    have hsep : c ≠ '-' ∧ c ≠ ':' ∧ c ≠ '.' := by refine ⟨?_, ?_, ?_⟩ <;> rintro rfl <;> simp at hc
    simp [replaceSeparators, hsep, ih fun c hc => hdigit c (.tail _ hc)]

@[simp] theorem replaceSeparators_fixedDigits (width n : Nat) :
    replaceSeparators false (fixedDigits width n) = fixedDigits width n := by
  have := replaceSeparators_fixedDigits_append width n []
  rwa [List.append_nil, show replaceSeparators false [] = [] from rfl, List.append_nil] at this

@[simp] theorem replaceSeparators_dash (rest : List Char) :
    replaceSeparators false ('-' :: rest) = replaceSeparators false rest := by
  simp [replaceSeparators]

@[simp] theorem replaceSeparators_colon (rest : List Char) :
    replaceSeparators false (':' :: rest) = replaceSeparators false rest := by
  simp [replaceSeparators]

@[simp] theorem replaceSeparators_T (rest : List Char) :
    replaceSeparators false ('T' :: rest) = 'T' :: replaceSeparators false rest := by
  simp [replaceSeparators]

@[simp] theorem replaceSeparators_plus (rest : List Char) :
    replaceSeparators false ('+' :: rest) = '+' :: replaceSeparators false rest := by
  simp [replaceSeparators]

/-- After the `.`, `.*` takes the milliseconds and the `Z`. -/
theorem replaceSeparators_milliseconds (n : Nat) :
    replaceSeparators false ('.' :: (fixedDigits 3 n ++ ['Z'])) = [] := by
  have hskip : ∀ l : List Char, (∀ c ∈ l, isLineTerminator c = false) → replaceSeparators true l = [] := by
    intro l hl
    induction l with
    | nil => rfl
    | cons c l ih => simp [replaceSeparators, hl c (.head _), ih fun c hc => hl c (.tail _ hc)]
  have hdot : ∀ l, replaceSeparators false ('.' :: l) = replaceSeparators true l := by
    simp [replaceSeparators]
  rw [hdot]
  refine hskip _ fun c hc => ?_
  rcases List.mem_append.1 hc with hc | hc
  · have := toNat_of_isDigit (isDigit_of_mem_fixedDigits hc)
    simp only [isLineTerminator, List.mem_cons, List.mem_singleton, List.not_mem_nil, or_false,
      decide_eq_false_iff_not]
    omega
  · rw [List.mem_singleton.1 hc]; rfl

/-- The name is the year as `replace` leaves it, then the fields without their separators. -/
theorem replaceSeparators_toISOString (d : DateTime) :
    replaceSeparators false (toISOString d) =
      replaceSeparators false (isoYear d.year) ++ fixedDigits 2 (d.month.val + 1) ++ fixedDigits 2 d.day ++
        'T' :: fixedDigits 2 d.hours.val ++ fixedDigits 2 d.minutes.val ++ fixedDigits 2 d.seconds.val := by
  have hfields : replaceSeparators false ('-' :: fixedDigits 2 (d.month.val + 1) ++ '-' :: fixedDigits 2 d.day ++
      'T' :: fixedDigits 2 d.hours.val ++ ':' :: fixedDigits 2 d.minutes.val ++
      ':' :: fixedDigits 2 d.seconds.val ++ '.' :: fixedDigits 3 d.milliseconds.val ++ ['Z']) =
      fixedDigits 2 (d.month.val + 1) ++ fixedDigits 2 d.day ++
        'T' :: fixedDigits 2 d.hours.val ++ fixedDigits 2 d.minutes.val ++ fixedDigits 2 d.seconds.val := by
    simp only [List.append_assoc, List.cons_append, replaceSeparators_dash, replaceSeparators_colon,
      replaceSeparators_T, replaceSeparators_fixedDigits_append, replaceSeparators_milliseconds, List.append_nil]
  unfold toISOString isoYear
  split_ifs with hyear hsign <;>
    simp only [List.append_assoc, List.cons_append] at hfields ⊢
  all_goals simp only [replaceSeparators_dash, replaceSeparators_plus, replaceSeparators_fixedDigits_append,
    replaceSeparators_fixedDigits, hfields, List.cons_append]

theorem generateTimeFolderName_fst (now : DateTime) :
    (generateTimeFolderName now).1 = replaceSeparators false (toISOString now) := by
  dsimp only [generateTimeFolderName]
  split <;> rfl

/-- The error is logged exactly when the name does not match. -/
theorem snd_generateTimeFolderName (now : DateTime) :
    (generateTimeFolderName now).2 = [] ↔ SESSION_TIMESTAMP_PATTERN.test (generateTimeFolderName now).1 := by
  rw [generateTimeFolderName_fst]
  by_cases h : SESSION_TIMESTAMP_PATTERN.test (replaceSeparators false (toISOString now)) <;>
    simp [generateTimeFolderName, h]

/-- With a year of four digits the name is `YYYYMMDDTHHmmss`, and no error is logged. -/
theorem generateTimeFolderName_eq (now : DateTime) (h0 : 0 ≤ now.year) (h9 : now.year ≤ 9999) :
    generateTimeFolderName now =
      (fixedDigits 4 now.year.toNat ++ fixedDigits 2 (now.month.val + 1) ++ fixedDigits 2 now.day ++
        'T' :: fixedDigits 2 now.hours.val ++ fixedDigits 2 now.minutes.val ++ fixedDigits 2 now.seconds.val,
        []) := by
  have hname := (generateTimeFolderName_fst now).trans (replaceSeparators_toISOString now)
  rw [isoYear, if_pos ⟨h0, h9⟩, replaceSeparators_fixedDigits] at hname
  refine Prod.ext hname ((snd_generateTimeFolderName now).2 ?_)
  rw [hname, test_iff]
  exact ⟨fixedDigits 4 now.year.toNat ++ fixedDigits 2 (now.month.val + 1) ++ fixedDigits 2 now.day,
    fixedDigits 2 now.hours.val ++ fixedDigits 2 now.minutes.val ++ fixedDigits 2 now.seconds.val,
    by simp, by simp, by simp, by simp, by simp⟩

/-- The error is logged exactly when the year has not four digits: the `-` of a year before 0 is
dropped with the others, and the `+` of one after 9999 kept, so the name is too long. -/
theorem errors_generateTimeFolderName (now : DateTime) :
    (generateTimeFolderName now).2 = [] ↔ 0 ≤ now.year ∧ now.year ≤ 9999 := by
  refine ⟨fun h => ?_, fun h => by rw [generateTimeFolderName_eq now h.1 h.2]⟩
  have hlen := length_of_test ((snd_generateTimeFolderName now).1 h)
  rw [generateTimeFolderName_fst, replaceSeparators_toISOString] at hlen
  by_contra hyear
  unfold isoYear at hlen
  split_ifs at hlen with h4
  · exact hyear h4
  all_goals simp at hlen

/-! ## Names compared as `sort()` compares them -/

/-- `x < y` on strings (ECMAScript `IsLessThan`): a proper prefix is less, else the first
character that differs decides. Characters are compared by code point, which orders the ASCII
names `cleanupOldLogs` sorts as their UTF-16 code units. -/
def codeUnitLt : List Char → List Char → Bool
  | _, [] => false
  | [], _ :: _ => true
  | a :: as, b :: bs => if a = b then codeUnitLt as bs else a.toNat < b.toNat

@[simp] theorem codeUnitLt_nil_right (a : List Char) : codeUnitLt a [] = false := by
  cases a <;> rfl

@[simp] theorem codeUnitLt_nil_cons (b : Char) (bs : List Char) : codeUnitLt [] (b :: bs) = true := rfl

theorem codeUnitLt_cons_cons (a b : Char) (as bs : List Char) :
    codeUnitLt (a :: as) (b :: bs) = if a = b then codeUnitLt as bs else decide (a.toNat < b.toNat) := rfl

@[simp] theorem codeUnitLt_cons_self (a : Char) (as bs : List Char) :
    codeUnitLt (a :: as) (a :: bs) = codeUnitLt as bs := by
  simp [codeUnitLt_cons_cons]

@[simp] theorem codeUnitLt_self (a : List Char) : codeUnitLt a a = false := by
  induction a with
  | nil => rfl
  | cons c a ih => rwa [codeUnitLt_cons_self]

theorem eq_of_toNat_eq {a b : Char} (h : a.toNat = b.toNat) : a = b := by
  rw [← Char.ofNat_toNat a, h, Char.ofNat_toNat]

theorem codeUnitLt_trans : ∀ {a b c : List Char}, codeUnitLt a b → codeUnitLt b c → codeUnitLt a c
  | _, [], _, hab, _ => by simp at hab
  | _, _ :: _, [], _, hbc => by simp at hbc
  | [], _ :: _, _ :: _, _, _ => rfl
  | a :: as, b :: bs, c :: cs, hab, hbc => by
    by_cases hab' : a = b <;> by_cases hbc' : b = c
    · subst hab' hbc'
      simp only [codeUnitLt_cons_self] at *
      exact codeUnitLt_trans hab hbc
    · subst hab'
      simpa [codeUnitLt_cons_cons, hbc'] using hbc
    · subst hbc'
      simpa [codeUnitLt_cons_cons, hab'] using hab
    · simp only [codeUnitLt_cons_cons, hab', hbc', if_false, decide_eq_true_eq] at hab hbc
      have hac : a ≠ c := fun h => by subst h; omega
      simp only [codeUnitLt_cons_cons, hac, if_false, decide_eq_true_eq]
      omega

theorem codeUnitLt_asymm {a b : List Char} (h : codeUnitLt a b) : codeUnitLt b a = false :=
  Bool.eq_false_iff.2 fun h' => by simpa using codeUnitLt_trans h h'

theorem codeUnitLt_trichotomy : ∀ a b : List Char, codeUnitLt a b ∨ a = b ∨ codeUnitLt b a
  | [], [] => .inr (.inl rfl)
  | [], _ :: _ => .inl rfl
  | _ :: _, [] => .inr (.inr rfl)
  | a :: as, b :: bs => by
    by_cases hab : a = b
    · subst hab
      simpa using codeUnitLt_trichotomy as bs
    · have : a.toNat ≠ b.toNat := fun h => hab (eq_of_toNat_eq h)
      simp only [codeUnitLt_cons_cons, hab, Ne.symm hab, if_false, decide_eq_true_eq, List.cons.injEq,
        false_and, false_or]
      omega

/-- Equal names are those neither of which is less. -/
theorem eq_iff_not_codeUnitLt {a b : List Char} : a = b ↔ codeUnitLt a b = false ∧ codeUnitLt b a = false := by
  refine ⟨by rintro rfl; simp, fun ⟨hab, hba⟩ => ?_⟩
  rcases codeUnitLt_trichotomy a b with h | h | h
  · simp [h] at hab
  · exact h
  · simp [h] at hba

/-- Fixed-width numerals compare as the numbers, the rest deciding between equal ones. -/
theorem codeUnitLt_fixedDigits_append {w a b : Nat} (ha : a < 10 ^ w) (hb : b < 10 ^ w) (x y : List Char) :
    codeUnitLt (fixedDigits w a ++ x) (fixedDigits w b ++ y) ↔ a < b ∨ a = b ∧ codeUnitLt x y := by
  induction w generalizing a b x y with
  | zero =>
    obtain rfl : a = 0 := by simpa using ha
    obtain rfl : b = 0 := by simpa using hb
    simp [fixedDigits]
  | succ w ih =>
    have hdiv : ∀ {n}, n < 10 ^ (w + 1) → n / 10 < 10 ^ w := fun h => by
      rw [Nat.div_lt_iff_lt_mul (by norm_num), ← pow_succ]; exact h
    simp only [fixedDigits, List.append_assoc, List.singleton_append]
    rw [ih (hdiv ha) (hdiv hb), codeUnitLt_cons_cons, digitChar_toNat (Nat.mod_lt _ (by omega)),
      digitChar_toNat (Nat.mod_lt _ (by omega))]
    by_cases hd : a % 10 = b % 10
    · rw [if_pos (by rw [hd])]
      have hlt : a / 10 < b / 10 ↔ a < b := by omega
      have heq : a / 10 = b / 10 ↔ a = b := by omega
      rw [hlt, heq]
    · have hne : Char.ofNat (48 + a % 10) ≠ Char.ofNat (48 + b % 10) := fun h => hd (by
        have := congrArg Char.toNat h
        rw [digitChar_toNat (Nat.mod_lt _ (by omega)), digitChar_toNat (Nat.mod_lt _ (by omega))] at this
        omega)
      rw [if_neg hne, decide_eq_true_eq]
      constructor
      · rintro (h | ⟨h, h'⟩) <;> exact .inl (by omega)
      · rintro (h | ⟨rfl, -⟩)
        · omega
        · exact absurd rfl hd

theorem codeUnitLt_fixedDigits {w a b : Nat} (ha : a < 10 ^ w) (hb : b < 10 ^ w) :
    codeUnitLt (fixedDigits w a) (fixedDigits w b) ↔ a < b := by
  simpa using codeUnitLt_fixedDigits_append ha hb [] []

/-- The fields of a date time of a four-digit year are within their widths. -/
theorem fields_lt (d : DateTime) (h9 : d.year ≤ 9999) :
    d.year.toNat < 10 ^ 4 ∧ d.month.val + 1 < 10 ^ 2 ∧ d.day < 10 ^ 2 ∧ d.hours.val < 10 ^ 2 ∧
      d.minutes.val < 10 ^ 2 ∧ d.seconds.val < 10 ^ 2 := by
  have := d.month.isLt; have := d.hours.isLt; have := d.minutes.isLt; have := d.seconds.isLt
  have := d.day_le
  norm_num
  omega

/-- Mixed radix: a digit before a lower place compares first. -/
theorem lex_lt_iff {a a' r r' k : Nat} (hr : r < k) (hr' : r' < k) :
    a < a' ∨ a = a' ∧ r < r' ↔ a * k + r < a' * k + r' := by
  constructor
  · rintro (h | ⟨rfl, h⟩)
    · calc a * k + r < (a + 1) * k := by rw [Nat.succ_mul]; omega
        _ ≤ a' * k + r' := (Nat.mul_le_mul_right k h).trans (Nat.le_add_right _ _)
    · omega
  · intro h
    rcases Nat.lt_trichotomy a a' with h1 | rfl | h1
    · exact .inl h1
    · exact .inr ⟨rfl, by omega⟩
    · have := Nat.mul_le_mul_right k h1
      rw [Nat.succ_mul] at this
      omega

/-- Names of four-digit years compare as the times they stand for, to the second. -/
theorem generateTimeFolderName_lt_iff {d e : DateTime} (hd : 0 ≤ d.year ∧ d.year ≤ 9999)
    (he : 0 ≤ e.year ∧ e.year ≤ 9999) :
    codeUnitLt (generateTimeFolderName d).1 (generateTimeFolderName e).1 ↔ d.stamp < e.stamp := by
  obtain ⟨y, m, dd, hh, mi, ss⟩ := fields_lt d hd.2
  obtain ⟨y', m', dd', hh', mi', ss'⟩ := fields_lt e he.2
  rw [generateTimeFolderName_eq d hd.1 hd.2, generateTimeFolderName_eq e he.1 he.2]
  simp only [List.append_assoc, List.cons_append]
  rw [codeUnitLt_fixedDigits_append y y', codeUnitLt_fixedDigits_append m m',
    codeUnitLt_fixedDigits_append dd dd', codeUnitLt_cons_self, codeUnitLt_fixedDigits_append hh hh',
    codeUnitLt_fixedDigits_append mi mi', codeUnitLt_fixedDigits ss ss']
  have := d.month.isLt; have := d.hours.isLt; have := d.minutes.isLt; have := d.seconds.isLt
  have := e.month.isLt; have := e.hours.isLt; have := e.minutes.isLt; have := e.seconds.isLt
  have := d.day_le; have := e.day_le
  simp only [Nat.add_lt_add_iff_right, Nat.add_right_cancel_iff]
  rw [lex_lt_iff (k := 60) (by omega) (by omega), lex_lt_iff (k := 3600) (by omega) (by omega),
    lex_lt_iff (k := 86400) (by omega) (by omega), lex_lt_iff (k := 2764800) (by omega) (by omega),
    lex_lt_iff (k := 33177600) (by omega) (by omega)]
  unfold DateTime.stamp
  omega

/-- The names of years `0 … 9999` compare as the times they stand for, to the second; and two
times of the same second get the same name, so two sessions started in one second share a folder. -/
theorem codeUnitLt_generateTimeFolderName {d e : DateTime} (hd : 0 ≤ d.year ∧ d.year ≤ 9999)
    (he : 0 ≤ e.year ∧ e.year ≤ 9999) :
    (codeUnitLt (generateTimeFolderName d).1 (generateTimeFolderName e).1 ↔ d.stamp < e.stamp) ∧
      ((generateTimeFolderName d).1 = (generateTimeFolderName e).1 ↔ d.stamp = e.stamp) := by
  refine ⟨generateTimeFolderName_lt_iff hd he, ?_⟩
  rw [eq_iff_not_codeUnitLt, ← Bool.not_eq_true, ← Bool.not_eq_true, generateTimeFolderName_lt_iff hd he,
    generateTimeFolderName_lt_iff he hd]
  omega

/-- `20181204T101010` is before `20181205T093828`, as the times. -/
theorem codeUnitLt_generateTimeFolderName_next_day :
    let d : DateTime := ⟨2018, 11, 4, 10, 10, 10, 0, by decide, by decide, by decide, by decide⟩
    let e : DateTime := ⟨2018, 11, 5, 9, 38, 28, 0, by decide, by decide, by decide, by decide⟩
    (codeUnitLt (generateTimeFolderName d).1 (generateTimeFolderName e).1 ↔ d.stamp < e.stamp) ∧
      ((generateTimeFolderName d).1 = (generateTimeFolderName e).1 ↔ d.stamp = e.stamp) :=
  codeUnitLt_generateTimeFolderName (by decide) (by decide)


/-! ## Removing the old session folders -/

/-- `a` sorts before `b` or with it. -/
def codeUnitLe (a b : List Char) : Prop := codeUnitLt b a = false

instance : DecidableRel codeUnitLe := fun a b => inferInstanceAs (Decidable (codeUnitLt b a = false))

instance : IsTotal (List Char) codeUnitLe := ⟨fun a b => by
  rcases codeUnitLt_trichotomy a b with h | rfl | h
  · exact .inl (codeUnitLt_asymm h)
  · exact .inl (codeUnitLt_self a)
  · exact .inr (codeUnitLt_asymm h)⟩

instance : IsTrans (List Char) codeUnitLe := ⟨fun a b c hab hbc => by
  unfold codeUnitLe at *
  rw [Bool.eq_false_iff] at *
  intro hca
  rcases codeUnitLt_trichotomy b c with h | rfl | h
  · exact hab (codeUnitLt_trans h hca)
  · exact hab hca
  · exact hbc h⟩

/-- `Array.prototype.slice(start)`'s first index: a negative `start` counts from the end. -/
def sliceStart (length : Nat) (start : Int) : Nat :=
  if start < 0 then (length + start).toNat else min start.toNat length

/-- The fields of an `fs.Dirent` that `cleanupOldLogs` reads. -/
structure Dirent where
  name : List Char
  isDirectory : Bool
  deriving DecidableEq, Repr

/-- `sessionSubDirNames`: the names of the directories that match `SESSION_TIMESTAMP_PATTERN`. -/
def sessionSubDirNames (dirEntries : List Dirent) : List (List Char) :=
  ((dirEntries.filter (·.isDirectory)).map (·.name)).filter SESSION_TIMESTAMP_PATTERN.test

/-- `cleanupOldLogs` after `readdir(parentLogsDir)` listed `dirEntries`: the session folders it
removes, in order. `sort()` is `insertionSort`: every sort gives the one sorted order of distinct
names. -/
def cleanupOldLogs (dirEntries : List Dirent) (maxSessionLogsFolders : Int) : List (List Char) :=
  let sortedSessionSubDirNames := ((sessionSubDirNames dirEntries).insertionSort codeUnitLe).reverse
  sortedSessionSubDirNames.drop (sliceStart sortedSessionSubDirNames.length maxSessionLogsFolders)

/-- Sorted and reversed, distinct names are newest first, each newer than all after it. -/
theorem pairwise_reverse_insertionSort {names : List (List Char)} (h : names.Nodup) :
    ((names.insertionSort codeUnitLe).reverse).Pairwise fun a b => codeUnitLt b a := by
  rw [List.pairwise_reverse]
  refine ((List.sorted_insertionSort codeUnitLe names).and
    ((List.perm_insertionSort codeUnitLe names).nodup_iff.2 h)).imp fun {a b} ⟨hle, hne⟩ => ?_
  rcases codeUnitLt_trichotomy a b with h | h | h
  · exact h
  · exact absurd h hne
  · exact absurd h (by simpa [codeUnitLe] using hle)

/-- In a list newest first, a name stands at or after index `k` exactly when at least `k` names
of the list are newer. -/
theorem mem_drop_iff {names : List (List Char)} (h : names.Pairwise fun a b => codeUnitLt b a) (k : Nat)
    (name : List Char) : name ∈ names.drop k ↔ name ∈ names ∧ k ≤ (names.filter (codeUnitLt name ·)).length := by
  induction names generalizing k with
  | nil => simp
  | cons first names ih =>
    rw [List.pairwise_cons] at h
    cases k with
    | zero => simp
    | succ k =>
      rw [List.drop_succ_cons, ih h.2, List.filter_cons]
      by_cases hfirst : name = first
      · subst hfirst
        have hnot : name ∉ names := fun hmem => by simpa using h.1 name hmem
        have hnone : names.filter (codeUnitLt name ·) = [] :=
          List.filter_eq_nil_iff.2 fun a ha hlt => by simp [codeUnitLt_asymm (h.1 a ha)] at hlt
        simp [hnot, hnone]
      · by_cases hmem : name ∈ names
        · simp [hmem, h.1 name hmem]
        · simp [hmem, hfirst]

theorem nodup_sessionSubDirNames {dirEntries : List Dirent} (h : (dirEntries.map (·.name)).Nodup) :
    (sessionSubDirNames dirEntries).Nodup :=
  h.sublist ((List.filter_sublist _).trans ((List.filter_sublist _).map _))

/-- Distinct names other than `name` are newer or older than it. -/
theorem length_filter_newer_add_older_of_not_mem {names : List (List Char)} {name : List Char}
    (h : name ∉ names) :
    (names.filter (codeUnitLt name ·)).length + (names.filter (codeUnitLt · name)).length = names.length := by
  induction names with
  | nil => rfl
  | cons first names ih =>
    rw [List.mem_cons, not_or] at h
    have hcount := ih h.2
    rcases codeUnitLt_trichotomy name first with hlt | heq | hgt
    · simp [List.filter_cons, hlt, codeUnitLt_asymm hlt]; omega
    · exact absurd heq h.1
    · simp [List.filter_cons, hgt, codeUnitLt_asymm hgt]; omega

/-- Every other session folder is newer or older than a given one. -/
theorem length_filter_newer_add_older {names : List (List Char)} (h : names.Nodup) {name : List Char}
    (hname : name ∈ names) :
    (names.filter (codeUnitLt name ·)).length + (names.filter (codeUnitLt · name)).length + 1 = names.length := by
  induction names with
  | nil => cases hname
  | cons first names ih =>
    rw [List.nodup_cons] at h
    by_cases hfirst : name = first
    · subst hfirst
      have := length_filter_newer_add_older_of_not_mem h.1
      simp [List.filter_cons]; omega
    · have hcount := ih h.2 ((List.mem_cons.1 hname).resolve_left hfirst)
      rcases codeUnitLt_trichotomy name first with hlt | heq | hgt
      · simp [List.filter_cons, hlt, codeUnitLt_asymm hlt]; omega
      · exact absurd heq hfirst
      · simp [List.filter_cons, hgt, codeUnitLt_asymm hgt]; omega

/-- A folder is removed exactly when it is a session folder and at least the slice's start of the
session folders are newer. -/
theorem mem_cleanupOldLogs_iff {dirEntries : List Dirent} (h : (dirEntries.map (·.name)).Nodup)
    (maxSessionLogsFolders : Int) (name : List Char) :
    name ∈ cleanupOldLogs dirEntries maxSessionLogsFolders ↔ name ∈ sessionSubDirNames dirEntries ∧
      sliceStart (sessionSubDirNames dirEntries).length maxSessionLogsFolders ≤
        ((sessionSubDirNames dirEntries).filter (codeUnitLt name ·)).length := by
  have hperm := (List.reverse_perm _).trans (List.perm_insertionSort codeUnitLe (sessionSubDirNames dirEntries))
  unfold cleanupOldLogs
  rw [mem_drop_iff (pairwise_reverse_insertionSort (nodup_sessionSubDirNames h)), hperm.mem_iff,
    (hperm.filter _).length_eq, hperm.length_eq]

/-- With `maxSessionLogsFolders` at least 0, a folder is removed exactly when it is a session folder
and at least `maxSessionLogsFolders` session folders are newer: the newest ones are kept. -/
theorem mem_cleanupOldLogs_of_nonneg {dirEntries : List Dirent} (h : (dirEntries.map (·.name)).Nodup)
    {maxSessionLogsFolders : Int} (hmax : 0 ≤ maxSessionLogsFolders) (name : List Char) :
    name ∈ cleanupOldLogs dirEntries maxSessionLogsFolders ↔ name ∈ sessionSubDirNames dirEntries ∧
      maxSessionLogsFolders.toNat ≤ ((sessionSubDirNames dirEntries).filter (codeUnitLt name ·)).length := by
  rw [mem_cleanupOldLogs_iff h]
  refine and_congr_right fun hmem => ?_
  have hlt : ((sessionSubDirNames dirEntries).filter (codeUnitLt name ·)).length <
      (sessionSubDirNames dirEntries).length :=
    List.length_filter_lt_length_iff_exists.2 ⟨name, hmem, by simp⟩
  unfold sliceStart
  rw [if_neg (by omega)]
  omega

/-- Of two sessions with one folder kept, the older is removed. -/
theorem mem_cleanupOldLogs_of_nonneg_older :
    let dirEntries : List Dirent := [⟨"20181204T101010".toList, true⟩, ⟨"20181205T093828".toList, true⟩,
      ⟨"host.log".toList, false⟩, ⟨"notes".toList, true⟩]
    "20181204T101010".toList ∈ cleanupOldLogs dirEntries 1 :=
  (mem_cleanupOldLogs_of_nonneg (by decide) (by decide) _).2 ⟨by decide, by decide⟩


/-- With `maxSessionLogsFolders` below 0, `slice` counts from the end: a folder is removed exactly
when it is a session folder with fewer than `-maxSessionLogsFolders` older ones, so the oldest are
removed and the newest kept. -/
theorem mem_cleanupOldLogs_of_neg {dirEntries : List Dirent} (h : (dirEntries.map (·.name)).Nodup)
    {maxSessionLogsFolders : Int} (hmax : maxSessionLogsFolders < 0) (name : List Char) :
    name ∈ cleanupOldLogs dirEntries maxSessionLogsFolders ↔ name ∈ sessionSubDirNames dirEntries ∧
      ((sessionSubDirNames dirEntries).filter (codeUnitLt · name)).length < maxSessionLogsFolders.natAbs := by
  rw [mem_cleanupOldLogs_iff h]
  refine and_congr_right fun hmem => ?_
  have hcount := length_filter_newer_add_older (nodup_sessionSubDirNames h) hmem
  unfold sliceStart
  rw [if_pos hmax]
  omega

/-- `maxSessionLogsFolders` of `-1` removes the oldest session folder. -/
theorem mem_cleanupOldLogs_of_neg_oldest :
    let dirEntries : List Dirent := [⟨"20181204T101010".toList, true⟩, ⟨"20181205T093828".toList, true⟩,
      ⟨"host.log".toList, false⟩, ⟨"notes".toList, true⟩]
    "20181204T101010".toList ∈ cleanupOldLogs dirEntries (-1) :=
  (mem_cleanupOldLogs_of_neg (by decide) (by decide) _).2 ⟨by decide, by decide⟩

/-- The folder `getHostLogPath` made for this session is not removed by the cleanup it starts, when
the other session folders are of earlier times and at least one folder is kept. -/
theorem cleanupOldLogs_keeps_current {now : DateTime} (hnow : 0 ≤ now.year ∧ now.year ≤ 9999)
    {dirEntries : List Dirent} (h : (dirEntries.map (·.name)).Nodup)
    (hearlier : ∀ name ∈ sessionSubDirNames dirEntries, ∃ d : DateTime,
      (0 ≤ d.year ∧ d.year ≤ 9999) ∧ (generateTimeFolderName d).1 = name ∧ d.stamp ≤ now.stamp)
    {maxSessionLogsFolders : Int} (hmax : 1 ≤ maxSessionLogsFolders) :
    (generateTimeFolderName now).1 ∉ cleanupOldLogs dirEntries maxSessionLogsFolders := by
  rw [mem_cleanupOldLogs_iff h]
  rintro ⟨hmem, hstart⟩
  have hnone : (sessionSubDirNames dirEntries).filter (codeUnitLt (generateTimeFolderName now).1 ·) = [] := by
    refine List.filter_eq_nil_iff.2 fun name hname hlt => ?_
    obtain ⟨d, hd, rfl, hle⟩ := hearlier name hname
    have := (generateTimeFolderName_lt_iff hnow hd).1 hlt
    omega
  have hpos := List.length_pos_of_mem hmem
  rw [hnone, sliceStart, if_neg (by omega), List.length_nil] at hstart
  omega

/-- The session of `20181205T093828`, beside one of the day before, a file and another folder:
with one folder kept, its own is not removed. -/
theorem cleanupOldLogs_keeps_current_next_day :
    let now : DateTime := ⟨2018, 11, 5, 9, 38, 28, 0, by decide, by decide, by decide, by decide⟩
    let dirEntries : List Dirent := [⟨"20181204T101010".toList, true⟩, ⟨"20181205T093828".toList, true⟩,
      ⟨"host.log".toList, false⟩, ⟨"notes".toList, true⟩]
    (generateTimeFolderName now).1 ∉ cleanupOldLogs dirEntries 1 := by
  dsimp only
  refine cleanupOldLogs_keeps_current (by decide) (by decide) (fun name hname => ?_) (by decide)
  rw [show sessionSubDirNames _ = ["20181204T101010".toList, "20181205T093828".toList] by decide,
    List.mem_cons, List.mem_singleton] at hname
  rcases hname with rfl | rfl
  · exact ⟨⟨2018, 11, 4, 10, 10, 10, 0, by decide, by decide, by decide, by decide⟩, by decide, by decide,
      by decide⟩
  · exact ⟨⟨2018, 11, 5, 9, 38, 28, 0, by decide, by decide, by decide, by decide⟩, by decide, by decide,
      le_refl _⟩

end Theia.PluginExt
