import Mathlib.Data.List.Infix
import Mathlib.Tactic.IntervalCases
/-!
# Node's `Buffer`, as far as the debug adapter stream uses it

`StreamCommunicationProvider` (`packages/debug/src/node/stream-communication-provider.ts`)
keeps the bytes read from a debug adapter in a `Buffer`, searches them with `indexOf`, and turns
a header or a message into a string with `toString('utf8', 0, n)`. Node's `Buffer` is not part of
the sources; it is modelled here on the standards it follows.

* `utf8Encode` is UTF-8 (RFC 3629), what `Buffer.byteLength` counts and `write(s, 'utf8')` sends.
* `utf8Decode` is the UTF-8 decoder of the Encoding Standard: a byte that breaks off a sequence is
  handled again from the start, and each error reads as U+FFFD. Its pending states keep the
  range of code points they can still complete to (`Utf8Decoder.Valid`), which gives the two
  facts the stream needs: decoding inverts encoding (`utf8Decode_utf8Encode`), and text made of
  ASCII characters only appears in the decoded bytes where its own bytes appear
  (`utf8Encode_infix_of_infix_utf8Decode`).
* `indexOf` finds the first occurrence of a byte string.
-/

namespace Theia.Node

/-! ## UTF-8 encoding -/

/-- The UTF-8 bytes of one character. -/
def utf8EncodeChar (c : Char) : List UInt8 :=
  let n := c.toNat
  if n < 0x80 then [n.toUInt8]
  else if n < 0x800 then [(0xC0 + n / 0x40).toUInt8, (0x80 + n % 0x40).toUInt8]
  else if n < 0x10000 then
    [(0xE0 + n / 0x1000).toUInt8, (0x80 + n / 0x40 % 0x40).toUInt8, (0x80 + n % 0x40).toUInt8]
  else
    [(0xF0 + n / 0x40000).toUInt8, (0x80 + n / 0x1000 % 0x40).toUInt8,
      (0x80 + n / 0x40 % 0x40).toUInt8, (0x80 + n % 0x40).toUInt8]

/-- The bytes `Buffer.from(s, 'utf8')` holds, and that `write(s, 'utf8')` sends. -/
def utf8Encode (s : List Char) : List UInt8 := s.flatMap utf8EncodeChar

@[simp] theorem utf8Encode_nil : utf8Encode [] = [] := rfl

@[simp] theorem utf8Encode_cons (c : Char) (s : List Char) :
    utf8Encode (c :: s) = utf8EncodeChar c ++ utf8Encode s := rfl

@[simp] theorem utf8Encode_append (s t : List Char) :
    utf8Encode (s ++ t) = utf8Encode s ++ utf8Encode t := List.flatMap_append ..

theorem toNat_toUInt8 {n : Nat} (h : n < 0x100) : n.toUInt8.toNat = n :=
  UInt8.toNat_ofNat_of_lt h

theorem toNat_ofNat_of_isValidChar {n : Nat} (h : n.isValidChar) : (Char.ofNat n).toNat = n := by
  simp only [Char.ofNat, dif_pos h, Char.ofNatAux, Char.toNat]; rfl

theorem isValidChar_toNat (c : Char) : c.toNat < 0xD800 ∨ 0xDFFF < c.toNat ∧ c.toNat < 0x110000 :=
  c.valid

theorem utf8EncodeChar_of_lt {c : Char} (h : c.toNat < 0x80) : utf8EncodeChar c = [c.toNat.toUInt8] :=
  if_pos h

theorem utf8EncodeChar_two {c : Char} (h1 : 0x80 ≤ c.toNat) (h2 : c.toNat < 0x800) :
    utf8EncodeChar c = [(0xC0 + c.toNat / 0x40).toUInt8, (0x80 + c.toNat % 0x40).toUInt8] := by
  simp only [utf8EncodeChar]; rw [if_neg (by omega), if_pos h2]

theorem utf8EncodeChar_three {c : Char} (h1 : 0x800 ≤ c.toNat) (h2 : c.toNat < 0x10000) :
    utf8EncodeChar c = [(0xE0 + c.toNat / 0x1000).toUInt8, (0x80 + c.toNat / 0x40 % 0x40).toUInt8,
      (0x80 + c.toNat % 0x40).toUInt8] := by
  simp only [utf8EncodeChar]; rw [if_neg (by omega), if_neg (by omega), if_pos h2]

theorem utf8EncodeChar_four {c : Char} (h1 : 0x10000 ≤ c.toNat) :
    utf8EncodeChar c = [(0xF0 + c.toNat / 0x40000).toUInt8, (0x80 + c.toNat / 0x1000 % 0x40).toUInt8,
      (0x80 + c.toNat / 0x40 % 0x40).toUInt8, (0x80 + c.toNat % 0x40).toUInt8] := by
  simp only [utf8EncodeChar]; rw [if_neg (by omega), if_neg (by omega), if_neg (by omega)]

/-! ## UTF-8 decoding -/

/-- The state of the Encoding Standard's UTF-8 decoder: the code point read so far, the bytes of
the current sequence seen and needed, and the range the next byte has to lie in. -/
structure Utf8Decoder where
  codePoint : Nat
  bytesSeen : Nat
  bytesNeeded : Nat
  lowerBoundary : Nat
  upperBoundary : Nat
  deriving DecidableEq, Repr

namespace Utf8Decoder

/-- No sequence pending. -/
def init : Utf8Decoder := ⟨0, 0, 0, 0x80, 0xBF⟩

/-- The handler for a byte while no sequence is pending: an ASCII byte is a character, a lead
byte starts a sequence, and any other byte is an error. -/
def start (b : Nat) : List Char × Utf8Decoder :=
  if b ≤ 0x7F then ([Char.ofNat b], init)
  else if 0xC2 ≤ b ∧ b ≤ 0xDF then ([], ⟨b % 0x20, 0, 1, 0x80, 0xBF⟩)
  else if 0xE0 ≤ b ∧ b ≤ 0xEF then
    ([], ⟨b % 0x10, 0, 2, if b = 0xE0 then 0xA0 else 0x80, if b = 0xED then 0x9F else 0xBF⟩)
  else if 0xF0 ≤ b ∧ b ≤ 0xF4 then
    ([], ⟨b % 0x08, 0, 3, if b = 0xF0 then 0x90 else 0x80, if b = 0xF4 then 0x8F else 0xBF⟩)
  else (['\uFFFD'], init)

/-- The handler for one byte. A byte outside the boundaries ends the pending sequence with an
error and is restored to the input: it is handled again by `start`. -/
def push (d : Utf8Decoder) (b : Nat) : List Char × Utf8Decoder :=
  if d.bytesNeeded = 0 then start b
  else if b < d.lowerBoundary ∨ d.upperBoundary < b then ('\uFFFD' :: (start b).1, (start b).2)
  else
    let codePoint := d.codePoint * 0x40 + b % 0x40
    if d.bytesSeen + 1 = d.bytesNeeded then ([Char.ofNat codePoint], init)
    else ([], ⟨codePoint, d.bytesSeen + 1, d.bytesNeeded, 0x80, 0xBF⟩)

/-- The end of the input: a pending sequence is an error. -/
def finish (d : Utf8Decoder) : List Char := if d.bytesNeeded = 0 then [] else ['\uFFFD']

/-- The characters decoded from the rest of the input, starting in state `d`. -/
def decodeFrom : Utf8Decoder → List UInt8 → List Char
  | d, [] => d.finish
  | d, b :: bs => (d.push b.toNat).1 ++ decodeFrom (d.push b.toNat).2 bs

/-! ### One lemma per branch -/

theorem start_ascii {b : Nat} (h : b ≤ 0x7F) : start b = ([Char.ofNat b], init) := if_pos h

theorem start_two {b : Nat} (h1 : 0xC2 ≤ b) (h2 : b ≤ 0xDF) :
    start b = ([], ⟨b % 0x20, 0, 1, 0x80, 0xBF⟩) := by
  simp only [start]; rw [if_neg (by omega), if_pos ⟨h1, h2⟩]

theorem start_three {b : Nat} (h1 : 0xE0 ≤ b) (h2 : b ≤ 0xEF) :
    start b = ([], ⟨b % 0x10, 0, 2, if b = 0xE0 then 0xA0 else 0x80, if b = 0xED then 0x9F else 0xBF⟩) := by
  simp only [start]; rw [if_neg (by omega), if_neg (by omega), if_pos ⟨h1, h2⟩]

theorem start_four {b : Nat} (h1 : 0xF0 ≤ b) (h2 : b ≤ 0xF4) :
    start b = ([], ⟨b % 0x08, 0, 3, if b = 0xF0 then 0x90 else 0x80, if b = 0xF4 then 0x8F else 0xBF⟩) := by
  simp only [start]; rw [if_neg (by omega), if_neg (by omega), if_neg (by omega), if_pos ⟨h1, h2⟩]

theorem push_idle {d : Utf8Decoder} (h : d.bytesNeeded = 0) (b : Nat) : d.push b = start b := if_pos h

theorem init_push (b : Nat) : init.push b = start b := push_idle rfl b

theorem push_break {d : Utf8Decoder} {b : Nat} (h : d.bytesNeeded ≠ 0)
    (hb : b < d.lowerBoundary ∨ d.upperBoundary < b) :
    d.push b = ('\uFFFD' :: (start b).1, (start b).2) := by
  simp only [push]; rw [if_neg h, if_pos hb]

theorem push_last {d : Utf8Decoder} {b : Nat} (h : d.bytesNeeded ≠ 0) (hl : d.lowerBoundary ≤ b)
    (hu : b ≤ d.upperBoundary) (hs : d.bytesSeen + 1 = d.bytesNeeded) :
    d.push b = ([Char.ofNat (d.codePoint * 0x40 + b % 0x40)], init) := by
  simp only [push]; rw [if_neg h, if_neg (by omega), if_pos hs]

theorem push_more {d : Utf8Decoder} {b : Nat} (h : d.bytesNeeded ≠ 0) (hl : d.lowerBoundary ≤ b)
    (hu : b ≤ d.upperBoundary) (hs : d.bytesSeen + 1 ≠ d.bytesNeeded) :
    d.push b = ([], ⟨d.codePoint * 0x40 + b % 0x40, d.bytesSeen + 1, d.bytesNeeded, 0x80, 0xBF⟩) := by
  simp only [push]; rw [if_neg h, if_neg (by omega), if_neg hs]

/-! ### The states the decoder reaches -/

/-- Bytes still to come in the pending sequence. -/
def remaining (d : Utf8Decoder) : Nat := d.bytesNeeded - d.bytesSeen

/-- The least code point the pending sequence can complete to. -/
def low (d : Utf8Decoder) : Nat :=
  d.codePoint * 0x40 ^ d.remaining + (d.lowerBoundary - 0x80) * 0x40 ^ (d.remaining - 1)

/-- The greatest code point the pending sequence can complete to. -/
def high (d : Utf8Decoder) : Nat :=
  d.codePoint * 0x40 ^ d.remaining + (d.upperBoundary - 0x7F) * 0x40 ^ (d.remaining - 1) - 1

/-- A pending sequence whose every completion is a scalar value of at least `0x80`. -/
structure Pending (d : Utf8Decoder) : Prop where
  seen_lt : d.bytesSeen < d.bytesNeeded
  needed_le : d.bytesNeeded ≤ 3
  lower_ge : 0x80 ≤ d.lowerBoundary
  lower_le : d.lowerBoundary ≤ d.upperBoundary
  upper_le : d.upperBoundary ≤ 0xBF
  low_ge : 0x80 ≤ d.low
  high_lt : d.high < 0x110000
  no_surrogate : d.high < 0xD800 ∨ 0xE000 ≤ d.low

/-- The states the decoder reaches: idle, or pending. -/
def Valid (d : Utf8Decoder) : Prop := d = init ∨ Pending d

theorem valid_init : Valid init := Or.inl rfl

theorem Valid.pending {d : Utf8Decoder} (hd : Valid d) (h : d.bytesNeeded ≠ 0) : Pending d :=
  hd.resolve_left fun hi => h (by rw [hi]; rfl)

theorem start_valid {b : Nat} (hb : b < 0x100) : Valid (start b).2 := by
  by_cases h1 : b ≤ 0x7F
  · rw [start_ascii h1]; exact valid_init
  by_cases h2 : 0xC2 ≤ b ∧ b ≤ 0xDF
  · rw [start_two h2.1 h2.2]
    refine Or.inr ⟨?_, ?_, ?_, ?_, ?_, ?_, ?_, ?_⟩ <;> simp only [low, high, remaining] <;> omega
  by_cases h3 : 0xE0 ≤ b ∧ b ≤ 0xEF
  · rw [start_three h3.1 h3.2]
    refine Or.inr ⟨?_, ?_, ?_, ?_, ?_, ?_, ?_, ?_⟩ <;> simp only [low, high, remaining] <;>
      (try split_ifs) <;> omega
  by_cases h4 : 0xF0 ≤ b ∧ b ≤ 0xF4
  · rw [start_four h4.1 h4.2]
    refine Or.inr ⟨?_, ?_, ?_, ?_, ?_, ?_, ?_, ?_⟩ <;> simp only [low, high, remaining] <;>
      (try split_ifs) <;> omega
  · have : start b = (['\uFFFD'], init) := by simp only [start]; simp [h1, h2, h3, h4]
    rw [this]; exact valid_init

/-- A continuation byte narrows the range of code points the pending sequence can complete to. -/
theorem Pending.narrow {d : Utf8Decoder} (hp : Pending d) {b : Nat} (hl : d.lowerBoundary ≤ b)
    (hu : b ≤ d.upperBoundary) (hs : d.bytesSeen + 1 ≠ d.bytesNeeded) :
    d.low ≤ low ⟨d.codePoint * 0x40 + b % 0x40, d.bytesSeen + 1, d.bytesNeeded, 0x80, 0xBF⟩ ∧
      high ⟨d.codePoint * 0x40 + b % 0x40, d.bytesSeen + 1, d.bytesNeeded, 0x80, 0xBF⟩ ≤ d.high := by
  have := hp.seen_lt; have := hp.needed_le; have := hp.lower_ge; have := hp.upper_le
  simp only [low, high, remaining]
  obtain hk | hk : d.bytesNeeded - d.bytesSeen = 2 ∨ d.bytesNeeded - d.bytesSeen = 3 := by omega
  all_goals
    rw [hk, show d.bytesNeeded - (d.bytesSeen + 1) = d.bytesNeeded - d.bytesSeen - 1 by omega, hk]
    constructor <;> omega

theorem push_valid {d : Utf8Decoder} (hd : Valid d) {b : Nat} (hb : b < 0x100) :
    Valid (d.push b).2 := by
  by_cases hn : d.bytesNeeded = 0
  · rw [push_idle hn]; exact start_valid hb
  have hp := hd.pending hn
  by_cases hr : b < d.lowerBoundary ∨ d.upperBoundary < b
  · rw [push_break hn hr]; exact start_valid hb
  have hl : d.lowerBoundary ≤ b := by omega
  have hu : b ≤ d.upperBoundary := by omega
  by_cases hs : d.bytesSeen + 1 = d.bytesNeeded
  · rw [push_last hn hl hu hs]; exact valid_init
  rw [push_more hn hl hu hs]
  have ⟨hlow, hhigh⟩ := hp.narrow hl hu hs
  have := hp.seen_lt; have := hp.needed_le; have := hp.low_ge; have := hp.high_lt; have := hp.no_surrogate
  refine Or.inr ⟨?_, ?_, ?_, ?_, ?_, ?_, ?_, ?_⟩ <;> dsimp only <;> omega

/-! ### What a byte produces -/

theorem toNat_replacement : '\uFFFD'.toNat = 0xFFFD := rfl

theorem push_ascii {d : Utf8Decoder} (hd : Valid d) {b : Nat} (hb : b < 0x80) :
    d.push b = (d.finish ++ [Char.ofNat b], init) := by
  by_cases hn : d.bytesNeeded = 0
  · rw [push_idle hn, start_ascii (by omega), finish, if_pos hn]; rfl
  · have := (hd.pending hn).lower_ge
    rw [push_break hn (Or.inl (by omega)), start_ascii (by omega), finish, if_neg hn]; rfl

theorem finish_nonAscii (d : Utf8Decoder) : ∀ c ∈ d.finish, 0x80 ≤ c.toNat := by
  unfold finish; split_ifs <;> simp [toNat_replacement]

theorem start_nonAscii {b : Nat} (hb : 0x80 ≤ b) : ∀ c ∈ (start b).1, 0x80 ≤ c.toNat := by
  simp only [start, if_neg (show ¬ b ≤ 0x7F by omega), apply_ite Prod.fst]
  split_ifs <;> simp [toNat_replacement]

/-- The code point a pending sequence completes to is a scalar value of at least `0x80`. -/
theorem Pending.last {d : Utf8Decoder} (hp : Pending d) {b : Nat} (hl : d.lowerBoundary ≤ b)
    (hu : b ≤ d.upperBoundary) (hs : d.bytesSeen + 1 = d.bytesNeeded) :
    (d.codePoint * 0x40 + b % 0x40).isValidChar ∧ 0x80 ≤ d.codePoint * 0x40 + b % 0x40 := by
  have hlow := hp.low_ge
  have hhigh := hp.high_lt
  have hsur := hp.no_surrogate
  have := hp.lower_ge
  have := hp.upper_le
  have hk : d.remaining = 1 := by unfold remaining; omega
  simp only [low, high, hk] at hlow hhigh hsur
  unfold Nat.isValidChar
  omega

theorem push_nonAscii {d : Utf8Decoder} (hd : Valid d) {b : Nat} (hb : 0x80 ≤ b) :
    ∀ c ∈ (d.push b).1, 0x80 ≤ c.toNat := by
  by_cases hn : d.bytesNeeded = 0
  · rw [push_idle hn]; exact start_nonAscii hb
  have hp := hd.pending hn
  by_cases hr : b < d.lowerBoundary ∨ d.upperBoundary < b
  · rw [push_break hn hr]
    simpa [toNat_replacement] using start_nonAscii hb
  have hl : d.lowerBoundary ≤ b := by omega
  have hu : b ≤ d.upperBoundary := by omega
  by_cases hs : d.bytesSeen + 1 = d.bytesNeeded
  · rw [push_last hn hl hu hs]
    have ⟨hv, hge⟩ := hp.last hl hu hs
    simpa [toNat_ofNat_of_isValidChar hv] using hge
  · rw [push_more hn hl hu hs]; simp

/-- A byte that produces no character leaves a sequence pending. -/
theorem push_pending_of_fst_eq_nil {d : Utf8Decoder} {b : Nat} (h : (d.push b).1 = []) :
    (d.push b).2.bytesNeeded ≠ 0 := by
  have hstart : (start b).1 = [] → (start b).2.bytesNeeded ≠ 0 := by
    simp only [start, apply_ite Prod.fst, apply_ite Prod.snd, apply_ite bytesNeeded]
    split_ifs <;> simp [init]
  by_cases hn : d.bytesNeeded = 0
  · rw [push_idle hn] at h ⊢; exact hstart h
  by_cases hr : b < d.lowerBoundary ∨ d.upperBoundary < b
  · simp [push_break hn hr] at h
  have hl : d.lowerBoundary ≤ b := by omega
  have hu : b ≤ d.upperBoundary := by omega
  by_cases hs : d.bytesSeen + 1 = d.bytesNeeded
  · simp [push_last hn hl hu hs] at h
  · rw [push_more hn hl hu hs]; exact hn

/-! ### Decoding a byte string -/

@[simp] theorem decodeFrom_cons (d : Utf8Decoder) (b : UInt8) (bs : List UInt8) :
    decodeFrom d (b :: bs) = (d.push b.toNat).1 ++ decodeFrom (d.push b.toNat).2 bs := rfl

/-- An ASCII byte ends whatever sequence is pending and reads as itself. -/
theorem decodeFrom_append_ascii {d : Utf8Decoder} (hd : Valid d) (a : List UInt8) {b : UInt8}
    (hb : b.toNat < 0x80) (c : List UInt8) :
    decodeFrom d (a ++ b :: c) = decodeFrom d a ++ Char.ofNat b.toNat :: decodeFrom init c := by
  induction a generalizing d with
  | nil => simp [push_ascii hd hb, decodeFrom]
  | cons x a ih => simp [ih (push_valid hd x.toNat_lt_size)]

theorem decodeFrom_nonAscii {d : Utf8Decoder} (hd : Valid d) {a : List UInt8}
    (ha : ∀ x ∈ a, 0x80 ≤ x.toNat) : ∀ c ∈ decodeFrom d a, 0x80 ≤ c.toNat := by
  induction a generalizing d with
  | nil => exact finish_nonAscii d
  | cons x a ih =>
    simp only [decodeFrom_cons, List.mem_append]
    rintro c (hc | hc)
    · exact push_nonAscii hd (ha x (List.mem_cons_self _ _)) c hc
    · exact ih (push_valid hd x.toNat_lt_size) (fun y hy => ha y (List.mem_cons_of_mem _ hy)) c hc

/-- Every byte read produces a character sooner or later. -/
theorem decodeFrom_eq_nil {d : Utf8Decoder} {a : List UInt8} (h : decodeFrom d a = []) :
    a = [] ∧ d.bytesNeeded = 0 := by
  induction a generalizing d with
  | nil => unfold decodeFrom finish at h; split_ifs at h with hn; simp_all
  | cons x a ih =>
    rw [decodeFrom_cons, List.append_eq_nil] at h
    exact absurd (ih h.2).2 (push_pending_of_fst_eq_nil h.1)

/-! ### Decoding inverts encoding -/

/-- A continuation byte carries the six bits it was built from. -/
theorem continuation_mod (x : Nat) : (0x80 + x % 0x40) % 0x40 = x % 0x40 := by omega

theorem div_0x40_split (n : Nat) : n / 0x1000 * 0x40 + n / 0x40 % 0x40 = n / 0x40 := by omega

theorem div_0x1000_split (n : Nat) : n / 0x40000 * 0x40 + n / 0x1000 % 0x40 = n / 0x1000 := by omega

/-- The decoder accumulates the bytes of `utf8EncodeChar` back into the code point. -/
theorem codePoint_two {n : Nat} (h : n < 0x800) :
    (0xC0 + n / 0x40) % 0x20 * 0x40 + (0x80 + n % 0x40) % 0x40 = n := by
  rw [continuation_mod, show (0xC0 + n / 0x40) % 0x20 = n / 0x40 by omega, Nat.div_add_mod']

theorem codePoint_three {n : Nat} (h : n < 0x10000) :
    ((0xE0 + n / 0x1000) % 0x10 * 0x40 + (0x80 + n / 0x40 % 0x40) % 0x40) * 0x40 + (0x80 + n % 0x40) % 0x40 =
      n := by
  rw [continuation_mod, continuation_mod, show (0xE0 + n / 0x1000) % 0x10 = n / 0x1000 by omega,
    div_0x40_split, Nat.div_add_mod']

theorem codePoint_four {n : Nat} (h : n < 0x110000) :
    (((0xF0 + n / 0x40000) % 0x08 * 0x40 + (0x80 + n / 0x1000 % 0x40) % 0x40) * 0x40 +
      (0x80 + n / 0x40 % 0x40) % 0x40) * 0x40 + (0x80 + n % 0x40) % 0x40 = n := by
  rw [continuation_mod, continuation_mod, continuation_mod,
    show (0xF0 + n / 0x40000) % 0x08 = n / 0x40000 by omega, div_0x1000_split, div_0x40_split,
    Nat.div_add_mod']

theorem mk_push_last {cp seen needed lower upper b : Nat} (h : needed ≠ 0) (hl : lower ≤ b)
    (hu : b ≤ upper) (hs : seen + 1 = needed) :
    (⟨cp, seen, needed, lower, upper⟩ : Utf8Decoder).push b = ([Char.ofNat (cp * 0x40 + b % 0x40)], init) :=
  push_last h hl hu hs

theorem mk_push_more {cp seen needed lower upper b : Nat} (h : needed ≠ 0) (hl : lower ≤ b)
    (hu : b ≤ upper) (hs : seen + 1 ≠ needed) :
    (⟨cp, seen, needed, lower, upper⟩ : Utf8Decoder).push b =
      ([], ⟨cp * 0x40 + b % 0x40, seen + 1, needed, 0x80, 0xBF⟩) :=
  push_more h hl hu hs

theorem decodeFrom_utf8EncodeChar (c : Char) (bs : List UInt8) :
    decodeFrom init (utf8EncodeChar c ++ bs) = c :: decodeFrom init bs := by
  have hv := isValidChar_toNat c
  by_cases h1 : c.toNat < 0x80
  · rw [utf8EncodeChar_of_lt h1, List.singleton_append, decodeFrom_cons, toNat_toUInt8 (by omega),
      push_ascii valid_init h1]
    simp [finish, init]
  by_cases h2 : c.toNat < 0x800
  · rw [utf8EncodeChar_two (by omega) h2]
    simp (disch := omega) only [List.cons_append, List.nil_append, decodeFrom_cons, toNat_toUInt8,
      init_push, start_two, mk_push_last]
    rw [codePoint_two h2, Char.ofNat_toNat]
  -- The boundaries of a three- or four-byte lead are `if`s: the discharger splits them.
  by_cases h3 : c.toNat < 0x10000
  · rw [utf8EncodeChar_three (by omega) h3]
    simp (disch := first | (split_ifs <;> omega) | omega) only [List.cons_append, List.nil_append,
      decodeFrom_cons, toNat_toUInt8, init_push, start_three, mk_push_more, mk_push_last]
    rw [codePoint_three h3, Char.ofNat_toNat]
  · have hmax : c.toNat < 0x110000 := by omega
    clear hv
    rw [utf8EncodeChar_four (by omega)]
    simp (disch := first | (split_ifs <;> omega) | omega) only [List.cons_append, List.nil_append,
      decodeFrom_cons, toNat_toUInt8, init_push, start_four, mk_push_more, mk_push_last]
    rw [codePoint_four hmax, Char.ofNat_toNat]

end Utf8Decoder

/-- `buf.toString('utf8')`. -/
def utf8Decode (bs : List UInt8) : List Char := Utf8Decoder.init.decodeFrom bs

@[simp] theorem utf8Decode_nil : utf8Decode [] = [] := rfl

/-! ## What decoding keeps -/

open Utf8Decoder

theorem utf8Decode_append_utf8Encode (s : List Char) (bs : List UInt8) :
    utf8Decode (utf8Encode s ++ bs) = s ++ utf8Decode bs := by
  induction s with
  | nil => rfl
  | cons c s ih =>
    rw [utf8Encode_cons, List.append_assoc, utf8Decode, decodeFrom_utf8EncodeChar]
    exact congrArg _ ih

/-- Decoding inverts encoding. -/
theorem utf8Decode_utf8Encode (s : List Char) : utf8Decode (utf8Encode s) = s := by
  simpa using utf8Decode_append_utf8Encode s []

/-- A string of ASCII characters. -/
def IsAscii (s : List Char) : Prop := ∀ c ∈ s, c.toNat < 0x80

instance : DecidablePred IsAscii := fun s => inferInstanceAs (Decidable (∀ c ∈ s, c.toNat < 0x80))

theorem utf8Encode_of_isAscii {s : List Char} (hs : IsAscii s) :
    utf8Encode s = s.map fun c => c.toNat.toUInt8 := by
  induction s with
  | nil => rfl
  | cons c s ih =>
    rw [utf8Encode_cons, utf8EncodeChar_of_lt (hs c (List.mem_cons_self _ _)),
      ih (fun d hd => hs d (List.mem_cons_of_mem _ hd))]
    rfl

theorem utf8Decode_ascii_cons {x : UInt8} (hx : x.toNat < 0x80) (r : List UInt8) :
    utf8Decode (x :: r) = Char.ofNat x.toNat :: utf8Decode r := by
  simpa using decodeFrom_append_ascii valid_init [] hx r

theorem utf8EncodeChar_ofNat {x : UInt8} (hx : x.toNat < 0x80) :
    utf8EncodeChar (Char.ofNat x.toNat) = [x] := by
  have hv : (Char.ofNat x.toNat).toNat = x.toNat := toNat_ofNat_of_isValidChar (Or.inl (by omega))
  rw [utf8EncodeChar_of_lt (by omega), hv]
  exact congrArg (· :: []) (UInt8.toNat.inj (toNat_toUInt8 x.toNat_lt_size))

/-- Bytes are either all non-ASCII, or split at their first ASCII byte. -/
theorem nonAscii_or_split (r : List UInt8) : (∀ x ∈ r, 0x80 ≤ x.toNat) ∨
    ∃ n y r', r = n ++ y :: r' ∧ (∀ x ∈ n, 0x80 ≤ x.toNat) ∧ y.toNat < 0x80 := by
  induction r with
  | nil => exact Or.inl (by simp)
  | cons x r ih =>
    by_cases hx : x.toNat < 0x80
    · exact Or.inr ⟨[], x, r, rfl, by simp, hx⟩
    rcases ih with hr | ⟨n, y, r', rfl, hn, hy⟩
    · exact Or.inl (by simp only [List.mem_cons]; rintro z (rfl | hz) <;> [omega; exact hr z hz])
    · exact Or.inr ⟨x :: n, y, r', rfl, by simp only [List.mem_cons]; rintro z (rfl | hz) <;> [omega; exact hn z hz], hy⟩

theorem infix_of_infix_append {α : Type} {p : α → Prop} {t A B : List α} (ht : ∀ a ∈ t, p a)
    (hne : t ≠ []) (hA : ∀ a ∈ A, ¬ p a) (h : t <:+: A ++ B) : t <:+: B := by
  obtain ⟨u, v, huv⟩ := h
  rw [List.append_assoc] at huv
  rcases List.append_eq_append_iff.1 huv with ⟨a', rfl, h2⟩ | ⟨c', rfl, h2⟩
  · cases a' with
    | nil => exact ⟨[], v, by simpa using h2⟩
    | cons z a'' =>
      obtain ⟨w, t', rfl⟩ := List.exists_cons_of_ne_nil hne
      simp only [List.cons_append, List.cons.injEq] at h2
      exact absurd (ht w (List.mem_cons_self _ _)) (h2.1 ▸ hA z (by simp))
  · exact ⟨c', v, by rw [h2, List.append_assoc]⟩

/-- ASCII text at the start of decoded bytes is there as its own bytes. -/
theorem utf8Encode_prefix_of_prefix_utf8Decode {s : List Char} (hs : IsAscii s) :
    ∀ r, s <+: utf8Decode r → utf8Encode s <+: r := by
  induction s with
  | nil => exact fun r _ => List.nil_prefix
  | cons c s ih =>
    intro r h
    have hc : c.toNat < 0x80 := hs c (List.mem_cons_self _ _)
    rcases nonAscii_or_split r with hr | ⟨n, y, r', rfl, hn, hy⟩
    · have := decodeFrom_nonAscii valid_init hr c (h.subset (List.mem_cons_self _ _))
      omega
    cases n with
    | nil =>
      rw [List.nil_append, utf8Decode_ascii_cons hy, List.cons_prefix_cons] at h
      obtain ⟨rfl, hs'⟩ := h
      rw [utf8Encode_cons, utf8EncodeChar_ofNat hy]
      exact (List.prefix_cons_inj _).2 (ih (fun d hd => hs d (List.mem_cons_of_mem _ hd)) r' hs')
    | cons x n =>
      rw [utf8Decode, decodeFrom_append_ascii valid_init _ hy] at h
      have hne : decodeFrom init (x :: n) ≠ [] := fun hnil => by
        simpa using (decodeFrom_eq_nil hnil).1
      obtain ⟨e, es, he⟩ := List.exists_cons_of_ne_nil hne
      rw [he, List.cons_append, List.cons_prefix_cons] at h
      obtain ⟨rfl, -⟩ := h
      have := decodeFrom_nonAscii valid_init hn c (he ▸ List.mem_cons_self _ _)
      omega

/-- ASCII text only appears in decoded bytes where its own bytes appear. -/
theorem utf8Encode_infix_of_infix_utf8Decode {s : List Char} (hs : IsAscii s) (hne : s ≠ []) :
    ∀ r, s <:+: utf8Decode r → utf8Encode s <:+: r := by
  intro r
  induction' hlen : r.length using Nat.strong_induction_on with len ih generalizing r
  intro h
  obtain ⟨c, s', rfl⟩ := List.exists_cons_of_ne_nil hne
  rcases nonAscii_or_split r with hr | ⟨n, y, r', rfl, hn, hy⟩
  · have := decodeFrom_nonAscii valid_init hr c (h.subset (List.mem_cons_self _ _))
    have := hs c (List.mem_cons_self _ _)
    omega
  rw [utf8Decode, decodeFrom_append_ascii valid_init _ hy] at h
  have h' := infix_of_infix_append hs hne (fun e he => Nat.not_lt.2 (decodeFrom_nonAscii valid_init hn e he)) h
  rcases List.infix_cons_iff.1 h' with hp | hi
  · have hp' : c :: s' <+: utf8Decode (y :: r') := by rw [utf8Decode_ascii_cons hy]; exact hp
    exact (utf8Encode_prefix_of_prefix_utf8Decode hs _ hp').isInfix.trans (List.suffix_append _ _).isInfix
  · have hlt : r'.length < len := by rw [← hlen]; simp only [List.length_append, List.length_cons]; omega
    exact (ih _ hlt r' rfl hi).trans ((List.suffix_cons y r').trans (List.suffix_append _ _)).isInfix

/-! ## Searching -/

/-- `buf.indexOf(value)` for a string `value`, searched for as its UTF-8 bytes: where they first
start in `buf`, `none` standing for `-1`. -/
def indexOf (value : List UInt8) : List UInt8 → Option Nat
  | [] => if value.isPrefixOf [] then some 0 else none
  | b :: bs => if value.isPrefixOf (b :: bs) then some 0 else (indexOf value bs).map (· + 1)

section indexOf

variable {v buf : List UInt8}

theorem indexOf_eq_some_iff {i : Nat} :
    indexOf v buf = some i ↔ v <+: buf.drop i ∧ ∀ j < i, ¬ v <+: buf.drop j := by
  induction buf generalizing i with
  | nil =>
    by_cases hv : v = []
    · subst hv
      cases i with
      | zero => simp [indexOf]
      | succ i => simpa [indexOf] using ⟨0, Nat.succ_pos i⟩
    · simp [indexOf, List.isPrefixOf_iff_prefix, List.prefix_nil, hv]
  | cons b bs ih =>
    by_cases hv : v <+: b :: bs
    · simp only [indexOf, List.isPrefixOf_iff_prefix.2 hv, if_true, Option.some.injEq]
      constructor
      · rintro rfl; exact ⟨hv, by simp⟩
      · rintro ⟨-, hfirst⟩; by_contra hi; exact hfirst 0 (by omega) hv
    · simp only [indexOf, List.isPrefixOf_iff_prefix, hv, if_false]
      cases i with
      | zero => simpa using hv
      | succ i =>
        simp only [Option.map_eq_some', Nat.add_right_cancel_iff, exists_eq_right, ih,
          List.drop_succ_cons]
        constructor
        · rintro ⟨hp, hfirst⟩
          refine ⟨hp, fun j hj => ?_⟩
          cases j with
          | zero => simpa using hv
          | succ j => simpa using hfirst j (by omega)
        · rintro ⟨hp, hfirst⟩; exact ⟨hp, fun j hj => by simpa using hfirst (j + 1) (by omega)⟩

theorem indexOf_eq_none_iff : indexOf v buf = none ↔ ∀ j, ¬ v <+: buf.drop j := by
  induction buf with
  | nil =>
    by_cases hv : v = []
    · subst hv; simp [indexOf]
    · simp only [indexOf, List.isPrefixOf_iff_prefix, List.prefix_nil, hv, if_false, true_iff]
      intro j; simpa using hv
  | cons b bs ih =>
    by_cases hv : v <+: b :: bs
    · simp only [indexOf, List.isPrefixOf_iff_prefix.2 hv, if_true, reduceCtorEq, false_iff,
        not_forall, not_not]
      exact ⟨0, hv⟩
    · simp only [indexOf, List.isPrefixOf_iff_prefix, hv, if_false, Option.map_eq_none', ih]
      constructor
      · rintro h (_ | j)
        · simpa using hv
        · simpa using h j
      · intro h j; simpa using h (j + 1)

theorem not_infix_of_indexOf_eq_none (h : indexOf v buf = none) : ¬ v <:+: buf := by
  rintro ⟨s, t, rfl⟩
  exact indexOf_eq_none_iff.1 h s.length (by simp)

theorem indexOf_eq_none_of_absent (h : ¬ v <:+: buf) : indexOf v buf = none :=
  indexOf_eq_none_iff.2 fun j hj => h (hj.isInfix.trans (List.drop_suffix j buf).isInfix)

theorem length_add_le_of_indexOf {i : Nat} (h : indexOf v buf = some i) (hv : v ≠ []) :
    i + v.length ≤ buf.length := by
  have hp := (indexOf_eq_some_iff.1 h).1.length_le
  have : (buf.drop i).length ≠ 0 := fun h0 => hv (List.eq_nil_of_length_eq_zero
    (Nat.le_zero.1 (h0 ▸ hp)))
  simp only [List.length_drop] at hp this
  omega

/-- An occurrence that ends inside `a` is an occurrence in `a`. -/
theorem prefix_drop_of_prefix_drop_append {a e : List UInt8} {p : Nat} (h : v <+: (a ++ e).drop p)
    (hp : p + v.length ≤ a.length) : v <+: a.drop p := by
  rw [List.drop_append_eq_append_drop] at h
  exact List.prefix_of_prefix_length_le h (List.prefix_append _ _) (by simp; omega)

/-- The first occurrence in `a` stays the first when bytes are appended. -/
theorem indexOf_append_of_some {a : List UInt8} {i : Nat} (h : indexOf v a = some i)
    (e : List UInt8) : indexOf v (a ++ e) = some i := by
  obtain ⟨hp, hfirst⟩ := indexOf_eq_some_iff.1 h
  refine indexOf_eq_some_iff.2 ⟨?_, fun j hj hj' => hfirst j hj ?_⟩
  · rw [List.drop_append_eq_append_drop]; exact hp.trans (List.prefix_append _ _)
  · by_cases hv : v = []
    · subst hv; exact List.nil_prefix
    have := length_add_le_of_indexOf h hv
    exact prefix_drop_of_prefix_drop_append hj' (by omega)

/-- Two occurrences of byte strings with no byte in common do not overlap. -/
theorem disjoint_of_prefix_drop {w l : List UInt8} {p q : Nat} (hv : v <+: l.drop p)
    (hw : w <+: l.drop q) (hv0 : v ≠ []) (hw0 : w ≠ []) (hd : ∀ x ∈ v, x ∉ w) :
    p + v.length ≤ q ∨ q + w.length ≤ p := by
  have := List.length_pos.2 hv0
  have := List.length_pos.2 hw0
  by_contra hover
  have key : ∀ {u : List UInt8} {s : Nat}, u <+: l.drop s → ∀ k < u.length, l[s + k]? = u[k]? := by
    intro u s hu k hk
    rw [← List.getElem?_drop, List.prefix_iff_eq_take.1 hu, List.getElem?_take_of_lt hk]
  have hvr := key hv (max p q - p) (by omega)
  have hwr := key hw (max p q - q) (by omega)
  rw [show p + (max p q - p) = max p q by omega] at hvr
  rw [show q + (max p q - q) = max p q by omega] at hwr
  have hvw := hvr.symm.trans hwr
  have hx := List.getElem?_eq_getElem (show max p q - p < v.length by omega)
  exact hd _ (List.getElem?_mem hx) (List.getElem?_mem (hvw ▸ hx))

theorem indexOf_drop {l : List UInt8} {p k : Nat} (h : indexOf v l = some p) (hk : k ≤ p) :
    indexOf v (l.drop k) = some (p - k) := by
  obtain ⟨hp, hfirst⟩ := indexOf_eq_some_iff.1 h
  refine indexOf_eq_some_iff.2 ⟨?_, fun j hj => ?_⟩
  · rwa [List.drop_drop, show k + (p - k) = p by omega]
  · rw [List.drop_drop]; exact hfirst _ (by omega)

theorem indexOf_drop_of_none {l : List UInt8} (h : indexOf v l = none) (k : Nat) :
    indexOf v (l.drop k) = none :=
  indexOf_eq_none_iff.2 fun j => by rw [List.drop_drop]; exact indexOf_eq_none_iff.1 h _

theorem indexOf_of_starts (h : v <+: buf) : indexOf v buf = some 0 :=
  indexOf_eq_some_iff.2 ⟨h, fun j hj => absurd hj (Nat.not_lt_zero j)⟩

/-- A byte string is found right after bytes that do not hold its first byte. -/
theorem indexOf_append_of_not_mem {a : List UInt8} {x : UInt8} (hx : v.head? = some x) (ha : x ∉ a)
    (rest : List UInt8) : indexOf v (a ++ v ++ rest) = some a.length := by
  refine indexOf_eq_some_iff.2 ⟨by simp, fun j hj hp => ha ?_⟩
  obtain ⟨y, v', rfl⟩ := List.exists_cons_of_ne_nil (show v ≠ [] by rintro rfl; simp at hx)
  rw [List.head?_cons, Option.some.injEq] at hx
  subst hx
  rw [List.append_assoc, List.drop_append_of_le_length hj.le] at hp
  obtain ⟨z, a', ha'⟩ := List.exists_cons_of_ne_nil (show a.drop j ≠ [] by simp; omega)
  rw [ha', List.cons_append, List.cons_prefix_cons] at hp
  exact hp.1 ▸ (List.drop_subset j a) (ha' ▸ List.mem_cons_self z a')

/-- A byte string no proper suffix of which starts it is found right after bytes that do not hold
it. -/
theorem indexOf_append_of_absent {g : List UInt8} (hg : ¬ v <:+: g)
    (hborder : ∀ k < v.length, 0 < k → ¬ v.drop k <+: v) (rest : List UInt8) :
    indexOf v (g ++ v ++ rest) = some g.length := by
  refine indexOf_eq_some_iff.2 ⟨by simp, fun j hj hp => ?_⟩
  rw [List.append_assoc] at hp
  by_cases hin : j + v.length ≤ g.length
  · exact hg ((prefix_drop_of_prefix_drop_append hp hin).isInfix.trans (List.drop_suffix j g).isInfix)
  rw [List.drop_append_of_le_length hj.le] at hp
  obtain ⟨t, ht⟩ := hp
  have hL : (g.drop j).length < v.length := by simp; omega
  have hdrop := congrArg (List.drop (g.drop j).length) ht
  rw [List.drop_left, List.drop_append_of_le_length hL.le] at hdrop
  refine hborder _ hL (by simp; omega) (List.prefix_of_prefix_length_le ⟨t, hdrop⟩
    (List.prefix_append v rest) (by simp))

end indexOf

end Theia.Node
