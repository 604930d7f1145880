import Theia.Node.Buffer
import Theia.Js.Text
/-!
# URI components: `encodeURIComponent`, and how a query is read back

`OVSXClient.buildSearchUri` writes each search parameter with `encodeURIComponent`, and the
registry reads the query back as the URL Standard's `application/x-www-form-urlencoded` parser
(`URLSearchParams`) does. Neither is part of the sources; both are modelled here on their
standards.

* `encodeURIComponent` (ECMAScript, URI Handling Functions) keeps the `uriUnreserved` characters
  and writes every other code point as the `%XY` escapes of its UTF-8 bytes. A string is a list
  of code points here, so the lone surrogates on which the function throws have no counterpart.
* `percentDecode` and `formUrlencodedParse` follow the URL Standard. The standard splits the
  UTF-8 bytes of the query at `&` and `=`; splitting its code points gives the same pieces, since
  in UTF-8 these bytes only stand for those characters.
* `formDecode_encodeURIComponent`: decoding inverts `encodeURIComponent`, and
  `formDecode_of_ascii`: other ASCII text without `%` decodes to itself, but for `+`, which is read
  as a space. `formUrlencodedParse_intercalate`: a query of `name=value` sequences joined with
  `&` parses to the decoded names and values, and `urlQuery_append`: such a query is the whole
  query of a URL it is written into.
-/

namespace Theia.Js

open Theia.Node

/-! ## Encoding -/

/-- `uriUnreserved`: the ASCII letters and digits and `-_.!~*'()`, which `encodeURIComponent`
leaves as they are. -/
def isUriUnreserved (c : Char) : Bool :=
  c.isAlphanum || ['-', '_', '.', '!', '~', '*', '\'', '(', ')'].contains c

/-- The upper-case hexadecimal digit of `n < 16`. -/
def hexDigit (n : Nat) : Char := if n < 10 then Char.ofNat (48 + n) else Char.ofNat (55 + n)

/-- `%XY`, the escape of one byte. -/
def percentEncode (b : UInt8) : List Char := ['%', hexDigit (b.toNat / 16), hexDigit (b.toNat % 16)]

/-- `encodeURIComponent`. -/
def encodeURIComponent (s : List Char) : List Char :=
  s.flatMap fun c => if isUriUnreserved c then [c] else (utf8EncodeChar c).flatMap percentEncode

@[simp] theorem encodeURIComponent_nil : encodeURIComponent [] = [] := rfl

@[simp] theorem encodeURIComponent_cons (c : Char) (s : List Char) :
    encodeURIComponent (c :: s) =
      (if isUriUnreserved c then [c] else (utf8EncodeChar c).flatMap percentEncode) ++
        encodeURIComponent s := rfl

/-! ## Reading a query back -/

/-- The value of an ASCII hex digit. -/
def hexValue (b : UInt8) : Option Nat :=
  if 0x30 ≤ b.toNat ∧ b.toNat ≤ 0x39 then some (b.toNat - 0x30)
  else if 0x41 ≤ b.toNat ∧ b.toNat ≤ 0x46 then some (b.toNat - 0x37)
  else if 0x61 ≤ b.toNat ∧ b.toNat ≤ 0x66 then some (b.toNat - 0x57)
  else none

/-- Percent-decoding (URL Standard, Percent-encoded bytes): a `%` and two hex digits is the byte
they spell; every other byte stays. -/
def percentDecode : List UInt8 → List UInt8
  | [] => []
  | b :: h :: l :: rest =>
    if b = 0x25 then
      match hexValue h, hexValue l with
      | some x, some y => (x * 16 + y).toUInt8 :: percentDecode rest
      | _, _ => b :: percentDecode (h :: l :: rest)
    else b :: percentDecode (h :: l :: rest)
  | b :: rest => b :: percentDecode rest

/-- A name or a value as the parser decodes it: `+` is a space, and the percent-decoded bytes
are read as UTF-8 (UTF-8 decode without BOM). -/
def formDecode (s : List Char) : List Char :=
  utf8Decode (percentDecode (utf8Encode (s.map fun c => if c = '+' then ' ' else c)))

/-- A sequence's name and value: the text before its first `=`, and the text after it. -/
def splitSequence (sequence : List Char) : List Char × List Char :=
  (sequence.takeWhile (· ≠ '='), (sequence.dropWhile (· ≠ '=')).drop 1)

/-- The `application/x-www-form-urlencoded` parser: the name–value pairs of a query, with its
empty sequences skipped. -/
def formUrlencodedParse (input : List Char) : List (List Char × List Char) :=
  ((input.splitOn '&').filter (!·.isEmpty)).map fun sequence =>
    (formDecode (splitSequence sequence).1, formDecode (splitSequence sequence).2)

/-- The query of a URL: what follows its first `?`, up to a `#`; empty when it has no `?`, which
`URLSearchParams` reads as no pairs. -/
def urlQuery (url : List Char) : List Char :=
  ((url.dropWhile (· ≠ '?')).drop 1).takeWhile (· ≠ '#')

/-! ## Decoding inverts encoding -/

/-- The sixteen digits are unreserved ASCII characters that `hexValue` reads back. -/
theorem hexDigit_spec : ∀ n < 16, isUriUnreserved (hexDigit n) ∧ (hexDigit n).toNat < 0x80 ∧
    hexValue (hexDigit n).toNat.toUInt8 = some n := by
  decide

/-- Unreserved characters are ASCII, and `%` is not one of them. -/
theorem toNat_of_isUriUnreserved {c : Char} (h : isUriUnreserved c) : c.toNat < 0x80 ∧ c.toNat ≠ 0x25 := by
  simp only [isUriUnreserved, Bool.or_eq_true, List.elem_eq_mem, decide_eq_true_eq, List.contains] at h
  rcases h with h | h
  · simp [Char.isAlphanum, Char.isAlpha, Char.isUpper, Char.isLower, Char.isDigit, Char.le_def,
      UInt32.le_def, BitVec.le_def] at h
    simp only [Char.toNat, UInt32.toNat]
    omega
  · simp only [List.mem_cons, List.mem_singleton, List.not_mem_nil, or_false] at h
    rcases h with rfl | rfl | rfl | rfl | rfl | rfl | rfl | rfl | rfl <;> decide

/-- An encoding is made of unreserved characters and `%`. -/
theorem unreserved_of_mem_encodeURIComponent {s : List Char} {c : Char}
    (h : c ∈ encodeURIComponent s) : isUriUnreserved c ∨ c = '%' := by
  simp only [encodeURIComponent, List.mem_flatMap] at h
  obtain ⟨d, -, hd⟩ := h
  split at hd
  · rcases List.mem_singleton.mp hd with rfl
    exact .inl ‹_›
  · obtain ⟨b, -, hb⟩ := List.mem_flatMap.mp hd
    have hlt : b.toNat < 256 := b.toNat_lt_size
    simp only [percentEncode, List.mem_cons, List.mem_singleton, List.not_mem_nil, or_false] at hb
    rcases hb with rfl | rfl | rfl
    · exact .inr rfl
    · exact .inl (hexDigit_spec _ (by omega)).1
    · exact .inl (hexDigit_spec _ (by omega)).1

/-- Text made of unreserved characters is its own encoding. -/
theorem encodeURIComponent_of_unreserved {s : List Char} (h : ∀ c ∈ s, isUriUnreserved c) :
    encodeURIComponent s = s := by
  induction s with
  | nil => rfl
  | cons c s ih =>
    rw [encodeURIComponent_cons, if_pos (h c (List.mem_cons_self c s)),
      ih fun d hd => h d (List.mem_cons_of_mem c hd)]
    rfl

theorem percentDecode_cons_of_ne {b : UInt8} (hb : b ≠ 0x25) (rest : List UInt8) :
    percentDecode (b :: rest) = b :: percentDecode rest := by
  rcases rest with _ | ⟨h, _ | ⟨l, rest⟩⟩ <;> simp [percentDecode, hb]

/-- An escape decodes to its byte. -/
theorem percentDecode_percentEncode (b : UInt8) (rest : List UInt8) :
    percentDecode (utf8Encode (percentEncode b) ++ rest) = b :: percentDecode rest := by
  have hlt : b.toNat < 256 := b.toNat_lt_size
  obtain ⟨-, hhi, hhi'⟩ := hexDigit_spec (b.toNat / 16) (by omega)
  obtain ⟨-, hlo, hlo'⟩ := hexDigit_spec (b.toNat % 16) (by omega)
  simp only [percentEncode, utf8Encode_cons, utf8Encode_nil, utf8EncodeChar_of_lt hhi,
    utf8EncodeChar_of_lt hlo, utf8EncodeChar_of_lt (show '%'.toNat < 0x80 by decide),
    List.singleton_append, List.cons_append, List.nil_append]
  rw [percentDecode, if_pos (by decide : '%'.toNat.toUInt8 = 0x25), hhi', hlo']
  dsimp only
  rw [Nat.div_add_mod' b.toNat 16, UInt8.toNat.inj (toNat_toUInt8 hlt)]

theorem percentDecode_flatMap_percentEncode (bs rest : List UInt8) :
    percentDecode (utf8Encode (bs.flatMap percentEncode) ++ rest) = bs ++ percentDecode rest := by
  induction bs with
  | nil => rfl
  | cons b bs ih =>
    rw [List.flatMap_cons, utf8Encode_append, List.append_assoc, percentDecode_percentEncode, ih]
    rfl

/-- The escapes of a character decode to its UTF-8 bytes, whatever follows them. -/
theorem percentDecode_encodeURIComponent (s : List Char) (rest : List UInt8) :
    percentDecode (utf8Encode (encodeURIComponent s) ++ rest) = utf8Encode s ++ percentDecode rest := by
  induction s with
  | nil => rfl
  | cons c s ih =>
    rw [encodeURIComponent_cons, utf8Encode_append, List.append_assoc, utf8Encode_cons,
      List.append_assoc, ← ih]
    split
    · rename_i hc
      obtain ⟨hascii, hpercent⟩ := toNat_of_isUriUnreserved hc
      have hbyte : c.toNat.toUInt8 ≠ 0x25 := fun h =>
        hpercent (by simpa [toNat_toUInt8 (by omega : c.toNat < 0x100)] using congrArg UInt8.toNat h)
      rw [utf8Encode_cons, utf8Encode_nil, List.append_nil, utf8EncodeChar_of_lt hascii,
        List.singleton_append, List.singleton_append, percentDecode_cons_of_ne hbyte]
    · exact percentDecode_flatMap_percentEncode _ _

theorem not_mem_encodeURIComponent {d : Char} (hd : isUriUnreserved d = false) (hpercent : d ≠ '%')
    (s : List Char) : d ∉ encodeURIComponent s := fun h =>
  (unreserved_of_mem_encodeURIComponent h).elim (fun h => absurd h (by simp [hd])) hpercent

/-- Decoding inverts `encodeURIComponent`. -/
theorem formDecode_encodeURIComponent (s : List Char) : formDecode (encodeURIComponent s) = s := by
  have hplus : (encodeURIComponent s).map (fun c => if c = '+' then ' ' else c) = encodeURIComponent s := by
    conv_rhs => rw [← List.map_id (encodeURIComponent s)]
    refine List.map_congr_left fun c hc => if_neg ?_
    rintro rfl
    exact not_mem_encodeURIComponent (by decide) (by decide) s hc
  rw [formDecode, hplus, ← List.append_nil (utf8Encode _), percentDecode_encodeURIComponent,
    percentDecode, List.append_nil, utf8Decode_utf8Encode]

/-- Text of ASCII characters other than `%` decodes to itself, `+` read as a space. -/
theorem formDecode_of_ascii {s : List Char} (h : ∀ c ∈ s, c.toNat < 0x80 ∧ c ≠ '%') :
    formDecode s = s.map fun c => if c = '+' then ' ' else c := by
  have hmapped : ∀ c ∈ s.map (fun c => if c = '+' then ' ' else c), c.toNat < 0x80 ∧ c.toNat ≠ 0x25 := by
    simp only [List.mem_map]
    rintro _ ⟨c, hc, rfl⟩
    split
    · decide
    · exact ⟨(h c hc).1, fun heq => (h c hc).2 (by rw [← Char.ofNat_toNat c, heq])⟩
  have hbytes : ∀ bs : List Char, (∀ c ∈ bs, c.toNat < 0x80 ∧ c.toNat ≠ 0x25) →
      percentDecode (utf8Encode bs) = utf8Encode bs := by
    intro bs hbs
    induction bs with
    | nil => rfl
    | cons c bs ih =>
      obtain ⟨hascii, hpercent⟩ := hbs c (List.mem_cons_self c bs)
      have hbyte : c.toNat.toUInt8 ≠ 0x25 := fun heq =>
        hpercent (by simpa [toNat_toUInt8 (by omega : c.toNat < 0x100)] using congrArg UInt8.toNat heq)
      rw [utf8Encode_cons, utf8EncodeChar_of_lt hascii, List.singleton_append, percentDecode_cons_of_ne hbyte,
        ih fun d hd => hbs d (List.mem_cons_of_mem c hd)]
  rw [formDecode, hbytes _ hmapped, utf8Decode_utf8Encode]

/-- A sequence splits at the first `=`, the one after a name without `=`. -/
theorem splitSequence_append {name : List Char} (hname : '=' ∉ name) (value : List Char) :
    splitSequence (name ++ '=' :: value) = (name, value) := by
  have h : ∀ c ∈ name, decide (c ≠ '=') = true := fun c hc =>
    decide_eq_true fun heq => hname (heq ▸ hc)
  rw [splitSequence, List.takeWhile_append_of_pos h, List.dropWhile_append_of_pos h]
  simp

/-- Parsing `name=value` sequences joined with `&` decodes each name and value. -/
theorem formUrlencodedParse_intercalate (pairs : List (List Char × List Char))
    (hpairs : ∀ pair ∈ pairs, '&' ∉ pair.1 ∧ '=' ∉ pair.1 ∧ '&' ∉ pair.2) :
    formUrlencodedParse (['&'].intercalate (pairs.map fun pair => pair.1 ++ '=' :: pair.2)) =
      pairs.map fun pair => (formDecode pair.1, formDecode pair.2) := by
  by_cases hnil : pairs = []
  · subst hnil
    rfl
  · have hamp : ∀ sequence ∈ pairs.map (fun pair => pair.1 ++ '=' :: pair.2), '&' ∉ sequence := by
      simp only [List.mem_map]
      rintro _ ⟨pair, hpair, rfl⟩
      simp only [List.mem_append, List.mem_cons, not_or]
      exact ⟨(hpairs pair hpair).1, by decide, (hpairs pair hpair).2.2⟩
    rw [formUrlencodedParse, List.splitOn_intercalate _ '&' hamp (by simpa using hnil),
      List.filter_eq_self.2 fun sequence hseq => by
        obtain ⟨pair, -, rfl⟩ := List.mem_map.1 hseq
        simp, List.map_map]
    exact List.map_congr_left fun pair hpair => by
      simp [splitSequence_append (hpairs pair hpair).2.1]

theorem mem_intercalate {d c : Char} {ls : List (List Char)} (h : c ∈ [d].intercalate ls) :
    c = d ∨ ∃ l ∈ ls, c ∈ l := by
  induction ls with
  | nil => simp [List.intercalate] at h
  | cons l ls ih =>
    cases ls with
    | nil =>
      rw [intercalate_singleton] at h
      exact .inr ⟨l, List.mem_singleton_self l, h⟩
    | cons l' ls =>
      rw [intercalate_cons_cons] at h
      rcases List.mem_append.1 h with h | h
      · exact .inr ⟨l, List.mem_cons_self l _, h⟩
      rcases List.mem_cons.1 h with rfl | h
      · exact .inl rfl
      rcases ih h with h | ⟨m, hm, hc⟩
      · exact .inl h
      · exact .inr ⟨m, List.mem_cons_of_mem l hm, hc⟩

/-- A query without `#` written after the first `?` of a URL is the URL's query. -/
theorem urlQuery_append {path query : List Char} (hpath : '?' ∉ path) (hquery : '#' ∉ query) :
    urlQuery (path ++ '?' :: query) = query := by
  have hne : ∀ c ∈ path, decide (c ≠ '?') = true := fun c hc =>
    decide_eq_true fun heq => hpath (heq ▸ hc)
  have hhash : ∀ c ∈ query, decide (c ≠ '#') = true := fun c hc =>
    decide_eq_true fun heq => hquery (heq ▸ hc)
  rw [urlQuery, List.dropWhile_append_of_pos hne, List.dropWhile_cons_of_neg (by simp), List.drop_one,
    List.tail_cons, List.takeWhile_eq_self_iff.2 hhash]

end Theia.Js
