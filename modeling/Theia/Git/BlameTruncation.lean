import Theia.Git.BlameFormat

/-!
# A listing cut short

When `git blame` is killed mid-output the parser sees a prefix of the listing, cut at any
character. It keeps the entry of every hunk the prefix holds whole; of the hunk in which the
prefix ends, it keeps an entry only when the prefix holds that hunk's `filename ` tag, space
included, and then with the file name cut where the prefix ends. `cutEntries` says this, and
`parseEntries_eq_cutEntries` proves it.

The argument follows the listing hunk by hunk. Within a hunk, the text before the `filename` line
flushes nothing: its header is read from no entry in progress, which never flushes
(`pumpEntry_fresh`), and its other lines and any prefix of them do not start with the tag
(`result_parseLines_inert`). The `filename` line, cut anywhere after its tag, flushes the entry.

From `cutEntries`: the prefix has one entry per tag it holds (`tagsIn`), the same entries as the
whole listing but perhaps for the file name of the last one, and exactly the same at a line
boundary (`parseEntries_take`).
-/

namespace Theia.Git

open Js

/-! ## Prefixes of lines -/

theorem prefix_append_or {α : Type} {q a b : List α} (h : q <+: a ++ b) :
    q <+: a ∨ ∃ r, q = a ++ r ∧ r <+: b := by
  rcases le_total q.length a.length with hl | hl
  · exact Or.inl (List.prefix_of_prefix_length_le h (List.prefix_append a b) hl)
  · obtain ⟨u, rfl⟩ := List.prefix_of_prefix_length_le (List.prefix_append a b) h hl
    exact Or.inr ⟨u, rfl, (List.prefix_append_right_inj a).mp h⟩

/-- Lines each followed by the delimiter, then more text: the lines, then the parts of the rest. -/
theorem splitOn_terminated_append {d : Char} {ls : List (List Char)} (hls : ∀ l ∈ ls, d ∉ l)
    (rest : List Char) : (ls.flatMap (· ++ [d]) ++ rest).splitOn d = ls ++ rest.splitOn d := by
  induction ls with
  | nil => rfl
  | cons l ls ih =>
    rw [List.flatMap_cons, List.append_assoc, List.append_assoc, List.singleton_append,
      splitOn_append_cons (hls l (by simp)), ih fun l' hl' => hls l' (by simp [hl']),
      List.cons_append]

/-- A prefix of terminated lines splits into pieces each empty or a prefix of one of the lines. -/
theorem pieces_of_prefixed {d : Char} {ls : List (List Char)} (hls : ∀ l ∈ ls, d ∉ l) :
    ∀ {q : List Char}, q <+: ls.flatMap (· ++ [d]) →
      ∀ piece ∈ q.splitOn d, piece = [] ∨ ∃ l ∈ ls, piece <+: l := by
  induction ls with
  | nil =>
    intro q hq piece hp
    rw [List.flatMap_nil, List.prefix_nil] at hq
    subst hq
    exact Or.inl (by simpa [List.splitOn] using hp)
  | cons l ls ih =>
    intro q hq piece hp
    have hl : d ∉ l := hls l (by simp)
    rw [List.flatMap_cons, List.append_assoc, List.singleton_append] at hq
    rcases prefix_append_or hq with hq | ⟨r, rfl, hr⟩
    · rw [splitOn_of_not_mem fun hm => hl (hq.subset hm), List.mem_singleton] at hp
      exact Or.inr ⟨l, by simp, hp ▸ hq⟩
    · rcases List.prefix_cons_iff.mp hr with rfl | ⟨t, rfl, ht⟩
      · rw [List.append_nil, splitOn_of_not_mem hl, List.mem_singleton] at hp
        exact Or.inr ⟨l, by simp, hp ▸ List.prefix_refl l⟩
      · rw [splitOn_append_cons hl, List.mem_cons] at hp
        rcases hp with rfl | hp
        · exact Or.inr ⟨piece, by simp, List.prefix_refl _⟩
        · rcases ih (fun l' hl' => hls l' (by simp [hl'])) ht piece hp with h | ⟨l', hl', h⟩
          · exact Or.inl h
          · exact Or.inr ⟨l', by simp [hl'], h⟩

/-! ## One hunk, cut -/

/-- A hunk's text up to its `filename ` tag, tag included: each earlier line with its newline. -/
def Hunk.tagText (h : Hunk) : List Char :=
  (h.header :: h.fields.map FieldLine.text).flatMap (· ++ ['\n']) ++ filenameTag

/-- The text of a hunk: its lines joined by newlines. -/
def Hunk.text (h : Hunk) : List Char :=
  ['\n'].intercalate h.lines

theorem Hunk.text_eq (h : Hunk) : h.text = h.tagText ++ h.fileName := by
  rw [Hunk.text, Hunk.lines, ← List.cons_append, intercalate_append_singleton, Hunk.tagText,
    filenameTag, List.append_assoc, List.append_assoc, List.singleton_append]

theorem blameText_cons_cons (h h' : Hunk) (hs : List Hunk) :
    blameText (h :: h' :: hs) = h.text ++ '\n' :: blameText (h' :: hs) := by
  rw [blameText, List.flatMap_cons, intercalate_append (by simp [Hunk.lines]) (by simp [Hunk.lines])]
  rfl

/-- The lines of a framed hunk before its `filename` line: no newline, and after the header, no
`filename ` tag. -/
theorem Hunk.Framed.lines_before {h : Hunk} (hf : h.Framed) :
    ∀ l ∈ h.header :: h.fields.map FieldLine.text, '\n' ∉ l := by
  intro l hl
  exact newline_not_mem_lines hf l (by rw [Hunk.lines, ← List.cons_append]; exact List.mem_append_left _ hl)

/-- A line read with no entry in progress starts one and flushes nothing. -/
theorem parseLine_none (result : List Entry) (line : List Char) :
    parseLine ⟨result, none⟩ line = ⟨result, some (pumpEntry {} line).1⟩ := by
  have hpump : pumpEntry {} line = ((pumpEntry {} line).1, false) :=
    Prod.ext rfl (pumpEntry_fresh rfl line)
  rw [parseLine_of_pumpEntry result none hpump, if_neg (by simp)]

/-- A prefix of a hunk's text flushes the hunk's entry, with the file name cut where the prefix
ends, exactly when it holds the `filename ` tag. -/
theorem result_parseLines_prefix_hunk {h : Hunk} (hf : h.Framed) {q : List Char}
    (hq : q <+: h.text) :
    (parseLines ⟨[], none⟩ (q.splitOn '\n')).result =
      if h.tagText <+: q then [{ h.parsedEntry with fileName := some (q.drop h.tagText.length) }]
      else [] := by
  have hbefore := hf.lines_before
  have hfields : ∀ l ∈ h.fields.map FieldLine.text, '\n' ∉ l ∧ ¬ filenameTag <+: l := by
    simpa using fun f hf' => hf.fields f hf'
  rw [Hunk.text_eq, Hunk.tagText, List.append_assoc] at hq
  rcases prefix_append_or hq with hq | ⟨t, rfl, ht⟩
  · -- the cut falls before the `filename` line
    have hnot : ¬ h.tagText <+: q := fun hp => by
      have h1 := hp.length_le
      have h2 := hq.length_le
      have h9 : filenameTag.length = 9 := rfl
      simp only [Hunk.tagText, List.length_append] at h1
      omega
    rw [if_neg hnot]
    rw [List.flatMap_cons, List.append_assoc, List.singleton_append] at hq
    rcases prefix_append_or hq with hq | ⟨r, rfl, hr⟩
    · rw [splitOn_of_not_mem fun hm => hbefore _ (by simp) (hq.subset hm), parseLines_cons,
        parseLine_none]
      rfl
    · rcases List.prefix_cons_iff.mp hr with rfl | ⟨t, rfl, ht⟩
      · rw [List.append_nil, splitOn_of_not_mem (hbefore _ (by simp)), parseLines_cons, parseLine_none]
        rfl
      · rw [splitOn_append_cons (hbefore _ (by simp)), parseLines_cons, parseLine_none]
        refine result_parseLines_inert [] _ fun piece hp hpre => ?_
        rcases pieces_of_prefixed (fun l hl => (hfields l hl).1) ht piece hp with rfl | ⟨l, hl, hpl⟩
        · exact absurd hpre.length_le (by decide)
        · exact (hfields l hl).2 (hpre.trans hpl)
  · -- the cut falls in the `filename` line
    have ht' : '\n' ∉ t := fun hm => by
      rcases List.mem_append.mp (ht.subset hm) with hm | hm
      · exact absurd hm (by decide)
      · exact hf.fileName hm
    obtain ⟨hrun, hsha⟩ := parseLines_header_fields hf []
    rw [splitOn_terminated_append hbefore, splitOn_of_not_mem ht', parseLines_append, hrun]
    by_cases htag : filenameTag <+: t
    · obtain ⟨x, rfl⟩ := htag
      have hpump : pumpEntry h.openEntry (filenameTag ++ x) =
          ({ h.openEntry with fileName := some x }, true) := by
        rw [filenameTag, List.append_assoc, List.singleton_append]
        exact pumpEntry_filename _ hsha x
      rw [if_pos (by rw [Hunk.tagText, ← List.append_assoc]; exact List.prefix_append _ _),
        Hunk.parsedEntry_eq hf, Hunk.tagText, ← List.append_assoc _ filenameTag x, List.drop_left,
        parseLines_cons, parseLines_nil, parseLine_of_pumpEntry [] (some h.openEntry) hpump, if_pos rfl]
      rfl
    · rw [if_neg (by rw [Hunk.tagText, List.prefix_append_right_inj]; exact htag)]
      exact result_parseLines_inert [] _ (by simpa using htag)

/-- A whole hunk, its newline, then more: the hunk's entry, then what the rest flushes. -/
theorem parseLines_hunk_then {h : Hunk} (hf : h.Framed) (result : List Entry) (rest : List Char) :
    parseLines ⟨result, none⟩ ((h.text ++ '\n' :: rest).splitOn '\n') =
      parseLines ⟨result ++ [h.parsedEntry], none⟩ (rest.splitOn '\n') := by
  rw [← List.singleton_append, ← List.append_assoc, Hunk.text,
    intercalate_append_delimiter (show h.lines ≠ [] by simp [Hunk.lines]), splitOn_terminated_append
      (newline_not_mem_lines hf), parseLines_append, parseLines_hunk hf]

/-! ## The listing, cut -/

/-- A prefix of a listing lies in its first hunk, or holds that hunk whole and its newline. -/
theorem prefix_blameText_cons {h : Hunk} {hs : List Hunk} {p : List Char}
    (hp : p <+: blameText (h :: hs)) :
    p <+: h.text ∨ ∃ t, hs ≠ [] ∧ p = h.text ++ '\n' :: t ∧ t <+: blameText hs := by
  cases hs with
  | nil => exact Or.inl (by rwa [blameText, List.flatMap_singleton] at hp)
  | cons h' hs =>
    rw [blameText_cons_cons] at hp
    rcases prefix_append_or hp with hp | ⟨r, rfl, hr⟩
    · exact Or.inl hp
    · rcases List.prefix_cons_iff.mp hr with rfl | ⟨t, rfl, ht⟩
      · exact Or.inl (by rw [List.append_nil])
      · exact Or.inr ⟨t, List.cons_ne_nil _ _, rfl, ht⟩

/-- What the parser keeps of the hunks from a prefix `p` of their listing: the entry of each hunk
`p` holds whole, and of the hunk in which `p` ends, if `p` holds its `filename ` tag, the entry
with the file name cut where `p` ends. -/
def cutEntries : List Hunk → List Char → List Entry
  | [], _ => []
  | h :: hs, p =>
    if h.text.length < p.length then h.parsedEntry :: cutEntries hs (p.drop (h.text.length + 1))
    else if h.tagText <+: p then [{ h.parsedEntry with fileName := some (p.drop h.tagText.length) }]
    else []

theorem cutEntries_of_prefix_text {h : Hunk} (hs : List Hunk) {p : List Char} (hp : p <+: h.text) :
    cutEntries (h :: hs) p =
      if h.tagText <+: p then [{ h.parsedEntry with fileName := some (p.drop h.tagText.length) }]
      else [] := by
  rw [cutEntries, if_neg (not_lt.mpr hp.length_le)]

theorem cutEntries_text_cons (h : Hunk) (hs : List Hunk) (t : List Char) :
    cutEntries (h :: hs) (h.text ++ '\n' :: t) = h.parsedEntry :: cutEntries hs t := by
  rw [cutEntries, if_pos (by simp)]
  simp

/-- The parse of every prefix of a listing of framed hunks. -/
theorem parseEntries_eq_cutEntries (hunks : List Hunk) (hf : ∀ h ∈ hunks, h.Framed) :
    ∀ p, p <+: blameText hunks → parseEntries p = cutEntries hunks p := by
  induction hunks with
  | nil =>
    intro p hp
    obtain rfl : p = [] := List.prefix_nil.mp hp
    rfl
  | cons h hs ih =>
    intro p hp
    rcases prefix_blameText_cons hp with hp | ⟨t, -, rfl, ht⟩
    · rw [parseEntries, strings.split, result_parseLines_prefix_hunk (hf h (by simp)) hp,
        cutEntries_of_prefix_text hs hp]
    · rw [parseEntries, strings.split, parseLines_hunk_then (hf h (by simp)), result_parseLines,
        cutEntries_text_cons, ← ih (fun h hh => hf h (by simp [hh])) t ht]
      rfl

/-! ## What the cut keeps -/

/-- How many hunks have their `filename ` tag, space included, wholly in `p`, a prefix of their
listing: the first hunk's when its text up to the tag is a prefix of `p`, the others' in what
`p` holds after the first hunk and its newline. -/
def tagsIn : List Hunk → List Char → Nat
  | [], _ => 0
  | h :: hs, p => if h.tagText <+: p then 1 + tagsIn hs (p.drop (h.text.length + 1)) else 0

/-- An entry with its file name set aside. -/
def Entry.withoutFileName (entry : Entry) : Entry := { entry with fileName := none }

theorem tagText_ne_nil (h : Hunk) : h.tagText ≠ [] := by simp [Hunk.tagText, filenameTag]

theorem tagsIn_nil_right (hunks : List Hunk) : tagsIn hunks [] = 0 := by
  cases hunks with
  | nil => rfl
  | cons h hs => rw [tagsIn, if_neg fun hp => tagText_ne_nil h (List.prefix_nil.mp hp)]

theorem tagsIn_of_prefix_text {h : Hunk} (hs : List Hunk) {p : List Char} (hp : p <+: h.text) :
    tagsIn (h :: hs) p = if h.tagText <+: p then 1 else 0 := by
  rw [tagsIn, List.drop_eq_nil_of_le (by have := hp.length_le; omega), tagsIn_nil_right]

theorem tagsIn_text_cons (h : Hunk) (hs : List Hunk) (t : List Char) :
    tagsIn (h :: hs) (h.text ++ '\n' :: t) = 1 + tagsIn hs t := by
  rw [tagsIn, if_pos (by rw [Hunk.text_eq, List.append_assoc]; exact List.prefix_append _ _)]
  simp

theorem tagsIn_le_length (hunks : List Hunk) (p : List Char) : tagsIn hunks p ≤ hunks.length := by
  induction hunks generalizing p with
  | nil => exact le_refl 0
  | cons h hs ih =>
    rw [tagsIn]
    split_ifs
    · have := ih (p.drop (h.text.length + 1)); simp only [List.length_cons]; omega
    · exact Nat.zero_le _

section Agreement

variable {hunks : List Hunk}

/-- One entry per tag. -/
theorem length_cutEntries : ∀ p, p <+: blameText hunks → (cutEntries hunks p).length = tagsIn hunks p := by
  induction hunks with
  | nil => intro p _; rfl
  | cons h hs ih =>
    intro p hp
    rcases prefix_blameText_cons hp with hp | ⟨t, -, rfl, ht⟩
    · rw [cutEntries_of_prefix_text hs hp, tagsIn_of_prefix_text hs hp]
      split_ifs <;> rfl
    · rw [cutEntries_text_cons, tagsIn_text_cons, List.length_cons, ih t ht, Nat.add_comm]

/-- The entries kept are the first entries of the whole listing, file names set aside. -/
theorem map_withoutFileName_cutEntries : ∀ p, p <+: blameText hunks →
    (cutEntries hunks p).map Entry.withoutFileName =
      ((hunks.map Hunk.parsedEntry).take (tagsIn hunks p)).map Entry.withoutFileName := by
  induction hunks with
  | nil => intro p _; rfl
  | cons h hs ih =>
    intro p hp
    rcases prefix_blameText_cons hp with hp | ⟨t, -, rfl, ht⟩
    · rw [cutEntries_of_prefix_text hs hp, tagsIn_of_prefix_text hs hp]
      split_ifs <;> rfl
    · rw [cutEntries_text_cons, tagsIn_text_cons, Nat.add_comm, List.map_cons, List.map_cons,
        List.take_succ_cons, List.map_cons, ih t ht]

/-- All but the last entry kept are the first entries of the whole listing. -/
theorem dropLast_cutEntries : ∀ p, p <+: blameText hunks →
    (cutEntries hunks p).dropLast = ((hunks.map Hunk.parsedEntry).take (tagsIn hunks p)).dropLast := by
  induction hunks with
  | nil => intro p _; rfl
  | cons h hs ih =>
    intro p hp
    rcases prefix_blameText_cons hp with hp | ⟨t, -, rfl, ht⟩
    · rw [cutEntries_of_prefix_text hs hp, tagsIn_of_prefix_text hs hp]
      split_ifs <;> rfl
    · have hlen := length_cutEntries t ht
      rw [cutEntries_text_cons, tagsIn_text_cons, Nat.add_comm, List.map_cons, List.take_succ_cons]
      by_cases hc : cutEntries hs t = []
      · rw [hc, List.length_nil] at hlen
        rw [hc, ← hlen]
        rfl
      · have htake : (hs.map Hunk.parsedEntry).take (tagsIn hs t) ≠ [] := by
          have := tagsIn_le_length hs t
          have := List.length_pos.mpr hc
          intro he
          have := congrArg List.length he
          simp only [List.length_take, List.length_map, List.length_nil] at this
          omega
        rw [List.dropLast_cons_of_ne_nil hc, List.dropLast_cons_of_ne_nil htake, ih t ht]

theorem cutEntries_nil_right (hunks : List Hunk) : cutEntries hunks [] = [] := by
  cases hunks with
  | nil => rfl
  | cons h hs =>
    rw [cutEntries, if_neg (by simp), if_neg fun hp => tagText_ne_nil h (List.prefix_nil.mp hp)]

theorem text_prefix_blameText (h : Hunk) (hs : List Hunk) : h.text <+: blameText (h :: hs) := by
  cases hs with
  | nil => rw [blameText, List.flatMap_singleton]; exact List.prefix_refl _
  | cons h' hs => rw [blameText_cons_cons]; exact List.prefix_append _ _

theorem getLast?_tagText (h : Hunk) : h.tagText.getLast? = some ' ' := by
  rw [Hunk.tagText, List.getLast?_append]
  rfl

/-- Cut at a line boundary, a hunk's `filename` line is whole once its tag is. -/
theorem eq_fileName_of_boundary {h : Hunk} (hf : h.Framed) (hs : List Hunk) {y : List Char}
    (hy : y <+: h.fileName)
    (hb : (blameText (h :: hs))[(h.tagText ++ y).length]? = none ∨
      (blameText (h :: hs))[(h.tagText ++ y).length]? = some '\n' ∨
      (h.tagText ++ y).getLast? = some '\n') :
    y = h.fileName := by
  by_contra hne
  have hlt : y.length < h.fileName.length :=
    lt_of_le_of_ne hy.length_le fun he => hne (hy.eq_of_length he)
  obtain ⟨rest, hrest⟩ := text_prefix_blameText h hs
  have hnext : (blameText (h :: hs))[(h.tagText ++ y).length]? = h.fileName[y.length]? := by
    rw [← hrest, Hunk.text_eq, List.append_assoc, List.getElem?_append_right (by simp),
      List.getElem?_append_left (by simp; omega)]
    simp
  rcases hb with hb | hb | hb
  · rw [hnext, List.getElem?_eq_none_iff] at hb
    omega
  · rw [hnext] at hb
    exact hf.fileName (List.getElem?_mem hb)
  · rw [List.getLast?_append, getLast?_tagText] at hb
    cases hyl : y.getLast? with
    | none => rw [hyl] at hb; cases hb
    | some c =>
      rw [hyl, Option.or_some] at hb
      cases hb
      exact hf.fileName (hy.subset (List.mem_of_mem_getLast? hyl))

/-- At a line boundary, the entries kept are exactly the first entries of the whole listing. -/
theorem cutEntries_at_boundary (hf : ∀ h ∈ hunks, h.Framed) : ∀ p, p <+: blameText hunks →
    ((blameText hunks)[p.length]? = none ∨ (blameText hunks)[p.length]? = some '\n' ∨
      p.getLast? = some '\n') →
    cutEntries hunks p = (hunks.map Hunk.parsedEntry).take (tagsIn hunks p) := by
  induction hunks with
  | nil => intro p _ _; rfl
  | cons h hs ih =>
    intro p hp hb
    have hfh := hf h (by simp)
    rcases prefix_blameText_cons hp with hp' | ⟨t, hne, rfl, ht⟩
    · rw [cutEntries_of_prefix_text hs hp', tagsIn_of_prefix_text hs hp']
      split_ifs with htag
      · obtain ⟨y, rfl⟩ := htag
        have hy : y <+: h.fileName := by
          rw [Hunk.text_eq] at hp'
          exact (List.prefix_append_right_inj _).mp hp'
        rw [List.drop_left, eq_fileName_of_boundary hfh hs hy hb]
        show [_] = [h.parsedEntry]
        rw [Hunk.parsedEntry_eq hfh]
      · rfl
    · rw [cutEntries_text_cons, tagsIn_text_cons, Nat.add_comm, List.map_cons, List.take_succ_cons]
      congr 1
      by_cases htn : t = []
      · subst htn
        rw [cutEntries_nil_right, tagsIn_nil_right, List.take_zero]
      · refine ih (fun h hh => hf h (by simp [hh])) t ht ?_
        obtain ⟨h', hs', rfl⟩ := List.exists_cons_of_ne_nil hne
        have hidx : (h.text ++ '\n' :: blameText (h' :: hs'))[(h.text ++ '\n' :: t).length]? =
            (blameText (h' :: hs'))[t.length]? := by
          rw [List.getElem?_append_right (by simp)]
          simp
        have hlast : (h.text ++ '\n' :: t).getLast? = t.getLast? := by
          obtain ⟨c, hc⟩ := Option.ne_none_iff_exists'.mp (mt List.getLast?_eq_none_iff.mp htn)
          rw [← List.singleton_append, ← List.append_assoc, List.getLast?_append, hc, Option.or_some]
        rwa [blameText_cons_cons, hidx, hlast] at hb

end Agreement

/-- A listing cut after `k` characters: one entry per `filename ` tag the cut holds, the first
entries of the whole listing but perhaps for the file name of the last, and exactly those entries
when the cut falls at a line boundary. -/
theorem parseEntries_take (hunks : List Hunk) (hf : ∀ h ∈ hunks, h.Framed) (k : Nat) :
    let p := (blameText hunks).take k
    let n := tagsIn hunks p
    (parseEntries p).length = n ∧
      (parseEntries p).map Entry.withoutFileName =
        ((parseEntries (blameText hunks)).take n).map Entry.withoutFileName ∧
      (parseEntries p).dropLast = ((parseEntries (blameText hunks)).take n).dropLast ∧
      ((blameText hunks)[k]? = none ∨ (blameText hunks)[k]? = some '\n' ∨ p.getLast? = some '\n' →
        parseEntries p = (parseEntries (blameText hunks)).take n) := by
  intro p n
  have hp : p <+: blameText hunks := List.take_prefix k _
  rw [parseEntries_eq_cutEntries hunks hf p hp, parseEntries_blameText hunks hf]
  refine ⟨length_cutEntries p hp, map_withoutFileName_cutEntries p hp, dropLast_cutEntries p hp,
    fun hb => cutEntries_at_boundary hf p hp ?_⟩
  have hlen : p.length = min k (blameText hunks).length := List.length_take _ _
  rcases hb with hb | hb | hb
  · left
    rw [List.getElem?_eq_none_iff] at hb ⊢
    omega
  · have hk : k < (blameText hunks).length := by
      by_contra hc
      rw [List.getElem?_eq_none (by omega)] at hb
      cases hb
    right; left
    rwa [show p.length = k by omega]
  · exact Or.inr (Or.inr hb)

/-- Two hunks cut inside the second file name: both entries, the second with its file name cut. -/
theorem parseEntries_take_twoHunks :
    let hunks : List Hunk :=
      [⟨"abc".toList, "1".toList, "1".toList, "2".toList,
          [.author "Jane".toList, .summary "fix".toList], "a.ts".toList⟩,
        ⟨"def".toList, "3".toList, "3".toList, "1".toList, [], "b.ts".toList⟩]
    (∀ h ∈ hunks, h.Framed) ∧
      let p := (blameText hunks).take 69
      let n := tagsIn hunks p
      (parseEntries p).length = n ∧
        (parseEntries p).map Entry.withoutFileName =
          ((parseEntries (blameText hunks)).take n).map Entry.withoutFileName ∧
        (parseEntries p).dropLast = ((parseEntries (blameText hunks)).take n).dropLast ∧
        ((blameText hunks)[69]? = none ∨ (blameText hunks)[69]? = some '\n' ∨
            p.getLast? = some '\n' →
          parseEntries p = (parseEntries (blameText hunks)).take n) :=
  ⟨by decide, parseEntries_take _ (by decide) 69⟩

end Theia.Git
