import Mathlib.Data.List.Nodup
/-!
# JavaScript's `Map`

A `Map` keeps its entries in insertion order: `set` of a key it holds replaces the value in place,
`set` of a new key appends, `delete` removes, and `forEach` visits the entries in order. `JsMap`
is the list of its entries.

* `get_set`, `has_set`: what `set` changes, in the form `if k = key then … else …`.
* `get_delete`: what `delete` changes.
* `has_of_has_set`: a key a map holds is kept by every `set`.
* `one_lt_length`: a map that holds two keys has two entries.
* `nodup_keys_set`, `get_of_mem`, `mem_set`: `set` keeps the keys distinct, and in a map with
  distinct keys `get` finds every entry.
-/

namespace Theia.Js

/-- A JavaScript `Map`: its entries in insertion order. -/
abbrev JsMap (κ ν : Type) := List (κ × ν)

namespace JsMap

variable {κ ν : Type} [DecidableEq κ]

/-- `map.get(key)`. -/
def get (m : JsMap κ ν) (key : κ) : Option ν := (m.find? (·.1 = key)).map (·.2)

/-- `map.has(key)`. -/
def has (m : JsMap κ ν) (key : κ) : Bool := m.any (·.1 = key)

/-- `map.set(key, value)`: the value replaced where the key is, or a new entry at the end. -/
def set : JsMap κ ν → κ → ν → JsMap κ ν
  | [], key, value => [(key, value)]
  | p :: m, key, value => if p.1 = key then (key, value) :: m else p :: set m key value

/-- `map.delete(key)`. -/
def delete (m : JsMap κ ν) (key : κ) : JsMap κ ν := m.filter (·.1 ≠ key)

@[simp] theorem get_nil (key : κ) : get ([] : JsMap κ ν) key = none := rfl

@[simp] theorem has_nil (key : κ) : has ([] : JsMap κ ν) key = false := rfl

theorem get_cons (p : κ × ν) (m : JsMap κ ν) (key : κ) :
    get (p :: m) key = if p.1 = key then some p.2 else get m key := by
  by_cases h : p.1 = key <;> simp [get, h]

theorem has_cons (p : κ × ν) (m : JsMap κ ν) (key : κ) : has (p :: m) key = (p.1 = key || has m key) := by
  simp [has]

theorem get_isSome (m : JsMap κ ν) (key : κ) : (m.get key).isSome = m.has key := by
  induction m with
  | nil => rfl
  | cons p m ih => by_cases h : p.1 = key <;> simp [get_cons, has_cons, h, ih]

theorem get_set (m : JsMap κ ν) (key : κ) (value : ν) (k : κ) :
    (m.set key value).get k = if k = key then some value else m.get k := by
  induction m with
  | nil => by_cases h : k = key <;> simp [set, get_cons, h, Ne.symm]
  | cons p m ih =>
    by_cases h : k = key
    · subst h; by_cases hp : p.1 = k <;> simp [set, get_cons, hp, ih]
    · by_cases hp : p.1 = key <;> simp [set, get_cons, hp, ih, h, Ne.symm h]

theorem has_set (m : JsMap κ ν) (key : κ) (value : ν) (k : κ) :
    (m.set key value).has k = (k = key || m.has k) := by
  rw [← get_isSome, ← get_isSome, get_set]
  by_cases h : k = key <;> simp [h]

theorem has_of_has_set {m : JsMap κ ν} {k : κ} (h : m.has k) (key : κ) (value : ν) :
    (m.set key value).has k := by
  simp [has_set, h]

theorem has_set_self (m : JsMap κ ν) (key : κ) (value : ν) : (m.set key value).has key := by
  simp [has_set]

theorem get_delete (m : JsMap κ ν) (key k : κ) :
    (m.delete key).get k = if k = key then none else m.get k := by
  induction m with
  | nil => simp [delete]
  | cons p m ih =>
    by_cases hp : p.1 = key
    · by_cases h : k = key <;> simp_all [delete, get_cons, Ne.symm]
    · by_cases h : p.1 = k <;> simp_all [delete, get_cons, List.filter_cons]

theorem get_eq_none {m : JsMap κ ν} {key : κ} (h : m.has key = false) : m.get key = none := by
  rw [← Option.not_isSome_iff_eq_none, get_isSome, h]; decide

theorem mem_of_get {m : JsMap κ ν} {key : κ} {value : ν} (h : m.get key = some value) :
    (key, value) ∈ m := by
  induction m with
  | nil => cases h
  | cons p m ih =>
    rw [get_cons] at h
    split at h
    · cases h; exact List.mem_cons.2 (Or.inl (by rename_i hp; rw [← hp]))
    · exact List.mem_cons_of_mem _ (ih h)

theorem mem_set {m : JsMap κ ν} {key : κ} {value : ν} {p : κ × ν} (h : p ∈ m.set key value) :
    p = (key, value) ∨ p ∈ m := by
  induction m with
  | nil => exact .inl (List.mem_singleton.1 h)
  | cons q m ih =>
    unfold set at h
    split at h
    · rcases List.mem_cons.1 h with h | h
      · exact .inl h
      · exact .inr (List.mem_cons_of_mem _ h)
    · rcases List.mem_cons.1 h with h | h
      · exact .inr (h ▸ List.mem_cons_self _ _)
      · exact (ih h).imp_right (List.mem_cons_of_mem _)

theorem has_iff_mem_keys (m : JsMap κ ν) (key : κ) : m.has key ↔ key ∈ m.map Prod.fst := by
  simp [has]

/-- `set` keeps the keys where they are, or appends a new one. -/
theorem keys_set (m : JsMap κ ν) (key : κ) (value : ν) :
    (m.set key value).map Prod.fst = if m.has key then m.map Prod.fst else m.map Prod.fst ++ [key] := by
  induction m with
  | nil => rfl
  | cons p m ih =>
    by_cases hp : p.1 = key
    · simp [set, hp, has_cons]
    · by_cases hk : has m key <;> simp [set, hp, ih, has_cons, hk]

theorem nodup_keys_set {m : JsMap κ ν} (h : (m.map Prod.fst).Nodup) (key : κ) (value : ν) :
    ((m.set key value).map Prod.fst).Nodup := by
  rw [keys_set]
  split
  · exact h
  · rename_i hkey
    exact List.nodup_append.2 ⟨h, List.nodup_singleton _,
      List.disjoint_singleton.2 fun hm => hkey ((has_iff_mem_keys m key).2 hm)⟩

/-- In a map whose keys are distinct, an entry is what `get` finds under its key. -/
theorem get_of_mem {m : JsMap κ ν} (h : (m.map Prod.fst).Nodup) {p : κ × ν} (hp : p ∈ m) :
    m.get p.1 = some p.2 := by
  induction m with
  | nil => cases hp
  | cons q m ih =>
    rw [List.map_cons, List.nodup_cons] at h
    rw [get_cons]
    rcases List.mem_cons.1 hp with rfl | hp
    · simp
    · have hne : q.1 ≠ p.1 := fun hq => h.1 (hq ▸ List.mem_map_of_mem Prod.fst hp)
      rw [if_neg hne]; exact ih h.2 hp

/-- A map of two or more entries under distinct keys has an entry under a key other than `a`. -/
theorem exists_key_ne {m : JsMap κ ν} (h : (m.map Prod.fst).Nodup) (hlen : 1 < m.length) (a : κ) :
    ∃ p ∈ m, p.1 ≠ a := by
  match m, h, hlen with
  | p :: q :: _, h, _ =>
    by_cases hp : p.1 = a
    · have hpq : p.1 ≠ q.1 := by simp only [List.map_cons, List.nodup_cons, List.mem_cons] at h; exact fun e => h.1 (.inl e)
      exact ⟨q, List.mem_cons_of_mem _ (List.mem_cons_self _ _), fun hq => hpq (hp.trans hq.symm)⟩
    · exact ⟨p, List.mem_cons_self _ _, hp⟩

/-- A map that holds two keys has at least two entries. -/
theorem one_lt_length {m : JsMap κ ν} {a b : κ} (ha : m.has a) (hb : m.has b) (hab : a ≠ b) :
    1 < m.length := by
  match m, ha, hb with
  | [p], ha, hb =>
    simp only [has_cons, has_nil, Bool.or_false, decide_eq_true_eq] at ha hb
    exact absurd (ha.symm.trans hb) hab
  | _ :: _ :: _, _, _ => simp

end JsMap

end Theia.Js
