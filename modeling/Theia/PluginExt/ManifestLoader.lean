import Theia.Js.Number
/-!
# Plugin manifests: `%key%` placeholders replaced from `package.nls.json`

`loadManifest` (`packages/plugin-ext/src/hosted/node/plugin-manifest-loader.ts`) reads a plugin's
`package.json` and its translations `package.nls.json`, and when there are translations runs
`localize` over the manifest: a string that is exactly `%key%` becomes `translations[key]` if that
is truthy, arrays and objects are rebuilt from their localized items and properties, and every
other value is kept.

Two lookups reach `Object.prototype` and not the data:

* `translations[key]` of a key the translations do not have reads the prototype, so `%constructor%`
  becomes the `Object` function, and `%toString%` a function too.
* `result['__proto__'] = …` on the fresh `result` runs the prototype's setter and makes no
  property, so a manifest property named `__proto__` is lost.

`localizeSpec` is `localize` as its contract states it. `localize_eq_localizeSpec` says the two
agree on every manifest that `avoidsPrototype`: no property is named `__proto__` and every
placeholder's key is one of the translations or not a member of `Object.prototype`.
-/

namespace Theia.PluginExt

open Theia.Js

/-- A value `fs.readJson` gives. An object is its own properties in `for…in` order; their keys are
distinct. -/
inductive Json where
  | null
  | bool (b : Bool)
  | num (n : Numeric)
  | str (s : List Char)
  | arr (items : List Json)
  | obj (fields : List (List Char × Json))
  deriving Repr

/-- A value `localize` gives: JSON, or `builtin name`, the member `name` of `Object.prototype` that
a lookup in the translations reached. -/
inductive JsValue where
  | null
  | bool (b : Bool)
  | num (n : Numeric)
  | str (s : List Char)
  | arr (items : List JsValue)
  | obj (fields : List (List Char × JsValue))
  | builtin (name : List Char)
  deriving Repr

mutual

/-- A JSON value as a JavaScript value. -/
def Json.toJsValue : Json → JsValue
  | .null => .null
  | .bool b => .bool b
  | .num n => .num n
  | .str s => .str s
  | .arr items => .arr (Json.toJsValueList items)
  | .obj fields => .obj (Json.toJsValueFields fields)

/-- `Json.toJsValue` of every item. -/
def Json.toJsValueList : List Json → List JsValue
  | [] => []
  | v :: vs => v.toJsValue :: Json.toJsValueList vs

/-- `Json.toJsValue` of every property. -/
def Json.toJsValueFields : List (List Char × Json) → List (List Char × JsValue)
  | [] => []
  | (k, v) :: rest => (k, v.toJsValue) :: Json.toJsValueFields rest

end

/-- JavaScript truthiness. -/
def JsValue.truthy : JsValue → Bool
  | .null => false
  | .bool b => b
  | .num (.finite q) => q ≠ 0
  | .num (.infinity _) => true
  | .num .nan => false
  | .str s => !s.isEmpty
  | .arr _ | .obj _ | .builtin _ => true

/-- The properties of `Object.prototype`, which every object made by `JSON.parse` inherits. -/
def objectPrototypeNames : List (List Char) :=
  ["constructor", "__defineGetter__", "__defineSetter__", "hasOwnProperty", "__lookupGetter__",
    "__lookupSetter__", "isPrototypeOf", "propertyIsEnumerable", "toString", "valueOf", "__proto__",
    "toLocaleString"].map String.toList

/-- The translations: the object `package.nls.json` holds, `{}` when there is no such file. -/
abbrev Translations := List (List Char × Json)

/-- `translations[key]`: an own property, else a member of `Object.prototype`, else
`undefined`. -/
def getProperty (translations : Translations) (key : List Char) : Option JsValue :=
  match translations.lookup key with
  | some v => some v.toJsValue
  | none => if key ∈ objectPrototypeNames then some (.builtin key) else none

/-- A character of `[\w\d.-]`. -/
def isKeyChar (c : Char) : Bool := c.isAlphanum || c = '_' || c = '.' || c = '-'

/-- `NLS_REGEX.exec(value)`, `/^%([\w\d.-]+)%$/i`: `match[1]` when it matches. -/
def nlsKey : List Char → Option (List Char)
  | '%' :: rest =>
    let key := rest.dropLast
    if rest.getLast? = some '%' ∧ key ≠ [] ∧ key.all isKeyChar = true then some key else none
  | _ => none

mutual

/-- `localize(value, translations)`. -/
def localize (translations : Translations) : Json → JsValue
  | .str s =>
    match nlsKey s with
    | some key =>
      match getProperty translations key with
      | some v => if v.truthy then v else .str s
      | none => .str s
    | none => .str s
  | .arr items => .arr (localizeList translations items)
  | .null => .null
  | .obj fields => .obj (localizeFields translations fields)
  | .bool b => .bool b
  | .num n => .num n

/-- The `for…of` loop of `localize` over an array. -/
def localizeList (translations : Translations) : List Json → List JsValue
  | [] => []
  | v :: vs => localize translations v :: localizeList translations vs

/-- The `for…in` loop of `localize` over an object: `result[propertyName] = …` of the fresh
`result` adds the property, except for `__proto__`, whose setter on `Object.prototype` adds
none. -/
def localizeFields (translations : Translations) :
    List (List Char × Json) → List (List Char × JsValue)
  | [] => []
  | (k, v) :: rest =>
    if k = "__proto__".toList then localizeFields translations rest
    else (k, localize translations v) :: localizeFields translations rest

end

/-- `loadManifest` after both files are read: `manifest && translations &&
Object.keys(translations).length ? localize(manifest, translations) : manifest`. -/
def loadManifest (manifest : Json) (translations : Translations) : JsValue :=
  if manifest.toJsValue.truthy ∧ translations.length ≠ 0 then localize translations manifest
  else manifest.toJsValue

/-! ## `localize` as its contract states it -/

mutual

/-- `localize` as stated: a string `%k%` becomes the translation of `k` if there is one and it is
truthy, arrays and objects keep their items and keys, and other values stay. -/
def localizeSpec (translations : Translations) : Json → JsValue
  | .str s =>
    match nlsKey s with
    | some key =>
      match translations.lookup key with
      | some v => if v.toJsValue.truthy then v.toJsValue else .str s
      | none => .str s
    | none => .str s
  | .arr items => .arr (localizeSpecList translations items)
  | .obj fields => .obj (localizeSpecFields translations fields)
  | .null => .null
  | .bool b => .bool b
  | .num n => .num n

/-- `localizeSpec` of every item. -/
def localizeSpecList (translations : Translations) : List Json → List JsValue
  | [] => []
  | v :: vs => localizeSpec translations v :: localizeSpecList translations vs

/-- `localizeSpec` of every property, keeping every key. -/
def localizeSpecFields (translations : Translations) :
    List (List Char × Json) → List (List Char × JsValue)
  | [] => []
  | (k, v) :: rest => (k, localizeSpec translations v) :: localizeSpecFields translations rest

end

mutual

/-- No property is named `__proto__`, and every placeholder's key is one of the translations or
names no member of `Object.prototype`. -/
def avoidsPrototype (translations : Translations) : Json → Bool
  | .str s =>
    match nlsKey s with
    | some key => (translations.lookup key).isSome || decide (key ∉ objectPrototypeNames)
    | none => true
  | .arr items => avoidsPrototypeList translations items
  | .obj fields => avoidsPrototypeFields translations fields
  | .null | .bool _ | .num _ => true

/-- `avoidsPrototype` of every item. -/
def avoidsPrototypeList (translations : Translations) : List Json → Bool
  | [] => true
  | v :: vs => avoidsPrototype translations v && avoidsPrototypeList translations vs

/-- `avoidsPrototype` of every property, none of them named `__proto__`. -/
def avoidsPrototypeFields (translations : Translations) : List (List Char × Json) → Bool
  | [] => true
  | (k, v) :: rest =>
    decide (k ≠ "__proto__".toList) && avoidsPrototype translations v &&
      avoidsPrototypeFields translations rest

end

/-! ## Where `localize` meets its contract -/

/-- Under `avoidsPrototype`, a placeholder's lookup finds only the translations. -/
theorem getProperty_of_avoids {translations : Translations} {key : List Char}
    (h : ((translations.lookup key).isSome || decide (key ∉ objectPrototypeNames)) = true) :
    getProperty translations key = (translations.lookup key).map Json.toJsValue := by
  unfold getProperty
  cases hkey : translations.lookup key with
  | some v => rfl
  | none =>
    have hnot : key ∉ objectPrototypeNames := by simpa [hkey] using h
    simp only [hnot, if_false, Option.map_none']

mutual

theorem localize_eq_localizeSpec (translations : Translations) :
    ∀ v : Json, avoidsPrototype translations v = true →
      localize translations v = localizeSpec translations v
  | .null, _ | .bool _, _ | .num _, _ => rfl
  | .str s, h => by
    simp only [avoidsPrototype, localize, localizeSpec] at h ⊢
    cases hkey : nlsKey s with
    | none => rfl
    | some key =>
      simp only [hkey] at h ⊢
      rw [getProperty_of_avoids h]
      cases translations.lookup key <;> rfl
  | .arr items, h => by
    simp only [avoidsPrototype, localize, localizeSpec] at h ⊢
    rw [localizeList_eq_localizeSpecList translations items h]
  | .obj fields, h => by
    simp only [avoidsPrototype, localize, localizeSpec] at h ⊢
    rw [localizeFields_eq_localizeSpecFields translations fields h]

theorem localizeList_eq_localizeSpecList (translations : Translations) :
    ∀ items : List Json, avoidsPrototypeList translations items = true →
      localizeList translations items = localizeSpecList translations items
  | [], _ => rfl
  | v :: vs, h => by
    simp only [avoidsPrototypeList, Bool.and_eq_true] at h
    simp only [localizeList, localizeSpecList, localize_eq_localizeSpec translations v h.1,
      localizeList_eq_localizeSpecList translations vs h.2]

theorem localizeFields_eq_localizeSpecFields (translations : Translations) :
    ∀ fields : List (List Char × Json), avoidsPrototypeFields translations fields = true →
      localizeFields translations fields = localizeSpecFields translations fields
  | [], _ => rfl
  | (k, v) :: rest, h => by
    simp only [avoidsPrototypeFields, Bool.and_eq_true, decide_eq_true_eq] at h
    simp only [localizeFields, localizeSpecFields, if_neg h.1.1,
      localize_eq_localizeSpec translations v h.1.2,
      localizeFields_eq_localizeSpecFields translations rest h.2]

end

/-- `loadManifest` keeps to the contract on every manifest that avoids the prototype. -/
theorem loadManifest_of_avoidsPrototype {manifest : Json} {translations : Translations}
    (h : avoidsPrototype translations manifest = true) :
    loadManifest manifest translations =
      if manifest.toJsValue.truthy ∧ translations.length ≠ 0 then localizeSpec translations manifest
      else manifest.toJsValue := by
  rw [loadManifest, localize_eq_localizeSpec translations manifest h]

/-! ## Where it reaches `Object.prototype` -/

/-- A placeholder whose key the translations lack but `Object.prototype` has becomes that
member. -/
theorem localize_of_prototype_key {translations : Translations} {s key : List Char}
    (hs : nlsKey s = some key) (hlookup : translations.lookup key = none)
    (hkey : key ∈ objectPrototypeNames) :
    localize translations (.str s) = .builtin key := by
  simp [localize, hs, getProperty, hlookup, hkey, JsValue.truthy]

/-- The keys of a localized object: its own, except `__proto__`. -/
theorem keys_localizeFields (translations : Translations) (fields : List (List Char × Json)) :
    (localizeFields translations fields).map Prod.fst =
      (fields.map Prod.fst).filter (· ≠ "__proto__".toList) := by
  induction fields with
  | nil => rfl
  | cons field rest ih =>
    obtain ⟨k, v⟩ := field
    by_cases hk : k = "__proto__".toList
    · rw [localizeFields, if_pos hk, ih, List.map_cons, List.filter_cons_of_neg (by simpa using hk)]
    · rw [localizeFields, if_neg hk, List.map_cons, List.map_cons, ih,
        List.filter_cons_of_pos (by simpa using hk)]

/-- `%constructor%` with translations that do not have `constructor` becomes the `Object`
function, and a manifest property `__proto__` is dropped, where the contract keeps both. -/
theorem localize_reaches_prototype :
    localize [("x".toList, .str "y".toList)] (.str "%constructor%".toList) =
        .builtin "constructor".toList ∧
      localizeSpec [("x".toList, .str "y".toList)] (.str "%constructor%".toList) =
        .str "%constructor%".toList ∧
      loadManifest (.obj [("__proto__".toList, .num (.finite 1))]) [("x".toList, .str "y".toList)] =
        .obj [] ∧
      localizeSpec [("x".toList, .str "y".toList)] (.obj [("__proto__".toList, .num (.finite 1))]) =
        .obj [("__proto__".toList, .num (.finite 1))] :=
  ⟨rfl, rfl, rfl, rfl⟩

end Theia.PluginExt
