import Theia.Js.Uri
import Theia.Js.NumberToString
/-!
# The Open VSX client: search queries and compatible versions

`OVSXClient` (`dev-packages/ovsx-client/src/ovsx-client.ts`) asks an Open VSX registry about
extensions. Its requests go through `bent` and its version checks through `semver`; neither is
part of the sources, so the registry's answers are inputs here, and the `semver` functions a
parameter (`Semver`), as is the `new URL` the client resolves its references with.

* `buildSearchUri` writes a search's parameters into the query of the registry's search endpoint:
  strings through `encodeURIComponent`, the size and the offset by `Number::toString` as they are.
  `formUrlencodedParse_buildSearchUri_eq`: the registry reads back every parameter that is set,
  with its value, but for a `+` in a number, which it reads as a space; so
  `formUrlencodedParse_buildSearchUri`: it reads back exactly the parameters set unless the size
  or the offset is at least `10 ^ 21`, which `Number::toString` writes with an exponent `e+`.
* `getLatestCompatibleExtensionVersion` asks for every version of an extension and returns the
  first compatible one; `getLatestCompatibleVersion` picks the first compatible version of a
  search entry.
-/

namespace Theia.OvsxClient

open Js

/-! ## Search -/

/-- `VSXSearchParam`, as `buildSearchUri` reads it. A string field that is `undefined` is `''`,
a number field that is `undefined` is `NaN`, and an `undefined` `includeAllVersions` is `false`:
the code reads each only through its truthiness and, when truthy, its text. -/
structure VSXSearchParam where
  query : List Char
  category : List Char
  size : NumberValue
  offset : NumberValue
  sortOrder : List Char
  sortBy : List Char
  includeAllVersions : Bool

/-- The `query` array of `buildSearchUri`, one push per truthy field. A number is written by
`Number::toString`, and `true` as `true`. -/
def searchQuery (param : VSXSearchParam) : List (List Char) :=
  (if param.query ≠ [] then ["query=".toList ++ encodeURIComponent param.query] else []) ++
  (if param.category ≠ [] then ["category=".toList ++ encodeURIComponent param.category] else []) ++
  (if param.size.truthy then ["size=".toList ++ param.size.toString] else []) ++
  (if param.offset.truthy then ["offset=".toList ++ param.offset.toString] else []) ++
  (if param.sortOrder ≠ [] then ["sortOrder=".toList ++ encodeURIComponent param.sortOrder] else []) ++
  (if param.sortBy ≠ [] then ["sortBy=".toList ++ encodeURIComponent param.sortBy] else []) ++
  (if param.includeAllVersions then ["includeAllVersions=true".toList] else [])

/-- `buildSearchUri`: the reference that `new URL` resolves against `options.apiUrl`. -/
def buildSearchUri (param : Option VSXSearchParam) : List Char :=
  let searchUri :=
    match param with
    | some param =>
      let query := searchQuery param
      if query.length > 0 then '?' :: ['&'].intercalate query else []
    | none => []
  "api/-/search".toList ++ searchUri

/-- A string parameter that is set: its name and its value, when the value is not empty. The
last component says whether the parameter is a number. -/
def setParam (name value : List Char) : List (List Char × List Char × Bool) :=
  if value = [] then [] else [(name, value, false)]

/-- A number parameter that is set: its name and its text, when the number is truthy. -/
def numberParam (name : List Char) (x : NumberValue) : List (List Char × List Char × Bool) :=
  if x.truthy then [(name, x.toString, true)] else []

/-- The parameters a search sets, in the order `buildSearchUri` writes them, with their values
and whether each is a number. -/
def VSXSearchParam.fields (param : VSXSearchParam) : List (List Char × List Char × Bool) :=
  setParam "query".toList param.query ++ setParam "category".toList param.category ++
  numberParam "size".toList param.size ++ numberParam "offset".toList param.offset ++
  setParam "sortOrder".toList param.sortOrder ++ setParam "sortBy".toList param.sortBy ++
  setParam "includeAllVersions".toList (if param.includeAllVersions then "true".toList else [])

/-- The parameters a search sets, by name and value. -/
def VSXSearchParam.params (param : VSXSearchParam) : List (List Char × List Char) :=
  param.fields.map fun field => (field.1, field.2.1)

/-- How `buildSearchUri` writes a value: a number as it is, any other through
`encodeURIComponent`. -/
def writeValue (value : List Char) (isNumber : Bool) : List Char :=
  if isNumber then value else encodeURIComponent value

/-- How the registry reads a written value back: a number with its `+` read as a space. -/
def readValue (value : List Char) (isNumber : Bool) : List Char :=
  if isNumber then value.map fun c => if c = '+' then ' ' else c else value

/-- The pushes of `buildSearchUri` are its parameters, each written as `writeValue` says. -/
theorem searchQuery_eq (param : VSXSearchParam) :
    searchQuery param = param.fields.map fun field => field.1 ++ '=' :: writeValue field.2.1 field.2.2 := by
  have hstring : ∀ (name value : List Char),
      (if value ≠ [] then [name ++ '=' :: encodeURIComponent value] else []) =
        (setParam name value).map fun field => field.1 ++ '=' :: writeValue field.2.1 field.2.2 := by
    intro name value
    by_cases h : value = [] <;> simp [setParam, writeValue, h]
  have hnumber : ∀ (name : List Char) (x : NumberValue),
      (if x.truthy then [name ++ '=' :: x.toString] else []) =
        (numberParam name x).map fun field => field.1 ++ '=' :: writeValue field.2.1 field.2.2 := by
    intro name x
    by_cases h : x.truthy <;> simp [numberParam, writeValue, h]
  obtain ⟨query, category, size, offset, sortOrder, sortBy, includeAllVersions⟩ := param
  simp only [searchQuery, VSXSearchParam.fields, List.map_append, ← hstring, ← hnumber]
  cases includeAllVersions <;> rfl

theorem unreserved_or_plus_of_isNumberChar {c : Char} (h : isNumberChar c = true) :
    isUriUnreserved c = true ∨ c = '+' := by
  simp only [isNumberChar, Bool.or_eq_true, beq_iff_eq] at h
  rcases h with ((h | rfl) | rfl) | rfl
  · exact .inl (by simp [isUriUnreserved, h])
  · exact .inl rfl
  · exact .inl rfl
  · exact .inr rfl

theorem mem_setParam {name value : List Char} {field : List Char × List Char × Bool}
    (h : field ∈ setParam name value) : field.1 = name ∧ field.2.2 = false := by
  unfold setParam at h
  split at h
  · exact absurd h (List.not_mem_nil _)
  · rw [List.mem_singleton.1 h]
    exact ⟨rfl, rfl⟩

theorem mem_numberParam {name : List Char} {x : NumberValue} {field : List Char × List Char × Bool}
    (h : field ∈ numberParam name x) : field.1 = name ∧ field.2.1 = x.toString := by
  unfold numberParam at h
  split at h
  · rw [List.mem_singleton.1 h]
    exact ⟨rfl, rfl⟩
  · exact absurd h (List.not_mem_nil _)

/-- A field's name is unreserved, and its value is a number's text or not a number. -/
theorem mem_fields {param : VSXSearchParam} {field : List Char × List Char × Bool}
    (h : field ∈ param.fields) :
    (∀ c ∈ field.1, isUriUnreserved c = true) ∧ (field.2.2 = false ∨ ∃ x : NumberValue, field.2.1 = x.toString) := by
  have hname : ∀ name : List Char, name.all isUriUnreserved = true → ∀ c ∈ name, isUriUnreserved c = true :=
    fun _ h => by simpa using h
  have hstring : ∀ name value, field ∈ setParam name value → name.all isUriUnreserved = true →
      (∀ c ∈ field.1, isUriUnreserved c = true) ∧ (field.2.2 = false ∨ ∃ x : NumberValue, field.2.1 = x.toString) :=
    fun name _ h hall => ⟨(mem_setParam h).1 ▸ hname name hall, .inl (mem_setParam h).2⟩
  have hnumber : ∀ name x, field ∈ numberParam name x → name.all isUriUnreserved = true →
      (∀ c ∈ field.1, isUriUnreserved c = true) ∧ (field.2.2 = false ∨ ∃ x : NumberValue, field.2.1 = x.toString) :=
    fun name x h hall => ⟨(mem_numberParam h).1 ▸ hname name hall, .inr ⟨x, (mem_numberParam h).2⟩⟩
  simp only [VSXSearchParam.fields, List.mem_append] at h
  rcases h with (((((h | h) | h) | h) | h) | h) | h
  · exact hstring _ _ h rfl
  · exact hstring _ _ h rfl
  · exact hnumber _ _ h rfl
  · exact hnumber _ _ h rfl
  · exact hstring _ _ h rfl
  · exact hstring _ _ h rfl
  · exact hstring _ _ h rfl

/-- A written value decodes as `readValue` says, and holds no `&` nor `#`. -/
theorem formDecode_writeValue {value : List Char} {isNumber : Bool}
    (h : isNumber = false ∨ ∃ x : NumberValue, value = x.toString) :
    formDecode (writeValue value isNumber) = readValue value isNumber ∧
      '&' ∉ writeValue value isNumber ∧ '#' ∉ writeValue value isNumber := by
  rcases h with rfl | ⟨x, rfl⟩
  · exact ⟨formDecode_encodeURIComponent value, not_mem_encodeURIComponent (by decide) (by decide) _,
      not_mem_encodeURIComponent (by decide) (by decide) _⟩
  cases isNumber
  · exact ⟨formDecode_encodeURIComponent _, not_mem_encodeURIComponent (by decide) (by decide) _,
      not_mem_encodeURIComponent (by decide) (by decide) _⟩
  · have hchar := fun c hc => unreserved_or_plus_of_isNumberChar (x.isNumberChar_of_mem_toString c hc)
    refine ⟨formDecode_of_ascii fun c hc => ?_, fun h => ?_, fun h => ?_⟩
    · rcases hchar c hc with h | rfl
      · exact ⟨(toNat_of_isUriUnreserved h).1, fun heq => (toNat_of_isUriUnreserved h).2 (heq ▸ rfl)⟩
      · decide
    · exact absurd (hchar _ h) (by decide)
    · exact absurd (hchar _ h) (by decide)

/-- What the registry reads back from a search's URL: each parameter that is set, with its value
as `readValue` says. -/
theorem formUrlencodedParse_buildSearchUri_eq (param : VSXSearchParam) :
    formUrlencodedParse (urlQuery (buildSearchUri (some param))) =
      param.fields.map fun field => (field.1, readValue field.2.1 field.2.2) := by
  have hname : ∀ field ∈ param.fields, '&' ∉ field.1 ∧ '=' ∉ field.1 ∧ '#' ∉ field.1 ∧ formDecode field.1 = field.1 :=
    fun field hfield => by
      have hunreserved := (mem_fields hfield).1
      refine ⟨fun h => absurd (hunreserved _ h) (by decide), fun h => absurd (hunreserved _ h) (by decide),
        fun h => absurd (hunreserved _ h) (by decide), ?_⟩
      conv_lhs => rw [← encodeURIComponent_of_unreserved hunreserved]
      exact formDecode_encodeURIComponent _
  have hwritten : ∀ field ∈ param.fields, formDecode (writeValue field.2.1 field.2.2) = readValue field.2.1 field.2.2 ∧
      '&' ∉ writeValue field.2.1 field.2.2 ∧ '#' ∉ writeValue field.2.1 field.2.2 :=
    fun field hfield => formDecode_writeValue (mem_fields hfield).2
  have hquery : (param.fields.map fun field => field.1 ++ '=' :: writeValue field.2.1 field.2.2) =
      (param.fields.map fun field => (field.1, writeValue field.2.1 field.2.2)).map fun pair => pair.1 ++ '=' :: pair.2 := by
    rw [List.map_map]; rfl
  by_cases hnil : param.fields = []
  · simp only [buildSearchUri, searchQuery_eq, hnil]
    rfl
  have hhash : '#' ∉ ['&'].intercalate (param.fields.map fun field => field.1 ++ '=' :: writeValue field.2.1 field.2.2) := by
    intro h
    rcases mem_intercalate h with h | ⟨_, hsequence, h⟩
    · exact absurd h (by decide)
    obtain ⟨field, hfield, rfl⟩ := List.mem_map.1 hsequence
    rcases List.mem_append.1 h with h | h
    · exact (hname field hfield).2.2.1 h
    rcases List.mem_cons.1 h with h | h
    · exact absurd h (by decide)
    · exact (hwritten field hfield).2.2 h
  simp only [buildSearchUri, searchQuery_eq]
  rw [if_pos (by simpa [List.length_pos] using hnil), urlQuery_append (by decide) hhash, hquery,
    formUrlencodedParse_intercalate, List.map_map]
  · exact List.map_congr_left fun field hfield => by
      simp [(hname field hfield).2.2.2, (hwritten field hfield).1]
  · simp only [List.mem_map]
    rintro _ ⟨field, hfield, rfl⟩
    exact ⟨(hname field hfield).1, (hname field hfield).2.1, (hwritten field hfield).2.1⟩

/-- Reading `+` as a space changes exactly the text that holds a `+`. -/
theorem map_plus_eq_self_iff (s : List Char) : (s.map fun c => if c = '+' then ' ' else c) = s ↔ '+' ∉ s := by
  conv_lhs => rhs; rw [← List.map_id s]
  rw [List.map_inj_left]
  exact ⟨fun h hs => absurd (h '+' hs) (by decide), fun h c hc => if_neg fun (heq : c = '+') => h (heq ▸ hc)⟩

/-- The registry reads back from a search's URL exactly the parameters that are set, each with its
value, unless the size or the offset is at least `10 ^ 21` in magnitude: `Number::toString` then
writes an exponent `e+`, which `buildSearchUri` does not encode, and the registry reads its `+`
as a space. -/
theorem formUrlencodedParse_buildSearchUri (param : Option VSXSearchParam) :
    formUrlencodedParse (urlQuery (buildSearchUri param)) = (param.map VSXSearchParam.params).getD [] ↔
      ∀ p ∈ param, p.size.isLarge = false ∧ p.offset.isLarge = false := by
  rcases param with _ | param
  · exact iff_of_true rfl fun _ h => absurd h (Option.not_mem_none _)
  have hstring : ∀ name value, ∀ field ∈ setParam name value,
      (field.1, readValue field.2.1 field.2.2) = (field.1, field.2.1) :=
    fun _ _ field h => by rw [(mem_setParam h).2]; rfl
  have hnumber : ∀ name (x : NumberValue), (∀ field ∈ numberParam name x,
      (field.1, readValue field.2.1 field.2.2) = (field.1, field.2.1)) ↔ x.isLarge = false := by
    intro name x
    unfold numberParam
    split
    · rw [List.forall_mem_singleton, Prod.mk.injEq, readValue, if_pos rfl]
      simp only [true_and, map_plus_eq_self_iff, NumberValue.plus_mem_toString_iff, Bool.not_eq_true]
    · refine iff_of_true (fun _ h => absurd h (List.not_mem_nil _)) ?_
      cases x with
      | nan => rfl
      | zero => rfl
      | infinity => exact absurd rfl ‹_›
      | finite => exact absurd rfl ‹_›
  rw [formUrlencodedParse_buildSearchUri_eq, Option.map_some', Option.getD_some, VSXSearchParam.params,
    List.map_inj_left]
  simp only [VSXSearchParam.fields, List.forall_mem_append, fun name value => eq_true (hstring name value),
    hnumber, true_and, and_true, Option.mem_def, Option.some.injEq, forall_eq']

/- A search of size `10 ^ 21` is read back with the size `1e 21`. -/
example : formUrlencodedParse (urlQuery (buildSearchUri
    (some ⟨[], [], .finite false ⟨1, 22, by decide⟩, .nan, [], [], false⟩))) = [("size".toList, "1e 21".toList)] := by
  rw [formUrlencodedParse_buildSearchUri_eq]
  simp [VSXSearchParam.fields, setParam, numberParam, NumberValue.truthy, NumberValue.toString,
    ShortestDecimal.toString, ShortestDecimal.k, decimal, readValue]

/-! ## Compatible versions -/

/-- The functions of `semver` the client calls. -/
structure Semver where
  clean : List Char → Option (List Char)
  lte : List Char → List Char → Bool
  satisfies : List Char → List Char → Bool

/-- `OVSXClientOptions`. -/
structure OVSXClientOptions where
  apiVersion : List Char
  apiUrl : List Char

/-- The fields of `VSXExtensionRaw` the client reads; an `undefined` `engines?.vscode` is `''`. -/
structure VSXExtensionRaw where
  «namespace» : List Char
  version : List Char
  engine : List Char
  deriving DecidableEq, Repr

/-- The fields of `VSXAllVersions` the client reads. -/
structure VSXAllVersions where
  version : List Char
  engine : List Char
  deriving DecidableEq, Repr

/-- The fields of `VSXSearchEntry` the client reads. -/
structure VSXSearchEntry where
  «namespace» : List Char
  allVersions : List VSXAllVersions
  deriving DecidableEq, Repr

/-- `VSXQueryParam`: what `getExtension` and `getAllVersions` post. -/
structure VSXQueryParam where
  extensionId : List Char
  includeAllVersions : Bool
  deriving DecidableEq, Repr

/-- `VSXBuiltinNamespaces.VSCODE`, of `ovsx-types`, which is not among the sources. -/
def VSXBuiltinNamespaces.VSCODE : List Char := "vscode".toList

/-- `VSXBuiltinNamespaces.THEIA`. -/
def VSXBuiltinNamespaces.THEIA : List Char := "eclipse-theia".toList

/-- `String.prototype.toLowerCase`, on ASCII letters. -/
def toLowerCase (s : List Char) : List Char := s.map Char.toLower

/-- `isBuiltinNamespace`. -/
def isBuiltinNamespace («namespace» : List Char) : Bool :=
  «namespace» = VSXBuiltinNamespaces.VSCODE || «namespace» = VSXBuiltinNamespaces.THEIA

section Client

variable (semver : Semver) (options : OVSXClientOptions)

/-- `isEngineSupported`. -/
def isEngineSupported (engine : List Char) : Bool :=
  if engine = [] then false
  else if engine = "*".toList then true
  else semver.satisfies options.apiVersion engine

/-- `isVersionLTE`. -/
def isVersionLTE (a b : List Char) : Bool :=
  match semver.clean a, semver.clean b with
  | some versionA, some versionB => if versionA = [] ∨ versionB = [] then false else semver.lte versionA versionB
  | _, _ => false

/-- `getLatestCompatibleVersion`: the first of a search entry's versions that is compatible. -/
def getLatestCompatibleVersion (entry : VSXSearchEntry) : Option VSXAllVersions :=
  if isBuiltinNamespace entry.namespace then
    entry.allVersions.find? fun extension => isVersionLTE semver extension.version options.apiVersion
  else entry.allVersions.find? fun extension => isEngineSupported semver options extension.engine

/- The registry's answer to a query: the `extensions` of the result, `none` when it has none;
and `apiUri`, the text of the URL of the query endpoint that `new URL` resolves. -/
variable (registry : VSXQueryParam → Option (List VSXExtensionRaw)) (apiUri : List Char)

/-- The error of an extension the registry does not know. -/
def notFound (id : List Char) : String :=
  "Extension with id " ++ String.mk id ++ " not found at " ++ String.mk apiUri

/-- `getExtension`. -/
def getExtension (id : List Char) : Except String VSXExtensionRaw :=
  match registry ⟨id, false⟩ with
  | some (extension :: _) => .ok extension
  | _ => .error (notFound apiUri id)

/-- `getAllVersions`. -/
def getAllVersions (id : List Char) : Except String (List VSXExtensionRaw) :=
  match registry ⟨id, true⟩ with
  | some extensions => if extensions.length > 0 then .ok extensions else .error (notFound apiUri id)
  | none => .error (notFound apiUri id)

/-- `getLatestCompatibleExtensionVersion`; the log line of a built-in extension with no version
at most the API version is left out. -/
def getLatestCompatibleExtensionVersion (id : List Char) : Except String (Option VSXExtensionRaw) := do
  let extensions ← getAllVersions registry apiUri id
  match extensions with
  | [] => return none
  | first :: _ =>
    let «namespace» := toLowerCase first.namespace
    if isBuiltinNamespace «namespace» then
      return extensions.find? fun extension => isVersionLTE semver extension.version options.apiVersion
    else
      return extensions.find? fun extension => isEngineSupported semver options extension.engine

end Client

end Theia.OvsxClient
