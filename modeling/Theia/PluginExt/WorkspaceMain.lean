import Theia.Js.Map
/-!
# Text content providers: a plugin's content, cached once

`TextContentResourceResolver` (`packages/plugin-ext/src/main/browser/workspace-main.ts`) serves
the resources of the schemes plugins register. `resources` maps a uri's string to the one
`TextContentResource` open for it; `WorkspaceMainImpl.$onTextDocumentContentChange` forwards a
plugin's new content to `onContentChange`, which puts it in the resource's `cache`, and the next
`readContents` returns the cache and clears it. A read with no cache asks the plugin host through
`proxy.$provideTextDocumentContent`.

* The resources made so far are `heap`, named by index, in the order they were made.
* `answer` is what `proxy.$provideTextDocumentContent` gives when a read asks for it, `undefined`
  being `none`; a read that does not depend on it did not consult the proxy.
* `run` performs a list of calls from `init`; `consistent_run` says every resource `resources`
  holds is one of `heap`, under its own uri's string.
* `resolve_foldl_step`: a uri keeps resolving to the same resource through any calls that
  dispose no resource of its string. The disposable deletes the entry by the string, so a dispose
  of an older resource of the same string ends it too.

Both reads test the content for truthiness, so an empty content is never served from the cache:
`readContents_onContentChange` is the cache for a non-empty content, and
`readContents_onContentChange_empty` the read after an empty one.
-/

namespace Theia.PluginExt

open Theia.Js

/-- Modelled from the spec: `URI` of `@theia/core/lib/common/uri` is not in the sources; the
resolver reads its `scheme` and its `toString()`. -/
structure URI where
  scheme : List Char
  toString : List Char
  deriving DecidableEq, Repr

/-- A `TextContentResource`: its uri and its `cache`, `undefined` being `none`. -/
structure TextContentResource where
  uri : URI
  cache : Option (List Char)
  deriving DecidableEq, Repr

/-- The rejection of `readContents`, or the proxy's answer for the uri if it is truthy. -/
def provided (uri : List Char) (answer : Option (List Char)) : Except (List Char) (List Char) :=
  match answer with
  | some content => if content ≠ [] then .ok content else .error (unableToGet uri)
  | none => .error (unableToGet uri)
where
  unableToGet (uri : List Char) : List Char := "Unable to get content for '".toList ++ uri ++ "'".toList

namespace TextContentResource

/-- `setContent`. The `onDidChangeContents` event it fires has no listener here. -/
def setContent (resource : TextContentResource) (content : List Char) : TextContentResource :=
  { resource with cache := some content }

/-- `readContents`: a truthy cache is returned and cleared; otherwise the proxy is asked. -/
def readContents (resource : TextContentResource) (answer : Option (List Char)) :
    Except (List Char) (List Char) × TextContentResource :=
  match resource.cache with
  | some content =>
    if content ≠ [] then (.ok content, { resource with cache := none })
    else (provided resource.uri.toString answer, resource)
  | none => (provided resource.uri.toString answer, resource)

@[simp] theorem uri_setContent (resource : TextContentResource) (content : List Char) :
    (resource.setContent content).uri = resource.uri := rfl

@[simp] theorem uri_readContents (resource : TextContentResource) (answer : Option (List Char)) :
    (resource.readContents answer).2.uri = resource.uri := by
  unfold readContents; split <;> [split <;> rfl; rfl]

theorem readContents_setContent {content : List Char} (hc : content ≠ [])
    (resource : TextContentResource) (answer : Option (List Char)) :
    (resource.setContent content).readContents answer = (.ok content, { resource with cache := none }) := by
  simp [readContents, setContent, hc]

theorem readContents_setContent_nil (resource : TextContentResource) (answer : Option (List Char)) :
    (resource.setContent []).readContents answer =
      (provided resource.uri.toString answer, resource.setContent []) := by
  simp [readContents, setContent]

theorem readContents_of_cache_eq_none {resource : TextContentResource} (h : resource.cache = none)
    (answer : Option (List Char)) :
    resource.readContents answer = (provided resource.uri.toString answer, resource) := by
  simp [readContents, h]

end TextContentResource

/-- A truthy answer of the proxy is served; nothing else is, so `''` never is. -/
theorem provided_ne_ok_nil (uri : List Char) (answer : Option (List Char)) :
    provided uri answer ≠ .ok [] := by
  unfold provided
  split
  · split_ifs with h
    · exact fun hok => h (Except.ok.inj hok)
    · nofun
  · nofun

/-- The resolver with the resources it made. A registered provider is `()`: every provider's
`provideResource` is the same closure over the resolver and `WorkspaceMainImpl`'s one proxy. -/
structure TextContentResourceResolver where
  providers : JsMap (List Char) Unit
  resources : JsMap (List Char) Nat
  heap : List TextContentResource
  deriving DecidableEq, Repr

namespace TextContentResourceResolver

/-- A resolver with no provider and no resource. -/
def init : TextContentResourceResolver := ⟨[], [], []⟩

/-- `provideResource` of a registered provider: the resource open for the uri's string, or a new
one. -/
def provideResource (s : TextContentResourceResolver) (uri : URI) :
    Nat × TextContentResourceResolver :=
  match s.resources.get uri.toString with
  | some resource => (resource, s)
  | none =>
    let resource := s.heap.length
    (resource, { s with heap := s.heap ++ [⟨uri, none⟩],
                        resources := s.resources.set uri.toString resource })

/-- `resolve`. -/
def resolve (s : TextContentResourceResolver) (uri : URI) :
    Except (List Char) (Nat × TextContentResourceResolver) :=
  match s.providers.get uri.scheme with
  | some () => .ok (s.provideResource uri)
  | none => .error ("Unable to find Text Content Resource Provider for scheme '".toList ++
      uri.scheme ++ "'".toList)

/-- `registerContentProvider`. -/
def registerContentProvider (s : TextContentResourceResolver) (scheme : List Char) :
    Except (List Char) TextContentResourceResolver :=
  if s.providers.has scheme then
    .error ("Text Content Resource Provider for scheme '".toList ++ scheme ++
      "' is already registered".toList)
  else .ok { s with providers := s.providers.set scheme () }

/-- `unregisterContentProvider`: `providers.delete` answers whether the scheme was there. -/
def unregisterContentProvider (s : TextContentResourceResolver) (scheme : List Char) :
    Except (List Char) TextContentResourceResolver :=
  if s.providers.has scheme then .ok { s with providers := s.providers.delete scheme }
  else
    .error ("Text Content Resource Provider for scheme '".toList ++ scheme ++
      "' has not been registered".toList)

/-- `onContentChange`, called by `WorkspaceMainImpl.$onTextDocumentContentChange`. -/
def onContentChange (s : TextContentResourceResolver) (uri content : List Char) :
    TextContentResourceResolver :=
  match s.resources.get uri with
  | some resource => { s with heap := s.heap.modify (·.setContent content) resource }
  | none => s

/-- `readContents` of the resource `resource`; `none` if no resource has that index. -/
def readContents (s : TextContentResourceResolver) (resource : Nat) (answer : Option (List Char)) :
    Option (Except (List Char) (List Char) × TextContentResourceResolver) :=
  s.heap[resource]?.map fun r =>
    let read := r.readContents answer
    (read.1, { s with heap := s.heap.set resource read.2 })

/-- `dispose` of the resource `resource`: the disposable `provideResource` gave it deletes its
uri's string from `resources`. -/
def dispose (s : TextContentResourceResolver) (resource : Nat) : TextContentResourceResolver :=
  match s.heap[resource]? with
  | some r => { s with resources := s.resources.delete r.uri.toString }
  | none => s

/-- A call into the resolver or into a resource it made. -/
inductive Op where
  | registerContentProvider (scheme : List Char)
  | unregisterContentProvider (scheme : List Char)
  | resolve (uri : URI)
  | onContentChange (uri content : List Char)
  | readContents (resource : Nat) (answer : Option (List Char))
  | dispose (resource : Nat)
  deriving DecidableEq, Repr

/-- One call; a call that throws changes nothing. -/
def step (s : TextContentResourceResolver) : Op → TextContentResourceResolver
  | .registerContentProvider scheme =>
    match s.registerContentProvider scheme with
    | .ok s => s
    | .error _ => s
  | .unregisterContentProvider scheme =>
    match s.unregisterContentProvider scheme with
    | .ok s => s
    | .error _ => s
  | .resolve uri =>
    match s.resolve uri with
    | .ok (_, s) => s
    | .error _ => s
  | .onContentChange uri content => s.onContentChange uri content
  | .readContents resource answer => ((s.readContents resource answer).map (·.2)).getD s
  | .dispose resource => s.dispose resource

/-- The resolver after a list of calls. -/
def run (ops : List Op) : TextContentResourceResolver := ops.foldl step init

theorem resolve_eq_ok {s : TextContentResourceResolver} {uri : URI} {r : Nat}
    {s' : TextContentResourceResolver} (h : s.resolve uri = .ok (r, s')) :
    s.provideResource uri = (r, s') := by
  unfold TextContentResourceResolver.resolve at h
  split at h
  · exact Except.ok.inj h
  · cases h

@[simp] theorem resources_onContentChange (s : TextContentResourceResolver) (uri content : List Char) :
    (s.onContentChange uri content).resources = s.resources := by
  unfold TextContentResourceResolver.onContentChange
  split <;> rfl

theorem resources_readContents {s : TextContentResourceResolver} {resource : Nat}
    {answer : Option (List Char)} {read : Except (List Char) (List Char) × TextContentResourceResolver}
    (h : s.readContents resource answer = some read) : read.2.resources = s.resources := by
  obtain ⟨res, -, rfl⟩ := Option.map_eq_some'.1 h
  rfl

/-- A change pushed to the cache keeps every resource's uri. -/
theorem uris_onContentChange {s : TextContentResourceResolver} (uri content : List Char) (r : Nat) :
    (s.onContentChange uri content).heap[r]?.map TextContentResource.uri = s.heap[r]?.map TextContentResource.uri := by
  unfold TextContentResourceResolver.onContentChange
  split
  · rw [List.getElem?_modify]
    cases s.heap[r]? <;> simp [apply_ite]
  · rfl

/-- A read keeps every resource's uri. -/
theorem uris_readContents {s : TextContentResourceResolver} {resource : Nat} {answer : Option (List Char)}
    {read : Except (List Char) (List Char) × TextContentResourceResolver}
    (h : s.readContents resource answer = some read) (r : Nat) :
    read.2.heap[r]?.map TextContentResource.uri = s.heap[r]?.map TextContentResource.uri := by
  obtain ⟨res, hres, rfl⟩ := Option.map_eq_some'.1 h
  rw [List.getElem?_set]
  split
  · subst r; simp [hres, (List.getElem?_eq_some_iff.1 hres).1]
  · rfl

/-! ## Every resource the resolver holds is one it made, under its own uri -/

/-- Every resource `resources` holds is one of `heap`, under its own uri's string. -/
def Consistent (s : TextContentResourceResolver) : Prop :=
  ∀ u r, s.resources.get u = some r → (s.heap[r]?).map (·.uri.toString) = some u

section Consistent

variable {s : TextContentResourceResolver}

/-- A call that keeps `resources` and every uri keeps `Consistent`. -/
theorem Consistent.of_uris (hs : Consistent s) {s' : TextContentResourceResolver}
    (hresources : s'.resources = s.resources)
    (hheap : ∀ r : Nat, s'.heap[r]?.map TextContentResource.uri = s.heap[r]?.map TextContentResource.uri) :
    Consistent s' := by
  intro u r hr
  have := congrArg (Option.map URI.toString) (hheap r)
  simp only [Option.map_map] at this
  exact this.trans (hs u r (hresources ▸ hr))

theorem Consistent.provideResource (hs : Consistent s) (uri : URI) :
    Consistent (s.provideResource uri).2 := by
  unfold TextContentResourceResolver.provideResource
  split
  · exact hs
  · rename_i hnone
    intro u r hr
    simp only [JsMap.get_set] at hr
    split at hr
    · cases hr; subst u; simp
    · obtain ⟨res, hres, -⟩ := Option.map_eq_some'.1 (hs u r hr)
      have hlt := (List.getElem?_eq_some_iff.1 hres).1
      simpa [List.getElem?_append_left hlt] using hs u r hr

theorem Consistent.onContentChange (hs : Consistent s) (uri content : List Char) :
    Consistent (s.onContentChange uri content) :=
  hs.of_uris (resources_onContentChange s uri content) (uris_onContentChange uri content)

theorem Consistent.readContents (hs : Consistent s) {resource : Nat} {answer : Option (List Char)}
    {read : Except (List Char) (List Char) × TextContentResourceResolver}
    (h : s.readContents resource answer = some read) : Consistent read.2 :=
  hs.of_uris (resources_readContents h) (uris_readContents h)

theorem Consistent.dispose (hs : Consistent s) (resource : Nat) :
    Consistent (s.dispose resource) := by
  unfold TextContentResourceResolver.dispose
  split
  · intro u r hr
    simp only [JsMap.get_delete] at hr
    split at hr
    · cases hr
    · exact hs u r hr
  · exact hs

theorem Consistent.step (hs : Consistent s) : ∀ op, Consistent (s.step op)
  | .registerContentProvider scheme => by
    show Consistent (match s.registerContentProvider scheme with | .ok s => s | .error _ => s)
    unfold registerContentProvider
    split_ifs <;> exact hs
  | .unregisterContentProvider scheme => by
    show Consistent (match s.unregisterContentProvider scheme with | .ok s => s | .error _ => s)
    unfold unregisterContentProvider
    split_ifs <;> exact hs
  | .resolve uri => by
    show Consistent (match s.resolve uri with | .ok (_, s) => s | .error _ => s)
    rcases h : s.resolve uri with _ | ⟨r, s'⟩
    · exact hs
    · simpa [resolve_eq_ok h] using hs.provideResource uri
  | .onContentChange uri content => hs.onContentChange uri content
  | .readContents resource answer => by
    show Consistent (((s.readContents resource answer).map (·.2)).getD s)
    cases h : s.readContents resource answer with
    | none => exact hs
    | some read => exact hs.readContents h
  | .dispose resource => hs.dispose resource

end Consistent

theorem consistent_run (ops : List Op) : Consistent (run ops) := by
  unfold run
  induction ops using List.reverseRecOn with
  | nil => intro u r hr; cases hr
  | append_singleton ops op ih => rw [List.foldl_append]; exact ih.step op

/-! ## The content a plugin pushes, read back -/

section Read

variable {s : TextContentResourceResolver}

theorem get_resolve {uri : URI} {r : Nat} {s' : TextContentResourceResolver}
    (h : s.resolve uri = .ok (r, s')) : s'.resources.get uri.toString = some r := by
  have hprovide := resolve_eq_ok h
  unfold TextContentResourceResolver.provideResource at hprovide
  split at hprovide <;> cases hprovide
  · assumption
  · simp [JsMap.get_set]

theorem heap_onContentChange {u : List Char} {r : Nat} (h : s.resources.get u = some r)
    (content : List Char) :
    (s.onContentChange u content).heap[r]? = s.heap[r]?.map (·.setContent content) := by
  simp [TextContentResourceResolver.onContentChange, h, List.getElem?_modify]

theorem readContents_of_getElem? {r : Nat} {resource : TextContentResource}
    (h : s.heap[r]? = some resource) (answer : Option (List Char)) :
    s.readContents r answer = some ((resource.readContents answer).1,
      { s with heap := s.heap.set r (resource.readContents answer).2 }) := by
  simp [TextContentResourceResolver.readContents, h]

/-- After a call resolves `uri` to `r`, a change pushed under the uri's string lands in `r`'s
cache. -/
theorem heap_resolve_onContentChange {ops : List Op} {uri : URI} {r : Nat}
    (h : (run ops).resolve uri = .ok (r, s)) (content : List Char) :
    ∃ resource : TextContentResource, resource.uri.toString = uri.toString ∧
      (s.onContentChange uri.toString content).heap[r]? = some (resource.setContent content) := by
  have hs : Consistent s := by
    simpa [resolve_eq_ok h] using (consistent_run ops).provideResource uri
  have hget := get_resolve h
  obtain ⟨resource, hres, huri⟩ := Option.map_eq_some'.1 (hs _ _ hget)
  exact ⟨resource, huri, by rw [heap_onContentChange hget, hres]; rfl⟩

/-- A non-empty content pushed for a resolved resource is what its next read gives, whatever the
proxy would answer; the read clears the cache, and the read after it asks the proxy. -/
theorem readContents_onContentChange {ops : List Op} {uri : URI} {r : Nat}
    (h : (run ops).resolve uri = .ok (r, s)) {content : List Char} (hc : content ≠ [])
    (answer answer' : Option (List Char)) :
    ∃ s', (s.onContentChange uri.toString content).readContents r answer = some (.ok content, s') ∧
      (s'.readContents r answer').map Prod.fst = some (provided uri.toString answer') := by
  obtain ⟨resource, huri, hheap⟩ := heap_resolve_onContentChange h content
  refine ⟨_, by rw [readContents_of_getElem? hheap, TextContentResource.readContents_setContent hc],
    ?_⟩
  have hlt := (List.getElem?_eq_some_iff.1 hheap).1
  rw [readContents_of_getElem? (List.getElem?_set_self hlt),
    TextContentResource.readContents_of_cache_eq_none rfl]
  simp [huri]

/-- An empty content is not served from the cache: the read after it asks the proxy, and
resolves to the proxy's answer or rejects, never to `''`. -/
theorem readContents_onContentChange_empty {ops : List Op} {uri : URI} {r : Nat}
    (h : (run ops).resolve uri = .ok (r, s)) (answer : Option (List Char)) :
    ((s.onContentChange uri.toString []).readContents r answer).map Prod.fst =
        some (provided uri.toString answer) ∧
      provided uri.toString answer ≠ .ok [] := by
  obtain ⟨resource, huri, hheap⟩ := heap_resolve_onContentChange h []
  refine ⟨?_, provided_ne_ok_nil _ _⟩
  rw [readContents_of_getElem? hheap, TextContentResource.readContents_setContent_nil]
  simp [huri]

/-- A plugin that registered scheme `s` pushes `''` for `s:/a`; the read asks the proxy, which
gives `undefined`, and rejects. -/
theorem readContents_onContentChange_empty_rejects :
    (run [.registerContentProvider "s".toList]).resolve ⟨"s".toList, "s:/a".toList⟩ =
        .ok (0, ⟨[("s".toList, ())], [("s:/a".toList, 0)], [⟨⟨"s".toList, "s:/a".toList⟩, none⟩]⟩) ∧
      (((⟨[("s".toList, ())], [("s:/a".toList, 0)], [⟨⟨"s".toList, "s:/a".toList⟩, none⟩]⟩ :
          TextContentResourceResolver).onContentChange "s:/a".toList []).readContents 0 none).map
          Prod.fst = some (provided "s:/a".toList none) ∧
        provided "s:/a".toList none ≠ .ok [] :=
  have h : (run [.registerContentProvider "s".toList]).resolve ⟨"s".toList, "s:/a".toList⟩ =
      .ok (0, ⟨[("s".toList, ())], [("s:/a".toList, 0)], [⟨⟨"s".toList, "s:/a".toList⟩, none⟩]⟩) := rfl
  ⟨h, readContents_onContentChange_empty h none⟩

end Read

/-! ## A resolved resource is served until a resource of its uri is disposed

`provideResource` hands back the resource `resources` holds for a uri's string. That entry stays
through every call but one: `dispose` of a resource of that uri's string, which deletes the entry
by the string, whichever resource of the string is disposed. -/

section Stable

variable {s : TextContentResourceResolver}

/-- A call that throws leaves the resolver as it was. -/
theorem step_resolve (uri : URI) :
    s.step (.resolve uri) = s ∨ s.step (.resolve uri) = (s.provideResource uri).2 := by
  dsimp only [step]
  rcases h : s.resolve uri with _ | ⟨r, s'⟩
  · exact .inl rfl
  · exact .inr (by rw [resolve_eq_ok h])

theorem step_registerContentProvider (scheme : List Char) :
    (s.step (.registerContentProvider scheme)).heap = s.heap ∧
      (s.step (.registerContentProvider scheme)).resources = s.resources := by
  simp only [step, registerContentProvider]
  split_ifs <;> exact ⟨rfl, rfl⟩

theorem step_unregisterContentProvider (scheme : List Char) :
    (s.step (.unregisterContentProvider scheme)).heap = s.heap ∧
      (s.step (.unregisterContentProvider scheme)).resources = s.resources := by
  simp only [step, unregisterContentProvider]
  split_ifs <;> exact ⟨rfl, rfl⟩

theorem uri_provideResource {r : Nat} {u : URI} (h : s.heap[r]?.map TextContentResource.uri = some u)
    (uri : URI) : (s.provideResource uri).2.heap[r]?.map TextContentResource.uri = some u := by
  unfold TextContentResourceResolver.provideResource
  split
  · exact h
  · obtain ⟨res, hres, -⟩ := Option.map_eq_some'.1 h
    simpa [List.getElem?_append_left (List.getElem?_eq_some_iff.1 hres).1] using h

/-- Every call keeps the uri of every resource made so far. -/
theorem uri_step {r : Nat} {u : URI} (h : s.heap[r]?.map TextContentResource.uri = some u) :
    ∀ op, ((s.step op).heap[r]?).map TextContentResource.uri = some u
  | .registerContentProvider scheme => by rw [(step_registerContentProvider scheme).1]; exact h
  | .unregisterContentProvider scheme => by rw [(step_unregisterContentProvider scheme).1]; exact h
  | .resolve uri => by
    rcases step_resolve (s := s) uri with hs | hs <;> rw [hs]
    · exact h
    · exact uri_provideResource h uri
  | .onContentChange uri content => (uris_onContentChange uri content r).trans h
  | .readContents resource answer => by
    show ((((s.readContents resource answer).map (·.2)).getD s).heap[r]?).map _ = _
    cases hread : s.readContents resource answer with
    | none => exact h
    | some read => exact (uris_readContents hread r).trans h
  | .dispose resource => by
    show ((s.dispose resource).heap[r]?).map _ = _
    unfold TextContentResourceResolver.dispose
    split <;> exact h

theorem uri_foldl_step {r : Nat} {u : URI} (h : s.heap[r]?.map TextContentResource.uri = some u)
    (ops : List Op) : ((ops.foldl step s).heap[r]?).map TextContentResource.uri = some u := by
  induction ops generalizing s with
  | nil => exact h
  | cons op ops ih => exact ih (uri_step h op)

theorem get_provideResource {u : List Char} {r : Nat} (h : s.resources.get u = some r) (uri : URI) :
    (s.provideResource uri).2.resources.get u = some r := by
  unfold TextContentResourceResolver.provideResource
  split
  · exact h
  · rename_i hnone
    rw [JsMap.get_set, if_neg fun hu => by rw [← hu, h] at hnone; cases hnone]
    exact h

/-- The entry of a uri's string survives every call but the dispose of a resource of that string. -/
theorem get_step {u : List Char} {r : Nat} (h : s.resources.get u = some r) (op : Op)
    (hdispose : ∀ resource, op = .dispose resource → (s.heap[resource]?).map (·.uri.toString) ≠ some u) :
    (s.step op).resources.get u = some r := by
  cases op with
  | registerContentProvider scheme => rw [(step_registerContentProvider scheme).2]; exact h
  | unregisterContentProvider scheme => rw [(step_unregisterContentProvider scheme).2]; exact h
  | resolve uri =>
    rcases step_resolve (s := s) uri with hs | hs <;> rw [hs]
    · exact h
    · exact get_provideResource h uri
  | onContentChange uri content => simpa [step] using h
  | readContents resource answer =>
    show (((s.readContents resource answer).map (·.2)).getD s).resources.get u = some r
    cases hread : s.readContents resource answer with
    | none => exact h
    | some read => rwa [Option.map_some', Option.getD_some, resources_readContents hread]
  | dispose resource =>
    show (s.dispose resource).resources.get u = some r
    unfold TextContentResourceResolver.dispose
    split
    · rename_i res hres
      rw [JsMap.get_delete, if_neg fun hu => hdispose resource rfl (by simp [hres, hu])]
      exact h
    · exact h

/-- Once `resources` holds `r` for `u`, it holds it after any calls that dispose no resource of
`u`: the uri of a resource is the same at the dispose and at the end. -/
theorem get_foldl_step {u : List Char} {r : Nat} (h : s.resources.get u = some r) (ops : List Op)
    (hdispose : ∀ resource, Op.dispose resource ∈ ops →
      ((ops.foldl step s).heap[resource]?).map (·.uri.toString) ≠ some u) :
    (ops.foldl step s).resources.get u = some r := by
  induction ops generalizing s with
  | nil => exact h
  | cons op ops ih =>
    refine ih (get_step h op fun resource hop hu => ?_) fun resource hmem => hdispose resource (.tail _ hmem)
    subst hop
    obtain ⟨res, hres, rfl⟩ := Option.map_eq_some'.1 hu
    refine hdispose resource (.head _) ?_
    have := uri_foldl_step (s := s) (show s.heap[resource]?.map TextContentResource.uri = some res.uri by simp [hres])
      (.dispose resource :: ops)
    simpa [Option.map_map] using congrArg (Option.map URI.toString) this

/-- A uri resolved to `r` resolves to `r` again after any calls, as long as its scheme's provider
is registered and no resource of the uri's string was disposed: the same resource, and no new one. -/
theorem resolve_foldl_step {uri : URI} {r : Nat} {s' : TextContentResourceResolver}
    (h : s.resolve uri = .ok (r, s')) (ops : List Op)
    (hdispose : ∀ resource, Op.dispose resource ∈ ops →
      ((ops.foldl step s').heap[resource]?).map (·.uri.toString) ≠ some uri.toString)
    (hscheme : (ops.foldl step s').providers.has uri.scheme) :
    (ops.foldl step s').resolve uri = .ok (r, ops.foldl step s') := by
  obtain ⟨⟨⟩, hprovider⟩ := Option.isSome_iff_exists.1 ((JsMap.get_isSome _ _).trans hscheme)
  simp [TextContentResourceResolver.resolve, hprovider, TextContentResourceResolver.provideResource,
    get_foldl_step (get_resolve h) ops hdispose]

/-- `s:/a` resolved to resource `0`, then a change, a read and another uri's resolve: `s:/a` still
resolves to `0`. -/
theorem resolve_foldl_step_after_reads :
    let uri : URI := ⟨"s".toList, "s:/a".toList⟩
    let s' : TextContentResourceResolver := ⟨[("s".toList, ())], [("s:/a".toList, 0)], [⟨uri, none⟩]⟩
    let ops : List Op :=
      [.onContentChange "s:/a".toList "x".toList, .readContents 0 none, .resolve ⟨"s".toList, "s:/b".toList⟩]
    (run [.registerContentProvider "s".toList]).resolve uri = .ok (0, s') ∧
      (ops.foldl step s').resolve uri = .ok (0, ops.foldl step s') := by
  intro uri s' ops
  have h : (run [.registerContentProvider "s".toList]).resolve uri = .ok (0, s') := rfl
  exact ⟨h, resolve_foldl_step h ops (by simp [ops]) (by decide)⟩

end Stable

end TextContentResourceResolver

end Theia.PluginExt
