import Mathlib.Data.Set.Function
import Vectorlink.Embed
import Vectorlink.EmbedCache

/-! Requests to the embedding provider through the cache. -/
namespace Vectorlink

structure TaskPrefix where
  document : String
  query : String
  clustering : String
  classification : String
deriving DecidableEq

/-- The three kinds of providers have the same fields, and no function here tells them apart. -/
structure ProviderConfig where
  baseUrl : String
  model : String
  dim : ℕ
  prefixes : Option TaskPrefix

inductive EmbedError where
  | unreachable (message : String)
  | providerError (status : ℕ) (body : String)
  | dimensionMismatch (expected actual : ℕ)
  | parseError (message : String)
deriving DecidableEq

def EmbedError.text : EmbedError → String
  | .unreachable message => s!"embedding provider unreachable: {message}"
  | .providerError status body =>
    s!"embedding provider returned non-2xx: status={status}, body={body}"
  | .dimensionMismatch expected actual => s!"dimension mismatch: expected {expected}, got {actual}"
  | .parseError message => s!"response parse error: {message}"

structure EmbedRequest where
  url : String
  model : String
  input : List String
  dimensions : ℕ
deriving DecidableEq

/-- A response: its body as a text, and its bytes read as the embeddings of the `data` field. -/
structure EmbedResponse where
  status : ℕ
  text : Option String
  bytes : Except String (Except String (List (List F32)))

/-- The HTTP client in front of the provider, with what the cache is built on. -/
structure EmbedEnv extends CacheEnv where
  send : EmbedRequest → Except String EmbedResponse

/-- Which of sled's reads and inserts of one call succeed, by the place of the text. -/
structure SledIo where
  readable : ℕ → Bool
  stored : ℕ → Bool

/-- A cache that is passed to a call, if one is. -/
abbrev CacheArg := Option (CacheHandle × CacheStore)

section Prefixes

def prefixesForModel (model : String) : Option TaskPrefix :=
  if model ∈ ["nomic-ai/nomic-embed-text-v2-moe", "nomic-embed-text-v2-moe", "nomic-embed-v2",
      "nomic-ai/nomic-embed-text-v1.5"] then
    some ⟨"search_document: ", "search_query: ", "clustering: ", "classification: "⟩
  else if model ∈ ["intfloat/multilingual-e5-base", "multilingual-e5-base"] then
    some ⟨"passage: ", "query: ", "query: ", "query: "⟩
  else none

def prefixForRole (taskPrefix : TaskPrefix) : EmbeddingRole → String
  | .document => taskPrefix.document
  | .query => taskPrefix.query
  | .clustering => taskPrefix.clustering
  | .classification => taskPrefix.classification

def ProviderConfig.effectivePrefixes (provider : ProviderConfig) : Option TaskPrefix :=
  provider.prefixes.or (prefixesForModel provider.model)

def applyPrefix (texts : List String) (prefixes : Option TaskPrefix) (role : EmbeddingRole) :
    List String :=
  match prefixes with
  | some taskPrefix => texts.map fun t => prefixForRole taskPrefix role ++ t
  | none => texts

end Prefixes

section Model

/-- Neither NaN nor infinite: the exponent is not all ones. -/
def F32.finite (x : F32) : Bool := x.toNat / 8388608 % 256 ≠ 255

/-- The first embedding of a response that is refused. -/
def firstInvalid (expectedDim : ℕ) : ℕ → List (List F32) → Option EmbedError
  | _, [] => none
  | i, embedding :: embeddings =>
    if embedding.length ≠ expectedDim then
      some (.dimensionMismatch expectedDim embedding.length)
    else if embedding.any fun x => !F32.finite x then
      some (.parseError s!"embedding {i} contains NaN or Inf")
    else firstInvalid expectedDim (i + 1) embeddings

def parseEmbeddingResponse (body : Except String (List (List F32))) (expectedDim : ℕ) :
    Except EmbedError (List (List F32)) :=
  match body with
  | .error e => .error (.parseError e)
  | .ok embeddings =>
    match firstInvalid expectedDim 0 embeddings with
    | some e => .error e
    | none => .ok embeddings

/-- The base URL without slashes at its end, and the path. -/
def ProviderConfig.url (provider : ProviderConfig) : String :=
  String.ofList ((provider.baseUrl.toList.reverse.dropWhile (· = '/')).reverse) ++ "/v1/embeddings"

namespace EmbedEnv

variable (env : EmbedEnv) (provider : ProviderConfig)

/-- The embeddings of texts that are sent, up to the guard that there is one for each. -/
def request (input : List String) : Except EmbedError (List (List F32)) :=
  match env.send ⟨provider.url, provider.model, input, provider.dim⟩ with
  | .error e => .error (.unreachable e)
  | .ok response =>
    if response.status < 200 ∨ 300 ≤ response.status then
      .error (.providerError response.status (response.text.getD "failed to read body"))
    else match response.bytes with
      | .error e => .error (.parseError e)
      | .ok body =>
        match parseEmbeddingResponse body provider.dim with
        | .error e => .error e
        | .ok embeddings =>
          if embeddings.length ≠ input.length then
            .error (.parseError s!"count mismatch: sent {input.length} texts, received {embeddings.length} embeddings")
          else .ok embeddings

/-- The cached embeddings of the texts, without a cache none. -/
def lookups (io : SledIo) (cache : CacheArg) (prefixed : List String) :
    List (Option (List F32)) :=
  match cache with
  | some (handle, store) => prefixed.mapIdx fun i text =>
    handle.get env.toCacheEnv store (env.cacheKey provider.model text) provider.dim (io.readable i)
  | none => prefixed.map fun _ => none

def missIndices (results : List (Option (List F32))) : List ℕ :=
  (List.range results.length).filter fun i => results[i]? = some none

/-- The embeddings of the misses go to their places. -/
def mergeMisses (results : List (Option (List F32))) (misses : List (ℕ × List F32)) :
    List (Option (List F32)) :=
  misses.foldl (fun results miss => results.set miss.1 (some miss.2)) results

/-- The embeddings of the misses are put into the cache, in the same loop. -/
def storeMisses (io : SledIo) (prefixed : List String) (cache : CacheArg)
    (misses : List (ℕ × List F32)) : CacheArg :=
  cache.map fun c => (c.1, misses.foldl (fun store miss =>
    c.1.put env.toCacheEnv store (env.cacheKey provider.model (prefixed.getD miss.1 "")) miss.2
      (io.stored miss.1)) c.2)

/-- What a call returns for prefixed texts and the cache it leaves. The source unwraps every
place of the results. -/
def embedPrefixed (io : SledIo) (cache : CacheArg) (prefixed : List String) :
    Except EmbedError (List (List F32)) × CacheArg :=
  let results := env.lookups provider io cache prefixed
  let misses := missIndices results
  if misses.isEmpty then (.ok (results.filterMap id), cache)
  else
    match env.request provider (misses.map fun i => prefixed.getD i "") with
    | .error e => (.error e, cache)
    | .ok embeddings =>
      let found := misses.zip embeddings
      (.ok ((mergeMisses results found).filterMap id),
        env.storeMisses provider io prefixed cache found)

def ioEmbed (texts : List String) (role : EmbeddingRole) (io : SledIo) (cache : CacheArg) :
    Except EmbedError (List (List F32)) × CacheArg :=
  if texts.isEmpty then (.ok [], cache)
  else env.embedPrefixed provider io cache (applyPrefix texts provider.effectivePrefixes role)

/-- The texts of a failed batch, one call for each. -/
def retryTexts (role : EmbeddingRole) (io : ℕ → SledIo) : ℕ → CacheArg → List String →
    List (EmbedResult (List F32)) × CacheArg
  | _, cache, [] => ([], cache)
  | j, cache, text :: texts =>
    let single := env.ioEmbed provider [text] role (io j) cache
    let result : EmbedResult (List F32) := match single.1 with
      | .ok embeddings =>
        match embeddings.getLast? with
        | some embedding => .ok embedding
        | none => .failed "individual retry returned empty"
      | .error e => .failed s!"embedding failed after individual retry: {e.text}"
    let rest := retryTexts role io (j + 1) single.2 texts
    (result :: rest.1, rest.2)

/-- The batches one after another; `io k none` is for the `k`-th batch, `io k (some j)` for the
retry of its `j`-th text. -/
def embedBatches (role : EmbeddingRole) (io : ℕ → Option ℕ → SledIo) : ℕ → CacheArg →
    List (List String) → List (EmbedResult (List F32)) × CacheArg
  | _, cache, [] => ([], cache)
  | k, cache, batch :: batches =>
    let call := env.ioEmbed provider batch role (io k none) cache
    let done := match call.1 with
      | .ok embeddings => (embeddings.map EmbedResult.ok, call.2)
      | .error _ => env.retryTexts provider role (fun j => io k (some j)) 0 call.2 batch
    let rest := embedBatches role io (k + 1) done.2 batches
    (done.1 ++ rest.1, rest.2)

def ioEmbedBatched (texts : List String) (batchSize : ℕ) (role : EmbeddingRole)
    (io : ℕ → Option ℕ → SledIo) (cache : CacheArg) :
    List (EmbedResult (List F32)) × CacheArg :=
  env.embedBatches provider role io 0 cache (sliceChunks batchSize texts)

end EmbedEnv

end Model

section Spec

variable (env : EmbedEnv) (provider : ProviderConfig)

/-- The text that is sent for a text. -/
def ProviderConfig.prefixText (role : EmbeddingRole) (text : String) : String :=
  match provider.effectivePrefixes with
  | some taskPrefix => prefixForRole taskPrefix role ++ text
  | none => text

/-- The provider has an embedding or none for each text, answers the texts of a request in their
order, and refuses a request with a text that it has none for. -/
structure EmbedEnv.Answers (embedding : String → Option (List F32)) : Prop where
  each : ∀ input, (∀ t ∈ input, (embedding t).isSome) →
    ∃ response, env.send ⟨provider.url, provider.model, input, provider.dim⟩ = .ok response ∧
      200 ≤ response.status ∧ response.status < 300 ∧
      response.bytes = .ok (.ok (input.filterMap embedding))
  refuses : ∀ input t response body, t ∈ input → embedding t = none →
    env.send ⟨provider.url, provider.model, input, provider.dim⟩ = .ok response →
    200 ≤ response.status → response.status < 300 → response.bytes ≠ .ok (.ok body)

/-- The embedding of a text, if it has the dimension and its numbers are finite. -/
def accepted (embedding : String → Option (List F32)) (t : String) : Option (List F32) :=
  (embedding t).filter fun v => v.length = provider.dim ∧ v.all F32.finite

/-- What a request with the one text gives. -/
def EmbedEnv.outcomeAlone (t : String) : EmbedResult (List F32) :=
  match env.request provider [t] with
  | .ok embeddings =>
    match embeddings.getLast? with
    | some embedding => .ok embedding
    | none => .failed "individual retry returned empty"
  | .error e => .failed s!"embedding failed after individual retry: {e.text}"

/-- A cache that calls for one provider filled, with texts of a set. -/
inductive Written (U : Set String) : CacheStore → Prop where
  | fresh (count : UInt64) : Written U ⟨∅, count⟩
  | call {store store' : CacheStore} {handle handle' : CacheHandle} {texts : List String}
      {role : EmbeddingRole} {io : SledIo} : Written U store →
      (∀ t ∈ texts, provider.prefixText role t ∈ U) →
      (env.ioEmbed provider texts role io (some (handle, store))).2 = some (handle', store') →
      Written U store'

/-- The tree has embeddings of texts of a set, under their keys. -/
def CachesOnly (embedding : String → Option (List F32)) (U : Set String) (store : CacheStore) :
    Prop :=
  ∀ key bytes, store.tree.lookup key = some bytes → ∃ t ∈ U, ∃ v,
    accepted provider embedding t = some v ∧ key = env.cacheKey provider.model t ∧
      bytes = env.compressToVec (v.flatMap toLeBytes)

end Spec

section Bytes

theorem fromLeBytes_toLeBytes (x : F32) : ∃ a b c d, toLeBytes x = [a, b, c, d] ∧
    fromLeBytes a b c d = x := by
  refine ⟨_, _, _, _, rfl, ?_⟩
  unfold fromLeBytes
  have hx : x.toNat < 4294967296 := x.toNat_lt
  apply UInt32.toNat.inj
  simp only [UInt8.toNat_ofNat', UInt32.toNat_ofNat']
  omega

theorem floatsOf_flatMap (v : List F32) : floatsOf (v.flatMap toLeBytes) = v := by
  induction v with
  | nil => rfl
  | cons x v ih =>
    obtain ⟨a, b, c, d, hbytes, hx⟩ := fromLeBytes_toLeBytes x
    rw [List.flatMap_cons, hbytes]
    simp only [List.cons_append, List.nil_append, floatsOf, ih, hx]

end Bytes

section Request

variable {env : EmbedEnv} {provider : ProviderConfig} {embedding : String → Option (List F32)}
  {input : List String} {t : String}

theorem firstInvalid_eq_none_iff {dim : ℕ} {i : ℕ} {l : List (List F32)} :
    firstInvalid dim i l = none ↔ ∀ v ∈ l, v.length = dim ∧ v.all F32.finite = true := by
  induction l generalizing i with
  | nil => simp [firstInvalid]
  | cons v l ih =>
    have hany : (v.any fun x => !F32.finite x) = !v.all F32.finite := by
      rw [List.not_all_eq_any_not]
    rw [firstInvalid, hany, List.forall_mem_cons]
    by_cases hlength : v.length = dim
    · cases hfinite : v.all F32.finite with
      | true => simp [hlength, ih]
      | false => simp [hlength]
    · simp [hlength]

theorem accepted_eq_some {v : List F32} : accepted provider embedding t = some v ↔
    embedding t = some v ∧ v.length = provider.dim ∧ v.all F32.finite = true := by
  simp [accepted, Option.filter_eq_some_iff]

theorem filterMap_of_isSome {α β : Type} {f : α → Option β} {l : List α}
    (h : ∀ x ∈ l, (f x).isSome) : (l.filterMap f).length = l.length := by
  induction l with
  | nil => rfl
  | cons x l ih =>
    obtain ⟨y, hy⟩ := Option.isSome_iff_exists.mp (h x List.mem_cons_self)
    rw [List.filterMap_cons_some hy, List.length_cons, List.length_cons,
      ih fun z hz => h z (List.mem_cons_of_mem _ hz)]

/-- Texts that all have an embedding are answered with these. -/
theorem request_ok (h : env.Answers provider embedding)
    (hall : ∀ t ∈ input, (accepted provider embedding t).isSome) :
    env.request provider input = .ok (input.filterMap (accepted provider embedding)) := by
  have hsome : ∀ t ∈ input, ∃ v, accepted provider embedding t = some v := fun t ht =>
    Option.isSome_iff_exists.mp (hall t ht)
  have hembedding : ∀ t ∈ input, embedding t = accepted provider embedding t := by
    intro t ht
    obtain ⟨v, hv⟩ := hsome t ht
    rw [hv, (accepted_eq_some.mp hv).1]
  obtain ⟨response, hsend, hlow, hhigh, hbytes⟩ := h.each input fun t ht => by
    rw [hembedding t ht]
    exact hall t ht
  rw [List.filterMap_congr hembedding] at hbytes
  have hvalid : firstInvalid provider.dim 0 (input.filterMap (accepted provider embedding)) =
      none := by
    rw [firstInvalid_eq_none_iff]
    intro v hv
    obtain ⟨t, -, ht⟩ := List.mem_filterMap.mp hv
    exact (accepted_eq_some.mp ht).2
  have hstatus : ¬ (response.status < 200 ∨ 300 ≤ response.status) := by omega
  unfold EmbedEnv.request
  rw [hsend]
  simp only [if_neg hstatus, hbytes, parseEmbeddingResponse, hvalid, ne_eq,
    filterMap_of_isSome hall, not_true, if_false]

/-- A request with a text that has none fails. -/
theorem request_error (h : env.Answers provider embedding) (ht : t ∈ input)
    (hnone : accepted provider embedding t = none) : ∃ e, env.request provider input = .error e := by
  unfold EmbedEnv.request
  cases hsend : env.send ⟨provider.url, provider.model, input, provider.dim⟩ with
  | error e => exact ⟨_, rfl⟩
  | ok response =>
    dsimp only
    split
    · exact ⟨_, rfl⟩
    · rename_i hstatus
      cases hbytes : response.bytes with
      | error e => exact ⟨_, rfl⟩
      | ok body =>
        cases body with
        | error e => exact ⟨_, rfl⟩
        | ok body =>
          -- an answer has an embedding for each text, so one of them is refused
          have hsome : ∀ s ∈ input, (embedding s).isSome := by
            intro s hs
            rw [Option.isSome_iff_ne_none]
            intro hrefused
            exact h.refuses input s response body hs hrefused hsend (by omega) (by omega) hbytes
          obtain ⟨response', hsend', -, -, hbytes'⟩ := h.each input hsome
          obtain rfl := Except.ok.inj (hsend.symm.trans hsend')
          obtain rfl := Except.ok.inj (Except.ok.inj (hbytes.symm.trans hbytes'))
          obtain ⟨v, hv⟩ := Option.isSome_iff_exists.mp (hsome t ht)
          have hinvalid : firstInvalid provider.dim 0 (input.filterMap embedding) ≠ none := by
            intro hvalid
            have hv' := firstInvalid_eq_none_iff.mp hvalid v (List.mem_filterMap.mpr ⟨t, ht, hv⟩)
            rw [accepted_eq_some.mpr ⟨hv, hv'⟩] at hnone
            cases hnone
          obtain ⟨e, he⟩ := Option.ne_none_iff_exists'.mp hinvalid
          simp only [parseEmbeddingResponse, he]
          exact ⟨_, rfl⟩

end Request

section Places

/-- Each place of the misses gets its value, the others stay. -/
theorem getElem?_mergeMisses {misses : List ℕ} {f : ℕ → List F32}
    (results : List (Option (List F32))) (hmisses : ∀ i ∈ misses, i < results.length) (j : ℕ) :
    (EmbedEnv.mergeMisses results (misses.map fun i => (i, f i)))[j]? =
      if j ∈ misses then some (some (f j)) else results[j]? := by
  unfold EmbedEnv.mergeMisses
  rw [List.foldl_map]
  induction misses generalizing results with
  | nil => simp
  | cons i misses ih =>
    have hi : i < results.length := hmisses i List.mem_cons_self
    have hrest : ∀ k ∈ misses, k < (results.set i (some (f i))).length := by
      intro k hk
      rw [List.length_set]
      exact hmisses k (List.mem_cons_of_mem _ hk)
    rw [List.foldl_cons, ih _ hrest]
    by_cases hj : j ∈ misses
    · simp [hj]
    · by_cases hij : j = i
      · subst hij
        simp [hj, hi]
      · have hne : i ≠ j := fun h => hij h.symm
        simp [hj, hij, List.getElem?_set_ne hne]

theorem mem_missIndices {results : List (Option (List F32))} {i : ℕ} :
    i ∈ EmbedEnv.missIndices results ↔ results[i]? = some none := by
  unfold EmbedEnv.missIndices
  rw [List.mem_filter, List.mem_range, decide_eq_true_eq]
  constructor
  · exact fun h => h.2
  · intro h
    refine ⟨?_, h⟩
    exact (List.getElem?_eq_some_iff.mp h).1

end Places

section Call

variable {env : EmbedEnv} {provider : ProviderConfig} {embedding : String → Option (List F32)}
  {U : Set String} {store : CacheStore} {handle : CacheHandle} {t : String} {v : List F32}
  {io : SledIo} {cache : CacheArg} {prefixed texts : List String} {role : EmbeddingRole}

/-- A hit is the embedding of its text. -/
theorem accepted_of_get (hcodec : ∀ bytes, env.decompressZstd (env.compressToVec bytes) = some bytes)
    (hhash : Set.InjOn (env.cacheKey provider.model) U)
    (hstore : CachesOnly env provider embedding U store) (ht : t ∈ U) {readable : Bool}
    (h : handle.get env.toCacheEnv store (env.cacheKey provider.model t) provider.dim readable =
      some v) : accepted provider embedding t = some v := by
  unfold CacheHandle.get at h
  split at h
  · obtain ⟨bytes, hbytes, h⟩ := Option.bind_eq_some_iff.mp h
    obtain ⟨s, hs, w, hw, hkey, rfl⟩ := hstore _ bytes hbytes
    obtain rfl := hhash ht hs hkey
    obtain ⟨raw, hraw, h⟩ := Option.bind_eq_some_iff.mp h
    obtain rfl := Option.some.inj ((hcodec _).symm.trans hraw)
    split at h
    · cases h
    · rw [← Option.some.inj h, floatsOf_flatMap, hw]
  · cases h

theorem cachesOnly_put (hstore : CachesOnly env provider embedding U store) (ht : t ∈ U)
    (hv : accepted provider embedding t = some v) (stored : Bool) :
    CachesOnly env provider embedding U
      (handle.put env.toCacheEnv store (env.cacheKey provider.model t) v stored) := by
  unfold CacheHandle.put
  split
  · cases stored with
    | false => exact hstore
    | true =>
      intro key bytes hkey
      dsimp only at hkey
      rw [if_pos rfl] at hkey
      by_cases heq : key = env.cacheKey provider.model t
      · subst heq
        rw [AList.lookup_insert] at hkey
        exact ⟨t, ht, v, hv, rfl, (Option.some.inj hkey).symm⟩
      · rw [AList.lookup_insert_ne heq] at hkey
        exact hstore key bytes hkey
  · exact hstore

/-- A cache argument that has only embeddings of the provider. -/
def CacheArg.Right (env : EmbedEnv) (provider : ProviderConfig)
    (embedding : String → Option (List F32)) (U : Set String) (cache : CacheArg) : Prop :=
  ∀ c, cache = some c → CachesOnly env provider embedding U c.2

theorem applyPrefix_eq (provider : ProviderConfig) (texts : List String) (role : EmbeddingRole) :
    applyPrefix texts provider.effectivePrefixes role = texts.map (provider.prefixText role) := by
  unfold applyPrefix ProviderConfig.prefixText
  cases provider.effectivePrefixes with
  | none => simp
  | some taskPrefix => rfl

theorem length_lookups : (env.lookups provider io cache prefixed).length = prefixed.length := by
  unfold EmbedEnv.lookups
  cases cache with
  | none => rw [List.length_map]
  | some c => rw [List.length_mapIdx]

/-- A place of the lookups is a miss or has the embedding of its text. -/
theorem lookups_right
    (hcodec : ∀ bytes, env.decompressZstd (env.compressToVec bytes) = some bytes)
    (hhash : Set.InjOn (env.cacheKey provider.model) U)
    (hcache : CacheArg.Right env provider embedding U cache) (hU : ∀ t ∈ prefixed, t ∈ U) {i : ℕ}
    (hi : prefixed[i]? = some t) : (env.lookups provider io cache prefixed)[i]? = some none ∨
      ∃ v, accepted provider embedding t = some v ∧
        (env.lookups provider io cache prefixed)[i]? = some (some v) := by
  unfold EmbedEnv.lookups
  cases cache with
  | none =>
    dsimp only
    rw [List.getElem?_map, hi]
    exact .inl rfl
  | some c =>
    dsimp only
    rw [List.getElem?_mapIdx, hi, Option.map_some]
    cases hget : c.1.get env.toCacheEnv c.2 (env.cacheKey provider.model t) provider.dim
        (io.readable i) with
    | none => exact .inl rfl
    | some v =>
      have hv := accepted_of_get hcodec hhash (hcache c rfl) (hU t (List.mem_of_getElem? hi)) hget
      exact .inr ⟨v, hv, rfl⟩

theorem cachesOnly_storeMisses (hcache : CacheArg.Right env provider embedding U cache)
    (misses : List (ℕ × List F32))
    (hmisses : ∀ miss ∈ misses, ∃ t ∈ U, prefixed.getD miss.1 "" = t ∧
      accepted provider embedding t = some miss.2) :
    CacheArg.Right env provider embedding U
      (env.storeMisses provider io prefixed cache misses) := by
  intro c' hc'
  obtain ⟨c, hc, rfl⟩ := Option.map_eq_some_iff.mp hc'
  have hstore := hcache c hc
  dsimp only
  clear hc hc'
  generalize c.2 = store at hstore ⊢
  induction misses generalizing store with
  | nil => exact hstore
  | cons miss misses ih =>
    obtain ⟨t, ht, hget, hv⟩ := hmisses miss List.mem_cons_self
    refine ih (fun m hm => hmisses m (List.mem_cons_of_mem _ hm)) _ ?_
    dsimp only
    rw [hget]
    exact cachesOnly_put hstore ht hv _

/-- The value of a text that has one. -/
def valueOf (provider : ProviderConfig) (embedding : String → Option (List F32)) (t : String) :
    List F32 :=
  (accepted provider embedding t).getD []

theorem filterMap_accepted (h : ∀ t ∈ prefixed, (accepted provider embedding t).isSome) :
    prefixed.filterMap (accepted provider embedding) =
      prefixed.map (valueOf provider embedding) := by
  rw [← List.filterMap_eq_map]
  refine List.filterMap_congr fun t ht => ?_
  obtain ⟨v, hv⟩ := Option.isSome_iff_exists.mp (h t ht)
  rw [Function.comp_apply, valueOf, hv, Option.getD_some]

section Spec

variable (hanswers : env.Answers provider embedding)
  (hcodec : ∀ bytes, env.decompressZstd (env.compressToVec bytes) = some bytes)
  (hhash : Set.InjOn (env.cacheKey provider.model) U)
  (hcache : CacheArg.Right env provider embedding U cache) (hU : ∀ t ∈ prefixed, t ∈ U)

/-- The text at the place of a miss. -/
theorem getD_of_miss {i : ℕ}
    (hi : i ∈ EmbedEnv.missIndices (env.lookups provider io cache prefixed)) :
    ∃ t ∈ prefixed, prefixed[i]? = some t ∧ prefixed.getD i "" = t := by
  have hlt := (List.getElem?_eq_some_iff.mp (mem_missIndices.mp hi)).1
  rw [length_lookups] at hlt
  refine ⟨prefixed[i], List.getElem_mem hlt, List.getElem?_eq_getElem hlt, ?_⟩
  rw [List.getD_eq_getElem?_getD, List.getElem?_eq_getElem hlt, Option.getD_some]

include hcodec hhash hcache hU in
/-- Hits and answers together are the embeddings of all texts. -/
theorem mergeMisses_eq (io : SledIo) :
    (EmbedEnv.mergeMisses (env.lookups provider io cache prefixed)
      ((EmbedEnv.missIndices (env.lookups provider io cache prefixed)).map fun i =>
        (i, valueOf provider embedding (prefixed.getD i "")))).filterMap id =
      prefixed.map (valueOf provider embedding) := by
  have hmerged := getElem?_mergeMisses
    (f := fun i => valueOf provider embedding (prefixed.getD i ""))
    (env.lookups provider io cache prefixed)
    fun i hi => (List.getElem?_eq_some_iff.mp (mem_missIndices.mp hi)).1
  have hplaces : EmbedEnv.mergeMisses (env.lookups provider io cache prefixed)
      ((EmbedEnv.missIndices (env.lookups provider io cache prefixed)).map fun i =>
        (i, valueOf provider embedding (prefixed.getD i ""))) =
      prefixed.map fun t => some (valueOf provider embedding t) := by
    refine List.ext_getElem? fun i => ?_
    rw [hmerged, List.getElem?_map]
    cases hi : prefixed[i]? with
    | none =>
      have hout : (env.lookups provider io cache prefixed)[i]? = none := by
        rw [List.getElem?_eq_none_iff, length_lookups]
        exact List.getElem?_eq_none_iff.mp hi
      have hhit : i ∉ EmbedEnv.missIndices (env.lookups provider io cache prefixed) := by
        rw [mem_missIndices, hout]
        simp
      rw [if_neg hhit, hout]
      rfl
    | some t =>
      have hget : prefixed.getD i "" = t := by
        rw [List.getD_eq_getElem?_getD, hi, Option.getD_some]
      rcases lookups_right hcodec hhash hcache hU hi with hnone | ⟨v, hv, hsome⟩
      · rw [if_pos (mem_missIndices.mpr hnone), hget]
        rfl
      · have hhit : i ∉ EmbedEnv.missIndices (env.lookups provider io cache prefixed) := by
          rw [mem_missIndices, hsome]
          simp
        rw [if_neg hhit, hsome, Option.map_some, valueOf, hv]
        rfl
  rw [hplaces, List.filterMap_map]
  exact congrFun List.filterMap_eq_map prefixed

include hanswers hcodec hhash hcache hU in
/-- If every text has an embedding, a call gives the embeddings of the texts in their order. -/
theorem embedPrefixed_ok (hall : ∀ t ∈ prefixed, (accepted provider embedding t).isSome)
    (io : SledIo) :
    (env.embedPrefixed provider io cache prefixed).1 =
        .ok (prefixed.map (valueOf provider embedding)) ∧
      CacheArg.Right env provider embedding U
        (env.embedPrefixed provider io cache prefixed).2 := by
  have hmerged := mergeMisses_eq hcodec hhash hcache hU io
  unfold EmbedEnv.embedPrefixed
  generalize hmisses : EmbedEnv.missIndices (env.lookups provider io cache prefixed) = misses
    at hmerged
  have htext : ∀ i ∈ misses, ∃ t ∈ prefixed, prefixed[i]? = some t ∧ prefixed.getD i "" = t :=
    fun i hi => getD_of_miss (by rw [hmisses]; exact hi)
  dsimp only
  rw [hmisses]
  split
  · rename_i hnone
    rw [List.isEmpty_iff.mp hnone] at hmerged
    exact ⟨congrArg Except.ok hmerged, hcache⟩
  · have hsent : ∀ t ∈ misses.map (fun i => prefixed.getD i ""),
        (accepted provider embedding t).isSome := by
      intro t ht
      obtain ⟨i, hi, rfl⟩ := List.mem_map.mp ht
      obtain ⟨s, hs, -, hget⟩ := htext i hi
      rw [hget]
      exact hall s hs
    have hfound : misses.zip ((misses.map fun i => prefixed.getD i "").map
        (valueOf provider embedding)) =
        misses.map fun i => (i, valueOf provider embedding (prefixed.getD i "")) := by
      rw [List.map_map, ← List.map_prod_left_eq_zip]
      rfl
    rw [request_ok hanswers hsent, filterMap_accepted hsent]
    dsimp only
    rw [hfound]
    refine ⟨congrArg Except.ok hmerged, cachesOnly_storeMisses hcache _ fun miss hmiss => ?_⟩
    obtain ⟨i, hi, rfl⟩ := List.mem_map.mp hmiss
    obtain ⟨t, ht, -, hget⟩ := htext i hi
    refine ⟨t, hU t ht, hget, ?_⟩
    obtain ⟨v, hv⟩ := Option.isSome_iff_exists.mp (hall t ht)
    dsimp only
    rw [hget, valueOf, hv, Option.getD_some]

include hanswers hcodec hhash hcache hU in
/-- If a text has none, the call fails and leaves the cache as it is. -/
theorem embedPrefixed_error {t : String} (ht : t ∈ prefixed)
    (hnone : accepted provider embedding t = none) (io : SledIo) :
    ∃ e, env.embedPrefixed provider io cache prefixed = (.error e, cache) := by
  obtain ⟨i, hi⟩ := List.mem_iff_getElem?.mp ht
  have hmiss : i ∈ EmbedEnv.missIndices (env.lookups provider io cache prefixed) := by
    rcases lookups_right hcodec hhash hcache hU hi with hmiss | ⟨v, hv, -⟩
    · exact mem_missIndices.mpr hmiss
    · rw [hnone] at hv
      cases hv
  have hsent : t ∈ (EmbedEnv.missIndices (env.lookups provider io cache prefixed)).map
      fun i => prefixed.getD i "" := by
    refine List.mem_map.mpr ⟨i, hmiss, ?_⟩
    rw [List.getD_eq_getElem?_getD, hi, Option.getD_some]
  obtain ⟨e, he⟩ := request_error hanswers hsent hnone
  refine ⟨e, ?_⟩
  unfold EmbedEnv.embedPrefixed
  dsimp only
  rw [if_neg fun hempty => ?_, he]
  rw [List.isEmpty_iff.mp hempty] at hmiss
  cases hmiss

end Spec

section Batches

variable (hanswers : env.Answers provider embedding)
  (hcodec : ∀ bytes, env.decompressZstd (env.compressToVec bytes) = some bytes)
  (hhash : Set.InjOn (env.cacheKey provider.model) U)

/-- What `io_embed` gives for the texts, apart from its error. -/
def expected (provider : ProviderConfig) (embedding : String → Option (List F32))
    (role : EmbeddingRole) (texts : List String) : Option (List (List F32)) :=
  if ∀ t ∈ texts, (accepted provider embedding (provider.prefixText role t)).isSome then
    some (texts.map fun t => valueOf provider embedding (provider.prefixText role t))
  else none

include hanswers hcodec hhash in
theorem ioEmbed_spec (hcache : CacheArg.Right env provider embedding U cache)
    (hU : ∀ t ∈ texts, provider.prefixText role t ∈ U) (io : SledIo) :
    (env.ioEmbed provider texts role io cache).1.toOption =
        expected provider embedding role texts ∧
      CacheArg.Right env provider embedding U (env.ioEmbed provider texts role io cache).2 := by
  have hU' : ∀ t ∈ texts.map (provider.prefixText role), t ∈ U := List.forall_mem_map.mpr hU
  unfold EmbedEnv.ioEmbed expected
  split
  · rename_i hempty
    rw [List.isEmpty_iff.mp hempty]
    exact ⟨by simp [Except.toOption], hcache⟩
  · rw [applyPrefix_eq]
    split
    · rename_i hall
      have hall' : ∀ t ∈ texts.map (provider.prefixText role),
          (accepted provider embedding t).isSome := List.forall_mem_map.mpr hall
      obtain ⟨hok, hright⟩ := embedPrefixed_ok hanswers hcodec hhash hcache hU' hall' io
      rw [hok, List.map_map]
      exact ⟨rfl, hright⟩
    · rename_i hfails
      obtain ⟨t, ht, hnone⟩ : ∃ t ∈ texts.map (provider.prefixText role),
          accepted provider embedding t = none := by
        by_contra hno
        refine hfails fun t ht => Option.isSome_iff_ne_none.mpr fun hnone => hno ?_
        exact ⟨_, List.mem_map_of_mem ht, hnone⟩
      obtain ⟨e, he⟩ := embedPrefixed_error hanswers hcodec hhash hcache hU' ht hnone io
      rw [he]
      exact ⟨rfl, hcache⟩

include hanswers hcodec hhash in
/-- A text on its own: the result is the one of its own request, cached or not. -/
theorem ioEmbed_single (hcache : CacheArg.Right env provider embedding U cache) {text : String}
    (ht : provider.prefixText role text ∈ U) (io : SledIo) :
    (env.ioEmbed provider [text] role io cache).1 =
      env.request provider [provider.prefixText role text] := by
  have hU : ∀ t ∈ [provider.prefixText role text], t ∈ U := by
    intro t h
    rw [List.mem_singleton.mp h]
    exact ht
  unfold EmbedEnv.ioEmbed
  rw [if_neg (by simp), applyPrefix_eq, List.map_cons, List.map_nil]
  cases haccepted : accepted provider embedding (provider.prefixText role text) with
  | some v =>
    have hall : ∀ t ∈ [provider.prefixText role text], (accepted provider embedding t).isSome := by
      intro t h
      rw [List.mem_singleton.mp h, haccepted]
      rfl
    rw [(embedPrefixed_ok hanswers hcodec hhash hcache hU hall io).1, request_ok hanswers hall,
      filterMap_accepted hall]
  | none =>
    have hmiss : env.lookups provider io cache [provider.prefixText role text] = [none] := by
      have hfirst : [provider.prefixText role text][0]? = some (provider.prefixText role text) := rfl
      rcases lookups_right hcodec hhash hcache hU hfirst with hnone | ⟨v, hv, -⟩
      · have hlength : (env.lookups provider io cache [provider.prefixText role text]).length = 1 :=
          length_lookups
        obtain ⟨r, hr⟩ := List.length_eq_one_iff.mp hlength
        rw [hr] at hnone ⊢
        rw [Option.some.inj hnone]
      · rw [haccepted] at hv
        cases hv
    obtain ⟨e, he⟩ : ∃ e, env.request provider [provider.prefixText role text] = .error e :=
      request_error hanswers List.mem_cons_self haccepted
    unfold EmbedEnv.embedPrefixed
    rw [hmiss]
    have hone : EmbedEnv.missIndices [none] = [0] := rfl
    simp [hone, he]

include hanswers in
/-- On its own a text gets its embedding, or fails. -/
theorem outcomeAlone_eq (t : String) (v : List F32) :
    env.outcomeAlone provider t = .ok v ↔ accepted provider embedding t = some v := by
  unfold EmbedEnv.outcomeAlone
  cases haccepted : accepted provider embedding t with
  | some w =>
    have hall : ∀ s ∈ [t], (accepted provider embedding s).isSome := by
      intro s h
      rw [List.mem_singleton.mp h, haccepted]
      rfl
    rw [request_ok hanswers hall, List.filterMap_cons_some haccepted]
    simp
  | none =>
    obtain ⟨e, he⟩ : ∃ e, env.request provider [t] = .error e :=
      request_error hanswers List.mem_cons_self haccepted
    rw [he]
    simp

include hanswers hcodec hhash in
theorem retryTexts_spec (io : ℕ → SledIo) (j : ℕ)
    (hcache : CacheArg.Right env provider embedding U cache)
    (hU : ∀ t ∈ texts, provider.prefixText role t ∈ U) :
    (env.retryTexts provider role io j cache texts).1 =
        texts.map (fun t => env.outcomeAlone provider (provider.prefixText role t)) ∧
      CacheArg.Right env provider embedding U
        (env.retryTexts provider role io j cache texts).2 := by
  induction texts generalizing j cache with
  | nil => exact ⟨rfl, hcache⟩
  | cons text texts ih =>
    obtain ⟨htext, hrest⟩ := List.forall_mem_cons.mp hU
    have hsingle := ioEmbed_single hanswers hcodec hhash hcache htext (io j)
    have hright : CacheArg.Right env provider embedding U
        (env.ioEmbed provider [text] role (io j) cache).2 :=
      (ioEmbed_spec hanswers hcodec hhash hcache (List.forall_mem_singleton.mpr htext) (io j)).2
    obtain ⟨hresults, hcache'⟩ := ih (j + 1) hright hrest
    unfold EmbedEnv.retryTexts
    dsimp only
    rw [hresults, hsingle, List.map_cons]
    exact ⟨rfl, hcache'⟩

include hanswers hcodec hhash in
theorem embedBatches_spec (io : ℕ → Option ℕ → SledIo) (k : ℕ) {batches : List (List String)}
    (hcache : CacheArg.Right env provider embedding U cache)
    (hU : ∀ t ∈ batches.flatten, provider.prefixText role t ∈ U) :
    (env.embedBatches provider role io k cache batches).1 =
      batches.flatten.map fun t => env.outcomeAlone provider (provider.prefixText role t) := by
  induction batches generalizing k cache with
  | nil => rfl
  | cons batch batches ih =>
    have hbatch : ∀ t ∈ batch, provider.prefixText role t ∈ U := fun t ht =>
      hU t (List.mem_append_left _ ht)
    have hrest : ∀ t ∈ batches.flatten, provider.prefixText role t ∈ U := fun t ht =>
      hU t (List.mem_append_right _ ht)
    obtain ⟨hcall, hright⟩ := ioEmbed_spec hanswers hcodec hhash hcache hbatch (io k none)
    unfold EmbedEnv.embedBatches
    dsimp only
    rw [List.flatten_cons, List.map_append]
    cases hresult : (env.ioEmbed provider batch role (io k none) cache).1 with
    | error e =>
      obtain ⟨hretried, hright'⟩ := retryTexts_spec hanswers hcodec hhash
        (fun j => io k (some j)) 0 hright hbatch
      dsimp only
      rw [ih (k + 1) hright' hrest, hretried]
    | ok embeddings =>
      rw [hresult] at hcall
      unfold expected at hcall
      split at hcall
      · rename_i hall
        have hvalues := Option.some.inj hcall
        dsimp only
        rw [ih (k + 1) hright hrest, hvalues, List.map_map]
        congr 1
        refine List.map_congr_left fun t ht => ?_
        obtain ⟨v, hv⟩ := Option.isSome_iff_exists.mp (hall t ht)
        rw [(outcomeAlone_eq hanswers _ v).mpr hv, Function.comp_apply, valueOf, hv,
          Option.getD_some]
      · cases hcall

include hanswers hcodec hhash in
/-- What calls for the provider write are its embeddings. -/
theorem cachesOnly_of_written (h : Written env provider U store) :
    CachesOnly env provider embedding U store := by
  induction h with
  | fresh count =>
    intro key bytes hkey
    cases hkey
  | @call store store' handle handle' texts role io _ hU hcall ih =>
    have hcache : CacheArg.Right env provider embedding U (some (handle, store)) := by
      intro c hc
      rw [← Option.some.inj hc]
      exact ih
    exact (ioEmbed_spec hanswers hcodec hhash hcache hU io).2 _ hcall

end Batches

/-- Embedding through a cache that calls for the same provider filled is embedding without it. A
batch of calls gives one result for each text, in their order, which is that of the text alone;
a single call gives the embeddings of all texts, or fails if one of them has none. -/
theorem cached_embedding_agrees {batchSize : ℕ} (hanswers : env.Answers provider embedding)
    (hcodec : ∀ bytes, env.decompressZstd (env.compressToVec bytes) = some bytes)
    (hhash : Set.InjOn (env.cacheKey provider.model) U) (hwritten : Written env provider U store)
    (hU : ∀ t ∈ texts, provider.prefixText role t ∈ U) (hsize : 0 < batchSize)
    (handle : CacheHandle) :
    (∀ io io',
      (env.ioEmbed provider texts role io (some (handle, store))).1.toOption =
        expected provider embedding role texts ∧
      (env.ioEmbed provider texts role io' none).1.toOption =
        expected provider embedding role texts) ∧
    (∀ io io',
      (env.ioEmbedBatched provider texts batchSize role io (some (handle, store))).1 =
        texts.map (fun t => env.outcomeAlone provider (provider.prefixText role t)) ∧
      (env.ioEmbedBatched provider texts batchSize role io' none).1 =
        texts.map (fun t => env.outcomeAlone provider (provider.prefixText role t))) ∧
    ∀ t v, env.outcomeAlone provider t = .ok v ↔ accepted provider embedding t = some v := by
  have hcached : CacheArg.Right env provider embedding U (some (handle, store)) := by
    intro c hc
    rw [← Option.some.inj hc]
    exact cachesOnly_of_written hanswers hcodec hhash hwritten
  have huncached : CacheArg.Right env provider embedding U none := by
    intro c hc
    cases hc
  have hflat := flatten_sliceChunks hsize texts
  have hU' : ∀ t ∈ (sliceChunks batchSize texts).flatten, provider.prefixText role t ∈ U := by
    rw [hflat]
    exact hU
  refine ⟨fun io io' => ?_, fun io io' => ?_, outcomeAlone_eq hanswers⟩
  · exact ⟨(ioEmbed_spec hanswers hcodec hhash hcached hU io).1,
      (ioEmbed_spec hanswers hcodec hhash huncached hU io').1⟩
  · unfold EmbedEnv.ioEmbedBatched
    rw [embedBatches_spec hanswers hcodec hhash io 0 hcached hU',
      embedBatches_spec hanswers hcodec hhash io' 0 huncached hU', hflat]
    exact ⟨rfl, rfl⟩

end Call

section Samples

/-- The digest of `toy-model`, a line break and `a`. -/
def digestA : CacheKey :=
  #v[95, 253, 20, 34, 108, 241, 89, 10, 227, 38, 196, 39, 23, 6, 61, 231,
    80, 227, 248, 21, 61, 190, 228, 252, 167, 65, 23, 128, 183, 12, 182, 64]

/-- The digest of `toy-model`, a line break and `bad`. -/
def digestBad : CacheKey :=
  #v[243, 138, 123, 20, 195, 95, 24, 208, 184, 139, 30, 81, 192, 44, 116, 188,
    118, 96, 122, 182, 114, 195, 51, 203, 189, 12, 63, 62, 82, 31, 6, 193]

/-- A vector of one number for each of two texts; that of the second is infinite. -/
def toyEmbedding (t : String) : Option (List F32) :=
  if t = "a" then some [1065353216] else if t = "bad" then some [2139095040] else none

def toyEnv : EmbedEnv where
  sha256 bytes := if bytes = Text.bytes "toy-model\na" then digestA else digestBad
  compressToVec bytes := bytes
  decompressZstd bytes := some bytes
  send request :=
    if ∀ t ∈ request.input, (toyEmbedding t).isSome then
      .ok ⟨200, none, .ok (.ok (request.input.filterMap toyEmbedding))⟩
    else .ok ⟨400, some "invalid input", .error "invalid input"⟩

def toyProvider : ProviderConfig := ⟨"http://localhost:8080/", "toy-model", 1, none⟩

/-- Sled does not fail. -/
def sledWorks : SledIo := ⟨fun _ => true, fun _ => true⟩

def openHandle : CacheHandle := ⟨true, true, false⟩

/-- What the first call for `a` leaves in the cache. -/
def toyStore : CacheStore := ⟨AList.singleton digestA [0, 0, 128, 63], 0⟩

theorem toyEnv_answers : toyEnv.Answers toyProvider toyEmbedding where
  each := by
    intro input hall
    refine ⟨⟨200, none, .ok (.ok (input.filterMap toyEmbedding))⟩, if_pos hall, ?_, ?_, rfl⟩
    · show 200 ≤ 200
      omega
    · show 200 < 300
      omega
  refuses := by
    intro input t response body ht hnone hsend _ hhigh
    have hsome : ¬ ∀ s ∈ input, (toyEmbedding s).isSome := by
      intro h
      have ht' := h t ht
      rw [hnone] at ht'
      cases ht'
    obtain rfl := Except.ok.inj ((if_neg hsome).symm.trans hsend)
    exact absurd hhigh (by decide)

/-- Of the texts `a` and `bad` the first is cached, the second fails: the batch tells them
apart as it does without the cache. -/
theorem cached_embedding_agrees_toy :
    (toyEnv.ioEmbed toyProvider ["a"] .document sledWorks
        (some (openHandle, ⟨∅, usizeMax⟩))).2 = some (openHandle, toyStore) ∧
      (toyEnv.ioEmbedBatched toyProvider ["a", "bad", "a"] 2 .document (fun _ _ => sledWorks)
        (some (openHandle, toyStore))).1 =
      (toyEnv.ioEmbedBatched toyProvider ["a", "bad", "a"] 2 .document (fun _ _ => sledWorks)
        none).1 := by
  have hfirst : (toyEnv.ioEmbed toyProvider ["a"] .document sledWorks
      (some (openHandle, ⟨∅, usizeMax⟩))).2 = some (openHandle, toyStore) := rfl
  have hwritten : Written toyEnv toyProvider {"a", "bad"} toyStore :=
    .call (.fresh usizeMax) (List.forall_mem_singleton.mpr (.inl rfl)) hfirst
  have hhash : Set.InjOn (toyEnv.cacheKey toyProvider.model) {"a", "bad"} := by
    rintro s (rfl | rfl) t (rfl | rfl) h
    · rfl
    · exact absurd h (by decide)
    · exact absurd h (by decide)
    · rfl
  have hU : ∀ t ∈ ["a", "bad", "a"], toyProvider.prefixText .document t ∈ ({"a", "bad"} : Set _) := by
    intro t ht
    rcases List.mem_cons.mp ht with rfl | ht
    · exact .inl rfl
    · rcases List.mem_cons.mp ht with rfl | ht
      · exact .inr rfl
      · rw [List.mem_singleton.mp ht]
        exact .inl rfl
  have hagrees := (cached_embedding_agrees toyEnv_answers (fun _ => rfl) hhash hwritten hU
    (Nat.succ_pos 1) openHandle).2.1 (fun _ _ => sledWorks) fun _ _ => sledWorks
  exact ⟨hfirst, hagrees.1.trans hagrees.2.symm⟩

/-- A single call with `bad` fails for `a` as well, and its error counts the texts that were
sent. -/
theorem single_call_not_isolated :
    (toyEnv.ioEmbed toyProvider ["a"] .document sledWorks none).1 = .ok [[1065353216]] ∧
      (toyEnv.ioEmbed toyProvider ["a", "bad"] .document sledWorks none).1 =
        .error (.parseError "embedding 1 contains NaN or Inf") ∧
      (toyEnv.ioEmbed toyProvider ["a", "bad"] .document sledWorks
        (some (openHandle, toyStore))).1 =
        .error (.parseError "embedding 0 contains NaN or Inf") := by
  decide +kernel

end Samples

end Vectorlink
