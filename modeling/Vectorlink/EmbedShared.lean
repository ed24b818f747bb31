import Mathlib.Data.List.Forall2
import Vectorlink.Config.Credentials
import Vectorlink.IngestVectors

/-! A cache that several providers share: what it gives for a text is what one of them was
answered for it. Nothing is assumed of the answers but that they come in the order of the texts. -/
namespace Vectorlink

/-- What an endpoint may answer for a text, by its URL, the model and the dimension. -/
abbrev World := String → String → ℕ → String → List F32 → Prop

/-- The endpoints answer with one vector for each text, in the order of the texts. -/
def Network.InOrder (network : Network) (world : World) : Prop :=
  ∀ bearer request response embeddings, network bearer request = .ok response →
    response.bytes = .ok (.ok embeddings) → embeddings.length = request.input.length →
    List.Forall₂ (world request.url request.model request.dimensions) request.input embeddings

/-- Which vectors a cache may have for a prefixed text of a model. -/
abbrev CacheRelation := String → String → List F32 → Prop

/-- Each entry is a vector of a text with its key, out of a set of models and texts. -/
def CacheStore.Holds (env : CacheEnv) (U : Set (String × String)) (P : CacheRelation)
    (store : CacheStore) : Prop :=
  ∀ key bytes, store.tree.lookup key = some bytes → ∃ model t v, (model, t) ∈ U ∧ P model t v ∧
    key = env.cacheKey model t ∧ bytes = env.compressToVec (v.flatMap toLeBytes)

/-- The texts of the set have different keys, and what is compressed is read back. -/
structure CacheEnv.Sound (env : CacheEnv) (U : Set (String × String)) : Prop where
  codec : ∀ bytes, env.decompressZstd (env.compressToVec bytes) = some bytes
  keys : Set.InjOn (fun e : String × String => env.cacheKey e.1 e.2) U

section Store

variable {env : CacheEnv} {U : Set (String × String)} {P : CacheRelation} {store : CacheStore}
  {model t : String} {v : List F32}

theorem CacheStore.holds_empty (count : UInt64) : CacheStore.Holds env U P ⟨∅, count⟩ := by
  intro key bytes h
  rw [AList.lookup_empty] at h
  cases h

theorem CacheStore.Holds.put (h : store.Holds env U P) (handle : CacheHandle)
    (ht : (model, t) ∈ U) (hv : P model t v) (stored : Bool) :
    (handle.put env store (env.cacheKey model t) v stored).Holds env U P := by
  unfold CacheHandle.put
  split
  · cases stored with
    | false => exact h
    | true =>
      intro key bytes hkey
      dsimp only at hkey
      rw [if_pos rfl] at hkey
      by_cases heq : key = env.cacheKey model t
      · rw [heq, AList.lookup_insert] at hkey
        exact ⟨model, t, v, ht, hv, heq, (Option.some.inj hkey).symm⟩
      · rw [AList.lookup_insert_ne heq] at hkey
        exact h key bytes hkey
  · exact h

theorem length_flatMap_toLeBytes (v : List F32) : (v.flatMap toLeBytes).length = v.length * 4 := by
  induction v with
  | nil => rfl
  | cons x v ih =>
    have hbytes : (toLeBytes x).length = 4 := rfl
    rw [List.flatMap_cons, List.length_append, ih, hbytes, List.length_cons]
    omega

/-- A hit is a vector of its text, of the length that was asked for. -/
theorem CacheStore.Holds.get (h : store.Holds env U P) (henv : env.Sound U)
    (ht : (model, t) ∈ U) {handle : CacheHandle} {dim : ℕ} {readable : Bool}
    (hget : handle.get env store (env.cacheKey model t) dim readable = some v) :
    P model t v ∧ v.length = dim := by
  unfold CacheHandle.get at hget
  split at hget
  · obtain ⟨bytes, hbytes, hget⟩ := Option.bind_eq_some_iff.mp hget
    obtain ⟨model', t', w, ht', hw, hkey, rfl⟩ := h _ bytes hbytes
    have hsame : (model, t) = (model', t') := henv.keys ht ht' hkey
    obtain ⟨rfl, rfl⟩ := Prod.mk.inj hsame
    obtain ⟨raw, hraw, hget⟩ := Option.bind_eq_some_iff.mp hget
    obtain rfl := Option.some.inj ((henv.codec _).symm.trans hraw)
    split at hget
    · cases hget
    · rename_i hlength
      rw [← Option.some.inj hget, floatsOf_flatMap]
      rw [length_flatMap_toLeBytes] at hlength
      exact ⟨hw, by omega⟩
  · cases hget

end Store

section Places

variable {P : String → List F32 → Prop} {texts : List String}
  {results : List (Option (List F32))}

/-- The places that are filled have a vector of their text. -/
def FilledBy (P : String → List F32 → Prop) (text : String) (result : Option (List F32)) : Prop :=
  ∀ v, result = some v → P text v

theorem forall₂_set {i : ℕ} {v : List F32} (h : List.Forall₂ (FilledBy P) texts results)
    (hv : P (texts.getD i "") v) : List.Forall₂ (FilledBy P) texts (results.set i (some v)) := by
  induction h generalizing i with
  | nil => exact .nil
  | @cons t r texts results hr hrest ih =>
    cases i with
    | zero =>
      refine .cons (fun w hw => ?_) hrest
      rw [← Option.some.inj hw]
      exact hv
    | succ i => exact .cons hr (ih hv)

theorem forall₂_mergeMisses {misses : List (ℕ × List F32)}
    (h : List.Forall₂ (FilledBy P) texts results)
    (hmisses : ∀ miss ∈ misses, P (texts.getD miss.1 "") miss.2) :
    List.Forall₂ (FilledBy P) texts (EmbedEnv.mergeMisses results misses) := by
  unfold EmbedEnv.mergeMisses
  induction misses generalizing results with
  | nil => exact h
  | cons miss misses ih =>
    exact ih (forall₂_set h (hmisses miss List.mem_cons_self)) fun m hm =>
      hmisses m (List.mem_cons_of_mem _ hm)

/-- A place that is empty at the end was empty before and is none of the misses. -/
theorem mergeMisses_eq_none {misses : List (ℕ × List F32)} {i : ℕ}
    (h : (EmbedEnv.mergeMisses results misses)[i]? = some none) :
    results[i]? = some none ∧ i ∉ misses.map Prod.fst := by
  unfold EmbedEnv.mergeMisses at h
  induction misses generalizing results with
  | nil => exact ⟨h, List.not_mem_nil⟩
  | cons miss misses ih =>
    obtain ⟨hset, hrest⟩ := ih h
    have hne : miss.1 ≠ i := by
      intro heq
      dsimp only at hset
      rw [heq, List.getElem?_set_self'] at hset
      cases hi : results[i]? with
      | none =>
        rw [hi] at hset
        cases hset
      | some r =>
        rw [hi] at hset
        cases hset
    dsimp only at hset
    rw [List.getElem?_set_ne hne] at hset
    refine ⟨hset, fun hmem => ?_⟩
    rcases List.mem_cons.mp hmem with heq | hmem
    · exact hne heq.symm
    · exact hrest hmem

theorem forall₂_filterMap_id (h : List.Forall₂ (FilledBy P) texts results)
    (hfull : none ∉ results) : List.Forall₂ P texts (results.filterMap id) := by
  induction h with
  | nil => exact .nil
  | @cons t r texts results hr _ ih =>
    have hrest := ih fun hmem => hfull (List.mem_cons_of_mem _ hmem)
    cases r with
    | none => exact absurd List.mem_cons_self hfull
    | some v => exact .cons (hr v rfl) hrest

/-- Hits and answers together are vectors of the texts in their order. -/
theorem forall₂_merged {embeddings : List (List F32)}
    (h : List.Forall₂ (FilledBy P) texts results)
    (hanswers : List.Forall₂ P ((EmbedEnv.missIndices results).map fun i => texts.getD i "")
      embeddings) :
    List.Forall₂ P texts ((EmbedEnv.mergeMisses results
      ((EmbedEnv.missIndices results).zip embeddings)).filterMap id) := by
  have hlength : (EmbedEnv.missIndices results).length = embeddings.length := by
    rw [← hanswers.length_eq, List.length_map]
  have hmisses : ∀ miss ∈ (EmbedEnv.missIndices results).zip embeddings,
      P (texts.getD miss.1 "") miss.2 := by
    rw [List.forall₂_map_left_iff, List.forall₂_iff_zip] at hanswers
    exact fun miss hmiss => hanswers.2 hmiss
  apply forall₂_filterMap_id (forall₂_mergeMisses h hmisses)
  intro hmem
  obtain ⟨i, hi⟩ := List.mem_iff_getElem?.mp hmem
  obtain ⟨hnone, hout⟩ := mergeMisses_eq_none hi
  rw [List.map_fst_zip hlength.le] at hout
  exact hout (mem_missIndices.mpr hnone)

end Places

section Call

variable {env : EmbedEnv} {provider : ProviderConfig} {U : Set (String × String)}
  {P : CacheRelation} {io : SledIo} {cache : CacheArg} {vs : List (List F32)}

/-- The cache that is passed, if one is, has vectors of its texts only. -/
def CacheArg.Holds (env : CacheEnv) (U : Set (String × String)) (P : CacheRelation)
    (cache : CacheArg) : Prop :=
  ∀ c, cache = some c → c.2.Holds env U P

theorem holds_storeMisses {prefixed : List String} {misses : List (ℕ × List F32)}
    (hcache : cache.Holds env.toCacheEnv U P)
    (hmisses : ∀ c, cache = some c → ∀ miss ∈ misses,
      (provider.model, prefixed.getD miss.1 "") ∈ U ∧
        P provider.model (prefixed.getD miss.1 "") miss.2) :
    (env.storeMisses provider io prefixed cache misses).Holds env.toCacheEnv U P := by
  intro c' hc'
  obtain ⟨c, hc, rfl⟩ := Option.map_eq_some_iff.mp hc'
  have hstore := hcache c hc
  replace hmisses := hmisses c hc
  dsimp only
  clear hc hc'
  generalize c.2 = store at hstore ⊢
  induction misses generalizing store with
  | nil => exact hstore
  | cons miss misses ih =>
    obtain ⟨hU, hv⟩ := hmisses miss List.mem_cons_self
    exact ih (fun m hm => hmisses m (List.mem_cons_of_mem _ hm)) _ (hstore.put c.1 hU hv _)

/-- An answer that passes all checks. -/
theorem request_inOrder {world : World} {input : List String}
    (hsend : ∀ response embeddings,
      env.send ⟨provider.url, provider.model, input, provider.dim⟩ = .ok response →
      response.bytes = .ok (.ok embeddings) → embeddings.length = input.length →
      List.Forall₂ (world provider.url provider.model provider.dim) input embeddings)
    (h : env.request provider input = .ok vs) :
    List.Forall₂ (fun t v => world provider.url provider.model provider.dim t v ∧
      v.length = provider.dim) input vs := by
  unfold EmbedEnv.request at h
  cases hresponse : env.send ⟨provider.url, provider.model, input, provider.dim⟩ with
  | error e =>
    rw [hresponse] at h
    cases h
  | ok response =>
    rw [hresponse] at h
    dsimp only at h
    split at h
    · cases h
    · cases hbytes : response.bytes with
      | error e =>
        rw [hbytes] at h
        cases h
      | ok body =>
        rw [hbytes] at h
        dsimp only at h
        cases body with
        | error e => cases h
        | ok embeddings =>
          unfold parseEmbeddingResponse at h
          cases hvalid : firstInvalid provider.dim 0 embeddings with
          | some e => simp [hvalid] at h
          | none =>
            simp only [hvalid] at h
            split at h
            · cases h
            · rename_i hcount
              obtain rfl := Except.ok.inj h
              have horder := hsend response embeddings hresponse hbytes (not_not.mp hcount)
              have hlengths := firstInvalid_eq_none_iff.mp hvalid
              rw [List.forall₂_iff_zip] at horder ⊢
              refine ⟨horder.1, fun {t v} hmem => ⟨horder.2 hmem, ?_⟩⟩
              exact (hlengths v (List.of_mem_zip hmem).2).1

section Prefixed

variable {prefixed : List String} (henv : env.toCacheEnv.Sound U)
  (hU : ∀ c, cache = some c → ∀ t ∈ prefixed, (provider.model, t) ∈ U) (hcache : cache.Holds env.toCacheEnv U P)

include henv hU hcache in
theorem lookups_filled (io : SledIo) :
    List.Forall₂ (FilledBy fun t v => P provider.model t v ∧ v.length = provider.dim) prefixed
      (env.lookups provider io cache prefixed) := by
  unfold EmbedEnv.lookups
  cases cache with
  | none =>
    rw [List.forall₂_map_right_iff, List.forall₂_same]
    intro t _ v hv
    cases hv
  | some c =>
    refine forall₂_mapIdx fun i t ht v hv => ?_
    exact (hcache c rfl).get henv (hU c rfl t ht) hv

variable (env provider) in
include henv hU hcache in
/-- The vectors that are returned are vectors of the prefixed texts, if the answers are, and the
cache has such vectors only. -/
theorem embedPrefixed_holds
    (hrequest : ∀ input vs, (∀ t ∈ input, t ∈ prefixed) → env.request provider input = .ok vs →
      List.Forall₂ (fun t v => P provider.model t v ∧ v.length = provider.dim) input vs)
    (io : SledIo) :
    (∀ vs, (env.embedPrefixed provider io cache prefixed).1 = .ok vs →
      List.Forall₂ (fun t v => P provider.model t v ∧ v.length = provider.dim) prefixed vs) ∧
    (env.embedPrefixed provider io cache prefixed).2.Holds env.toCacheEnv U P := by
  have hfilled := lookups_filled henv hU hcache io
  have htexts : ∀ t ∈ (EmbedEnv.missIndices (env.lookups provider io cache prefixed)).map
      (fun i => prefixed.getD i ""), t ∈ prefixed := by
    intro t ht
    obtain ⟨i, hi, rfl⟩ := List.mem_map.mp ht
    obtain ⟨t, hmem, -, hget⟩ := getD_of_miss hi
    rw [hget]
    exact hmem
  unfold EmbedEnv.embedPrefixed
  dsimp only
  split
  · rename_i hnone
    refine ⟨fun vs hvs => ?_, hcache⟩
    obtain rfl := Except.ok.inj hvs
    apply forall₂_filterMap_id hfilled
    intro hmem
    obtain ⟨i, hi⟩ := List.mem_iff_getElem?.mp hmem
    have hmiss := mem_missIndices.mpr hi
    rw [List.isEmpty_iff.mp hnone] at hmiss
    cases hmiss
  · cases hanswer : env.request provider
        ((EmbedEnv.missIndices (env.lookups provider io cache prefixed)).map
          fun i => prefixed.getD i "") with
    | error e =>
      refine ⟨fun vs hvs => ?_, hcache⟩
      cases hvs
    | ok embeddings =>
      have hanswers := hrequest _ _ htexts hanswer
      refine ⟨fun vs hvs => ?_, ?_⟩
      · obtain rfl := Except.ok.inj hvs
        exact forall₂_merged hfilled hanswers
      · -- every put is an answer under the key of its own text
        have hmisses : ∀ miss ∈ (EmbedEnv.missIndices
            (env.lookups provider io cache prefixed)).zip embeddings,
            prefixed.getD miss.1 "" ∈ prefixed ∧
              P provider.model (prefixed.getD miss.1 "") miss.2 := by
          intro miss hmiss
          rw [List.forall₂_map_left_iff, List.forall₂_iff_zip] at hanswers
          refine ⟨htexts _ (List.mem_map.mpr ⟨miss.1, ?_, rfl⟩), (hanswers.2 hmiss).1⟩
          exact (List.of_mem_zip hmiss).1
        exact holds_storeMisses hcache fun c hc miss hmiss =>
          ⟨hU c hc _ (hmisses miss hmiss).1, (hmisses miss hmiss).2⟩

end Prefixed

end Call

end Vectorlink
