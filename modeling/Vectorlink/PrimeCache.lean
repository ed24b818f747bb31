import Vectorlink.EmbedShared

/-! `vectorlink prime-embed-cache`: the vectors of stored rows go back into the embedding cache,
under the keys that their texts are looked up with. -/
namespace Vectorlink

/-- What one put gets. -/
structure CacheEntry where
  model : String
  text : String
  vector : List F32
deriving DecidableEq

namespace Config

variable (config : Config)

def clusteringProvider : EmbedProvider := config.provider2.getD config.embedProvider

/-- The puts of a row, each if the vector has the dimension of slot 1. -/
def primeRow (includeClustering : Bool) (row : ChunkRow (List F32)) : List CacheEntry :=
  let dim := config.embedProvider.dim
  let document :=
    if row.embedding.length = dim then
      [⟨config.embedProvider.model, config.embedProvider.prefixText .document row.content,
        row.embedding⟩]
    else []
  let clustering :=
    if includeClustering && decide (row.clusteringEmbedding.length = dim) then
      [⟨config.clusteringProvider.model, config.clusteringProvider.prefixText .clustering
        row.content, row.clusteringEmbedding⟩]
    else []
  document ++ clustering

end Config

/-- The puts one after the other; `stored i` says whether sled takes the `i`-th. -/
def CacheHandle.putAll (env : CacheEnv) (handle : CacheHandle) (stored : ℕ → Bool) :
    ℕ → CacheStore → List CacheEntry → CacheStore
  | _, store, [] => store
  | i, store, entry :: entries => CacheHandle.putAll env handle stored (i + 1)
      (handle.put env store (env.cacheKey entry.model entry.text) entry.vector (stored i)) entries

/-- How the calls of a run end. The stream of the rows may break off after some of them. -/
structure PrimeIo where
  sled : SledOpen
  openDataset : Except String Unit
  brokenOff : Option (ℕ × String)
  stored : ℕ → Bool

namespace PrimeIo

variable (io : PrimeIo)

/-- The rows that the stream gives. -/
def scanned (rows : List (ChunkRow (List F32))) : List (ChunkRow (List F32)) :=
  match io.brokenOff with
  | some (n, _) => rows.take n
  | none => rows

end PrimeIo

/-- The numbers of rows and puts, and the cache that is left. `rows` are those of the latest
version of the main branch, if the dataset of the domain exists. -/
def primeEmbedCache (env : CacheEnv) (config : Config) (includeClustering : Bool) (io : PrimeIo)
    (rows : Option (List (ChunkRow (List F32)))) (cache : CacheStore) :
    Except String (ℕ × ℕ) × CacheStore :=
  match rows with
  | none => (.error "dataset not found", cache)
  | some rows =>
    match CacheHandle.openCache config.embedCacheSize io.sled with
    | none => (.error "failed to open embed cache", cache)
    | some (handle, count) =>
      if !handle.enabled then
        (.error "cache is disabled (VECTORLINK_EMBED_CACHE_SIZE=None). Cannot prime.", cache)
      else match io.openDataset with
        | .error e => (.error e, { cache with entryCount := count })
        | .ok () =>
          let entries := (io.scanned rows).flatMap (config.primeRow includeClustering)
          let primed := handle.putAll env io.stored 0 { cache with entryCount := count } entries
          match io.brokenOff with
          | some (_, e) => (.error e, primed)
          | none => (.ok (rows.length, entries.length), primed)

section Holds

variable {env : CacheEnv} {U : Set (String × String)} {P : CacheRelation} {store : CacheStore}

theorem CacheStore.Holds.putAll (handle : CacheHandle) (stored : ℕ → Bool) (i : ℕ)
    {entries : List CacheEntry} (h : store.Holds env U P)
    (hentries : ∀ e ∈ entries, (e.model, e.text) ∈ U ∧ P e.model e.text e.vector) :
    (handle.putAll env stored i store entries).Holds env U P := by
  induction entries generalizing i store with
  | nil => exact h
  | cons entry entries ih =>
    obtain ⟨hU, hP⟩ := hentries entry List.mem_cons_self
    exact ih (i + 1) (h.put handle hU hP _) fun e he => hentries e (List.mem_cons_of_mem _ he)

/-- However a run ends, the cache has the vectors that it had and those of the rows. -/
theorem primeEmbedCache_holds {config : Config} {includeClustering : Bool} {io : PrimeIo}
    {rows : Option (List (ChunkRow (List F32)))} (h : store.Holds env U P)
    (hrows : ∀ rs, rows = some rs → ∀ row ∈ rs, ∀ e ∈ config.primeRow includeClustering row,
      (e.model, e.text) ∈ U ∧ P e.model e.text e.vector) :
    (primeEmbedCache env config includeClustering io rows store).2.Holds env U P := by
  unfold primeEmbedCache
  cases rows with
  | none => exact h
  | some rows =>
    have hscanned : ∀ row ∈ io.scanned rows, row ∈ rows := by
      intro row hrow
      unfold PrimeIo.scanned at hrow
      split at hrow
      · exact List.mem_of_mem_take hrow
      · exact hrow
    dsimp only
    split
    · exact h
    · split
      · exact h
      · split
        · exact h
        · rename_i handle count _ _ _ _
          have hprimed : (handle.putAll env io.stored 0 { store with entryCount := count }
              ((io.scanned rows).flatMap (config.primeRow includeClustering))).Holds env U P := by
            have hcounted : ({ store with entryCount := count } : CacheStore).Holds env U P := h
            refine hcounted.putAll handle io.stored 0 fun e he => ?_
            obtain ⟨row, hrow, he⟩ := List.mem_flatMap.mp he
            exact hrows rows rfl row (hscanned row hrow) e he
          split <;> exact hprimed

end Holds

section Hits

/-- The vector of the last put for a text of a model. -/
def lastVector (model text : String) : List CacheEntry → Option (List F32)
  | [] => none
  | entry :: entries => (lastVector model text entries).or
      (if entry.model = model ∧ entry.text = text then some entry.vector else none)

variable {env : CacheEnv} {U : Set (String × String)} {store : CacheStore} {handle : CacheHandle}
  {model text : String} {v : List F32}

theorem mem_of_lastVector {entries : List CacheEntry} (h : lastVector model text entries = some v) :
    ⟨model, text, v⟩ ∈ entries := by
  induction entries with
  | nil => cases h
  | cons entry entries ih =>
    rcases Option.or_eq_some_iff.mp h with h | ⟨-, h⟩
    · exact List.mem_cons_of_mem _ (ih h)
    · split at h
      · rename_i hentry
        obtain rfl := Option.some.inj h
        obtain ⟨rfl, rfl⟩ := hentry
        exact List.mem_cons_self
      · cases h

theorem lookup_putAll (store : CacheStore) (henv : env.Sound U) (henabled : handle.enabled = true)
    (hdb : handle.db = true) {stored : ℕ → Bool} (hstored : ∀ i, stored i = true) (i : ℕ)
    {entries : List CacheEntry} (hentries : ∀ e ∈ entries, (e.model, e.text) ∈ U)
    (ht : (model, text) ∈ U) :
    (handle.putAll env stored i store entries).tree.lookup (env.cacheKey model text) =
      ((lastVector model text entries).map fun v => env.compressToVec (v.flatMap toLeBytes)).or
        (store.tree.lookup (env.cacheKey model text)) := by
  induction entries generalizing i store with
  | nil => rfl
  | cons entry entries ih =>
    have hput : (handle.put env store (env.cacheKey entry.model entry.text) entry.vector
        (stored i)).tree = store.tree.insert (env.cacheKey entry.model entry.text)
          (env.compressToVec (entry.vector.flatMap toLeBytes)) := by
      unfold CacheHandle.put
      simp [henabled, hdb, hstored i]
    rw [CacheHandle.putAll, ih _ (i + 1) fun e he => hentries e (List.mem_cons_of_mem _ he), hput,
      lastVector]
    by_cases hsame : entry.model = model ∧ entry.text = text
    · rw [if_pos hsame, hsame.1, hsame.2, AList.lookup_insert]
      cases lastVector model text entries <;> rfl
    · have hkey : env.cacheKey model text ≠ env.cacheKey entry.model entry.text := by
        intro heq
        have hpair : (model, text) = (entry.model, entry.text) :=
          henv.keys ht (hentries entry List.mem_cons_self) heq
        obtain ⟨hmodel, htext⟩ := Prod.mk.inj hpair
        exact hsame ⟨hmodel.symm, htext.symm⟩
      rw [if_neg hsame, AList.lookup_insert_ne hkey, Option.or_none]

/-- A text that was put is a hit for every handle on the tree, with its last vector. -/
theorem get_of_lastVector (store : CacheStore) (henv : env.Sound U) (henabled : handle.enabled = true)
    (hdb : handle.db = true) {stored : ℕ → Bool} (hstored : ∀ i, stored i = true)
    {entries : List CacheEntry} (hentries : ∀ e ∈ entries, (e.model, e.text) ∈ U)
    (h : lastVector model text entries = some v) {reader : CacheHandle}
    (hreader : reader.enabled = true ∧ reader.db = true) (count : UInt64) :
    reader.get env ⟨(handle.putAll env stored 0 store entries).tree, count⟩
      (env.cacheKey model text) v.length true = some v := by
  have hlookup := lookup_putAll store henv henabled hdb hstored 0 hentries
    (hentries _ (mem_of_lastVector h))
  dsimp only at hlookup
  rw [h] at hlookup
  unfold CacheHandle.get
  rw [hreader.1, hreader.2]
  dsimp only
  rw [hlookup]
  simp only [Bool.and_self, if_true, Option.map_some, Option.some_or, Option.bind_eq_bind,
    Option.bind_some, henv.codec, length_flatMap_toLeBytes, ne_eq, not_true, if_false,
    floatsOf_flatMap]

/-- Texts that all were put are answered without a request. -/
theorem ioEmbed_primed {env : EmbedEnv} {provider : ProviderConfig} {role : EmbeddingRole}
    {entries : List CacheEntry} {stored : ℕ → Bool} {reader : CacheHandle} {io : SledIo}
    (henv : env.toCacheEnv.Sound U) (henabled : handle.enabled = true) (hdb : handle.db = true)
    (hstored : ∀ i, stored i = true) (hentries : ∀ e ∈ entries, (e.model, e.text) ∈ U)
    (hreader : reader.enabled = true ∧ reader.db = true) (hio : ∀ i, io.readable i = true)
    (count : UInt64) {texts : List String} {value : String → List F32}
    (h : ∀ t ∈ texts, lastVector provider.model (provider.prefixText role t) entries =
      some (value t) ∧ (value t).length = provider.dim) :
    env.ioEmbed provider texts role io
        (some (reader, ⟨(handle.putAll env.toCacheEnv stored 0 store entries).tree, count⟩)) =
      (.ok (texts.map value),
        some (reader, ⟨(handle.putAll env.toCacheEnv stored 0 store entries).tree, count⟩)) := by
  unfold EmbedEnv.ioEmbed
  split
  · rename_i hempty
    rw [List.isEmpty_iff.mp hempty]
    rfl
  · rw [applyPrefix_eq]
    have hlookups : env.lookups provider io
        (some (reader, ⟨(handle.putAll env.toCacheEnv stored 0 store entries).tree, count⟩))
        (texts.map (provider.prefixText role)) = texts.map fun t => some (value t) := by
      unfold EmbedEnv.lookups
      dsimp only
      refine List.ext_getElem? fun i => ?_
      rw [List.getElem?_mapIdx, List.getElem?_map, List.getElem?_map, Option.map_map]
      cases ht : texts[i]? with
      | none => rfl
      | some t =>
        obtain ⟨hlast, hdim⟩ := h t (List.mem_of_getElem? ht)
        have hget := get_of_lastVector store henv henabled hdb hstored hentries hlast
          hreader count
        rw [Option.map_some, Option.map_some, Function.comp_apply, hio i, ← hdim, hget]
    have hfull : EmbedEnv.missIndices (texts.map fun t => some (value t)) = [] := by
      rw [List.eq_nil_iff_forall_not_mem]
      intro i hi
      have hnone := mem_missIndices.mp hi
      rw [List.getElem?_map] at hnone
      obtain ⟨t, -, hsome⟩ := Option.map_eq_some_iff.mp hnone
      cases hsome
    unfold EmbedEnv.embedPrefixed
    dsimp only
    rw [hlookups, hfull, if_pos List.isEmpty_nil, List.filterMap_map]
    have hvalues : texts.filterMap (id ∘ fun t => some (value t)) = texts.map value :=
      congrFun List.filterMap_eq_map texts
    rw [hvalues]

end Hits

section Rows

variable {model text : String} {config : Config} {rows : List (ChunkRow (List F32))}

theorem lastVector_append (a b : List CacheEntry) :
    lastVector model text (a ++ b) = (lastVector model text b).or (lastVector model text a) := by
  induction a with
  | nil => rw [List.nil_append, lastVector, Option.or_none]
  | cons entry a ih => rw [List.cons_append, lastVector, ih, lastVector, Option.or_assoc]

/-- The last of the rows with a text whose vector has the dimension. -/
def lastRow (dim : ℕ) (content : String) (rows : List (ChunkRow (List F32))) :
    Option (ChunkRow (List F32)) :=
  rows.reverse.find? fun row => row.embedding.length = dim ∧ row.content = content

theorem prefixText_inj {provider : ProviderConfig} {role : EmbeddingRole} {s t : String} :
    provider.prefixText role s = provider.prefixText role t ↔ s = t := by
  unfold ProviderConfig.prefixText
  cases provider.effectivePrefixes with
  | none => exact Iff.rfl
  | some taskPrefix => exact String.append_right_inj _

theorem lastVector_documents (config : Config) (rows : List (ChunkRow (List F32)))
    (content : String) :
    lastVector config.embedProvider.model (config.embedProvider.prefixText .document content)
        (rows.flatMap (config.primeRow false)) =
      (lastRow config.embedProvider.dim content rows).map (·.embedding) := by
  induction rows with
  | nil => rfl
  | cons row rows ih =>
    unfold lastRow at ih ⊢
    rw [List.flatMap_cons, lastVector_append, ih, List.reverse_cons, List.find?_append,
      Option.map_or]
    congr 1
    simp only [Config.primeRow, Bool.false_and, Bool.false_eq_true, if_false, List.append_nil,
      List.find?_singleton]
    split
    · rename_i hdim
      simp only [lastVector, Option.none_or, true_and, prefixText_inj, hdim, decide_eq_true_eq]
      split <;> rfl
    · rename_i hdim
      simp [lastVector, hdim]

/-- The clustering provider without a second one is the first. -/
theorem clusteringProvider_of_none (hone : config.provider2 = none) :
    config.clusteringProvider = config.embedProvider := by
  unfold Config.clusteringProvider
  rw [hone, Option.getD_none]

variable {content : String} {zero : List F32} (hone : config.provider2 = none)
  (hzero : ∀ row ∈ rows, row.clusteringEmbedding = zero)
  (hlength : zero.length = config.embedProvider.dim)
  (hdocument : ∀ row ∈ rows, config.embedProvider.prefixText .document row.content =
    config.embedProvider.prefixText .clustering content → row.content = content)

include hone hzero hlength hdocument in
/-- The put for the clustering column of a row comes after the one for its document column. -/
theorem lastVector_primeRow {row : ChunkRow (List F32)} (hrow : row ∈ rows) :
    lastVector config.embedProvider.model (config.embedProvider.prefixText .clustering content)
      (config.primeRow true row) = if row.content = content then some zero else none := by
  have hlast : (true && decide (row.clusteringEmbedding.length = config.embedProvider.dim)) =
      true := by
    rw [hzero row hrow, hlength]
    simp
  unfold Config.primeRow
  rw [clusteringProvider_of_none hone, lastVector_append]
  rw [if_pos hlast, hzero row hrow]
  simp only [lastVector, true_and, prefixText_inj, Option.none_or]
  by_cases hcontent : row.content = content
  · rw [if_pos hcontent, Option.some_or]
  · rw [if_neg hcontent, Option.none_or]
    split
    · have hne : ¬ config.embedProvider.prefixText .document row.content =
          config.embedProvider.prefixText .clustering content := fun h =>
        hcontent (hdocument row hrow h)
      simp [lastVector, hne]
    · rfl

include hone hzero hlength hdocument in
theorem lastVector_clustering :
    lastVector config.embedProvider.model (config.embedProvider.prefixText .clustering content)
        (rows.flatMap (config.primeRow true)) =
      if ∃ row ∈ rows, row.content = content then some zero else none := by
  induction rows with
  | nil => simp [lastVector]
  | cons row rows ih =>
    have hrest := ih (fun r hr => hzero r (List.mem_cons_of_mem _ hr))
      fun r hr => hdocument r (List.mem_cons_of_mem _ hr)
    rw [List.flatMap_cons, lastVector_append, hrest,
      lastVector_primeRow hone hzero hlength hdocument List.mem_cons_self]
    by_cases htail : ∃ row ∈ rows, row.content = content
    · have hcons : ∃ r ∈ row :: rows, r.content = content := by
        obtain ⟨r, hr, hcontent⟩ := htail
        exact ⟨r, List.mem_cons_of_mem _ hr, hcontent⟩
      rw [if_pos htail, if_pos hcons, Option.some_or]
    · rw [if_neg htail, Option.none_or]
      congr 1
      simp only [List.mem_cons, exists_eq_or_imp, htail, or_false]

end Rows

section Primed

variable {env : CacheEnv} {U : Set (String × String)} {config : Config} {io : PrimeIo}
  {includeClustering : Bool} {rows : List (ChunkRow (List F32))} {cache : CacheStore} {n : ℕ × ℕ}

/-- What a run that succeeds leaves: all puts of all rows. -/
theorem primeEmbedCache_ok
    (h : (primeEmbedCache env config includeClustering io (some rows) cache).1 = .ok n) :
    ∃ (handle : CacheHandle) (count : UInt64), handle.enabled = true ∧ handle.db = true ∧
      (primeEmbedCache env config includeClustering io (some rows) cache).2 =
        handle.putAll env io.stored 0 { cache with entryCount := count }
          (rows.flatMap (config.primeRow includeClustering)) := by
  unfold primeEmbedCache at h ⊢
  dsimp only at h ⊢
  split at h
  · cases h
  · rename_i handle count hopen
    split at h
    · cases h
    · rename_i hdisabled
      have henabled : handle.enabled = true := by simpa using hdisabled
      have hdb := (CacheHandle.openCache_enabled hopen henabled).1
      refine ⟨handle, count, henabled, hdb, ?_⟩
      rw [if_neg hdisabled]
      split at h
      · cases h
      · split at h
        · cases h
        · rename_i hopened _ hbroken
          have hscanned : io.scanned rows = rows := by
            unfold PrimeIo.scanned
            rw [hbroken]
          rw [hscanned]

/-- The texts of primed rows are embedded as documents without a request: each with the stored
vector of the last row that has the text. -/
theorem primed_texts_answered (henv : env.Sound U)
    (hU : ∀ row ∈ rows, (config.embedProvider.model,
      config.embedProvider.prefixText .document row.content) ∈ U)
    (hstored : ∀ i, io.stored i = true)
    (hprime : (primeEmbedCache env config false io (some rows) cache).1 = .ok n)
    {reader : CacheHandle} (hreader : reader.enabled = true ∧ reader.db = true) {sled : SledIo}
    (hsled : ∀ i, sled.readable i = true) {texts : List String}
    (htexts : ∀ t ∈ texts, (lastRow config.embedProvider.dim t rows).isSome) (count : UInt64)
    (network : Network) (clients : HttpClients) :
    let primed : CacheArg := some (reader,
      ⟨(primeEmbedCache env config false io (some rows) cache).2.tree, count⟩)
    ∃ vs, (config.slot1 clients).ioEmbed env network texts .document sled primed = (.ok vs, primed) ∧
      List.Forall₂ (fun t v => (lastRow config.embedProvider.dim t rows).map (·.embedding) = some v)
        texts vs := by
  obtain ⟨handle, count', henabled, hdb, hprimed⟩ := primeEmbedCache_ok hprime
  dsimp only
  rw [hprimed]
  have hentries : ∀ e ∈ rows.flatMap (config.primeRow false), (e.model, e.text) ∈ U := by
    intro e he
    obtain ⟨row, hrow, he⟩ := List.mem_flatMap.mp he
    simp only [Config.primeRow, Bool.false_and, Bool.false_eq_true, if_false,
      List.append_nil] at he
    split at he
    · rw [List.mem_singleton.mp he]
      exact hU row hrow
    · cases he
  refine ⟨texts.map fun t => ((lastRow config.embedProvider.dim t rows).map (·.embedding)).getD [],
    ioEmbed_primed henv henabled hdb hstored hentries hreader hsled count fun t ht => ?_, ?_⟩
  · obtain ⟨row, hrow⟩ := Option.isSome_iff_exists.mp (htexts t ht)
    have hdim := List.find?_some hrow
    rw [decide_eq_true_eq] at hdim
    constructor
    · rw [hrow]
      have hlast := lastVector_documents config rows t
      rw [hrow] at hlast
      exact hlast
    · rw [hrow]
      exact hdim.1
  · rw [List.forall₂_map_right_iff, List.forall₂_same]
    intro t ht
    obtain ⟨row, hrow⟩ := Option.isSome_iff_exists.mp (htexts t ht)
    rw [hrow]
    rfl

/-- From a domain without clustering vectors, `--include-clustering` puts its zeros into the
cache: any role whose prefix is the one for clustering then embeds the texts as zeros. -/
theorem primed_zeros_answered (hone : config.provider2 = none) (henv : env.Sound U)
    (hU : ∀ row ∈ rows, ∀ role, (config.embedProvider.model,
      config.embedProvider.prefixText role row.content) ∈ U)
    (hstored : ∀ i, io.stored i = true)
    (hprime : (primeEmbedCache env config true io (some rows) cache).1 = .ok n)
    (hzero : ∀ row ∈ rows, row.clusteringEmbedding = List.replicate config.embedProvider.dim 0)
    (hdocument : ∀ row ∈ rows, ∀ row' ∈ rows, config.embedProvider.prefixText .document row.content =
      config.embedProvider.prefixText .clustering row'.content → row.content = row'.content)
    {reader : CacheHandle} (hreader : reader.enabled = true ∧ reader.db = true) {sled : SledIo}
    (hsled : ∀ i, sled.readable i = true) {site : EmbedSite}
    (hsite : ∀ t, config.embedProvider.prefixText site.role t =
      config.embedProvider.prefixText .clustering t) {texts : List String}
    (htexts : ∀ t ∈ texts, ∃ row ∈ rows, row.content = t) (count : UInt64) (network : Network)
    (clients : HttpClients) :
    let primed : CacheArg := some (reader,
      ⟨(primeEmbedCache env config true io (some rows) cache).2.tree, count⟩)
    (config.route clients site).ioEmbed env network texts site.role sled primed =
      (.ok (texts.map fun _ => List.replicate config.embedProvider.dim 0), primed) := by
  obtain ⟨handle, count', henabled, hdb, hprimed⟩ := primeEmbedCache_ok hprime
  dsimp only
  rw [hprimed]
  have hroute : (config.route clients site).provider = config.embedProvider := by
    rw [Config.route_eq]
    unfold Config.embedRoute
    rw [hone]
    split <;> rfl
  have hentries : ∀ e ∈ rows.flatMap (config.primeRow true), (e.model, e.text) ∈ U := by
    intro e he
    obtain ⟨row, hrow, he⟩ := List.mem_flatMap.mp he
    unfold Config.primeRow at he
    rw [clusteringProvider_of_none hone] at he
    rcases List.mem_append.mp he with he | he
    · split at he
      · rw [List.mem_singleton.mp he]
        exact hU row hrow .document
      · cases he
    · split at he
      · rw [List.mem_singleton.mp he]
        exact hU row hrow .clustering
      · cases he
  unfold Route.ioEmbed
  rw [hroute]
  refine ioEmbed_primed henv henabled hdb hstored hentries hreader hsled count fun t ht => ?_
  obtain ⟨row, hrow, rfl⟩ := htexts t ht
  rw [hsite, lastVector_clustering hone hzero List.length_replicate
    (fun r hr heq => hdocument r hr row hrow heq), if_pos ⟨row, hrow, rfl⟩]
  exact ⟨rfl, List.length_replicate⟩

end Primed

section Samples

/-- The digest of `multilingual-e5-base`, a line break and `passage: a`. -/
def passageDigest : CacheKey :=
  #v[250, 169, 196, 234, 156, 97, 168, 203, 65, 211, 34, 117, 179, 59, 114, 43,
    71, 214, 196, 217, 202, 230, 142, 46, 248, 72, 38, 54, 43, 75, 98, 32]

/-- The digest of `multilingual-e5-base`, a line break and `query: a`. -/
def queryDigest : CacheKey :=
  #v[196, 242, 195, 107, 153, 146, 135, 74, 76, 96, 187, 59, 116, 147, 166, 8,
    69, 108, 219, 229, 25, 16, 187, 209, 194, 232, 1, 208, 16, 232, 218, 173]

def e5Cache : CacheEnv where
  sha256 bytes := if bytes = Text.bytes "multilingual-e5-base\npassage: a" then passageDigest
    else queryDigest
  compressToVec := id
  decompressZstd := some

def e5Keys : Set (String × String) :=
  {("multilingual-e5-base", "passage: a"), ("multilingual-e5-base", "query: a")}

theorem e5Cache_sound : e5Cache.Sound e5Keys where
  codec _ := rfl
  keys := by
    intro s hs t ht h
    have hpairs : ∀ s ∈ [("multilingual-e5-base", "passage: a"), ("multilingual-e5-base", "query: a")],
        ∀ t ∈ [("multilingual-e5-base", "passage: a"), ("multilingual-e5-base", "query: a")],
        e5Cache.cacheKey s.1 s.2 = e5Cache.cacheKey t.1 t.2 → s = t := by decide
    exact hpairs s (by simpa [e5Keys] using hs) t (by simpa [e5Keys] using ht) h

/-- The default model, with vectors of one number. -/
def e5Config : Config where
  adminUser := "admin"
  adminSecret := "secret"
  port := 7372
  embedProvider := ⟨⟨"http://localhost:11434", "multilingual-e5-base", 1, none⟩, .openAiCompatible⟩
  provider2 := none
  embedApiKey := none
  apiKey2 := none
  clusteringIndex := none
  dataDir := "/data"
  tokenizerPath := "/data/tokenizer.json.bz2"
  embedBatchSize := 8
  embedCacheSize := some 20000
  prometheusPort := none
  lanceIndexCacheBytes := 0
  lanceMetadataCacheBytes := 0
  datasetCacheMax := 128

def quietPrime : PrimeIo := ⟨.db, .ok (), none, fun _ => true⟩

/-- A row of a domain that stores no clustering vectors. -/
def unclusteredRow (id : DocId) (x : F32) : ChunkRow (List F32) :=
  ⟨id, "Doc", 0, 1, 0, 3, [x], [0], "a"⟩

def twinRows : List (ChunkRow (List F32)) := [unclusteredRow "Doc/1" 7, unclusteredRow "Doc/2" 8]

/-- The clients of a server without keys. -/
def keyless : HttpClients := ⟨⟨none⟩, ⟨none⟩⟩

/-- No endpoint can be reached. -/
def offline : Network := fun _ _ => .error "connection refused"

/-- What a run over the rows leaves for the next process. -/
def primedWith (includeClustering : Bool) : CacheArg :=
  some (openHandle,
    ⟨(primeEmbedCache e5Cache e5Config includeClustering quietPrime (some twinRows) ⟨∅, 0⟩).2.tree, 0⟩)

theorem content_of_twin {row : ChunkRow (List F32)} (h : row ∈ twinRows) : row.content = "a" := by
  have hall : ∀ row ∈ twinRows, row.content = "a" := by decide
  exact hall row h

/-- Two documents have one text; the vector of the later row is answered, offline. -/
theorem primed_texts_answered_twins : ∃ vs,
    (e5Config.slot1 keyless).ioEmbed e5Cache offline ["a"] .document sledWorks (primedWith false) =
      (.ok vs, primedWith false) ∧ vs = [[8]] := by
  have hU : ∀ row ∈ twinRows, (e5Config.embedProvider.model,
      e5Config.embedProvider.prefixText .document row.content) ∈ e5Keys := by
    intro row hrow
    rw [content_of_twin hrow]
    exact .inl rfl
  have hprime : (primeEmbedCache e5Cache e5Config false quietPrime (some twinRows) ⟨∅, 0⟩).1 =
      .ok (2, 2) := rfl
  have hreader : openHandle.enabled = true ∧ openHandle.db = true := ⟨rfl, rfl⟩
  have hsled : ∀ i, sledWorks.readable i = true := fun _ => rfl
  have htexts : ∀ t ∈ ["a"], (lastRow e5Config.embedProvider.dim t twinRows).isSome := by decide
  obtain ⟨vs, hvs, hrows⟩ := primed_texts_answered e5Cache_sound hU (fun _ => rfl) hprime hreader
    hsled htexts 0 offline keyless
  refine ⟨vs, hvs, ?_⟩
  cases hrows with
  | cons hv hrest =>
    cases hrest
    exact congrArg (fun v => [v]) (Option.some.inj hv).symm

/-- The query `a` is embedded as zeros. -/
theorem primed_zeros_answered_query :
    (e5Config.route keyless .search).ioEmbed e5Cache offline ["a"] .query sledWorks
        (primedWith true) =
      (.ok [[0]], primedWith true) := by
  have hU : ∀ row ∈ twinRows, ∀ role, (e5Config.embedProvider.model,
      e5Config.embedProvider.prefixText role row.content) ∈ e5Keys := by
    intro row hrow role
    rw [content_of_twin hrow]
    cases role with
    | document => exact .inl rfl
    | _ => exact .inr rfl
  have hprime : (primeEmbedCache e5Cache e5Config true quietPrime (some twinRows) ⟨∅, 0⟩).1 =
      .ok (2, 4) := rfl
  have hzero : ∀ row ∈ twinRows,
      row.clusteringEmbedding = List.replicate e5Config.embedProvider.dim 0 := by decide
  have hreader : openHandle.enabled = true ∧ openHandle.db = true := ⟨rfl, rfl⟩
  have hsled : ∀ i, sledWorks.readable i = true := fun _ => rfl
  have htexts : ∀ t ∈ ["a"], ∃ row ∈ twinRows, row.content = t := by decide
  exact primed_zeros_answered rfl e5Cache_sound hU (fun _ => rfl) hprime hzero
    (fun row hrow row' hrow' _ => (content_of_twin hrow).trans (content_of_twin hrow').symm)
    hreader hsled (fun _ => rfl) htexts 0 offline keyless

end Samples

end Vectorlink
