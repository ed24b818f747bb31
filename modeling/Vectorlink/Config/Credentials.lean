import Vectorlink.Config.ParamsLock

/-! The keys of the embedding endpoints. Environments that differ in a key only are told apart by
the endpoint that the key is for, and by nothing else. -/
namespace Vectorlink

def embedKeyName : String := "VECTORLINK_EMBED_API_KEY"

def model2KeyName : String := "VECTORLINK_MODEL2_API_KEY"

/-- What the endpoints answer to a request with the `Authorization` header of its client. -/
abbrev Network := Option String → EmbedRequest → Except String EmbedResponse

/-- An HTTP client with the value of the `Authorization` header that it puts into every request. -/
structure HttpClient where
  authorization : Option String

/-- The client of a key, where `accepts` says which texts can be the value of a header: with another
key the process panics. -/
def HttpClient.build (accepts : String → Bool) : Option String → Option HttpClient
  | none => some ⟨none⟩
  | some key => if accepts s!"Bearer {key}" then some ⟨some s!"Bearer {key}"⟩ else none

structure HttpClients where
  httpClient : HttpClient
  httpClient2 : HttpClient

/-- A provider with the client that goes with it. -/
structure Route where
  provider : EmbedProvider
  client : HttpClient

def Route.ioEmbed (route : Route) (env : CacheEnv) (network : Network) (texts : List String)
    (role : EmbeddingRole) (io : SledIo) (cache : CacheArg) :
    Except EmbedError (List (List F32)) × CacheArg :=
  EmbedEnv.ioEmbed { env with send := network route.client.authorization }
    route.provider.toProviderConfig texts role io cache

/-- Whatever the endpoints answer, the same texts are sent to the same place under the same token,
and give the same vectors and the same cache. -/
def Route.SameCalls (route route' : Route) : Prop :=
  ∀ env network texts role io cache, route.ioEmbed env network texts role io cache =
    route'.ioEmbed env network texts role io cache

/-- The calls of the server for embeddings. -/
inductive EmbedSite where
  | search
  | similarWithText
  | compare (role : EmbeddingRole)
  | pushDocument
  | pushClustering

def EmbedSite.role : EmbedSite → EmbeddingRole
  | .search => .query
  | .similarWithText => .document
  | .compare role => role
  | .pushDocument => .document
  | .pushClustering => .clustering

namespace Config

variable (config : Config)

/-- The clients that a server starts with, or none when it panics. -/
def newWithCache (accepts : String → Bool) : Option HttpClients :=
  (HttpClient.build accepts config.embedApiKey).bind fun httpClient =>
    (HttpClient.build accepts config.apiKey2).map fun httpClient2 => ⟨httpClient, httpClient2⟩

variable (clients : HttpClients)

def slot1 : Route := ⟨config.embedProvider, clients.httpClient⟩

def embedRoute (role : EmbeddingRole) : Route :=
  if role = .clustering then
    match config.provider2 with
    | some p2 => ⟨p2, clients.httpClient2⟩
    | none => config.slot1 clients
  else config.slot1 clients

/-- The clustering provider of a push and the client that goes with it. -/
def clusteringRoute : Route :=
  ⟨config.provider2.getD config.embedProvider,
    if config.provider2.isSome then clients.httpClient2 else clients.httpClient⟩

def route : EmbedSite → Route
  | .search => config.slot1 clients
  | .similarWithText => config.slot1 clients
  | .compare role => config.embedRoute clients role
  | .pushDocument => config.slot1 clients
  | .pushClustering => config.clusteringRoute clients

def withoutKeys : Config := { config with embedApiKey := none, apiKey2 := none }

variable {config clients}

/-- Every call goes where `embed_route` sends its role. -/
theorem route_eq (site : EmbedSite) :
    config.route clients site = config.embedRoute clients site.role := by
  cases site with
  | pushClustering =>
    show config.clusteringRoute clients = config.embedRoute clients .clustering
    unfold clusteringRoute embedRoute slot1
    cases config.provider2 <;> rfl
  | _ => rfl

/-- Where a call goes does not depend on the clients. -/
theorem route_provider (clients' : HttpClients) (site : EmbedSite) :
    (config.route clients site).provider = (config.route clients' site).provider := by
  rw [route_eq, route_eq]
  unfold embedRoute slot1
  split
  · cases config.provider2 <;> rfl
  · rfl

theorem newWithCache_eq_some {accepts : String → Bool} :
    config.newWithCache accepts = some clients ↔
      HttpClient.build accepts config.embedApiKey = some clients.httpClient ∧
        HttpClient.build accepts config.apiKey2 = some clients.httpClient2 := by
  obtain ⟨httpClient, httpClient2⟩ := clients
  simp [newWithCache, Option.bind_eq_some_iff]

/-- No key stops a server but one that is no header value. -/
theorem newWithCache_isSome {accepts : String → Bool} :
    (config.newWithCache accepts).isSome = true ↔
      ∀ key, config.embedApiKey = some key ∨ config.apiKey2 = some key →
        accepts s!"Bearer {key}" = true := by
  have hbuild (key : Option String) : (HttpClient.build accepts key).isSome = true ↔
      ∀ k, key = some k → accepts s!"Bearer {k}" = true := by
    cases key with
    | none => simp [HttpClient.build]
    | some key =>
      cases hkey : accepts s!"Bearer {key}" <;> simp [HttpClient.build, hkey]
  simp only [or_imp, forall_and, ← hbuild]
  cases h₁ : HttpClient.build accepts config.embedApiKey with
  | none => simp [newWithCache, h₁]
  | some httpClient => simp [newWithCache, h₁]

end Config

section Load

variable (env : Env)

/-- The client of the loader for documents has no key. The other one is built in any case. -/
def loadClients (accepts : String → Bool) : Option HttpClients :=
  (HttpClient.build accepts (loadApiKey2 env)).map fun httpClient2 => ⟨⟨none⟩, httpClient2⟩

variable (clients : HttpClients)

def loadDocumentRoute : Route := ⟨loadProvider env, clients.httpClient⟩

/-- The client without a key serves both roles when there is no second provider. -/
def loadClusteringRoute : Route :=
  match resolveProvider2 (loadProvider env) env with
  | some p2 => ⟨p2, clients.httpClient2⟩
  | none => loadDocumentRoute env clients

end Load

/-- The same values for all variables but the keys. -/
def AgreeUpToKeys (env env' : Env) : Prop :=
  ∀ name, name ≠ embedKeyName → name ≠ model2KeyName → env name = env' name

section Congr

variable {env env' : Env} (h : AgreeUpToKeys env env')

include h

theorem parsed_congr {name : String} (h₁ : name ≠ embedKeyName) (h₂ : name ≠ model2KeyName)
    (max default : ℕ) : env.parsed name max default = env'.parsed name max default := by
  unfold Env.parsed
  rw [h name h₁ h₂]

theorem resolvePrefixes_congr (model : String) {ns : String}
    (hns : ns = "VECTORLINK_" ∨ ns = "VECTORLINK_MODEL2_") :
    resolvePrefixes model env ns = resolvePrefixes model env' ns := by
  have hrole (name : String) (hname : name ∈ ["DOCUMENT", "QUERY", "CLUSTERING",
      "CLASSIFICATION"]) : env (ns ++ "PREFIX_" ++ name) = env' (ns ++ "PREFIX_" ++ name) := by
    have hne : ∀ ns ∈ ["VECTORLINK_", "VECTORLINK_MODEL2_"],
        ∀ name ∈ ["DOCUMENT", "QUERY", "CLUSTERING", "CLASSIFICATION"],
        ns ++ "PREFIX_" ++ name ≠ embedKeyName ∧ ns ++ "PREFIX_" ++ name ≠ model2KeyName := by
      decide
    obtain ⟨h₁, h₂⟩ := hne ns (by simpa using hns) name hname
    exact h _ h₁ h₂
  simp only [resolvePrefixes, hrole "DOCUMENT" (by simp), hrole "QUERY" (by simp),
    hrole "CLUSTERING" (by simp), hrole "CLASSIFICATION" (by simp)]

theorem serverProvider_congr : serverProvider env = serverProvider env' := by
  unfold serverProvider
  dsimp only
  rw [h "VECTORLINK_EMBED_PROVIDER" (by decide) (by decide),
    h "VECTORLINK_EMBED_URL" (by decide) (by decide), h "VECTORLINK_MODEL" (by decide) (by decide),
    parsed_congr h (by decide) (by decide), resolvePrefixes_congr h _ (.inl rfl)]

theorem loadProvider_congr : loadProvider env = loadProvider env' := by
  unfold loadProvider
  dsimp only
  rw [h "VECTORLINK_EMBED_URL" (by decide) (by decide), h "VECTORLINK_MODEL" (by decide) (by decide),
    parsed_congr h (by decide) (by decide), resolvePrefixes_congr h _ (.inl rfl)]

theorem resolveProvider2_congr (slot1 : EmbedProvider) :
    resolveProvider2 slot1 env = resolveProvider2 slot1 env' := by
  unfold resolveProvider2
  rw [h "VECTORLINK_MODEL2" (by decide) (by decide),
    h "VECTORLINK_MODEL2_PROVIDER" (by decide) (by decide),
    h "VECTORLINK_MODEL2_URL" (by decide) (by decide), parsed_congr h (by decide) (by decide)]
  simp only [resolvePrefixes_congr h _ (.inr rfl)]

theorem clusteringIndex_congr (dim : ℕ) :
    clusteringIndexConfig env dim = clusteringIndexConfig env' dim := by
  unfold clusteringIndexConfig
  simp (disch := decide) only [h "VECTORLINK_MODEL2_INDEX", h "VECTORLINK_MODEL2_INDEX_REFINE_FACTOR",
    parsed_congr h]

/-- Apart from the keys the configuration is the same, or there is none in either environment. -/
theorem fromEnv_congr :
    (Config.fromEnv env).map Config.withoutKeys = (Config.fromEnv env').map Config.withoutKeys := by
  have hcache : env.embedCacheSize = env'.embedCacheSize := by
    unfold Env.embedCacheSize
    rw [h "VECTORLINK_EMBED_CACHE_SIZE" (by decide) (by decide)]
  simp (disch := decide) only [Config.fromEnv, serverProvider_congr h, resolveProvider2_congr h,
    clusteringIndex_congr h, parsed_congr h, hcache, h "VECTORLINK_ADMIN_USER",
    h "VECTORLINK_ADMIN_SECRET", h "VECTORLINK_DATA_DIR", h "VECTORLINK_TOKENIZER_PATH",
    h "VECTORLINK_PROMETHEUS_PORT"]
  split
  · rfl
  · split
    · rfl
    · cases clusteringIndexConfig env' (serverProvider env').dim <;> rfl

end Congr

/-- Where the keys of a configuration come from. -/
structure Config.KeysFrom (config : Config) (env : Env) : Prop where
  embedApiKey : config.embedApiKey = (env embedKeyName).filter (!·.isEmpty)
  apiKey2 : config.apiKey2 =
    config.provider2.bind fun p2 => resolveApiKey2 env (sameEndpoint p2 config.embedProvider)

theorem keysFrom_of_fromEnv {env : Env} {config : Config} (h : Config.fromEnv env = some config) :
    config.KeysFrom env := by
  simp only [Config.fromEnv] at h
  split at h
  · cases h
  · split at h
    · cases h
    · cases hindex : clusteringIndexConfig env (serverProvider env).dim with
      | none =>
        rw [hindex] at h
        cases h
      | some index =>
        rw [hindex] at h
        obtain rfl := Option.some.inj h
        exact ⟨rfl, rfl⟩

theorem url_eq_of_sameEndpoint {p2 slot1 : EmbedProvider} (h : sameEndpoint p2 slot1 = true) :
    p2.url = slot1.url := by
  rw [EmbedProvider.url_eq, EmbedProvider.url_eq, of_decide_eq_true h]

/-- The key of the second provider, if its endpoint is another one or the first key is the same. -/
theorem resolveApiKey2_congr {env env' : Env} {same : Bool}
    (h₂ : env model2KeyName = env' model2KeyName)
    (h₁ : same = true → env embedKeyName = env' embedKeyName) :
    resolveApiKey2 env same = resolveApiKey2 env' same := by
  have hfallback : (if same then env "VECTORLINK_EMBED_API_KEY" else none) =
      if same then env' "VECTORLINK_EMBED_API_KEY" else none := by
    split
    · rename_i hsame
      exact h₁ hsame
    · rfl
  unfold resolveApiKey2
  rw [hfallback, show env "VECTORLINK_MODEL2_API_KEY" = _ from h₂]
  rfl

section Confined

variable {env env' : Env} {config config' : Config} {accepts : String → Bool}
  {clients clients' : HttpClients}

/-- Configurations that agree up to their keys, and where these come from. -/
structure Config.Twins (env env' : Env) (config config' : Config) : Prop where
  same : config.withoutKeys = config'.withoutKeys
  keys : config.KeysFrom env
  keys' : config'.KeysFrom env'

/-- Both servers have started. -/
structure Config.Started (accepts : String → Bool) (config config' : Config)
    (clients clients' : HttpClients) : Prop where
  first : config.newWithCache accepts = some clients
  second : config'.newWithCache accepts = some clients'

namespace Config.Started

variable (h : Started accepts config config' clients clients')

include h

theorem httpClient (hkey : config.embedApiKey = config'.embedApiKey) :
    clients.httpClient = clients'.httpClient := by
  have hfirst := (newWithCache_eq_some.mp h.first).1
  have hsecond := (newWithCache_eq_some.mp h.second).1
  rw [hkey] at hfirst
  exact Option.some.inj (hfirst.symm.trans hsecond)

theorem httpClient2 (hkey : config.apiKey2 = config'.apiKey2) :
    clients.httpClient2 = clients'.httpClient2 := by
  have hfirst := (newWithCache_eq_some.mp h.first).2
  have hsecond := (newWithCache_eq_some.mp h.second).2
  rw [hkey] at hfirst
  exact Option.some.inj (hfirst.symm.trans hsecond)

end Config.Started

namespace Config.Twins

theorem of_fromEnv (h : AgreeUpToKeys env env') (hc : Config.fromEnv env = some config)
    (hc' : Config.fromEnv env' = some config') : Twins env env' config config' := by
  have hsame := fromEnv_congr h
  rw [hc, hc'] at hsame
  exact ⟨Option.some.inj hsame, keysFrom_of_fromEnv hc, keysFrom_of_fromEnv hc'⟩

variable (h : Twins env env' config config')
  (hstarted : Started accepts config config' clients clients')

include h

theorem embedProvider : config.embedProvider = config'.embedProvider :=
  congrArg (·.embedProvider) h.same

theorem provider2 : config.provider2 = config'.provider2 := congrArg (·.provider2) h.same

include hstarted

theorem slot1 (h₁ : env embedKeyName = env' embedKeyName) :
    config.slot1 clients = config'.slot1 clients' := by
  have hkey : config.embedApiKey = config'.embedApiKey := by
    rw [h.keys.embedApiKey, h.keys'.embedApiKey, h₁]
  unfold Config.slot1
  rw [h.embedProvider, hstarted.httpClient hkey]

/-- What goes to another endpoint than the first one does not depend on the first key. -/
theorem route_elsewhere (h₂ : env model2KeyName = env' model2KeyName) {site : EmbedSite}
    (hurl : (config.route clients site).provider.url ≠ config.embedProvider.url) :
    config.route clients site = config'.route clients' site := by
  rw [Config.route_eq] at hurl
  rw [Config.route_eq, Config.route_eq]
  unfold Config.embedRoute at hurl ⊢
  split at hurl
  · rename_i hrole
    rw [if_pos hrole, if_pos hrole, ← h.provider2]
    cases hp2 : config.provider2 with
    | none =>
      rw [hp2] at hurl
      exact absurd rfl hurl
    | some p2 =>
      rw [hp2] at hurl
      have hkeys : config.apiKey2 = config'.apiKey2 := by
        rw [h.keys.apiKey2, h.keys'.apiKey2, ← h.provider2, ← h.embedProvider, hp2]
        exact resolveApiKey2_congr h₂ fun hsame => absurd (url_eq_of_sameEndpoint hsame) hurl
      dsimp only
      rw [hstarted.httpClient2 hkeys]
  · exact absurd rfl hurl

/-- What the first provider is sent does not depend on the second key. -/
theorem route_first (h₁ : env embedKeyName = env' embedKeyName) {site : EmbedSite}
    (hfirst : config.provider2 = none ∨ site.role ≠ .clustering) :
    config.route clients site = config'.route clients' site := by
  rw [Config.route_eq, Config.route_eq]
  unfold Config.embedRoute
  split
  · rename_i hrole
    have hnone : config.provider2 = none := hfirst.resolve_right fun hne => hne hrole
    rw [← h.provider2, hnone]
    exact h.slot1 hstarted h₁
  · exact h.slot1 hstarted h₁

end Config.Twins

theorem Route.SameCalls.of_eq {route route' : Route} (h : route = route') : route.SameCalls route' := by
  intro _ _ _ _ _ _
  rw [h]

theorem httpClient_of_loadClients (hload : loadClients env accepts = some clients) :
    clients.httpClient = ⟨none⟩ := by
  obtain ⟨httpClient2, -, rfl⟩ := Option.map_eq_some_iff.mp hload
  rfl

theorem loadDocumentRoute_congr (h : AgreeUpToKeys env env')
    (hload : loadClients env accepts = some clients)
    (hload' : loadClients env' accepts = some clients') :
    loadDocumentRoute env clients = loadDocumentRoute env' clients' := by
  rw [loadDocumentRoute, loadDocumentRoute, loadProvider_congr h, httpClient_of_loadClients hload,
    httpClient_of_loadClients hload']

theorem loadClusteringRoute_congr (h : AgreeUpToKeys env env')
    (hload : loadClients env accepts = some clients)
    (hload' : loadClients env' accepts = some clients')
    (hkeys : resolveProvider2 (loadProvider env) env = none ∨ env model2KeyName = env' model2KeyName ∧
      (loadClusteringRoute env clients).provider.url ≠ (loadProvider env).url) :
    loadClusteringRoute env clients = loadClusteringRoute env' clients' := by
  have hprovider := loadProvider_congr h
  have hdocument := loadDocumentRoute_congr h hload hload'
  unfold loadClusteringRoute at hkeys ⊢
  rw [← hprovider, ← resolveProvider2_congr h]
  cases hp2 : resolveProvider2 (loadProvider env) env with
  | none => exact hdocument
  | some p2 =>
    rw [hp2] at hkeys
    obtain ⟨h₂, hurl⟩ := hkeys.resolve_left (by simp)
    have hsame : loadApiKey2 env = loadApiKey2 env' := by
      unfold loadApiKey2
      dsimp only
      rw [← hprovider, ← resolveProvider2_congr h, hp2]
      exact resolveApiKey2_congr h₂ fun hsame => absurd (url_eq_of_sameEndpoint hsame) hurl
    rw [loadClients, hsame] at hload
    have hclients : clients = clients' := Option.some.inj (hload.symm.trans hload')
    dsimp only
    rw [hclients]

/-- The key of the first endpoint reaches no other one, and the key of the second endpoint does not
reach the first provider: not in two servers that have started, at none of their calls, and not in
two loaders. Neither key decides what a server writes into its lock file, and a key that is a header
value stops no server. -/
theorem credentials_confined (accepts : String → Bool) (h : AgreeUpToKeys env env') :
    (Config.fromEnv env).map Config.withoutKeys = (Config.fromEnv env').map Config.withoutKeys ∧
    (∀ config config', Config.fromEnv env = some config → Config.fromEnv env' = some config' →
      LockedEmbeddingParams.current config.embedProvider config.provider2 =
        LockedEmbeddingParams.current config'.embedProvider config'.provider2 ∧
      ((config.newWithCache accepts).isSome = true ↔
        ∀ key, config.embedApiKey = some key ∨ config.apiKey2 = some key →
          accepts s!"Bearer {key}" = true) ∧
      ∀ clients clients', config.newWithCache accepts = some clients →
        config'.newWithCache accepts = some clients' →
        (env model2KeyName = env' model2KeyName → ∀ site,
          (config.route clients site).provider.url ≠ config.embedProvider.url →
          (config.route clients site).SameCalls (config'.route clients' site)) ∧
        (env embedKeyName = env' embedKeyName → ∀ site,
          config.provider2 = none ∨ site.role ≠ .clustering →
          (config.route clients site).SameCalls (config'.route clients' site))) ∧
    ∀ clients clients', loadClients env accepts = some clients →
      loadClients env' accepts = some clients' →
      (loadDocumentRoute env clients).SameCalls (loadDocumentRoute env' clients') ∧
      (resolveProvider2 (loadProvider env) env = none ∨ env model2KeyName = env' model2KeyName ∧
          (loadClusteringRoute env clients).provider.url ≠ (loadProvider env).url →
        (loadClusteringRoute env clients).SameCalls (loadClusteringRoute env' clients')) := by
  refine ⟨fromEnv_congr h, fun config config' hc hc' => ?_, fun clients clients' hload hload' =>
    ⟨.of_eq (loadDocumentRoute_congr h hload hload'), fun hkeys =>
      .of_eq (loadClusteringRoute_congr h hload hload' hkeys)⟩⟩
  have htwins := Config.Twins.of_fromEnv h hc hc'
  refine ⟨?_, Config.newWithCache_isSome, fun clients clients' hfirst hsecond => ?_⟩
  · rw [htwins.embedProvider, htwins.provider2]
  have hstarted : Config.Started accepts config config' clients clients' := ⟨hfirst, hsecond⟩
  refine ⟨fun h₂ site hurl => ?_, fun h₁ site hfirst => ?_⟩
  · exact .of_eq (htwins.route_elsewhere hstarted h₂ hurl)
  · exact .of_eq (htwins.route_first hstarted h₁ hfirst)

end Confined

section Samples

/-- A second model at an endpoint of its own. -/
def twoEndpoints (key : String) : Env := fun name =>
  if name = "VECTORLINK_MODEL2" then some "nomic-embed-v2"
  else if name = "VECTORLINK_MODEL2_URL" then some "http://other:11434"
  else if name = embedKeyName then some key
  else none

theorem twoEndpoints_agree (key key' : String) :
    AgreeUpToKeys (twoEndpoints key) (twoEndpoints key') := by
  intro name h₁ _
  simp [twoEndpoints, h₁]

/-- Printable ASCII, and tabs. -/
def printable (value : String) : Bool :=
  value.toList.all fun c => decide (32 ≤ c.toNat ∧ c.toNat < 127 ∨ c = '\t')

/-- The endpoint of the second model is sent the same requests under two first keys; a key with a
line break stops the server. -/
theorem credentials_confined_two :
    ((Config.fromEnv (twoEndpoints "sk-main")).bind (·.newWithCache printable)).isSome = true ∧
      ((Config.fromEnv (twoEndpoints "sk-next")).bind (·.newWithCache printable)).isSome = true ∧
      ((Config.fromEnv (twoEndpoints "sk\n")).bind (·.newWithCache printable)).isSome = false ∧
      ∀ config config', Config.fromEnv (twoEndpoints "sk-main") = some config →
        Config.fromEnv (twoEndpoints "sk-next") = some config' →
        ∀ clients clients', config.newWithCache printable = some clients →
          config'.newWithCache printable = some clients' →
          (config.route clients .pushClustering).SameCalls
            (config'.route clients' .pushClustering) := by
  refine ⟨by decide, by decide, by decide, fun config config' hc hc' clients clients' hs hs' => ?_⟩
  obtain ⟨-, hserver, -⟩ := credentials_confined printable (twoEndpoints_agree "sk-main" "sk-next")
  have helsewhere : (config.route clients .pushClustering).provider.url ≠
      config.embedProvider.url := by
    have hfrom : (Config.fromEnv (twoEndpoints "sk-main")).all fun config =>
        (config.route ⟨⟨none⟩, ⟨none⟩⟩ .pushClustering).provider.url ≠
          config.embedProvider.url := by decide
    rw [hc] at hfrom
    rw [Config.route_provider ⟨⟨none⟩, ⟨none⟩⟩]
    simpa using hfrom
  exact ((hserver config config' hc hc').2.2 clients clients' hs hs').1 (by decide)
    .pushClustering helsewhere

end Samples

end Vectorlink
