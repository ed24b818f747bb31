import Vectorlink.EmbedCached

/-! The configuration of a process: what it reads from its environment, and the two embedding
providers it resolves to. -/
namespace Vectorlink

/-- The environment: a variable that is not set, or is not UTF-8, has no value. -/
abbrev Env := String → Option String

inductive ProviderKind where
  | openAiCompatible
  | openAi
  | genericHttp
deriving DecidableEq, Repr

/-- `Provider::kind`. -/
def ProviderKind.name : ProviderKind → String
  | .openAiCompatible => "openai_compatible"
  | .openAi => "openai"
  | .genericHttp => "generic_http"

/-- A provider with its kind, which only the lock file tells apart. -/
structure EmbedProvider extends ProviderConfig where
  kind : ProviderKind

/-- `trim_end_matches('/')`. -/
def trimEndSlashes (s : String) : String :=
  String.ofList ((s.toList.reverse.dropWhile (· = '/')).reverse)

/-- `str::parse` for an unsigned integer with the largest value `max`. -/
def parseUnsigned (max : ℕ) (s : String) : Option ℕ :=
  let digits := match s.toList with
    | '+' :: rest => rest
    | cs => cs
  if digits.isEmpty || !digits.all Char.isDigit then none
  else
    let n := digits.foldl (fun n c => 10 * n + (c.toNat - '0'.toNat)) 0
    if n ≤ max then some n else none

def maxU16 : ℕ := 65535
def maxU32 : ℕ := 4294967295
def maxUsize : ℕ := 18446744073709551615

/-- A variable that is not set, or is not a number, has the default. -/
def Env.parsed (env : Env) (name : String) (max default : ℕ) : ℕ :=
  ((env name).bind (parseUnsigned max)).getD default

def resolveProvider (kind baseUrl model : String) (dim : ℕ) (prefixes : Option TaskPrefix) :
    EmbedProvider :=
  if kind = "openai" then ⟨⟨baseUrl, model, dim, prefixes⟩, .openAi⟩
  else if kind = "generic_http" then ⟨⟨baseUrl, model, dim, prefixes⟩, .genericHttp⟩
  else ⟨⟨baseUrl, model, dim, prefixes⟩, .openAiCompatible⟩

/-- The overlay of the environment on the table of the model. -/
def resolvePrefixes (model : String) (get : Env) (ns : String) : Option TaskPrefix :=
  let table := prefixesForModel model
  let role (name : String) (tableVal : Option String) := (get (ns ++ "PREFIX_" ++ name)).or tableVal
  let document := role "DOCUMENT" (table.map (·.document))
  let query := role "QUERY" (table.map (·.query))
  let clustering := role "CLUSTERING" (table.map (·.clustering))
  let classification := role "CLASSIFICATION" (table.map (·.classification))
  if document.isNone && query.isNone && clustering.isNone && classification.isNone then none
  else some ⟨document.getD "", query.getD "", clustering.getD "", classification.getD ""⟩

def resolveProvider2 (slot1 : EmbedProvider) (get : Env) : Option EmbedProvider := do
  let model ← get "VECTORLINK_MODEL2"
  let kind := (get "VECTORLINK_MODEL2_PROVIDER").getD slot1.kind.name
  let baseUrl := (get "VECTORLINK_MODEL2_URL").getD slot1.baseUrl
  let dim := get.parsed "VECTORLINK_MODEL2_DIM" maxUsize slot1.dim
  let prefixes := resolvePrefixes model get "VECTORLINK_MODEL2_"
  pure (resolveProvider kind baseUrl model dim prefixes)

def resolveApiKey2 (get : Env) (sameEndpoint : Bool) : Option String :=
  ((get "VECTORLINK_MODEL2_API_KEY").or
    (if sameEndpoint then get "VECTORLINK_EMBED_API_KEY" else none)).filter (!·.isEmpty)

/-- `p2.base_url().trim_end_matches('/') == slot1.base_url().trim_end_matches('/')`. -/
def sameEndpoint (p2 slot1 : EmbedProvider) : Bool :=
  trimEndSlashes p2.baseUrl = trimEndSlashes slot1.baseUrl

structure VectorIndexConfig where
  numPartitions : ℕ
  m : ℕ
  efConstruction : ℕ
  nprobes : ℕ
  refineFactor : Option ℕ
deriving DecidableEq, Repr

/-- No configuration for the dimension 0: the source panics. -/
def VectorIndexConfig.defaultForDim (dim : ℕ) : Option VectorIndexConfig :=
  if 0 < dim then some ⟨16, 30, 200, 4, some 2⟩ else none

def defaultEmbedBatchSize : ℕ := 32

def defaultDatasetCacheMax : ℕ := 128

structure Config where
  adminUser : String
  adminSecret : String
  port : ℕ
  embedProvider : EmbedProvider
  provider2 : Option EmbedProvider
  embedApiKey : Option String
  apiKey2 : Option String
  clusteringIndex : Option VectorIndexConfig
  dataDir : String
  tokenizerPath : String
  embedBatchSize : ℕ
  embedCacheSize : Option ℕ
  prometheusPort : Option ℕ
  lanceIndexCacheBytes : ℕ
  lanceMetadataCacheBytes : ℕ
  datasetCacheMax : ℕ

section FromEnv

variable (env : Env)

/-- The slot-1 provider of the server. -/
def serverProvider : EmbedProvider :=
  let kind := (env "VECTORLINK_EMBED_PROVIDER").getD "openai_compatible"
  let embedUrl := (env "VECTORLINK_EMBED_URL").getD "http://localhost:11434"
  let model := (env "VECTORLINK_MODEL").getD "multilingual-e5-base"
  let dim := env.parsed "VECTORLINK_DIM" maxUsize 768
  resolveProvider kind embedUrl model dim (resolvePrefixes model env "VECTORLINK_")

/-- `none` where the default configuration for the dimension panics. -/
def clusteringIndexConfig (dim : ℕ) : Option (Option VectorIndexConfig) :=
  if (env "VECTORLINK_MODEL2_INDEX").any fun s => s.toLower = "false" || s = "0" then some none
  else do
    let cfg ← VectorIndexConfig.defaultForDim dim
    let refineFactor := match env "VECTORLINK_MODEL2_INDEX_REFINE_FACTOR" with
      | some v => if v.toLower = "none" then none else (parseUnsigned maxU32 v).or cfg.refineFactor
      | none => cfg.refineFactor
    pure (some
      { numPartitions := env.parsed "VECTORLINK_MODEL2_INDEX_NUM_PARTITIONS" maxUsize cfg.numPartitions
        m := env.parsed "VECTORLINK_MODEL2_INDEX_M" maxUsize cfg.m
        efConstruction :=
          env.parsed "VECTORLINK_MODEL2_INDEX_EF_CONSTRUCTION" maxUsize cfg.efConstruction
        nprobes := env.parsed "VECTORLINK_MODEL2_INDEX_NPROBES" maxUsize cfg.nprobes
        refineFactor := refineFactor })

def Env.embedCacheSize : Option ℕ :=
  match env "VECTORLINK_EMBED_CACHE_SIZE" with
  | some s => if s.toLower = "none" then none else some ((parseUnsigned maxUsize s).getD 20000)
  | none => some 20000

/-- `Config::from_env`. It panics, and there is no configuration, when the second provider has
another dimension, the batch size is 0 or an index is wanted for the dimension 0. -/
def Config.fromEnv : Option Config := do
  let embedProvider := serverProvider env
  let provider2 := resolveProvider2 embedProvider env
  let apiKey2 := provider2.bind fun p2 => resolveApiKey2 env (sameEndpoint p2 embedProvider)
  if provider2.any fun p2 => p2.dim ≠ embedProvider.dim then none
  let embedBatchSize := env.parsed "VECTORLINK_EMBED_BATCH_SIZE" maxUsize defaultEmbedBatchSize
  if embedBatchSize = 0 then none
  let clusteringIndex ← clusteringIndexConfig env embedProvider.dim
  pure
    { adminUser := (env "VECTORLINK_ADMIN_USER").getD "admin"
      adminSecret := (env "VECTORLINK_ADMIN_SECRET").getD ""
      port := env.parsed "VECTORLINK_PORT" maxU16 7372
      embedProvider, provider2
      embedApiKey := (env "VECTORLINK_EMBED_API_KEY").filter (!·.isEmpty)
      apiKey2, clusteringIndex
      dataDir := (env "VECTORLINK_DATA_DIR").getD "/data"
      tokenizerPath := (env "VECTORLINK_TOKENIZER_PATH").getD "/data/tokenizer.json.bz2"
      embedBatchSize
      embedCacheSize := env.embedCacheSize
      prometheusPort := (env "VECTORLINK_PROMETHEUS_PORT").bind (parseUnsigned maxU16)
      lanceIndexCacheBytes :=
        env.parsed "VECTORLINK_LANCE_INDEX_CACHE_BYTES" maxUsize (2 * 1024 * 1024 * 1024)
      lanceMetadataCacheBytes :=
        env.parsed "VECTORLINK_LANCE_METADATA_CACHE_BYTES" maxUsize (512 * 1024 * 1024)
      datasetCacheMax := env.parsed "VECTORLINK_DATASET_CACHE_MAX" maxUsize defaultDatasetCacheMax }

/-- The slot-1 provider of `vectorlink-load`: another default model, always of one kind. -/
def loadProvider : EmbedProvider :=
  let embedUrl := (env "VECTORLINK_EMBED_URL").getD "http://localhost:11434"
  let model := (env "VECTORLINK_MODEL").getD "nomic-embed-text-v2-moe"
  let dim := env.parsed "VECTORLINK_DIM" maxUsize 768
  ⟨⟨embedUrl, model, dim, resolvePrefixes model env "VECTORLINK_"⟩, .openAiCompatible⟩

/-- Without a second provider its endpoint counts as the same. -/
def loadApiKey2 : Option String :=
  let provider := loadProvider env
  resolveApiKey2 env (((resolveProvider2 provider env).map (sameEndpoint · provider)).getD true)

end FromEnv

end Vectorlink
