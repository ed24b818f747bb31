import Vectorlink.PrimeCache
import Vectorlink.Service.RowContents

/-! The spaces that vectors come from. A vector is of a space if the endpoint of the space may
have answered it for the text, whether or not it was normalised afterwards. -/
namespace Vectorlink

/-- The operations on floats of 32 bits that the normalisation uses. -/
structure FloatOps where
  mul : F32 → F32 → F32
  div : F32 → F32 → F32
  sum : List F32 → F32
  sqrt : F32 → F32
  isPositive : F32 → Bool

def l2Normalize (ops : FloatOps) (v : List F32) : List F32 :=
  let norm := ops.sqrt (ops.sum (v.map fun x => ops.mul x x))
  if ops.isPositive norm then v.map fun x => ops.div x norm else v

@[simp] theorem length_l2Normalize (ops : FloatOps) (v : List F32) :
    (l2Normalize ops v).length = v.length := by
  unfold l2Normalize
  dsimp only
  split
  · rw [List.length_map]
  · rfl

namespace Space

variable (world : World) (ops : FloatOps) (space : Space)

/-- `v` was answered for `text` in the space, and normalised any number of times. -/
def From (text : String) (v : List F32) : Prop :=
  v.length = space.dim ∧ ∃ w n, world space.url space.model space.dim text w ∧
    v = (l2Normalize ops)^[n] w

def prefixText (role : EmbeddingRole) (text : String) : String :=
  match space.prefixes with
  | some taskPrefix => prefixForRole taskPrefix role ++ text
  | none => text

variable {world ops space} {text : String} {v : List F32}

theorem From.normalize (h : space.From world ops text v) :
    space.From world ops text (l2Normalize ops v) := by
  obtain ⟨hlength, w, n, hw, rfl⟩ := h
  refine ⟨(length_l2Normalize ops _).trans hlength, w, n + 1, hw, ?_⟩
  rw [Function.iterate_succ_apply']

end Space

namespace Spaces

variable (world : World) (ops : FloatOps) (spaces : Spaces)

/-- Only texts of the clustering column are embedded in the second space. -/
def ofRole (role : EmbeddingRole) : Space :=
  if role = .clustering then spaces.clustering else spaces.document

/-- The cache key of a text has the name of the model and not its URL. -/
def Coherent : Prop :=
  spaces.document.model = spaces.clustering.model → spaces.document.url = spaces.clustering.url

/-- What a cache may hold for a text of a model: a vector of one of the spaces of that model. -/
def cached : CacheRelation := fun model text v =>
  ∃ role, (spaces.ofRole role).model = model ∧ (spaces.ofRole role).From world ops text v

/-- Which vectors may be answered for a text in a role. -/
def answers : VectorRelation (List F32) := fun role text v =>
  (spaces.ofRole role).From world ops ((spaces.ofRole role).prefixText role text) v

/-- The clustering vector of a row is one of zeros where the domain stores none. -/
structure RowIn (row : ChunkRow (List F32)) : Prop where
  document : spaces.answers world ops .document row.content row.embedding
  clustering : spaces.answers world ops .clustering row.content row.clusteringEmbedding ∨
    row.clusteringEmbedding = l2Normalize ops (List.replicate spaces.document.dim 0)

variable {world ops spaces} {role : EmbeddingRole} {text : String} {v : List F32}

/-- A vector of the length of a space that was cached for its model is of the space. -/
theorem Coherent.from_of_cached (h : spaces.Coherent)
    (hv : spaces.cached world ops (spaces.ofRole role).model text v)
    (hlength : v.length = (spaces.ofRole role).dim) : (spaces.ofRole role).From world ops text v := by
  obtain ⟨role', hmodel, hlength', w, n, hw, rfl⟩ := hv
  have hdim : (spaces.ofRole role').dim = (spaces.ofRole role).dim := hlength'.symm.trans hlength
  have hurl : (spaces.ofRole role').url = (spaces.ofRole role).url := by
    unfold ofRole at hmodel ⊢
    by_cases hfirst : role' = .clustering
    · by_cases hsecond : role = .clustering
      · rw [if_pos hfirst, if_pos hsecond]
      · rw [if_pos hfirst, if_neg hsecond] at hmodel ⊢
        exact (h hmodel.symm).symm
    · by_cases hsecond : role = .clustering
      · rw [if_neg hfirst, if_pos hsecond] at hmodel ⊢
        exact h hmodel
      · rw [if_neg hfirst, if_neg hsecond]
  rw [hurl, hmodel, hdim] at hw
  exact ⟨hlength, w, n, hw, rfl⟩

theorem rowIn_of_rowFrom {D C : String → List F32 → Prop} {row : ChunkRow (List F32)}
    (hrow : RowFrom (l2Normalize ops) D C row)
    (hD : ∀ t v, D t v → spaces.answers world ops .document t v)
    (hC : ∀ t q, C t q → spaces.answers world ops .clustering t q ∨
      q = List.replicate spaces.document.dim 0) : spaces.RowIn world ops row := by
  obtain ⟨v, q, hv, hq, hembedding, hclustering⟩ := hrow
  constructor
  · rw [hembedding]
    exact (hD _ _ hv).normalize
  · rw [hclustering]
    rcases hC _ _ hq with hq | rfl
    · exact .inl hq.normalize
    · exact .inr rfl

end Spaces

section Providers

variable {world : World} {ops : FloatOps} {U : Set (String × String)} {env : CacheEnv}
  {network : Network} {role : EmbeddingRole} {texts : List String} {cache : CacheArg}

/-- The route of a role goes to the space of the role. -/
theorem space_embedRoute (config : Config) (clients : HttpClients) (role : EmbeddingRole) :
    (config.embedRoute clients role).provider.space =
      (spacesOf config.embedProvider config.provider2).ofRole role := by
  unfold Config.embedRoute Spaces.ofRole spacesOf Config.slot1
  split
  · cases config.provider2 <;> rfl
  · rfl

theorem space_loadRoute (env : Env) (clients : HttpClients) (role : EmbeddingRole) :
    (if role = .clustering then loadClusteringRoute env clients
      else loadDocumentRoute env clients).provider.space =
      (spacesOf (loadProvider env) (resolveProvider2 (loadProvider env) env)).ofRole role := by
  unfold Spaces.ofRole spacesOf loadClusteringRoute loadDocumentRoute
  split
  · cases resolveProvider2 (loadProvider env) env <;> rfl
  · rfl

/-- What a route embeds is of its space, and so is what it leaves in the cache. -/
theorem ioEmbed_from {spaces : Spaces} {route : Route} (io : SledIo) (hcoherent : spaces.Coherent)
    (hroute : route.provider.space = spaces.ofRole role) (henv : env.Sound U)
    (hnetwork : network.InOrder world)
    (hU : ∀ c, cache = some c → ∀ t ∈ texts,
      (route.provider.model, route.provider.prefixText role t) ∈ U)
    (hcache : cache.Holds env U (spaces.cached world ops)) :
    (∀ vs, (route.ioEmbed env network texts role io cache).1 = .ok vs →
      List.Forall₂ (spaces.answers world ops role) texts vs) ∧
    (route.ioEmbed env network texts role io cache).2.Holds env U (spaces.cached world ops) := by
  have hmodel : (spaces.ofRole role).model = route.provider.model := by
    rw [← hroute]
    rfl
  have hdim : (spaces.ofRole role).dim = route.provider.dim := by
    rw [← hroute]
    rfl
  have hurl : (spaces.ofRole role).url = route.provider.url := by
    rw [← hroute]
    rfl
  have hprefixed : ∀ t, (spaces.ofRole role).prefixText role t = route.provider.prefixText role t := by
    intro t
    rw [← hroute]
    rfl
  have hspace : ∀ t v, spaces.cached world ops route.provider.model t v ∧
      v.length = route.provider.dim → (spaces.ofRole role).From world ops t v := by
    intro t v hv
    rw [← hmodel, ← hdim] at hv
    exact hcoherent.from_of_cached hv.1 hv.2
  unfold Route.ioEmbed EmbedEnv.ioEmbed
  split
  · rename_i hempty
    refine ⟨fun vs hvs => ?_, hcache⟩
    rw [List.isEmpty_iff.mp hempty, ← Except.ok.inj hvs]
    exact .nil
  · rw [applyPrefix_eq]
    have hU' : ∀ c, cache = some c → ∀ t ∈ texts.map (route.provider.prefixText role),
        (route.provider.model, t) ∈ U := fun c hc => List.forall_mem_map.mpr (hU c hc)
    obtain ⟨hok, hleft⟩ := embedPrefixed_holds
      { env with send := network route.client.authorization }
      route.provider.toProviderConfig henv hU' hcache (fun input vs _ hvs => by
        have horder := request_inOrder (fun response embeddings hsend =>
          hnetwork route.client.authorization _ response embeddings hsend) hvs
        refine horder.imp fun t v hv => ⟨⟨role, hmodel, ?_⟩, hv.2⟩
        refine ⟨hv.2.trans hdim.symm, v, 0, ?_, rfl⟩
        rw [hurl, hmodel, hdim]
        exact hv.1) io
    refine ⟨fun vs hvs => ?_, hleft⟩
    have hvectors := hok vs hvs
    rw [List.forall₂_map_left_iff] at hvectors
    refine hvectors.imp fun t v hv => ?_
    show (spaces.ofRole role).From world ops ((spaces.ofRole role).prefixText role t) v
    rw [hprefixed]
    exact hspace _ _ hv

/-- The rows that are primed are put under the keys of their own texts. -/
theorem primeRow_cached {spaces : Spaces} {config : Config}
    (hspaces : spacesOf config.embedProvider config.provider2 = spaces) {includeClustering : Bool}
    {row : ChunkRow (List F32)} (hrow : spaces.RowIn world ops row)
    (hzero : includeClustering = true →
      row.clusteringEmbedding ≠ l2Normalize ops (List.replicate spaces.document.dim 0)) :
    ∀ e ∈ config.primeRow includeClustering row, spaces.cached world ops e.model e.text e.vector := by
  subst hspaces
  intro e he
  unfold Config.primeRow at he
  rcases List.mem_append.mp he with he | he
  · split at he
    · rw [List.mem_singleton.mp he]
      exact ⟨.document, rfl, hrow.document⟩
    · cases he
  · split at he
    · rename_i hput
      have hinclude : includeClustering = true := by
        cases includeClustering with
        | true => rfl
        | false => cases hput
      rw [List.mem_singleton.mp he]
      exact ⟨.clustering, rfl, hrow.clustering.resolve_right (hzero hinclude)⟩
    · cases he

end Providers

end Vectorlink
