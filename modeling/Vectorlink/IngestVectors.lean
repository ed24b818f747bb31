import Vectorlink.IngestCollect

/-! Where the vectors of the collected rows come from, for a provider of which no more is known
than what its answers may hold. -/
namespace Vectorlink

variable {V : Type}

/-- Which vectors may be answered for a text in a role. -/
abbrev VectorRelation (V : Type) := EmbeddingRole → String → V → Prop

/-- Every answer has a vector that is allowed for each of its texts. -/
def AnswersWithin (provider : Provider V) (P : VectorRelation V) : Prop :=
  ∀ call texts vs, ioEmbed provider call texts = .ok vs → List.Forall₂ (P call.role) texts vs

theorem answersWithin_of_provider {provider : Provider V} {P : VectorRelation V}
    (h : ∀ call texts vs, provider call texts = .ok vs → List.Forall₂ (P call.role) texts vs) :
    AnswersWithin provider P := by
  intro call texts vs hvs
  unfold Vectorlink.ioEmbed at hvs
  split at hvs
  · rename_i hempty
    rw [List.isEmpty_iff.mp hempty, ← Except.ok.inj hvs]
    exact .nil
  · split at hvs
    · cases hvs
    · rename_i embeddings hcall
      split at hvs
      · cases hvs
      · obtain rfl := Except.ok.inj hvs
        exact h call texts _ hcall

/-- The vector of a result, if it has one, is allowed for the text. -/
def EmbedResult.Within (P : String → V → Prop) (text : String) (result : EmbedResult V) : Prop :=
  ∀ v, result = .ok v → P text v

section Embed

variable {provider : Provider V} {P : VectorRelation V}

theorem AnswersWithin.retryText (h : AnswersWithin provider P) (call : EmbedCall) (text : String) :
    (retryText provider call text).Within (P call.role) text := by
  intro v hv
  unfold Vectorlink.retryText at hv
  cases hcall : ioEmbed provider call [text] with
  | error e =>
    rw [hcall] at hv
    cases hv
  | ok vs =>
    rw [hcall] at hv
    have hone := h call [text] vs hcall
    cases hone with
    | @cons _ w _ rest hw hrest =>
      cases hrest
      obtain rfl := EmbedResult.ok.inj hv
      exact hw

theorem forall₂_mapIdx {α β : Type} {R : α → β → Prop} {xs : List α} {f : ℕ → α → β}
    (h : ∀ i, ∀ x ∈ xs, R x (f i x)) : List.Forall₂ R xs (xs.mapIdx f) := by
  induction xs generalizing f with
  | nil => exact .nil
  | cons x xs ih =>
    rw [List.mapIdx_cons]
    have hrest : List.Forall₂ R xs (xs.mapIdx fun i => f (i + 1)) :=
      ih fun i y hy => h (i + 1) y (List.mem_cons_of_mem _ hy)
    exact .cons (h 0 x List.mem_cons_self) hrest

theorem AnswersWithin.embedBatch (h : AnswersWithin provider P) (call : EmbedCall)
    (batch : List String) :
    List.Forall₂ (EmbedResult.Within (P call.role)) batch (embedBatch provider call batch) := by
  unfold Vectorlink.embedBatch
  cases hcall : ioEmbed provider call batch with
  | ok vs =>
    have hvs := h call batch vs hcall
    clear hcall
    dsimp only
    induction hvs with
    | nil => exact .nil
    | cons hv _ ih =>
      refine .cons (fun w hw => ?_) ih
      obtain rfl := EmbedResult.ok.inj hw
      exact hv
  | error e => exact forall₂_mapIdx fun j text _ => h.retryText _ text

theorem AnswersWithin.ioEmbedBatched (h : AnswersWithin provider P) (role : EmbeddingRole)
    (subBatch : ℕ) {batchSize : ℕ} (hsize : 0 < batchSize) (texts : List String) :
    List.Forall₂ (EmbedResult.Within (P role)) texts
      (ioEmbedBatched provider role subBatch batchSize texts) := by
  have hbatches : List.Forall₂ (List.Forall₂ (EmbedResult.Within (P role)))
      (sliceChunks batchSize texts)
      ((sliceChunks batchSize texts).mapIdx fun k batch =>
        Vectorlink.embedBatch provider ⟨role, subBatch, k, none⟩ batch) :=
    forall₂_mapIdx fun k batch _ => h.embedBatch ⟨role, subBatch, k, none⟩ batch
  have hflat := List.rel_flatten hbatches
  rwa [flatten_sliceChunks hsize] at hflat

end Embed

/-- The vectors of a row are normalised from vectors that are allowed for its own text. -/
def RowFrom (normalize : V → V) (D C : String → V → Prop) (row : ChunkRow V) : Prop :=
  ∃ v q, D row.content v ∧ C row.content q ∧ row.embedding = normalize v ∧
    row.clusteringEmbedding = normalize q

theorem chunkRows_from {normalize : V → V} {D C : String → V → Prop} {id : DocId}
    {chunks : List Chunk} {vs qs : List V} (hvs : List.Forall₂ D (chunks.map (·.text)) vs)
    (hqs : List.Forall₂ C (chunks.map (·.text)) qs) :
    ∀ row ∈ chunkRows id chunks (vs.map normalize) (qs.map normalize), RowFrom normalize D C row := by
  induction chunks generalizing vs qs with
  | nil =>
    intro row hrow
    cases hrow
  | cons chunk chunks ih =>
    cases hvs with
    | @cons _ v _ vs hv hvs =>
      cases hqs with
      | @cons _ q _ qs hq hqs =>
        intro row hrow
        rcases List.mem_cons.mp hrow with rfl | hrow
        · exact ⟨v, q, hv, hq, rfl, rfl⟩
        · exact ih hvs hqs row hrow

namespace IngestEnv

variable (env : IngestEnv V) (P : VectorRelation V)

/-- Which vectors a row may have in its clustering column: zeros where the domain stores none. -/
def clusteringWithin (text : String) (q : V) : Prop :=
  if env.storeClustering then P .clustering text q else q = env.zero

/-- The vectors of a row are answers for its own text, normalised. -/
def RowWithin (row : ChunkRow V) : Prop :=
  RowFrom env.l2Normalize (P .document) (env.clusteringWithin P) row

variable {env P}

/-- Results without a failure are one vector for each text. -/
theorem embeddings_within {R : String → V → Prop} {texts : List String}
    {results : List (EmbedResult V)} (h : List.Forall₂ (EmbedResult.Within R) texts results)
    (hok : ∀ r ∈ results, r.failure? = none) :
    List.Forall₂ R texts (results.filterMap EmbedResult.embedding?) := by
  induction h with
  | nil => exact .nil
  | @cons text result texts results hresult _ ih =>
    have hrest := ih fun r hr => hok r (List.mem_cons_of_mem _ hr)
    cases result with
    | failed message => cases hok _ List.mem_cons_self
    | ok v =>
      rw [List.filterMap_cons_some (show EmbedResult.embedding? (.ok v) = some v from rfl)]
      exact .cons (hresult v rfl) hrest

theorem docRows_within {doc : DocToEmbed} {rd rq : List (EmbedResult V)} {rows : List (ChunkRow V)}
    (hd : List.Forall₂ (EmbedResult.Within (P .document)) (doc.chunks.map (·.text)) rd)
    (hq : List.Forall₂ (EmbedResult.Within (env.clusteringWithin P)) (doc.chunks.map (·.text)) rq)
    (h : env.docRows doc rd rq = .ok rows) : ∀ row ∈ rows, env.RowWithin P row := by
  unfold IngestEnv.docRows at h
  split at h
  · cases h
  · rename_i hnone
    have hno : ∀ r ∈ rd ++ rq, EmbedResult.failure? r = none := List.findSome?_eq_none_iff.mp hnone
    obtain rfl := Except.ok.inj h
    apply chunkRows_from
    · exact embeddings_within hd fun r hr => hno r (List.mem_append_left _ hr)
    · exact embeddings_within hq fun r hr => hno r (List.mem_append_right _ hr)

/-- The rows of embedded documents. -/
def RowsWithin (env : IngestEnv V) (P : VectorRelation V) (outs : List (Embedded V)) : Prop :=
  ∀ row ∈ outs.flatMap Embedded.rows, env.RowWithin P row

theorem scatter_within {docs : List DocToEmbed} {rd rq : List (EmbedResult V)}
    (hd : List.Forall₂ (EmbedResult.Within (P .document)) (flatTexts docs) rd)
    (hq : List.Forall₂ (EmbedResult.Within (env.clusteringWithin P)) (flatTexts docs) rq) :
    env.RowsWithin P (env.scatter docs rd rq) := by
  induction docs generalizing rd rq with
  | nil =>
    intro row hrow
    cases hrow
  | cons doc docs ih =>
    have hflat : flatTexts (doc :: docs) = doc.chunks.map (·.text) ++ flatTexts docs := rfl
    have htake : (flatTexts (doc :: docs)).take doc.chunks.length = doc.chunks.map (·.text) := by
      rw [hflat]
      exact List.take_left' (by simp)
    have hdrop : (flatTexts (doc :: docs)).drop doc.chunks.length = flatTexts docs := by
      rw [hflat]
      exact List.drop_left' (by simp)
    intro row hrow
    rw [scatter, List.flatMap_cons] at hrow
    rcases List.mem_append.mp hrow with hrow | hrow
    · cases hrows : env.docRows doc (rd.take doc.chunks.length) (rq.take doc.chunks.length) with
      | error e =>
        rw [hrows] at hrow
        cases hrow
      | ok rows =>
        rw [hrows] at hrow
        refine docRows_within ?_ ?_ hrows row hrow
        · rw [← htake]
          exact List.forall₂_take _ hd
        · rw [← htake]
          exact List.forall₂_take _ hq
    · refine ih ?_ ?_ row hrow
      · rw [← hdrop]
        exact List.forall₂_drop _ hd
      · rw [← hdrop]
        exact List.forall₂_drop _ hq

theorem clusteringResults_within (h : AnswersWithin env.provider P) (n : ℕ) (texts : List String) :
    List.Forall₂ (EmbedResult.Within (env.clusteringWithin P)) texts
      (env.clusteringResults n texts) := by
  have hrelation : env.clusteringWithin P =
      if env.storeClustering then P .clustering else fun _ q => q = env.zero := by
    funext text q
    unfold clusteringWithin
    split <;> rfl
  unfold clusteringResults
  rw [hrelation]
  split
  · exact h.ioEmbedBatched _ _ env.batchSize_pos _
  · rw [List.forall₂_map_right_iff, List.forall₂_same]
    intro _ _ q hq
    exact (EmbedResult.ok.inj hq).symm

theorem embedDocs_within (h : AnswersWithin env.provider P) (n : ℕ) (docs : List DocToEmbed) :
    env.RowsWithin P (env.embedDocs n docs) :=
  scatter_within (h.ioEmbedBatched _ _ env.batchSize_pos _) (clusteringResults_within h n _)

theorem embedGroups_within (h : AnswersWithin env.provider P) (n : ℕ)
    (groups : List (List DocToEmbed)) : env.RowsWithin P (env.embedGroups n groups) := by
  induction groups generalizing n with
  | nil =>
    intro row hrow
    cases hrow
  | cons group groups ih =>
    intro row hrow
    rw [embedGroups, List.flatMap_append] at hrow
    rcases List.mem_append.mp hrow with hrow | hrow
    · exact embedDocs_within h n group row hrow
    · exact ih (n + 1) row hrow

/-- Both pipelines write rows whose vectors were answered for their own texts only. -/
theorem collectBuffered_within (h : AnswersWithin env.provider P) {ops : List Operation}
    {c : Collected V} (hc : env.collectBuffered ops = .ok c) : ∀ row ∈ c.rows, env.RowWithin P row := by
  rw [(collectBuffered_closed hc).rows]
  exact embedDocs_within h 0 _

theorem collectStream_within (h : AnswersWithin env.provider P) {ops : List Operation}
    {expectedDocs : Option ℕ} {c : Collected V} (hc : env.collectStream expectedDocs ops = .ok c) :
    ∀ row ∈ c.rows, env.RowWithin P row := by
  rw [(collectStream_closed hc).rows]
  exact embedGroups_within h 0 _

end IngestEnv

end Vectorlink
