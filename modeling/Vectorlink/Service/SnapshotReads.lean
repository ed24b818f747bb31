import Vectorlink.Service.Candidates
import Vectorlink.Store.EmbeddingScans
import Vectorlink.Store.RowBatches
import Vectorlink.Store.SearchDocuments

/-! What the loops over the batches of a scan make of the rows that are stored. -/
namespace Vectorlink

open Columnar Ranking
open EmbeddingScans (VectorColumn BestPerDoc keepLowest)

variable {F : Type}

section Loops

def require {α : Type} (scan : String) (column : String → Option α) (name : String) :
    Except StoreError α :=
  match column name with
  | some values => .ok values
  | none => .error (.internal s!"{scan}: missing `{name}` column" none)

/-- A null vector is an error, as are items that are no floats. -/
def extractEmbeddingRow (embeddings : FixedSizeLists F) (row : ℕ) (docId : DocId) :
    Except StoreError (List F) :=
  if embeddings.isNull row then
    .error (.internal s!"embedding extraction: null embedding for doc {docId}" none)
  else
    match (embeddings.value row).asFloat32 with
    | some floats => .ok floats
    | none => .error
        (.internal s!"embedding extraction: embedding is not Float32 for doc {docId}" none)

/-- `scan_doc_id_content`. -/
def docIdContentBatch (out : DocContents) (b : RecordBatch F) : Except StoreError DocContents :=
  if b.numRows = 0 then .ok out
  else do
    let docIds ← orMissing b.utf8 "doc_id"
    let chunkIndexes ← orMissing b.int32 "chunk_index"
    let contents ← orMissing b.utf8 "content"
    (List.range docIds.length).foldlM (fun out i =>
      let id := docIds.getD i ""
      .ok (out.insert id
        (insert (chunkIndexes.getD i 0, contents.getD i "") ((out.lookup id).getD ∅)))) out

def readDocIdContent (batches : List (RecordBatch F)) : Except StoreError DocContents :=
  batches.foldlM docIdContentBatch ∅

/-- The loop of `io_fetch_result_embeddings`. -/
def resultEmbeddingBatch (column : VectorColumn) (bestPerDoc : BestPerDoc (List F))
    (b : RecordBatch F) : Except StoreError (BestPerDoc (List F)) :=
  if b.numRows = 0 then .ok bestPerDoc
  else do
    let ids ← require "result embedding scan" b.utf8 "doc_id"
    let chunkIndexes ← require "result embedding scan" b.int32 "chunk_index"
    let embeddings ← require "result embedding scan" b.fixedSizeList column.name
    (List.range b.numRows).foldlM (fun bestPerDoc i => do
      let docId := ids.getD i ""
      let embedding ← extractEmbeddingRow embeddings i docId
      pure (keepLowest bestPerDoc docId (chunkIndexes.getD i 0) embedding)) bestPerDoc

def readResultEmbeddings (column : VectorColumn) (batches : List (RecordBatch F)) :
    Except StoreError (DocId → Option (List F)) := do
  let bestPerDoc ← batches.foldlM (resultEmbeddingBatch column) ∅
  pure fun id => (bestPerDoc.lookup id).map Prod.snd

/-- The text of a point, if there are snippets. -/
def pointContent (contents : Option (List String)) (i : ℕ) : Option String :=
  contents.map fun c => c.getD i ""

def pointsBatch (snippet : Bool) (points : List (SnippetPoint (List F))) (b : RecordBatch F) :
    Except StoreError (List (SnippetPoint (List F))) :=
  if b.numRows = 0 then .ok points
  else do
    let docIds ← require "duplicates scan" b.utf8 "doc_id"
    let embeddings ← require "duplicates scan" b.fixedSizeList "embedding"
    let contents ←
      if snippet then some <$> require "duplicates scan" b.utf8 "content" else pure none
    (List.range b.numRows).foldlM (fun points i => do
      let docId := docIds.getD i ""
      let embedding ← extractEmbeddingRow embeddings i docId
      pure (points ++ [⟨⟨docId, embedding⟩, pointContent contents i⟩])) points

def batchesToPoints (snippet : Bool) (batches : List (RecordBatch F)) :
    Except StoreError (List (SnippetPoint (List F))) := batches.foldlM (pointsBatch snippet) []

/-- The loop of `io_materialise_candidate_embeddings`. -/
def candidatesBatch (candidates : List (IndexedPoint (List F))) (b : RecordBatch F) :
    Except StoreError (List (IndexedPoint (List F))) :=
  if b.numRows = 0 then .ok candidates
  else do
    let docIds ← require "candidate scan" b.utf8 "doc_id"
    let embeddings ← require "candidate scan" b.fixedSizeList "embedding"
    (List.range b.numRows).foldlM (fun candidates i => do
      let docId := docIds.getD i ""
      let embedding ← extractEmbeddingRow embeddings i docId
      pure (candidates ++ [⟨docId, embedding⟩])) candidates

def readCandidates (batches : List (RecordBatch F)) :
    Except StoreError (List (IndexedPoint (List F))) := batches.foldlM candidatesBatch []

/-- The loop of `io_fetch_doc_contents`: the chunks of each document, in the order they come. -/
def docContentBatch (perDoc : AList fun _ : DocId => List (Int32 × String)) (b : RecordBatch F) :
    Except StoreError (AList fun _ : DocId => List (Int32 × String)) :=
  if b.numRows = 0 then .ok perDoc
  else do
    let ids ← require "doc content scan" b.utf8 "doc_id"
    let chunkIndexes ← require "doc content scan" b.int32 "chunk_index"
    let contents ← require "doc content scan" b.utf8 "content"
    (List.range b.numRows).foldlM (fun perDoc i =>
      let docId := ids.getD i ""
      .ok (perDoc.insert docId
        ((perDoc.lookup docId).getD [] ++ [(chunkIndexes.getD i 0, contents.getD i "")]))) perDoc

def joinChunks (chunks : List (Int32 × String)) : String :=
  String.intercalate " " ((chunks.insertionSort fun a b => a.1 ≤ b.1).map Prod.snd)

def readDocContents (batches : List (RecordBatch F)) :
    Except StoreError (DocId → Option String) := do
  let perDoc ← batches.foldlM docContentBatch ∅
  pure fun id => (perDoc.lookup id).map joinChunks

/-- The loop of `count_distinct_doc_ids`: a batch without the column is not counted. -/
def docIdsOfBatch (b : RecordBatch F) : List DocId := (b.utf8 "doc_id").getD []

def readDistinctDocIds (batches : List (RecordBatch F)) : ℕ :=
  ((batches.flatMap docIdsOfBatch).dedup).length

end Loops

section Hits

/-- `ChunkHit` with all its fields; the vectors are empty where they were not read. -/
structure StoredHit (F : Type) where
  docId : DocId
  distance : F
  distanceKind : DistanceKind
  chunkIndex : Int32
  chunkCount : Int32
  chunkTokenStart : Int32
  docTokenLen : Int32
  content : String
  embedding : List F
  clusteringEmbedding : List F

/-- The columns that a hit is made of. -/
structure HitColumns where
  docId : List String
  chunkIndex : List Int32
  chunkCount : List Int32
  chunkTokenStart : List Int32
  docTokenLen : List Int32
  content : List String

def hitColumns (b : RecordBatch F) : Option HitColumns := do
  let docId ← b.utf8 "doc_id"
  let chunkIndex ← b.int32 "chunk_index"
  let chunkCount ← b.int32 "chunk_count"
  let chunkTokenStart ← b.int32 "chunk_token_start"
  let docTokenLen ← b.int32 "doc_token_len"
  let content ← b.utf8 "content"
  pure ⟨docId, chunkIndex, chunkCount, chunkTokenStart, docTokenLen, content⟩

def HitColumns.hit (c : HitColumns) (i : ℕ) (distance : F) (kind : DistanceKind)
    (embedding clusteringEmbedding : List F) : StoredHit F where
  docId := c.docId.getD i ""
  distance
  distanceKind := kind
  chunkIndex := c.chunkIndex.getD i 0
  chunkCount := c.chunkCount.getD i 0
  chunkTokenStart := c.chunkTokenStart.getD i 0
  docTokenLen := c.docTokenLen.getD i 0
  content := c.content.getD i ""
  embedding
  clusteringEmbedding

/-- The vector of a row, or none of its floats where the column was projected away. -/
def embeddingAt (embeddings : Option (FixedSizeLists F)) (i : ℕ) (docId : DocId) :
    Except StoreError (List F) :=
  match embeddings with
  | some arr => extractEmbeddingRow arr i docId
  | none => .ok []

def missingDistance : StoreError :=
  .internal "vector search result is missing the `_distance` column — refusing to default distances to 0.0 (would corrupt ranking)" none

def vectorHitsBatch [Zero F] (requireDistance : Bool) (hits : List (StoredHit F))
    (b : RecordBatch F) : Except StoreError (List (StoredHit F)) :=
  let distances := b.float32 "_distance"
  if requireDistance ∧ distances = none ∧ 0 < b.numRows then .error missingDistance
  else
    match hitColumns b with
    | some c =>
      (List.range b.numRows).foldlM (fun hits i => do
        let docId := c.docId.getD i ""
        let embedding ← embeddingAt (b.fixedSizeList "embedding") i docId
        let clusteringEmbedding ← embeddingAt (b.fixedSizeList "clustering_embedding") i docId
        let distance := (distances.map fun d => d.getD i 0).getD 0
        pure (hits ++ [c.hit i distance .rawCosine embedding clusteringEmbedding])) hits
    | none => .ok hits

def batchesToVectorHits [Zero F] (requireDistance : Bool) (batches : List (RecordBatch F)) :
    Except StoreError (List (StoredHit F)) := batches.foldlM (vectorHitsBatch requireDistance) []

end Hits

section Batches

variable {dim : ℕ} {names : List String} {rows : List (ChunkRow (List F))} {b : RecordBatch F}
  {i : ℕ} {r : ChunkRow (List F)}

theorem Holds.utf8 (h : Holds dim names rows b) {name : String} {values : List String}
    (hmem : name ∈ names) (hcolumn : findColumn (rowColumns dim rows) name = some (.utf8 values)) :
    b.utf8 name = some values := by
  rw [RecordBatch.utf8, h.column name hmem, hcolumn]
  rfl

theorem Holds.int32 (h : Holds dim names rows b) {name : String} {values : List Int32}
    (hmem : name ∈ names) (hcolumn : findColumn (rowColumns dim rows) name = some (.int32 values)) :
    b.int32 name = some values := by
  rw [RecordBatch.int32, h.column name hmem, hcolumn]
  rfl

theorem Holds.fixedSizeList (h : Holds dim names rows b) {name : String} {items : Column F}
    (hmem : name ∈ names)
    (hcolumn : findColumn (rowColumns dim rows) name = some (.fixedSizeList dim items none)) :
    b.fixedSizeList name = some ⟨dim, items, none⟩ := by
  rw [RecordBatch.fixedSizeList, h.column name hmem, hcolumn]
  rfl

theorem Holds.eq_nil (h : Holds dim names rows b) (hzero : b.numRows = 0) : rows = [] :=
  List.eq_nil_of_length_eq_zero (h.numRows.symm.trans hzero)

theorem getD_map {α β : Type} {f : α → β} {xs : List α} {x : α} (hi : xs[i]? = some x) (d : β) :
    (xs.map f).getD i d = f x := by
  rw [List.getD_eq_getElem?_getD, List.getElem?_map, hi, Option.map_some, Option.getD_some]

theorem extractEmbeddingRow_of_sized {f : ChunkRow (List F) → List F}
    (h : ∀ r ∈ rows, (f r).length = dim) (hi : rows[i]? = some r) (docId : DocId) :
    extractEmbeddingRow ⟨dim, .float32 (rows.flatMap f), none⟩ i docId = .ok (f r) := by
  have hvalue := value_of_sized h hi
  have hnull : (FixedSizeLists.mk dim (.float32 (rows.flatMap f)) none).isNull i = false := rfl
  rw [extractEmbeddingRow, hnull, hvalue]
  rfl

/-- What a vector column reads of a row. -/
def vectorOf : VectorColumn → ChunkRow (List F) → List F
  | .embedding => ChunkRow.embedding
  | .clusteringEmbedding => ChunkRow.clusteringEmbedding

theorem length_vectorOf (hrows : ∀ r ∈ rows, r.Sized dim) (column : VectorColumn) :
    ∀ r ∈ rows, (vectorOf column r).length = dim := by
  cases column with
  | embedding => exact fun r hr => (hrows r hr).embedding
  | clusteringEmbedding => exact fun r hr => (hrows r hr).clusteringEmbedding

theorem findColumn_vector (column : VectorColumn) : findColumn (rowColumns dim rows) column.name =
    some (.fixedSizeList dim (.float32 (rows.flatMap (vectorOf column))) none) := by
  cases column <;> rfl

theorem Holds.embedding (h : Holds dim names rows b) (hmem : "embedding" ∈ names) :
    b.fixedSizeList "embedding" =
      some ⟨dim, .float32 (rows.flatMap (vectorOf .embedding)), none⟩ :=
  h.fixedSizeList hmem (findColumn_vector .embedding)

theorem Holds.clusteringEmbedding (h : Holds dim names rows b)
    (hmem : "clustering_embedding" ∈ names) : b.fixedSizeList "clustering_embedding" =
      some ⟨dim, .float32 (rows.flatMap (vectorOf .clusteringEmbedding)), none⟩ :=
  h.fixedSizeList hmem (findColumn_vector .clusteringEmbedding)

theorem docIdContentBatch_of_holds (h : Holds dim ["doc_id", "chunk_index", "content"] rows b)
    (out : DocContents) : docIdContentBatch out b = .ok (rows.foldl (fun out r =>
      out.insert r.docId (insert (r.chunkIndex, r.content) ((out.lookup r.docId).getD ∅))) out) := by
  unfold docIdContentBatch
  by_cases hzero : b.numRows = 0
  · rw [if_pos hzero, h.eq_nil hzero]
    rfl
  · simp only [if_neg hzero, orMissing, h.utf8 (by simp) (rfl : findColumn _ "doc_id" = _),
      h.int32 (by simp) (rfl : findColumn _ "chunk_index" = _),
      h.utf8 (by simp) (rfl : findColumn _ "content" = _)]
    show (List.range (rows.map ChunkRow.docId).length).foldlM _ out = _
    rw [List.length_map]
    apply foldlM_range
    intro out i r hi
    rw [getD_map hi, getD_map hi, getD_map hi]

theorem resultEmbeddingBatch_of_holds (column : VectorColumn) (hrows : ∀ r ∈ rows, r.Sized dim)
    (h : Holds dim ["doc_id", "chunk_index", column.name] rows b)
    (bestPerDoc : BestPerDoc (List F)) :
    resultEmbeddingBatch column bestPerDoc b = .ok (rows.foldl (fun best r =>
      keepLowest best r.docId r.chunkIndex (vectorOf column r)) bestPerDoc) := by
  unfold resultEmbeddingBatch
  by_cases hzero : b.numRows = 0
  · rw [if_pos hzero, h.eq_nil hzero]
    rfl
  · simp only [if_neg hzero, require, h.utf8 (by simp) (rfl : findColumn _ "doc_id" = _),
      h.int32 (by simp) (rfl : findColumn _ "chunk_index" = _),
      h.fixedSizeList (by simp) (findColumn_vector column)]
    show (List.range b.numRows).foldlM _ bestPerDoc = _
    rw [h.numRows]
    apply foldlM_range
    intro best i r hi
    rw [extractEmbeddingRow_of_sized (length_vectorOf hrows column) hi, getD_map hi, getD_map hi]
    rfl

theorem pointsBatch_of_holds (snippet : Bool) (hrows : ∀ r ∈ rows, r.Sized dim)
    (h : Holds dim (if snippet then ["doc_id", "embedding", "content"] else ["doc_id", "embedding"])
      rows b) (points : List (SnippetPoint (List F))) :
    pointsBatch snippet points b = .ok (rows.foldl (fun points r => points ++
      [⟨⟨r.docId, r.embedding⟩, if snippet then some r.content else none⟩]) points) := by
  have hvectors := length_vectorOf hrows .embedding
  unfold pointsBatch
  by_cases hzero : b.numRows = 0
  · rw [if_pos hzero, h.eq_nil hzero]
    rfl
  · have hids : b.utf8 "doc_id" = some (rows.map ChunkRow.docId) :=
      h.utf8 (by cases snippet <;> simp) rfl
    have hembeddings := h.embedding (by cases snippet <;> simp)
    cases snippet with
    | true =>
      simp only [if_neg hzero, require, hids, hembeddings,
        h.utf8 (by simp) (rfl : findColumn _ "content" = _)]
      show (List.range b.numRows).foldlM _ points = _
      rw [h.numRows]
      apply foldlM_range
      intro points i r hi
      rw [extractEmbeddingRow_of_sized hvectors hi, getD_map hi, pointContent, Option.map_some,
        getD_map hi]
      rfl
    | false =>
      simp only [if_neg hzero, require, hids, hembeddings]
      show (List.range b.numRows).foldlM _ points = _
      rw [h.numRows]
      apply foldlM_range
      intro points i r hi
      rw [extractEmbeddingRow_of_sized hvectors hi, getD_map hi]
      rfl

theorem candidatesBatch_of_holds (hrows : ∀ r ∈ rows, r.Sized dim)
    (h : Holds dim ["doc_id", "embedding"] rows b) (candidates : List (IndexedPoint (List F))) :
    candidatesBatch candidates b = .ok (rows.foldl (fun candidates r =>
      candidates ++ [⟨r.docId, r.embedding⟩]) candidates) := by
  unfold candidatesBatch
  by_cases hzero : b.numRows = 0
  · rw [if_pos hzero, h.eq_nil hzero]
    rfl
  · simp only [if_neg hzero, require, h.utf8 (by simp) (rfl : findColumn _ "doc_id" = _),
      h.embedding (by simp)]
    show (List.range b.numRows).foldlM _ candidates = _
    rw [h.numRows]
    apply foldlM_range
    intro candidates i r hi
    rw [extractEmbeddingRow_of_sized (length_vectorOf hrows .embedding) hi, getD_map hi]
    rfl

theorem docContentBatch_of_holds (h : Holds dim ["doc_id", "chunk_index", "content"] rows b)
    (perDoc : AList fun _ : DocId => List (Int32 × String)) :
    docContentBatch perDoc b = .ok (rows.foldl (fun perDoc r => perDoc.insert r.docId
      ((perDoc.lookup r.docId).getD [] ++ [(r.chunkIndex, r.content)])) perDoc) := by
  unfold docContentBatch
  by_cases hzero : b.numRows = 0
  · rw [if_pos hzero, h.eq_nil hzero]
    rfl
  · simp only [if_neg hzero, require, h.utf8 (by simp) (rfl : findColumn _ "doc_id" = _),
      h.int32 (by simp) (rfl : findColumn _ "chunk_index" = _),
      h.utf8 (by simp) (rfl : findColumn _ "content" = _)]
    show (List.range b.numRows).foldlM _ perDoc = _
    rw [h.numRows]
    apply foldlM_range
    intro perDoc i r hi
    rw [getD_map hi, getD_map hi, getD_map hi]

theorem docIdsOfBatch_of_holds (h : Holds dim ["doc_id"] rows b) :
    docIdsOfBatch b = rows.map ChunkRow.docId := by
  rw [docIdsOfBatch, h.utf8 (by simp) (rfl : findColumn _ "doc_id" = _)]
  rfl

def hitNames : List String :=
  ["doc_id", "chunk_index", "chunk_count", "chunk_token_start", "doc_token_len", "content"]

theorem hitColumns_of_holds (h : Holds dim names rows b) (hnames : hitNames ⊆ names) :
    hitColumns b = some ⟨rows.map ChunkRow.docId, rows.map ChunkRow.chunkIndex,
      rows.map ChunkRow.chunkCount, rows.map ChunkRow.chunkTokenStart,
      rows.map ChunkRow.docTokenLen, rows.map ChunkRow.content⟩ := by
  simp only [hitNames, List.cons_subset] at hnames
  obtain ⟨h1, h2, h3, h4, h5, h6, -⟩ := hnames
  simp only [hitColumns, h.utf8 h1 rfl, h.int32 h2 rfl, h.int32 h3 rfl, h.int32 h4 rfl,
    h.int32 h5 rfl, h.utf8 h6 rfl]
  rfl

section Hits

variable [Zero F]

/-- The hit that a row is found as. -/
def StoredHit.ofRow (r : ChunkRow (List F)) (distance : F) (embedding clusteringEmbedding : List F) :
    StoredHit F where
  docId := r.docId
  distance
  distanceKind := .rawCosine
  chunkIndex := r.chunkIndex
  chunkCount := r.chunkCount
  chunkTokenStart := r.chunkTokenStart
  docTokenLen := r.docTokenLen
  content := r.content
  embedding
  clusteringEmbedding

/-- A scan by filter has the vectors and no distance. -/
theorem vectorHitsBatch_of_holds (hrows : ∀ r ∈ rows, r.Sized dim)
    (h : Holds dim schemaNames rows b) (hplain : b.float32 "_distance" = none)
    (hits : List (StoredHit F)) : vectorHitsBatch false hits b = .ok (rows.foldl (fun hits r =>
      hits ++ [.ofRow r 0 r.embedding r.clusteringEmbedding]) hits) := by
  unfold vectorHitsBatch
  simp only [hplain, hitColumns_of_holds h (by decide), h.embedding (by decide),
    h.clusteringEmbedding (by decide)]
  rw [if_neg (by simp), h.numRows]
  apply foldlM_range
  intro hits i r hi
  simp only [embeddingAt, extractEmbeddingRow_of_sized (length_vectorOf hrows .embedding) hi,
    extractEmbeddingRow_of_sized (length_vectorOf hrows .clusteringEmbedding) hi, HitColumns.hit,
    getD_map hi]
  rfl

end Hits

end Batches

section Scans

variable {dim : ℕ} {names : List String} {parts : List (List (ChunkRow (List F)))}
  {out : List (RecordBatch F)}

/-- A loop that handles each batch of a scan by its rows. -/
theorem foldlM_scanned {σ : Type} {g : σ → RecordBatch F → Except StoreError σ}
    {h : σ → ChunkRow (List F) → σ}
    (hg : ∀ s rows b, Scanned dim names rows b → g s b = .ok (rows.foldl h s))
    (hparts : List.Forall₂ (Scanned dim names) parts out) (s : σ) :
    out.foldlM g s = .ok (parts.flatten.foldl h s) := foldlM_forall₂ hg hparts s

theorem readDocIdContent_of_scanned
    (h : List.Forall₂ (Scanned dim ["doc_id", "chunk_index", "content"]) parts out) :
    readDocIdContent out = .ok (scanDocIdContent parts.flatten) :=
  foldlM_scanned (fun s _ _ hb => docIdContentBatch_of_holds hb.toHolds s) h ∅

theorem batchesToPoints_of_scanned {snippet : Bool} (h : List.Forall₂
      (Scanned dim (if snippet then ["doc_id", "embedding", "content"] else ["doc_id", "embedding"]))
      parts out) :
    batchesToPoints snippet out = .ok (ioScanPoints parts.flatten none snippet) := by
  have hloop := foldlM_scanned (fun s _ _ hb => pointsBatch_of_holds snippet hb.sized hb.toHolds s)
    h []
  rw [batchesToPoints, hloop, foldl_push, List.nil_append]
  rfl

theorem readCandidates_of_scanned (h : List.Forall₂ (Scanned dim ["doc_id", "embedding"]) parts out) :
    readCandidates out = .ok (parts.flatten.map fun r => ⟨r.docId, r.embedding⟩) := by
  have hloop := foldlM_scanned (fun s _ _ hb => candidatesBatch_of_holds hb.sized hb.toHolds s) h []
  rw [readCandidates, hloop, foldl_push, List.nil_append]

theorem readDistinctDocIds_of_scanned (h : List.Forall₂ (Scanned dim ["doc_id"]) parts out) :
    readDistinctDocIds out = (parts.flatten.map ChunkRow.docId).dedup.length := by
  have hids : out.flatMap docIdsOfBatch = parts.flatten.map ChunkRow.docId := by
    induction h with
    | nil => rfl
    | cons hb _ ih =>
      rw [List.flatMap_cons, List.flatten_cons, List.map_append, ih,
        docIdsOfBatch_of_holds hb.toHolds]
  rw [readDistinctDocIds, hids]

theorem batchesToVectorHits_of_scanned [Zero F]
    (h : List.Forall₂ (Scanned dim schemaNames) parts out) :
    batchesToVectorHits false out = .ok (parts.flatten.map fun r =>
      .ofRow r 0 r.embedding r.clusteringEmbedding) := by
  have hloop := foldlM_scanned (fun s _ b hb => vectorHitsBatch_of_holds hb.sized hb.toHolds (by
    rw [RecordBatch.float32, hb.others "_distance" (by decide)]
    rfl) s) h []
  rw [batchesToVectorHits, hloop, foldl_push, List.nil_append]

/-- The loop keeps of each document what it reads in the row that the pass over the rows keeps. -/
theorem lookup_foldl_keepLowest {V : Type} {α : Type} (f : ChunkRow V → α)
    (rows : List (ChunkRow V)) (id : DocId) :
    (rows.foldl (fun best r => keepLowest best r.docId r.chunkIndex (f r)) ∅).lookup id =
      ((leastPerKey (fun r => r.docId) (fun r : ChunkRow V => r.chunkIndex.toInt) rows).lookup id).map
        fun r => (r.chunkIndex, f r) := by
  induction rows using List.reverseRecOn generalizing id with
  | nil => rfl
  | append_singleton rows r ih =>
    unfold leastPerKey at ih ⊢
    rw [List.foldl_append, List.foldl_append, List.foldl_cons, List.foldl_cons, List.foldl_nil,
      List.foldl_nil]
    generalize rows.foldl (fun best r => keepLowest best r.docId r.chunkIndex (f r)) ∅ = best at ih ⊢
    generalize rows.foldl (keepLeast (fun r => r.docId) fun r => r.chunkIndex.toInt) ∅ = least
      at ih ⊢
    have hinsert : (best.insert r.docId (r.chunkIndex, f r)).lookup id =
        ((least.insert r.docId r).lookup id).map fun r => (r.chunkIndex, f r) := by
      by_cases hid : id = r.docId
      · rw [hid, AList.lookup_insert, AList.lookup_insert, Option.map_some]
      · rw [AList.lookup_insert_ne hid, AList.lookup_insert_ne hid, ih]
    unfold keepLowest keepLeast
    rw [ih r.docId]
    cases least.lookup r.docId with
    | none => exact hinsert
    | some kept =>
      dsimp only [Option.map_some]
      by_cases hlt : r.chunkIndex < kept.chunkIndex
      · rw [if_pos hlt, if_pos (Int32.lt_iff_toInt_lt.mp hlt)]
        exact hinsert
      · rw [if_neg hlt, if_neg fun hlt' => hlt (Int32.lt_iff_toInt_lt.mpr hlt')]
        exact ih id

theorem readResultEmbeddings_of_scanned {column : VectorColumn}
    (h : List.Forall₂ (Scanned dim ["doc_id", "chunk_index", column.name]) parts out) :
    readResultEmbeddings column out =
      .ok (ioFetchResultEmbeddings parts.flatten [] [] (vectorOf column)) := by
  have hloop := foldlM_scanned
    (fun s _ _ hb => resultEmbeddingBatch_of_holds column hb.sized hb.toHolds s) h ∅
  rw [readResultEmbeddings, hloop]
  show Except.ok _ = _
  congr 1
  funext id
  rw [lookup_foldl_keepLowest, Option.map_map]
  rfl

theorem lookup_foldl_chunks {V : Type} (rows : List (ChunkRow V)) (id : DocId) :
    (rows.foldl (fun perDoc r => perDoc.insert r.docId
        ((perDoc.lookup r.docId).getD [] ++ [(r.chunkIndex, r.content)]))
      (∅ : AList fun _ : DocId => List (Int32 × String))).lookup id =
      let chunks := rows.filter fun r => r.docId = id
      if chunks.isEmpty then none else some (chunks.map fun r => (r.chunkIndex, r.content)) := by
  induction rows using List.reverseRecOn generalizing id with
  | nil => rfl
  | append_singleton rows r ih =>
    rw [List.foldl_append, List.foldl_cons, List.foldl_nil, List.filter_append]
    by_cases hid : id = r.docId
    · rw [hid, AList.lookup_insert, ih r.docId]
      by_cases hempty : rows.filter (fun r' => r'.docId = r.docId) = []
      · simp [hempty]
      · simp [hempty, List.isEmpty_iff]
    · rw [AList.lookup_insert_ne hid, ih id]
      simp [Ne.symm hid]

theorem joinChunks_map {V : Type} (chunks : List (ChunkRow V)) :
    joinChunks (chunks.map fun r => (r.chunkIndex, r.content)) = String.intercalate " "
      ((chunks.insertionSort fun r r' => r.chunkIndex.toInt ≤ r'.chunkIndex.toInt).map
        fun r => r.content) := by
  have hsort := List.map_insertionSort (r := fun r r' : ChunkRow V =>
      r.chunkIndex.toInt ≤ r'.chunkIndex.toInt) (s := fun a b : Int32 × String => a.1 ≤ b.1)
    (fun r => (r.chunkIndex, r.content)) chunks (fun _ _ _ _ => Int32.le_iff_toInt_le.symm)
  rw [joinChunks, ← hsort, List.map_map]
  rfl

theorem readDocContents_of_scanned {docIds : List DocId} {rows : List (ChunkRow (List F))}
    (hids : docIds ≠ []) (hrows : parts.flatten = scanRows (buildFilterExpr [] docIds) rows)
    (h : List.Forall₂ (Scanned dim ["doc_id", "chunk_index", "content"]) parts out) :
    readDocContents out = .ok (ioFetchDocContents rows docIds) := by
  have hloop := foldlM_scanned (fun s _ _ hb => docContentBatch_of_holds hb.toHolds s) h ∅
  rw [readDocContents, hloop]
  show Except.ok _ = _
  congr 1
  unfold ioFetchDocContents
  rw [if_neg (by simpa using hids), ← hrows]
  funext id
  rw [lookup_foldl_chunks]
  dsimp only
  split
  · rfl
  · rw [Option.map_some, joinChunks_map]

end Scans

/-- A scan of the batches that some appends have stored, for an optional filter and some columns. -/
def SnapshotScan {dim : ℕ} (hdim : 0 < dim) (appends : List (Append F dim))
    (filter : Option (ChunkRow (List F) → Bool)) (names : Option (List String))
    (out : List (RecordBatch F)) : Prop :=
  Scans (keepRow fun r => (filter.map fun f => f r).getD true) names
    (appends.map (Append.batch hdim)) out

theorem scanned_of_snapshotScan {dim : ℕ} {hdim : 0 < dim} {appends : List (Append F dim)}
    {filter : Option (ChunkRow (List F) → Bool)} {names : Option (List String)}
    {out : List (RecordBatch F)} (h : SnapshotScan hdim appends filter names out) :
    ∃ parts, parts.flatten = scanRows filter (appends.flatMap Subtype.val) ∧
      List.Forall₂ (Scanned dim (names.getD schemaNames)) parts out := by
  obtain ⟨parts, hparts, hscanned⟩ := scanned_of_scans hdim h
  refine ⟨parts, hparts.trans ?_, hscanned⟩
  cases filter with
  | none => exact List.filter_true _
  | some f => rfl

/-- Every loop over the batches of a scan makes of them what is said of it in terms of rows,
wherever the appends end and wherever the scan cuts. -/
structure ReadsAgree [Zero F] {dim : ℕ} (hdim : 0 < dim) (appends : List (Append F dim))
    (rows : List (ChunkRow (List F))) : Prop where
  docIdContent : ∀ out,
    SnapshotScan hdim appends none (some ["doc_id", "chunk_index", "content"]) out →
    readDocIdContent out = .ok (scanDocIdContent rows)
  fullRows : ∀ docIds out, SnapshotScan hdim appends (some fun r => r.docId ∈ docIds) none out →
    readFullRows out = .ok (scanFullRows rows docIds)
  docChunks : ∀ docId out, SnapshotScan hdim appends (some fun r => r.docId = docId) none out →
    batchesToVectorHits false out =
      .ok ((docRows docId rows).map fun r => .ofRow r 0 r.embedding r.clusteringEmbedding)
  resultEmbeddings : ∀ docIds docTypes column out,
    SnapshotScan hdim appends (buildFilterExpr docTypes docIds)
      (some ["doc_id", "chunk_index", column.name]) out →
    readResultEmbeddings column out =
      .ok (ioFetchResultEmbeddings rows docIds docTypes (vectorOf column))
  docContents : ∀ docIds, docIds ≠ [] → ∀ out,
    SnapshotScan hdim appends (buildFilterExpr [] docIds)
      (some ["doc_id", "chunk_index", "content"]) out →
    readDocContents out = .ok (ioFetchDocContents rows docIds)
  points : ∀ filter snippet out, SnapshotScan hdim appends filter
      (some (if snippet then ["doc_id", "embedding", "content"] else ["doc_id", "embedding"])) out →
    batchesToPoints snippet out = .ok (ioScanPoints rows filter snippet)
  candidates : ∀ docIds, docIds ≠ [] → ∀ out,
    SnapshotScan hdim appends (some fun r => r.docId ∈ docIds) (some ["doc_id", "embedding"]) out →
    readCandidates out = ioMaterialiseCandidateEmbeddings (.ok rows) docIds
  distinctDocIds : ∀ out, SnapshotScan hdim appends none (some ["doc_id"]) out →
    readDistinctDocIds out = (rows.map ChunkRow.docId).dedup.length

theorem readsAgree_appends [Zero F] {dim : ℕ} (hdim : 0 < dim) (appends : List (Append F dim)) :
    ReadsAgree hdim appends (appends.flatMap Subtype.val) where
  docIdContent out h := by
    obtain ⟨parts, hparts, hscanned⟩ := scanned_of_snapshotScan h
    rw [readDocIdContent_of_scanned hscanned, hparts]
    rfl
  fullRows docIds out h := by
    obtain ⟨parts, hparts, hscanned⟩ := scanned_of_snapshotScan h
    rw [readFullRows_of_scanned hscanned, hparts]
    rfl
  docChunks docId out h := by
    obtain ⟨parts, hparts, hscanned⟩ := scanned_of_snapshotScan h
    rw [batchesToVectorHits_of_scanned hscanned, hparts]
    rfl
  resultEmbeddings docIds docTypes column out h := by
    obtain ⟨parts, hparts, hscanned⟩ := scanned_of_snapshotScan h
    rw [readResultEmbeddings_of_scanned hscanned, hparts]
    rfl
  docContents docIds hids out h := by
    obtain ⟨parts, hparts, hscanned⟩ := scanned_of_snapshotScan h
    exact readDocContents_of_scanned hids hparts hscanned
  points filter snippet out h := by
    obtain ⟨parts, hparts, hscanned⟩ := scanned_of_snapshotScan h
    rw [batchesToPoints_of_scanned hscanned, hparts]
    rfl
  candidates docIds hids out h := by
    obtain ⟨parts, hparts, hscanned⟩ := scanned_of_snapshotScan h
    rw [readCandidates_of_scanned hscanned, hparts, ioMaterialiseCandidateEmbeddings,
      if_neg (by simpa using hids)]
    rfl
  distinctDocIds out h := by
    obtain ⟨parts, hparts, hscanned⟩ := scanned_of_snapshotScan h
    rw [readDistinctDocIds_of_scanned hscanned, hparts]
    rfl

section Sample

def pairRow (docId : DocId) (chunkIndex : Int32) (embedding : List ℤ) : ChunkRow (List ℤ) where
  docId
  docType := "T"
  chunkIndex
  chunkCount := 2
  chunkTokenStart := 0
  docTokenLen := 1
  embedding
  clusteringEmbedding := [0, 0]
  content := docId

/-- A document and the second chunk of another one, whose first chunk comes with `laterAppend`. -/
def firstAppend : Append ℤ 2 := ⟨[pairRow "b" 0 [1, 0], pairRow "a" 1 [0, 1]], by decide⟩

def laterAppend : Append ℤ 2 := ⟨[pairRow "a" 0 [2, 3]], by decide⟩

def pairParts : List ((b : RecordBatch ℤ) × List (Fin b.numRows)) :=
  [⟨firstAppend.batch Nat.two_pos, [⟨1, Nat.one_lt_two⟩]⟩,
    ⟨laterAppend.batch Nat.two_pos, [⟨0, Nat.one_pos⟩]⟩]

theorem readsAgree_pairs :
    readFullRows (pairParts.map fun p => p.1.gather p.2) =
      .ok [pairRow "a" 0 [2, 3], pairRow "a" 1 [0, 1]] := by
  have hscan : SnapshotScan Nat.two_pos [firstAppend, laterAppend] (some fun r => r.docId ∈ ["a"])
      none (pairParts.map fun p => p.1.gather p.2) := by
    refine ⟨pairParts, ?_, rfl, rfl⟩
    intro p hp
    simp only [pairParts, List.mem_cons, List.not_mem_nil, or_false] at hp
    rcases hp with rfl | rfl <;> simp
  rw [(readsAgree_appends Nat.two_pos [firstAppend, laterAppend]).fullRows ["a"] _ hscan]
  rfl

end Sample

end Vectorlink
