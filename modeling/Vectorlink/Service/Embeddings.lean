import Vectorlink.Service.Candidates
import Vectorlink.Store.EmbeddingScans

/-! The stored vectors of a snapshot, as one answer and as a stream of records. -/
namespace Vectorlink.EmbeddingScans

variable {F : Type}

structure EmbeddingsRequest where
  commit : CommitId
  docIds : List DocId
  docTypes : List String
  ancestors : List CommitId

structure EmbeddingsResult (F : Type) where
  docEmbeddings : DocId → Option (List F)
  clusteringEmbeddings : DocId → Option (List F)
  storeClustering : Bool
  servedCommit : CommitId
  embeddingModel : String
  clusteringModel : String

/-- The receiver gives the records in the order in which they are sent. -/
structure EmbeddingsStreamResult (F : Type) where
  servedCommit : CommitId
  storeClustering : Bool
  totalCount : ℕ
  embeddingModel : String
  clusteringModel : String
  receiver : List (EmbeddingRecord F)

/-- What the requests meet. Each of their scans delivers in its own way. -/
structure EmbeddingsEnv (F : Type) where
  searchReady : Bool
  storeClustering : Bool
  modelName : String
  modelName2 : Option String
  fetchScan : VectorColumn → SnapshotScan F
  countScan : SnapshotScan F
  streamScan : SnapshotScan F
  order : RecordOrder F

namespace EmbeddingsEnv

variable (env : EmbeddingsEnv F) (req : EmbeddingsRequest) (d : Domain (Option (List F)))
  (branch : BranchName)

/-- The clustering falls back to the first model. -/
def modelNames : String × String := (env.modelName, env.modelName2.getD env.modelName)

/-- The commit that both requests look at. -/
def servedCommit : Except ServiceError CommitId :=
  if !env.searchReady then
    .error (.unavailable "search capability not ready (embedding backend cold)")
  else
    (resolveSearchableCommit branch req.commit req.ancestors
      (d.branchIndexes.lookup branch)).runAt d.opened

def fetchEmbeddings : Except ServiceError (EmbeddingsResult F) := do
  let servedCommit ← env.servedCommit req d branch
  let snapshot := (ioSnapshotFromCache servedCommit).runAt d.opened
  let docEmbeddings ← (ioFetchResultEmbeddings snapshot (env.fetchScan .embedding) req.docIds
    req.docTypes .embedding).mapError fun e => .internal e.text
  let clusteringEmbeddings ← (
    if env.storeClustering then
      (ioFetchResultEmbeddings snapshot (env.fetchScan .clusteringEmbedding) req.docIds
        req.docTypes .clusteringEmbedding).mapError fun e => .internal e.text
    else .ok fun _ => none)
  let (embeddingModel, clusteringModel) := env.modelNames
  pure {
    docEmbeddings
    clusteringEmbeddings
    storeClustering := env.storeClustering
    servedCommit
    embeddingModel
    clusteringModel }

def fetchEmbeddingsStream : Except ServiceError (EmbeddingsStreamResult F) := do
  let servedCommit ← env.servedCommit req d branch
  let snapshot := (ioSnapshotFromCache servedCommit).runAt d.opened
  let (totalCount, rx) ← (ioStreamEmbeddings snapshot env.countScan env.streamScan env.order
    req.docIds req.docTypes env.storeClustering).mapError fun e => .internal e.text
  let (embeddingModel, clusteringModel) := env.modelNames
  pure {
    servedCommit
    storeClustering := env.storeClustering
    totalCount
    embeddingModel
    clusteringModel
    receiver := rx }

end EmbeddingsEnv

/-- An empty list does not filter. -/
def EmbeddingsRequest.Passes (req : EmbeddingsRequest) (r : SnapshotRow F) : Prop :=
  (req.docTypes = [] ∨ r.docType ∈ req.docTypes) ∧ (req.docIds = [] ∨ r.docId ∈ req.docIds)

/-- The lowest of the rows of a document that pass the filter. -/
def EmbeddingsRequest.Answers (req : EmbeddingsRequest) (rows : List (SnapshotRow F))
    (r : SnapshotRow F) : Prop :=
  r ∈ rows ∧ req.Passes r ∧
    ∀ r' ∈ rows, req.Passes r' → r'.docId = r.docId → r.chunkIndex.toInt ≤ r'.chunkIndex.toInt

/-- The row has the vectors of the record. -/
def EmbeddingRecord.IsOf (x : EmbeddingRecord F) (storeClustering : Bool) (r : SnapshotRow F) :
    Prop :=
  x.docId = r.docId ∧ r.embedding = some x.embedding ∧
    x.clusteringEmbedding = if storeClustering then r.clusteringEmbedding else none

/-- The two answers about the rows of a snapshot. -/
structure Agree (req : EmbeddingsRequest) (rows : List (SnapshotRow F))
    (result : EmbeddingsResult F) (streamed : EmbeddingsStreamResult F) : Prop where
  counted : streamed.receiver.length = streamed.totalCount
  /-- One record for each document that passes the filter. -/
  once : (streamed.receiver.map fun x => x.docId).Nodup
  passing : ∀ id, id ∈ (streamed.receiver.map fun x => x.docId) ↔
    ∃ r ∈ rows, r.docId = id ∧ req.Passes r
  /-- The records have the vectors of the two maps, and the maps have no others. -/
  document : ∀ x ∈ streamed.receiver, result.docEmbeddings x.docId = some x.embedding
  clustering : ∀ x ∈ streamed.receiver,
    result.clusteringEmbeddings x.docId = x.clusteringEmbedding
  noOthers : ∀ id, id ∉ (streamed.receiver.map fun x => x.docId) →
    result.docEmbeddings id = none ∧ result.clusteringEmbeddings id = none
  /-- The vectors are those of the lowest row of the document that passes the filter, -/
  lowest : ∀ x ∈ streamed.receiver, ∃ r, req.Answers rows r ∧ x.IsOf streamed.storeClustering r
  /-- which is its lowest row, as the rows of a document are of one type. -/
  lowestOfDocument :
    (∀ r ∈ rows, ∀ r' ∈ rows, r.docId = r'.docId → r.docType = r'.docType) →
      ∀ x ∈ streamed.receiver, ∃ r, Lowest rows r ∧ x.IsOf streamed.storeClustering r

section Agreement

variable {req : EmbeddingsRequest} {rows : List (SnapshotRow F)} {r : SnapshotRow F}

theorem lowest_scanRows_iff :
    Lowest (scanRows (buildFilterExpr req.docTypes req.docIds) rows) r ↔ req.Answers rows r := by
  have hmem (r : SnapshotRow F) :
      r ∈ scanRows (buildFilterExpr req.docTypes req.docIds) rows ↔ r ∈ rows ∧ req.Passes r :=
    mem_scanRows
  unfold Lowest EmbeddingsRequest.Answers
  simp only [hmem, and_assoc, and_imp]

theorem EmbeddingsRequest.Answers.lowest (h : req.Answers rows r)
    (htypes : ∀ r ∈ rows, ∀ r' ∈ rows, r.docId = r'.docId → r.docType = r'.docType) :
    Lowest rows r := by
  obtain ⟨hr, hpasses, hleast⟩ := h
  refine ⟨hr, fun r' hr' hid => ?_⟩
  have htype := htypes r' hr' r hr hid
  have hpasses' : req.Passes r' := by
    unfold EmbeddingsRequest.Passes
    rw [htype, hid]
    exact hpasses
  exact hleast r' hr' hpasses' hid

/-- Each document that passes has a row that answers. -/
theorem exists_answers (hr : r ∈ rows) (hpasses : req.Passes r) :
    ∃ r', req.Answers rows r' ∧ r'.docId = r.docId := by
  have hmem : r ∈ scanRows (buildFilterExpr req.docTypes req.docIds) rows :=
    mem_scanRows.mpr ⟨hr, hpasses⟩
  obtain ⟨r', hr'⟩ := exists_lowestRows hmem rfl
  obtain ⟨hlowest, hid⟩ := lowest_of_lookup hr'
  exact ⟨r', lowest_scanRows_iff.mp hlowest, hid⟩

theorem isOf_recordOf (hnull : NonNull rows) (hr : r ∈ rows) (storeClustering : Bool) :
    (recordOf storeClustering r).IsOf storeClustering r := by
  obtain ⟨floats, hfloats⟩ : ∃ floats, r.embedding = some floats :=
    Option.isSome_iff_exists.mp (hnull r hr .embedding)
  refine ⟨rfl, ?_, rfl⟩
  rw [recordOf, recorded, hfloats, Option.getD_some]

/-- A map that has a column of the rows that answer. -/
def IsColumn (req : EmbeddingsRequest) (rows : List (SnapshotRow F)) (column : VectorColumn)
    (embeddings : DocId → Option (List F)) : Prop :=
  ∀ id v, embeddings id = some v ↔ ∃ r, req.Answers rows r ∧ r.docId = id ∧ column.cell r = some v

/-- Such a map is read at a row that answers, and is empty elsewhere. -/
theorem IsColumn.at_answer {column : VectorColumn} {embeddings : DocId → Option (List F)}
    (h : IsColumn req rows column embeddings) (hnull : NonNull rows) (hr : req.Answers rows r) :
    embeddings r.docId = column.cell r := by
  obtain ⟨floats, hfloats⟩ := Option.isSome_iff_exists.mp (hnull r hr.1 column)
  rw [hfloats]
  exact (h r.docId floats).mpr ⟨r, hr, rfl, hfloats⟩

theorem IsColumn.eq_none {column : VectorColumn} {embeddings : DocId → Option (List F)}
    (h : IsColumn req rows column embeddings) {id : DocId}
    (hno : ∀ r, req.Answers rows r → r.docId ≠ id) : embeddings id = none := by
  cases hlookup : embeddings id with
  | none => rfl
  | some v =>
    obtain ⟨r, hr, hid, _⟩ := (h id v).mp hlookup
    exact absurd hid (hno r hr)

/-- The records are those of the rows that answer. -/
def IsRecords (req : EmbeddingsRequest) (rows : List (SnapshotRow F)) (storeClustering : Bool)
    (records : List (EmbeddingRecord F)) : Prop :=
  ∀ x, x ∈ records ↔ ∃ r, req.Answers rows r ∧ x = recordOf storeClustering r

section Records

variable {storeClustering : Bool} {records : List (EmbeddingRecord F)}

theorem IsRecords.mem_ids (h : IsRecords req rows storeClustering records) (id : DocId) :
    id ∈ (records.map fun x => x.docId) ↔ ∃ r, req.Answers rows r ∧ r.docId = id := by
  rw [List.mem_map]
  constructor
  · intro hid
    obtain ⟨x, hx, rfl⟩ := hid
    obtain ⟨r, hr, rfl⟩ := (h x).mp hx
    exact ⟨r, hr, rfl⟩
  · intro hid
    obtain ⟨r, hr, rfl⟩ := hid
    exact ⟨recordOf storeClustering r, (h _).mpr ⟨r, hr, rfl⟩, rfl⟩

theorem IsRecords.mem_ids_iff_passes (h : IsRecords req rows storeClustering records) (id : DocId) :
    id ∈ (records.map fun x => x.docId) ↔ ∃ r ∈ rows, r.docId = id ∧ req.Passes r := by
  rw [h.mem_ids]
  constructor
  · intro hid
    obtain ⟨r, hr, hid⟩ := hid
    exact ⟨r, hr.1, hid, hr.2.1⟩
  · intro hid
    obtain ⟨r, hr, hid, hpasses⟩ := hid
    obtain ⟨r', hr', hid'⟩ := exists_answers hr hpasses
    exact ⟨r', hr', hid'.trans hid⟩

theorem IsRecords.exists_row (h : IsRecords req rows storeClustering records)
    (hnull : NonNull rows) {x : EmbeddingRecord F} (hx : x ∈ records) :
    ∃ r, req.Answers rows r ∧ x.IsOf storeClustering r := by
  obtain ⟨r, hr, rfl⟩ := (h x).mp hx
  exact ⟨r, hr, isOf_recordOf hnull hr.1 _⟩

end Records

/-- The maps of the columns and the records of the rows that answer agree. -/
theorem agree_of_columns {result : EmbeddingsResult F} {streamed : EmbeddingsStreamResult F}
    (hnull : NonNull rows) (hcounted : streamed.receiver.length = streamed.totalCount)
    (honce : (streamed.receiver.map fun x => x.docId).Nodup)
    (hrecords : IsRecords req rows streamed.storeClustering streamed.receiver)
    (hdocument : IsColumn req rows .embedding result.docEmbeddings)
    (hclustering : streamed.storeClustering = true →
      IsColumn req rows .clusteringEmbedding result.clusteringEmbeddings)
    (hdisabled : streamed.storeClustering = false →
      result.clusteringEmbeddings = fun _ => none) :
    Agree req rows result streamed := by
  constructor
  case counted => exact hcounted
  case once => exact honce
  case passing => exact hrecords.mem_ids_iff_passes
  case document =>
    intro x hx
    obtain ⟨r, hr, hid, hembedding, _⟩ := hrecords.exists_row hnull hx
    rw [hid, ← hembedding]
    exact hdocument.at_answer hnull hr
  case clustering =>
    intro x hx
    obtain ⟨r, hr, hid, _, hcluster⟩ := hrecords.exists_row hnull hx
    rw [hid, hcluster]
    cases hstore : streamed.storeClustering with
    | true => exact (hclustering hstore).at_answer hnull hr
    | false =>
      rw [hdisabled hstore]
      rfl
  case noOthers =>
    intro id hid
    have hno (r : SnapshotRow F) (hr : req.Answers rows r) : r.docId ≠ id := by
      intro hsame
      exact hid ((hrecords.mem_ids id).mpr ⟨r, hr, hsame⟩)
    refine ⟨hdocument.eq_none hno, ?_⟩
    cases hstore : streamed.storeClustering with
    | true => exact (hclustering hstore).eq_none hno
    | false => rw [hdisabled hstore]
  case lowest =>
    intro x hx
    exact hrecords.exists_row hnull hx
  case lowestOfDocument =>
    intro htypes x hx
    obtain ⟨r, hr, hof⟩ := hrecords.exists_row hnull hx
    exact ⟨r, hr.lowest htypes, hof⟩

theorem isColumn_of_scan {scan : SnapshotScan F} (hscan : scan.Delivers) (hnull : NonNull rows)
    (hdistinct : Distinct rows) (req : EmbeddingsRequest) (column : VectorColumn) :
    ∃ embeddings,
      ioFetchResultEmbeddings (.ok rows) scan req.docIds req.docTypes column = .ok embeddings ∧
      IsColumn req rows column embeddings := by
  obtain ⟨embeddings, hok, hspec⟩ :=
    ioFetchResultEmbeddings_ok hscan hnull hdistinct req.docIds req.docTypes column
  refine ⟨embeddings, hok, fun id v => ?_⟩
  rw [hspec]
  simp only [lowest_scanRows_iff]

/-- The stream and the maps have the same vectors, in whatever order and batches the scans
deliver. -/
theorem embeddings_agree {env : EmbeddingsEnv F} {d : Domain (Option (List F))}
    {branch : BranchName} {servedCommit : CommitId}
    (hserved : env.servedCommit req d branch = .ok servedCommit)
    (hrows : (ioSnapshotFromCache servedCommit).runAt d.opened = .ok rows)
    (hnull : NonNull rows) (hdistinct : Distinct rows)
    (hfetch : ∀ column, (env.fetchScan column).Delivers) (hcount : env.countScan.Delivers)
    (hstream : env.streamScan.Delivers) :
    ∃ result streamed, env.fetchEmbeddings req d branch = .ok result ∧
      env.fetchEmbeddingsStream req d branch = .ok streamed ∧ Agree req rows result streamed := by
  obtain ⟨doc, hdoc, hdocument⟩ :=
    isColumn_of_scan (hfetch .embedding) hnull hdistinct req .embedding
  obtain ⟨clustering, hclus, hclustering⟩ :=
    isColumn_of_scan (hfetch .clusteringEmbedding) hnull hdistinct req .clusteringEmbedding
  obtain ⟨totalCount, records, hsent, hcounted, honce, hrecords⟩ :=
    ioStreamEmbeddings_ok hcount hstream hnull hdistinct env.order req.docIds req.docTypes
      env.storeClustering
  simp only [lowest_scanRows_iff] at hrecords
  refine ⟨⟨doc, if env.storeClustering then clustering else fun _ => none, env.storeClustering,
    servedCommit, env.modelNames.1, env.modelNames.2⟩, ⟨servedCommit, env.storeClustering,
    totalCount, env.modelNames.1, env.modelNames.2, records⟩, ?_, ?_, ?_⟩
  · unfold EmbeddingsEnv.fetchEmbeddings
    rw [hserved]
    cases hstore : env.storeClustering with
    | true =>
      simp only [hrows, hdoc, hclus, if_true, bind, Except.bind, pure, Except.pure, Except.mapError]
    | false =>
      simp only [hrows, hdoc, Bool.false_eq_true, if_false, bind, Except.bind, pure, Except.pure,
        Except.mapError]
  · unfold EmbeddingsEnv.fetchEmbeddingsStream
    rw [hserved]
    simp only [hrows, hsent, bind, Except.bind, pure, Except.pure, Except.mapError]
  · apply agree_of_columns hnull
    · exact hcounted
    · exact honce
    · exact hrecords
    · exact hdocument
    · intro hstore
      rw [if_pos hstore]
      exact hclustering
    · intro hstore
      have hoff : env.storeClustering = false := hstore
      simp only [hoff, Bool.false_eq_true, if_false]

end Agreement

section Samples

def vectorRow (docId : DocId) (chunkIndex : Int32) (x y : ℕ) : SnapshotRow ℕ :=
  ⟨docId, "Doc", chunkIndex, 2, 0, 1, some [x], some [y], "text"⟩

/-- The lowest chunk of `a` is the last row. -/
def vectorRows : List (SnapshotRow ℕ) :=
  [vectorRow "a" 1 5 50, vectorRow "b" 0 7 70, vectorRow "a" 0 3 30]

def vectorDomain : Domain (Option (List ℕ)) where
  dataset := some ⟨.start 1 vectorRows, ∅, (∅ : AList _).insert "c0" ⟨none, 1, 0⟩, 0⟩
  cached := none
  branchIndexes := ∅

/-- A batch for each row, the last row first. -/
def rowByRow : SnapshotScan F := fun rows columns filter =>
  ⟨.ok (), .ok (), ((scanRows filter rows).reverse.map fun r => ⟨[r], columns, fun _ => true⟩).map
    .ok⟩

theorem delivers_rowByRow : SnapshotScan.Delivers (F := F) rowByRow := by
  intro rows columns filter
  refine ⟨rfl, rfl, _, rfl, ?_, fun b hb => ?_⟩
  · rw [List.flatMap_map]
    have hflat : ((scanRows filter rows).reverse.flatMap fun r => [r]) =
        (scanRows filter rows).reverse := List.flatMap_singleton' _
    rw [hflat]
    exact List.reverse_perm _
  · obtain ⟨r, _, rfl⟩ := List.mem_map.mp hb
    exact ⟨fun c hc => hc, fun _ _ => rfl⟩

def vectorEnv : EmbeddingsEnv ℕ where
  searchReady := true
  storeClustering := true
  modelName := "e5"
  modelName2 := none
  fetchScan _ := rowByRow
  countScan := rowByRow
  streamScan := rowByRow
  order := ⟨id, List.Perm.refl⟩

theorem embeddings_agree_vectorEnv :
    ∃ result streamed,
      vectorEnv.fetchEmbeddings ⟨"c0", [], [], []⟩ vectorDomain mainBranch = .ok result ∧
      vectorEnv.fetchEmbeddingsStream ⟨"c0", [], [], []⟩ vectorDomain mainBranch = .ok streamed ∧
      Agree ⟨"c0", [], [], []⟩ vectorRows result streamed := by
  have hnull : NonNull vectorRows := by
    intro r hr c
    simp only [vectorRows, List.mem_cons, List.not_mem_nil, or_false] at hr
    rcases hr with rfl | rfl | rfl <;> cases c <;> rfl
  have hdistinct : Distinct vectorRows := by
    unfold Distinct
    decide
  exact embeddings_agree rfl rfl hnull hdistinct (fun _ => delivers_rowByRow) delivers_rowByRow
    delivers_rowByRow

/-- The later row of `a` has the lower chunk index. -/
example : (vectorEnv.fetchEmbeddingsStream ⟨"c0", [], [], []⟩ vectorDomain mainBranch).map
    (fun streamed => (streamed.totalCount, streamed.receiver)) =
      .ok (2, [⟨"b", [7], some [70]⟩, ⟨"a", [3], some [30]⟩]) := by
  decide +kernel

end Samples

end Vectorlink.EmbeddingScans
