import Vectorlink.Ranking.Least
import Vectorlink.Stepwise.Fallible
import Vectorlink.Store.DuplicateScope

/-! The stored vectors of documents, fetched at once or sent one by one. -/
namespace Vectorlink.EmbeddingScans

open Stepwise Ranking

variable {F α : Type}

/-- The columns of vectors may have nulls. -/
abbrev SnapshotRow (F : Type) := ChunkRow (Option (List F))

inductive VectorColumn where
  | embedding
  | clusteringEmbedding
deriving DecidableEq, Repr

def VectorColumn.name : VectorColumn → String
  | .embedding => "embedding"
  | .clusteringEmbedding => "clustering_embedding"

def VectorColumn.cell : VectorColumn → SnapshotRow F → Option (List F)
  | .embedding, r => r.embedding
  | .clusteringEmbedding, r => r.clusteringEmbedding

inductive ScanColumn where
  | docId
  | chunkIndex
  | vector (column : VectorColumn)
deriving DecidableEq, Repr

/-- Some rows of a scan, with the columns that have the type they should have. -/
structure RecordBatch (F : Type) where
  rows : List (SnapshotRow F)
  columns : List ScanColumn
  float32 : VectorColumn → Bool

/-- What a scan gives, call by call. -/
structure ScanRun (F : Type) where
  project : Except String Unit
  stream : Except String Unit
  batches : List (Except String (RecordBatch F))

/-- A scan of the rows of a snapshot, for some columns and a filter. -/
abbrev SnapshotScan (F : Type) := List (SnapshotRow F) → List ScanColumn →
  Option (SnapshotRow F → Bool) → ScanRun F

/-- All batches, or the first error. -/
def ScanRun.collect (run : ScanRun F) (what : String) : Except StoreError (List (RecordBatch F)) :=
  do
  run.project.mapError fun e => .internal s!"{what} projection failed: {e}" none
  run.stream.mapError fun e => .internal s!"{what} stream failed: {e}" none
  (run.batches.mapM id).mapError fun e => .internal s!"{what} collect failed: {e}" none

def extractEmbeddingRow (float32 : Bool) (cell : Option (List F)) (docId : DocId) :
    Except StoreError (List F) :=
  match cell with
  | none => .error (.internal s!"embedding extraction: null embedding for doc {docId}" none)
  | some floats =>
    if float32 then .ok floats
    else .error
      (.internal s!"embedding extraction: embedding is not Float32 for doc {docId}" none)

/-- The lowest chunk index met for each document, with what was read there. -/
abbrev BestPerDoc (α : Type) := AList fun _ : DocId => Int32 × α

def keepLowest (bestPerDoc : BestPerDoc α) (docId : DocId) (ci : Int32) (a : α) : BestPerDoc α :=
  match bestPerDoc.lookup docId with
  | none => bestPerDoc.insert docId (ci, a)
  | some (existingCi, _) =>
    if ci < existingCi then bestPerDoc.insert docId (ci, a) else bestPerDoc

section Fetch

def missingColumn (name : String) : StoreError :=
  .internal s!"result embedding scan: missing `{name}` column" none

def fetchRow (float32 : Bool) (column : VectorColumn) (bestPerDoc : BestPerDoc (List F))
    (r : SnapshotRow F) : Except StoreError (BestPerDoc (List F)) := do
  let embedding ← extractEmbeddingRow float32 (column.cell r) r.docId
  pure (keepLowest bestPerDoc r.docId r.chunkIndex embedding)

def fetchBatch (column : VectorColumn) (bestPerDoc : BestPerDoc (List F)) (batch : RecordBatch F) :
    Except StoreError (BestPerDoc (List F)) :=
  if batch.rows.isEmpty then .ok bestPerDoc
  else if .docId ∉ batch.columns then .error (missingColumn "doc_id")
  else if .chunkIndex ∉ batch.columns then .error (missingColumn "chunk_index")
  else if .vector column ∉ batch.columns then .error (missingColumn column.name)
  else batch.rows.foldlM (fetchRow (batch.float32 column) column) bestPerDoc

/-- The vectors of one column. -/
def ioFetchResultEmbeddings (snapshot : Except StoreError (List (SnapshotRow F)))
    (scan : SnapshotScan F) (docIds : List DocId) (docTypes : List String)
    (column : VectorColumn) : Except StoreError (DocId → Option (List F)) := do
  let rows ← snapshot
  let filter := buildFilterExpr docTypes docIds
  let batches ← (scan rows [.docId, .chunkIndex, .vector column] filter).collect "result embedding"
  let bestPerDoc ← batches.foldlM (fetchBatch column) ∅
  pure fun id => (bestPerDoc.lookup id).map Prod.snd

end Fetch

structure EmbeddingRecord (F : Type) where
  docId : DocId
  embedding : List F
  clusteringEmbedding : Option (List F)
deriving DecidableEq, Repr

section Stream

/-- Batches without the column are not counted. -/
def countDocIds (batches : List (RecordBatch F)) : ℕ :=
  ((batches.flatMap fun batch =>
    if .docId ∈ batch.columns then batch.rows.map fun r => r.docId else []).dedup).length

/-- A row whose vector cannot be read is left out. -/
def streamRow (storeClustering : Bool) (batch : RecordBatch F)
    (bestPerDoc : BestPerDoc (List F × Option (List F))) (r : SnapshotRow F) :
    BestPerDoc (List F × Option (List F)) :=
  match extractEmbeddingRow (batch.float32 .embedding) r.embedding r.docId with
  | .error _ => bestPerDoc
  | .ok embedding =>
    let clusteringEmb :=
      if storeClustering ∧ .vector .clusteringEmbedding ∈ batch.columns then
        if r.clusteringEmbedding.isNone then none
        else (extractEmbeddingRow (batch.float32 .clusteringEmbedding) r.clusteringEmbedding
          r.docId).toOption
      else none
    keepLowest bestPerDoc r.docId r.chunkIndex (embedding, clusteringEmb)

def streamBatch (storeClustering : Bool) (bestPerDoc : BestPerDoc (List F × Option (List F)))
    (batch : RecordBatch F) : BestPerDoc (List F × Option (List F)) :=
  if batch.rows.isEmpty then bestPerDoc
  else if .docId ∉ batch.columns then bestPerDoc
  else if .chunkIndex ∉ batch.columns then bestPerDoc
  else if .vector .embedding ∉ batch.columns then bestPerDoc
  else batch.rows.foldl (streamRow storeClustering batch) bestPerDoc

abbrev RecordOrder (F : Type) :=
  HashOrder (Sigma fun _ : DocId => Int32 × List F × Option (List F))

/-- What the spawned task sends. A batch that fails is sent as the only record. -/
def sentRecords (order : RecordOrder F) (storeClustering : Bool)
    (batches : List (Except String (RecordBatch F))) : List (EmbeddingRecord F) :=
  match batches.foldlM (fun best batch => batch.map (streamBatch storeClustering best)) ∅ with
  | .error e => [⟨s!"__error__: {e}", [], none⟩]
  | .ok bestPerDoc => (order.run bestPerDoc.entries).map fun e => ⟨e.1, e.2.2.1, e.2.2.2⟩

def streamColumns (storeClustering : Bool) : List ScanColumn :=
  if storeClustering then
    [.docId, .chunkIndex, .vector .embedding, .vector .clusteringEmbedding]
  else [.docId, .chunkIndex, .vector .embedding]

/-- The number of documents, and the records sent to the receiver. -/
def ioStreamEmbeddings (snapshot : Except StoreError (List (SnapshotRow F)))
    (countScan scan : SnapshotScan F) (order : RecordOrder F) (docIds : List DocId)
    (docTypes : List String) (storeClustering : Bool) :
    Except StoreError (ℕ × List (EmbeddingRecord F)) := do
  let rows ← snapshot
  let filter := buildFilterExpr docTypes docIds
  let countBatches ← (countScan rows [.docId, .chunkIndex] filter).collect "count"
  let totalCount := countDocIds countBatches
  let run := scan rows (streamColumns storeClustering) filter
  run.project.mapError fun e => .internal s!"stream projection failed: {e}" none
  run.stream.mapError fun e => .internal s!"stream embeddings failed: {e}" none
  pure (totalCount, sentRecords order storeClustering run.batches)

end Stream

section Lowest

variable (g : SnapshotRow F → α)

def keepRow (bestPerDoc : BestPerDoc α) (r : SnapshotRow F) : BestPerDoc α :=
  keepLowest bestPerDoc r.docId r.chunkIndex (g r)

/-- What both loops leave, for what they read in a row. -/
def lowestOf (rows : List (SnapshotRow F)) : BestPerDoc α := rows.foldl (keepRow g) ∅

/-- The row has the lowest chunk index of its document. -/
def Lowest (rows : List (SnapshotRow F)) (r : SnapshotRow F) : Prop :=
  r ∈ rows ∧ ∀ r' ∈ rows, r'.docId = r.docId → r.chunkIndex.toInt ≤ r'.chunkIndex.toInt

/-- The lowest row of each document. -/
def lowestRows (rows : List (SnapshotRow F)) : AList fun _ : DocId => SnapshotRow F :=
  leastPerKey (fun r => r.docId) (fun r => r.chunkIndex.toInt) rows

/-- At most one row for a chunk of a document. -/
def Distinct (rows : List (SnapshotRow F)) : Prop :=
  (rows.map fun r => (r.docId, r.chunkIndex)).Nodup

variable {g} {rows rows' : List (SnapshotRow F)} {r r' : SnapshotRow F} {id : DocId}

theorem Distinct.eq_of_mem (h : Distinct rows) (hr : r ∈ rows) (hr' : r' ∈ rows)
    (hid : r.docId = r'.docId) (hindex : r.chunkIndex.toInt = r'.chunkIndex.toInt) : r = r' := by
  apply List.inj_on_of_nodup_map h hr hr'
  rw [hid, Int32.toInt_inj.mp hindex]

theorem Lowest.unique (h : Distinct rows) (hr : Lowest rows r) (hr' : Lowest rows r')
    (hid : r.docId = r'.docId) : r = r' := by
  apply h.eq_of_mem hr.1 hr'.1 hid
  have hle := hr.2 r' hr'.1 hid.symm
  have hge := hr'.2 r hr.1 hid
  omega

theorem lowest_of_perm (h : rows.Perm rows') : Lowest rows r ↔ Lowest rows' r := by
  unfold Lowest
  simp only [h.mem_iff]

/-- The loop keeps the rows that the pass over the list keeps. -/
theorem lookup_foldl_keepRow (bestPerDoc : BestPerDoc α)
    (best : AList fun _ : DocId => SnapshotRow F)
    (h : ∀ id, bestPerDoc.lookup id = (best.lookup id).map fun r => (r.chunkIndex, g r)) :
    (rows.foldl (keepRow g) bestPerDoc).lookup id =
      ((rows.foldl (keepLeast (fun r => r.docId) fun r => r.chunkIndex.toInt) best).lookup id).map
        fun r => (r.chunkIndex, g r) := by
  induction rows generalizing bestPerDoc best with
  | nil => exact h id
  | cons r rows ih =>
    apply ih
    intro id'
    have hinsert : (bestPerDoc.insert r.docId (r.chunkIndex, g r)).lookup id' =
        ((best.insert r.docId r).lookup id').map fun r => (r.chunkIndex, g r) := by
      by_cases hid : id' = r.docId
      · rw [hid, AList.lookup_insert, AList.lookup_insert, Option.map_some]
      · rw [AList.lookup_insert_ne hid, AList.lookup_insert_ne hid, h]
    unfold keepRow keepLowest keepLeast
    rw [h r.docId]
    cases best.lookup r.docId with
    | none => exact hinsert
    | some kept =>
      dsimp only [Option.map_some]
      by_cases hlt : r.chunkIndex < kept.chunkIndex
      · rw [if_pos hlt, if_pos (Int32.lt_iff_toInt_lt.mp hlt)]
        exact hinsert
      · rw [if_neg hlt, if_neg fun hlt' => hlt (Int32.lt_iff_toInt_lt.mpr hlt')]
        exact h id'

theorem lookup_lowestOf : (lowestOf g rows).lookup id =
    ((lowestRows rows).lookup id).map fun r => (r.chunkIndex, g r) :=
  lookup_foldl_keepRow ∅ ∅ fun _ => rfl

theorem exists_lowestRows (hr : r ∈ rows) (hid : r.docId = id) :
    ∃ r', (lowestRows rows).lookup id = some r' :=
  exists_lookup_leastPerKey hr hid

theorem lowest_of_lookup (hr : (lowestRows rows).lookup id = some r) :
    Lowest rows r ∧ r.docId = id := by
  obtain ⟨hmem, hid⟩ := mem_of_lookup_leastPerKey hr
  refine ⟨⟨hmem, fun r' hr' hsame => ?_⟩, hid⟩
  exact least_of_lookup_leastPerKey hr hr' (hsame.trans hid)

/-- The entry of a document is that of its lowest row. -/
theorem lookup_lowestOf_iff (h : Distinct rows) {x : Int32 × α} :
    (lowestOf g rows).lookup id = some x ↔
      ∃ r, Lowest rows r ∧ r.docId = id ∧ x = (r.chunkIndex, g r) := by
  rw [lookup_lowestOf, Option.map_eq_some_iff]
  constructor
  · intro hx
    obtain ⟨r, hr, rfl⟩ := hx
    obtain ⟨hr, hid⟩ := lowest_of_lookup hr
    exact ⟨r, hr, hid, rfl⟩
  · intro hx
    obtain ⟨r, hr, hid, rfl⟩ := hx
    obtain ⟨r', hr'⟩ := exists_lowestRows hr.1 hid
    obtain ⟨hlowest', hid'⟩ := lowest_of_lookup hr'
    obtain rfl := hr.unique h hlowest' (hid.trans hid'.symm)
    exact ⟨r, hr', rfl⟩

theorem mem_keys_lowestOf : id ∈ (lowestOf g rows).keys ↔ ∃ r ∈ rows, r.docId = id := by
  rw [← AList.mem_keys, ← AList.lookup_isSome, lookup_lowestOf, Option.isSome_map]
  constructor
  · intro h
    obtain ⟨r, hr⟩ := Option.isSome_iff_exists.mp h
    obtain ⟨hlowest, hid⟩ := lowest_of_lookup hr
    exact ⟨r, hlowest.1, hid⟩
  · intro h
    obtain ⟨r, hr, hid⟩ := h
    obtain ⟨r', hr'⟩ := exists_lowestRows hr hid
    rw [hr', Option.isSome_some]

/-- One entry for each document. -/
theorem length_lowestOf :
    (lowestOf g rows).entries.length = (rows.map fun r => r.docId).dedup.length := by
  have hkeys : (lowestOf g rows).keys.Perm (rows.map fun r => r.docId).dedup := by
    apply (List.perm_ext_iff_of_nodup (lowestOf g rows).keys_nodup (List.nodup_dedup _)).mpr
    intro id
    rw [mem_keys_lowestOf, List.mem_dedup, List.mem_map]
  have hlength := hkeys.length_eq
  rwa [AList.keys, List.keys, List.length_map] at hlength

end Lowest

section Delivery

/-- A scan that succeeds. It gives the rows in some order and some batches, with the columns it
was asked for. -/
structure ScanRun.Delivers (run : ScanRun F) (columns : List ScanColumn)
    (rows : List (SnapshotRow F)) : Prop where
  project : run.project = .ok ()
  stream : run.stream = .ok ()
  batches : ∃ bs : List (RecordBatch F), run.batches = bs.map .ok ∧
    (bs.flatMap fun b => b.rows).Perm rows ∧
    ∀ b ∈ bs, columns ⊆ b.columns ∧ ∀ c, .vector c ∈ columns → b.float32 c = true

def SnapshotScan.Delivers (scan : SnapshotScan F) : Prop :=
  ∀ rows columns filter, (scan rows columns filter).Delivers columns (scanRows filter rows)

/-- No vector is null. -/
def NonNull (rows : List (SnapshotRow F)) : Prop :=
  ∀ r ∈ rows, ∀ c : VectorColumn, (c.cell r).isSome = true

/-- The vectors a record carries. -/
def recorded (storeClustering : Bool) (r : SnapshotRow F) : List F × Option (List F) :=
  (r.embedding.getD [], if storeClustering then r.clusteringEmbedding else none)

/-- The record of a row. -/
def recordOf (storeClustering : Bool) (r : SnapshotRow F) : EmbeddingRecord F :=
  ⟨r.docId, (recorded storeClustering r).1, (recorded storeClustering r).2⟩

variable {rows : List (SnapshotRow F)} {run : ScanRun F} {columns : List ScanColumn}
  {batch : RecordBatch F} {r : SnapshotRow F}

theorem collect_ok {bs : List (RecordBatch F)} (what : String) (hproject : run.project = .ok ())
    (hstream : run.stream = .ok ()) (hbatches : run.batches = bs.map .ok) :
    run.collect what = .ok bs := by
  have hmap : run.batches.mapM id = .ok bs := by
    rw [hbatches, mapM_ok_iff, List.forall₂_map_left_iff, List.forall₂_same]
    intro b _
    rfl
  unfold ScanRun.collect
  rw [hproject, hstream, hmap]
  rfl

theorem extractEmbeddingRow_ok {cell : Option (List F)} (h : cell.isSome = true) (docId : DocId) :
    extractEmbeddingRow true cell docId = .ok (cell.getD []) := by
  cases cell with
  | none => cases h
  | some floats => rfl

theorem fetchBatch_ok (column : VectorColumn) (hcolumns :
      [.docId, .chunkIndex, .vector column] ⊆ batch.columns)
    (hfloat : batch.float32 column = true) (hnull : ∀ r ∈ batch.rows, (column.cell r).isSome = true)
    (bestPerDoc : BestPerDoc (List F)) :
    fetchBatch column bestPerDoc batch =
      .ok (batch.rows.foldl (keepRow fun r => (column.cell r).getD []) bestPerDoc) := by
  have hid : .docId ∈ batch.columns := hcolumns (by simp)
  have hindex : .chunkIndex ∈ batch.columns := hcolumns (by simp)
  have hvector : .vector column ∈ batch.columns := hcolumns (by simp)
  unfold fetchBatch
  by_cases hempty : batch.rows.isEmpty = true
  · rw [if_pos hempty, List.isEmpty_iff.mp hempty]
    rfl
  · rw [if_neg hempty, if_neg (not_not.mpr hid), if_neg (not_not.mpr hindex),
      if_neg (not_not.mpr hvector), hfloat]
    apply foldlM_eq_ok
    intro best r hr
    rw [fetchRow, extractEmbeddingRow_ok (hnull r hr)]
    rfl

theorem streamRow_eq (storeClustering : Bool) (hfloat : batch.float32 .embedding = true)
    (hclustering : storeClustering = true → .vector .clusteringEmbedding ∈ batch.columns ∧
      batch.float32 .clusteringEmbedding = true)
    (hnull : ∀ c : VectorColumn, (c.cell r).isSome = true)
    (bestPerDoc : BestPerDoc (List F × Option (List F))) :
    streamRow storeClustering batch bestPerDoc r =
      keepRow (recorded storeClustering) bestPerDoc r := by
  have hembedding : extractEmbeddingRow true r.embedding r.docId = .ok (r.embedding.getD []) :=
    extractEmbeddingRow_ok (hnull .embedding) r.docId
  obtain ⟨floats, hfloats⟩ : ∃ floats, r.clusteringEmbedding = some floats :=
    Option.isSome_iff_exists.mp (hnull .clusteringEmbedding)
  unfold streamRow keepRow recorded
  rw [hfloat, hembedding]
  cases storeClustering with
  | false => simp
  | true =>
    obtain ⟨hmem, hfloat'⟩ := hclustering rfl
    simp [hmem, hfloat', hfloats, extractEmbeddingRow, Except.toOption]

theorem streamBatch_eq (storeClustering : Bool)
    (hcolumns : streamColumns storeClustering ⊆ batch.columns)
    (hfloat : ∀ c, .vector c ∈ streamColumns storeClustering → batch.float32 c = true)
    (hnull : ∀ r ∈ batch.rows, ∀ c : VectorColumn, (c.cell r).isSome = true)
    (bestPerDoc : BestPerDoc (List F × Option (List F))) :
    streamBatch storeClustering bestPerDoc batch =
      batch.rows.foldl (keepRow (recorded storeClustering)) bestPerDoc := by
  have hasked : [.docId, .chunkIndex, .vector .embedding] ⊆ streamColumns storeClustering := by
    cases storeClustering <;> simp [streamColumns]
  have hid : .docId ∈ batch.columns := hcolumns (hasked (by simp))
  have hindex : .chunkIndex ∈ batch.columns := hcolumns (hasked (by simp))
  have hvector : .vector .embedding ∈ batch.columns := hcolumns (hasked (by simp))
  have hclustering (h : storeClustering = true) :
      .vector .clusteringEmbedding ∈ batch.columns ∧
        batch.float32 .clusteringEmbedding = true := by
    have hmem : .vector .clusteringEmbedding ∈ streamColumns storeClustering := by
      simp [streamColumns, h]
    exact ⟨hcolumns hmem, hfloat _ hmem⟩
  unfold streamBatch
  by_cases hempty : batch.rows.isEmpty = true
  · rw [if_pos hempty, List.isEmpty_iff.mp hempty]
    rfl
  · rw [if_neg hempty, if_neg (not_not.mpr hid), if_neg (not_not.mpr hindex),
      if_neg (not_not.mpr hvector)]
    apply List.foldl_ext
    intro best r hr
    exact streamRow_eq storeClustering (hfloat _ (hasked (by simp))) hclustering (hnull r hr) best

theorem scanRows_sublist (filter : Option (SnapshotRow F → Bool)) :
    (scanRows filter rows).Sublist rows := by
  cases filter with
  | none => exact .refl rows
  | some f => exact List.filter_sublist

theorem Distinct.of_delivered {delivered : List (SnapshotRow F)}
    {filter : Option (SnapshotRow F → Bool)} (h : Distinct rows)
    (hperm : delivered.Perm (scanRows filter rows)) : Distinct delivered := by
  have hpassing : Distinct (scanRows filter rows) :=
    List.Nodup.sublist ((scanRows_sublist filter).map _) h
  have hkeys := hperm.map fun r : SnapshotRow F => (r.docId, r.chunkIndex)
  exact hkeys.nodup_iff.mpr hpassing

/-- The vectors fetched are those of the lowest rows that pass the filter. -/
theorem ioFetchResultEmbeddings_ok {scan : SnapshotScan F} (hscan : scan.Delivers)
    (hnull : NonNull rows) (hdistinct : Distinct rows) (docIds : List DocId)
    (docTypes : List String) (column : VectorColumn) :
    ∃ embeddings, ioFetchResultEmbeddings (.ok rows) scan docIds docTypes column = .ok embeddings ∧
      ∀ id v, embeddings id = some v ↔
        ∃ r, Lowest (scanRows (buildFilterExpr docTypes docIds) rows) r ∧ r.docId = id ∧
          column.cell r = some v := by
  obtain ⟨hproject, hstream, bs, hbatches, hperm, hcolumns⟩ :=
    hscan rows [.docId, .chunkIndex, .vector column] (buildFilterExpr docTypes docIds)
  have hmem {b : RecordBatch F} {r : SnapshotRow F} (hb : b ∈ bs) (hr : r ∈ b.rows) : r ∈ rows :=
    (scanRows_sublist _).subset (hperm.subset (List.mem_flatMap.mpr ⟨b, hb, hr⟩))
  have hfold : bs.foldlM (fetchBatch column) (∅ : BestPerDoc (List F)) =
      .ok (lowestOf (fun r => (column.cell r).getD []) (bs.flatMap fun b => b.rows)) := by
    rw [lowestOf, List.foldl_flatMap]
    apply foldlM_eq_ok
    intro best b hb
    apply fetchBatch_ok column (hcolumns b hb).1 ((hcolumns b hb).2 column (by simp))
    intro r hr
    exact hnull r (hmem hb hr) column
  refine ⟨fun id => ((lowestOf (fun r => (column.cell r).getD [])
    (bs.flatMap fun b => b.rows)).lookup id).map Prod.snd, ?_, fun id v => ?_⟩
  · unfold ioFetchResultEmbeddings
    simp only [collect_ok _ hproject hstream hbatches, hfold, bind, Except.bind, pure, Except.pure]
  · rw [Option.map_eq_some_iff]
    constructor
    · intro h
      obtain ⟨x, hx, rfl⟩ := h
      obtain ⟨r, hr, hid, rfl⟩ := (lookup_lowestOf_iff (hdistinct.of_delivered hperm)).mp hx
      have hlowest := (lowest_of_perm hperm).mp hr
      obtain ⟨floats, hfloats⟩ := Option.isSome_iff_exists.mp
        (hnull r ((scanRows_sublist _).subset hlowest.1) column)
      refine ⟨r, hlowest, hid, ?_⟩
      rw [hfloats, Option.getD_some]
    · intro h
      obtain ⟨r, hr, hid, hcell⟩ := h
      refine ⟨(r.chunkIndex, v), ?_, rfl⟩
      apply (lookup_lowestOf_iff (hdistinct.of_delivered hperm)).mpr
      refine ⟨r, (lowest_of_perm hperm).mpr hr, hid, ?_⟩
      rw [hcell, Option.getD_some]

theorem countDocIds_eq {bs : List (RecordBatch F)} (hcolumns : ∀ b ∈ bs, .docId ∈ b.columns) :
    countDocIds bs = ((bs.flatMap fun b => b.rows).map fun r => r.docId).dedup.length := by
  have hread : (bs.flatMap fun b =>
      if .docId ∈ b.columns then b.rows.map fun r => r.docId else []) =
      (bs.flatMap fun b => b.rows).map fun r => r.docId := by
    rw [List.map_flatMap]
    apply List.flatMap_congr
    intro b hb
    rw [if_pos (hcolumns b hb)]
  rw [countDocIds, hread]

/-- The entries that are left, in the order in which the map is iterated. -/
theorem sentRecords_ok (order : RecordOrder F) (storeClustering : Bool)
    {bs : List (RecordBatch F)}
    (hbatch : ∀ best, ∀ b ∈ bs, streamBatch storeClustering best b =
      b.rows.foldl (keepRow (recorded storeClustering)) best) :
    sentRecords order storeClustering (bs.map .ok) =
      (order.run (lowestOf (recorded storeClustering) (bs.flatMap fun b => b.rows)).entries).map
        fun e => ⟨e.1, e.2.2.1, e.2.2.2⟩ := by
  have hfold : (bs.map Except.ok).foldlM
      (fun best (batch : Except String (RecordBatch F)) =>
        batch.map (streamBatch storeClustering best)) ∅ =
      Except.ok (lowestOf (recorded storeClustering) (bs.flatMap fun b => b.rows)) := by
    rw [List.foldlM_map, lowestOf, List.foldl_flatMap]
    apply foldlM_eq_ok
    intro best b hb
    rw [Except.map, hbatch best b hb]
  unfold sentRecords
  rw [hfold]

/-- The entries of a map, made into records: those of the lowest rows. -/
theorem mem_map_record_iff {delivered : List (SnapshotRow F)} {storeClustering : Bool}
    {entries : List (Sigma fun _ : DocId => Int32 × List F × Option (List F))}
    (hdistinct : Distinct delivered)
    (hperm : entries.Perm (lowestOf (recorded storeClustering) delivered).entries)
    (x : EmbeddingRecord F) :
    x ∈ entries.map (fun e => (⟨e.1, e.2.2.1, e.2.2.2⟩ : EmbeddingRecord F)) ↔
      ∃ r, Lowest delivered r ∧ x = recordOf storeClustering r := by
  rw [List.mem_map]
  constructor
  · intro h
    obtain ⟨e, he, rfl⟩ := h
    have hlookup := AList.mem_lookup_iff.mpr (hperm.mem_iff.mp he)
    obtain ⟨r, hr, hid, hentry⟩ := (lookup_lowestOf_iff hdistinct).mp hlookup
    refine ⟨r, hr, ?_⟩
    rw [recordOf, hid, hentry]
  · intro h
    obtain ⟨r, hr, rfl⟩ := h
    have hlookup : (lowestOf (recorded storeClustering) delivered).lookup r.docId =
        some (r.chunkIndex, recorded storeClustering r) :=
      (lookup_lowestOf_iff hdistinct).mpr ⟨r, hr, rfl, rfl⟩
    refine ⟨⟨r.docId, r.chunkIndex, recorded storeClustering r⟩, ?_, rfl⟩
    exact hperm.mem_iff.mpr (AList.mem_lookup_iff.mp hlookup)

/-- The records sent are those of the lowest rows that pass the filter, one for each document. -/
theorem ioStreamEmbeddings_ok {countScan scan : SnapshotScan F} (hcount : countScan.Delivers)
    (hscan : scan.Delivers) (hnull : NonNull rows) (hdistinct : Distinct rows)
    (order : RecordOrder F) (docIds : List DocId) (docTypes : List String)
    (storeClustering : Bool) :
    ∃ totalCount records,
      ioStreamEmbeddings (.ok rows) countScan scan order docIds docTypes storeClustering =
        .ok (totalCount, records) ∧
      records.length = totalCount ∧ (records.map fun x => x.docId).Nodup ∧
      ∀ x, x ∈ records ↔
        ∃ r, Lowest (scanRows (buildFilterExpr docTypes docIds) rows) r ∧
          x = recordOf storeClustering r := by
  obtain ⟨hprojectCount, hstreamCount, bsCount, hbatchesCount, hpermCount, hcolumnsCount⟩ :=
    hcount rows [.docId, .chunkIndex] (buildFilterExpr docTypes docIds)
  obtain ⟨hproject, hstream, bs, hbatches, hperm, hcolumns⟩ :=
    hscan rows (streamColumns storeClustering) (buildFilterExpr docTypes docIds)
  have hmem {b : RecordBatch F} {r : SnapshotRow F} (hb : b ∈ bs) (hr : r ∈ b.rows) : r ∈ rows :=
    (scanRows_sublist _).subset (hperm.subset (List.mem_flatMap.mpr ⟨b, hb, hr⟩))
  have hsent := sentRecords_ok order storeClustering fun best b hb =>
    streamBatch_eq storeClustering (hcolumns b hb).1 (hcolumns b hb).2
      (fun r hr => hnull r (hmem hb hr)) best
  have hrun := order.perm
    (lowestOf (recorded storeClustering) (bs.flatMap fun b => b.rows)).entries
  have hcounted : countDocIds bsCount =
      (lowestOf (recorded storeClustering) (bs.flatMap fun b => b.rows)).entries.length := by
    have hsame := ((hpermCount.trans hperm.symm).map fun r => r.docId).dedup
    rw [countDocIds_eq fun b hb => (hcolumnsCount b hb).1 (by simp), hsame.length_eq,
      length_lowestOf]
  refine ⟨countDocIds bsCount, sentRecords order storeClustering (bs.map .ok), ?_, ?_, ?_,
    fun x => ?_⟩
  · unfold ioStreamEmbeddings
    simp only [collect_ok _ hprojectCount hstreamCount hbatchesCount, hproject, hstream, hbatches,
      bind, Except.bind, pure, Except.pure, Except.mapError]
  · rw [hsent, hcounted, List.length_map, hrun.length_eq]
  · rw [hsent, List.map_map]
    exact ((hrun.map Sigma.fst).nodup_iff).mpr (AList.keys_nodup _)
  · rw [hsent, mem_map_record_iff (hdistinct.of_delivered hperm) hrun]
    simp only [lowest_of_perm hperm]

end Delivery

end Vectorlink.EmbeddingScans
