import Mathlib.Algebra.Group.Nat.Defs
import Vectorlink.Columnar.Batches
import Vectorlink.Store.Delta

/-! Rows as they are stored: batches of columns, and how they are read again. -/
namespace Vectorlink

open Columnar

variable {F : Type}

/-- The columns of some rows, with the vectors one after the other. -/
def rowColumns (dim : ℕ) (rows : List (ChunkRow (List F))) : List (String × Column F) :=
  [("doc_id", .utf8 (rows.map ChunkRow.docId)),
    ("doc_type", .utf8 (rows.map ChunkRow.docType)),
    ("chunk_index", .int32 (rows.map ChunkRow.chunkIndex)),
    ("chunk_count", .int32 (rows.map ChunkRow.chunkCount)),
    ("chunk_token_start", .int32 (rows.map ChunkRow.chunkTokenStart)),
    ("doc_token_len", .int32 (rows.map ChunkRow.docTokenLen)),
    ("embedding", .fixedSizeList dim (.float32 (rows.flatMap ChunkRow.embedding)) none),
    ("clustering_embedding",
      .fixedSizeList dim (.float32 (rows.flatMap ChunkRow.clusteringEmbedding)) none),
    ("content", .utf8 (rows.map ChunkRow.content))]

section Write

variable (strict : Bool) (dim : ℕ)

/-- The vectors of a column, flat. A panic of the constructor is no error. -/
def vectorColumn (vectors : List (List F)) : Except (Option StoreError) (Column F) :=
  match Column.newFixedSizeList strict (Int32.ofNat dim) (.float32 vectors.flatten) with
  | some column => .ok column
  | none => .error none

def rowsToBatch (rows : List (ChunkRow (List F))) : Except (Option StoreError) (RecordBatch F) := do
  let embeddingArray ← vectorColumn strict dim (rows.map ChunkRow.embedding)
  let clusteringEmbeddingArray ← vectorColumn strict dim (rows.map ChunkRow.clusteringEmbedding)
  match RecordBatch.tryNew
    [("doc_id", .utf8 (rows.map ChunkRow.docId)),
      ("doc_type", .utf8 (rows.map ChunkRow.docType)),
      ("chunk_index", .int32 (rows.map ChunkRow.chunkIndex)),
      ("chunk_count", .int32 (rows.map ChunkRow.chunkCount)),
      ("chunk_token_start", .int32 (rows.map ChunkRow.chunkTokenStart)),
      ("doc_token_len", .int32 (rows.map ChunkRow.docTokenLen)),
      ("embedding", embeddingArray),
      ("clustering_embedding", clusteringEmbeddingArray),
      ("content", .utf8 (rows.map ChunkRow.content))] with
  | some batch => .ok batch
  | none => .error (some (.internal "batch construction failed" (some .io)))

end Write

/-- The columns of a batch that has the schema of the rows. -/
structure RowColumns (F : Type) where
  docId : List String
  docType : List String
  chunkIndex : List Int32
  chunkCount : List Int32
  chunkTokenStart : List Int32
  docTokenLen : List Int32
  embedding : FixedSizeLists F
  clusteringEmbedding : FixedSizeLists F
  content : List String

section Read

variable (b : RecordBatch F)

def orMissing {α : Type} (column : String → Option α) (name : String) : Except StoreError α :=
  match column name with
  | some values => .ok values
  | none => .error (.internal s!"{name} column missing" none)

def fullColumns : Except StoreError (RowColumns F) := do
  pure {
    docId := ← orMissing b.utf8 "doc_id"
    docType := ← orMissing b.utf8 "doc_type"
    chunkIndex := ← orMissing b.int32 "chunk_index"
    chunkCount := ← orMissing b.int32 "chunk_count"
    chunkTokenStart := ← orMissing b.int32 "chunk_token_start"
    docTokenLen := ← orMissing b.int32 "doc_token_len"
    embedding := ← orMissing b.fixedSizeList "embedding"
    clusteringEmbedding := ← orMissing b.fixedSizeList "clustering_embedding"
    content := ← orMissing b.utf8 "content" }

def floatsOr (message : String) (values : Column F) : Except StoreError (List F) :=
  match values.asFloat32 with
  | some floats => .ok floats
  | none => .error (.internal message none)

def fullRow (columns : RowColumns F) (i : ℕ) : Except StoreError (ChunkRow (List F)) := do
  let embedding ← floatsOr "embedding not Float32" (columns.embedding.value i)
  let clusteringEmbedding ← floatsOr "clustering not Float32" (columns.clusteringEmbedding.value i)
  pure {
    docId := columns.docId.getD i ""
    docType := columns.docType.getD i ""
    chunkIndex := columns.chunkIndex.getD i 0
    chunkCount := columns.chunkCount.getD i 0
    chunkTokenStart := columns.chunkTokenStart.getD i 0
    docTokenLen := columns.docTokenLen.getD i 0
    embedding
    clusteringEmbedding
    content := columns.content.getD i "" }

def fullBatch (rows : List (ChunkRow (List F))) : Except StoreError (List (ChunkRow (List F))) :=
  if b.numRows = 0 then .ok rows
  else do
    let columns ← fullColumns b
    (List.range columns.docId.length).foldlM (fun rows i => do
      let row ← fullRow columns i
      pure (rows ++ [row])) rows

/-- The rows of all batches, sorted by document and chunk. -/
def readFullRows (batches : List (RecordBatch F)) : Except StoreError (List (ChunkRow (List F))) :=
  do
  let rows ← batches.foldlM (fun rows b => fullBatch b rows) []
  pure (rows.insertionSort fun a b => chunkRowLe a b)

end Read

/-- Both vectors of the row have the dimension of the store. -/
structure ChunkRow.Sized (dim : ℕ) (r : ChunkRow (List F)) : Prop where
  embedding : r.embedding.length = dim
  clusteringEmbedding : r.clusteringEmbedding.length = dim

instance (dim : ℕ) : DecidablePred (ChunkRow.Sized (F := F) dim) := fun r =>
  decidable_of_iff (r.embedding.length = dim ∧ r.clusteringEmbedding.length = dim)
    ⟨fun h => ⟨h.1, h.2⟩, fun h => ⟨h.1, h.2⟩⟩

/-- The batch has the columns of some names from the rows. -/
structure Holds (dim : ℕ) (names : List String) (rows : List (ChunkRow (List F)))
    (b : RecordBatch F) : Prop where
  numRows : b.numRows = rows.length
  column : ∀ name ∈ names, b.columnByName name = findColumn (rowColumns dim rows) name

def schemaNames : List String :=
  ["doc_id", "doc_type", "chunk_index", "chunk_count", "chunk_token_start", "doc_token_len",
    "embedding", "clustering_embedding", "content"]

/-- A batch that a scan of stored rows gives has no other columns than theirs. -/
structure Scanned (dim : ℕ) (names : List String) (rows : List (ChunkRow (List F)))
    (b : RecordBatch F) : Prop extends Holds dim names rows b where
  sized : ∀ r ∈ rows, r.Sized dim
  others : ∀ name, name ∉ schemaNames → b.columnByName name = none

section Holds

variable {dim : ℕ} {names : List String} {rows : List (ChunkRow (List F))} {b : RecordBatch F}

theorem length_flatMap_of_sized {f : ChunkRow (List F) → List F}
    (h : ∀ r ∈ rows, (f r).length = dim) : (rows.flatMap f).length = rows.length * dim := by
  induction rows with
  | nil => simp
  | cons r rows ih =>
    rw [List.flatMap_cons, List.length_append, h r List.mem_cons_self,
      ih fun x hx => h x (List.mem_cons_of_mem r hx), List.length_cons, Nat.succ_mul, Nat.add_comm]

theorem length_rowColumns (hdim : 0 < dim) (h : ∀ r ∈ rows, r.Sized dim) :
    ∀ c ∈ rowColumns dim rows, c.2.length = rows.length := by
  have hembedding := length_flatMap_of_sized fun r hr => (h r hr).embedding
  have hclustering := length_flatMap_of_sized fun r hr => (h r hr).clusteringEmbedding
  simp [rowColumns, Column.length, hembedding, hclustering, Nat.mul_div_cancel _ hdim]

/-- The batch of rows of the right size. -/
def batchOf (dim : ℕ) (hdim : 0 < dim) (rows : List (ChunkRow (List F)))
    (h : ∀ r ∈ rows, r.Sized dim) : RecordBatch F :=
  ⟨rowColumns dim rows, rows.length, length_rowColumns hdim h⟩

theorem newFixedSizeList_of_dvd (strict : Bool) (hsmall : dim < 2 ^ 31) {items : Column F}
    (hitems : dim ∣ items.length) :
    Column.newFixedSizeList strict (Int32.ofNat dim) items = some (.fixedSizeList dim items none) := by
  have hpos : ¬ Int32.ofNat dim < 0 := by
    rw [Int32.not_lt, Int32.le_iff_toInt_le, Int32.toInt_ofNat_of_lt hsmall]
    simp
  have hclamp : (Int32.ofNat dim).toNatClampNeg = dim := by
    rw [Int32.toNatClampNeg, Int32.toInt_ofNat_of_lt hsmall, Int.toNat_natCast]
  unfold Column.newFixedSizeList
  rw [if_neg hpos, hclamp, if_neg]
  rintro ⟨-, -, hmod⟩
  exact hmod (Nat.mod_eq_zero_of_dvd hitems)

theorem vectorColumn_of_length (strict : Bool) (hsmall : dim < 2 ^ 31) (f : ChunkRow (List F) → List F)
    (h : ∀ r ∈ rows, (f r).length = dim) :
    vectorColumn strict dim (rows.map f) =
      .ok (.fixedSizeList dim (.float32 (rows.flatMap f)) none) := by
  have hflat : (rows.map f).flatten = rows.flatMap f := rfl
  have hdvd : dim ∣ (Column.float32 (rows.flatMap f)).length := by
    show dim ∣ (rows.flatMap f).length
    rw [length_flatMap_of_sized h]
    exact Nat.dvd_mul_left dim rows.length
  rw [vectorColumn, hflat, newFixedSizeList_of_dvd strict hsmall hdvd]

theorem rowsToBatch_of_sized (strict : Bool) (hdim : 0 < dim) (hsmall : dim < 2 ^ 31)
    (h : ∀ r ∈ rows, r.Sized dim) :
    rowsToBatch strict dim rows = .ok (batchOf dim hdim rows h) := by
  have hnew : RecordBatch.tryNew (rowColumns dim rows) = some (batchOf dim hdim rows h) := by
    have hfirst : ((rowColumns dim rows).head?.map fun c => c.2.length).getD 0 = rows.length := by
      simp [rowColumns, Column.length]
    unfold RecordBatch.tryNew
    dsimp only
    rw [dif_pos (by rw [hfirst]; exact length_rowColumns hdim h)]
    exact congrArg some (RecordBatch.ext rfl hfirst)
  rw [rowsToBatch, vectorColumn_of_length strict hsmall _ fun r hr => (h r hr).embedding,
    vectorColumn_of_length strict hsmall _ fun r hr => (h r hr).clusteringEmbedding]
  show (match RecordBatch.tryNew (rowColumns dim rows) with
    | some batch => Except.ok batch
    | none => _) = _
  rw [hnew]

theorem gather_rowColumns (h : ∀ r ∈ rows, r.Sized dim) (positions : List ℕ) :
    (rowColumns dim rows).map (fun c => (c.1, c.2.gather positions)) =
      rowColumns dim (pick rows positions) := by
  have hembedding := pick_spread (fun r hr => (h r hr).embedding) positions
  have hclustering := pick_spread (fun r hr => (h r hr).clusteringEmbedding) positions
  simp [rowColumns, Column.gather, pick_map, hembedding, hclustering]

theorem sized_pick (h : ∀ r ∈ rows, r.Sized dim) (positions : List ℕ) :
    ∀ r ∈ pick rows positions, r.Sized dim := by
  intro r hr
  obtain ⟨i, -, hi⟩ := List.mem_filterMap.mp hr
  exact h r (List.mem_of_getElem? hi)

/-- A part of the stored rows, with some of their columns. -/
theorem scanned_part (hdim : 0 < dim) (h : ∀ r ∈ rows, r.Sized dim)
    (positions : List (Fin (batchOf dim hdim rows h).numRows)) (names : Option (List String)) :
    Scanned dim (names.getD schemaNames) (pick rows (positions.map Fin.val))
      ((names.map ((batchOf dim hdim rows h).gather positions).project).getD
        ((batchOf dim hdim rows h).gather positions)) := by
  have hrows : positions.length = (pick rows (positions.map Fin.val)).length := by
    rw [length_pick, List.length_map]
    intro i hi
    obtain ⟨j, -, rfl⟩ := List.mem_map.mp hi
    exact j.isLt
  have hall : ∀ name, ((batchOf dim hdim rows h).gather positions).columnByName name =
      findColumn (rowColumns dim (pick rows (positions.map Fin.val))) name := by
    intro name
    rw [← gather_rowColumns h]
    rfl
  have hothers : ∀ name, name ∉ schemaNames →
      findColumn (rowColumns dim (pick rows (positions.map Fin.val))) name = none := by
    intro name hname
    apply findColumn_of_notMem
    exact hname
  have hsized := sized_pick h (positions.map Fin.val)
  cases names with
  | none =>
    exact ⟨⟨hrows, fun name _ => hall name⟩, hsized, fun name hname =>
      (hall name).trans (hothers name hname)⟩
  | some names =>
    refine ⟨⟨hrows, fun name hname => ?_⟩, hsized, fun name hname => ?_⟩
    · rw [← hall name]
      exact RecordBatch.columnByName_project _ hname
    · by_cases hmem : name ∈ names
      · show (((batchOf dim hdim rows h).gather positions).project names).columnByName name = none
        rw [RecordBatch.columnByName_project _ hmem, hall]
        exact hothers name hname
      · exact RecordBatch.columnByName_project_of_notMem _ hmem

end Holds

section ReadBack

variable {dim : ℕ} {rows : List (ChunkRow (List F))} {b : RecordBatch F} {i : ℕ}
  {r : ChunkRow (List F)}

/-- The columns that the rows of a batch are read from. -/
def columnsOf (dim : ℕ) (rows : List (ChunkRow (List F))) : RowColumns F where
  docId := rows.map ChunkRow.docId
  docType := rows.map ChunkRow.docType
  chunkIndex := rows.map ChunkRow.chunkIndex
  chunkCount := rows.map ChunkRow.chunkCount
  chunkTokenStart := rows.map ChunkRow.chunkTokenStart
  docTokenLen := rows.map ChunkRow.docTokenLen
  embedding := ⟨dim, .float32 (rows.flatMap ChunkRow.embedding), none⟩
  clusteringEmbedding := ⟨dim, .float32 (rows.flatMap ChunkRow.clusteringEmbedding), none⟩
  content := rows.map ChunkRow.content

theorem fullColumns_of_holds (h : Holds dim schemaNames rows b) :
    fullColumns b = .ok (columnsOf dim rows) := by
  have hcolumn : ∀ name ∈ schemaNames, b.columnByName name =
      findColumn (rowColumns dim rows) name := h.column
  simp only [schemaNames, List.forall_mem_cons] at hcolumn
  obtain ⟨h1, h2, h3, h4, h5, h6, h7, h8, h9, -⟩ := hcolumn
  simp only [fullColumns, orMissing, RecordBatch.utf8, RecordBatch.int32, RecordBatch.fixedSizeList,
    h1, h2, h3, h4, h5, h6, h7, h8, h9]
  rfl

theorem value_of_sized {f : ChunkRow (List F) → List F} (h : ∀ r ∈ rows, (f r).length = dim)
    (hi : rows[i]? = some r) :
    (FixedSizeLists.mk dim (.float32 (rows.flatMap f)) none).value i = .float32 (f r) := by
  show Column.float32 (pick (rows.flatMap f) (spread dim [i])) = _
  rw [pick_spread h, pick_cons, hi]
  simp [pick]

theorem fullRow_of_sized (h : ∀ r ∈ rows, r.Sized dim) (hi : rows[i]? = some r) :
    fullRow (columnsOf dim rows) i = .ok r := by
  have hembedding := value_of_sized (fun r hr => (h r hr).embedding) hi
  have hclustering := value_of_sized (fun r hr => (h r hr).clusteringEmbedding) hi
  simp only [fullRow, columnsOf, floatsOr, hembedding, hclustering, Column.asFloat32,
    List.getD_eq_getElem?_getD, List.getElem?_map, hi, Option.map_some, Option.getD_some]
  rfl

theorem fullBatch_of_holds (hrows : ∀ r ∈ rows, r.Sized dim) (h : Holds dim schemaNames rows b)
    (acc : List (ChunkRow (List F))) : fullBatch b acc = .ok (acc ++ rows) := by
  unfold fullBatch
  by_cases hzero : b.numRows = 0
  · have hnil : rows = [] := List.eq_nil_of_length_eq_zero (h.numRows.symm.trans hzero)
    rw [if_pos hzero, hnil, List.append_nil]
  · rw [if_neg hzero, fullColumns_of_holds h]
    show (List.range (rows.map ChunkRow.docId).length).foldlM _ acc = _
    rw [List.length_map, foldlM_range (h := fun acc r => acc ++ [r])]
    · rw [foldl_push (fun r => r), List.map_id']
    · intro acc i r hi
      rw [fullRow_of_sized hrows hi]
      rfl

/-- The row of a batch, if it can be read. -/
def rowAt (x : BatchRow F) : Option (ChunkRow (List F)) :=
  (fullColumns x.1 >>= fun columns => fullRow columns x.2).toOption

theorem holds_batchOf (hdim : 0 < dim) (h : ∀ r ∈ rows, r.Sized dim) :
    Holds dim schemaNames rows (batchOf dim hdim rows h) := ⟨rfl, fun _ _ => rfl⟩

theorem rowAt_batchOf (hdim : 0 < dim) (h : ∀ r ∈ rows, r.Sized dim)
    (i : Fin (batchOf dim hdim rows h).numRows) : rowAt ⟨batchOf dim hdim rows h, i⟩ = rows[i.val]? := by
  have hi : rows[i.val]? = some (rows.get i) := List.getElem?_eq_getElem i.isLt
  unfold rowAt
  rw [fullColumns_of_holds (holds_batchOf hdim h), hi]
  show (fullRow (columnsOf dim rows) i.val).toOption = _
  rw [fullRow_of_sized h hi]
  rfl

/-- The rows at some positions of a batch. -/
theorem filterMap_rowAt (hdim : 0 < dim) (h : ∀ r ∈ rows, r.Sized dim)
    (positions : List (Fin (batchOf dim hdim rows h).numRows)) :
    (positions.map fun i => (⟨batchOf dim hdim rows h, i⟩ : BatchRow F)).filterMap rowAt =
      pick rows (positions.map Fin.val) := by
  unfold pick
  rw [List.filterMap_map, List.filterMap_map]
  congr 1
  funext i
  exact rowAt_batchOf hdim h i

/-- Rows of the dimension of the store, as one append writes them. -/
abbrev Append (F : Type) (dim : ℕ) := {rows : List (ChunkRow (List F)) // ∀ r ∈ rows, r.Sized dim}

def Append.batch (hdim : 0 < dim) (a : Append F dim) : RecordBatch F := batchOf dim hdim a.1 a.2

theorem Append.filterMap_rowAt (hdim : 0 < dim) (a : Append F dim)
    (positions : List (Fin (a.batch hdim).numRows)) :
    (positions.map fun i => (⟨a.batch hdim, i⟩ : BatchRow F)).filterMap rowAt =
      pick a.1 (positions.map Fin.val) := Vectorlink.filterMap_rowAt hdim a.2 positions

/-- A filter on the rows, as Lance applies it to the columns. -/
def keepRow (p : ChunkRow (List F) → Bool) (x : BatchRow F) : Bool := (rowAt x).any p

theorem filterMap_keptRows (hdim : 0 < dim) (appends : List (Append F dim))
    (p : ChunkRow (List F) → Bool) :
    (keptRows (keepRow p) (appends.map (Append.batch hdim))).filterMap rowAt =
      (appends.flatMap Subtype.val).filter p := by
  induction appends with
  | nil => rfl
  | cons a appends ih =>
    have hfirst : (((List.finRange (a.batch hdim).numRows).map
        fun i => (⟨a.batch hdim, i⟩ : BatchRow F)).filter (keepRow p)).filterMap rowAt =
        a.1.filter p := by
      have hkeep : ∀ x : BatchRow F, (if keepRow p x = true then rowAt x else none) =
          Option.filter p (rowAt x) := by
        intro x
        unfold keepRow
        cases rowAt x <;> simp [Option.filter]
      have hall : pick a.1 ((List.finRange (a.batch hdim).numRows).map Fin.val) = a.1 := by
        rw [List.map_coe_finRange_eq_range, List.range_eq_range', pick_range', List.drop_zero]
        exact List.take_length
      rw [List.filterMap_filter, funext hkeep, ← List.filter_filterMap]
      rw [a.filterMap_rowAt hdim, hall]
    rw [List.map_cons, List.flatMap_cons, List.filter_append, ← ih, ← hfirst,
      ← List.filterMap_append]
    rfl

/-- Whatever a scan of the stored batches gives stands for the rows that pass the filter. -/
theorem scanned_of_scans (hdim : 0 < dim) {appends : List (Append F dim)}
    {p : ChunkRow (List F) → Bool} {names : Option (List String)} {out : List (RecordBatch F)}
    (hscan : Scans (keepRow p) names (appends.map (Append.batch hdim)) out) :
    ∃ parts, parts.flatten = (appends.flatMap Subtype.val).filter p ∧
      List.Forall₂ (Scanned dim (names.getD schemaNames)) parts out := by
  obtain ⟨parts, hstored, hkept, rfl⟩ := hscan
  have hpart : ∀ q ∈ parts, ∃ a ∈ appends, q.1 = a.batch hdim := by
    intro q hq
    obtain ⟨a, ha, hq⟩ := List.mem_map.mp (hstored q hq)
    exact ⟨a, ha, hq.symm⟩
  refine ⟨parts.map fun q => (q.2.map fun i => (⟨q.1, i⟩ : BatchRow F)).filterMap rowAt, ?_, ?_⟩
  · rw [← filterMap_keptRows hdim, ← hkept, List.filterMap_flatMap]
    rfl
  · rw [List.forall₂_map_left_iff, List.forall₂_map_right_iff, List.forall₂_same]
    intro q hq
    obtain ⟨a, -, hbatch⟩ := hpart q hq
    obtain ⟨b, positions⟩ := q
    subst hbatch
    show Scanned dim _ ((positions.map fun i => (⟨a.batch hdim, i⟩ : BatchRow F)).filterMap rowAt) _
    rw [a.filterMap_rowAt hdim]
    exact scanned_part hdim a.2 positions names

theorem readFullRows_of_scanned {parts : List (List (ChunkRow (List F)))}
    {out : List (RecordBatch F)} (h : List.Forall₂ (Scanned dim schemaNames) parts out) :
    readFullRows out = .ok (parts.flatten.insertionSort fun a b => chunkRowLe a b) := by
  have hloop := foldlM_forall₂ (ε := StoreError) (g := fun rows b => fullBatch b rows)
    (h := fun acc r => acc ++ [r]) (fun acc rows b hb => by
      rw [fullBatch_of_holds hb.sized hb.toHolds, foldl_push (fun r => r), List.map_id']) h []
  rw [readFullRows, hloop, foldl_push (fun r => r), List.map_id', List.nil_append]
  rfl

end ReadBack

section RoundTrip

variable {strict : Bool} {dim : ℕ} {rows : List (ChunkRow (List F))} {b : RecordBatch F}

theorem vectorColumn_ok (hsmall : dim < 2 ^ 31) {vectors : List (List F)} {column : Column F}
    (h : vectorColumn strict dim vectors = .ok column) :
    column = .fixedSizeList dim (.float32 vectors.flatten) none := by
  have hclamp : (Int32.ofNat dim).toNatClampNeg = dim := by
    rw [Int32.toNatClampNeg, Int32.toInt_ofNat_of_lt hsmall, Int.toNat_natCast]
  unfold vectorColumn at h
  split at h
  · rename_i hnew
    obtain rfl := Except.ok.inj h
    unfold Column.newFixedSizeList at hnew
    split at hnew
    · cases hnew
    · split at hnew
      · cases hnew
      · rw [hclamp] at hnew
        exact (Option.some.inj hnew).symm
  · cases h

/-- A batch that could be built holds the rows column by column, whatever the vectors' lengths. -/
theorem holds_of_rowsToBatch (hsmall : dim < 2 ^ 31) (h : rowsToBatch strict dim rows = .ok b) :
    b.columns = rowColumns dim rows ∧ Holds dim schemaNames rows b := by
  unfold rowsToBatch at h
  cases hembedding : vectorColumn strict dim (rows.map ChunkRow.embedding) with
  | error e =>
    rw [hembedding] at h
    cases h
  | ok embeddingArray =>
    cases hclustering : vectorColumn strict dim (rows.map ChunkRow.clusteringEmbedding) with
    | error e =>
      rw [hembedding, hclustering] at h
      cases h
    | ok clusteringEmbeddingArray =>
      rw [hembedding, hclustering] at h
      obtain rfl := vectorColumn_ok hsmall hembedding
      obtain rfl := vectorColumn_ok hsmall hclustering
      replace h : (match RecordBatch.tryNew (rowColumns dim rows) with
          | some batch => Except.ok batch
          | none => .error (some (StoreError.internal "batch construction failed" (some .io)))) =
          .ok b := h
      split at h
      · rename_i batch hnew
        obtain rfl := Except.ok.inj h
        unfold RecordBatch.tryNew at hnew
        dsimp only at hnew
        split at hnew
        · obtain rfl := Option.some.inj hnew
          refine ⟨rfl, ?_, fun _ _ => rfl⟩
          simp [rowColumns, Column.length]
        · cases hnew
      · cases h

theorem length_of_floatsOr {f : ChunkRow (List F) → List F} {message : String} {i : ℕ} {v : List F}
    (hlength : (rows.flatMap f).length / dim = rows.length) (hi : i < rows.length)
    (h : floatsOr message ((FixedSizeLists.mk dim (.float32 (rows.flatMap f)) none).value i) = .ok v) :
    v.length = dim := by
  obtain rfl : pick (rows.flatMap f) (spread dim [i]) = v := Except.ok.inj h
  rw [length_pick, length_spread, List.length_singleton, Nat.one_mul]
  apply spread_lt
  intro j hj
  rw [List.mem_singleton.mp hj, hlength]
  exact hi

/-- The rows come back just if all vectors have the dimension of the store; where they have not and
a batch is built all the same, its rows are others. -/
theorem rowsToBatch_roundTrip (strict : Bool) (hdim : 0 < dim) (hsmall : dim < 2 ^ 31)
    (rows : List (ChunkRow (List F))) :
    (∀ r ∈ rows, r.Sized dim) ↔ ∃ b, rowsToBatch strict dim rows = .ok b ∧
      b.numRows = rows.length ∧ ∀ i, rowAt ⟨b, i⟩ = rows[i.val]? := by
  constructor
  · intro h
    exact ⟨batchOf dim hdim rows h, rowsToBatch_of_sized strict hdim hsmall h, rfl,
      rowAt_batchOf hdim h⟩
  · rintro ⟨b, hb, hnum, hread⟩ r hr
    obtain ⟨hcolumns, hholds⟩ := holds_of_rowsToBatch hsmall hb
    obtain ⟨i, hi, hri⟩ := List.mem_iff_getElem.mp hr
    have hlengths := b.lengths
    rw [hcolumns, hnum] at hlengths
    have hflat : (rows.flatMap ChunkRow.embedding).length / dim = rows.length :=
      hlengths ("embedding", .fixedSizeList dim (.float32 (rows.flatMap ChunkRow.embedding)) none)
        (by simp [rowColumns])
    have hflat' : (rows.flatMap ChunkRow.clusteringEmbedding).length / dim = rows.length :=
      hlengths ("clustering_embedding",
        .fixedSizeList dim (.float32 (rows.flatMap ChunkRow.clusteringEmbedding)) none)
        (by simp [rowColumns])
    have hrow := hread ⟨i, by rw [hnum]; exact hi⟩
    rw [rowAt, fullColumns_of_holds hholds, List.getElem?_eq_getElem hi, hri] at hrow
    replace hrow : (fullRow (columnsOf dim rows) i).toOption = some r := hrow
    unfold fullRow at hrow
    cases hembedding : floatsOr "embedding not Float32" ((columnsOf dim rows).embedding.value i) with
    | error e =>
      rw [hembedding] at hrow
      cases hrow
    | ok embedding =>
      cases hclustering : floatsOr "clustering not Float32"
          ((columnsOf dim rows).clusteringEmbedding.value i) with
      | error e =>
        rw [hembedding, hclustering] at hrow
        cases hrow
      | ok clusteringEmbedding =>
        rw [hembedding, hclustering] at hrow
        obtain rfl := Option.some.inj hrow
        constructor
        · exact length_of_floatsOr hflat hi hembedding
        · exact length_of_floatsOr hflat' hi hclustering

def planarRow (embedding clusteringEmbedding : List ℤ) : ChunkRow (List ℤ) :=
  ⟨"terminusdb:///data/d", "", 0, 1, 0, 3, embedding, clusteringEmbedding, "text"⟩

/-- Two rows whose vectors fit only together: the batch is built and its rows are others. -/
def unevenRows : List (ChunkRow (List ℤ)) := [planarRow [1] [5, 6], planarRow [2, 3, 4] [7, 8]]

theorem rowsToBatch_roundTrip_uneven :
    (∃ b, rowsToBatch true 2 [planarRow [1, 2] [3, 4]] = .ok b ∧ b.numRows = 1 ∧
      ∀ i, rowAt ⟨b, i⟩ = [planarRow [1, 2] [3, 4]][i.val]?) ∧
    (rowsToBatch true 2 unevenRows).isOk = true ∧
    ¬ ∃ b, rowsToBatch true 2 unevenRows = .ok b ∧ b.numRows = 2 ∧
      ∀ i, rowAt ⟨b, i⟩ = unevenRows[i.val]? := by
  have heven := rowsToBatch_roundTrip true Nat.two_pos (by decide) [planarRow [1, 2] [3, 4]]
  have huneven := rowsToBatch_roundTrip true Nat.two_pos (by decide) unevenRows
  have hsizes : ¬ ∀ r ∈ unevenRows, r.Sized 2 := by decide
  exact ⟨heven.mp (by decide), by decide, mt huneven.mpr hsizes⟩

end RoundTrip

end Vectorlink
