import Mathlib.Data.Finset.Basic
import Mathlib.Data.List.AList
import Mathlib.Data.List.Sort
import Vectorlink.Store.Schema
import Vectorlink.Versioned.Lineage

/-! The delta between two snapshots and its replay on a rebuild branch. -/
namespace Vectorlink

open Versioned

variable {V : Type}

/-- Rows to append for added and changed documents, ids of removed documents. -/
structure VersionDelta (V : Type) where
  rowsToAppend : List (ChunkRow V)
  docIdsToDelete : List DocId
deriving DecidableEq, Repr

abbrev DocContents := AList fun _ : DocId => Finset (Int32 × String)

/-- Document id to its set of (chunk index, content) pairs. -/
def scanDocIdContent (rows : List (ChunkRow V)) : DocContents :=
  rows.foldl
    (fun out r =>
      out.insert r.docId (insert (r.chunkIndex, r.content) ((out.lookup r.docId).getD ∅))) ∅

def chunkRowLe (a b : ChunkRow V) : Bool :=
  decide (a.docId < b.docId) || (a.docId == b.docId && decide (a.chunkIndex ≤ b.chunkIndex))

/-- The full rows of the given documents, sorted by document and chunk. -/
def scanFullRows (rows : List (ChunkRow V)) (docIds : List DocId) : List (ChunkRow V) :=
  (rows.filter fun r => r.docId ∈ docIds).insertionSort fun a b => chunkRowLe a b

def computeDeltaFromScans (docsA docsB : DocContents) (dsB : List (ChunkRow V)) :
    VersionDelta V :=
  let added := docsB.keys.filter (· ∉ docsA.keys)
  let removed := docsA.keys.filter (· ∉ docsB.keys)
  let common := docsA.keys.filter (· ∈ docsB.keys)
  let changed := common.filter fun id => docsA.lookup id ≠ docsB.lookup id
  let docsToRead := added ++ changed
  { rowsToAppend := if docsToRead.isEmpty then [] else scanFullRows dsB docsToRead
    docIdsToDelete := removed }

/-- The delta that the two scans of a pair of snapshots give. -/
def computeDelta (a b : List (ChunkRow V)) : VersionDelta V :=
  computeDeltaFromScans (scanDocIdContent a) (scanDocIdContent b) b

/-- One new version of a branch, with the context of the error when Lance refuses it. -/
structure BranchWrite (ρ : Type) where
  context : String
  apply : List ρ → List ρ

/-- The writes of `io_apply_delta_on_branch`: removed documents are deleted, then the rows
are appended. Empty phases write nothing. -/
def applyDeltaWrites (delta : VersionDelta V) : List (BranchWrite (ChunkRow V)) :=
  (if delta.docIdsToDelete.isEmpty then []
   else [⟨"delta delete failed", deleteDocs delta.docIdsToDelete⟩]) ++
  (if delta.rowsToAppend.isEmpty then []
   else [⟨"delta append failed", (· ++ delta.rowsToAppend)⟩])

/-- The branch after the writes; its head is the version returned. -/
def ioApplyDeltaOnBranch (ds : Lineage (ChunkRow V)) (delta : VersionDelta V) :
    Lineage (ChunkRow V) :=
  (applyDeltaWrites delta).foldl (fun l write => l.advance (write.apply l.headRows)) ds

section Scans

theorem mem_scanDocIdContent_aux (rows : List (ChunkRow V)) (out : DocContents) (id : DocId) :
    id ∈ rows.foldl
      (fun out r =>
        out.insert r.docId (insert (r.chunkIndex, r.content) ((out.lookup r.docId).getD ∅))) out ↔
      id ∈ out ∨ ∃ r ∈ rows, r.docId = id := by
  induction rows generalizing out with
  | nil => simp
  | cons r rows ih =>
    rw [List.foldl_cons, ih]
    simp only [AList.mem_insert, List.mem_cons, exists_eq_or_imp]
    constructor
    · rintro ((rfl | h) | h)
      · exact .inr (.inl rfl)
      · exact .inl h
      · exact .inr (.inr h)
    · rintro (h | rfl | h)
      · exact .inl (.inr h)
      · exact .inl (.inl rfl)
      · exact .inr h

/-- The scan has an entry for exactly the documents with rows. -/
theorem mem_scanDocIdContent {rows : List (ChunkRow V)} {id : DocId} :
    id ∈ scanDocIdContent rows ↔ ∃ r ∈ rows, r.docId = id := by
  simp [scanDocIdContent, mem_scanDocIdContent_aux]

theorem lookup_scanDocIdContent_aux (rows : List (ChunkRow V)) (out : DocContents) (id : DocId) :
    ((rows.foldl
      (fun out r =>
        out.insert r.docId (insert (r.chunkIndex, r.content) ((out.lookup r.docId).getD ∅)))
        out).lookup id).getD ∅ =
      (out.lookup id).getD ∅ ∪ ((docRows id rows).map fun r => (r.chunkIndex, r.content)).toFinset := by
  induction rows generalizing out with
  | nil => simp [docRows]
  | cons r rows ih =>
    rw [List.foldl_cons, ih]
    by_cases hr : r.docId = id
    · subst hr
      ext x
      simp only [AList.lookup_insert, docRows, Option.getD_some, decide_true, List.filter_cons,
        if_true, List.map_cons, List.toFinset_cons, Finset.mem_union, Finset.mem_insert]
      exact or_assoc.trans or_left_comm
    · rw [AList.lookup_insert_ne (Ne.symm hr)]
      simp [docRows, hr]

/-- What the scan records about a document depends on its rows alone. -/
theorem lookup_scanDocIdContent (rows : List (ChunkRow V)) (id : DocId) :
    ((scanDocIdContent rows).lookup id).getD ∅ =
      ((docRows id rows).map fun r => (r.chunkIndex, r.content)).toFinset := by
  simp [scanDocIdContent, lookup_scanDocIdContent_aux]

theorem lookup_scanDocIdContent_congr {a b : List (ChunkRow V)} {id : DocId}
    (ha : id ∈ scanDocIdContent a) (hb : id ∈ scanDocIdContent b)
    (h : (docRows id a).Perm (docRows id b)) :
    (scanDocIdContent a).lookup id = (scanDocIdContent b).lookup id := by
  obtain ⟨x, hx⟩ := Option.isSome_iff_exists.mp (AList.lookup_isSome.mpr ha)
  obtain ⟨y, hy⟩ := Option.isSome_iff_exists.mp (AList.lookup_isSome.mpr hb)
  have hxy := lookup_scanDocIdContent a id
  rw [List.toFinset_eq_of_perm _ _ (h.map _), ← lookup_scanDocIdContent b id, hx, hy] at hxy
  rw [hx, hy]
  simpa using hxy

end Scans

section Replay

variable (a b : List (ChunkRow V))

theorem mem_docIdsToDelete {id : DocId} :
    id ∈ (computeDelta a b).docIdsToDelete ↔
      (∃ r ∈ a, r.docId = id) ∧ ¬ ∃ r ∈ b, r.docId = id := by
  simp only [computeDelta, computeDeltaFromScans, List.mem_filter, decide_eq_true_eq,
    ← AList.mem_keys, mem_scanDocIdContent]

theorem docRows_scanFullRows (rows : List (ChunkRow V)) (docIds : List DocId) (id : DocId) :
    (docRows id (scanFullRows rows docIds)).Perm
      (if id ∈ docIds then docRows id rows else []) := by
  refine ((List.perm_insertionSort _ _).filter _).trans (List.Perm.of_eq ?_)
  rw [List.filter_filter]
  split
  · rename_i h
    refine List.filter_congr fun r _ => ?_
    by_cases hr : r.docId = id
    · simp [hr, h]
    · simp [hr]
  · rename_i h
    refine List.filter_eq_nil_iff.mpr fun r _ => ?_
    simp only [Bool.and_eq_true, decide_eq_true_eq, not_and]
    rintro rfl
    exact h

/-- The documents whose rows the delta reads from the newer snapshot: the added ones, and
those of both snapshots that the scans see as changed. -/
def docsToRead : List DocId :=
  (scanDocIdContent b).keys.filter (· ∉ (scanDocIdContent a).keys) ++
    ((scanDocIdContent a).keys.filter (· ∈ (scanDocIdContent b).keys)).filter fun id =>
      (scanDocIdContent a).lookup id ≠ (scanDocIdContent b).lookup id

theorem mem_docsToRead {id : DocId} :
    id ∈ docsToRead a b ↔ (∃ r ∈ b, r.docId = id) ∧ ((∃ r ∈ a, r.docId = id) →
      (scanDocIdContent a).lookup id ≠ (scanDocIdContent b).lookup id) := by
  simp only [docsToRead, List.mem_append, List.mem_filter, ← AList.mem_keys,
    mem_scanDocIdContent, decide_eq_true_eq]
  by_cases ha : ∃ r ∈ a, r.docId = id
  · simp only [ha, not_true_eq_false, and_false, false_or, true_and, true_imp_iff]
  · simp only [ha, not_false_eq_true, and_true, false_and, or_false, false_imp_iff]

theorem docRows_rowsToAppend (id : DocId) :
    (docRows id (computeDelta a b).rowsToAppend).Perm
      (if id ∈ docsToRead a b then docRows id b else []) := by
  change (docRows id (if (docsToRead a b).isEmpty then [] else scanFullRows b _)).Perm _
  split
  · rename_i h
    rw [List.isEmpty_iff.mp h]
    simp [docRows]
  · exact docRows_scanFullRows b _ id

theorem ioApplyDeltaOnBranch_headRows (ds : Lineage (ChunkRow V)) (delta : VersionDelta V) :
    (ioApplyDeltaOnBranch ds delta).headRows =
      deleteDocs delta.docIdsToDelete ds.headRows ++ delta.rowsToAppend := by
  unfold ioApplyDeltaOnBranch applyDeltaWrites
  by_cases hd : delta.docIdsToDelete = [] <;> by_cases hr : delta.rowsToAppend = [] <;>
    simp [hd, hr, List.isEmpty_iff]

/-- The replayed rows of one document, class by class. -/
theorem docRows_replay {ds : Lineage (ChunkRow V)} (hds : ds.headRows.Perm a) (id : DocId) :
    (docRows id (ioApplyDeltaOnBranch ds (computeDelta a b)).headRows).Perm
      (if id ∈ (computeDelta a b).docIdsToDelete then []
       else if id ∈ docsToRead a b then docRows id a ++ docRows id b
       else docRows id a) := by
  rw [ioApplyDeltaOnBranch_headRows, docRows_append, docRows_deleteDocs]
  have happ := docRows_rowsToAppend a b id
  have hold : (docRows id ds.headRows).Perm (docRows id a) := hds.filter _
  by_cases hd : id ∈ (computeDelta a b).docIdsToDelete
  · have hread : id ∉ docsToRead a b := fun h =>
      ((mem_docIdsToDelete a b).mp hd).2 ((mem_docsToRead a b).mp h).1
    simpa [hd, hread] using happ
  · rw [if_neg hd, if_neg hd]
    split
    · rename_i hread
      rw [if_pos hread] at happ
      exact hold.append happ
    · rename_i hread
      rw [if_neg hread] at happ
      simpa using hold.append happ

theorem docRows_eq_nil_of_not {id : DocId} {rows : List (ChunkRow V)}
    (h : ¬ ∃ r ∈ rows, r.docId = id) : docRows id rows = [] := by
  by_contra hne
  exact h (docRows_ne_nil.mp hne)

/-- Pushes key the rows of a snapshot by document and chunk. -/
def KeyedRows (rows : List (ChunkRow V)) : Prop :=
  (rows.map fun r => (r.docId, r.chunkIndex)).Nodup

/-- Replaying the delta is exact precisely when no document that both snapshots hold has
other rows in the second: the rows of a changed document are appended to its old ones. -/
theorem ioApplyDeltaOnBranch_exact_iff [DecidableEq V] {ds : Lineage (ChunkRow V)}
    (hds : ds.headRows.Perm a) :
    (ioApplyDeltaOnBranch ds (computeDelta a b)).headRows.Perm b ↔
      ∀ id, (∃ r ∈ a, r.docId = id) → (∃ r ∈ b, r.docId = id) →
        (docRows id a).Perm (docRows id b) := by
  rw [perm_iff_docRows]
  refine forall_congr' fun id => ?_
  have hrep := docRows_replay a b hds id
  rw [hrep.congr_left]
  by_cases ha : ∃ r ∈ a, r.docId = id
  · by_cases hb : ∃ r ∈ b, r.docId = id
    · have hd : id ∉ (computeDelta a b).docIdsToDelete := fun h =>
        ((mem_docIdsToDelete a b).mp h).2 hb
      rw [if_neg hd]
      split
      · rename_i hread
        constructor
        · intro h _ _
          have hlen := h.length_eq
          have hne := List.length_pos_of_ne_nil (docRows_ne_nil.mpr ha)
          rw [List.length_append] at hlen
          omega
        · intro h
          exact absurd (lookup_scanDocIdContent_congr (mem_scanDocIdContent.mpr ha)
            (mem_scanDocIdContent.mpr hb) (h ha hb)) (((mem_docsToRead a b).mp hread).2 ha)
      · exact ⟨fun h _ _ => h, fun h => h ha hb⟩
    · have hd : id ∈ (computeDelta a b).docIdsToDelete := (mem_docIdsToDelete a b).mpr ⟨ha, hb⟩
      rw [if_pos hd, docRows_eq_nil_of_not hb]
      simp [hb]
  · have hd : id ∉ (computeDelta a b).docIdsToDelete := fun h =>
      ha ((mem_docIdsToDelete a b).mp h).1
    rw [if_neg hd, docRows_eq_nil_of_not ha]
    by_cases hb : ∃ r ∈ b, r.docId = id
    · have hread : id ∈ docsToRead a b := (mem_docsToRead a b).mpr ⟨hb, fun h => absurd h ha⟩
      simp [hread, ha]
    · have hread : id ∉ docsToRead a b := fun h => hb ((mem_docsToRead a b).mp h).1
      simp [hread, ha, docRows_eq_nil_of_not hb]

end Replay

/-- A document of one chunk, as a push of `content` writes it. -/
def oneChunk (id : DocId) (content : String) : ChunkRow Unit :=
  ⟨id, "Document", 0, 1, 0, 1, (), (), content⟩

theorem ioApplyDeltaOnBranch_exact_add_remove :
    (ioApplyDeltaOnBranch (.start 1 [oneChunk "gone" "x", oneChunk "kept" "y"])
      (computeDelta [oneChunk "gone" "x", oneChunk "kept" "y"]
        [oneChunk "kept" "y", oneChunk "new" "z"])).headRows.Perm
      [oneChunk "kept" "y", oneChunk "new" "z"] := by
  refine (ioApplyDeltaOnBranch_exact_iff [oneChunk "gone" "x", oneChunk "kept" "y"] _
    (List.Perm.refl _)).mpr ?_
  intro id ha hb
  simp only [List.mem_cons, List.not_mem_nil, or_false, exists_eq_or_imp, exists_eq_left] at ha hb
  rcases ha with rfl | rfl
  · exact absurd hb (by decide)
  · exact List.Perm.refl _

/-- A document whose only chunk was edited comes out of the replay twice. -/
theorem ioApplyDeltaOnBranch_not_exact :
    ¬ ∀ (a b : List (ChunkRow Unit)) (ds : Lineage (ChunkRow Unit)), KeyedRows a → KeyedRows b →
      ds.headRows.Perm a → (ioApplyDeltaOnBranch ds (computeDelta a b)).headRows.Perm b := by
  intro h
  have hdup := h [oneChunk "d" "old"] [oneChunk "d" "new"] (.start 1 [oneChunk "d" "old"])
    (by simp [KeyedRows]) (by simp [KeyedRows]) (List.Perm.refl _)
  have hlen := hdup.length_eq
  revert hlen
  rw [ioApplyDeltaOnBranch_headRows]
  decide

end Vectorlink
