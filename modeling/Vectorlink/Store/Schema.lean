import Vectorlink.Kernel

/-! The rows of a Lance dataset and the names of its branches. -/
namespace Vectorlink

/-- One embedded chunk of a document. The vector type is left open: no modelled
function looks inside an embedding. -/
structure ChunkRow (V : Type) where
  docId : DocId
  docType : String
  chunkIndex : Int32
  chunkCount : Int32
  chunkTokenStart : Int32
  docTokenLen : Int32
  embedding : V
  clusteringEmbedding : V
  content : String
deriving DecidableEq, Repr

/-- The order in which a hash map is iterated. -/
structure HashOrder (α : Type) where
  run : List α → List α
  perm : ∀ l, (run l).Perm l

/-- The order in which the entries were listed. -/
def HashOrder.listed {α : Type} : HashOrder α := ⟨id, List.Perm.refl⟩

def mainBranch : BranchName := "main"

def compactRebuildPrefix : String := ".-compact_rebuild_"

def compactRebuildBranchName (epoch : ℕ) : BranchName := compactRebuildPrefix ++ toString epoch

def isCompactRebuildBranch (name : BranchName) : Bool :=
  compactRebuildPrefix.toList.isPrefixOf name.toList

theorem isCompactRebuildBranch_compactRebuildBranchName (epoch : ℕ) :
    isCompactRebuildBranch (compactRebuildBranchName epoch) := by
  simp [isCompactRebuildBranch, compactRebuildBranchName]

/-- The branch a Lance tag records: the default branch has no name there. -/
def wantBranch (branch : BranchName) : Option BranchName :=
  if branch = mainBranch then none else some branch

section Rows

variable {V : Type}

/-- `DELETE WHERE doc_id IN (ids)`. -/
def deleteDocs (ids : List DocId) (rows : List (ChunkRow V)) : List (ChunkRow V) :=
  rows.filter fun r => r.docId ∉ ids

/-- The rows of one document. -/
def docRows (id : DocId) (rows : List (ChunkRow V)) : List (ChunkRow V) :=
  rows.filter fun r => r.docId = id

@[simp] theorem deleteDocs_nil (rows : List (ChunkRow V)) : deleteDocs [] rows = rows := by
  simp [deleteDocs]

@[simp] theorem docRows_append (id : DocId) (xs ys : List (ChunkRow V)) :
    docRows id (xs ++ ys) = docRows id xs ++ docRows id ys := by
  simp [docRows]

theorem docRows_deleteDocs (id : DocId) (ids : List DocId) (rows : List (ChunkRow V)) :
    docRows id (deleteDocs ids rows) = if id ∈ ids then [] else docRows id rows := by
  unfold docRows deleteDocs
  rw [List.filter_filter]
  split
  · rename_i h
    refine List.filter_eq_nil_iff.mpr fun r _ => ?_
    simp only [Bool.and_eq_true, decide_eq_true_eq, not_and, not_not]
    rintro rfl
    exact h
  · rename_i h
    refine List.filter_congr fun r _ => ?_
    by_cases hr : r.docId = id
    · simp [hr, h]
    · simp [hr]

theorem docRows_ne_nil {id : DocId} {rows : List (ChunkRow V)} :
    docRows id rows ≠ [] ↔ ∃ r ∈ rows, r.docId = id := by
  simp [docRows, List.filter_eq_nil_iff]

variable [DecidableEq V]

/-- Two row multisets agree when they agree document by document. -/
theorem perm_iff_docRows {xs ys : List (ChunkRow V)} :
    xs.Perm ys ↔ ∀ id, (docRows id xs).Perm (docRows id ys) := by
  refine ⟨fun h id => h.filter _, fun h => List.perm_iff_count.mpr fun r => ?_⟩
  have hr := (h r.docId).count_eq r
  rwa [docRows, docRows, List.count_filter (by simp), List.count_filter (by simp)] at hr

end Rows

end Vectorlink
