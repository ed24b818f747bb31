import Mathlib.Algebra.GroupWithZero.Nat
import Mathlib.Data.Finset.Card
import Vectorlink.Layeridx
import Vectorlink.Store.DatasetCache
import Vectorlink.Store.DomainPath

/-! The statistics of the store, from the handles in its cache and the datasets on its disk. -/
namespace Vectorlink

structure Fragment where
  id : ℕ
  physicalRows : Option ℕ
  fastNumDeletions : Except String ℕ

structure IndexSegment where
  name : String
  fragmentBitmap : Option (List ℕ)

/-- An open dataset: its manifest, and what is read through it. -/
structure DatasetHandle where
  fragments : List Fragment
  indices : Except String (List IndexSegment)
  tags : Except String (List CommitId)
  docIds : Except String (List DocId)

def vectorIndexName : String := "embedding_ann"

namespace DatasetHandle

variable (ds : DatasetHandle)

def physicalRows : ℕ := (ds.fragments.map fun frag => frag.physicalRows.getD 0).sum

def deletions : ℕ := (ds.fragments.map fun frag => frag.fastNumDeletions.toOption.getD 0).sum

/-- The fragments that no segment covers, and their rows. -/
def countUncovered (covered : List ℕ) : List Fragment → Except StoreError (ℕ × ℕ)
  | [] => .ok (0, 0)
  | frag :: frags =>
    if 2 ^ 32 ≤ frag.id then .error (.internal s!"fragment id {frag.id} exceeds u32" none)
    else do
      let (count, rows) ← countUncovered covered frags
      if frag.id ∈ covered then .ok (count, rows)
      else .ok (count + 1, rows + frag.physicalRows.getD 0)

def countUnindexedRows : Except StoreError (ℕ × ℕ) := do
  let indices ← ds.indices.mapError fun e => .internal s!"load indices failed: {e}" none
  let vectorSegments := indices.filter fun idx => idx.name = vectorIndexName
  if vectorSegments.isEmpty then .ok (0, 0)
  else countUncovered (vectorSegments.flatMap fun idx => idx.fragmentBitmap.getD []) ds.fragments

/-- What is added to the pending counts: nothing if the count fails. -/
def pending : ℕ × ℕ := ds.countUnindexedRows.toOption.getD (0, 0)

def taggedCommits : ℕ := (ds.tags.toOption.map List.length).getD 0

def countDistinctDocIds : ℕ := (ds.docIds.toOption.map fun ids => ids.dedup.length).getD 0

end DatasetHandle

/-- The directory of the store. The datasets in it were made for domains. -/
structure BaseDir where
  names : List String
  nodup : names.Nodup
  made : ∀ name ∈ names, ∃ d, IsDomain d ∧ datasetDir d = name
  load : String → Except StoreError DatasetHandle

/-- What a process keeps in memory. -/
structure StoreMemory where
  datasets : DatasetCache DatasetHandle
  branchIndexes : AList fun _ : String × BranchName => BranchIndex

def StoreMemory.restart : StoreMemory := ⟨.empty, ∅⟩

structure StoreStatistics where
  domains : ℕ
  branches : ℕ
  indexedCommits : ℕ
  documents : ℕ
  chunks : ℕ
  pendingIndexFragments : ℕ
  pendingIndexDocuments : ℕ
  storeClustering : Option Bool
deriving DecidableEq, Repr

/-- The totals that the datasets are added to. -/
structure Totals where
  indexedCommits : ℕ
  chunks : ℕ
  physical : ℕ
  deleted : ℕ

/-- Live chunks = physical - soft-deleted. -/
def Totals.live (n : Totals) : ℕ := n.chunks + (n.physical - n.deleted)

namespace BaseDir

variable (max : ℕ) (disk : BaseDir)

def pathExists (domain : String) : Bool := datasetDir domain ∈ disk.names

def discovered : List String := discoverOnDiskDatasets disk.names

def ioOpenFresh (domain : String) : Except StoreError DatasetHandle :=
  if disk.pathExists domain then disk.load (datasetDir domain)
  else .error (.internal "dataset open failed" none)

def countDatasetRows (domain : String) : ℕ :=
  match disk.ioOpenFresh domain with
  | .ok ds => ds.physicalRows - ds.deletions
  | .error _ => 0

/-- Never creates a dataset. -/
def ioOpenDatasetReadonly (c : DatasetCache DatasetHandle) (domain : String) :
    Except StoreError (Option DatasetHandle) × DatasetCache DatasetHandle :=
  match c.datasets.lookup domain with
  | some entry => (.ok (some entry.ds), c.touchEntry domain entry)
  | none =>
    if disk.pathExists domain then
      match disk.ioOpenFresh domain with
      | .error e => (.error e, c)
      | .ok ds => ((c.insertCachedDataset max domain ds).map (.ok ∘ some) id)
    else (.ok none, c)

/-- The datasets on disk that the cache did not hold when the count began. -/
def countUncached (cachedDomains : List String) :
    List String → Totals × DatasetCache DatasetHandle → Totals × DatasetCache DatasetHandle
  | [], s => s
  | domain :: onDisk, (n, c) =>
    if domain ∈ cachedDomains then countUncached cachedDomains onDisk (n, c)
    else
      match disk.ioOpenDatasetReadonly max c domain with
      | (.ok (some ds), c) => countUncached cachedDomains onDisk
          ({ n with
            physical := n.physical + ds.physicalRows
            deleted := n.deleted + ds.deletions
            indexedCommits := n.indexedCommits + ds.taggedCommits }, c)
      | (_, c) => countUncached cachedDomains onDisk
          ({ n with chunks := n.chunks + disk.countDatasetRows domain }, c)

def statistics (m : StoreMemory) : StoreStatistics × StoreMemory :=
  let cachedDomains := m.datasets.datasets.keys
  let handles := m.datasets.datasets.entries.map fun e => e.2.ds
  let indexes := m.branchIndexes.entries
  let onDisk := disk.discovered
  let domains := cachedDomains ++ indexes.map (fun e => e.1.1) ++ onDisk
  let totals : Totals := {
    indexedCommits := (indexes.filter fun e => e.2.commit.isSome).length
    chunks := 0
    physical := (handles.map DatasetHandle.physicalRows).sum
    deleted := (handles.map DatasetHandle.deletions).sum }
  let (n, c) := disk.countUncached max cachedDomains onDisk (totals, m.datasets)
  ({
    domains := domains.toFinset.card
    branches := indexes.length
    indexedCommits := n.indexedCommits
    -- the documents would have to be scanned for
    documents := 0
    chunks := n.live
    pendingIndexFragments := (handles.map fun ds => ds.pending.1).sum
    pendingIndexDocuments := (handles.map fun ds => ds.pending.2).sum
    storeClustering := none }, { m with datasets := c })

/-- What is counted from disk if the cache gave no rows. -/
def countOnDisk (c : DatasetCache DatasetHandle) (domain : String) (n : Totals) :
    Totals × DatasetCache DatasetHandle :=
  let commits (ds : DatasetHandle) : ℕ := (ds.tags.toOption.map List.length).getD n.indexedCommits
  if n.physical = 0 ∧ disk.pathExists domain then
    match disk.ioOpenDatasetReadonly max c domain with
    | (.ok (some ds), c) => ({ n with
        physical := n.physical + ds.physicalRows
        deleted := n.deleted + ds.deletions
        indexedCommits := commits ds }, c)
    | (_, c) => ({ n with
        chunks := disk.countDatasetRows domain
        indexedCommits :=
          match disk.ioOpenFresh domain with
          | .ok ds => commits ds
          | .error _ => n.indexedCommits }, c)
  else (n, c)

/-- The documents of a domain, by its cached handle or else a fresh one. -/
def countDocuments (c : DatasetCache DatasetHandle) (domain : String) : ℕ :=
  match c.get domain with
  | some ds => ds.countDistinctDocIds
  | none =>
    match disk.ioOpenFresh domain with
    | .ok ds => ds.countDistinctDocIds
    | .error _ => 0

def statisticsForDomain (storeClustering : String → Bool) (domain : String) (m : StoreMemory) :
    StoreStatistics × StoreMemory :=
  let cached := m.datasets.get domain
  let indexes := m.branchIndexes.entries.filter fun e => e.1.1 = domain
  let totals : Totals := {
    indexedCommits := (indexes.filter fun e => e.2.commit.isSome).length
    chunks := 0
    physical := cached.elim 0 DatasetHandle.physicalRows
    deleted := cached.elim 0 DatasetHandle.deletions }
  let pending := cached.elim (0, 0) DatasetHandle.pending
  let (n, c) := disk.countOnDisk max m.datasets domain totals
  ({
    domains := if cached.isSome ∨ indexes ≠ [] ∨ disk.pathExists domain then 1 else 0
    branches := indexes.length
    indexedCommits := n.indexedCommits
    documents := if 0 < n.live then disk.countDocuments c domain else 0
    chunks := n.live
    pendingIndexFragments := pending.1
    pendingIndexDocuments := pending.2
    storeClustering := some (storeClustering domain) }, { m with datasets := c })

end BaseDir

end Vectorlink
