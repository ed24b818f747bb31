import Vectorlink.Store.Domain

/-! Ranked hits and the reads behind them. Numbers of a ranking stay abstract: the code only
compares them and passes them on. -/
namespace Vectorlink

open Versioned

variable {V D : Type}

/-- The distances of a ranking and Lance's search over one version of a dataset. -/
structure RankEnv (V D : Type) where
  zero : D
  lt : D → D → Bool
  /-- `partial_cmp(..).unwrap_or(Equal)`. -/
  compare : D → D → Ordering
  normalizedCosineFromLance : D → D
  quotient : UInt32 → UInt32 → D
  vectorSearch : List (ChunkRow V) → V → ℕ → List String → List DocId →
    Except StoreError (List (ChunkRow V × D))
  vectorsEqual : V → V → Bool

/-- A chunk that a vector search found, with its raw cosine distance. -/
structure ChunkHit (D : Type) where
  docId : DocId
  distance : D
  chunkIndex : Int32
  chunkCount : Int32
  chunkTokenStart : Int32
  docTokenLen : Int32
  content : String

structure ChunkInfo (D : Type) where
  index : UInt32
  count : UInt32
  tokenStart : UInt32
  docTokenLen : UInt32
  location : D
  snippet : Option String
deriving DecidableEq

structure SearchHit (D : Type) where
  id : DocId
  distance : D
  chunk : ChunkInfo D
deriving DecidableEq

/-- A query of mode `Vector`. -/
structure SearchQuery (V : Type) where
  queryEmbedding : V
  start : ℕ
  count : ℕ
  docTypeFilter : List String
  docIdFilter : List DocId
  snippet : Bool

def ChunkHit.ofRow (row : ChunkRow V) (distance : D) : ChunkHit D :=
  ⟨row.docId, distance, row.chunkIndex, row.chunkCount, row.chunkTokenStart, row.docTokenLen,
    row.content⟩

namespace RankEnv

variable (env : RankEnv V D)

def chunkLocation (tokenStart docTokenLen : UInt32) : D :=
  if docTokenLen = 0 then env.zero else env.quotient tokenStart docTokenLen

def chunkInfo (hit : ChunkHit D) (snippet : Bool) : ChunkInfo D where
  index := hit.chunkIndex.toUInt32
  count := hit.chunkCount.toUInt32
  tokenStart := hit.chunkTokenStart.toUInt32
  docTokenLen := hit.docTokenLen.toUInt32
  location := env.chunkLocation hit.chunkTokenStart.toUInt32 hit.docTokenLen.toUInt32
  snippet := if snippet then some hit.content else none

/-- The nearest chunk of each document: a later chunk has to be strictly nearer. -/
def bestPerDoc (hits : List (ChunkHit D)) : AList fun _ : DocId => ChunkHit D :=
  hits.foldl (fun best hit =>
    match best.lookup hit.docId with
    | none => best.insert hit.docId hit
    | some kept => if env.lt hit.distance kept.distance then best.insert hit.docId hit else best) ∅

/-- Nearest first, the document id breaks ties. -/
def nearer (a b : SearchHit D) : Bool :=
  ((env.compare a.distance b.distance).then (Ord.compare a.id b.id)) != .gt

def dedupChunksToDocuments (hits : List (ChunkHit D)) (snippet : Bool) : List (SearchHit D) :=
  ((env.bestPerDoc hits).entries.map fun e =>
    ⟨e.2.docId, env.normalizedCosineFromLance e.2.distance, env.chunkInfo e.2 snippet⟩).insertionSort
      fun a b => env.nearer a b

/-- More chunks are asked for than hits, as a document may have several. -/
def searchRows (rows : List (ChunkRow V)) (query : SearchQuery V) :
    Except StoreError (List (ChunkHit D)) :=
  (env.vectorSearch rows query.queryEmbedding ((query.start + query.count) * 3)
    query.docTypeFilter query.docIdFilter).map fun hits => hits.map fun h => ChunkHit.ofRow h.1 h.2

end RankEnv

/-- For each of the documents the embedding of its lowest chunk. -/
def fetchResultEmbeddings (rows : List (ChunkRow V)) (docIds : List DocId) :
    AList fun _ : DocId => Int32 × V :=
  (rows.filter fun r => r.docId ∈ docIds).foldl (fun best r =>
    match best.lookup r.docId with
    | none => best.insert r.docId (r.chunkIndex, r.embedding)
    | some kept =>
      if r.chunkIndex < kept.1 then best.insert r.docId (r.chunkIndex, r.embedding) else best) ∅

/-- The rows behind the handle of a branch: for the default branch the handle is cached, for
the others it is checked out anew. -/
def Domain.handleRows (d : Domain V) (branch : BranchName) :
    Except StoreError (List (ChunkRow V)) :=
  if branch = mainBranch then
    match d.opened.main.rows (d.cached.getD d.opened.main.head) with
    | some rows => .ok rows
    | none => .error (.internal "lookup stream failed" (some .io))
  else
    match d.opened.lineage? (wantBranch branch) with
    | some l => .ok l.headRows
    | none => .error (.internal s!"lookup checkout '{branch}' failed" (some .branchNotFound))

/-- The chunks of a document, by branch: no commit is named. -/
def ioLookupDocChunks (d : Domain V) (branch : BranchName) (docId : DocId) :
    Except StoreError (List (ChunkRow V)) :=
  match d.dataset with
  | none => .ok []
  | some _ => (d.handleRows branch).map (docRows docId)

end Vectorlink
