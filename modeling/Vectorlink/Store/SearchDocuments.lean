import Mathlib.Data.List.Infix
import Vectorlink.Store.Search

/-! The document search in its three modes, up to the page that is served. -/
namespace Vectorlink

variable {V D : Type}

inductive SearchMode where
  | vector
  | fts
  | hybrid
deriving DecidableEq

/-- Whether the distance of a chunk is a raw one of Lance. All chunks of one scan are alike. -/
inductive DistanceKind where
  | rawCosine
  | normalised
deriving DecidableEq

/-- The rank of a document in one leg of a hybrid search and the distance of its chunk. -/
structure LegScore (D : Type) where
  rank : ℕ
  distance : D
deriving DecidableEq

structure DocumentHit (D : Type) extends SearchHit D where
  rrfScore : Option D
  vector : Option (LegScore D)
  fts : Option (LegScore D)
deriving DecidableEq

structure DocumentQuery (V : Type) extends SearchQuery V where
  queryText : String
  mode : SearchMode

/-- The calls of a full-text scan that may fail. -/
inductive FtsCall where
  | setup
  | limit
  | project
  | stream
  | collect
deriving DecidableEq

def FtsCall.failed : FtsCall → String
  | .setup => "FTS search setup failed"
  | .limit => "limit failed"
  | .project => "project failed"
  | .stream => "FTS stream failed"
  | .collect => "FTS collect failed"

/-- With the numbers of the rank fusion and Lance's full-text search, which answers with scores
or with the call that failed and its message. -/
structure SearchEnv (V D : Type) extends RankEnv V D where
  add : D → D → D
  /-- `1.0 / (K + rank + 1.0)`. -/
  rrfTerm : ℕ → D
  fusedDistance : D → D
  /-- `1.0 / (1.0 + score)`. -/
  distanceOfScore : D → D
  fullTextSearch : List (ChunkRow V) → String → ℕ → List String → List DocId →
    Except (FtsCall × String) (List (ChunkRow V × D))

/-- A document of the fusion, with its rank and its best chunk in each leg. -/
structure FusedDoc (D : Type) where
  score : D
  vector : Option (ℕ × ChunkHit D)
  fts : Option (ℕ × ChunkHit D)

def FusedDoc.slot (isVector : Bool) (doc : FusedDoc D) : Option (ℕ × ChunkHit D) :=
  if isVector then doc.vector else doc.fts

def FusedDoc.setSlot (isVector : Bool) (found : ℕ × ChunkHit D) (doc : FusedDoc D) : FusedDoc D :=
  if isVector then { doc with vector := some found } else { doc with fts := some found }

/-- A version without the inverted index has no text matches. -/
def missingFtsIndex (message : String) : Bool :=
  decide ("INVERTED index".toList <:+: message.toList) ||
    decide ("full text search".toList <:+: message.toList)

namespace SearchEnv

variable (env : SearchEnv V D)

def displayDistance (kind : DistanceKind) (hit : ChunkHit D) : D :=
  match kind with
  | .rawCosine => env.normalizedCosineFromLance hit.distance
  | .normalised => hit.distance

/-- `dedup_chunks_to_documents` for chunks of either kind. -/
def dedupDocuments (kind : DistanceKind) (hits : List (ChunkHit D)) (snippet : Bool) :
    List (DocumentHit D) :=
  ((env.bestPerDoc hits).entries.map fun e =>
    ⟨⟨e.2.docId, env.displayDistance kind e.2, env.chunkInfo e.2 snippet⟩, none, none, none⟩).insertionSort
      fun a b => env.nearer a.toSearchHit b.toSearchHit

section Fusion

/-- One leg: the first chunk of a document gives its rank among the documents of the leg. -/
def absorb (isVector : Bool) : (rank : ℕ) → AList (fun _ : DocId => FusedDoc D) →
    List (ChunkHit D) → AList fun _ : DocId => FusedDoc D
  | _, docs, [] => docs
  | rank, docs, hit :: hits =>
    let entry := (docs.lookup hit.docId).getD ⟨env.zero, none, none⟩
    if (FusedDoc.slot isVector entry).isSome then absorb isVector rank docs hits
    else
      let entry := FusedDoc.setSlot isVector (rank, hit)
        { entry with score := env.add entry.score (env.rrfTerm rank) }
      absorb isVector (rank + 1) (docs.insert hit.docId entry) hits

def legScore (kind : DistanceKind) (found : ℕ × ChunkHit D) : LegScore D :=
  ⟨found.1, env.displayDistance kind found.2⟩

/-- A fused document shows its chunk of the vector leg, else that of the text leg. -/
def fusedHit (snippet : Bool) (docId : DocId) (doc : FusedDoc D) : Option (DocumentHit D) :=
  (doc.vector.or doc.fts).map fun rep =>
    { id := docId
      distance := env.fusedDistance doc.score
      chunk := env.chunkInfo rep.2 snippet
      rrfScore := some doc.score
      vector := doc.vector.map (env.legScore .rawCosine)
      fts := doc.fts.map (env.legScore .normalised) }

/-- The higher score first, the document id breaks ties. -/
def better (a b : DocumentHit D) : Bool :=
  ((match b.rrfScore, a.rrfScore with
    | some sb, some sa => env.compare sb sa
    | _, _ => .eq).then (Ord.compare a.id b.id)) != .gt

def rrfFuseDocuments (vectorHits ftsHits : List (ChunkHit D)) (snippet : Bool) :
    List (DocumentHit D) :=
  let docs := env.absorb false 0 (env.absorb true 0 ∅ vectorHits) ftsHits
  (docs.entries.filterMap fun e => env.fusedHit snippet e.1 e.2).insertionSort
    fun a b => env.better a b

end Fusion

/-- As many chunks as for the vector leg. The handlers bound `start` and `count`, so that the
product does not saturate. -/
def ftsSearch (rows : List (ChunkRow V)) (query : DocumentQuery V) :
    Except StoreError (List (ChunkHit D)) :=
  match env.fullTextSearch rows query.queryText ((query.start + query.count) * 3)
      query.docTypeFilter query.docIdFilter with
  | .ok hits => .ok (hits.map fun h => ChunkHit.ofRow h.1 (env.distanceOfScore h.2))
  | .error (call, message) =>
    if (call = .stream ∨ call = .collect) ∧ missingFtsIndex message then .ok []
    else .error (.internal s!"{call.failed}: {message}" none)

def ioSearchDocuments (snapshot : Except StoreError (List (ChunkRow V)))
    (query : DocumentQuery V) : Except StoreError (List (DocumentHit D)) := do
  let rows ← snapshot
  match query.mode with
  | .vector => do
    let hits ← env.searchRows rows query.toSearchQuery
    pure (env.dedupDocuments .rawCosine hits query.snippet)
  | .fts => do
    let hits ← env.ftsSearch rows query
    pure (env.dedupDocuments .normalised hits query.snippet)
  | .hybrid => do
    let vectorHits ← env.searchRows rows query.toSearchQuery
    let ftsHits ← env.ftsSearch rows query
    pure (env.rrfFuseDocuments vectorHits ftsHits query.snippet)

/-- `search_with_options` from the snapshot of the served commit and the embedded query on. -/
def searchWithOptions (snapshot : Except StoreError (List (ChunkRow V)))
    (query : DocumentQuery V) : Except StoreError (List (DocumentHit D)) :=
  (env.ioSearchDocuments snapshot query).map fun results =>
    (results.drop query.start).take query.count

end SearchEnv

end Vectorlink
