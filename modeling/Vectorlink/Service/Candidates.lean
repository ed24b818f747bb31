import Vectorlink.Ranking.Least
import Vectorlink.Service.Similar
import Vectorlink.Store.CrossAnn
import Vectorlink.Store.DuplicateScope

/-! The candidates of a set and a target for each other, with the distances of their clustering
vectors. -/
namespace Vectorlink

open Stepwise Ranking

variable {F R D : Type}

def defaultDuplicateMaxPoints : ℕ := 50000

section Fetch

variable {V : Type}

/-- A column of the lowest chunk of each document that passes the filter. -/
def ioFetchResultEmbeddings (rows : List (ChunkRow V)) (docIds : List DocId)
    (docTypes : List String) (column : ChunkRow V → V) : DocId → Option V :=
  let bestPerDoc := leastPerKey (fun r => r.docId) (fun r : ChunkRow V => r.chunkIndex.toInt)
    (scanRows (buildFilterExpr docTypes docIds) rows)
  fun id => (bestPerDoc.lookup id).map column

/-- The texts of a document's chunks, joined in the order of the chunks. -/
def ioFetchDocContents (rows : List (ChunkRow V)) (docIds : List DocId) : DocId → Option String :=
  if docIds.isEmpty then fun _ => none
  else fun id =>
    let chunks := (scanRows (buildFilterExpr [] docIds) rows).filter fun r => r.docId = id
    if chunks.isEmpty then none
    else some (String.intercalate " "
      ((chunks.insertionSort fun r r' => r.chunkIndex.toInt ≤ r'.chunkIndex.toInt).map
        fun r => r.content))

end Fetch

section Distance

variable [CommMagma F] [Add F] [Zero F] [One F] [Sub F] [Max F]

def dotProduct (u v : List F) : F := (List.zipWith (· * ·) u v).foldl (· + ·) 0

/-- `(1.0 - dot).max(0.0)`. -/
def clusteringDistance (u v : List F) : F := max (1 - dotProduct u v) 0

end Distance

structure ResolveNeighbourMaps (D : Type) where
  setToTarget : NeighbourMap D
  targetToSet : NeighbourMap D

structure CandidateEntry (F D : Type) where
  id : DocId
  distance : D
  clusteringDistance : Option F
  embedding : Option (List F)
  content : Option String

abbrev CandidateMap (F D : Type) := DocId → Option (List (CandidateEntry F D))

structure CandidatesStats where
  setPoints : ℕ
  targetPoints : ℕ
  setToTargetEdges : ℕ
  targetToSetEdges : ℕ
  storeClustering : Bool

structure CandidatesResult (F D : Type) where
  setToTarget : CandidateMap F D
  targetToSet : CandidateMap F D
  stats : CandidatesStats

structure CandidatesRequest (D : Type) where
  scope : DuplicateScope
  k : ℕ
  thresholdSet : D
  thresholdTarget : D
  includeEmbeddings : Bool
  includeContent : Bool
  ancestors : List CommitId

/-- The reads of the snapshot, each of which may fail. -/
inductive CandidatesRead where
  | points
  | setToTarget
  | targetToSet
  | embeddings
  | contents
  | clustering
deriving DecidableEq, Repr

variable [LinearOrder R] [LinearOrder D]

/-- What the request meets besides the store. -/
structure CandidatesEnv (F R D : Type) [LinearOrder R] [LinearOrder D] where
  searchReady : Bool
  storeClustering : Bool
  cosineDistance : List F → List F → R
  normalizedCosineFromLance : R → D
  mono : Monotone normalizedCosineFromLance
  nearest : NearestScan (List F) R
  fails : CandidatesRead → Option StoreError
  orderSet : ℕ → HashOrder (Neighbour DocId D)
  orderTarget : ℕ → HashOrder (Neighbour DocId D)

namespace CandidatesEnv

variable (env : CandidatesEnv F R D) (req : CandidatesRequest D)

def query (threshold : D) : AnnQuery (List F) R D where
  cosineDistance := env.cosineDistance
  normalizedCosineFromLance := env.normalizedCosineFromLance
  mono := env.mono
  k := req.k
  threshold := threshold

/-- What a read gives that does not fail. -/
def read {α : Type} (r : CandidatesRead) (a : α) : Except StoreError α :=
  match env.fails r with
  | some e => .error e
  | none => .ok a

end CandidatesEnv

section Points

variable (scope : DuplicateScope) (rows : List (ChunkRow (List F)))

def scopePoints (docTypes : List String) (docIds : List DocId) : List (IndexedPoint (List F)) :=
  (ioScanPoints rows (buildFilterExpr docTypes docIds) false).map SnippetPoint.toIndexedPoint

def setPoints : List (IndexedPoint (List F)) := scopePoints rows scope.setDocTypes scope.setDocIds

/-- Without a target the set is compared with itself. -/
def targetPoints : List (IndexedPoint (List F)) :=
  if scope.hasTarget then scopePoints rows scope.targetDocTypes scope.targetDocIds
  else setPoints scope rows

def pointDocIds (points : List (IndexedPoint (List F))) : List DocId :=
  (points.map fun p => p.docId).dedup

end Points

namespace CandidatesEnv

variable (env : CandidatesEnv F R D) (req : CandidatesRequest D) (rows : List (ChunkRow (List F)))

def ioResolveCrossNeighbours (maxPoints : ℕ) : Except StoreError (ResolveNeighbourMaps D) := do
  env.read .points ()
  let set := setPoints req.scope rows
  let target := targetPoints req.scope rows
  let totalPoints := set.length + target.length
  if totalPoints > maxPoints then
    .error (.internal s!"resolve refused: combined population has {totalPoints} points (set={set.length}, target={target.length}), exceeds the bound of {maxPoints} — narrow the scope" none)
  else do
    let setToTarget ← (env.query req req.thresholdSet).ioCollectTopKCross env.orderSet
      (env.read .setToTarget rows) env.nearest set (pointDocIds target)
    let targetToSet ← (env.query req req.thresholdTarget).ioCollectTopKCross env.orderTarget
      (env.read .targetToSet rows) env.nearest target (pointDocIds set)
    pure ⟨setToTarget, targetToSet⟩

end CandidatesEnv

section Maps

variable (rows : List (ChunkRow (List F))) (maps : ResolveNeighbourMaps D)

/-- The keys of a map, which are documents of the snapshot. -/
def mapKeys (m : NeighbourMap D) : List DocId :=
  ((rows.map fun r => r.docId).dedup).filter fun id => (m id).isSome

def neighbourIds (m : NeighbourMap D) : List DocId :=
  (mapKeys rows m).flatMap fun id => ids (m.listed id)

/-- The documents to fetch for the flags; as a set, the order does not matter. -/
def allDocIds (includeAny : Bool) : List DocId :=
  if includeAny then
    neighbourIds rows maps.setToTarget ++ mapKeys rows maps.setToTarget ++
      neighbourIds rows maps.targetToSet ++ mapKeys rows maps.targetToSet
  else []

/-- The documents whose clustering vectors are fetched. -/
def clusteringDocIds (includeAny : Bool) : List DocId :=
  allDocIds rows maps includeAny ++ mapKeys rows maps.setToTarget ++ mapKeys rows maps.targetToSet

def edges (m : NeighbourMap D) : ℕ :=
  ((mapKeys rows m).map fun id => (m.listed id).length).sum

end Maps

namespace CandidatesEnv

variable [CommMagma F] [Add F] [Zero F] [One F] [Sub F] [Max F]

variable (env : CandidatesEnv F R D) (req : CandidatesRequest D) (rows : List (ChunkRow (List F)))

/-- The entry of a neighbour, from what was fetched. -/
def convert (clustering embeddings : DocId → Option (List F)) (contents : DocId → Option String)
    (srcId : DocId) (n : Neighbour DocId D) : CandidateEntry F D where
  id := n.id
  distance := n.distance
  clusteringDistance :=
    if env.storeClustering then
      match clustering srcId, clustering n.id with
      | some src, some nbr => some (clusteringDistance src nbr)
      | _, _ => none
    else none
  embedding := if req.includeEmbeddings then embeddings n.id else none
  content := if req.includeContent then contents n.id else none

def gather : Except StoreError (CandidatesResult F D) := do
  let maps ← env.ioResolveCrossNeighbours req rows defaultDuplicateMaxPoints
  let docIds := allDocIds rows maps (req.includeEmbeddings || req.includeContent)
  let embeddings ← (
    if req.includeEmbeddings then
      env.read .embeddings (ioFetchResultEmbeddings rows docIds [] fun r => r.embedding)
    else .ok fun _ => none)
  let contents ← (
    if req.includeContent then env.read .contents (ioFetchDocContents rows docIds)
    else .ok fun _ => none)
  let clustering ← (
    if env.storeClustering then
      env.read .clustering (ioFetchResultEmbeddings rows
        (clusteringDocIds rows maps (req.includeEmbeddings || req.includeContent)) []
        fun r => r.clusteringEmbedding)
    else .ok fun _ => none)
  let entries (m : NeighbourMap D) : CandidateMap F D := fun id =>
    (m id).map fun nbrs => nbrs.map (env.convert req clustering embeddings contents id)
  .ok {
    setToTarget := entries maps.setToTarget
    targetToSet := entries maps.targetToSet
    stats := {
      setPoints := (mapKeys rows maps.setToTarget).length
      targetPoints := (mapKeys rows maps.targetToSet).length
      setToTargetEdges := edges rows maps.setToTarget
      targetToSetEdges := edges rows maps.targetToSet
      storeClustering := env.storeClustering } }

def candidatesGather (d : Domain (List F)) (branch : BranchName) (commit : CommitId) :
    Except ServiceError (CandidatesResult F D) :=
  if !env.searchReady then
    .error (.unavailable "search capability not ready (embedding backend cold)")
  else
    match (resolveSearchableCommit branch commit req.ancestors
        (d.branchIndexes.lookup branch)).runAt d.opened with
    | .error e => .error e
    | .ok servedCommit =>
      match (ioSnapshotFromCache servedCommit).runAt d.opened with
      | .error e => .error (.internal e.text)
      | .ok rows => (env.gather req rows).mapError fun e => .internal e.text

end CandidatesEnv

end Vectorlink
