import Mathlib.Data.Prod.Lex
import Mathlib.Data.String.Basic
import Vectorlink.Ranking.Least
import Vectorlink.Store.CrossNeighbours

/-! Entity resolution: the records of a set matched with those of a target by the neighbours that
each side has on the other. -/
namespace Vectorlink

open Ranking

/-- A map from records to their neighbours, its entries in the order of its iteration. -/
abbrev Neighbours (D : Type) := AList fun _ : DocId => List (Neighbour DocId D)

structure Edge (D : Type) where
  setId : DocId
  targetId : DocId
  distance : D
deriving DecidableEq

inductive MatchStage where
  | core
  | setExtra
  | targetExtra
deriving DecidableEq

structure ResolvedMatch (D : Type) extends Edge D where
  stage : MatchStage
deriving DecidableEq

structure ResolveOptions (D : Type) where
  k : ℕ
  threshold : D
  tauOneToOne : D
  tauOneToMany : Option D
  tauManyToOne : Option D

structure ResolveStats (D : Type) where
  k : ℕ
  threshold : D
  tauOneToOne : D
  tauOneToMany : Option D
  tauManyToOne : Option D
  edgeCount : ℕ
  coreCount : ℕ
  setExtraCount : ℕ
  targetExtraCount : ℕ
  matchedCount : ℕ
  setOnlyCount : ℕ
  targetOnlyCount : ℕ
  setPoints : ℕ
  targetPoints : ℕ
  elapsedMs : ℕ

structure ResolveResult (D : Type) where
  matched : List (ResolvedMatch D)
  setOnly : List DocId
  targetOnly : List DocId
  stats : ResolveStats D

structure CandidateGraph (D : Type) where
  edges : AList fun _ : String => Edge D
  setTopK : DocId → Option (List DocId)
  targetTopK : DocId → Option (List DocId)

/-- The orders in which the maps made on the way are iterated. -/
structure ResolveOrder (D : Type) where
  edges : HashOrder (Edge D)
  bestBySet : HashOrder (Edge D)
  matched : HashOrder (ResolvedMatch D)

variable {D : Type}

section Model

variable [LinearOrder D]

def maxActiveTau (options : ResolveOptions D) : D :=
  let max := options.tauOneToOne
  let max := match options.tauOneToMany with
    | some tau => if max < tau then tau else max
    | none => max
  match options.tauManyToOne with
  | some tau => if max < tau then tau else max
  | none => max

def edgeKey (setId targetId : DocId) : String := setId ++ "::" ++ targetId

def Edge.key (e : Edge D) : String := edgeKey e.setId e.targetId

/-- The first edge under a key gives its ids, and every further one can lower its distance. -/
def addEdge (graphTau : D) (edges : AList fun _ : String => Edge D) (e : Edge D) :
    AList fun _ : String => Edge D :=
  if graphTau < e.distance then edges
  else match edges.lookup e.key with
    | none => edges.insert e.key e
    | some entry =>
      if e.distance < entry.distance then edges.insert e.key { entry with distance := e.distance }
      else edges

/-- The ids in the top-K of each record. -/
def topKIds (neighbours : Neighbours D) (k : ℕ) (id : DocId) : Option (List DocId) :=
  (neighbours.lookup id).map fun ns => (ns.take k).map Neighbour.id

def setEdges (k : ℕ) (setId : DocId) (ns : List (Neighbour DocId D)) : List (Edge D) :=
  (ns.take k).map fun n => ⟨setId, n.id, n.distance⟩

def targetEdges (k : ℕ) (targetId : DocId) (ns : List (Neighbour DocId D)) : List (Edge D) :=
  (ns.take k).map fun n => ⟨n.id, targetId, n.distance⟩

def buildCandidateGraph (setToTarget targetToSet : Neighbours D) (k : ℕ) (graphTau : D) :
    CandidateGraph D :=
  let edges := setToTarget.entries.foldl
    (fun edges s => (setEdges k s.1 s.2).foldl (addEdge graphTau) edges) ∅
  let edges := targetToSet.entries.foldl
    (fun edges t => (targetEdges k t.1 t.2).foldl (addEdge graphTau) edges) edges
  ⟨edges, topKIds setToTarget k, topKIds targetToSet k⟩

namespace CandidateGraph

variable (graph : CandidateGraph D)

/-- The target of an edge is in the top-K of its set record. -/
def inSetTopK (e : Edge D) : Bool :=
  match graph.setTopK e.setId with
  | some s => s.contains e.targetId
  | none => false

def inTargetTopK (e : Edge D) : Bool :=
  match graph.targetTopK e.targetId with
  | some s => s.contains e.setId
  | none => false

def values (order : HashOrder (Edge D)) : List (Edge D) :=
  order.run (graph.edges.entries.map Sigma.snd)

end CandidateGraph

/-- The nearest edge of a set record, of equally near ones that with the smaller target. -/
def keepNearest (best : AList fun _ : DocId => Edge D) (e : Edge D) :
    AList fun _ : DocId => Edge D :=
  match best.lookup e.setId with
  | none => best.insert e.setId e
  | some existing =>
    if e.distance < existing.distance ∨
        e.distance = existing.distance ∧ e.targetId < existing.targetId then
      best.insert e.setId e
    else best

def groundCore (order : ResolveOrder D) (graph : CandidateGraph D) (tauOneToOne : D) :
    List (ResolvedMatch D) :=
  let passing := (graph.values order.edges).filter fun e =>
    ¬tauOneToOne < e.distance ∧ graph.inSetTopK e ∧ graph.inTargetTopK e
  let bestBySet := passing.foldl keepNearest ∅
  (order.bestBySet.run (bestBySet.entries.map Sigma.snd)).map fun e => ⟨e, .core⟩

/-- The edges within a threshold that one direction has in its top-K and that are not core. -/
def extras (order : ResolveOrder D) (graph : CandidateGraph D) (corePairs : List (ResolvedMatch D))
    (inTopK : Edge D → Bool) (stage : MatchStage) : Option D → List (ResolvedMatch D)
  | none => []
  | some tau =>
    let coreKeys := corePairs.map fun p => p.key
    ((graph.values order.edges).filter fun e =>
      ¬tau < e.distance ∧ ¬coreKeys.contains e.key ∧ inTopK e).map fun e => ⟨e, stage⟩

def setExtras (order : ResolveOrder D) (graph : CandidateGraph D)
    (corePairs : List (ResolvedMatch D)) (tauOneToMany : Option D) : List (ResolvedMatch D) :=
  extras order graph corePairs graph.inSetTopK .setExtra tauOneToMany

def targetExtras (order : ResolveOrder D) (graph : CandidateGraph D)
    (corePairs : List (ResolvedMatch D)) (tauManyToOne : Option D) : List (ResolvedMatch D) :=
  extras order graph corePairs graph.inTargetTopK .targetExtra tauManyToOne

def stageRank : MatchStage → ℕ
  | .core => 0
  | .setExtra => 1
  | .targetExtra => 2

/-- A match of an earlier stage stays, in one stage the nearer one. -/
def addMatch (map : AList fun _ : String => ResolvedMatch D) (pair : ResolvedMatch D) :
    AList fun _ : String => ResolvedMatch D :=
  match map.lookup pair.key with
  | none => map.insert pair.key pair
  | some existing =>
    if stageRank pair.stage < stageRank existing.stage ∨
        stageRank pair.stage = stageRank existing.stage ∧ pair.distance < existing.distance then
      map.insert pair.key pair
    else map

def dedupMatches (order : ResolveOrder D) (core setExtra targetExtra : List (ResolvedMatch D)) :
    List (ResolvedMatch D) :=
  let map := core.foldl addMatch ∅
  let map := setExtra.foldl addMatch map
  let map := targetExtra.foldl addMatch map
  order.matched.run (map.entries.map Sigma.snd)

def countStage (stage : MatchStage) (matched : List (ResolvedMatch D)) : ℕ :=
  matched.countP fun m => m.stage = stage

def resolve (order : ResolveOrder D) (setToTarget targetToSet : Neighbours D)
    (options : ResolveOptions D) (elapsedMs : ℕ) : ResolveResult D :=
  let graph := buildCandidateGraph setToTarget targetToSet options.k (maxActiveTau options)
  let corePairs := groundCore order graph options.tauOneToOne
  let setExtraPairs := setExtras order graph corePairs options.tauOneToMany
  let targetExtraPairs := targetExtras order graph corePairs options.tauManyToOne
  let pairs := dedupMatches order corePairs setExtraPairs targetExtraPairs
  let matchedSetIds := pairs.map fun m => m.setId
  let matchedTargetIds := pairs.map fun m => m.targetId
  let setOnly := setToTarget.keys.filter fun id => ¬matchedSetIds.contains id
  let targetOnly := targetToSet.keys.filter fun id => ¬matchedTargetIds.contains id
  { matched := pairs
    setOnly := setOnly
    targetOnly := targetOnly
    stats :=
      { k := options.k
        threshold := options.threshold
        tauOneToOne := options.tauOneToOne
        tauOneToMany := options.tauOneToMany
        tauManyToOne := options.tauManyToOne
        edgeCount := graph.edges.entries.length
        coreCount := countStage .core pairs
        setExtraCount := countStage .setExtra pairs
        targetExtraCount := countStage .targetExtra pairs
        matchedCount := pairs.length
        setOnlyCount := setOnly.length
        targetOnlyCount := targetOnly.length
        setPoints := setToTarget.entries.length
        targetPoints := targetToSet.entries.length
        elapsedMs := elapsedMs } }

end Model

end Vectorlink
