import Mathlib.Data.List.MinMax
import Vectorlink.Ranking.Nearest
import Vectorlink.Store.Domain

/-! The neighbours of documents among candidate documents, by their chunk vectors. -/
namespace Vectorlink

open Ranking

variable {V D : Type}

/-- A chunk vector and its document: the points that probe and the candidates in memory. -/
structure IndexedPoint (V : Type) where
  docId : DocId
  embedding : V
deriving DecidableEq

/-- The map from documents to their neighbours. -/
abbrev NeighbourMap (D : Type) := DocId → Option (List (Neighbour DocId D))

/-- The neighbours of a document, none if it is not in the map. -/
def NeighbourMap.listed (result : NeighbourMap D) (id : DocId) : List (Neighbour DocId D) :=
  (result id).getD []

def ioMaterialiseCandidateEmbeddings (snapshot : Except StoreError (List (ChunkRow V)))
    (candidateDocIds : List DocId) : Except StoreError (List (IndexedPoint V)) :=
  if candidateDocIds.isEmpty then .ok []
  else snapshot.map fun rows =>
    (rows.filter fun r => r.docId ∈ candidateDocIds).map fun r => ⟨r.docId, r.embedding⟩

/-- What a search for neighbours is asked. Distances are compared and nothing else, and those
of finite vectors are ordered. -/
structure CrossQuery (V D : Type) where
  cosineDistanceNormalized : V → V → D
  k : ℕ
  threshold : D

section Model

variable [LinearOrder D] (q : CrossQuery V D)

namespace CrossQuery

def bestPerDoc (probe : V) (selfDocId : DocId) (candidates : List (IndexedPoint V)) :
    List (Neighbour DocId D) :=
  candidates.foldl (fun best c =>
    if c.docId = selfDocId then best
    else if q.threshold < q.cosineDistanceNormalized probe c.embedding then best
    else keepBest ⟨c.docId, q.cosineDistanceNormalized probe c.embedding⟩ best) []

def flatKnnTopK (order : HashOrder (Neighbour DocId D)) (probe : V) (selfDocId : DocId)
    (candidates : List (IndexedPoint V)) : List (Neighbour DocId D) :=
  ((order.run (q.bestPerDoc probe selfDocId candidates)).insertionSort Nearer).take q.k

end CrossQuery

def mergeNeighbours (existing new : List (Neighbour DocId D)) : List (Neighbour DocId D) :=
  keepAll new existing

/-- A probe that finds nothing leaves no entry. -/
def NeighbourMap.add (result : NeighbourMap D) (id : DocId)
    (neighbours : List (Neighbour DocId D)) : NeighbourMap D :=
  if neighbours.isEmpty then result
  else Function.update result id <| some <|
    match result id with
    | some existing => mergeNeighbours existing neighbours
    | none => neighbours

namespace CrossQuery

/-- The loop over the points; `order n` is the order of the map of the `n`-th probe. The source
goes by batches, between which it only yields. -/
def probeAll (candidates : List (IndexedPoint V)) : (ℕ → HashOrder (Neighbour DocId D)) →
    NeighbourMap D → List (IndexedPoint V) → NeighbourMap D
  | _, result, [] => result
  | order, result, point :: points =>
    probeAll candidates (fun n => order (n + 1))
      (result.add point.docId (q.flatKnnTopK (order 0) point.embedding point.docId candidates))
      points

def ioCollectTopKCrossFlat (order : ℕ → HashOrder (Neighbour DocId D))
    (snapshot : Except StoreError (List (ChunkRow V))) (points : List (IndexedPoint V))
    (candidateDocIds : List DocId) : Except StoreError (NeighbourMap D) := do
  let candidates ← ioMaterialiseCandidateEmbeddings snapshot candidateDocIds
  if candidates.isEmpty then pure fun _ => none
  else pure (q.probeAll candidates order (fun _ => none) points)

end CrossQuery

end Model

section Spec

variable [LinearOrder D] (q : CrossQuery V D) (candidates : List (IndexedPoint V))

namespace CrossQuery

/-- The distances of a vector to the chunks of a candidate document. -/
def distances (probe : V) (x : DocId) : List D :=
  (candidates.filter fun c => c.docId = x).map fun c => q.cosineDistanceNormalized probe c.embedding

def chunkDistance (probe : V) (x : DocId) : WithTop D := (q.distances candidates probe x).minimum

/-- The distance of two documents is the least over the pairs of their chunks. -/
def docDistance (points : List (IndexedPoint V)) (doc x : DocId) : WithTop D :=
  ((points.filter fun p => p.docId = doc).flatMap fun p =>
    q.distances candidates p.embedding x).minimum

/-- The other documents within the threshold of one chunk. -/
def chunkPool (p : IndexedPoint V) : Set (Neighbour DocId D) :=
  {n | n.id ≠ p.docId ∧ q.chunkDistance candidates p.embedding n.id = n.distance ∧
    n.distance ≤ q.threshold}

/-- The other documents within the threshold of a document. -/
def docPool (points : List (IndexedPoint V)) (doc : DocId) : Set (Neighbour DocId D) :=
  {n | n.id ≠ doc ∧ q.docDistance candidates points doc n.id = n.distance ∧
    n.distance ≤ q.threshold}

end CrossQuery

end Spec

section Chunk

variable [LinearOrder D] {q : CrossQuery V D} {candidates : List (IndexedPoint V)}

namespace CrossQuery

omit [LinearOrder D] in
theorem mem_distances {probe : V} {x : DocId} {d : D} :
    d ∈ q.distances candidates probe x ↔
      ∃ c ∈ candidates, c.docId = x ∧ q.cosineDistanceNormalized probe c.embedding = d := by
  simp [distances, and_assoc]

/-- The neighbours that the candidates offer to a probe. -/
def offers (q : CrossQuery V D) (probe : V) (selfDocId : DocId)
    (candidates : List (IndexedPoint V)) : List (Neighbour DocId D) :=
  candidates.filterMap fun c =>
    if c.docId = selfDocId then none
    else if q.threshold < q.cosineDistanceNormalized probe c.embedding then none
    else some ⟨c.docId, q.cosineDistanceNormalized probe c.embedding⟩

theorem mem_offers {probe : V} {selfDocId : DocId} {n : Neighbour DocId D} :
    n ∈ q.offers probe selfDocId candidates ↔
      n.id ≠ selfDocId ∧ n.distance ∈ q.distances candidates probe n.id ∧
        n.distance ≤ q.threshold := by
  obtain ⟨x, d⟩ := n
  unfold offers
  rw [List.mem_filterMap, mem_distances]
  constructor
  · rintro ⟨c, hc, h⟩
    split at h
    · cases h
    · rename_i hself
      split at h
      · cases h
      · rename_i hthreshold
        obtain ⟨rfl, rfl⟩ := Neighbour.mk.inj (Option.some.inj h)
        exact ⟨hself, ⟨c, hc, rfl, rfl⟩, not_lt.mp hthreshold⟩
  · rintro ⟨hself, ⟨c, hc, hid, hd⟩, hthreshold⟩
    refine ⟨c, hc, ?_⟩
    rw [hid, hd, if_neg hself, if_neg (not_lt.mpr hthreshold)]

theorem bestPerDoc_eq (q : CrossQuery V D) (probe : V) (selfDocId : DocId)
    (candidates : List (IndexedPoint V)) :
    q.bestPerDoc probe selfDocId candidates = keepAll (q.offers probe selfDocId candidates) [] := by
  have hfold : ∀ best, candidates.foldl (fun best c =>
      if c.docId = selfDocId then best
      else if q.threshold < q.cosineDistanceNormalized probe c.embedding then best
      else keepBest ⟨c.docId, q.cosineDistanceNormalized probe c.embedding⟩ best) best =
      keepAll (q.offers probe selfDocId candidates) best := by
    unfold offers
    induction candidates with
    | nil => intro best; rfl
    | cons c candidates ih =>
      intro best
      rw [List.foldl_cons, ih, List.filterMap_cons]
      by_cases hself : c.docId = selfDocId
      · simp [hself]
      · by_cases hthreshold : q.threshold < q.cosineDistanceNormalized probe c.embedding
        · simp [hself, hthreshold]
        · simp [hself, hthreshold]
  exact hfold []

theorem nodup_bestPerDoc (q : CrossQuery V D) (probe : V) (selfDocId : DocId)
    (candidates : List (IndexedPoint V)) :
    (ids (q.bestPerDoc probe selfDocId candidates)).Nodup := by
  rw [bestPerDoc_eq]
  exact nodup_keepAll nodup_ids_nil

/-- The map of a probe holds the other documents within the threshold of its vector. -/
theorem mem_bestPerDoc {p : IndexedPoint V} {n : Neighbour DocId D} :
    n ∈ q.bestPerDoc p.embedding p.docId candidates ↔ n ∈ q.chunkPool candidates p := by
  rw [bestPerDoc_eq]
  unfold chunkPool chunkDistance
  rw [Set.mem_ofPred_eq, List.minimum_eq_coe_iff]
  constructor
  · intro h
    have hoffer := (mem_of_mem_keepAll h).resolve_left List.not_mem_nil
    obtain ⟨hself, hmem, hthreshold⟩ := mem_offers.mp hoffer
    refine ⟨hself, ⟨hmem, fun d hd => ?_⟩, hthreshold⟩
    rcases le_or_gt d q.threshold with hle | hgt
    · have hother : (⟨n.id, d⟩ : Neighbour DocId D) ∈ q.offers p.embedding p.docId candidates :=
        mem_offers.mpr ⟨hself, hd, hle⟩
      exact keepAll_le nodup_ids_nil h (.inr hother) rfl
    · exact hthreshold.trans hgt.le
  · rintro ⟨hself, ⟨hmem, hleast⟩, hthreshold⟩
    have hoffer : n ∈ q.offers p.embedding p.docId candidates :=
      mem_offers.mpr ⟨hself, hmem, hthreshold⟩
    obtain ⟨d, hd⟩ := mem_ids.mp (mem_ids_keepAll.mpr (.inr (id_mem_ids hoffer)) :
      n.id ∈ ids (keepAll (q.offers p.embedding p.docId candidates) []))
    have hle : d ≤ n.distance := keepAll_le nodup_ids_nil hd (.inr hoffer) rfl
    have hge : n.distance ≤ d :=
      hleast d (mem_offers.mp ((mem_of_mem_keepAll hd).resolve_left List.not_mem_nil)).2.1
    rw [le_antisymm hle hge] at hd
    exact hd

/-- One probe gives the nearest documents of its chunk, ties broken by the order of its map. -/
theorem flatKnnTopK_isNearest (order : HashOrder (Neighbour DocId D)) (p : IndexedPoint V) :
    IsNearest q.k (q.chunkPool candidates p)
      (q.flatKnnTopK order p.embedding p.docId candidates) := by
  have hperm := order.perm (q.bestPerDoc p.embedding p.docId candidates)
  have hnodup : (ids (order.run (q.bestPerDoc p.embedding p.docId candidates))).Nodup :=
    (hperm.map _).nodup_iff.mpr (nodup_bestPerDoc q _ _ _)
  have hpool : {n | n ∈ order.run (q.bestPerDoc p.embedding p.docId candidates)} =
      q.chunkPool candidates p := by
    ext n
    rw [Set.mem_ofPred_eq, hperm.mem_iff, mem_bestPerDoc]
  rw [← hpool]
  exact isNearest_take_insertionSort q.k hnodup

/-- Any list of the nearest documents of a chunk may come out. -/
theorem exists_order {p : IndexedPoint V} {l : List (Neighbour DocId D)}
    (h : IsNearest q.k (q.chunkPool candidates p) l) :
    ∃ order, q.flatKnnTopK order p.embedding p.docId candidates = l := by
  have hpool : q.chunkPool candidates p = {n | n ∈ q.bestPerDoc p.embedding p.docId candidates} := by
    ext n
    rw [Set.mem_ofPred_eq, mem_bestPerDoc]
  rw [hpool] at h
  obtain ⟨found, hperm, hfound⟩ := h.exists_perm (nodup_bestPerDoc q _ _ _)
  refine ⟨⟨fun l => if l.Perm found then found else l, fun l => ?_⟩, ?_⟩
  · split
    · rename_i hl
      exact hl.symm
    · exact List.Perm.refl l
  · unfold flatKnnTopK
    dsimp only
    rw [if_pos hperm.symm]
    exact hfound

end CrossQuery

end Chunk

end Vectorlink
