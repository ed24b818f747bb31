import Mathlib.Tactic.Linarith
import Vectorlink.Store.CrossExact

/-! The two ways to the neighbours of documents: distances computed in memory for few candidates,
and a query of the index for each probe for many. -/
namespace Vectorlink

open Ranking

variable {V R D : Type} [LinearOrder R] [LinearOrder D]

/-- What a search is asked, with the raw distances of the index. -/
structure AnnQuery (V R D : Type) [LinearOrder R] [LinearOrder D] where
  cosineDistance : V → V → R
  normalizedCosineFromLance : R → D
  mono : Monotone normalizedCosineFromLance
  k : ℕ
  threshold : D

/-- The filtered nearest query of a snapshot: which documents pass, the probe and the number of
rows, each with its raw distance. -/
abbrev NearestScan (V R : Type) :=
  (DocId → Bool) → V → ℕ → Except StoreError (List (DocId × R))

section Model

/-- An entry is made for every probe. -/
def NeighbourMap.put (result : NeighbourMap D) (id : DocId)
    (neighbours : List (Neighbour DocId D)) : NeighbourMap D :=
  Function.update result id <| some <|
    match result id with
    | some existing => mergeNeighbours existing neighbours
    | none => neighbours

namespace AnnQuery

variable (a : AnnQuery V R D)

/-- The distances in memory are those of the index, normalised. -/
def toCrossQuery : CrossQuery V D where
  cosineDistanceNormalized u v := a.normalizedCosineFromLance (a.cosineDistance u v)
  k := a.k
  threshold := a.threshold

def bestOfRows (rows : List (DocId × R)) : List (Neighbour DocId D) :=
  rows.foldl (fun best r =>
    if a.threshold < a.normalizedCosineFromLance r.2 then best
    else keepBest ⟨r.1, a.normalizedCosineFromLance r.2⟩ best) []

def extractTopKNeighbours (order : HashOrder (Neighbour DocId D)) (rows : List (DocId × R)) :
    List (Neighbour DocId D) :=
  ((order.run (a.bestOfRows rows)).insertionSort Nearer).take a.k

/-- The documents a probe is compared with. -/
def passes (candidateDocIds : List DocId) (selfDocId id : DocId) : Bool :=
  candidateDocIds.contains id && id != selfDocId

def queryAll (nearest : NearestScan V R) (candidateDocIds : List DocId) :
    (ℕ → HashOrder (Neighbour DocId D)) → NeighbourMap D → List (IndexedPoint V) →
      Except StoreError (NeighbourMap D)
  | _, result, [] => .ok result
  | order, result, point :: points => do
    let rows ← nearest (passes candidateDocIds point.docId) point.embedding (a.k * 2)
    queryAll nearest candidateDocIds (fun n => order (n + 1))
      (result.put point.docId (a.extractTopKNeighbours (order 0) rows)) points

def ioCollectTopKCrossAnn (order : ℕ → HashOrder (Neighbour DocId D)) (nearest : NearestScan V R)
    (points : List (IndexedPoint V)) (candidateDocIds : List DocId) :
    Except StoreError (NeighbourMap D) :=
  a.queryAll nearest candidateDocIds order (fun _ => none) points

def adaptiveAnnCandidateThreshold : ℕ := 30000

def ioCollectTopKCross (order : ℕ → HashOrder (Neighbour DocId D))
    (snapshot : Except StoreError (List (ChunkRow V))) (nearest : NearestScan V R)
    (points : List (IndexedPoint V)) (candidateDocIds : List DocId) :
    Except StoreError (NeighbourMap D) :=
  if candidateDocIds.length ≤ adaptiveAnnCandidateThreshold then
    a.toCrossQuery.ioCollectTopKCrossFlat order snapshot points candidateDocIds
  else a.ioCollectTopKCrossAnn order nearest points candidateDocIds

end AnnQuery

end Model

section Spec

variable (a : AnnQuery V R D) (rows : List (ChunkRow V)) (candidateDocIds : List DocId)

namespace AnnQuery

/-- An exact answer: of the rows that pass, as many as there are up to the number asked for, and
none left out is nearer than one taken. -/
def IsExact (pass : DocId → Bool) (probe : V) (n : ℕ) (answer : List (DocId × R)) : Prop :=
  ∃ taken left : List (ChunkRow V), (taken ++ left).Perm (rows.filter fun r => pass r.docId) ∧
    taken.length = min n (rows.filter fun r => pass r.docId).length ∧
    (∀ r ∈ taken, ∀ r' ∈ left, a.cosineDistance probe r.embedding ≤
      a.cosineDistance probe r'.embedding) ∧
    answer = taken.map fun r => (r.docId, a.cosineDistance probe r.embedding)

/-- The chunks a probe is compared with in memory. -/
abbrev candidates : List (IndexedPoint V) := CrossQuery.candidateChunks rows candidateDocIds

/-- An answer has a row of each of the nearest documents of a chunk. -/
def Covers (p : IndexedPoint V) (answer : List (DocId × R)) : Prop :=
  ∃ l, IsNearest a.k (a.toCrossQuery.chunkPool (candidates rows candidateDocIds) p) l ∧
    ∀ n ∈ l, n.id ∈ answer.map Prod.fst

/-- The query of every probe is answered exactly, and its rows cover the nearest documents. -/
def ExactScan (nearest : NearestScan V R) (points : List (IndexedPoint V)) : Prop :=
  ∀ p ∈ points, ∃ answer,
    nearest (passes candidateDocIds p.docId) p.embedding (a.k * 2) = .ok answer ∧
    a.IsExact rows (passes candidateDocIds p.docId) p.embedding (a.k * 2) answer ∧
    a.Covers rows candidateDocIds p answer

/-- Both ways end in the same map, whatever the orders of the hash maps. -/
def PathsAgree (nearest : NearestScan V R) (points : List (IndexedPoint V)) : Prop :=
  ∀ order order', ∃ result,
    a.toCrossQuery.ioCollectTopKCrossFlat order (.ok rows) points candidateDocIds = .ok result ∧
    a.ioCollectTopKCrossAnn order' nearest points candidateDocIds = .ok result

/-- Every document that probes has a candidate within the threshold of one of its chunks. -/
def EveryProbeFinds (points : List (IndexedPoint V)) : Prop :=
  ∀ p ∈ points, 0 < a.k ∧ ∃ p' ∈ points, p'.docId = p.docId ∧
    (a.toCrossQuery.chunkPool (candidates rows candidateDocIds) p').Nonempty

/-- However the equally near ones are ordered, the lists of the chunks of a document merge to the
same list. -/
def TiesDoNotMatter (points : List (IndexedPoint V)) : Prop :=
  ∀ (doc : DocId) (lists lists' : ChunkLists V D),
    lists.map Prod.fst = points.filter (fun p => p.docId = doc) →
    lists'.map Prod.fst = points.filter (fun p => p.docId = doc) →
    (∀ x ∈ lists, IsNearest a.k
      (a.toCrossQuery.chunkPool (candidates rows candidateDocIds) x.1) x.2) →
    (∀ x ∈ lists', IsNearest a.k
      (a.toCrossQuery.chunkPool (candidates rows candidateDocIds) x.1) x.2) →
    lists.merged = lists'.merged

end AnnQuery

end Spec

section Probe

variable {a : AnnQuery V R D} {rows : List (ChunkRow V)} {candidateDocIds : List DocId}
  {p : IndexedPoint V} {taken left : List (ChunkRow V)}

namespace AnnQuery

/-- The rows of an answer as points. -/
def pointsOf (taken : List (ChunkRow V)) : List (IndexedPoint V) :=
  taken.map fun r => ⟨r.docId, r.embedding⟩

/-- The rows that a query may take, of which its answer has some. -/
structure Split (a : AnnQuery V R D) (rows : List (ChunkRow V)) (candidateDocIds : List DocId)
    (p : IndexedPoint V) (taken left : List (ChunkRow V)) : Prop where
  all : (taken ++ left).Perm (rows.filter fun r => passes candidateDocIds p.docId r.docId)
  nearer : ∀ r ∈ taken, ∀ r' ∈ left,
    a.cosineDistance p.embedding r.embedding ≤ a.cosineDistance p.embedding r'.embedding

/-- Since the query leaves out the document of the probe, the rows are ranked as in memory. -/
theorem extractTopKNeighbours_eq (order : HashOrder (Neighbour DocId D))
    (hself : ∀ r ∈ taken, r.docId ≠ p.docId) :
    a.extractTopKNeighbours order
        (taken.map fun r => (r.docId, a.cosineDistance p.embedding r.embedding)) =
      a.toCrossQuery.flatKnnTopK order p.embedding p.docId (pointsOf taken) := by
  have hfold : a.bestOfRows
      (taken.map fun r => (r.docId, a.cosineDistance p.embedding r.embedding)) =
      a.toCrossQuery.bestPerDoc p.embedding p.docId (pointsOf taken) := by
    unfold bestOfRows CrossQuery.bestPerDoc pointsOf
    rw [List.foldl_map, List.foldl_map]
    refine List.foldl_ext _ _ _ fun best r hr => ?_
    rw [if_neg (hself r hr)]
    rfl
  unfold extractTopKNeighbours CrossQuery.flatKnnTopK
  rw [hfold]
  rfl

namespace Split

theorem passes_of_mem (h : a.Split rows candidateDocIds p taken left) {r : ChunkRow V}
    (hr : r ∈ taken ++ left) : r ∈ rows ∧ r.docId ∈ candidateDocIds ∧ r.docId ≠ p.docId := by
  have hmem := List.mem_filter.mp (h.all.mem_iff.mp hr)
  unfold passes at hmem
  simpa using hmem

theorem mem_distances_iff (h : a.Split rows candidateDocIds p taken left) {x : DocId} {d : D}
    (hx : x ≠ p.docId) :
    d ∈ a.toCrossQuery.distances (candidates rows candidateDocIds) p.embedding x ↔
      ∃ r ∈ taken ++ left, r.docId = x ∧
        a.normalizedCosineFromLance (a.cosineDistance p.embedding r.embedding) = d := by
  have hall (r : ChunkRow V) : r ∈ taken ++ left ↔
      r ∈ rows ∧ r.docId ∈ candidateDocIds ∧ r.docId ≠ p.docId := by
    rw [h.all.mem_iff, List.mem_filter]
    unfold passes
    simp
  rw [CrossQuery.mem_distances]
  unfold candidates CrossQuery.candidateChunks toCrossQuery
  constructor
  · rintro ⟨c, hc, hid, hd⟩
    obtain ⟨r, hr, rfl⟩ := List.mem_map.mp hc
    obtain ⟨hrow, hcand⟩ := List.mem_filter.mp hr
    have hother : r.docId ≠ p.docId := hid.trans_ne hx
    exact ⟨r, (hall r).mpr ⟨hrow, by simpa using hcand, hother⟩, hid, hd⟩
  · rintro ⟨r, hr, hid, hd⟩
    obtain ⟨hrow, hcand, _⟩ := (hall r).mp hr
    exact ⟨⟨r.docId, r.embedding⟩,
      List.mem_map.mpr ⟨r, List.mem_filter.mpr ⟨hrow, by simpa using hcand⟩, rfl⟩, hid, hd⟩

theorem mem_distances_pointsOf {x : DocId} {d : D} :
    d ∈ a.toCrossQuery.distances (pointsOf taken) p.embedding x ↔
      ∃ r ∈ taken, r.docId = x ∧
        a.normalizedCosineFromLance (a.cosineDistance p.embedding r.embedding) = d := by
  rw [CrossQuery.mem_distances]
  unfold pointsOf toCrossQuery
  simp

theorem normalized_le (h : a.Split rows candidateDocIds p taken left) {r r' : ChunkRow V}
    (hr : r ∈ taken) (hr' : r' ∈ left) :
    a.normalizedCosineFromLance (a.cosineDistance p.embedding r.embedding) ≤
      a.normalizedCosineFromLance (a.cosineDistance p.embedding r'.embedding) :=
  a.mono (h.nearer r hr r' hr')

/-- The rows that are taken show the distances of the documents they name. -/
theorem chunkPool_sub (h : a.Split rows candidateDocIds p taken left) {n : Neighbour DocId D}
    (hn : n ∈ a.toCrossQuery.chunkPool (pointsOf taken) p) :
    n ∈ a.toCrossQuery.chunkPool (candidates rows candidateDocIds) p := by
  obtain ⟨hself, hdist, hthreshold⟩ := hn
  rw [CrossQuery.chunkDistance_eq_iff, mem_distances_pointsOf] at hdist
  obtain ⟨⟨r, hr, hid, hd⟩, hleast⟩ := hdist
  refine ⟨hself, CrossQuery.chunkDistance_eq_iff.mpr ⟨?_, ?_⟩, hthreshold⟩
  · exact (h.mem_distances_iff hself).mpr ⟨r, List.mem_append_left _ hr, hid, hd⟩
  · intro e he
    obtain ⟨r', hr', hid', rfl⟩ := (h.mem_distances_iff hself).mp he
    rcases List.mem_append.mp hr' with hr' | hr'
    · exact hleast _ (mem_distances_pointsOf.mpr ⟨r', hr', hid', rfl⟩)
    · rw [← hd]
      exact h.normalized_le hr hr'

/-- A document of the pool that a row names is in the pool of the rows. -/
theorem mem_chunkPool_of_named (h : a.Split rows candidateDocIds p taken left)
    {n : Neighbour DocId D} (hn : n ∈ a.toCrossQuery.chunkPool (candidates rows candidateDocIds) p)
    (hnamed : ∃ r ∈ taken, r.docId = n.id) :
    n ∈ a.toCrossQuery.chunkPool (pointsOf taken) p := by
  obtain ⟨hself, hdist, hthreshold⟩ := hn
  rw [CrossQuery.chunkDistance_eq_iff, h.mem_distances_iff hself] at hdist
  obtain ⟨⟨r, hr, hid, hd⟩, hleast⟩ := hdist
  have hbound (r' : ChunkRow V) (hr' : r' ∈ taken) (hid' : r'.docId = n.id) : n.distance ≤
      a.normalizedCosineFromLance (a.cosineDistance p.embedding r'.embedding) :=
    hleast _ ((h.mem_distances_iff hself).mpr ⟨r', List.mem_append_left _ hr', hid', rfl⟩)
  refine ⟨hself, CrossQuery.chunkDistance_eq_iff.mpr ⟨?_, ?_⟩, hthreshold⟩
  · rcases List.mem_append.mp hr with hr | hr
    · exact mem_distances_pointsOf.mpr ⟨r, hr, hid, hd⟩
    · -- Its nearest row is left out, so the row that names it is as near.
      obtain ⟨r', hr', hid'⟩ := hnamed
      have hle := h.normalized_le hr' hr
      rw [hd] at hle
      exact mem_distances_pointsOf.mpr ⟨r', hr', hid', le_antisymm hle (hbound r' hr' hid')⟩
  · intro e he
    obtain ⟨r', hr', hid', rfl⟩ := mem_distances_pointsOf.mp he
    exact hbound r' hr' hid'

/-- A document that no row names is no nearer than those the rows name. -/
theorem distance_le_of_not_named (h : a.Split rows candidateDocIds p taken left)
    {n m : Neighbour DocId D}
    (hn : n ∈ a.toCrossQuery.chunkPool (candidates rows candidateDocIds) p)
    (hnot : ¬∃ r ∈ taken, r.docId = n.id) (hm : m ∈ a.toCrossQuery.chunkPool (pointsOf taken) p) :
    m.distance ≤ n.distance := by
  obtain ⟨hself, hdist, _⟩ := hn
  obtain ⟨_, hmdist, _⟩ := hm
  rw [CrossQuery.chunkDistance_eq_iff, h.mem_distances_iff hself] at hdist
  rw [CrossQuery.chunkDistance_eq_iff, mem_distances_pointsOf] at hmdist
  obtain ⟨⟨r, hr, hid, hd⟩, _⟩ := hdist
  obtain ⟨⟨r', hr', _, hd'⟩, _⟩ := hmdist
  rcases List.mem_append.mp hr with hr | hr
  · exact absurd ⟨r, hr, hid⟩ hnot
  · rw [← hd, ← hd']
    exact h.normalized_le hr' hr

/-- The nearest of rows that cover the nearest documents are the nearest documents. -/
theorem isNearest (h : a.Split rows candidateDocIds p taken left) {l l' : List (Neighbour DocId D)}
    (hl : IsNearest a.k (a.toCrossQuery.chunkPool (pointsOf taken) p) l)
    (hl' : IsNearest a.k (a.toCrossQuery.chunkPool (candidates rows candidateDocIds) p) l')
    (hcovers : ∀ n ∈ l', ∃ r ∈ taken, r.docId = n.id) :
    IsNearest a.k (a.toCrossQuery.chunkPool (candidates rows candidateDocIds) p) l where
  nodup := hl.nodup
  sorted := hl.sorted
  capped := hl.capped
  sub := fun n hn => h.chunkPool_sub (hl.sub n hn)
  rest := by
    intro n hn hnot
    by_cases hnamed : ∃ r ∈ taken, r.docId = n.id
    · exact hl.rest n (h.mem_chunkPool_of_named hn hnamed) hnot
    · refine ⟨?_, fun m hm => h.distance_le_of_not_named hn hnamed (hl.sub m hm)⟩
      have hfull : l'.length = a.k := (hl'.rest n hn fun hmem => hnamed (hcovers n hmem)).1
      have hpool : IsNearest a.k (a.toCrossQuery.chunkPool (pointsOf taken) p) l' :=
        ⟨hl'.nodup, hl'.sorted, hl'.capped,
          fun m hm => h.mem_chunkPool_of_named (hl'.sub m hm) (hcovers m hm),
          fun m hm hout => hl'.rest m (h.chunkPool_sub hm) hout⟩
      exact le_antisymm hl.capped (hfull ▸ hpool.length_le hl)

end Split

/-- A probe that is answered exactly gives the nearest documents of its chunk. -/
theorem extractTopKNeighbours_isNearest {answer : List (DocId × R)}
    (hexact : a.IsExact rows (passes candidateDocIds p.docId) p.embedding (a.k * 2) answer)
    (hcovers : a.Covers rows candidateDocIds p answer) (order : HashOrder (Neighbour DocId D)) :
    IsNearest a.k (a.toCrossQuery.chunkPool (candidates rows candidateDocIds) p)
      (a.extractTopKNeighbours order answer) := by
  obtain ⟨taken, left, hall, _, hnearer, rfl⟩ := hexact
  have hsplit : a.Split rows candidateDocIds p taken left := ⟨hall, hnearer⟩
  obtain ⟨l', hl', hnamed⟩ := hcovers
  have hself : ∀ r ∈ taken, r.docId ≠ p.docId := fun r hr =>
    (hsplit.passes_of_mem (List.mem_append_left _ hr)).2.2
  rw [extractTopKNeighbours_eq order hself]
  have hrows : IsNearest a.toCrossQuery.k (a.toCrossQuery.chunkPool (pointsOf taken) p)
      (a.toCrossQuery.flatKnnTopK order p.embedding p.docId (pointsOf taken)) :=
    CrossQuery.flatKnnTopK_isNearest order p
  refine hsplit.isNearest hrows hl' ?_
  intro n hn
  simpa using hnamed n hn

end AnnQuery

end Probe

section Maps

variable {result : NeighbourMap D} {doc id : DocId} {l : List (Neighbour DocId D)}

omit [LinearOrder R]

omit [LinearOrder D] in
theorem NeighbourMap.eq_some_listed (h : result doc ≠ none) : result doc = some (result.listed doc) := by
  unfold listed
  cases hr : result doc with
  | none => exact absurd hr h
  | some l => rfl

theorem listed_put (h : (ids l).Nodup) : (result.put id l).listed doc =
    if id = doc then keepAll l (result.listed doc) else result.listed doc := by
  unfold NeighbourMap.put NeighbourMap.listed
  by_cases hid : id = doc
  · subst hid
    cases hr : result id with
    | none => simp [keepAll_of_nodup h]
    | some existing => simp [mergeNeighbours]
  · simp [hid, Ne.symm hid]

theorem put_eq_none_iff : result.put id l doc = none ↔ id ≠ doc ∧ result doc = none := by
  unfold NeighbourMap.put
  by_cases hid : id = doc
  · subst hid
    simp
  · simp [hid, Ne.symm hid]

/-- The map after a run of probes with their lists. -/
def NeighbourMap.putAll (result : NeighbourMap D) (lists : ChunkLists V D) : NeighbourMap D :=
  lists.foldl (fun result x => result.put x.1.docId x.2) result

theorem listed_putAll {lists : ChunkLists V D} (h : ∀ x ∈ lists, (ids x.2).Nodup) :
    (result.putAll lists).listed doc =
      keepAll ((lists.filter fun x => x.1.docId = doc).flatMap Prod.snd) (result.listed doc) := by
  induction lists generalizing result with
  | nil => rfl
  | cons x lists ih =>
    unfold NeighbourMap.putAll at ih ⊢
    rw [List.foldl_cons, ih fun y hy => h y (List.mem_cons_of_mem _ hy),
      listed_put (h x List.mem_cons_self)]
    by_cases hx : x.1.docId = doc
    · rw [if_pos hx, List.filter_cons_of_pos (by simpa using hx), List.flatMap_cons, keepAll_append]
    · rw [if_neg hx, List.filter_cons_of_neg (by simpa using hx)]

theorem putAll_eq_none_iff {lists : ChunkLists V D} :
    result.putAll lists doc = none ↔ (∀ x ∈ lists, x.1.docId ≠ doc) ∧ result doc = none := by
  induction lists generalizing result with
  | nil => simp [NeighbourMap.putAll]
  | cons x lists ih =>
    unfold NeighbourMap.putAll at ih ⊢
    rw [List.foldl_cons, ih, put_eq_none_iff, List.forall_mem_cons]
    constructor
    · rintro ⟨hlists, hx, hr⟩
      exact ⟨⟨hx, hlists⟩, hr⟩
    · rintro ⟨⟨hx, hlists⟩, hr⟩
      exact ⟨hlists, hx, hr⟩

/-- In memory there is no entry without neighbours. -/
theorem add_ne_nil (h : result doc ≠ some []) : result.add id l doc ≠ some [] := by
  unfold NeighbourMap.add
  cases l with
  | nil => simpa using h
  | cons n l =>
    by_cases hid : id = doc
    · subst hid
      cases hr : result id with
      | none => simp
      | some existing =>
        have hmem : n.id ∈ ids (mergeNeighbours existing (n :: l)) :=
          mem_ids_keepAll.mpr (.inr (by simp))
        simp only [List.isEmpty_cons, Bool.false_eq_true, if_false, Function.update_self]
        intro hnil
        rw [Option.some.inj hnil] at hmem
        cases hmem
    · simpa [hid, Ne.symm hid] using h

theorem probeAll_ne_nil {q : CrossQuery V D} {candidates : List (IndexedPoint V)}
    (order : ℕ → HashOrder (Neighbour DocId D)) (points : List (IndexedPoint V))
    (h : result doc ≠ some []) : q.probeAll candidates order result points doc ≠ some [] := by
  induction points generalizing order result with
  | nil => exact h
  | cons p points ih => exact ih _ (add_ne_nil h)

/-- The lists of one document can be brought about without touching the order of the points. -/
theorem exists_probed_filter {q : CrossQuery V D} {candidates points : List (IndexedPoint V)}
    {lists : ChunkLists V D} (hpoints : lists.map Prod.fst = points.filter fun p => p.docId = doc)
    (h : ∀ x ∈ lists, IsNearest q.k (q.chunkPool candidates x.1) x.2) :
    ∃ order, (q.probed candidates order points).filter (fun x => x.1.docId = doc) = lists := by
  induction points generalizing lists with
  | nil =>
    refine ⟨fun _ => ⟨id, List.Perm.refl⟩, ?_⟩
    have hnil : lists = [] := by simpa using hpoints
    rw [hnil]
    rfl
  | cons p points ih =>
    by_cases hp : p.docId = doc
    · rw [List.filter_cons_of_pos (by simpa using hp)] at hpoints
      obtain ⟨x, rest, rfl, rfl, hrest⟩ := List.map_eq_cons_iff.mp hpoints
      obtain ⟨order, horder⟩ := ih hrest fun y hy => h y (List.mem_cons_of_mem _ hy)
      obtain ⟨first, hfirst⟩ := q.exists_order (h x List.mem_cons_self)
      refine ⟨fun n => n.casesOn first order, ?_⟩
      unfold CrossQuery.probed
      rw [List.filter_cons_of_pos (by simpa using hp)]
      exact congrArg₂ List.cons (Prod.ext rfl hfirst) horder
    · rw [List.filter_cons_of_neg (by simpa using hp)] at hpoints
      obtain ⟨order, horder⟩ := ih hpoints h
      refine ⟨fun n => n.casesOn ⟨id, List.Perm.refl⟩ order, ?_⟩
      unfold CrossQuery.probed
      rw [List.filter_cons_of_neg (by simpa using hp)]
      exact horder

end Maps

section Agree

variable {a : AnnQuery V R D} {rows : List (ChunkRow V)} {candidateDocIds : List DocId}
  {nearest : NearestScan V R} {points : List (IndexedPoint V)} {doc : DocId}

namespace AnnQuery

/-- With exact answers every probe puts a list of its nearest documents. -/
theorem queryAll_ok (h : a.ExactScan rows candidateDocIds nearest points)
    (order : ℕ → HashOrder (Neighbour DocId D)) (result : NeighbourMap D) :
    ∃ lists : ChunkLists V D, lists.map Prod.fst = points ∧
      (∀ x ∈ lists, IsNearest a.k
        (a.toCrossQuery.chunkPool (candidates rows candidateDocIds) x.1) x.2) ∧
      a.queryAll nearest candidateDocIds order result points = .ok (result.putAll lists) := by
  induction points generalizing order result with
  | nil => exact ⟨[], rfl, by simp, rfl⟩
  | cons p points ih =>
    obtain ⟨answer, hanswer, hexact, hcovers⟩ := h p List.mem_cons_self
    obtain ⟨lists, hpoints, hnearest, hrun⟩ := ih (fun p' hp' => h p' (List.mem_cons_of_mem _ hp'))
      (fun n => order (n + 1)) (result.put p.docId (a.extractTopKNeighbours (order 0) answer))
    refine ⟨(p, a.extractTopKNeighbours (order 0) answer) :: lists, by rw [List.map_cons, hpoints],
      ?_, ?_⟩
    · intro x hx
      rcases List.mem_cons.mp hx with rfl | hx
      · exact extractTopKNeighbours_isNearest hexact hcovers (order 0)
      · exact hnearest x hx
    · unfold queryAll
      rw [hanswer]
      exact hrun

omit [LinearOrder R] [LinearOrder D] in
theorem filter_fst {lists : ChunkLists V D} (h : lists.map Prod.fst = points) :
    (lists.filter fun x => x.1.docId = doc).map Prod.fst = points.filter fun p => p.docId = doc := by
  rw [← h, List.filter_map]
  rfl

/-- A list is empty only if nothing is asked for or there is nothing to name. -/
theorem exists_of_merged_ne_nil {lists : ChunkLists V D}
    (hnearest : ∀ x ∈ lists, IsNearest a.k
      (a.toCrossQuery.chunkPool (candidates rows candidateDocIds) x.1) x.2) :
    lists.merged ≠ [] ↔ 0 < a.k ∧ ∃ x ∈ lists,
      (a.toCrossQuery.chunkPool (candidates rows candidateDocIds) x.1).Nonempty := by
  constructor
  · intro h
    obtain ⟨n, hn⟩ := List.exists_mem_of_ne_nil _ h
    obtain ⟨x, hx, hmem⟩ := ChunkLists.mem_of_mem_merged hn
    have hnear := hnearest x hx
    have hlength := List.length_pos_of_mem hmem
    have hcapped := hnear.capped
    exact ⟨by omega, x, hx, n, hnear.sub n hmem⟩
  · rintro ⟨hk, x, hx, n, hn⟩ hnil
    have hnear := hnearest x hx
    have hempty : x.2 = [] := by
      by_contra hne
      obtain ⟨m, hm⟩ := List.exists_mem_of_ne_nil _ hne
      have hmerged : m.id ∈ ids lists.merged :=
        ChunkLists.mem_ids_merged.mpr (ChunkLists.mem_named.mpr ⟨x, hx, id_mem_ids hm⟩)
      rw [hnil] at hmerged
      cases hmerged
    have hlength := (hnear.rest n hn (by simp [hempty])).1
    rw [hempty, List.length_nil] at hlength
    omega

/-- In memory a document has an entry if its merged list names anyone. -/
theorem probeAll_apply {q : CrossQuery V D} {candidates : List (IndexedPoint V)}
    (order : ℕ → HashOrder (Neighbour DocId D)) (points : List (IndexedPoint V)) (doc : DocId)
    {l : List (Neighbour DocId D)}
    (hl : ChunkLists.merged ((q.probed candidates order points).filter fun x => x.1.docId = doc) = l) :
    q.probeAll candidates order (fun _ => none) points doc = if l = [] then none else some l := by
  have hlisted : (q.probeAll candidates order (fun _ => none) points).listed doc = _ :=
    CrossQuery.listed_eq_merged order points
  have hne : q.probeAll candidates order (fun _ => none) points doc ≠ some [] :=
    probeAll_ne_nil order points (by simp)
  rw [hl] at hlisted
  unfold NeighbourMap.listed at hlisted
  cases hvalue : q.probeAll candidates order (fun _ => none) points doc with
  | none =>
    rw [hvalue] at hlisted
    have hempty : l = [] := hlisted.symm
    rw [if_pos hempty]
  | some found =>
    rw [hvalue] at hlisted hne
    have hfound : found = l := hlisted
    subst hfound
    rw [if_neg fun hnil => hne (congrArg some hnil)]

/-- By queries every document that probes has an entry. -/
theorem putAll_apply {lists : ChunkLists V D} (hpoints : lists.map Prod.fst = points)
    (hnodup : ∀ x ∈ lists, (ids x.2).Nodup) (doc : DocId) :
    NeighbourMap.putAll (fun _ => none) lists doc =
      if ∃ p ∈ points, p.docId = doc then
        some (ChunkLists.merged (lists.filter fun x => x.1.docId = doc))
      else none := by
  have hnone : NeighbourMap.putAll (fun _ => none) lists doc = none ↔ _ := putAll_eq_none_iff
  have hlisted : (NeighbourMap.putAll (fun _ => none) lists).listed doc = _ := listed_putAll hnodup
  split
  · rename_i hprobes
    obtain ⟨p, hp, hdoc⟩ := hprobes
    rw [← hpoints] at hp
    obtain ⟨x, hx, rfl⟩ := List.mem_map.mp hp
    have hentry : NeighbourMap.putAll (fun _ => none) lists doc ≠ none :=
      fun hv => (hnone.mp hv).1 x hx hdoc
    rw [NeighbourMap.eq_some_listed hentry, hlisted]
    rfl
  · rename_i hprobes
    refine hnone.mpr ⟨fun x hx hdoc => hprobes ⟨x.1, ?_, hdoc⟩, rfl⟩
    rw [← hpoints]
    exact List.mem_map_of_mem hx

/-- The lists of a document's chunks that a run in memory merges. -/
def flatLists (a : AnnQuery V R D) (rows : List (ChunkRow V)) (candidateDocIds : List DocId)
    (order : ℕ → HashOrder (Neighbour DocId D)) (points : List (IndexedPoint V)) (doc : DocId) :
    ChunkLists V D :=
  (a.toCrossQuery.probed (candidates rows candidateDocIds) order points).filter fun x =>
    x.1.docId = doc

theorem flatLists_fst (order : ℕ → HashOrder (Neighbour DocId D)) :
    (a.flatLists rows candidateDocIds order points doc).map Prod.fst =
      points.filter fun p => p.docId = doc :=
  filter_fst (CrossQuery.map_fst_probed _ _ order points)

theorem flatLists_nearest (order : ℕ → HashOrder (Neighbour DocId D)) :
    ∀ x ∈ a.flatLists rows candidateDocIds order points doc, IsNearest a.k
      (a.toCrossQuery.chunkPool (candidates rows candidateDocIds) x.1) x.2 := by
  intro x hx
  have hnear : IsNearest a.toCrossQuery.k
      (a.toCrossQuery.chunkPool (candidates rows candidateDocIds) x.1) x.2 :=
    CrossQuery.probed_nearest (List.mem_of_mem_filter hx)
  exact hnear

theorem everyProbeFinds_of_entries (order : ℕ → HashOrder (Neighbour DocId D))
    (h : ∀ p ∈ points, (a.flatLists rows candidateDocIds order points p.docId).merged ≠ []) :
    a.EveryProbeFinds rows candidateDocIds points := by
  intro p hp
  obtain ⟨hk, x, hx, hpool⟩ := (exists_of_merged_ne_nil (flatLists_nearest order)).mp (h p hp)
  have hpoint := List.mem_map_of_mem (f := Prod.fst) hx
  rw [flatLists_fst, List.mem_filter, decide_eq_true_iff] at hpoint
  exact ⟨hk, x.1, hpoint.1, hpoint.2, hpool⟩

theorem merged_ne_nil_of_finds (h : a.EveryProbeFinds rows candidateDocIds points)
    (order : ℕ → HashOrder (Neighbour DocId D)) {p : IndexedPoint V} (hp : p ∈ points) :
    (a.flatLists rows candidateDocIds order points p.docId).merged ≠ [] := by
  obtain ⟨hk, p', hp', hdoc, hpool⟩ := h p hp
  have hmem : p' ∈ (a.flatLists rows candidateDocIds order points p.docId).map Prod.fst := by
    rw [flatLists_fst, List.mem_filter, decide_eq_true_iff]
    exact ⟨hp', hdoc⟩
  obtain ⟨x, hx, rfl⟩ := List.mem_map.mp hmem
  exact (exists_of_merged_ne_nil (flatLists_nearest order)).mpr ⟨hk, x, hx, hpool⟩

/-- Both ways agree if and only if every document that probes finds one and ties do not matter. -/
theorem pathsAgree_iff (a : AnnQuery V R D) (rows : List (ChunkRow V)) (candidateDocIds : List DocId)
    (nearest : NearestScan V R) (points : List (IndexedPoint V))
    (h : a.ExactScan rows candidateDocIds nearest points) :
    a.PathsAgree rows candidateDocIds nearest points ↔
      a.EveryProbeFinds rows candidateDocIds points ∧
        a.TiesDoNotMatter rows candidateDocIds points := by
  constructor
  · intro hagree
    -- All runs in memory end in the map of one run by queries.
    let plain : ℕ → HashOrder (Neighbour DocId D) := fun _ => ⟨id, List.Perm.refl⟩
    obtain ⟨lists, hpoints, hnearest, hrun⟩ := queryAll_ok h plain fun _ => none
    have hsame (order : ℕ → HashOrder (Neighbour DocId D)) :
        a.toCrossQuery.probeAll (candidates rows candidateDocIds) order (fun _ => none) points =
          NeighbourMap.putAll (fun _ => none) lists := by
      obtain ⟨result, hflat, hann⟩ := hagree order plain
      rw [CrossQuery.ioCollectTopKCrossFlat_ok] at hflat
      unfold ioCollectTopKCrossAnn at hann
      rw [hrun] at hann
      exact (Except.ok.inj hflat).trans (Except.ok.inj hann).symm
    constructor
    · refine everyProbeFinds_of_entries plain fun p hp hnil => ?_
      have hflat := probeAll_apply plain points p.docId hnil
      rw [if_pos rfl, hsame plain, putAll_apply hpoints (fun x hx => (hnearest x hx).nodup),
        if_pos ⟨p, hp, rfl⟩] at hflat
      cases hflat
    · intro doc lists₁ lists₂ hpoints₁ hpoints₂ hnearest₁ hnearest₂
      have hrun₁ : ∃ order, a.flatLists rows candidateDocIds order points doc = lists₁ :=
        exists_probed_filter hpoints₁ hnearest₁
      have hrun₂ : ∃ order, a.flatLists rows candidateDocIds order points doc = lists₂ :=
        exists_probed_filter hpoints₂ hnearest₂
      obtain ⟨order₁, rfl⟩ := hrun₁
      obtain ⟨order₂, rfl⟩ := hrun₂
      have hmaps := (hsame order₁).trans (hsame order₂).symm
      have hlisted := congrArg (fun result => NeighbourMap.listed result doc) hmaps
      simp only [CrossQuery.listed_eq_merged] at hlisted
      exact hlisted
  · rintro ⟨hfinds, hties⟩ order order'
    obtain ⟨lists, hpoints, hnearest, hrun⟩ := queryAll_ok h order' fun _ => none
    refine ⟨_, CrossQuery.ioCollectTopKCrossFlat_ok order rows points candidateDocIds, ?_⟩
    unfold ioCollectTopKCrossAnn
    rw [hrun]
    congr 1
    funext doc
    have hmerged := hties doc (a.flatLists rows candidateDocIds order points doc)
      (lists.filter fun x => x.1.docId = doc) (flatLists_fst order) (filter_fst hpoints)
      (flatLists_nearest order) fun x hx => hnearest x (List.mem_of_mem_filter hx)
    rw [probeAll_apply order points doc hmerged,
      putAll_apply hpoints (fun x hx => (hnearest x hx).nodup)]
    by_cases hprobes : ∃ p ∈ points, p.docId = doc
    · obtain ⟨p, hp, rfl⟩ := hprobes
      have hne := merged_ne_nil_of_finds hfinds order hp
      rw [hmerged] at hne
      rw [if_pos ⟨p, hp, rfl⟩, if_neg hne]
    · have hnone : points.filter (fun p => p.docId = doc) = [] := by
        rw [List.filter_eq_nil_iff]
        intro p hp hdoc
        exact hprobes ⟨p, hp, by simpa using hdoc⟩
      have hempty : lists.filter (fun x => x.1.docId = doc) = [] := by
        rw [← List.map_eq_nil_iff (f := Prod.fst), filter_fst hpoints, hnone]
      rw [if_neg hprobes, hempty]
      exact (if_pos rfl).symm

/-- Where no two candidates are equally near to a chunk, there are no ties to break. -/
theorem tiesDoNotMatter_of_distinct
    (h : ∀ p ∈ points, ∀ n ∈ a.toCrossQuery.chunkPool (candidates rows candidateDocIds) p,
      ∀ m ∈ a.toCrossQuery.chunkPool (candidates rows candidateDocIds) p,
        n.distance = m.distance → n = m) : a.TiesDoNotMatter rows candidateDocIds points := by
  intro doc lists lists' hpoints hpoints' hnearest hnearest'
  have hmem (x : IndexedPoint V × List (Neighbour DocId D)) (hx : x ∈ lists) : x.1 ∈ points := by
    have hpoint := List.mem_map_of_mem (f := Prod.fst) hx
    rw [hpoints] at hpoint
    exact List.mem_of_mem_filter hpoint
  have hfst := hpoints.trans hpoints'.symm
  have hlists : lists = lists' := by
    have hlength : lists.length = lists'.length := by simpa using congrArg List.length hfst
    refine List.ext_getElem hlength fun i hi hi' => ?_
    have hat : lists[i].1 = lists'[i].1 := by
      have hplace := congrArg (fun l => l[i]?) hfst
      simpa [hi, hi'] using hplace
    have hnear := hnearest _ (List.getElem_mem hi)
    have hnear' := hnearest' _ (List.getElem_mem hi')
    rw [← hat] at hnear'
    exact Prod.ext hat (hnear.eq_of_distinct hnear' (h _ (hmem _ (List.getElem_mem hi))))
  rw [hlists]

/-- An answer with all rows that pass covers the nearest documents. -/
theorem covers_of_length_le {p : IndexedPoint V} {answer : List (DocId × R)}
    (hexact : a.IsExact rows (passes candidateDocIds p.docId) p.embedding (a.k * 2) answer)
    (hle : (rows.filter fun r => passes candidateDocIds p.docId r.docId).length ≤ a.k * 2) :
    a.Covers rows candidateDocIds p answer := by
  obtain ⟨taken, left, hall, hlength, hnearer, rfl⟩ := hexact
  have hsplit : a.Split rows candidateDocIds p taken left := ⟨hall, hnearer⟩
  have hnone : left = [] := by
    have hsum := hall.length_eq
    rw [List.length_append] at hsum
    rw [Nat.min_eq_right hle] at hlength
    exact List.eq_nil_of_length_eq_zero (by omega)
  let l := a.toCrossQuery.flatKnnTopK ⟨id, List.Perm.refl⟩ p.embedding p.docId
    (candidates rows candidateDocIds)
  have hnearest : IsNearest a.toCrossQuery.k
      (a.toCrossQuery.chunkPool (candidates rows candidateDocIds) p) l :=
    CrossQuery.flatKnnTopK_isNearest _ p
  refine ⟨l, hnearest, ?_⟩
  intro n hn
  obtain ⟨hself, hdist, _⟩ := hnearest.sub n hn
  rw [CrossQuery.chunkDistance_eq_iff, hsplit.mem_distances_iff hself, hnone, List.append_nil] at hdist
  obtain ⟨⟨r, hr, hid, _⟩, _⟩ := hdist
  simpa using ⟨r, hr, hid⟩

/-- Nearer to a probe by the raw distance. -/
def Closer (a : AnnQuery V R D) (probe : V) (r r' : ChunkRow V) : Prop :=
  a.cosineDistance probe r.embedding ≤ a.cosineDistance probe r'.embedding

instance (a : AnnQuery V R D) (probe : V) : DecidableRel (a.Closer probe) :=
  fun r r' => inferInstanceAs (Decidable (a.cosineDistance probe r.embedding ≤
    a.cosineDistance probe r'.embedding))

instance (a : AnnQuery V R D) (probe : V) : Std.Total (a.Closer probe) :=
  ⟨fun _ _ => le_total _ _⟩

instance (a : AnnQuery V R D) (probe : V) : IsTrans (ChunkRow V) (a.Closer probe) :=
  ⟨fun _ _ _ h h' => le_trans h h'⟩

/-- A query that sorts the rows and cuts them. -/
def sortedScan (a : AnnQuery V R D) (rows : List (ChunkRow V)) : NearestScan V R :=
  fun pass probe n => .ok <|
    (((rows.filter fun r => pass r.docId).insertionSort (a.Closer probe)).take n).map
      fun r => (r.docId, a.cosineDistance probe r.embedding)

theorem sortedScan_isExact (a : AnnQuery V R D) (rows : List (ChunkRow V)) (pass : DocId → Bool)
    (probe : V) (n : ℕ) :
    ∃ answer, a.sortedScan rows pass probe n = .ok answer ∧ a.IsExact rows pass probe n answer := by
  let sorted := (rows.filter fun r => pass r.docId).insertionSort (a.Closer probe)
  have hperm : sorted.Perm (rows.filter fun r => pass r.docId) := List.perm_insertionSort _ _
  have hsorted : sorted.Pairwise (a.Closer probe) := List.pairwise_insertionSort _ _
  refine ⟨_, rfl, sorted.take n, sorted.drop n, ?_, ?_, ?_, rfl⟩
  · rw [List.take_append_drop]
    exact hperm
  · rw [List.length_take, hperm.length_eq]
  · rw [← List.take_append_drop n sorted] at hsorted
    exact (List.pairwise_append.mp hsorted).2.2

end AnnQuery

end Agree

section Samples

/-- The query of `planeQuery` by the raw distances, between 0 and 2. -/
def planeAnn : AnnQuery (ℚ × ℚ) ℚ ℚ where
  cosineDistance u v := 1 - (u.1 * v.1 + u.2 * v.2)
  normalizedCosineFromLance d := max 0 (min 1 (d / 2))
  mono := fun d d' h => max_le_max le_rfl (min_le_min le_rfl (by linarith))
  k := 1
  threshold := 1 / 4

def planeProbe : List (IndexedPoint (ℚ × ℚ)) := [⟨"a", (1, 0)⟩]

theorem planeAnn_exact (rows : List (ChunkRow (ℚ × ℚ))) (hrows : rows.length ≤ 2)
    (candidateDocIds : List DocId) (points : List (IndexedPoint (ℚ × ℚ))) :
    planeAnn.ExactScan rows candidateDocIds (planeAnn.sortedScan rows) points := by
  intro p _
  obtain ⟨answer, hanswer, hexact⟩ := planeAnn.sortedScan_isExact rows
    (AnnQuery.passes candidateDocIds p.docId) p.embedding (planeAnn.k * 2)
  refine ⟨answer, hanswer, hexact, AnnQuery.covers_of_length_le hexact ?_⟩
  exact (List.length_filter_le _ _).trans hrows

/-- Two chunks of `a`, of which the second is within the threshold of both candidates, and one of
`e`. -/
def planeProbes : List (IndexedPoint (ℚ × ℚ)) :=
  [⟨"a", (1, 0)⟩, ⟨"a", (3 / 5, 4 / 5)⟩, ⟨"e", (0, 1)⟩]

def planePair : List (ChunkRow (ℚ × ℚ)) := [planeRow "b" (1, 0), planeRow "c" (0, 1)]

theorem id_of_mem_planePool {p : IndexedPoint (ℚ × ℚ)} {n : Neighbour DocId ℚ}
    (hn : n ∈ planeAnn.toCrossQuery.chunkPool (AnnQuery.candidates planePair ["b", "c"]) p) :
    n.id = "b" ∨ n.id = "c" := by
  obtain ⟨_, hdist, _⟩ := hn
  rw [CrossQuery.chunkDistance_eq_iff, CrossQuery.mem_distances] at hdist
  obtain ⟨⟨c, hc, hid, _⟩, _⟩ := hdist
  rw [← hid]
  obtain ⟨r, hr, rfl⟩ := List.mem_map.mp hc
  have hrow : r ∈ planePair := List.mem_of_mem_filter hr
  simp only [planePair, List.mem_cons, List.not_mem_nil, or_false] at hrow
  rcases hrow with rfl | rfl
  · exact .inl rfl
  · exact .inr rfl

theorem pathsAgree_when_found :
    planeAnn.PathsAgree planePair ["b", "c"] (planeAnn.sortedScan planePair) planeProbes := by
  refine (AnnQuery.pathsAgree_iff planeAnn planePair ["b", "c"] (planeAnn.sortedScan planePair)
    planeProbes (planeAnn_exact planePair le_rfl ["b", "c"] planeProbes)).mpr ⟨?_, ?_⟩
  · intro p hp
    simp only [planeProbes, List.mem_cons, List.not_mem_nil, or_false] at hp
    rcases hp with rfl | rfl | rfl
    · exact ⟨by decide, _, by decide +kernel, rfl, ⟨"b", 0⟩, by decide, by decide +kernel,
        by decide +kernel⟩
    · exact ⟨by decide, _, by decide +kernel, rfl, ⟨"c", 1 / 10⟩, by decide, by decide +kernel,
        by decide +kernel⟩
    · exact ⟨by decide, _, by decide +kernel, rfl, ⟨"c", 0⟩, by decide, by decide +kernel,
        by decide +kernel⟩
  · have hapart : ∀ p ∈ planeProbes,
        planeAnn.toCrossQuery.chunkDistance (AnnQuery.candidates planePair ["b", "c"])
          p.embedding "b" ≠
        planeAnn.toCrossQuery.chunkDistance (AnnQuery.candidates planePair ["b", "c"])
          p.embedding "c" := by decide +kernel
    refine AnnQuery.tiesDoNotMatter_of_distinct fun p hp n hn m hm hsame => ?_
    apply CrossQuery.chunkPool_inj hn hm
    have hdist := hn.2.1
    rw [hsame, ← hm.2.1] at hdist
    rcases id_of_mem_planePool hn with hb | hc <;> rcases id_of_mem_planePool hm with hb' | hc'
    · rw [hb, hb']
    · rw [hb, hc'] at hdist
      exact absurd hdist (hapart p hp)
    · rw [hc, hb'] at hdist
      exact absurd hdist.symm (hapart p hp)
    · rw [hc, hc']

/-- A document whose only candidate is too far has an entry by queries and none in memory. -/
theorem paths_differ_on_keys :
    planeAnn.ExactScan [planeRow "b" (0, 1)] ["b"] (planeAnn.sortedScan [planeRow "b" (0, 1)])
      planeProbe ∧
    (planeAnn.toCrossQuery.ioCollectTopKCrossFlat (fun _ => ⟨id, List.Perm.refl⟩)
      (.ok [planeRow "b" (0, 1)]) planeProbe ["b"]).map (fun result => result "a") = .ok none ∧
    (planeAnn.ioCollectTopKCrossAnn (fun _ => ⟨id, List.Perm.refl⟩)
      (planeAnn.sortedScan [planeRow "b" (0, 1)]) planeProbe ["b"]).map (fun result => result "a") =
        .ok (some []) := by
  refine ⟨planeAnn_exact _ (by decide) _ _, ?_, ?_⟩
  · decide +kernel
  · decide +kernel

end Samples

end Vectorlink
