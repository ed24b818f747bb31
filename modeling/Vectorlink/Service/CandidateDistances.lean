import Vectorlink.Service.Candidates
import Vectorlink.Stepwise.Fallible

/-! Which candidate entries carry their clustering distance. -/
namespace Vectorlink

open Stepwise Ranking

section Lists

variable {V R D : Type} [LinearOrder R] [LinearOrder D]

namespace AnnQuery

variable (a : AnnQuery V R D)

/-- The lists that the queries of the points give. -/
def queryLists (nearest : NearestScan V R) (candidateDocIds : List DocId) :
    (ℕ → HashOrder (Neighbour DocId D)) → List (IndexedPoint V) →
      Except StoreError (ChunkLists V D)
  | _, [] => .ok []
  | order, point :: points => do
    let rows ← nearest (passes candidateDocIds point.docId) point.embedding (a.k * 2)
    let lists ← queryLists nearest candidateDocIds (fun n => order (n + 1)) points
    .ok ((point, a.extractTopKNeighbours (order 0) rows) :: lists)

/-- The lists that the points probe for: `flat_knn_top_k` for few candidates, Lance's answers for
many. -/
def crossLists (order : ℕ → HashOrder (Neighbour DocId D)) (rows : List (ChunkRow V))
    (nearest : NearestScan V R) (points : List (IndexedPoint V)) (candidateDocIds : List DocId) :
    Except StoreError (ChunkLists V D) :=
  if candidateDocIds.length ≤ adaptiveAnnCandidateThreshold then
    .ok (a.toCrossQuery.probed (CrossQuery.candidateChunks rows candidateDocIds) order points)
  else a.queryLists nearest candidateDocIds order points

end AnnQuery

/-- The probes that get an entry: those that find someone, and by queries all. -/
def Source (candidateDocIds : List DocId) (lists : ChunkLists V D) (x : DocId) : Prop :=
  ∃ y ∈ lists, y.1.docId = x ∧
    (y.2 ≠ [] ∨ AnnQuery.adaptiveAnnCandidateThreshold < candidateDocIds.length)

/-- The map that a run makes of the lists of its points. -/
structure MapOf (candidateDocIds : List DocId) (lists : ChunkLists V D) (m : NeighbourMap D) :
    Prop where
  keys : ∀ x, m x ≠ none ↔ Source candidateDocIds lists x
  named : ∀ doc x, x ∈ ids (m.listed doc) ↔ ∃ y ∈ lists, y.1.docId = doc ∧ x ∈ ids y.2

section Run

variable {result : NeighbourMap D} {doc id x : DocId} {l : List (Neighbour DocId D)}

omit [LinearOrder R]

theorem mem_ids_listed_put : x ∈ ids ((result.put id l).listed doc) ↔
    x ∈ ids (result.listed doc) ∨ (id = doc ∧ x ∈ ids l) := by
  unfold NeighbourMap.put NeighbourMap.listed
  by_cases hid : id = doc
  · subst hid
    cases hr : result id with
    | none => simp
    | some existing => simp [mergeNeighbours, mem_ids_keepAll]
  · simp [hid, Ne.symm hid]

theorem mem_ids_listed_putAll {lists : ChunkLists V D} :
    x ∈ ids ((result.putAll lists).listed doc) ↔
      x ∈ ids (result.listed doc) ∨ ∃ y ∈ lists, y.1.docId = doc ∧ x ∈ ids y.2 := by
  induction lists generalizing result with
  | nil => simp [NeighbourMap.putAll]
  | cons y lists ih =>
    unfold NeighbourMap.putAll at ih ⊢
    rw [List.foldl_cons, ih, mem_ids_listed_put, List.exists_mem_cons_iff, or_assoc]

theorem add_eq_none_iff : result.add id l doc = none ↔ (id = doc → l = []) ∧ result doc = none := by
  unfold NeighbourMap.add
  cases l with
  | nil => simp
  | cons n l =>
    by_cases hid : id = doc
    · subst hid
      simp
    · simp [hid, Ne.symm hid]

theorem probeAll_eq_none_iff {q : CrossQuery V D} {candidates points : List (IndexedPoint V)}
    (order : ℕ → HashOrder (Neighbour DocId D)) :
    q.probeAll candidates order result points doc = none ↔
      (∀ y ∈ q.probed candidates order points, y.1.docId = doc → y.2 = []) ∧ result doc = none := by
  induction points generalizing order result with
  | nil => simp [CrossQuery.probeAll, CrossQuery.probed]
  | cons p points ih =>
    rw [CrossQuery.probeAll, CrossQuery.probed, ih, add_eq_none_iff, List.forall_mem_cons,
      and_left_comm, and_assoc]

theorem mem_ids_listed_probeAll {q : CrossQuery V D} {candidates points : List (IndexedPoint V)}
    (order : ℕ → HashOrder (Neighbour DocId D)) :
    x ∈ ids ((q.probeAll candidates order (fun _ => none) points).listed doc) ↔
      ∃ y ∈ q.probed candidates order points, y.1.docId = doc ∧ x ∈ ids y.2 := by
  rw [CrossQuery.listed_probeAll, mem_ids_keepAll]
  simp only [NeighbourMap.listed, Option.getD_none, ids_nil, List.not_mem_nil, false_or]
  rw [ids, List.map_flatMap, List.mem_flatMap]
  simp only [List.mem_filter, decide_eq_true_eq, and_assoc]
  rfl

end Run

section Collect

variable {a : AnnQuery V R D} {nearest : NearestScan V R} {candidateDocIds : List DocId}
  {points : List (IndexedPoint V)} {rows : List (ChunkRow V)}
  {snapshot : Except StoreError (List (ChunkRow V))} {m : NeighbourMap D}

namespace AnnQuery

theorem queryAll_lists (order : ℕ → HashOrder (Neighbour DocId D)) (result : NeighbourMap D)
    (h : a.queryAll nearest candidateDocIds order result points = .ok m) :
    ∃ lists, a.queryLists nearest candidateDocIds order points = .ok lists ∧
      lists.map Prod.fst = points ∧ m = result.putAll lists := by
  induction points generalizing order result with
  | nil =>
    cases h
    exact ⟨[], rfl, rfl, rfl⟩
  | cons p points ih =>
    rw [queryAll] at h
    obtain ⟨answer, hanswer, h⟩ := exceptBind_eq_ok.mp h
    obtain ⟨lists, hlists, hpoints, rfl⟩ := ih _ _ h
    refine ⟨(p, a.extractTopKNeighbours (order 0) answer) :: lists, ?_, ?_, rfl⟩
    · rw [queryLists, hanswer]
      change (do
        let lists ← a.queryLists nearest candidateDocIds (fun n => order (n + 1)) points
        Except.ok ((p, a.extractTopKNeighbours (order 0) answer) :: lists)) = _
      rw [hlists]
      rfl
    · rw [List.map_cons, hpoints]

theorem crossFlat_probeAll (order : ℕ → HashOrder (Neighbour DocId D))
    (hsnapshot : ∀ r, snapshot = .ok r → r = rows)
    (h : a.toCrossQuery.ioCollectTopKCrossFlat order snapshot points candidateDocIds = .ok m) :
    m = a.toCrossQuery.probeAll (CrossQuery.candidateChunks rows candidateDocIds) order
      (fun _ => none) points := by
  cases hs : snapshot with
  | ok r =>
    obtain rfl := hsnapshot r hs
    rw [hs, CrossQuery.ioCollectTopKCrossFlat_ok] at h
    exact (Except.ok.inj h).symm
  | error e =>
    -- nothing is read for no candidates
    cases candidateDocIds with
    | cons id rest =>
      rw [hs] at h
      cases h
    | nil =>
      rw [hs] at h
      cases h
      have hchunks : CrossQuery.candidateChunks rows [] = [] := by
        simp [CrossQuery.candidateChunks]
      rw [hchunks, CrossQuery.probeAll_nil]

/-- What the map of a run says about the lists of its points. -/
theorem ioCollectTopKCross_mapOf (order : ℕ → HashOrder (Neighbour DocId D))
    (hsnapshot : ∀ r, snapshot = .ok r → r = rows)
    (h : a.ioCollectTopKCross order snapshot nearest points candidateDocIds = .ok m) :
    ∃ lists, a.crossLists order rows nearest points candidateDocIds = .ok lists ∧
      lists.map Prod.fst = points ∧ MapOf candidateDocIds lists m := by
  unfold ioCollectTopKCross at h
  unfold crossLists
  split at h
  · next hfew =>
    rw [if_pos hfew]
    obtain rfl := crossFlat_probeAll order hsnapshot h
    refine ⟨_, rfl, CrossQuery.map_fst_probed _ _ _ _, fun x => ?_, fun doc x => ?_⟩
    · rw [ne_eq, probeAll_eq_none_iff]
      simp only [and_true, not_forall, Source, Nat.not_lt.mpr hfew, or_false, exists_prop]
    · exact mem_ids_listed_probeAll order
  · next hmany =>
    rw [if_neg hmany]
    obtain ⟨lists, hlists, hpoints, rfl⟩ := queryAll_lists order _ h
    refine ⟨lists, hlists, hpoints, fun x => ?_, fun doc x => ?_⟩
    · rw [ne_eq, putAll_eq_none_iff]
      simp only [and_true, not_forall, Source, Nat.lt_of_not_le hmany, or_true, not_not,
        exists_prop]
    · rw [mem_ids_listed_putAll]
      simp [NeighbourMap.listed]

end AnnQuery

end Collect

end Lists

section Vectors

variable {V : Type} {rows : List (ChunkRow V)}

/-- The lowest chunk of a document. -/
def docRow (rows : List (ChunkRow V)) (id : DocId) : Option (ChunkRow V) :=
  (leastPerKey (fun r => r.docId) (fun r : ChunkRow V => r.chunkIndex.toInt) rows).lookup id

/-- The stored clustering vector that stands for a document. -/
def docVector (rows : List (ChunkRow V)) (id : DocId) : Option V :=
  (docRow rows id).map fun r => r.clusteringEmbedding

theorem docVector_isSome_iff {id : DocId} :
    (docVector rows id).isSome ↔ id ∈ rows.map fun r => r.docId := by
  rw [docVector, Option.isSome_map, docRow]
  constructor
  · intro h
    obtain ⟨r, hr⟩ := Option.isSome_iff_exists.mp h
    obtain ⟨hmem, rfl⟩ := mem_of_lookup_leastPerKey hr
    exact List.mem_map_of_mem hmem
  · intro h
    obtain ⟨r, hr, hid⟩ := List.mem_map.mp h
    exact Option.isSome_iff_exists.mpr (exists_lookup_leastPerKey hr hid)

/-- A fetch by ids gives the vectors of these documents and no others. -/
theorem ioFetchResultEmbeddings_ids {docIds : List DocId} (h : docIds ≠ []) (column : ChunkRow V → V)
    (id : DocId) : ioFetchResultEmbeddings rows docIds [] column id =
      if id ∈ docIds then (docRow rows id).map column else none := by
  have hfilter : buildFilterExpr ([] : List String) docIds =
      some fun r : ChunkRow V => docIds.contains r.docId := by
    cases docIds with
    | nil => exact absurd rfl h
    | cons x xs => rfl
  unfold ioFetchResultEmbeddings
  rw [hfilter, lookup_leastPerKey]
  by_cases hid : id ∈ docIds
  · have hkey : withKey (fun r : ChunkRow V => r.docId) id
        (scanRows (some fun r => docIds.contains r.docId) rows) =
          withKey (fun r => r.docId) id rows := by
      rw [withKey, scanRows, List.filter_filter, withKey]
      refine List.filter_congr fun r _ => ?_
      by_cases hr : r.docId = id <;> simp [hr, hid]
    rw [hkey, if_pos hid, docRow, lookup_leastPerKey]
  · have hkey : withKey (fun r : ChunkRow V => r.docId) id
        (scanRows (some fun r => docIds.contains r.docId) rows) = [] := by
      refine List.eq_nil_iff_forall_not_mem.mpr fun r hr => ?_
      obtain ⟨hmem, rfl⟩ := mem_withKey.mp hr
      simp [scanRows, hid] at hmem
    rw [hkey, if_neg hid]
    rfl

end Vectors

section Entries

variable {F R D : Type}

section Keys

variable {rows : List (ChunkRow (List F))} {maps : ResolveNeighbourMaps D} {m : NeighbourMap D}
  {includeAny : Bool} {id : DocId}

theorem mem_mapKeys : id ∈ mapKeys rows m ↔ (docVector rows id).isSome ∧ m id ≠ none := by
  rw [mapKeys, List.mem_filter, List.mem_dedup, docVector_isSome_iff, Option.isSome_iff_ne_none]

theorem mem_clusteringDocIds : id ∈ clusteringDocIds rows maps includeAny ↔
    (includeAny = true ∧
      (id ∈ neighbourIds rows maps.setToTarget ∨ id ∈ neighbourIds rows maps.targetToSet)) ∨
      id ∈ mapKeys rows maps.setToTarget ∨ id ∈ mapKeys rows maps.targetToSet := by
  unfold clusteringDocIds allDocIds
  cases includeAny with
  | true =>
    simp only [if_true, List.mem_append, true_and]
    tauto
  | false => simp

theorem scopePoints_docId {docTypes : List String} {docIds : List DocId}
    {p : IndexedPoint (List F)} (h : p ∈ scopePoints rows docTypes docIds) :
    p.docId ∈ rows.map fun r => r.docId := by
  simp only [scopePoints, ioScanPoints, List.map_map, List.mem_map] at h
  obtain ⟨r, hr, rfl⟩ := h
  exact List.mem_map_of_mem (mem_scanRows.mp hr).1

end Keys

variable [LinearOrder R] [LinearOrder D] [CommMagma F] [Add F] [Zero F] [One F] [Sub F] [Max F]

omit [One F] [Sub F] [Max F] in
theorem dotProduct_comm (u v : List F) : dotProduct u v = dotProduct v u := by
  rw [dotProduct, List.zipWith_comm_of_comm mul_comm, dotProduct]

theorem clusteringDistance_comm (u v : List F) : clusteringDistance u v = clusteringDistance v u := by
  rw [clusteringDistance, dotProduct_comm, clusteringDistance]

/-- Every entry between documents of the snapshot has its distance, which is the same function of
the vector of the set document and that of the target document in both maps. -/
structure CarriesClustering (rows : List (ChunkRow (List F))) (result : CandidatesResult F D) :
    Prop where
  setToTarget : ∀ src entries e u v, result.setToTarget src = some entries → e ∈ entries →
    docVector rows src = some u → docVector rows e.id = some v →
      e.clusteringDistance = some (clusteringDistance u v)
  targetToSet : ∀ src entries e u v, result.targetToSet src = some entries → e ∈ entries →
    docVector rows src = some u → docVector rows e.id = some v →
      e.clusteringDistance = some (clusteringDistance v u)

namespace CandidatesEnv

variable (env : CandidatesEnv F R D) (req : CandidatesRequest D) (rows : List (ChunkRow (List F)))

omit [CommMagma F] [Add F] [Zero F] [One F] [Sub F] [Max F] in
/-- Whoever is named as a neighbour gets an entry of its own, in one direction or the other. -/
def NeighboursProbe : Prop :=
  ∀ toTarget toSet,
    (env.query req req.thresholdSet).crossLists env.orderSet rows env.nearest
      (setPoints req.scope rows) (pointDocIds (targetPoints req.scope rows)) = .ok toTarget →
    (env.query req req.thresholdTarget).crossLists env.orderTarget rows env.nearest
      (targetPoints req.scope rows) (pointDocIds (setPoints req.scope rows)) = .ok toSet →
    ∀ y ∈ toTarget ++ toSet, ∀ x ∈ ids y.2, (docVector rows x).isSome →
      Source (pointDocIds (targetPoints req.scope rows)) toTarget x ∨
        Source (pointDocIds (setPoints req.scope rows)) toSet x

variable {env req rows}

/-- The entries of one map carry their distances if the vectors of all neighbours were fetched. -/
theorem entries_carry_iff {m : NeighbourMap D} {docIds : List DocId}
    {embeddings : DocId → Option (List F)} {contents : DocId → Option String}
    (hclustering : env.storeClustering = true)
    (hkeys : ∀ src, m src ≠ none → (docVector rows src).isSome → src ∈ docIds) :
    (∀ src entries (e : CandidateEntry F D) u v,
      (m src).map (fun nbrs => nbrs.map (env.convert req (ioFetchResultEmbeddings rows docIds []
        fun r => r.clusteringEmbedding) embeddings contents src)) = some entries → e ∈ entries →
      docVector rows src = some u → docVector rows e.id = some v →
        e.clusteringDistance = some (clusteringDistance u v)) ↔
      ∀ src x, x ∈ ids (m.listed src) → (docVector rows src).isSome → (docVector rows x).isSome →
        x ∈ docIds := by
  have hfetch (src : DocId) (hsrc : m src ≠ none) (hvec : (docVector rows src).isSome) (x : DocId) :
      ioFetchResultEmbeddings rows docIds [] (fun r => r.clusteringEmbedding) x =
        if x ∈ docIds then docVector rows x else none :=
    ioFetchResultEmbeddings_ids (List.ne_nil_of_mem (hkeys src hsrc hvec)) _ x
  constructor
  · intro h src x hx hsrc hxvec
    obtain ⟨dist, hn⟩ := mem_ids.mp hx
    obtain ⟨u, hu⟩ := Option.isSome_iff_exists.mp hsrc
    obtain ⟨v, hv⟩ := Option.isSome_iff_exists.mp hxvec
    have hentry : m src ≠ none := by
      intro hnone
      rw [NeighbourMap.listed, hnone] at hn
      cases hn
    by_contra hnot
    have hsome := h src _ _ u v (by rw [NeighbourMap.eq_some_listed hentry]; rfl)
      (List.mem_map_of_mem hn) hu hv
    rw [convert, hclustering] at hsome
    simp [hfetch src hentry hsrc, hnot] at hsome
  · intro h src entries e u v hentries he hu hv
    obtain ⟨nbrs, hm, rfl⟩ := Option.map_eq_some_iff.mp hentries
    obtain ⟨n, hn, rfl⟩ := List.mem_map.mp he
    have hentry : m src ≠ none := by simp [hm]
    have hsrc : (docVector rows src).isSome := by rw [hu]; rfl
    have hxvec : (docVector rows n.id).isSome := by
      change docVector rows n.id = some v at hv
      rw [hv]
      rfl
    have hmem : n.id ∈ docIds :=
      h src n.id (by rw [NeighbourMap.listed, hm]; exact id_mem_ids hn) hsrc hxvec
    change docVector rows n.id = some v at hv
    simp [convert, hclustering, hfetch src hentry hsrc, hkeys src hentry hsrc, hmem, hu, hv]

section Gather

variable {maps : ResolveNeighbourMaps D} {result : CandidatesResult F D} {maxPoints : ℕ}

omit [CommMagma F] [Add F] [Zero F] [One F] [Sub F] [Max F] in
theorem read_ok {α : Type} {r : CandidatesRead} {x y : α} (h : env.read r x = .ok y) : y = x := by
  unfold read at h
  split at h
  · cases h
  · exact (Except.ok.inj h).symm

omit [CommMagma F] [Add F] [Zero F] [One F] [Sub F] [Max F] in
theorem ioResolveCrossNeighbours_lists
    (h : env.ioResolveCrossNeighbours req rows maxPoints = .ok maps) :
    ∃ toTarget toSet,
      ((env.query req req.thresholdSet).crossLists env.orderSet rows env.nearest
        (setPoints req.scope rows) (pointDocIds (targetPoints req.scope rows)) = .ok toTarget ∧
      toTarget.map Prod.fst = setPoints req.scope rows ∧
      MapOf (pointDocIds (targetPoints req.scope rows)) toTarget maps.setToTarget) ∧
      ((env.query req req.thresholdTarget).crossLists env.orderTarget rows env.nearest
        (targetPoints req.scope rows) (pointDocIds (setPoints req.scope rows)) = .ok toSet ∧
      toSet.map Prod.fst = targetPoints req.scope rows ∧
      MapOf (pointDocIds (setPoints req.scope rows)) toSet maps.targetToSet) := by
  unfold ioResolveCrossNeighbours at h
  obtain ⟨_, _, h⟩ := exceptBind_eq_ok.mp h
  dsimp only at h
  split at h
  · cases h
  · obtain ⟨m, hm, h⟩ := exceptBind_eq_ok.mp h
    obtain ⟨m', hm', h⟩ := exceptBind_eq_ok.mp h
    cases h
    obtain ⟨toTarget, htarget⟩ := AnnQuery.ioCollectTopKCross_mapOf env.orderSet
      (fun r hr => read_ok hr) hm
    obtain ⟨toSet, hset⟩ := AnnQuery.ioCollectTopKCross_mapOf env.orderTarget
      (fun r hr => read_ok hr) hm'
    exact ⟨toTarget, toSet, htarget, hset⟩

/-- The maps of an answer, from what was fetched. -/
theorem gather_ok (hclustering : env.storeClustering = true) (h : env.gather req rows = .ok result) :
    ∃ maps embeddings contents,
      env.ioResolveCrossNeighbours req rows defaultDuplicateMaxPoints = .ok maps ∧
      let entries (m : NeighbourMap D) : CandidateMap F D := fun id =>
        (m id).map fun nbrs => nbrs.map (env.convert req (ioFetchResultEmbeddings rows
          (clusteringDocIds rows maps (req.includeEmbeddings || req.includeContent)) []
          fun r => r.clusteringEmbedding) embeddings contents id)
      result.setToTarget = entries maps.setToTarget ∧
        result.targetToSet = entries maps.targetToSet := by
  unfold gather at h
  obtain ⟨maps, hmaps, h⟩ := exceptBind_eq_ok.mp h
  obtain ⟨embeddings, _, h⟩ := exceptBind_eq_ok.mp h
  obtain ⟨contents, _, h⟩ := exceptBind_eq_ok.mp h
  obtain ⟨clustering, hread, h⟩ := exceptBind_eq_ok.mp h
  rw [if_pos hclustering] at hread
  obtain rfl := read_ok hread
  cases h
  exact ⟨maps, embeddings, contents, hmaps, rfl, rfl⟩

omit [LinearOrder D] [CommMagma F] [Add F] [Zero F] [One F] [Sub F] [Max F] in
theorem setPoints_docId {p : IndexedPoint (List F)} (h : p ∈ setPoints req.scope rows) :
    (docVector rows p.docId).isSome :=
  docVector_isSome_iff.mpr (scopePoints_docId h)

omit [LinearOrder D] [CommMagma F] [Add F] [Zero F] [One F] [Sub F] [Max F] in
theorem targetPoints_docId {p : IndexedPoint (List F)} (h : p ∈ targetPoints req.scope rows) :
    (docVector rows p.docId).isSome := by
  unfold targetPoints at h
  split at h
  · exact docVector_isSome_iff.mpr (scopePoints_docId h)
  · exact setPoints_docId h

omit [CommMagma F] [Add F] [Zero F] [One F] [Sub F] [Max F] in
/-- The vectors of all neighbours are fetched for a flag, or if the neighbours probe. -/
theorem neighbours_fetched_iff
    (h : env.ioResolveCrossNeighbours req rows maxPoints = .ok maps) (includeAny : Bool) :
    (∀ m ∈ [maps.setToTarget, maps.targetToSet], ∀ src x, x ∈ ids (m.listed src) →
      (docVector rows src).isSome → (docVector rows x).isSome →
        x ∈ clusteringDocIds rows maps includeAny) ↔
      includeAny = true ∨ env.NeighboursProbe req rows := by
  obtain ⟨toTarget, toSet, ⟨hto, hpoints, hmap⟩, ⟨hto', hpoints', hmap'⟩⟩ :=
    ioResolveCrossNeighbours_lists h
  constructor
  · intro hall
    cases includeAny with
    | true => exact .inl rfl
    | false =>
      refine .inr fun l l' hl hl' y hy x hx hvec => ?_
      obtain rfl := Except.ok.inj (hto.symm.trans hl)
      obtain rfl := Except.ok.inj (hto'.symm.trans hl')
      have hfetched : x ∈ clusteringDocIds rows maps false := by
        rcases List.mem_append.mp hy with hy | hy
        · refine hall _ (by simp) y.1.docId x ((hmap.named _ _).mpr ⟨y, hy, rfl, hx⟩) ?_ hvec
          exact setPoints_docId (hpoints ▸ List.mem_map_of_mem hy)
        · refine hall _ (by simp) y.1.docId x ((hmap'.named _ _).mpr ⟨y, hy, rfl, hx⟩) ?_ hvec
          exact targetPoints_docId (hpoints' ▸ List.mem_map_of_mem hy)
      rcases mem_clusteringDocIds.mp hfetched with ⟨hfalse, _⟩ | hkey | hkey
      · cases hfalse
      · exact .inl ((hmap.keys x).mp (mem_mapKeys.mp hkey).2)
      · exact .inr ((hmap'.keys x).mp (mem_mapKeys.mp hkey).2)
  · intro hwhen m hm src x hx hsrc hvec
    rw [mem_clusteringDocIds]
    rcases hwhen with hany | hprobe
    · refine .inl ⟨hany, ?_⟩
      have hnamed (m : NeighbourMap D) (hx : x ∈ ids (m.listed src)) :
          x ∈ neighbourIds rows m := by
        refine List.mem_flatMap.mpr ⟨src, mem_mapKeys.mpr ⟨hsrc, fun hnone => ?_⟩, hx⟩
        rw [NeighbourMap.listed, hnone] at hx
        cases hx
      rcases List.mem_pair.mp hm with rfl | rfl
      · exact .inl (hnamed _ hx)
      · exact .inr (hnamed _ hx)
    · have hsource : Source (pointDocIds (targetPoints req.scope rows)) toTarget x ∨
          Source (pointDocIds (setPoints req.scope rows)) toSet x := by
        rcases List.mem_pair.mp hm with rfl | rfl
        · obtain ⟨y, hy, _, hxy⟩ := (hmap.named _ _).mp hx
          exact hprobe _ _ hto hto' y (List.mem_append_left _ hy) x hxy hvec
        · obtain ⟨y, hy, _, hxy⟩ := (hmap'.named _ _).mp hx
          exact hprobe _ _ hto hto' y (List.mem_append_right _ hy) x hxy hvec
      refine .inr (hsource.imp (fun hs => ?_) fun hs => ?_)
      · exact mem_mapKeys.mpr ⟨hvec, (hmap.keys x).mpr hs⟩
      · exact mem_mapKeys.mpr ⟨hvec, (hmap'.keys x).mpr hs⟩

theorem gather_carries_iff (hclustering : env.storeClustering = true)
    (h : env.gather req rows = .ok result) :
    CarriesClustering rows result ↔
      (req.includeEmbeddings || req.includeContent) = true ∨ env.NeighboursProbe req rows := by
  obtain ⟨maps, embeddings, contents, hmaps, hset, htarget⟩ := gather_ok hclustering h
  rw [← neighbours_fetched_iff hmaps, List.forall_mem_cons, List.forall_mem_singleton,
    ← entries_carry_iff hclustering fun src hsrc hvec => mem_clusteringDocIds.mpr
      (.inr (.inl (mem_mapKeys.mpr ⟨hvec, hsrc⟩))),
    ← entries_carry_iff hclustering fun src hsrc hvec => mem_clusteringDocIds.mpr
      (.inr (.inr (mem_mapKeys.mpr ⟨hvec, hsrc⟩)))]
  constructor
  · intro hcarries
    refine ⟨fun src entries e u v hentries => ?_, fun src entries e u v hentries he hu hv => ?_⟩
    · exact hcarries.setToTarget src entries e u v (by rw [hset]; exact hentries)
    · rw [clusteringDistance_comm]
      exact hcarries.targetToSet src entries e u v (by rw [htarget]; exact hentries) he hu hv
  · intro ⟨hfst, hsnd⟩
    refine ⟨fun src entries e u v hentries => ?_, fun src entries e u v hentries he hu hv => ?_⟩
    · exact hfst src entries e u v (by rw [hset] at hentries; exact hentries)
    · rw [clusteringDistance_comm]
      exact hsnd src entries e u v (by rw [htarget] at hentries; exact hentries) he hu hv

/-- The vectors of the neighbours are fetched only along with what the flags ask for, else only
those of the documents that have an entry of their own. -/
theorem carriesClustering_iff {d : Domain (List F)} {branch : BranchName}
    {commit servedCommit : CommitId} (hclustering : env.storeClustering = true)
    (hserved : (resolveSearchableCommit branch commit req.ancestors
      (d.branchIndexes.lookup branch)).runAt d.opened = .ok servedCommit)
    (hrows : (ioSnapshotFromCache servedCommit).runAt d.opened = .ok rows)
    (h : env.candidatesGather req d branch commit = .ok result) :
    CarriesClustering rows result ↔
      req.includeEmbeddings = true ∨ req.includeContent = true ∨ env.NeighboursProbe req rows := by
  unfold candidatesGather at h
  split at h
  · cases h
  · rw [hserved] at h
    dsimp only at h
    rw [hrows] at h
    dsimp only at h
    cases hgather : env.gather req rows with
    | error e =>
      rw [hgather] at h
      cases h
    | ok answer =>
      rw [hgather] at h
      cases h
      rw [gather_carries_iff hclustering hgather, Bool.or_eq_true, or_assoc]

end Gather

end CandidatesEnv

end Entries

section Samples

def unitRow (docId : DocId) (x y : ℚ) : ChunkRow (List ℚ) :=
  ⟨docId, "Doc", 0, 1, 0, 1, [x, y], [x, y], "text"⟩

def unitRows : List (ChunkRow (List ℚ)) := [unitRow "a" 1 0, unitRow "b" (3 / 5) (4 / 5)]

/-- Two documents, tagged as one commit. -/
def unitDomain : Domain (List ℚ) where
  dataset := some ⟨.start 1 unitRows, ∅, (∅ : AList _).insert "c0" ⟨none, 1, 0⟩, 0⟩
  cached := none
  branchIndexes := ∅

def unitEnv : CandidatesEnv ℚ ℚ ℚ where
  searchReady := true
  storeClustering := true
  cosineDistance u v := 1 - dotProduct u v
  normalizedCosineFromLance d := max 0 (min 1 (d / 2))
  mono := planeAnn.mono
  nearest _ _ _ := .ok []
  fails _ := none
  orderSet _ := ⟨id, List.Perm.refl⟩
  orderTarget _ := ⟨id, List.Perm.refl⟩

/-- `a` is the set and `b` the target, with no flags. -/
def unitRequest (thresholdTarget : ℚ) : CandidatesRequest ℚ :=
  ⟨⟨[], ["a"], [], ["b"]⟩, 1, 1 / 4, thresholdTarget, false, false, []⟩

def unitAnswer (thresholdTarget : ℚ) : Except ServiceError (CandidatesResult ℚ ℚ) :=
  unitEnv.candidatesGather (unitRequest thresholdTarget) unitDomain mainBranch "c0"

theorem unit_served (thresholdTarget : ℚ) :
    (resolveSearchableCommit mainBranch "c0" (unitRequest thresholdTarget).ancestors
      (unitDomain.branchIndexes.lookup mainBranch)).runAt unitDomain.opened = .ok "c0" ∧
    (ioSnapshotFromCache "c0").runAt unitDomain.opened = .ok unitRows :=
  ⟨rfl, rfl⟩

theorem unit_answers (thresholdTarget : ℚ) : ∃ result, unitAnswer thresholdTarget = .ok result :=
  ⟨_, rfl⟩

/-- With one threshold for both directions each of the two is a neighbour and probes. -/
theorem unit_carries : ∃ result, unitAnswer (1 / 4) = .ok result ∧
    CarriesClustering unitRows result := by
  obtain ⟨result, hresult⟩ := unit_answers (1 / 4)
  obtain ⟨hserved, hrows⟩ := unit_served (1 / 4)
  refine ⟨result, hresult, ?_⟩
  rw [CandidatesEnv.carriesClustering_iff rfl hserved hrows hresult]
  refine .inr (.inr fun toTarget toSet htarget hset y hy x hx _ => ?_)
  obtain rfl : [(⟨"a", [1, 0]⟩, [⟨"b", 1 / 5⟩])] = toTarget :=
    Except.ok.inj ((by decide +kernel : _ = _).trans htarget)
  obtain rfl : [(⟨"b", [3 / 5, 4 / 5]⟩, [⟨"a", 1 / 5⟩])] = toSet :=
    Except.ok.inj ((by decide +kernel : _ = _).trans hset)
  rcases List.mem_pair.mp hy with rfl | rfl
  · obtain rfl := List.mem_singleton.mp hx
    exact .inr ⟨_, List.mem_singleton_self _, rfl, .inl (List.cons_ne_nil _ _)⟩
  · obtain rfl := List.mem_singleton.mp hx
    exact .inl ⟨_, List.mem_singleton_self _, rfl, .inl (List.cons_ne_nil _ _)⟩

/-- The target finds nobody within its own threshold, so its vector is not fetched. -/
theorem unit_lacks_distance : ∃ result, unitAnswer (1 / 10) = .ok result ∧
    (result.setToTarget "a").map (fun entries => entries.map fun e => (e.id, e.clusteringDistance)) =
      some [("b", none)] ∧
    ¬ CarriesClustering unitRows result := by
  obtain ⟨result, hresult⟩ := unit_answers (1 / 10)
  have hentry : (unitAnswer (1 / 10)).map (fun result => (result.setToTarget "a").map fun entries =>
      entries.map fun e => (e.id, e.clusteringDistance)) = .ok (some [("b", none)]) := by
    decide +kernel
  rw [hresult] at hentry
  have hnone := Except.ok.inj hentry
  refine ⟨result, hresult, hnone, fun hcarries => ?_⟩
  obtain ⟨entries, hentries, hlist⟩ := Option.map_eq_some_iff.mp hnone
  obtain ⟨e, he, hpair⟩ : ∃ e ∈ entries, (e.id, e.clusteringDistance) = ("b", none) :=
    List.mem_map.mp (by rw [hlist]; exact List.mem_singleton_self _)
  obtain ⟨hid, hdistance⟩ := Prod.mk.inj hpair
  have hsome := hcarries.setToTarget "a" entries e [1, 0] [3 / 5, 4 / 5] hentries he rfl
    (by rw [hid]; rfl)
  rw [hdistance] at hsome
  cases hsome

end Samples

end Vectorlink
