import Vectorlink.Store.Duplicates

/-! The scan for near-duplicates within a set of documents, or between a set and a target. -/
namespace Vectorlink

open Ranking

variable {V D : Type}

def defaultDuplicateMaxPairs : ℕ := 10000

structure DuplicateScope where
  setDocTypes : List String
  setDocIds : List DocId
  targetDocTypes : List String
  targetDocIds : List DocId
deriving DecidableEq

def DuplicateScope.hasTarget (scope : DuplicateScope) : Bool :=
  !scope.targetDocTypes.isEmpty || !scope.targetDocIds.isEmpty

/-- A point of the scan, with its text if snippets were asked for. -/
structure SnippetPoint (V : Type) extends IndexedPoint V where
  content : Option String

/-- Lance's filtered nearest-neighbour search over the rows of a version. -/
structure DuplicateEnv (V D : Type) where
  normalizedCosineFromLance : D → D
  nearest : List (ChunkRow V) → V → ℕ → (ChunkRow V → Bool) →
    Except StoreError (List (ChunkRow V × D))

/-- Lance answers a filtered search with rows of the version that pass the filter. -/
structure DuplicateEnv.Filters (env : DuplicateEnv V D) : Prop where
  mem : ∀ {rows probe k filter found row d}, env.nearest rows probe k filter = .ok found →
    (row, d) ∈ found → row ∈ rows
  passes : ∀ {rows probe k filter found row d}, env.nearest rows probe k filter = .ok found →
    (row, d) ∈ found → filter row = true

section Model

/-- No filter if both lists are empty, otherwise the conjunction of the lists that are not. -/
def buildFilterExpr (docTypes : List String) (docIds : List DocId) :
    Option (ChunkRow V → Bool) :=
  match docTypes.isEmpty, docIds.isEmpty with
  | true, true => none
  | false, true => some fun r => docTypes.contains r.docType
  | true, false => some fun r => docIds.contains r.docId
  | false, false => some fun r => docTypes.contains r.docType && docIds.contains r.docId

def buildNeighbourFilter (selfDocId : DocId) (scope : DuplicateScope) : ChunkRow V → Bool :=
  if scope.hasTarget then
    match buildFilterExpr scope.targetDocTypes scope.targetDocIds with
    | some target => fun r => r.docId != selfDocId && target r
    -- the source panics here; a target has a non-empty list
    | none => fun _ => false
  else fun r => r.docId != selfDocId

/-- The rows a scan with an optional filter gives. -/
def scanRows (filter : Option (ChunkRow V → Bool)) (rows : List (ChunkRow V)) :
    List (ChunkRow V) :=
  match filter with
  | some f => rows.filter f
  | none => rows

def ioScanPoints (rows : List (ChunkRow V)) (setFilter : Option (ChunkRow V → Bool))
    (snippet : Bool) : List (SnippetPoint V) :=
  (scanRows setFilter rows).map fun r =>
    ⟨⟨r.docId, r.embedding⟩, if snippet then some r.content else none⟩

namespace DuplicateEnv

variable (env : DuplicateEnv V D)

/-- The nearest row of an answer. -/
def nearestObservation (found : List (ChunkRow V × D)) (point : SnippetPoint V) (snippet : Bool) :
    Option (NeighbourObservation D) :=
  found.head?.map fun row =>
    ⟨point.docId, row.1.docId, env.normalizedCosineFromLance row.2, point.content,
      if snippet then some row.1.content else none⟩

def ioNearestNeighbour (rows : List (ChunkRow V)) (point : SnippetPoint V)
    (scope : DuplicateScope) (snippet : Bool) :
    Except StoreError (Option (NeighbourObservation D)) := do
  let found ← env.nearest rows point.embedding 8 (buildNeighbourFilter point.docId scope)
  pure (env.nearestObservation found point snippet)

def ioCollectNeighbours (rows : List (ChunkRow V)) (scope : DuplicateScope) (snippet : Bool) :
    List (SnippetPoint V) → Except StoreError (List (NeighbourObservation D))
  | [] => pure []
  | point :: points => do
    let obs ← env.ioNearestNeighbour rows point scope snippet
    let observations ← ioCollectNeighbours rows scope snippet points
    pure (obs.toList ++ observations)

variable [LinearOrder D]

def ioDuplicateGroups (order : HashOrder (CanonicalObservation D))
    (snapshot : Except StoreError (List (ChunkRow V))) (threshold : D) (scope : DuplicateScope)
    (snippet : Bool) (maxPoints : ℕ) : Except StoreError (List (DuplicateGroup D)) := do
  let rows ← snapshot
  let setFilter := buildFilterExpr scope.setDocTypes scope.setDocIds
  let setPointCount := (scanRows setFilter rows).length
  if setPointCount > maxPoints then
    .error (.internal s!"near-duplicate scan refused: set population has {setPointCount} points, exceeds the bound of {maxPoints} (would not be a safely bounded run) — narrow the `set` scope or chunk the request" none)
  else do
    let points := ioScanPoints rows setFilter snippet
    let observations ← env.ioCollectNeighbours rows scope snippet points
    pure (pairsFromNeighbours order observations threshold defaultDuplicateMaxPairs)

end DuplicateEnv

end Model

section Spec

/-- A document with a chunk that passes the two lists, an empty list letting everything pass. -/
def InPopulation (rows : List (ChunkRow V)) (docTypes : List String) (docIds : List DocId)
    (x : DocId) : Prop :=
  ∃ r ∈ rows, r.docId = x ∧ (docTypes = [] ∨ r.docType ∈ docTypes) ∧ (docIds = [] ∨ r.docId ∈ docIds)

def DuplicateScope.InSet (scope : DuplicateScope) (rows : List (ChunkRow V)) (x : DocId) : Prop :=
  InPopulation rows scope.setDocTypes scope.setDocIds x

def DuplicateScope.InTarget (scope : DuplicateScope) (rows : List (ChunkRow V)) (x : DocId) :
    Prop :=
  InPopulation rows scope.targetDocTypes scope.targetDocIds x

/-- Two distinct documents, both of the set if there is no target, otherwise one of the set and
one of the target. -/
def DuplicateScope.Admits (scope : DuplicateScope) (rows : List (ChunkRow V)) (x y : DocId) :
    Prop :=
  x ≠ y ∧ if scope.hasTarget
    then scope.InSet rows x ∧ scope.InTarget rows y ∨ scope.InSet rows y ∧ scope.InTarget rows x
    else scope.InSet rows x ∧ scope.InSet rows y

def RespectsScope (scope : DuplicateScope) (rows : List (ChunkRow V))
    (groups : List (DuplicateGroup D)) : Prop :=
  ∀ g ∈ groups, scope.Admits rows (g.group.get 0).id (g.group.get 1).id

/-- What Lance answers to the chunks of the set: for each the first row. -/
def DuplicateEnv.sightings (env : DuplicateEnv V D) (rows : List (ChunkRow V))
    (scope : DuplicateScope) (snippet : Bool) : List (NeighbourObservation D) :=
  (ioScanPoints rows (buildFilterExpr scope.setDocTypes scope.setDocIds) snippet).filterMap
    fun point => (env.nearest rows point.embedding 8
      (buildNeighbourFilter point.docId scope)).toOption.bind fun found =>
        env.nearestObservation found point snippet

/-- The pairs that are nearer than a pair. -/
def nearerPairs [LinearOrder D] (observations : List (NeighbourObservation D)) (threshold : D)
    (p : DocId ×ₗ DocId) : Set (DocId ×ₗ DocId) :=
  {q | q ∈ duplicatePairs observations threshold ∧
    Before (pairDistance observations threshold) q p}

/-- A chunk of the set whose nearest row within the threshold is of a document outside, in a
pair that is among those shown. -/
def Strays [LinearOrder D] (env : DuplicateEnv V D) (rows : List (ChunkRow V)) (threshold : D)
    (scope : DuplicateScope) (snippet : Bool) : Prop :=
  ∃ obs ∈ env.sightings rows scope snippet, obs.normalizedDistance ≤ threshold ∧
    ¬ scope.InSet rows obs.docB ∧
    (nearerPairs (env.sightings rows scope snippet) threshold
      (toLex (canonicalObservation obs).pair)).ncard < defaultDuplicateMaxPairs

end Spec

section Filters

variable {rows : List (ChunkRow V)} {docTypes : List String} {docIds : List DocId}

theorem buildFilterExpr_iff {f : ChunkRow V → Bool} (h : buildFilterExpr docTypes docIds = some f)
    (r : ChunkRow V) : f r = true ↔
      (docTypes = [] ∨ r.docType ∈ docTypes) ∧ (docIds = [] ∨ r.docId ∈ docIds) := by
  unfold buildFilterExpr at h
  cases docTypes <;> cases docIds <;> simp at h <;> subst h <;> simp

theorem mem_scanRows {r : ChunkRow V} :
    r ∈ scanRows (buildFilterExpr docTypes docIds) rows ↔
      r ∈ rows ∧ (docTypes = [] ∨ r.docType ∈ docTypes) ∧ (docIds = [] ∨ r.docId ∈ docIds) := by
  unfold scanRows
  cases h : (buildFilterExpr docTypes docIds : Option (ChunkRow V → Bool)) with
  | none =>
    have hempty : docTypes = [] ∧ docIds = [] := by
      unfold buildFilterExpr at h
      cases docTypes <;> cases docIds <;> simp at h ⊢
    simp [hempty]
  | some f => rw [List.mem_filter, buildFilterExpr_iff h]

theorem inPopulation_iff {x : DocId} :
    InPopulation rows docTypes docIds x ↔
      ∃ r ∈ scanRows (buildFilterExpr docTypes docIds) rows, r.docId = x := by
  unfold InPopulation
  constructor
  · rintro ⟨r, hr, hx, hpass⟩
    exact ⟨r, mem_scanRows.mpr ⟨hr, hpass⟩, hx⟩
  · rintro ⟨r, hr, hx⟩
    obtain ⟨hr, hpass⟩ := mem_scanRows.mp hr
    exact ⟨r, hr, hx, hpass⟩

/-- A row that the filter of a probe lets through is of another document, and of the target if
there is one. -/
theorem of_buildNeighbourFilter {selfDocId : DocId} {scope : DuplicateScope} {r : ChunkRow V}
    (hr : r ∈ rows) (h : buildNeighbourFilter selfDocId scope r = true) :
    r.docId ≠ selfDocId ∧ (scope.hasTarget = true → scope.InTarget rows r.docId) := by
  unfold buildNeighbourFilter at h
  by_cases hyes : scope.hasTarget = true
  · rw [if_pos hyes] at h
    cases htarget : (buildFilterExpr scope.targetDocTypes scope.targetDocIds :
        Option (ChunkRow V → Bool)) with
    | none =>
      rw [htarget] at h
      cases h
    | some target =>
      rw [htarget] at h
      dsimp only at h
      rw [Bool.and_eq_true, bne_iff_ne] at h
      exact ⟨h.1, fun _ => ⟨r, hr, rfl, (buildFilterExpr_iff htarget r).mp h.2⟩⟩
  · rw [if_neg hyes, bne_iff_ne] at h
    exact ⟨h, fun h => absurd h hyes⟩

end Filters

section Scan

variable {env : DuplicateEnv V D} {rows : List (ChunkRow V)} {scope : DuplicateScope}
  {snippet : Bool}

/-- A scan that returns has the answers of Lance. -/
theorem ioCollectNeighbours_eq {points : List (SnippetPoint V)}
    {observations : List (NeighbourObservation D)}
    (h : env.ioCollectNeighbours rows scope snippet points = .ok observations) :
    observations = points.filterMap fun point => (env.nearest rows point.embedding 8
      (buildNeighbourFilter point.docId scope)).toOption.bind fun found =>
        env.nearestObservation found point snippet := by
  induction points generalizing observations with
  | nil =>
    obtain rfl := Except.ok.inj h
    rfl
  | cons point points ih =>
    unfold DuplicateEnv.ioCollectNeighbours DuplicateEnv.ioNearestNeighbour at h
    cases hfound : env.nearest rows point.embedding 8 (buildNeighbourFilter point.docId scope) with
    | error e =>
      rw [hfound] at h
      cases h
    | ok found =>
      rw [hfound] at h
      cases hrest : env.ioCollectNeighbours rows scope snippet points with
      | error e =>
        rw [hrest] at h
        cases h
      | ok rest =>
        rw [hrest] at h
        obtain rfl := Except.ok.inj h
        have hanswer : ((.ok found : Except StoreError _).toOption.bind fun found =>
            env.nearestObservation found point snippet) =
            env.nearestObservation found point snippet := rfl
        rw [ih hrest, List.filterMap_cons, hfound, hanswer]
        cases env.nearestObservation found point snippet with
        | none => rfl
        | some obs => rfl

/-- An answer joins a document of the set with another one, of the target if there is one. -/
theorem of_mem_sightings (henv : env.Filters) {obs : NeighbourObservation D}
    (h : obs ∈ env.sightings rows scope snippet) :
    scope.InSet rows obs.docA ∧ obs.docB ≠ obs.docA ∧
      (scope.hasTarget = true → scope.InTarget rows obs.docB) := by
  obtain ⟨point, hpoint, hobs⟩ := List.mem_filterMap.mp h
  obtain ⟨r, hr, hpoint⟩ := List.mem_map.mp hpoint
  have hdoc : r.docId = point.docId := by rw [← hpoint]
  cases hanswer : env.nearest rows point.embedding 8 (buildNeighbourFilter point.docId scope) with
  | error e =>
    rw [hanswer] at hobs
    cases hobs
  | ok found =>
    rw [hanswer] at hobs
    obtain ⟨row, hrow, rfl⟩ := Option.map_eq_some_iff.mp hobs
    have hmem : (row.1, row.2) ∈ found := List.mem_of_mem_head? hrow
    have hpass := of_buildNeighbourFilter (henv.mem hanswer hmem) (henv.passes hanswer hmem)
    exact ⟨inPopulation_iff.mpr ⟨r, hr, hdoc⟩, hpass⟩

variable [LinearOrder D] {order : HashOrder (CanonicalObservation D)} {threshold : D}
  {maxPoints : ℕ} {groups : List (DuplicateGroup D)}

theorem ioDuplicateGroups_eq
    (h : env.ioDuplicateGroups order (.ok rows) threshold scope snippet maxPoints = .ok groups) :
    groups = pairsFromNeighbours order (env.sightings rows scope snippet) threshold
      defaultDuplicateMaxPairs := by
  change (if _ then _ else _) = _ at h
  split at h
  · cases h
  · cases hobs : env.ioCollectNeighbours rows scope snippet (ioScanPoints rows
        (buildFilterExpr scope.setDocTypes scope.setDocIds) snippet) with
    | error e =>
      rw [hobs] at h
      cases h
    | ok observations =>
      rw [hobs] at h
      obtain rfl := Except.ok.inj h
      rw [ioCollectNeighbours_eq hobs]
      rfl

/-- The pairs shown are the observed ones with fewer than the bound of pairs before them. -/
theorem exists_group_iff (order : HashOrder (CanonicalObservation D))
    (observations : List (NeighbourObservation D)) (threshold : D) (maxPairs : ℕ)
    (p : DocId ×ₗ DocId) :
    (∃ g ∈ pairsFromNeighbours order observations threshold maxPairs, g.pair = p) ↔
      p ∈ duplicatePairs observations threshold ∧
        (nearerPairs observations threshold p).ncard < maxPairs := by
  obtain ⟨all, hranking, hall⟩ := isRanking_pairs order observations threshold
  have hpairs := congrArg (List.map Prod.fst) (hall maxPairs)
  rw [List.map_map, List.map_map] at hpairs
  have hshown : (∃ g ∈ pairsFromNeighbours order observations threshold maxPairs, g.pair = p) ↔
      p ∈ all.take maxPairs := by
    rw [← List.mem_map, ← List.map_id (all.take maxPairs)]
    exact iff_of_eq (congrArg (fun l => p ∈ l) hpairs)
  rw [hshown]
  constructor
  · intro hp
    have hmem := (hranking.mem p).mp (List.mem_of_mem_take hp)
    exact ⟨hmem, (hranking.mem_take_iff hmem _).mp hp⟩
  · rintro ⟨hmem, hcard⟩
    exact (hranking.mem_take_iff hmem _).mpr hcard

theorem mem_duplicatePairs_of_obs {observations : List (NeighbourObservation D)}
    {obs : NeighbourObservation D} (hobs : obs ∈ observations)
    (hthreshold : obs.normalizedDistance ≤ threshold) (hne : obs.docA ≠ obs.docB) :
    toLex (canonicalObservation obs).pair ∈ duplicatePairs observations threshold :=
  ⟨lt_of_canonicalObservation hne, obs, hobs, hthreshold, joins_canonicalObservation obs⟩

theorem admits_comm {x y : DocId} : scope.Admits rows x y ↔ scope.Admits rows y x := by
  unfold DuplicateScope.Admits
  split
  · exact and_congr ne_comm or_comm
  · exact and_congr ne_comm and_comm

omit [LinearOrder D] in
/-- The two ids of a group are those of any observation that joins them. -/
theorem admits_pair_iff {obs : NeighbourObservation D} {g : DuplicateGroup D}
    (hjoins : obs.Joins g.pair) :
    scope.Admits rows (g.group.get 0).id (g.group.get 1).id ↔ scope.Admits rows obs.docA obs.docB := by
  rcases hjoins with ⟨ha, hb⟩ | ⟨ha, hb⟩
  · rw [ha, hb]
    rfl
  · rw [ha, hb, admits_comm]
    rfl

omit [LinearOrder D] in
theorem admits_of_sighting (henv : env.Filters) {obs : NeighbourObservation D}
    (h : obs ∈ env.sightings rows scope snippet) :
    scope.Admits rows obs.docA obs.docB ↔
      (scope.hasTarget = false → scope.InSet rows obs.docB) := by
  obtain ⟨hset, hne, htarget⟩ := of_mem_sightings henv h
  unfold DuplicateScope.Admits
  cases hyes : scope.hasTarget with
  | true => simp [hset, hne.symm, htarget hyes]
  | false => simp [hset, hne.symm]

/-- The groups respect the scope of the scan exactly if there is a target, or none of those
shown leads out of the set: without a target the neighbours are not looked for in the set. -/
theorem ioDuplicateGroups_respectsScope_iff (henv : env.Filters)
    (hrun : env.ioDuplicateGroups order (.ok rows) threshold scope snippet maxPoints = .ok groups) :
    RespectsScope scope rows groups ↔
      scope.hasTarget = true ∨ ¬ Strays env rows threshold scope snippet := by
  rw [ioDuplicateGroups_eq hrun]
  constructor
  · intro hrespects
    cases hyes : scope.hasTarget with
    | true => exact .inl rfl
    | false =>
      refine .inr ?_
      rintro ⟨obs, hobs, hthreshold, hout, hshown⟩
      have hne : obs.docA ≠ obs.docB := (of_mem_sightings henv hobs).2.1.symm
      have hmem := mem_duplicatePairs_of_obs hobs hthreshold hne
      obtain ⟨g, hg, hpair⟩ := (exists_group_iff order _ threshold _ _).mpr ⟨hmem, hshown⟩
      have hjoins : obs.Joins g.pair := by
        rw [hpair]
        exact joins_canonicalObservation obs
      have hadmits := (admits_pair_iff hjoins).mp (hrespects g hg)
      exact hout ((admits_of_sighting henv hobs).mp hadmits hyes)
  · intro hscope g hg
    obtain ⟨hmem, hshown⟩ := (exists_group_iff order _ threshold _ _).mp ⟨g, hg, rfl⟩
    obtain ⟨hlt, obs, hobs, hthreshold, hjoins⟩ := hmem
    rw [admits_pair_iff hjoins, admits_of_sighting henv hobs]
    intro hno
    by_contra hout
    rcases hscope with hyes | hstays
    · rw [hyes] at hno
      cases hno
    · have hcanon : toLex (canonicalObservation obs).pair = g.pair :=
        congrArg toLex (canonicalObservation_pair_eq hlt hjoins)
      rw [← hcanon] at hshown
      exact hstays ⟨obs, hobs, hthreshold, hout, hshown⟩

end Scan

section Samples

/-- Chunks on a line; Lance takes the nearest ones and filters them. -/
def lineEnv : DuplicateEnv ℕ ℕ where
  normalizedCosineFromLance d := d
  nearest rows probe k filter :=
    .ok ((((rows.map fun r => (r, (probe - r.embedding) + (r.embedding - probe))).insertionSort
      fun a b => a.2 ≤ b.2).take k).filter fun found => filter found.1)

theorem lineEnv_filters : lineEnv.Filters where
  mem := by
    intro rows probe k filter found row d h hmem
    obtain rfl := Except.ok.inj h
    have hsorted := List.mem_of_mem_take (List.mem_filter.mp hmem).1
    obtain ⟨r, hr, heq⟩ := List.mem_map.mp ((List.perm_insertionSort _ _).mem_iff.mp hsorted)
    obtain rfl := congrArg Prod.fst heq
    exact hr
  passes := by
    intro rows probe k filter found row d h hmem
    obtain rfl := Except.ok.inj h
    exact (List.mem_filter.mp hmem).2

def lineRow (docId : DocId) (docType : String) (embedding : ℕ) : ChunkRow ℕ :=
  ⟨docId, docType, 0, 1, 0, 1, embedding, embedding, "text"⟩

/-- Two documents next to each other, of two types. -/
def lineRows : List (ChunkRow ℕ) := [lineRow "doc/a" "Abt" 3, lineRow "doc/b" "Buy" 4]

def lineGroup : DuplicateGroup ℕ := ⟨#v[⟨"doc/a", none⟩, ⟨"doc/b", none⟩], 1⟩

/-- With the other type as the target the group is one that was asked for. -/
theorem line_groups_straddle :
    lineEnv.ioDuplicateGroups ⟨id, List.Perm.refl⟩ (.ok lineRows) 5 ⟨["Abt"], [], ["Buy"], []⟩
        false 50000 = .ok [lineGroup] ∧
      RespectsScope ⟨["Abt"], [], ["Buy"], []⟩ lineRows [lineGroup] := by
  have hrun : lineEnv.ioDuplicateGroups ⟨id, List.Perm.refl⟩ (.ok lineRows) 5
      ⟨["Abt"], [], ["Buy"], []⟩ false 50000 = .ok [lineGroup] := by decide +kernel
  exact ⟨hrun, (ioDuplicateGroups_respectsScope_iff lineEnv_filters hrun).mpr (.inl rfl)⟩

/-- Within the set of one type a document of the other type is reported. -/
theorem line_groups_leave_set :
    lineEnv.ioDuplicateGroups ⟨id, List.Perm.refl⟩ (.ok lineRows) 5 ⟨["Abt"], [], [], []⟩
        false 50000 = .ok [lineGroup] ∧
      ¬ RespectsScope ⟨["Abt"], [], [], []⟩ lineRows [lineGroup] := by
  refine ⟨by decide +kernel, fun h => ?_⟩
  obtain ⟨-, -, r, hr, hid, htype, -⟩ := h lineGroup List.mem_cons_self
  have hdoc : r.docId = "doc/b" := hid
  have hAbt : r.docType = "Abt" := by simpa using htype
  rcases List.mem_cons.mp hr with rfl | hr
  · exact absurd hdoc (by decide)
  · obtain rfl := List.mem_singleton.mp hr
    exact absurd hAbt (by decide)

end Samples

end Vectorlink
