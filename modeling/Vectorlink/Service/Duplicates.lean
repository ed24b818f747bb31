import Vectorlink.Service.CandidateDistances

/-! The near-duplicates of a commit, page by page. Each page is computed anew. -/
namespace Vectorlink

open Ranking Stepwise

section Model

variable {V D : Type} [LinearOrder D] [Zero D]

/-- What the request meets besides the store. -/
structure DuplicatesEnv (V D : Type) extends DuplicateEnv V D where
  searchReady : Bool
  vectorsEqual : V → V → Bool
  fetchError : Option StoreError

structure DuplicatesRequest (D : Type) where
  threshold : D
  scope : DuplicateScope
  snippet : Bool
  start : ℕ
  count : ℕ
  ancestors : List CommitId

namespace DuplicatesEnv

variable (env : DuplicatesEnv V D) (req : DuplicatesRequest D)

def bothEqual (a b : Option V) : Bool :=
  match a, b with
  | some a, some b => env.vectorsEqual a b
  | _, _ => false

/-- A pair whose documents have one vector is at distance 0. -/
def overrideExact (docEmbeddings : DocId → Option V) (g : DuplicateGroup D) : DuplicateGroup D :=
  if env.bothEqual (docEmbeddings (ofLex g.pair).1) (docEmbeddings (ofLex g.pair).2) then
    { g with distance := 0 }
  else g

/-- The documents of the groups, as a set. -/
def memberIds (groups : List (DuplicateGroup D)) : List DocId :=
  (groups.flatMap fun g => [(ofLex g.pair).1, (ofLex g.pair).2]).dedup

/-- The groups of a snapshot. The vectors are fetched by another scan, which may fail. -/
def snapshotGroups (order : HashOrder (CanonicalObservation D)) (rows : List (ChunkRow V)) :
    Except StoreError (List (DuplicateGroup D)) := do
  let groups ← env.ioDuplicateGroups order (.ok rows) req.threshold req.scope req.snippet
    defaultDuplicateMaxPoints
  if groups.isEmpty then .ok groups
  else
    match env.fetchError with
    | some e => .error e
    | none =>
      let docEmbeddings := ioFetchResultEmbeddings rows (memberIds groups) [] ChunkRow.embedding
      .ok ((groups.map (env.overrideExact docEmbeddings)).insertionSort fun a b => a.nearer b)

def duplicatesWithOptions (order : HashOrder (CanonicalObservation D)) (d : Domain V)
    (branch : BranchName) (commit : CommitId) : Except ServiceError (List (DuplicateGroup D)) :=
  if !env.searchReady then
    .error (.unavailable "search capability not ready (embedding backend cold)")
  else
    match (resolveSearchableCommit branch commit req.ancestors
        (d.branchIndexes.lookup branch)).runAt d.opened with
    | .error e => .error e
    | .ok servedCommit =>
      match (ioSnapshotFromCache servedCommit).runAt d.opened with
      | .error e => .error (.internal e.text)
      | .ok rows =>
        match env.snapshotGroups req order rows with
        | .error e => .error (.internal e.text)
        | .ok groups => .ok ((groups.drop req.start).take req.count)

end DuplicatesEnv

end Model

section Spec

variable {V D : Type} [LinearOrder D] [Zero D]

namespace DuplicatesEnv

variable (env : DuplicatesEnv V D) (req : DuplicatesRequest D)

/-- The lowest chunks of the two documents have equal vectors. -/
def sameVector (rows : List (ChunkRow V)) (p : DocId ×ₗ DocId) : Bool :=
  env.bothEqual ((docRow rows (ofLex p).1).map ChunkRow.embedding)
    ((docRow rows (ofLex p).2).map ChunkRow.embedding)

/-- The distance at which a pair is shown. -/
def shownDistance (rows : List (ChunkRow V)) (p : DocId ×ₗ DocId) : WithTop D :=
  if env.sameVector rows p then ((0 : D) : WithTop D)
  else pairDistance (env.sightings rows req.scope req.snippet) req.threshold p

/-- A ranking of the pairs of the snapshot that were seen within the threshold, and one of those
of them that are shown, by the distances at which they are shown. -/
structure Ranks (rows : List (ChunkRow V)) (nearest shown : List (DocId ×ₗ DocId)) : Prop where
  observed : IsRanking (pairDistance (env.sightings rows req.scope req.snippet) req.threshold)
    (duplicatePairs (env.sightings rows req.scope req.snippet) req.threshold) nearest
  shown : IsRanking (env.shownDistance req rows) {p | p ∈ nearest.take defaultDuplicateMaxPairs}
    shown

end DuplicatesEnv

/-- The pair of a group and its distance. -/
def DuplicateGroup.entry (g : DuplicateGroup D) : (DocId ×ₗ DocId) × WithTop D :=
  (g.pair, (g.distance : WithTop D))

end Spec

section Pages

variable {V D : Type} [LinearOrder D] [Zero D] {env : DuplicatesEnv V D}
  {req : DuplicatesRequest D} {rows : List (ChunkRow V)} {groups : List (DuplicateGroup D)}

namespace DuplicatesEnv

omit [LinearOrder D] in
theorem pair_overrideExact (docEmbeddings : DocId → Option V) (g : DuplicateGroup D) :
    (env.overrideExact docEmbeddings g).pair = g.pair := by
  unfold overrideExact
  split
  · rfl
  · rfl

omit [LinearOrder D] [Zero D] in
theorem mem_memberIds {g : DuplicateGroup D} (hg : g ∈ groups) :
    (ofLex g.pair).1 ∈ memberIds groups ∧ (ofLex g.pair).2 ∈ memberIds groups := by
  constructor
  · exact List.mem_dedup.mpr (List.mem_flatMap.mpr ⟨g, hg, by simp⟩)
  · exact List.mem_dedup.mpr (List.mem_flatMap.mpr ⟨g, hg, by simp⟩)

omit [LinearOrder D] in
/-- What the fetch by the members has is the vector of the lowest chunk. -/
theorem distance_overrideExact {g : DuplicateGroup D} (hg : g ∈ groups) :
    (env.overrideExact (ioFetchResultEmbeddings rows (memberIds groups) [] ChunkRow.embedding)
      g).distance = if env.sameVector rows g.pair then 0 else g.distance := by
  obtain ⟨hfirst, hsecond⟩ := mem_memberIds hg
  have hne : memberIds groups ≠ [] := List.ne_nil_of_mem hfirst
  unfold overrideExact sameVector
  rw [ioFetchResultEmbeddings_ids hne, ioFetchResultEmbeddings_ids hne, if_pos hfirst,
    if_pos hsecond]
  split
  · rfl
  · rfl

omit [Zero D] in
/-- Groups with distances from a key are sorted as their pairs are ranked. -/
theorem isRanking_nearer {key : DocId ×ₗ DocId → WithTop D}
    (hkey : ∀ g ∈ groups, key g.pair = g.distance)
    (hnodup : (groups.map DuplicateGroup.pair).Nodup) :
    IsRanking key {p | p ∈ groups.map DuplicateGroup.pair}
      ((groups.insertionSort fun a b => a.nearer b).map DuplicateGroup.pair) := by
  have hsort := List.map_insertionSort (r := fun a b : DuplicateGroup D => a.nearer b = true)
    (s := BeforeEq key) DuplicateGroup.pair groups
    fun a ha b hb => nearer_iff_beforeEq (hkey a ha) (hkey b hb)
  rw [hsort]
  exact isRanking_insertionSort key hnodup

/-- The groups found, with the distances of equal vectors overridden and sorted again. -/
theorem ranked_of_found {found : List (DuplicateGroup D)} {nearest : List (DocId ×ₗ DocId)}
    (hnearest : IsRanking (pairDistance (env.sightings rows req.scope req.snippet) req.threshold)
      (duplicatePairs (env.sightings rows req.scope req.snippet) req.threshold) nearest)
    (hpairs : found.map DuplicateGroup.pair = nearest.take defaultDuplicateMaxPairs)
    (hdistance : ∀ g ∈ found, (g.distance : WithTop D) =
      pairDistance (env.sightings rows req.scope req.snippet) req.threshold g.pair) :
    ∃ nearest shown, env.Ranks req rows nearest shown ∧
      ((found.map (env.overrideExact (ioFetchResultEmbeddings rows (memberIds found) []
        ChunkRow.embedding))).insertionSort fun a b => a.nearer b).map DuplicateGroup.entry =
        shown.map fun p => (p, env.shownDistance req rows p) := by
  set overridden := found.map (env.overrideExact (ioFetchResultEmbeddings rows (memberIds found) []
    ChunkRow.embedding)) with hoverridden
  have hsame : overridden.map DuplicateGroup.pair = nearest.take defaultDuplicateMaxPairs := by
    rw [← hpairs, hoverridden, List.map_map]
    apply List.map_congr_left
    intro g _
    exact pair_overrideExact _ g
  have hkey : ∀ g ∈ overridden, env.shownDistance req rows g.pair = g.distance := by
    intro g hg
    obtain ⟨g, hfound, rfl⟩ := List.mem_map.mp hg
    rw [pair_overrideExact, distance_overrideExact hfound, shownDistance, ← hdistance g hfound]
    split
    · rfl
    · rfl
  have hnodup : (overridden.map DuplicateGroup.pair).Nodup := by
    rw [hsame]
    exact hnearest.nodup.sublist (List.take_sublist _ _)
  have hranking := isRanking_nearer hkey hnodup
  rw [hsame] at hranking
  refine ⟨nearest, _, ⟨hnearest, hranking⟩, ?_⟩
  rw [List.map_map]
  apply List.map_congr_left
  intro g hg
  have hmem := (List.perm_insertionSort _ _).mem_iff.mp hg
  exact congrArg (Prod.mk g.pair) (hkey g hmem).symm

/-- The groups of a snapshot are the shown pairs in their order, whatever the order in which the
hash map has them. -/
theorem snapshotGroups_ranked {order : HashOrder (CanonicalObservation D)}
    (h : env.snapshotGroups req order rows = .ok groups) :
    ∃ nearest shown, env.Ranks req rows nearest shown ∧
      groups.map DuplicateGroup.entry = shown.map fun p => (p, env.shownDistance req rows p) := by
  unfold snapshotGroups at h
  cases hfound : env.ioDuplicateGroups order (.ok rows) req.threshold req.scope req.snippet
      defaultDuplicateMaxPoints with
  | error e =>
    rw [hfound] at h
    cases h
  | ok found =>
    obtain ⟨nearest, hnearest, hall⟩ :=
      isRanking_pairs order (env.sightings rows req.scope req.snippet) req.threshold
    have hentries := hall defaultDuplicateMaxPairs
    rw [← ioDuplicateGroups_eq hfound] at hentries
    have hpairs : found.map DuplicateGroup.pair = nearest.take defaultDuplicateMaxPairs := by
      have hfst := congrArg (List.map Prod.fst) hentries
      rw [List.map_map, List.map_map] at hfst
      exact hfst.trans (List.map_id _)
    have hdistance : ∀ g ∈ found, (g.distance : WithTop D) =
        pairDistance (env.sightings rows req.scope req.snippet) req.threshold g.pair := by
      intro g hg
      have hmem := List.mem_map_of_mem (f := fun g : DuplicateGroup D =>
        (g.pair, (g.distance : WithTop D))) hg
      rw [hentries] at hmem
      obtain ⟨p, -, hp⟩ := List.mem_map.mp hmem
      obtain ⟨hpair, hdistance⟩ := Prod.mk.inj hp
      rw [← hdistance, hpair]
    rw [hfound] at h
    by_cases hempty : found.isEmpty = true
    · obtain rfl := Except.ok.inj ((if_pos hempty).symm.trans h)
      rw [List.isEmpty_iff.mp hempty, List.map_nil] at hpairs
      refine ⟨nearest, [], ⟨hnearest, List.Pairwise.nil, fun p => ?_⟩, ?_⟩
      · rw [← hpairs]
        rfl
      · rw [List.isEmpty_iff.mp hempty]
        rfl
    · replace h := (if_neg hempty).symm.trans h
      cases hfetch : env.fetchError with
      | some e =>
        rw [hfetch] at h
        cases h
      | none =>
        rw [hfetch] at h
        obtain rfl := Except.ok.inj h
        exact ranked_of_found hnearest hpairs hdistance

theorem Ranks.unique {nearest nearest' shown shown' : List (DocId ×ₗ DocId)}
    (h : env.Ranks req rows nearest shown) (h' : env.Ranks req rows nearest' shown') :
    shown = shown' := by
  have hnearest := h.observed.unique h'.observed
  have hshown := h'.shown
  rw [← hnearest] at hshown
  exact h.shown.unique hshown

/-- At an indexed commit the answer is a page of the groups of its snapshot. -/
theorem duplicatesWithOptions_eq (order : HashOrder (CanonicalObservation D)) {d : Domain V}
    (branch : BranchName) {commit : CommitId} (hserved : d.opened.served commit = some rows) :
    env.duplicatesWithOptions req order d branch commit =
      if !env.searchReady then
        .error (.unavailable "search capability not ready (embedding backend cold)")
      else
        match env.snapshotGroups req order rows with
        | .error e => .error (.internal e.text)
        | .ok groups => .ok ((groups.drop req.start).take req.count) := by
  obtain ⟨t, ht⟩ := servesTag_of_served hserved
  unfold duplicatesWithOptions
  rw [ht.resolve]
  simp only [ht.snapshot]

theorem duplicatesWithOptions_ok {order : HashOrder (CanonicalObservation D)} {d : Domain V}
    {branch : BranchName} {commit : CommitId} {page : List (DuplicateGroup D)}
    (hserved : d.opened.served commit = some rows)
    (h : env.duplicatesWithOptions req order d branch commit = .ok page) :
    ∃ groups, env.snapshotGroups req order rows = .ok groups ∧
      page = (groups.drop req.start).take req.count := by
  rw [duplicatesWithOptions_eq order branch hserved] at h
  split at h
  · cases h
  · split at h
    · cases h
    · rename_i groups hgroups
      exact ⟨groups, hgroups, (Except.ok.inj h).symm⟩

theorem page_of_snapshotGroups {order : HashOrder (CanonicalObservation D)} {d : Domain V}
    (branch : BranchName) {commit : CommitId} (hserved : d.opened.served commit = some rows)
    (hready : env.searchReady = true) (hgroups : env.snapshotGroups req order rows = .ok groups)
    (c i : ℕ) :
    env.duplicatesWithOptions { req with start := i * c, count := c } order d branch commit =
      .ok (page c i groups) := by
  have hsame : env.snapshotGroups { req with start := i * c, count := c } order rows = .ok groups :=
    hgroups
  rw [duplicatesWithOptions_eq order branch hserved, hready, hsame]
  rfl

/-- The pages of a commit together are the shown pairs, each once and nearest first, although each
page is computed from a state of the domain of its own and with a hash map of its own. -/
theorem duplicates_pages {ds : ℕ → Domain V} {orders : ℕ → HashOrder (CanonicalObservation D)}
    {branch : BranchName} {commit : CommitId} {c : ℕ} {pages : ℕ → List (DuplicateGroup D)}
    (hserved : ∀ i, (ds i).opened.served commit = some rows)
    (hpages : ∀ i, env.duplicatesWithOptions { req with start := i * c, count := c } (orders i)
      (ds i) branch commit = .ok (pages i)) :
    ∃ nearest shown, env.Ranks req rows nearest shown ∧
      ∀ n, ((List.range n).flatMap pages).map DuplicateGroup.entry =
        (shown.take (n * c)).map fun p => (p, env.shownDistance req rows p) := by
  have hpage : ∀ i, ∃ groups, env.snapshotGroups req (orders i) rows = .ok groups ∧
      pages i = page c i groups := fun i => duplicatesWithOptions_ok (hserved i) (hpages i)
  obtain ⟨groups, hgroups, -⟩ := hpage 0
  obtain ⟨nearest, shown, hranks, -⟩ := snapshotGroups_ranked hgroups
  have hentries : ∀ i, (pages i).map DuplicateGroup.entry =
      (page c i shown).map fun p => (p, env.shownDistance req rows p) := by
    intro i
    obtain ⟨groups, hgroups, hpages⟩ := hpage i
    obtain ⟨nearest', shown', hranks', hall⟩ := snapshotGroups_ranked hgroups
    rw [hranks.unique hranks', hpages, page, List.map_take, List.map_drop, hall, page,
      List.map_take, List.map_drop]
  refine ⟨nearest, shown, hranks, fun n => ?_⟩
  induction n with
  | zero => simp
  | succ n ih =>
    rw [List.range_succ, List.flatMap_append, List.map_append, ih, take_succ_page, List.map_append,
      List.flatMap_singleton, hentries n]

end DuplicatesEnv

end Pages

section Samples

def lineDuplicates : DuplicatesEnv ℕ ℕ where
  toDuplicateEnv := lineEnv
  searchReady := true
  vectorsEqual a b := a == b
  fetchError := none

/-- Three documents, of which the last two have one vector. -/
def twinDocRows : List (ChunkRow ℕ) :=
  [lineRow "doc/a" "Abt" 3, lineRow "doc/b" "Buy" 4, lineRow "doc/c" "Buy" 4]

def twinDomain : Domain ℕ where
  dataset := some ⟨.start 1 twinDocRows, ∅, (∅ : AList _).insert "c0" ⟨none, 1, 0⟩, 0⟩
  cached := none
  branchIndexes := ∅

def twinRequest : DuplicatesRequest ℕ := ⟨5, ⟨[], [], [], []⟩, false, 0, 1, []⟩

def twinGroups : List (DuplicateGroup ℕ) :=
  [⟨#v[⟨"doc/b", none⟩, ⟨"doc/c", none⟩], 0⟩, lineGroup]

/-- The two pairs, on a page each. -/
theorem duplicates_pages_twins : ∃ nearest shown,
    lineDuplicates.Ranks twinRequest twinDocRows nearest shown ∧
      twinGroups.map DuplicateGroup.entry =
        (shown.take 2).map fun p => (p, lineDuplicates.shownDistance twinRequest twinDocRows p) := by
  have hgroups : lineDuplicates.snapshotGroups twinRequest ⟨id, List.Perm.refl⟩ twinDocRows =
      .ok twinGroups := by decide +kernel
  have hserved : twinDomain.opened.served "c0" = some twinDocRows := rfl
  have hpages := DuplicatesEnv.page_of_snapshotGroups mainBranch hserved rfl hgroups 1
  obtain ⟨nearest, shown, hranks, hall⟩ := DuplicatesEnv.duplicates_pages (fun _ => hserved) hpages
  have htwo := hall 2
  exact ⟨nearest, shown, hranks, htwo⟩

end Samples

end Vectorlink
