import Mathlib.Algebra.Order.Ring.Unbundled.Rat
import Vectorlink.Store.SearchRanking

/-! When the pages of a search are the pages of one ranking. -/
namespace Vectorlink

open Ranking

variable {V D : Type}

/-- The filters of a query: or within each, and across the two. -/
def passesFilters (docTypes : List String) (docIds : List DocId) (row : ChunkRow V) : Bool :=
  (docTypes.isEmpty || row.docType ∈ docTypes) && (docIds.isEmpty || row.docId ∈ docIds)

namespace DocumentQuery

def passes (query : DocumentQuery V) : ChunkRow V → Bool :=
  passesFilters query.docTypeFilter query.docIdFilter

/-- The request for page `p` of the results. -/
def page (query : DocumentQuery V) (c p : ℕ) : DocumentQuery V :=
  { query with start := p * c, count := c }

end DocumentQuery

namespace SearchEnv

variable (env : SearchEnv V D)

/-- The documents of a list of hits, in the order of a mode. -/
def rankHits (mode : SearchMode) (vectorHits ftsHits : List (ChunkHit D)) (snippet : Bool) :
    List DocId :=
  match mode with
  | .vector => (env.dedupDocuments .rawCosine vectorHits snippet).map fun h => h.id
  | .fts => (env.dedupDocuments .normalised ftsHits snippet).map fun h => h.id
  | .hybrid => (env.rrfFuseDocuments vectorHits ftsHits snippet).map fun h => h.id

def vectorHits (nearest : List (ChunkRow V × D)) : List (ChunkHit D) :=
  nearest.map fun h => ChunkHit.ofRow h.1 h.2

def ftsHits (matched : List (ChunkRow V × D)) : List (ChunkHit D) :=
  matched.map fun h => ChunkHit.ofRow h.1 (env.distanceOfScore h.2)

end SearchEnv

/-- The documents with a chunk in the lists of a mode. -/
def FoundBy (mode : SearchMode) (vectorHits ftsHits : List (ChunkHit D)) : Set DocId :=
  match mode with
  | .vector => Found vectorHits
  | .fts => Found ftsHits
  | .hybrid => Found vectorHits ∪ Found ftsHits

/-- The documents a query is to find: those that pass the filters, and of these by text those
with a match. -/
def Matching (rows : List (ChunkRow V)) (query : DocumentQuery V)
    (matched : List (ChunkRow V × D)) : Set DocId :=
  let byVector := {x | ∃ r ∈ rows, query.passes r = true ∧ r.docId = x}
  let byText := {x | ∃ h ∈ matched, h.1.docId = x}
  match query.mode with
  | .vector => byVector
  | .fts => byText
  | .hybrid => byVector ∪ byText

/-- The pages of size `c` are those of the ranking. -/
def SearchEnv.ServesPages (env : SearchEnv V D) (rows : List (ChunkRow V))
    (query : DocumentQuery V) (c : ℕ) (ranking : List DocId) : Prop :=
  ∀ p, (env.searchWithOptions (.ok rows) (query.page c p)).map (fun hits => hits.map fun h => h.id) =
    .ok (Ranking.page c p ranking)

/-- A list of the documents to be found, none twice. -/
structure RanksMatching (rows : List (ChunkRow V)) (query : DocumentQuery V)
    (matched : List (ChunkRow V × D)) (ranking : List DocId) : Prop where
  nodup : ranking.Nodup
  mem : ∀ x, x ∈ ranking ↔ x ∈ Matching rows query matched

/-- The pages hold the matching documents, each once, in one order and without gaps. -/
def SearchEnv.PagesPartition (env : SearchEnv V D) (rows : List (ChunkRow V))
    (query : DocumentQuery V) (matched : List (ChunkRow V × D)) (c : ℕ) : Prop :=
  ∃ ranking, RanksMatching rows query matched ranking ∧ env.ServesPages rows query c ranking

section Settled

variable [LinearOrder D]

/-- Lance answers with the first chunks of fixed lists: the chunks that pass the filters by
their distance, and the text matches by their score. -/
structure SearchEnv.Exact (env : SearchEnv V D) (rows : List (ChunkRow V))
    (query : DocumentQuery V) (nearest matched : List (ChunkRow V × D)) : Prop where
  vector : ∀ k, env.vectorSearch rows query.queryEmbedding k query.docTypeFilter
    query.docIdFilter = .ok (nearest.take k)
  fts : ∀ k, env.fullTextSearch rows query.queryText k query.docTypeFilter
    query.docIdFilter = .ok (matched.take k)
  passing : (nearest.map Prod.fst).Perm (rows.filter query.passes)
  vectorSorted : nearest.Pairwise fun a b => a.2 ≤ b.2
  ftsSorted : matched.Pairwise fun a b => env.distanceOfScore a.2 ≤ env.distanceOfScore b.2

/-- One document comes before another by the fused scores. -/
def SearchEnv.Outranks (env : SearchEnv V D) (vectorHits ftsHits : List (ChunkHit D))
    (x y : DocId) : Prop :=
  env.fusedScore vectorHits ftsHits y < env.fusedScore vectorHits ftsHits x ∨
    env.fusedScore vectorHits ftsHits x = env.fusedScore vectorHits ftsHits y ∧ x < y

/-- The first `3 n` chunks of each leg settle the first `n` documents of the complete ranking:
they are found, and a fusion already has them before all that come later. -/
structure SearchEnv.Settled (env : SearchEnv V D) (query : DocumentQuery V)
    (vectorHits ftsHits : List (ChunkHit D)) (n : ℕ) : Prop where
  found : ∀ x ∈ (env.rankHits query.mode vectorHits ftsHits query.snippet).take n,
    x ∈ FoundBy query.mode (vectorHits.take (n * 3)) (ftsHits.take (n * 3))
  ahead : query.mode = .hybrid →
    ∀ x ∈ (env.rankHits query.mode vectorHits ftsHits query.snippet).take n,
    ∀ y ∈ FoundBy query.mode (vectorHits.take (n * 3)) (ftsHits.take (n * 3)),
      env.Outranks vectorHits ftsHits x y →
        env.Outranks (vectorHits.take (n * 3)) (ftsHits.take (n * 3)) x y

/-- Each page is settled by the chunks that are fetched for it. -/
def SearchEnv.SettledPages (env : SearchEnv V D) (query : DocumentQuery V)
    (nearest matched : List (ChunkRow V × D)) (c : ℕ) : Prop :=
  ∀ p, env.Settled query (SearchEnv.vectorHits nearest) (env.ftsHits matched) ((p + 1) * c)

end Settled

section Pages

variable {env : SearchEnv V D} {rows : List (ChunkRow V)} {query : DocumentQuery V}
  {nearest matched : List (ChunkRow V × D)}

namespace SearchEnv

/-- The documents that the chunks fetched for the first `n` documents give. -/
def rankedWithin (env : SearchEnv V D) (query : DocumentQuery V)
    (nearest matched : List (ChunkRow V × D)) (n : ℕ) : List DocId :=
  env.rankHits query.mode ((vectorHits nearest).take (n * 3)) ((env.ftsHits matched).take (n * 3))
    query.snippet

def completeRanking (env : SearchEnv V D) (query : DocumentQuery V)
    (nearest matched : List (ChunkRow V × D)) : List DocId :=
  env.rankHits query.mode (vectorHits nearest) (env.ftsHits matched) query.snippet

/-- Chunks that are all fetched give the complete ranking. -/
theorem rankedWithin_eq {n : ℕ} (hnearest : nearest.length ≤ n * 3)
    (hmatched : matched.length ≤ n * 3) :
    env.rankedWithin query nearest matched n = env.completeRanking query nearest matched := by
  unfold rankedWithin completeRanking
  rw [List.take_of_length_le, List.take_of_length_le]
  · rw [ftsHits, List.length_map]
    exact hmatched
  · rw [vectorHits, List.length_map]
    exact hnearest

variable [LinearOrder D]

/-- A page is cut out of the documents that its chunks give. -/
theorem searchWithOptions_page (hexact : env.Exact rows query nearest matched) (c p : ℕ) :
    (env.searchWithOptions (.ok rows) (query.page c p)).map (fun hits => hits.map fun h => h.id) =
      .ok (Ranking.page c p (env.rankedWithin query nearest matched ((p + 1) * c))) := by
  have hk : (p * c + c) * 3 = (p + 1) * c * 3 := by rw [Nat.add_one_mul]
  have hvector : env.searchRows rows (query.page c p).toSearchQuery =
      .ok ((vectorHits nearest).take ((p + 1) * c * 3)) := by
    unfold RankEnv.searchRows DocumentQuery.page
    dsimp only
    rw [hk, hexact.vector, vectorHits, ← List.map_take]
    rfl
  have hfts : env.ftsSearch rows (query.page c p) =
      .ok ((env.ftsHits matched).take ((p + 1) * c * 3)) := by
    unfold ftsSearch DocumentQuery.page
    dsimp only
    rw [hk, hexact.fts, ftsHits, ← List.map_take]
  have hids : (env.ioSearchDocuments (.ok rows) (query.page c p)).map
      (fun hits => hits.map fun h => h.id) =
      .ok (env.rankedWithin query nearest matched ((p + 1) * c)) := by
    unfold ioSearchDocuments rankedWithin rankHits
    cases hmode : query.mode with
    | vector =>
      have hmode' : (query.page c p).mode = .vector := hmode
      simp only [Bind.bind, Except.bind, hmode', hvector]
      rfl
    | fts =>
      have hmode' : (query.page c p).mode = .fts := hmode
      simp only [Bind.bind, Except.bind, hmode', hfts]
      rfl
    | hybrid =>
      have hmode' : (query.page c p).mode = .hybrid := hmode
      simp only [Bind.bind, Except.bind, hmode', hvector, hfts]
      rfl
  unfold searchWithOptions
  cases hio : env.ioSearchDocuments (.ok rows) (query.page c p) with
  | error e =>
    rw [hio] at hids
    cases hids
  | ok results =>
    rw [hio] at hids
    have hresults : results.map (fun h => h.id) =
        env.rankedWithin query nearest matched ((p + 1) * c) := Except.ok.inj hids
    unfold Ranking.page
    rw [← hresults, ← List.map_drop, ← List.map_take]
    rfl

theorem servesPages_iff (hexact : env.Exact rows query nearest matched) {c : ℕ}
    {ranking : List DocId} :
    env.ServesPages rows query c ranking ↔
      ∀ p, Ranking.page c p (env.rankedWithin query nearest matched ((p + 1) * c)) =
        Ranking.page c p ranking := by
  unfold ServesPages
  refine forall_congr' fun p => ?_
  rw [searchWithOptions_page hexact]
  exact ⟨fun h => Except.ok.inj h, fun h => by rw [h]⟩

section Rank

variable {mode : SearchMode} {v f : List (ChunkHit D)} {snippet : Bool}

omit [LinearOrder D] in
theorem foundBy_take_subset {m n : ℕ} (h : m ≤ n) :
    FoundBy mode (v.take m) (f.take m) ⊆ FoundBy mode (v.take n) (f.take n) := by
  unfold FoundBy
  cases mode with
  | vector => exact found_take_subset h
  | fts => exact found_take_subset h
  | hybrid => exact Set.union_subset_union (found_take_subset h) (found_take_subset h)

/-- In one leg it is enough that the documents are found. -/
theorem settled_iff_found (hmode : query.mode ≠ .hybrid) {n : ℕ} :
    env.Settled query v f n ↔
      ∀ x ∈ (env.rankHits query.mode v f query.snippet).take n,
        x ∈ FoundBy query.mode (v.take (n * 3)) (f.take (n * 3)) :=
  ⟨fun h => h.found, fun h => ⟨h, fun hno => absurd hno hmode⟩⟩

theorem take_dedupDocuments_eq_iff (henv : env.Ordered)
    (hv : v.Pairwise fun a b => a.distance ≤ b.distance) (kind : DistanceKind) (snippet : Bool)
    (k n : ℕ) :
    ((env.dedupDocuments kind (v.take k) snippet).map fun h => h.id).take n =
        ((env.dedupDocuments kind v snippet).map fun h => h.id).take n ↔
      ∀ x ∈ ((env.dedupDocuments kind v snippet).map fun h => h.id).take n, x ∈ Found (v.take k) := by
  rw [(isRanking_dedupDocuments henv kind (hv.sublist (List.take_sublist k v)) snippet).take_eq_iff
    (isRanking_dedupDocuments henv kind hv snippet) found_of_take]
  refine forall₂_congr fun x hx => and_iff_left_of_imp fun hxk y hy hxy => ?_
  unfold Before
  rw [hitKey_take hxk, hitKey_take hy]
  exact hxy

variable (henv : env.Ordered) (hv : v.Pairwise fun a b => a.distance ≤ b.distance)
  (hf : f.Pairwise fun a b => a.distance ≤ b.distance)

include henv hv hf

theorem nodup_rankHits : (env.rankHits mode v f snippet).Nodup := by
  cases mode with
  | vector => exact (isRanking_dedupDocuments henv .rawCosine hv snippet).nodup
  | fts => exact (isRanking_dedupDocuments henv .normalised hf snippet).nodup
  | hybrid => exact (isRanking_rrfFuseDocuments henv v f snippet).nodup

theorem mem_rankHits {x : DocId} : x ∈ env.rankHits mode v f snippet ↔ x ∈ FoundBy mode v f := by
  cases mode with
  | vector => exact (isRanking_dedupDocuments henv .rawCosine hv snippet).mem x
  | fts => exact (isRanking_dedupDocuments henv .normalised hf snippet).mem x
  | hybrid => exact (isRanking_rrfFuseDocuments henv v f snippet).mem x

/-- In one leg the first chunks give their documents in the order of the complete list. -/
theorem rankHits_take_sublist (hmode : mode ≠ .hybrid) (n : ℕ) :
    (env.rankHits mode (v.take n) (f.take n) snippet).Sublist (env.rankHits mode v f snippet) := by
  cases mode with
  | vector =>
    exact (isRanking_dedupDocuments henv .rawCosine (hv.sublist (List.take_sublist n v)) snippet).sublist
      (isRanking_dedupDocuments henv .rawCosine hv snippet) found_of_take fun x hx => hitKey_take hx
  | fts =>
    exact (isRanking_dedupDocuments henv .normalised (hf.sublist (List.take_sublist n f)) snippet).sublist
      (isRanking_dedupDocuments henv .normalised hf snippet) found_of_take fun x hx => hitKey_take hx
  | hybrid => exact absurd rfl hmode

/-- The first chunks settle the first documents if they give the same ones in front. -/
theorem settled_iff (n : ℕ) :
    env.Settled query v f n ↔
      (env.rankHits query.mode (v.take (n * 3)) (f.take (n * 3)) query.snippet).take n =
        (env.rankHits query.mode v f query.snippet).take n := by
  cases hmode : query.mode with
  | vector =>
    rw [settled_iff_found (by rw [hmode]; decide), hmode]
    exact (take_dedupDocuments_eq_iff henv hv .rawCosine query.snippet (n * 3) n).symm
  | fts =>
    rw [settled_iff_found (by rw [hmode]; decide), hmode]
    exact (take_dedupDocuments_eq_iff henv hf .normalised query.snippet (n * 3) n).symm
  | hybrid =>
    refine Iff.trans ?_ ((isRanking_rrfFuseDocuments henv (v.take (n * 3)) (f.take (n * 3))
      query.snippet).take_eq_iff (isRanking_rrfFuseDocuments henv v f query.snippet)
        (Set.union_subset_union found_of_take found_of_take) n).symm
    constructor
    · intro h x hx
      have hfound := h.found
      have hahead := h.ahead hmode
      rw [hmode] at hfound hahead
      exact ⟨hfound x hx, fun y hy => hahead x hx y hy⟩
    · intro h
      constructor
      · rw [hmode]
        exact fun x hx => (h x hx).1
      · intro _
        rw [hmode]
        exact fun x hx => (h x hx).2

end Rank

section Partition

theorem Exact.vectorHits_sorted (h : env.Exact rows query nearest matched) :
    (vectorHits nearest).Pairwise fun a b => a.distance ≤ b.distance :=
  List.pairwise_map.mpr h.vectorSorted

theorem Exact.ftsHits_sorted (h : env.Exact rows query nearest matched) :
    (env.ftsHits matched).Pairwise fun a b => a.distance ≤ b.distance :=
  List.pairwise_map.mpr h.ftsSorted

theorem Exact.foundBy_eq (h : env.Exact rows query nearest matched) :
    FoundBy query.mode (vectorHits nearest) (env.ftsHits matched) = Matching rows query matched := by
  have hvector : Found (vectorHits nearest) =
      {x | ∃ r ∈ rows, query.passes r = true ∧ r.docId = x} := by
    ext x
    constructor
    · rintro ⟨hit, hhit, hx⟩
      obtain ⟨near, hnear, rfl⟩ := List.mem_map.mp hhit
      have hmem := h.passing.mem_iff.mp (List.mem_map_of_mem hnear)
      obtain ⟨hrow, hpass⟩ := List.mem_filter.mp hmem
      exact ⟨near.1, hrow, hpass, hx⟩
    · rintro ⟨r, hr, hpass, hx⟩
      have hmem := h.passing.mem_iff.mpr (List.mem_filter.mpr ⟨hr, hpass⟩)
      obtain ⟨near, hnear, rfl⟩ := List.mem_map.mp hmem
      exact ⟨_, List.mem_map_of_mem hnear, hx⟩
  have hfts : Found (env.ftsHits matched) = {x | ∃ h ∈ matched, h.1.docId = x} := by
    ext x
    constructor
    · rintro ⟨hit, hhit, hx⟩
      obtain ⟨found, hfound, rfl⟩ := List.mem_map.mp hhit
      exact ⟨found, hfound, hx⟩
    · rintro ⟨found, hfound, hx⟩
      exact ⟨_, List.mem_map_of_mem hfound, hx⟩
  unfold FoundBy Matching
  rw [hvector, hfts]

variable (henv : env.Ordered) (hexact : env.Exact rows query nearest matched)

include henv hexact

theorem ranksMatching_complete :
    RanksMatching rows query matched (env.completeRanking query nearest matched) where
  nodup := nodup_rankHits henv hexact.vectorHits_sorted hexact.ftsHits_sorted
  mem x := by
    rw [← hexact.foundBy_eq]
    exact mem_rankHits henv hexact.vectorHits_sorted hexact.ftsHits_sorted

theorem settled_iff_take (n : ℕ) :
    env.Settled query (vectorHits nearest) (env.ftsHits matched) n ↔
      (env.rankedWithin query nearest matched n).take n =
        (env.completeRanking query nearest matched).take n :=
  settled_iff henv hexact.vectorHits_sorted hexact.ftsHits_sorted n

theorem servesPages_of_settled {c : ℕ} (h : env.SettledPages query nearest matched c) :
    env.ServesPages rows query c (env.completeRanking query nearest matched) := by
  rw [servesPages_iff hexact]
  intro p
  rw [page_eq_drop_take, page_eq_drop_take, (settled_iff_take henv hexact _).mp (h p)]

/-- Where the pages are those of any ranking, they are settled: in one leg a document cannot
fall back behind its place in the complete ranking. -/
theorem settled_of_partition (hmode : query.mode ≠ .hybrid) {c : ℕ} (hc : 1 ≤ c)
    (h : env.PagesPartition rows query matched c) : env.SettledPages query nearest matched c := by
  obtain ⟨ranking, hranking, hserves⟩ := h
  rw [servesPages_iff hexact] at hserves
  have hcomplete := ranksMatching_complete henv hexact
  have hv := hexact.vectorHits_sorted
  have hf := hexact.ftsHits_sorted
  have hperm : ranking.Perm (env.completeRanking query nearest matched) :=
    (List.perm_ext_iff_of_nodup hranking.nodup hcomplete.nodup).mpr fun x =>
      (hranking.mem x).trans (hcomplete.mem x).symm
  have hmem : ∀ {n x}, x ∈ env.rankedWithin query nearest matched n ↔
      x ∈ FoundBy query.mode ((vectorHits nearest).take (n * 3))
        ((env.ftsHits matched).take (n * 3)) :=
    mem_rankHits henv (hv.sublist (List.take_sublist _ _)) (hf.sublist (List.take_sublist _ _))
  have hfront := front_of_pages hc hcomplete.nodup
    (fun n => rankHits_take_sublist henv hv hf hmode (n * 3)) hperm hserves
    (fun m n hmn x hx => hmem.mpr (foundBy_take_subset (Nat.mul_le_mul_right 3 hmn) (hmem.mp hx)))
  exact fun p => (settled_iff_found hmode).mpr fun x hx => hmem.mp (hfront p x hx)

/-- With pages large enough everything is on the first one. -/
theorem settled_of_allPages {ranking : List DocId}
    (h : ∀ c, 1 ≤ c → env.ServesPages rows query c ranking) (c : ℕ) (hc : 1 ≤ c) :
    env.SettledPages query nearest matched c := by
  have hfirst : ∀ n, 1 ≤ n →
      (env.rankedWithin query nearest matched n).take n = ranking.take n := by
    intro n hn
    have hpage := (servesPages_iff hexact).mp (h n hn) 0
    rw [page_eq_drop_take, page_eq_drop_take] at hpage
    simpa using hpage
  have hall : ranking = env.completeRanking query nearest matched := by
    let n := nearest.length + matched.length + ranking.length +
      (env.completeRanking query nearest matched).length + 1
    have hwithin : env.rankedWithin query nearest matched n =
        env.completeRanking query nearest matched := rankedWithin_eq (by omega) (by omega)
    have hn := hfirst n (Nat.succ_le_succ (Nat.zero_le _))
    rw [hwithin, List.take_of_length_le (by omega), List.take_of_length_le (by omega)] at hn
    exact hn.symm
  intro p
  rw [settled_iff_take henv hexact, ← hall]
  exact hfirst _ (Nat.mul_pos (Nat.succ_pos p) hc)

end Partition

/-- Pages partition the matching documents if each page is settled by the chunks fetched for it.
In one leg this is also necessary, page size by page size; in a fusion it is what one order for
all page sizes takes. -/
theorem search_pages_partition_iff (env : SearchEnv V D) (rows : List (ChunkRow V))
    (query : DocumentQuery V) (nearest matched : List (ChunkRow V × D)) (henv : env.Ordered)
    (hexact : env.Exact rows query nearest matched) :
    (∀ c, 1 ≤ c → env.SettledPages query nearest matched c →
      env.PagesPartition rows query matched c) ∧
    (query.mode ≠ .hybrid → ∀ c, 1 ≤ c →
      (env.PagesPartition rows query matched c ↔ env.SettledPages query nearest matched c)) ∧
    ((∃ ranking, RanksMatching rows query matched ranking ∧
        ∀ c, 1 ≤ c → env.ServesPages rows query c ranking) ↔
      ∀ c, 1 ≤ c → env.SettledPages query nearest matched c) := by
  have hcomplete := ranksMatching_complete henv hexact
  have hpartition : ∀ c, 1 ≤ c → env.SettledPages query nearest matched c →
      env.PagesPartition rows query matched c :=
    fun c _ h => ⟨_, hcomplete, servesPages_of_settled henv hexact h⟩
  refine ⟨hpartition, fun hmode c hc => ⟨settled_of_partition henv hexact hmode hc,
    hpartition c hc⟩, ?_⟩
  constructor
  · rintro ⟨ranking, -, hserves⟩ c hc
    exact settled_of_allPages henv hexact hserves c hc
  · intro h
    exact ⟨_, hcomplete, fun c hc => servesPages_of_settled henv hexact (h c hc)⟩

end SearchEnv

end Pages

section Samples

/-- A flat search over vectors of the plane, and texts that match as a whole. -/
def flatEnv : SearchEnv (ℚ × ℚ) ℚ where
  zero := 0
  lt a b := decide (a < b)
  compare a b := Ord.compare a b
  normalizedCosineFromLance d := max 0 (min 1 (d / 2))
  quotient a b := a.toNat / b.toNat
  vectorSearch rows probe k docTypes docIds :=
    .ok ((((rows.filter (passesFilters docTypes docIds)).map fun r =>
      (r, 1 - (probe.1 * r.embedding.1 + probe.2 * r.embedding.2))).insertionSort
        fun a b => a.2 ≤ b.2).take k)
  vectorsEqual u v := decide (u = v)
  add a b := a + b
  rrfTerm rank := 1 / (61 + rank)
  fusedDistance score := max 0 (1 - score / (2 / 61))
  distanceOfScore score := 1 / (1 + score)
  fullTextSearch rows text k docTypes docIds :=
    .ok (((rows.filter fun r => passesFilters docTypes docIds r && r.content == text).map
      fun r => (r, 1)).take k)

theorem flatEnv_ordered : flatEnv.Ordered := ⟨fun _ _ => rfl, fun _ _ => rfl⟩

def flatNearest (rows : List (ChunkRow (ℚ × ℚ))) (query : DocumentQuery (ℚ × ℚ)) :
    List (ChunkRow (ℚ × ℚ) × ℚ) :=
  ((rows.filter query.passes).map fun r => (r, 1 - (query.queryEmbedding.1 * r.embedding.1 +
    query.queryEmbedding.2 * r.embedding.2))).insertionSort fun a b => a.2 ≤ b.2

def flatMatched (rows : List (ChunkRow (ℚ × ℚ))) (query : DocumentQuery (ℚ × ℚ)) :
    List (ChunkRow (ℚ × ℚ) × ℚ) :=
  (rows.filter fun r => query.passes r && r.content == query.queryText).map fun r => (r, 1)

theorem flatEnv_exact (rows : List (ChunkRow (ℚ × ℚ))) (query : DocumentQuery (ℚ × ℚ)) :
    flatEnv.Exact rows query (flatNearest rows query) (flatMatched rows query) where
  vector _ := rfl
  fts _ := rfl
  passing := by
    refine ((List.perm_insertionSort _ _).map _).trans (List.Perm.of_eq ?_)
    rw [List.map_map]
    exact List.map_id _
  vectorSorted := by
    have : Std.Total fun a b : ChunkRow (ℚ × ℚ) × ℚ => a.2 ≤ b.2 := ⟨fun a b => le_total a.2 b.2⟩
    have : IsTrans (ChunkRow (ℚ × ℚ) × ℚ) fun a b => a.2 ≤ b.2 := ⟨fun _ _ _ => le_trans⟩
    exact List.pairwise_insertionSort _ _
  ftsSorted := by
    unfold flatMatched
    rw [List.pairwise_map]
    exact List.pairwise_of_forall fun _ _ => le_rfl

def flatRow (docId : DocId) (embedding : ℚ × ℚ) : ChunkRow (ℚ × ℚ) :=
  ⟨docId, "Doc", 0, 1, 0, 1, embedding, embedding, "text"⟩

def flatQuery (mode : SearchMode) : DocumentQuery (ℚ × ℚ) :=
  ⟨⟨(1, 0), 0, 10, [], [], false⟩, "text", mode⟩

/-- Six chunks of `a` are nearer than the only chunk of `b`. -/
def crowdedRows : List (ChunkRow (ℚ × ℚ)) :=
  List.replicate 6 (flatRow "a" (1, 0)) ++ [flatRow "b" (3 / 5, 4 / 5)]

/-- Four chunks of `a` are nearer than `b`, `c` and `d`. -/
def pairedRows : List (ChunkRow (ℚ × ℚ)) :=
  List.replicate 4 (flatRow "a" (1, 0)) ++
    [flatRow "b" (3 / 5, 4 / 5), flatRow "c" (0, 1), flatRow "d" (-1, 0)]

/-- The chunks for the first page are all of `a`; those for the second are not all either. -/
theorem search_pages_partition_pairedRows :
    flatEnv.PagesPartition pairedRows (flatQuery .hybrid)
      (flatMatched pairedRows (flatQuery .hybrid)) 1 := by
  have hexact := flatEnv_exact pairedRows (flatQuery .hybrid)
  refine (SearchEnv.search_pages_partition_iff flatEnv pairedRows (flatQuery .hybrid) _ _
    flatEnv_ordered hexact).1 1 le_rfl fun p => ?_
  have hnearest : (flatNearest pairedRows (flatQuery .hybrid)).length = 7 := by decide +kernel
  have hmatched : (flatMatched pairedRows (flatQuery .hybrid)).length = 7 := by decide +kernel
  rw [SearchEnv.settled_iff_take flatEnv_ordered hexact]
  match p with
  | 0 => decide +kernel
  | 1 => decide +kernel
  | p + 2 => rw [SearchEnv.rankedWithin_eq (by omega) (by omega)]

/-- The chunks for the second page are all of `a`, and the third page is past `b`. -/
theorem search_pages_not_partition :
    flatEnv.Exact crowdedRows (flatQuery .vector) (flatNearest crowdedRows (flatQuery .vector))
        (flatMatched crowdedRows (flatQuery .vector)) ∧
      "b" ∈ Matching crowdedRows (flatQuery .vector) (flatMatched crowdedRows (flatQuery .vector)) ∧
      ¬ flatEnv.PagesPartition crowdedRows (flatQuery .vector)
        (flatMatched crowdedRows (flatQuery .vector)) 1 := by
  have hmatching : ∀ row ∈ crowdedRows, row.docId ∈ Matching crowdedRows (flatQuery .vector)
      (flatMatched crowdedRows (flatQuery .vector)) := fun row hrow => ⟨row, hrow, rfl, rfl⟩
  have ha := hmatching (flatRow "a" (1, 0)) (by simp [crowdedRows])
  have hb := hmatching (flatRow "b" (3 / 5, 4 / 5)) (by simp [crowdedRows])
  refine ⟨flatEnv_exact _ _, hb, ?_⟩
  rintro ⟨ranking, hranking, hserves⟩
  have hsecond : (flatEnv.searchWithOptions (.ok crowdedRows) ((flatQuery .vector).page 1 1)).map
      (fun hits => hits.map fun h => h.id) = .ok [] := by decide +kernel
  have hpage : Ranking.page 1 1 ranking = [] :=
    Except.ok.inj ((hserves 1).symm.trans hsecond)
  have hlen : ranking.length ≤ 1 := by
    have := congrArg List.length hpage
    simp [Ranking.page] at this
    omega
  match ranking, hlen with
  | [], _ => exact absurd ((hranking.mem _).mpr hb) List.not_mem_nil
  | [x], _ =>
    have hxa := List.mem_singleton.mp ((hranking.mem _).mpr ha)
    have hxb := List.mem_singleton.mp ((hranking.mem _).mpr hb)
    exact absurd (hxa.trans hxb.symm) (by decide)

end Samples

end Vectorlink
