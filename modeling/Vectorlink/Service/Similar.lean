import Vectorlink.Service.PushWalk
import Vectorlink.Service.PushRuns
import Vectorlink.Service.Resolve
import Vectorlink.Store.Search

/-! Documents similar to a stored one. The ranking is read from the snapshot of the served
commit, the document itself from the branch. -/
namespace Vectorlink

open Stepwise Stepwise.Program Versioned

variable {V D : Type}

/-- What the request meets besides the store. -/
structure SimilarEnv (V D : Type) extends RankEnv V D where
  searchReady : Bool
  expectedDim : ℕ
  dim : V → ℕ
  normSq : V → D
  /-- `(norm_sq - 1.0).abs() > 1e-3`. -/
  offUnit : D → Bool
  display : D → String

structure SimilarQuery where
  id : DocId
  start : ℕ
  count : ℕ
  docTypeFilter : List String
  docIdFilter : List DocId
  snippet : Bool
  ancestors : List CommitId

structure SimilarOutcome (D : Type) where
  hits : List (SearchHit D)
  servedCommit : CommitId
deriving DecidableEq

namespace SimilarEnv

variable (env : SimilarEnv V D)

/-- The stored vector must have the right dimension and unit length. -/
def probeError (id : DocId) (probe : V) : Option ServiceError :=
  if env.dim probe ≠ env.expectedDim then
    some (.internal
      s!"stored embedding for {id} has dimension {env.dim probe}, expected {env.expectedDim}")
  else if env.offUnit (env.normSq probe) then
    some (.internal
      s!"stored embedding for {id} is not L2-normalised (norm^2 = {env.display (env.normSq probe)}); the insert-time normalisation invariant is violated")
  else none

/-- One hit more than asked for, as the document itself is among them. -/
def searchQuery (q : SimilarQuery) (probe : V) : SearchQuery V where
  queryEmbedding := probe
  start := q.start
  count := q.count + 1
  docTypeFilter := q.docTypeFilter
  docIdFilter := q.docIdFilter
  snippet := q.snippet

def paginate (q : SimilarQuery) (hits : List (SearchHit D)) : List (SearchHit D) :=
  ((hits.filter fun hit => hit.id ≠ q.id).drop q.start).take q.count

/-- Exact duplicates of the document move to distance 0, and the hits are sorted again. -/
def overrideDuplicates (rows : List (ChunkRow V)) (probe : V) (hits : List (SearchHit D)) :
    List (SearchHit D) :=
  if hits.isEmpty || env.dim probe = 0 then hits
  else
    let embeddings := fetchResultEmbeddings rows (hits.map (·.id))
    (hits.map fun hit =>
      match embeddings.lookup hit.id with
      | some best => if env.vectorsEqual probe best.2 then { hit with distance := env.zero } else hit
      | none => hit).insertionSort fun a b => env.compare a.distance b.distance != .gt

/-- The ranking around a probe, in the snapshot of a commit. -/
def rankAround (snapshot : Except StoreError (List (ChunkRow V))) (servedCommit : CommitId)
    (probe : V) (q : SimilarQuery) : Except ServiceError (SimilarOutcome D) :=
  match env.probeError q.id probe with
  | some e => .error e
  | none =>
    match snapshot with
    | .error e => .error (.internal e.text)
    | .ok rows =>
      match env.searchRows rows (searchQuery q probe) with
      | .error e => .error (.internal e.text)
      | .ok chunkHits => .ok ⟨env.overrideDuplicates rows probe
          (paginate q (env.dedupChunksToDocuments chunkHits q.snippet)), servedCommit⟩

def similarWithOptions (d : Domain V) (branch : BranchName) (commit : CommitId)
    (q : SimilarQuery) : Except ServiceError (SimilarOutcome D) :=
  if !env.searchReady then
    .error (.unavailable "search capability not ready (embedding backend cold)")
  else
    match (resolveSearchableCommit branch commit q.ancestors
        (d.branchIndexes.lookup branch)).runAt d.opened with
    | .error e => .error e
    | .ok servedCommit =>
      match ioLookupDocChunks d branch q.id with
      | .error e => .error (.internal e.text)
      | .ok [] => .error (.notFound s!"document {q.id} not found in index")
      | .ok (chunk :: _) => env.rankAround ((ioSnapshotFromCache servedCommit).runAt d.opened)
          servedCommit chunk.embedding q

end SimilarEnv

section Probe

/-- The vector that the document is compared by. -/
def firstEmbedding (chunks : List (ChunkRow V)) : Option V := chunks.head?.map (·.embedding)

def probeOf (d : Domain V) (branch : BranchName) (id : DocId) : Except StoreError (Option V) :=
  (ioLookupDocChunks d branch id).map firstEmbedding

/-- The request as a function of the probe alone, in the snapshot of the commit. -/
def SimilarEnv.answer (env : SimilarEnv V D) (rows : List (ChunkRow V)) (commit : CommitId)
    (q : SimilarQuery) : Except StoreError (Option V) → Except ServiceError (SimilarOutcome D)
  | .error e => .error (.internal e.text)
  | .ok none => .error (.notFound s!"document {q.id} not found in index")
  | .ok (some probe) => env.rankAround (.ok rows) commit probe q

variable {c : CommitId} {t : TagContents BranchName} {rows : List (ChunkRow V)}

theorem ServesTag.snapshot {d : Domain V} (h : ServesTag c t rows d) :
    (ioSnapshotFromCache c).runAt d.opened = .ok rows := by
  rw [ioSnapshotFromCache_runAt, ioCheckoutCommitSnapshot_ok]
  exact h.2.served

theorem ServesTag.resolve {d : Domain V} (h : ServesTag c t rows d) (branch : BranchName)
    (ancestors : List CommitId) (cached : Option BranchIndex) :
    (resolveSearchableCommit branch c ancestors cached).runAt d.opened = .ok c := by
  have hmem : c ∈ d.opened.tags := AList.lookup_isSome.mp (by simp [h.2.1])
  simp [resolveSearchableCommit, Observer.runAt, hmem]

/-- At an indexed commit only the probe is not read from the snapshot. -/
theorem similarWithOptions_eq (env : SimilarEnv V D) {d : Domain V} (h : ServesTag c t rows d)
    (branch : BranchName) (q : SimilarQuery) (hready : env.searchReady = true) :
    env.similarWithOptions d branch c q = env.answer rows c q (probeOf d branch q.id) := by
  unfold SimilarEnv.similarWithOptions probeOf
  rw [hready, h.resolve]
  cases hlookup : ioLookupDocChunks d branch q.id with
  | error e => rfl
  | ok chunks =>
    cases chunks with
    | nil => rfl
    | cons chunk chunks =>
      simp only [h.snapshot]
      rfl

end Probe

section Pushes

/-- The rows after the work of a push. -/
def PushRequest.applyTo (r : PushRequest V) (rows : List (ChunkRow V)) : List (ChunkRow V) :=
  match r.collect with
  | .ok c => c.apply rows
  | .error _ => rows

def pushAll (b : BranchName) (d : Domain V) (rs : List (PushRequest V)) : Domain V :=
  rs.foldl (fun d r => (r.push b d).store) d

/-- Every push of the sequence ends complete. -/
def AllComplete (b : BranchName) : Domain V → List (PushRequest V) → Prop
  | _, [] => True
  | d, r :: rs => (∃ indexed skipped, (r.push b d).result = .ok (.complete indexed skipped)) ∧
      AllComplete b (r.push b d).store rs

/-- The newest rows of a branch. -/
def Domain.headRows (d : Domain V) (b : BranchName) : List (ChunkRow V) :=
  ((d.opened.lineage? (wantBranch b)).map (·.headRows)).getD []

/-- The newest rows of a branch are `rows`, and a handle on it shows them. -/
structure Shows (b : BranchName) (rows : List (ChunkRow V)) (s : Domain V) : Prop where
  dataset : s.dataset.isSome
  lineage : ∃ l, s.opened.lineage? (wantBranch b) = some l ∧ l.headRows = rows ∧
    (b = mainBranch → ∀ v, s.cached = some v → v = l.head)

variable {b : BranchName} {rows : List (ChunkRow V)} {d d₀ s : Domain V} {commit : CommitId}
  {c : Collected V}

theorem Shows.headRows (h : Shows b rows s) : s.headRows b = rows := by
  obtain ⟨l, hl, hrows, -⟩ := h.lineage
  simp [Domain.headRows, hl, hrows]

theorem Shows.handleRows (h : Shows b rows s) : s.handleRows b = .ok rows := by
  obtain ⟨l, hl, rfl, hcached⟩ := h.lineage
  unfold Domain.handleRows
  split
  · rename_i hb
    rw [hb, wantBranch, if_pos rfl, Dataset.lineage?_none, Option.some.injEq] at hl
    have hversion : s.cached.getD s.opened.main.head = l.head := by
      cases hc : s.cached with
      | none => rw [Option.getD_none, hl]
      | some v => exact hcached hb v hc
    rw [hversion, hl, l.rows_head]
  · rw [hl]

theorem Shows.cleaned (h : Shows b rows s) : Shows b rows s.cleaned := by
  obtain ⟨l, hl, hrows, hcached⟩ := h.lineage
  obtain ⟨l', hl', hhead, hrows'⟩ := exists_lineage_cleanup hl
  refine ⟨by simpa [Domain.cleaned] using h.dataset, l', ?_, hrows'.trans hrows, fun hb v hv => ?_⟩
  · rw [Domain.cleaned_opened h.dataset, hl']
  · rw [hhead]
    exact hcached hb v hv

/-- Tagging leaves the handle of the default branch at its newest version. -/
theorem shows_tagged {l : Lineage (ChunkRow V)} {v : ℕ} (hds : s.dataset.isSome)
    (hl : s.opened.lineage? (wantBranch b) = some l) :
    Shows b l.headRows (s.tagged b commit v) := by
  refine ⟨Domain.tagged_dataset_isSome hds b commit v, l, ?_, rfl, fun hb w hw => ?_⟩
  · rw [Domain.tagged_opened hds]
    exact hl
  · rw [Domain.tagged_cached hds, Option.some.injEq] at hw
    rw [hb, wantBranch, if_pos rfl, Dataset.lineage?_none, Option.some.injEq] at hl
    rw [← hw, hl]

/-- After a push that ends complete, the branch shows the old rows with its work applied. -/
theorem PushDone.shows (h : PushDone d d₀ b commit c s) (h₀ : d₀.opened = d.opened) :
    Shows b (c.apply (d.headRows b)) s := by
  cases h with
  | @work s' l l' v _ hl hat hserves _ hs =>
    have hrows : c.apply (d.headRows b) = l'.headRows := by
      rw [Domain.headRows, hl, hserves.headRows]
      rfl
    have htagged : Shows b (c.apply (d.headRows b)) (s'.tagged b commit v) := by
      rw [hrows]
      exact shows_tagged hat.dataset hat.lineage
    rcases hs with rfl | rfl
    · exact htagged
    · exact htagged.cleaned
  | @noop v hrows hdel _ ht hs =>
    obtain ⟨r, hr⟩ := Option.isSome_iff_exists.mp ht.2.2
    obtain ⟨l, hl, -⟩ := Option.bind_eq_some_iff.mp hr
    have hhead : d.headRows b = l.headRows := by
      rw [Domain.headRows, ← h₀, hl]
      rfl
    subst hs
    rw [Collected.apply_of_nil hrows hdel, hhead]
    exact shows_tagged ht.1 hl

/-- A push ends complete only on a branch that is there. -/
theorem PushDone.exists_lineage (h : PushDone d d₀ b commit c s) (h₀ : d₀.opened = d.opened) :
    ∃ l, d.opened.lineage? (wantBranch b) = some l := by
  cases h with
  | work _ hl => exact ⟨_, hl⟩
  | noop _ _ _ ht _ =>
    obtain ⟨r, hr⟩ := Option.isSome_iff_exists.mp ht.2.2
    obtain ⟨l, hl, -⟩ := Option.bind_eq_some_iff.mp hr
    rw [h₀] at hl
    exact ⟨l, hl⟩

theorem push_shows {r : PushRequest V} {indexed : ℕ} {skipped : List SkippedDoc}
    (h : (r.push b d).result = .ok (.complete indexed skipped)) :
    Shows b (r.applyTo (d.headRows b)) (r.push b d).store := by
  obtain ⟨c, hc, hdone⟩ := PushRequest.push_done h
  have hshows := hdone.shows (PushRequest.noopStart_opened _)
  have hhead : d.openReadonly.headRows b = d.headRows b := by simp [Domain.headRows]
  rw [hhead] at hshows
  simpa [PushRequest.applyTo, hc] using hshows

/-- The run lemma: after a sequence of pushes the branch shows all their work. -/
theorem pushAll_shows {rs : List (PushRequest V)} (hne : rs ≠ []) (h : AllComplete b d rs) :
    Shows b (rs.foldl (fun rows r => r.applyTo rows) (d.headRows b)) (pushAll b d rs) := by
  induction rs generalizing d with
  | nil => exact absurd rfl hne
  | cons r rs ih =>
    obtain ⟨⟨indexed, skipped, hr⟩, hrest⟩ := h
    have hshows := push_shows hr
    cases rs with
    | nil => exact hshows
    | cons r' rs =>
      have hlater := ih (by simp) hrest
      rw [hshows.headRows] at hlater
      exact hlater

theorem pushAll_servesTag {c : CommitId} {t : TagContents BranchName} {b : BranchName}
    (h : ServesTag c t rows d) (rs : List (PushRequest V)) :
    ServesTag c t rows (pushAll b d rs) := by
  induction rs generalizing d with
  | nil => exact h
  | cons r rs ih => exact ih (r.push_servesTag b h)

/-- A push that does not name a document leaves its rows alone. -/
theorem PushRequest.docRows_applyTo {r : PushRequest V} {id : DocId}
    (h : ∀ op ∈ r.operations, op.target? ≠ some id) (rows : List (ChunkRow V)) :
    docRows id (r.applyTo rows) = docRows id rows := by
  unfold PushRequest.applyTo
  cases hc : r.collect with
  | error e => rfl
  | ok c =>
    obtain ⟨docs, hdocs⟩ := PushRequest.collects hc
    have hid : ∀ d ∈ docs, d.id ≠ id := by
      intro d hd hdid
      obtain ⟨string, hop, -⟩ := hdocs.text d hd
      apply h _ hop
      unfold docOperation
      split <;> simp [Operation.target?, hdid]
    have hdel : id ∉ c.deleteIds := by
      intro hmem
      rcases (hdocs.deleteIds id).mp hmem with hop | ⟨d, hd, -, hdid⟩
      · exact h _ hop rfl
      · exact hid d hd hdid
    have hnew : docRows id c.rows = [] := by
      apply docRows_other
      intro row hrow
      rw [hdocs.rows, List.mem_flatMap] at hrow
      obtain ⟨d, hd, hmem⟩ := hrow
      rw [hdocs.docId hd hmem]
      exact hid d hd
    show docRows id (c.apply rows) = docRows id rows
    rw [Collected.apply, docRows_append, docRows_deleteDocs, if_neg hdel, hnew, List.append_nil]

theorem docRows_foldl_applyTo {id : DocId} {rs : List (PushRequest V)}
    (h : ∀ r ∈ rs, ∀ op ∈ r.operations, op.target? ≠ some id) (rows : List (ChunkRow V)) :
    docRows id (rs.foldl (fun rows r => r.applyTo rows) rows) = docRows id rows := by
  induction rs generalizing rows with
  | nil => rfl
  | cons r rs ih =>
    rw [List.foldl_cons, ih fun r' hr' => h r' (List.mem_cons_of_mem _ hr')]
    exact PushRequest.docRows_applyTo (h r List.mem_cons_self) rows

end Pushes

section Isolation

/-- The pushes leave the vector of the document as a handle on the branch shows it. -/
def KeepsProbe (b : BranchName) (id : DocId) (d : Domain V) (rs : List (PushRequest V)) : Prop :=
  rs ≠ [] → probeOf d b id =
    .ok (firstEmbedding (docRows id (rs.foldl (fun rows r => r.applyTo rows) (d.headRows b))))

variable {b : BranchName} {rows : List (ChunkRow V)} {d : Domain V} {c : CommitId}
  {t : TagContents BranchName} {id : DocId} {rs : List (PushRequest V)}

theorem Shows.probeOf {s : Domain V} (h : Shows b rows s) (id : DocId) :
    probeOf s b id = .ok (firstEmbedding (docRows id rows)) := by
  obtain ⟨ds, hds⟩ := Option.isSome_iff_exists.mp h.dataset
  simp only [Vectorlink.probeOf, ioLookupDocChunks, hds, h.handleRows]
  rfl

theorem probeOf_pushAll (hrs : AllComplete b d rs) (h : KeepsProbe b id d rs) :
    probeOf (pushAll b d rs) b id = probeOf d b id := by
  by_cases hne : rs = []
  · subst hne
    rfl
  · rw [(pushAll_shows hne hrs).probeOf, h hne]

/-- A search that answers with the vector it was asked for. -/
def echo (id : DocId) : SimilarEnv V (Option V) where
  zero := none
  lt _ _ := false
  compare _ _ := .eq
  normalizedCosineFromLance v := v
  quotient _ _ := none
  vectorSearch _ v _ _ _ := .ok [(⟨id ++ "'", "", 0, 1, 0, 1, v, v, ""⟩, some v)]
  vectorsEqual _ _ := false
  searchReady := true
  expectedDim := 0
  dim _ := 0
  normSq v := some v
  offUnit _ := false
  display _ := ""

/-- The first hit for a document, without filters. -/
def firstHit (id : DocId) : SimilarQuery := ⟨id, 0, 1, [], [], false, []⟩

theorem echo_rankAround (e : V) (rows : List (ChunkRow V)) (c : CommitId) (id : DocId) :
    ∃ hit, (echo id).rankAround (.ok rows) c e (firstHit id) = .ok ⟨[hit], c⟩ ∧
      hit.distance = some e := by
  have hne : id ++ "'" ≠ id := by
    intro h
    have hlength := congrArg String.length h
    simp at hlength
  refine ⟨⟨id ++ "'", some e, (echo (V := V) id).chunkInfo ⟨id ++ "'", some e, 0, 1, 0, 1, ""⟩
    false⟩, ?_, rfl⟩
  simp [SimilarEnv.rankAround, SimilarEnv.probeError, RankEnv.searchRows, Except.map,
    SimilarEnv.searchQuery, RankEnv.dedupChunksToDocuments, RankEnv.bestPerDoc, ChunkHit.ofRow,
    SimilarEnv.paginate, SimilarEnv.overrideDuplicates, echo, firstHit, hne]

/-- The answer of that search gives the probe away. -/
theorem eq_of_echo_answer {probe : Option V} {probe' : Except StoreError (Option V)}
    (h : (echo id).answer rows c (firstHit id) (.ok probe) =
      (echo id).answer rows c (firstHit id) probe') : probe' = .ok probe := by
  cases probe with
  | none =>
    cases probe' with
    | error e => cases h
    | ok probe' =>
      cases probe' with
      | none => rfl
      | some e' =>
        obtain ⟨hit', hrank', -⟩ := echo_rankAround e' rows c id
        simp only [SimilarEnv.answer, hrank', reduceCtorEq] at h
  | some e =>
    obtain ⟨hit, hrank, hdistance⟩ := echo_rankAround e rows c id
    cases probe' with
    | error e' => simp only [SimilarEnv.answer, hrank, reduceCtorEq] at h
    | ok probe' =>
      cases probe' with
      | none => simp only [SimilarEnv.answer, hrank, reduceCtorEq] at h
      | some e' =>
        obtain ⟨hit', hrank', hdistance'⟩ := echo_rankAround e' rows c id
        simp only [SimilarEnv.answer, hrank, hrank', Except.ok.injEq, SimilarOutcome.mk.injEq,
          List.cons.injEq, and_true] at h
        rw [← hdistance', ← h, hdistance]

/-- A handle at the newest version shows the newest rows. -/
theorem shows_headRows (hds : d.dataset.isSome) (hne : rs ≠ []) (hrs : AllComplete b d rs)
    (hcached : b = mainBranch → ∀ v, d.cached = some v → v = d.opened.main.head) :
    Shows b (d.headRows b) d := by
  cases rs with
  | nil => exact absurd rfl hne
  | cons r rs =>
    obtain ⟨⟨indexed, skipped, hr⟩, -⟩ := hrs
    obtain ⟨c, -, hdone⟩ := PushRequest.push_done hr
    obtain ⟨l, hl⟩ := hdone.exists_lineage (PushRequest.noopStart_opened _)
    rw [Domain.openReadonly_opened] at hl
    refine ⟨hds, l, hl, by simp [Domain.headRows, hl], fun hb v hv => ?_⟩
    rw [hb, wantBranch, if_pos rfl, Dataset.lineage?_none, Option.some.injEq] at hl
    rw [← hl]
    exact hcached hb v hv

theorem servesTag_of_served (h : d.opened.served c = some rows) : ∃ t, ServesTag c t rows d := by
  obtain ⟨t, ht⟩ := Dataset.exists_home h
  refine ⟨t, ?_, ht⟩
  cases hds : d.dataset with
  | none =>
    have hopened : d.opened = .create := by simp [Domain.opened, hds]
    rw [hopened] at ht
    cases ht.1
  | some ds => rfl

/-- The answers at an indexed commit do not change with later pushes exactly when these leave
the vector of the document in place. They do so if none of them names the document and the
cached handle, where one is read, is up to date. -/
theorem similar_isolated_iff (hserved : d.opened.served c = some rows)
    (hrs : AllComplete b d rs) :
    ((∀ (D : Type) (env : SimilarEnv V D) (q : SimilarQuery), q.id = id →
        env.similarWithOptions (pushAll b d rs) b c q = env.similarWithOptions d b c q) ↔
      KeepsProbe b id d rs) ∧
    ((b = mainBranch → ∀ v, d.cached = some v → v = d.opened.main.head) →
      (∀ r ∈ rs, ∀ op ∈ r.operations, op.target? ≠ some id) → KeepsProbe b id d rs) := by
  obtain ⟨t, ht⟩ := servesTag_of_served hserved
  have ht' := pushAll_servesTag (b := b) ht rs
  refine ⟨⟨fun hsame hne => ?_, fun hprobe D env q hq => ?_⟩, fun hcached hops hne => ?_⟩
  · have hecho := hsame (Option V) (echo id) (firstHit id) rfl
    rw [similarWithOptions_eq _ ht' b _ rfl, similarWithOptions_eq _ ht b _ rfl,
      show (firstHit id).id = id from rfl, (pushAll_shows hne hrs).probeOf] at hecho
    exact eq_of_echo_answer hecho
  · subst hq
    by_cases hready : env.searchReady = true
    · rw [similarWithOptions_eq env ht' b q hready, similarWithOptions_eq env ht b q hready,
        probeOf_pushAll hrs hprobe]
    · simp [SimilarEnv.similarWithOptions, hready]
  · rw [docRows_foldl_applyTo hops, (shows_headRows ht.1 hne hrs hcached).probeOf]

def deleteA : PushRequest Unit := ⟨plainEnv fun _ => false, "c1", [.deleted "a"], .buffered⟩

def insertB : PushRequest Unit :=
  ⟨plainEnv fun _ => false, "c1", [.inserted "b" "new"], .streaming none⟩

theorem similar_isolated_insertB :
    (indexedA.opened.served "c0").isSome ∧ AllComplete mainBranch indexedA [insertB] ∧
    (echo "a").similarWithOptions (pushAll mainBranch indexedA [insertB]) mainBranch "c0"
        (firstHit "a") =
      (echo "a").similarWithOptions indexedA mainBranch "c0" (firstHit "a") := by
  have hrows : indexedA.opened.served "c0" = some ((indexedA.opened.served "c0").getD []) := by rfl
  have hrs : AllComplete mainBranch indexedA [insertB] := ⟨⟨1, [], by rfl⟩, trivial⟩
  have hiso : (_ ↔ KeepsProbe mainBranch "a" indexedA [insertB]) ∧ _ :=
    similar_isolated_iff hrows hrs
  refine ⟨by rfl, hrs, hiso.1.mpr (hiso.2 (fun _ v hv => ?_) fun r hr op hop => ?_) _ _ _ rfl⟩
  · have hcached : indexedA.cached = some indexedA.opened.main.head := by rfl
    exact Option.some.inj (hv.symm.trans hcached)
  · obtain rfl := List.mem_singleton.mp hr
    obtain rfl := List.mem_singleton.mp hop
    decide

/-- Deleting the document later takes it away from the older commit as well. -/
theorem similar_not_isolated :
    (indexedA.opened.served "c0").isSome ∧ AllComplete mainBranch indexedA [deleteA] ∧
    (echo "a").similarWithOptions (pushAll mainBranch indexedA [deleteA]) mainBranch "c0"
        (firstHit "a") = .error (.notFound "document a not found in index") ∧
    (echo "a").similarWithOptions (pushAll mainBranch indexedA [deleteA]) mainBranch "c0"
        (firstHit "a") ≠
      (echo "a").similarWithOptions indexedA mainBranch "c0" (firstHit "a") := by
  have hafter : (echo "a").similarWithOptions (pushAll mainBranch indexedA [deleteA]) mainBranch
      "c0" (firstHit "a") = .error (.notFound "document a not found in index") := by rfl
  refine ⟨by rfl, ⟨⟨0, [], by rfl⟩, trivial⟩, hafter, fun h => ?_⟩
  rw [hafter] at h
  cases h

end Isolation

end Vectorlink
