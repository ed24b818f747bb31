import Vectorlink.Service.Pipeline
import Vectorlink.Service.Resolve
import Vectorlink.Store.Branch
import Vectorlink.Store.DomainPath
import Vectorlink.Store.Retag

/-! Everything a store keeps about its domains, the requests that read and change it, and
what the deletion of a domain leaves. -/
namespace Vectorlink

open Stepwise Versioned

variable {V : Type}

/-- One domain's entries on disk, in the maps of the store and in `domain_settings.json`. -/
structure Footprint (V : Type) where
  domain : Domain V
  pipelineLocks : List BranchName
  cancelTokens : List BranchName
  inflightCommits : List (BranchName × CommitId)
  domainGuard : Bool
  indexDeltaCounts : BranchName → ℕ
  storeClustering : Bool

/-- `PUT /push` to a branch. The outside world decides how its calls end, also how many
versions the merge cascade commits for a delta count; `dropped` is a client that goes away
while its push waits for the branch. -/
structure HttpPush (V : Type) where
  branch : BranchName
  parentCommit : Option CommitId
  storeClustering : Option Bool
  request : PushRequest V
  cascadeVersions : ℕ → ℕ
  fork : ForkEnv
  dropped : Bool

inductive Request (V : Type) where
  | push (p : HttpPush V)
  | assign (env : StoreEnv) (branch : BranchName) (source target : CommitId)
  | compact (epoch : ℕ) (fails : RetagOp → Bool) (ftsVersions : CommitId → ℕ)
      (order : HashOrder (CommitId × ℕ))
  | deleteBranchIndex (env : StoreEnv) (branch : BranchName)
  | search (branch : BranchName) (commit : CommitId) (ancestors : List CommitId)
  | lastIndexed (branch : BranchName)
  | statistics
  | deleteDomain
  | restart (cleanup : RetagEnv (ChunkRow V))

/-- The part of the statistics of a domain that does not depend on how Lance stores its
fragments. -/
structure Statistics where
  domains : ℕ
  branches : ℕ
  documents : ℕ
  chunks : ℕ
  storeClustering : Bool
deriving DecidableEq, Repr

inductive Response (V : Type) where
  | pushed (result : Except ServiceError TaskStatus)
  | dropped
  | assigned (result : Except StoreError ℕ)
  | compacted (result : Except StoreError (ℕ × ℕ))
  | reset (result : Except StoreError Unit)
  | found (result : Except ServiceError (CommitId × List (ChunkRow V)))
  | lastIndexed (result : LastIndexed)
  | statistics (result : Statistics)
  | deleted
  | restarted

namespace Footprint

/-- A domain the store has never heard of. -/
def fresh : Footprint V := ⟨.fresh, [], [], [], false, fun _ => 0, false⟩

/-- `io_delete_domain`, map by map. -/
def ioDeleteDomain (fp : Footprint V) : Footprint V :=
  let removed := { fp with domain := { fp.domain with dataset := none } }
  let uncached := { removed with domain := { removed.domain with cached := none } }
  let unindexed := { uncached with domain := { uncached.domain with branchIndexes := ∅ } }
  let unlocked := { unindexed with pipelineLocks := [] }
  let cancelled := { unlocked with cancelTokens := [] }
  let unreserved := { cancelled with inflightCommits := [] }
  let unguarded := { unreserved with domainGuard := false }
  { unguarded with indexDeltaCounts := fun _ => 0 }

/-- A new process reads the settings back from their file, and cleans up after compactions that
were cut off. -/
def restart (fp : Footprint V) (cleanup : RetagEnv (ChunkRow V)) : Footprint V :=
  { (fresh : Footprint V) with
    domain := { fp.domain.restart with
      dataset := fp.domain.dataset.map cleanup.ioCleanupCompactionBranches }
    storeClustering := fp.storeClustering }

/-- The rows of the cached handle, which is opened if there is none. -/
def cachedRows (fp : Footprint V) : List (ChunkRow V) :=
  let d := fp.domain.openReadonly
  ((d.cached.bind fun v => d.opened.main.rows v)).getD []

def statistics (fp : Footprint V) : Statistics where
  domains :=
    if fp.domain.cached.isNone && fp.domain.branchIndexes.entries.isEmpty &&
        fp.domain.dataset.isNone then 0
    else 1
  branches := fp.domain.branchIndexes.entries.length
  documents := (fp.cachedRows.map (·.docId)).dedup.length
  chunks := fp.cachedRows.length
  storeClustering := fp.storeClustering

end Footprint

namespace HttpPush

variable (p : HttpPush V)

/-- The push with the settings and the delta count that it meets. -/
def requestAt (fp : Footprint V) : PushRequest V :=
  { p.request with
    env := { p.request.env with
      storeClustering := fp.storeClustering
      indexVersions := fun op =>
        if op = .cascade then p.cascadeVersions (fp.indexDeltaCounts p.branch + 1)
        else p.request.env.indexVersions op } }

/-- The setting is only ever switched on. -/
def applySettings (fp : Footprint V) : Footprint V :=
  if p.storeClustering = some true then { fp with storeClustering := true } else fp

/-- All vector indices of a boundary were brought up to date. -/
def countsDelta (r : PushRequest V) (trace : List (StoreOp × Domain V)) : Bool :=
  trace.any (fun e => e.1 == .vectorIndex) &&
    (!(r.env.storeClustering && r.env.clusteringConfig) ||
      trace.any fun e => e.1 == .clusteringIndex)

/-- The pipeline, from the branch it is to write to. -/
def index (fp : Footprint V) : Response V × Footprint V :=
  let r := p.requestAt fp
  let o := r.push p.branch fp.domain
  (.pushed o.result,
    { fp with
      domain := o.store
      indexDeltaCounts :=
        if countsDelta r o.trace then
          Function.update fp.indexDeltaCounts p.branch (fp.indexDeltaCounts p.branch + 1)
        else fp.indexDeltaCounts
      pipelineLocks := p.branch :: fp.pipelineLocks.erase p.branch })

/-- The commit is not tagged and the branch may have to be forked first. -/
def forks (fp : Footprint V) : Option CommitId :=
  if p.branch ≠ mainBranch ∧ ¬ p.request.env.fails .resolve ∧
      p.request.commit ∉ fp.domain.opened.tags then p.parentCommit
  else none

/-- Reserve, fork, index. -/
def push (fp : Footprint V) : Response V × Footprint V :=
  if (p.branch, p.request.commit) ∈ fp.inflightCommits then
    (.pushed (.error (.conflict
      s!"commit {p.request.commit} already pushed (in-flight or indexed)")), fp)
  else if p.dropped then
    (.dropped, { fp with inflightCommits := (p.branch, p.request.commit) :: fp.inflightCommits })
  else match p.forks fp with
    | none => p.index fp
    | some parent =>
      match (p.fork.ioEnsureBranchForked p.branch parent).runAt fp.domain with
      | .error e =>
        if e.isRefNotFound then (.pushed (.error (.notFound e.text)), fp)
        else (.pushed (.error (.internal e.text)), fp)
      | .ok .alreadyExists => p.index fp
      | .ok (.created _ after) => p.index { fp with domain := after }

def handlePush (fp : Footprint V) : Response V × Footprint V := p.push (p.applySettings fp)

def indexMoments (fp : Footprint V) : List (Domain V) :=
  ((p.requestAt fp).push p.branch fp.domain).trace.map Prod.snd

/-- The domain after each step of a push, one after the other. -/
def moments (fp : Footprint V) : List (Domain V) :=
  let fp := p.applySettings fp
  if (p.branch, p.request.commit) ∈ fp.inflightCommits ∨ p.dropped then []
  else match p.forks fp with
    | none => p.indexMoments fp
    | some parent =>
      match (p.fork.ioEnsureBranchForked p.branch parent).runAt fp.domain with
      | .error _ => []
      | .ok .alreadyExists => p.indexMoments fp
      | .ok (.created _ after) => after :: p.indexMoments { fp with domain := after }

end HttpPush

namespace Footprint

/-- Compaction changes the dataset and refreshes the cached handle. -/
def compact (fp : Footprint V) (epoch : ℕ) (fails : RetagOp → Bool)
    (ftsVersions : CommitId → ℕ) (order : HashOrder (CommitId × ℕ)) :
    Response V × Footprint V :=
  match fp.domain.dataset with
  | none => (.compacted (.ok (0, 0)), fp)
  | some ds =>
    let o := ioRetagWithDeltaForks epoch fails ftsVersions order ds
    (.compacted o.result,
      { fp with domain := { fp.domain with dataset := some o.store }.refresh })

/-- `io_delete_branch_index`: the in-memory state of the branch goes only when all its tags
are gone. -/
def ioDeleteBranchIndex (fp : Footprint V) (env : StoreEnv) (branch : BranchName) :
    Response V × Footprint V :=
  let o := env.ioDeleteBranchIndex branch fp.domain
  let untagged := { fp with
    domain := o.store
    pipelineLocks := branch :: fp.pipelineLocks.erase branch
    cancelTokens := fp.cancelTokens.erase branch }
  match o.result with
  | .error e => (.reset (.error e), untagged)
  | .ok () => (.reset (.ok ()), { untagged with
      inflightCommits := fp.inflightCommits.filter fun e => e.1 ≠ branch
      indexDeltaCounts := Function.update fp.indexDeltaCounts branch 0 })

/-- The answer to a request on the domain, and what the store keeps after it. -/
def serve (fp : Footprint V) : Request V → Response V × Footprint V
  | .push p => p.handlePush fp
  | .assign env branch source target =>
    let o := env.ioAssignCommit branch source target fp.domain
    (.assigned o.result, { fp with domain := o.store })
  | .compact epoch fails ftsVersions order => fp.compact epoch fails ftsVersions order
  | .deleteBranchIndex env branch => fp.ioDeleteBranchIndex env branch
  | .search branch commit ancestors =>
    (.found ((serveRequest branch commit ancestors (fp.domain.branchIndexes.lookup branch)).runAt
      fp.domain.opened), { fp with domain := fp.domain.openReadonly })
  | .lastIndexed branch =>
    let o := Vectorlink.lastIndexed fp.domain branch
    (.lastIndexed o.1, { fp with domain := o.2 })
  | .statistics => (.statistics fp.statistics, { fp with domain := fp.domain.openReadonly })
  | .deleteDomain => (.deleted, fp.ioDeleteDomain)
  | .restart cleanup => (.restarted, fp.restart cleanup)

end Footprint

/-- All domains of a process. Each has its own entries in the maps and in the settings file, and
those whose paths are encoded alike have one dataset. -/
structure Store (V : Type) where
  footprint : String → Footprint V
  shared : ∀ d d', encodeDomainPath d = encodeDomainPath d' →
    (footprint d).domain.dataset = (footprint d').domain.dataset

namespace Store

/-- No domain was ever heard of. -/
def empty : Store V := ⟨fun _ => .fresh, fun _ _ _ => rfl⟩

/-- The entries of one domain, and its dataset for every domain that has the same path. -/
def put (st : Store V) (d : String) (fp : Footprint V) : Store V where
  footprint d' :=
    if d' = d then fp
    else if encodeDomainPath d' = encodeDomainPath d then
      { st.footprint d' with
        domain := { (st.footprint d').domain with dataset := fp.domain.dataset } }
    else st.footprint d'
  shared d₁ d₂ h := by
    have hdataset (d' : String) : (if d' = d then fp
        else if encodeDomainPath d' = encodeDomainPath d then
          { st.footprint d' with
            domain := { (st.footprint d').domain with dataset := fp.domain.dataset } }
        else st.footprint d').domain.dataset =
          if encodeDomainPath d' = encodeDomainPath d then fp.domain.dataset
          else (st.footprint d').domain.dataset := by
      by_cases hd' : d' = d
      · simp [hd']
      · by_cases hpath : encodeDomainPath d' = encodeDomainPath d
        · simp [hd', hpath]
        · simp [hd', hpath]
    rw [hdataset, hdataset, h, st.shared d₁ d₂ h]

def serve (st : Store V) (d : String) (r : Request V) : Response V × Store V :=
  (((st.footprint d).serve r).1, st.put d ((st.footprint d).serve r).2)

/-- A sequence of requests on one domain: the responses and the store after them. -/
def run (st : Store V) (d : String) : List (Request V) → List (Response V) × Store V
  | [] => ([], st)
  | r :: rs =>
    let rest := (st.serve d r).2.run d rs
    ((st.serve d r).1 :: rest.1, rest.2)

/-- Requests on `d` cannot tell the two stores apart: not from the responses and not from
the data they leave. -/
def SameOn (d : String) (st st' : Store V) : Prop :=
  ∀ rs, (st.run d rs).1 = (st'.run d rs).1 ∧
    ((st.run d rs).2.footprint d).domain.dataset = ((st'.run d rs).2.footprint d).domain.dataset

/-- After the history and a delete, requests on the domain find what they would find without
the history, and requests on other domains what they would find without the delete. -/
def Erases (st : Store V) (d : String) (history : List (Request V)) : Prop :=
  let indexed := (st.run d history).2
  let deleted := (indexed.serve d .deleteDomain).2
  SameOn d deleted st ∧ ∀ d', IsDomain d' → d' ≠ d → SameOn d' deleted indexed

end Store

/-- The request switches clustering on for the domain. -/
def Request.setsClustering : Request V → Bool
  | .push p => decide (p.storeClustering = some true)
  | _ => false

section Clustering

variable (p : HttpPush V) (fp : Footprint V)

@[simp] theorem HttpPush.index_storeClustering :
    (p.index fp).2.storeClustering = fp.storeClustering := rfl

@[simp] theorem HttpPush.push_storeClustering :
    (p.push fp).2.storeClustering = fp.storeClustering := by
  unfold HttpPush.push
  split
  · rfl
  · split
    · rfl
    · split
      · simp
      · split
        · split <;> rfl
        · simp
        · simp

theorem HttpPush.applySettings_storeClustering :
    (p.applySettings fp).storeClustering =
      (fp.storeClustering || decide (p.storeClustering = some true)) := by
  unfold HttpPush.applySettings
  split
  · rename_i h
    simp [h]
  · rename_i h
    simp [h]

theorem Footprint.serve_storeClustering (r : Request V) :
    (fp.serve r).2.storeClustering = (fp.storeClustering || r.setsClustering) := by
  cases r with
  | push p =>
    simp only [Footprint.serve, HttpPush.handlePush, HttpPush.push_storeClustering,
      HttpPush.applySettings_storeClustering, Request.setsClustering]
  | compact epoch fails ftsVersions order =>
    simp only [Footprint.serve, Footprint.compact, Request.setsClustering, Bool.or_false]
    split <;> rfl
  | deleteBranchIndex env branch =>
    simp only [Footprint.serve, Footprint.ioDeleteBranchIndex, Request.setsClustering,
      Bool.or_false]
    split <;> rfl
  | _ => simp [Footprint.serve, Request.setsClustering, Footprint.ioDeleteDomain,
      Footprint.restart]

end Clustering

namespace Store

variable {st st' : Store V} {d : String}

@[simp] theorem put_self (fp : Footprint V) : (st.put d fp).footprint d = fp := if_pos rfl

theorem put_of_path_ne {d' : String} (h : encodeDomainPath d' ≠ encodeDomainPath d)
    (fp : Footprint V) : (st.put d fp).footprint d' = st.footprint d' := by
  have hne : d' ≠ d := by
    rintro rfl
    exact h rfl
  exact (if_neg hne).trans (if_neg h)

/-- Without a change of the dataset other domains keep what they have, wherever it is. -/
theorem put_of_dataset_eq {d' : String} (h : d' ≠ d) {fp : Footprint V}
    (hdataset : fp.domain.dataset = (st.footprint d).domain.dataset) :
    (st.put d fp).footprint d' = st.footprint d' := by
  refine (if_neg h).trans ?_
  split
  · rename_i hpath
    rw [hdataset, ← st.shared d' d hpath]
  · rfl

theorem run_storeClustering (rs : List (Request V)) :
    ((st.run d rs).2.footprint d).storeClustering =
      ((st.footprint d).storeClustering || rs.any Request.setsClustering) := by
  induction rs generalizing st with
  | nil => simp [run]
  | cons r rs ih =>
    simp only [run, ih, serve, put_self, Footprint.serve_storeClustering,
      List.any_cons, Bool.or_assoc]

/-- A run on a domain depends on nothing but what the store keeps about it. -/
theorem run_congr (h : st.footprint d = st'.footprint d) (rs : List (Request V)) :
    (st.run d rs).1 = (st'.run d rs).1 ∧
      (st.run d rs).2.footprint d = (st'.run d rs).2.footprint d := by
  induction rs generalizing st st' with
  | nil => exact ⟨rfl, h⟩
  | cons r rs ih =>
    have hserve : (st.serve d r).2.footprint d = (st'.serve d r).2.footprint d := by
      simp only [serve, put_self, h]
    have hrest := ih hserve
    have hfirst : (st.serve d r).1 = (st'.serve d r).1 := by simp only [serve, h]
    refine ⟨?_, hrest.2⟩
    simp only [run, hfirst, hrest.1]

theorem sameOn_of_eq (h : st.footprint d = st'.footprint d) : SameOn d st st' := by
  intro rs
  have hrun := run_congr h rs
  exact ⟨hrun.1, by rw [hrun.2]⟩

theorem run_statistics :
    (st.run d [.statistics]).1 = [.statistics (st.footprint d).statistics] := rfl

/-- The settings are all that a delete leaves. -/
theorem ioDeleteDomain_eq (fp : Footprint V) :
    fp.ioDeleteDomain = { (Footprint.fresh : Footprint V) with
      storeClustering := fp.storeClustering } := rfl

/-- After a delete the domain has its setting and nothing else. -/
theorem deleted_eq (hnew : st.footprint d = .fresh) (history : List (Request V)) :
    (((st.run d history).2.serve d .deleteDomain).2).footprint d =
      { (Footprint.fresh : Footprint V) with
        storeClustering := history.any Request.setsClustering } := by
  have hflag : ((st.run d history).2.footprint d).storeClustering =
      history.any Request.setsClustering := by
    rw [run_storeClustering, hnew]
    rfl
  rw [← hflag]
  simp only [serve, put_self, Footprint.serve]
  exact ioDeleteDomain_eq _

/-- Requests on the domain itself find a difference iff a push switched clustering on. -/
theorem sameOn_deleted_iff (hnew : st.footprint d = .fresh) (history : List (Request V)) :
    SameOn d ((st.run d history).2.serve d .deleteDomain).2 st ↔
      ∀ p, .push p ∈ history → p.storeClustering ≠ some true := by
  constructor
  · intro h p hp hset
    have hany : history.any Request.setsClustering = true :=
      List.any_eq_true.mpr ⟨_, hp, by simp [Request.setsClustering, hset]⟩
    have hstat := (h [.statistics]).1
    rw [run_statistics, run_statistics, deleted_eq hnew, hnew, hany] at hstat
    have hflag := congrArg Statistics.storeClustering
      (Response.statistics.inj (List.cons.inj hstat).1)
    cases hflag
  · intro h
    have hany : history.any Request.setsClustering = false := by
      refine List.any_eq_false.mpr fun r hr => ?_
      cases r <;> simp_all [Request.setsClustering]
    apply sameOn_of_eq
    rw [deleted_eq hnew, hnew, hany]
    rfl

/-- Requests on other domains find a difference iff one of them has lost its dataset. -/
theorem sameOn_others_iff (hd : IsDomain d) :
    (∀ d', IsDomain d' → d' ≠ d → SameOn d' (st.serve d .deleteDomain).2 st) ↔
      Separated d ∨ (st.footprint d).domain.dataset = none := by
  constructor
  · intro h
    by_contra hnot
    obtain ⟨hclose, hsome⟩ := not_or.mp hnot
    obtain ⟨d', hd', henc, hne⟩ := exists_collision_of_not_separated hd hclose
    have hdataset := (h d' hd' hne []).2
    have hgone : ((st.serve d .deleteDomain).2.footprint d').domain.dataset = none := by
      rw [(st.serve d .deleteDomain).2.shared d' d henc]
      simp only [serve, put_self]
      rfl
    simp only [run] at hdataset
    rw [hgone, st.shared d' d henc] at hdataset
    exact hsome hdataset.symm
  · intro h d' hd' hne
    apply sameOn_of_eq
    rcases h with hsep | hnone
    · exact put_of_path_ne (fun henc => hne (encodeDomainPath_apart hd hsep hd' henc)) _
    · apply put_of_dataset_eq hne
      rw [hnone]
      rfl

/-- A history is erased by a delete iff none of its pushes switched clustering on and no other
domain can have the dataset that it leaves. -/
theorem delete_erases_iff (hd : IsDomain d) (hnew : st.footprint d = .fresh)
    (history : List (Request V)) :
    st.Erases d history ↔ (∀ p, .push p ∈ history → p.storeClustering ≠ some true) ∧
      (Separated d ∨ ((st.run d history).2.footprint d).domain.dataset = none) :=
  and_congr (sameOn_deleted_iff hnew history) (sameOn_others_iff hd)

/-- A push of one document, or of none. Clustering vectors are `true` where they were asked
of the provider. -/
def samplePush (storeClustering : Option Bool) (operations : List Operation) : HttpPush Bool where
  branch := mainBranch
  parentCommit := none
  storeClustering := storeClustering
  request :=
    { env :=
        { chunkText := fun s => .ok [⟨0, 1, 0, 1, s⟩]
          provider := fun _ texts => .ok (texts.map fun _ => true)
          embedBatchSize := 1
          batchSize_pos := Nat.one_pos
          storeClustering := false
          zero := false
          l2Normalize := id
          cancelled := fun _ => false
          fails := fun _ => false
          indexVersions := fun _ => 1
          clusteringConfig := false }
      commit := "c"
      operations := operations
      mode := .streaming none }
  cascadeVersions := fun _ => 0
  fork := ⟨"admin/db", fun _ => false⟩
  dropped := false

theorem delete_erases_samplePush :
    (empty : Store Bool).Erases "admin/db" [.push (samplePush none [.inserted "a" "text"])] := by
  have hd : IsDomain "admin/db" := isDomain_iff.mpr ⟨"admin", "db", by decide, by decide, rfl⟩
  have hsep : Separated ("admin" ++ "/" ++ "db") := by
    apply separated_pair <;> decide
  refine (delete_erases_iff hd rfl _).mpr ⟨fun p hp => ?_, .inl hsep⟩
  obtain rfl := Request.push.inj (List.mem_singleton.mp hp)
  simp [samplePush]

/-- After a history with clustering, a push without it stores other vectors than on a store
that never had the domain. -/
theorem delete_not_erases :
    ¬ (empty : Store Bool).Erases "admin/db" [.push (samplePush (some true) [])] := by
  intro h
  have hrows := congrArg (fun ds => ds.map fun ds => ds.main.headRows.map (·.clusteringEmbedding))
    (h.1 [.push (samplePush none [.inserted "a" "text"])]).2
  revert hrows
  decide

end Store

end Vectorlink
