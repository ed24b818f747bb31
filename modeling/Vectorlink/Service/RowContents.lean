import Vectorlink.IngestVectors
import Vectorlink.Service.Erasure
import Vectorlink.Service.Fork
import Vectorlink.Service.OfflineLoad
import Vectorlink.Service.PushWalk
import Vectorlink.Stepwise.Fallible
import Vectorlink.Store.RetagSweep
import Vectorlink.Versioned.Contents

/-! What every row of a domain has in common. The requests on a domain and the offline loader
keep it if the rows that they collect have it. -/
namespace Vectorlink

open Stepwise Stepwise.Program Versioned

variable {V α : Type} {Q : ChunkRow V → Prop}

/-- Every row of every version of every branch meets `Q`. -/
def Domain.Within (Q : ChunkRow V → Prop) (d : Domain V) : Prop :=
  ∀ ds, d.dataset = some ds → ds.Within Q

/-- The second domain has no rows of another kind than the first one. -/
def KeepsWithin (Q : ChunkRow V → Prop) (d d' : Domain V) : Prop := d.Within Q → d'.Within Q

section Domain

variable {d d' : Domain V}

theorem within_fresh : (Domain.fresh : Domain V).Within Q := by
  intro ds hds
  cases hds

theorem keepsWithin_of_dataset (h : d'.dataset = d.dataset) : KeepsWithin Q d d' := by
  intro hd ds hds
  exact hd ds (h ▸ hds)

theorem keepsWithin_openDataset (d : Domain V) : KeepsWithin Q d d.openDataset := by
  intro hd ds hds
  unfold Domain.openDataset at hds
  split at hds
  · exact hd ds hds
  · obtain rfl := Option.some.inj hds
    unfold Domain.opened
    cases hdataset : d.dataset with
    | none => exact Dataset.within_create
    | some ds => exact hd ds hdataset

theorem dataset_openReadonly (d : Domain V) : d.openReadonly.dataset = d.dataset := by
  unfold Domain.openReadonly
  split <;> rfl

theorem dataset_refresh (d : Domain V) : d.refresh.dataset = d.dataset := by
  unfold Domain.refresh
  split <;> rfl

/-- What the rows have in common they have after every step of a run. -/
theorem within_of_walks {ℓ ε α : Type} {m : Program ℓ (Domain V) ε α}
    (h : Walks (KeepsWithin Q) m) (hd : d.Within Q) :
    (∀ e ∈ (m d).trace, e.2.Within Q) ∧ (m d).store.Within Q :=
  (h d).invariant (fun _ _ hR => hR) hd

end Domain

section StoreCalls

variable (env : StoreEnv) {op : StoreOp} {context : String} {branch : BranchName}

theorem ioOpenDataset_within : Walks (KeepsWithin Q) (env.ioOpenDataset op) := by
  refine Walks.step fun s t hst => ?_
  split at hst
  · cases hst
  · obtain rfl := Except.ok.inj hst
    exact keepsWithin_openDataset s

theorem ioRefreshCachedDataset_within : Walks (KeepsWithin Q) (env.ioRefreshCachedDataset op) := by
  refine Walks.step fun s t hst => ?_
  split at hst
  · cases hst
  · obtain rfl := Except.ok.inj hst
    exact keepsWithin_of_dataset (dataset_refresh s)

theorem cacheLastIndexed_within (commit : CommitId) (version : ℕ) :
    Walks (KeepsWithin Q) (StoreEnv.cacheLastIndexed branch commit version) := by
  refine Walks.step fun s t hst => ?_
  obtain rfl := Except.ok.inj hst
  exact keepsWithin_of_dataset rfl

/-- A change of the dataset, if it keeps what its rows have in common. -/
theorem onDataset_within
    {f : LanceDataset (ChunkRow V) → Except RefError (LanceDataset (ChunkRow V))}
    (hf : ∀ ds ds', ds.Within Q → f ds = .ok ds' → ds'.Within Q) :
    Walks (KeepsWithin Q) (env.onDataset op context f) := by
  refine env.onDataset_walks fun s ds ds' hds hok hs ds'' hds'' => ?_
  obtain rfl := Option.some.inj hds''
  exact hf ds ds' (hs ds hds) hok

theorem touchOn_within : Walks (KeepsWithin Q) (env.touchOn op context branch) :=
  onDataset_within env fun _ _ h hok => h.touch hok

theorem ioDeleteOn_within (ids : List DocId) :
    Walks (KeepsWithin Q) (env.ioDeleteOn branch context ids) :=
  onDataset_within env fun _ _ h hok =>
    h.commit (fun _ hr x hx => hr x (List.mem_of_mem_filter hx)) hok

theorem ioAppendOn_within {rows : List (ChunkRow V)} (hrows : ∀ row ∈ rows, Q row) :
    Walks (KeepsWithin Q) (env.ioAppendOn branch context rows) := by
  refine onDataset_within env fun _ _ h hok => h.commit (fun r hr x hx => ?_) hok
  rcases List.mem_append.mp hx with hx | hx
  · exact hr x hx
  · exact hrows x hx

theorem ioCleanupAggressive_within : Walks (KeepsWithin Q) env.ioCleanupAggressive := by
  refine onDataset_within env fun _ _ h hok => ?_
  obtain rfl := Except.ok.inj hok
  exact h.cleanup

theorem ioTagCommit_within (commit : CommitId) (version : ℕ) :
    Walks (KeepsWithin Q) (env.ioTagCommit branch commit version) :=
  Walks.bind (Walks.ite (ioOpenDataset_within env) (Walks.look _)) fun _ =>
    Walks.bind (onDataset_within env fun _ _ h hok => h.createTag hok) fun _ =>
    Walks.bind (ioRefreshCachedDataset_within env) fun _ => cacheLastIndexed_within commit version

theorem ioResolveCommit_within (commit : CommitId) :
    Walks (KeepsWithin Q) (env.ioResolveCommit op commit) := by
  refine Walks.bind (Walks.step fun s t hst => ?_) fun _ => Walks.look _
  split at hst
  · cases hst
  · obtain rfl := Except.ok.inj hst
    exact keepsWithin_of_dataset (dataset_openReadonly s)

theorem ioBranchHeadVersion_within :
    Walks (KeepsWithin Q) (env.ioBranchHeadVersion op branch) :=
  Walks.ite (Walks.bind (ioOpenDataset_within env) fun _ => Walks.look _)
    (Walks.bind (Walks.look _) fun _ => Walks.look _)

theorem ioBatchDeleteAppend_within (ids : List DocId) {rows : List (ChunkRow V)}
    (hrows : ∀ row ∈ rows, Q row) :
    Walks (KeepsWithin Q) (env.ioBatchDeleteAppend branch ids rows) :=
  Walks.bind (ioOpenDataset_within env) fun _ => Walks.bind (Walks.look _) fun _ =>
    Walks.bind (unlessEmpty_walks _ (ioDeleteOn_within env _)) fun _ =>
    Walks.bind (unlessEmpty_walks _ (ioAppendOn_within env hrows)) fun _ =>
    Walks.bind (Walks.look _) fun _ =>
    Walks.bind (ioRefreshCachedDataset_within env) fun _ => Walks.pure _

theorem ioAssignCommit_within (source target : CommitId) :
    Walks (KeepsWithin Q) (env.ioAssignCommit branch source target) := by
  refine Walks.bind (ioResolveCommit_within env source) fun found => ?_
  cases found with
  | none => exact Walks.fail _
  | some v => exact Walks.bind (ioTagCommit_within env target v) fun _ => Walks.pure _

theorem ioDeleteBranchIndex_within : Walks (KeepsWithin Q) (env.ioDeleteBranchIndex branch) := by
  refine Walks.bind (Walks.step fun s t hst => ?_) fun _ => Walks.bind (Walks.look _) fun commits =>
    Walks.bind (Walks.forEach (fun commit => onDataset_within env fun _ _ h hok =>
      h.deleteTag hok) _) fun _ => Walks.step fun s t hst => ?_
  · split at hst
    · cases hst
    · obtain rfl := Except.ok.inj hst
      exact keepsWithin_of_dataset (dataset_openReadonly s)
  · obtain rfl := Except.ok.inj hst
    exact keepsWithin_of_dataset rfl

end StoreCalls

section Push

variable (env : PushEnv V) {branch : BranchName} {commit : CommitId}

theorem createIndices_within : Walks (KeepsWithin Q) (env.createIndices branch) := by
  refine Walks.bind (Walks.bind (withContext_walks _ (touchOn_within _)) fun _ =>
    Walks.bind (withContext_walks _ (touchOn_within _)) fun _ =>
    Walks.ite (withContext_walks _ (touchOn_within _)) (Walks.pure ())) fun _ => ?_
  exact Walks.bind (withContext_walks _ (Walks.look _)) fun _ =>
    Walks.bind (touchOn_within _).attempt fun _ =>
    Walks.bind (withContext_walks _ (ioRefreshCachedDataset_within _)) fun _ => Walks.pure _

theorem ensureFts_within : Walks (KeepsWithin Q) (env.ensureFts branch) :=
  Walks.bind (withContext_walks _ (touchOn_within _)) fun _ => withContext_walks _ (Walks.look _)

theorem indexBuffered_within : Walks (KeepsWithin Q) (env.indexBuffered branch) := by
  refine Walks.bind (Walks.look _) fun position => Walks.ite ?_ ?_
  · refine Walks.bind (Walks.look _).attempt fun opened => ?_
    split
    · exact Walks.bind (createIndices_within env) fun _ => Walks.pure _
    · exact Walks.pure _
  · exact Walks.bind (withContext_walks _ (Walks.look _)) fun existing =>
      Walks.ite (Walks.bind (ensureFts_within env) fun _ => Walks.pure _) (Walks.pure _)

theorem indexStream_within (position : ℕ) : Walks (KeepsWithin Q) (env.indexStream position branch) :=
  Walks.ite (createIndices_within env) (Walks.bind (ensureFts_within env) fun _ =>
    Walks.bind (withContext_walks _ (ioRefreshCachedDataset_within _)) fun _ => Walks.pure _)

theorem tagWork_within (version : ℕ) : Walks (KeepsWithin Q) (env.tagWork branch commit version) :=
  Walks.bind (withContext_walks _ (ioTagCommit_within _ _ _)) fun _ =>
    Walks.bind (withContext_walks _ (cacheLastIndexed_within _ _)) fun _ =>
    Walks.bind (ioCleanupAggressive_within _).attempt fun _ => Walks.pure _

theorem tagNoop_within : Walks (KeepsWithin Q) (env.tagNoop branch commit) :=
  Walks.bind (withContext_walks _ (ioOpenDataset_within _)) fun _ =>
    Walks.bind (withContext_walks _ (ioBranchHeadVersion_within _)) fun _ =>
    Walks.bind (withContext_walks _ (ioTagCommit_within _ _ _)) fun _ =>
    withContext_walks _ (cacheLastIndexed_within _ _)

variable {ops : List Operation}

theorem ioRunIndexPipeline_within
    (h : ∀ c, env.collectBuffered ops = .ok c → ∀ row ∈ c.rows, Q row) :
    Walks (KeepsWithin Q) (env.ioRunIndexPipeline branch commit ops) := by
  unfold PushEnv.ioRunIndexPipeline
  split
  · exact Walks.fail _
  · rename_i c hc
    refine Walks.bind (Walks.ite (tagNoop_within env) ?_) fun _ => Walks.pure _
    exact Walks.bind (withContext_walks _ (ioBatchDeleteAppend_within _ _ (h c hc))) fun _ =>
      Walks.bind (indexBuffered_within env) fun _ => tagWork_within env _

theorem ioRunIndexPipelineStream_within {expectedDocs : Option ℕ}
    (h : ∀ c, env.collectStream expectedDocs ops = .ok c → ∀ row ∈ c.rows, Q row) :
    Walks (KeepsWithin Q) (env.ioRunIndexPipelineStream branch commit expectedDocs ops) := by
  refine Walks.bind (withContext_walks _ (ioOpenDataset_within _)) fun _ =>
    Walks.bind (withContext_walks _ (Walks.look _)) fun _ => Walks.bind (Walks.look _) fun position => ?_
  split
  · exact Walks.fail _
  · rename_i c hc
    refine Walks.bind ?_ fun _ => Walks.pure _
    refine Walks.bind (unlessEmpty_walks _ (withContext_walks _ (ioDeleteOn_within _ _))) fun _ =>
      Walks.bind (unlessEmpty_walks _ (withContext_walks _ (ioAppendOn_within _ (h c hc)))) fun _ =>
      Walks.bind (withContext_walks _ (ioRefreshCachedDataset_within _)) fun _ => ?_
    exact Walks.ite (tagNoop_within env)
      (Walks.bind (indexStream_within env _) fun _ => tagWork_within env _)

/-- A push writes no other rows than those that it collects. -/
theorem push_within (r : PushRequest V) (branch : BranchName)
    (h : ∀ c, r.collect = .ok c → ∀ row ∈ c.rows, Q row) :
    Walks (KeepsWithin Q) (r.push branch) := by
  refine Walks.bind (Walks.mapError _ (ioResolveCommit_within _ _)) fun found => ?_
  cases found with
  | some v => exact Walks.fail _
  | none =>
    have hpipeline : Walks (KeepsWithin Q) (r.pipeline branch) := by
      unfold PushRequest.collect at h
      unfold PushRequest.pipeline
      split
      · rename_i hmode
        rw [hmode] at h
        exact ioRunIndexPipeline_within _ h
      · rename_i hmode
        rw [hmode] at h
        exact ioRunIndexPipelineStream_within _ h
    refine Walks.bind hpipeline.attempt fun out => ?_
    split <;> exact Walks.pure _

end Push

section Load

variable (env : PushEnv V) {branch : BranchName} {P : VectorRelation V}

theorem ioUpsertChunks_within (docId : DocId) {rows : List (ChunkRow V)}
    (hrows : ∀ row ∈ rows, Q row) :
    Walks (KeepsWithin Q) (env.ioUpsertChunks branch docId rows) :=
  Walks.ite (Walks.pure 0) (Walks.bind (ioOpenDataset_within _) fun _ =>
    Walks.bind (Walks.look _) fun _ => Walks.bind (ioDeleteOn_within _ _) fun _ =>
    Walks.bind (ioAppendOn_within _ hrows) fun _ =>
    Walks.bind (ioRefreshCachedDataset_within _) fun _ => Walks.look _)

theorem ioDeleteDoc_within (docId : DocId) : Walks (KeepsWithin Q) (env.ioDeleteDoc branch docId) := by
  refine Walks.bind (Walks.bind (Walks.step fun s t hst => ?_) fun _ => Walks.look _) fun present => ?_
  · split at hst
    · cases hst
    · obtain rfl := Except.ok.inj hst
      exact keepsWithin_of_dataset (dataset_openReadonly s)
  · exact Walks.ite (Walks.bind (Walks.look _) fun _ => Walks.bind (ioDeleteOn_within _ _) fun _ =>
      Walks.bind (ioRefreshCachedDataset_within _) fun _ => Walks.look _) (Walks.pure 0)

theorem ioEnsureFtsIndex_within : Walks (KeepsWithin Q) (env.ioEnsureFtsIndex branch) := by
  refine Walks.bind (ioOpenDataset_within _) fun _ => Walks.bind (touchOn_within _) fun _ =>
    Walks.bind (Walks.step fun s t hst => ?_) fun _ => Walks.look _
  obtain rfl := Except.ok.inj hst
  split
  · exact keepsWithin_of_dataset rfl
  · exact keepsWithin_of_dataset (dataset_refresh s)

/-- What the rows of the loader have in common: it embeds every chunk in both roles. -/
def LoadsWithin (env : PushEnv V) (P : VectorRelation V) (Q : ChunkRow V → Prop) : Prop :=
  ∀ row, RowFrom env.l2Normalize (P .document) (P .clustering) row → Q row

variable (h : AnswersWithin env.provider P) (hQ : LoadsWithin env P Q)

include h hQ

theorem ioIndexOne_within (line : ℕ) (docId : DocId) (text : String) :
    Walks (KeepsWithin Q) (env.ioIndexOne branch line docId text) := by
  unfold PushEnv.ioIndexOne
  cases env.chunkText text with
  | error e => exact Walks.fail _
  | ok chunks =>
    refine Walks.ite (Walks.fail _) ?_
    dsimp only
    cases hd : ioEmbed env.provider ⟨.document, line, 0, none⟩ (chunks.map (·.text)) with
    | error e => exact Walks.fail _
    | ok vs =>
      cases hq : ioEmbed env.provider ⟨.clustering, line, 0, none⟩ (chunks.map (·.text)) with
      | error e => exact Walks.fail _
      | ok qs =>
        have hrows : ∀ row ∈ chunkRows docId chunks (vs.map env.l2Normalize)
            (qs.map env.l2Normalize), RowFrom env.l2Normalize (P .document) (P .clustering) row :=
          chunkRows_from (h _ _ _ hd) (h _ _ _ hq)
        exact Walks.ite (Walks.fail _) (Walks.ite (Walks.fail _) (withContext_walks _
          (ioUpsertChunks_within env docId fun row hrow => hQ row (hrows row hrow))))

theorem loadOps_within (line : ℕ) (st : LoadState) (ops : List Operation) :
    Walks (KeepsWithin Q) (env.loadOps branch line st ops) := by
  induction ops generalizing line st with
  | nil => exact Walks.pure _
  | cons op ops ih =>
    cases op with
    | inserted id string =>
      exact Walks.bind (ioIndexOne_within env h hQ line id string).attempt fun _ => ih _ _
    | changed id string =>
      exact Walks.bind (ioIndexOne_within env h hQ line id string).attempt fun _ => ih _ _
    | deleted id => exact Walks.bind (ioDeleteDoc_within env id).attempt fun _ => ih _ _
    | error message => exact ih _ _
    | abort => exact Walks.pure _

/-- The loader writes no other rows than those of the chunks that it embeds. -/
theorem load_within (commit : CommitId) (ops : List Operation) :
    Walks (KeepsWithin Q) (env.load branch commit ops) := by
  refine Walks.bind (loadOps_within env h hQ 1 .start ops) fun st =>
    Walks.bind (Walks.ite ?_ (Walks.pure _)) fun _ => Walks.pure _
  exact Walks.bind (ioEnsureFtsIndex_within env).attempt fun _ =>
    Walks.bind (withContext_walks _ (ioTagCommit_within _ _ _)) fun _ =>
    Walks.bind (withContext_walks _ (cacheLastIndexed_within _ _)) fun _ => Walks.pure _

end Load

section Retag

variable (env : RetagEnv (ChunkRow V))

/-- A write that makes rows out of rows. -/
def BranchWrite.Keeps (Q : ChunkRow V → Prop) (write : BranchWrite (ChunkRow V)) : Prop :=
  ∀ r, (∀ x ∈ r, Q x) → ∀ x ∈ write.apply r, Q x

/-- A replay takes its rows from the second of the two snapshots. -/
theorem replayDelta_keeps {a b : List (ChunkRow V)} (hb : ∀ x ∈ b, Q x) :
    ∀ write ∈ replayDelta a b, write.Keeps Q := by
  have happend : ∀ x ∈ (computeDelta a b).rowsToAppend, Q x := by
    intro x hx
    unfold computeDelta computeDeltaFromScans at hx
    dsimp only at hx
    split at hx
    · cases hx
    · have hmem := (List.perm_insertionSort _ _).mem_iff.mp hx
      exact hb x (List.mem_of_mem_filter hmem)
  intro write hwrite r hr x hx
  unfold replayDelta applyDeltaWrites at hwrite
  rcases List.mem_append.mp hwrite with hwrite | hwrite
  · split at hwrite
    · cases hwrite
    · obtain rfl := List.mem_singleton.mp hwrite
      exact hr x (List.mem_of_mem_filter hx)
  · split at hwrite
    · cases hwrite
    · obtain rfl := List.mem_singleton.mp hwrite
      rcases List.mem_append.mp hx with hx | hx
      · exact hr x hx
      · exact happend x hx

/-- The replay of an environment takes its rows from the second of the two snapshots. -/
def RetagEnv.Replays (env : RetagEnv (ChunkRow V)) (Q : ChunkRow V → Prop) : Prop :=
  ∀ a b, (∀ x ∈ b, Q x) → ∀ write ∈ env.replay a b, write.Keeps Q

variable {env} (h : env.Replays Q)

theorem applyDelta_within (commit : CommitId) (phase : ℕ) {ws : List (BranchWrite (ChunkRow V))}
    (hws : ∀ write ∈ ws, write.Keeps Q) :
    Preserves (Dataset.Within Q) (env.applyDelta commit phase ws) := by
  induction ws generalizing phase with
  | nil => exact Preserves.pure ()
  | cons w ws ih =>
    have hw : w.Keeps Q := hws w List.mem_cons_self
    exact Preserves.bind (env.preserves_writes fun _ _ hs hf => hs.commit hw hf) fun _ =>
      ih _ fun write hwrite => hws write (List.mem_cons_of_mem _ hwrite)

include h

theorem computeDelta_within (a b : CommitId) :
    Spec (Dataset.Within Q) (env.ioComputeDeltaBetweenCommits a b)
      (fun ws s => s.Within Q ∧ ∀ write ∈ ws, write.Keeps Q) (fun _ => Dataset.Within Q)
      (fun _ => Dataset.Within Q) := by
  refine Spec.look fun s hs => ?_
  split
  · rename_i ws hws
    split at hws
    · cases hws
    · obtain ⟨ra, -, hrest⟩ := exceptBind_eq_ok.mp hws
      obtain ⟨rb, hrb, hrest⟩ := exceptBind_eq_ok.mp hrest
      obtain rfl := Except.ok.inj hrest
      obtain ⟨t, -, hrows⟩ := Option.bind_eq_some_iff.mp (ioCheckoutCommitSnapshot_ok.mp hrb)
      exact ⟨hs, h ra rb (hs.rowsAt hrows)⟩
  · exact hs

theorem phase1_within (bs : List ℕ) (prev : CommitId) (i : ℕ) (rest : List (CommitId × ℕ)) :
    Preserves (Dataset.Within Q) (env.phase1 bs prev i rest) := by
  induction rest generalizing prev i with
  | nil => exact Preserves.pure _
  | cons e rest ih =>
    refine Spec.bind (computeDelta_within h prev e.1) fun ws => Spec.of_and fun hws => ?_
    refine Preserves.bind (applyDelta_within e.1 0 hws) fun _ => Preserves.bind (Preserves.look _)
      fun v => Spec.ite (fun _ => ?_) fun _ => ?_
    · exact Preserves.bind (ih _ _) fun _ => Preserves.pure _
    · exact Preserves.bind (env.preserves_writes fun _ _ hs hf => hs.touch hf) fun _ =>
        Preserves.bind (Preserves.look _) fun _ => Preserves.bind (ih _ _) fun _ => Preserves.pure _

omit h in
theorem moveTag_within (context : String) (e : CommitId × ℕ) :
    Preserves (Dataset.Within Q) (env.moveTag context e) :=
  Preserves.bind env.preserves_opens fun _ =>
    Preserves.bind (Preserves.attempt (env.preserves_writes fun _ _ hs hf => hs.deleteTag hf)) fun _ =>
      env.preserves_writes fun _ _ hs hf => hs.createTag hf

theorem retagSorted_within (first : CommitId × ℕ) (rest : List (CommitId × ℕ)) :
    Preserves (Dataset.Within Q) (env.retagSorted first rest) := by
  refine Preserves.bind (env.preserves_writes fun _ _ hs hf => hs.createBranch hf) fun _ =>
    Preserves.bind env.preserves_opens fun _ =>
    Preserves.bind (Preserves.attempt (phase1_within h _ _ _ _)) fun res => ?_
  cases res with
  | error e =>
    refine Preserves.bind (Preserves.bind env.preserves_opens fun _ => Preserves.bind
      (Preserves.attempt (env.preserves_writes fun _ _ hs hf => hs.deleteBranch hf)) fun _ =>
        Preserves.pure ()) fun _ => ?_
    exact Spec.fail fun _ hs => hs
  | ok pb =>
    have hmoves : Preserves (Dataset.Within Q) (env.moveTags pb.1 pb.2) := by
      refine Preserves.bind (Preserves.forEach (fun e => moveTag_within _ e) _) fun _ =>
        Preserves.bind (Preserves.forEach (fun e => ?_) _) fun _ => Preserves.pure ()
      exact Preserves.bind (Preserves.look _) fun _ =>
        Spec.ite (fun _ => moveTag_within _ e) fun _ => Preserves.pure ()
    have hsweep : Preserves (Dataset.Within Q) env.sweep :=
      env.preserves_sweep_of_drops (fun _ c hs => hs.dropTag c) (fun _ b hs => hs.dropBranch b)
        fun _ hs => hs.cleanup
    exact Preserves.bind (Preserves.bind hmoves fun _ => hsweep) fun _ => Preserves.pure _

/-- A compaction makes no rows of its own. -/
theorem retag_within : Preserves (Dataset.Within Q) env.retag := by
  refine Preserves.bind (Preserves.look _) fun commits => Spec.ite (fun _ => Preserves.pure _)
    fun _ => ?_
  cases sortByVersion (env.order.run commits) with
  | nil => exact Preserves.pure _
  | cons first rest => exact retagSorted_within h first rest

omit h in
/-- The cleanup of a start only takes away. -/
theorem cleanup_within (env : RetagEnv (ChunkRow V)) {ds : LanceDataset (ChunkRow V)}
    (hds : ds.Within Q) : (env.ioCleanupCompactionBranches ds).Within Q :=
  env.ioCleanupCompactionBranches_of_drops (fun _ c hs => hs.dropTag c)
    (fun _ b hs => hs.dropBranch b) (fun _ hs => hs.cleanup) hds

end Retag

section Requests

/-- A request on a domain writes no other rows than those that it collects, which are those of a
push under the settings of the domain. -/
def Request.CollectsWithin (Q : ChunkRow V → Prop) (fp : Footprint V) : Request V → Prop
  | .push p => ∀ c, (p.requestAt (p.applySettings fp)).collect = .ok c → ∀ row ∈ c.rows, Q row
  | _ => True

variable {fp : Footprint V}

/-- A fork whose reads all fall on one domain. -/
theorem ioEnsureBranchForked_runOn (env : ForkEnv) (b : BranchName) (parent : CommitId)
    (d : Domain V) : (env.ioEnsureBranchForked b parent).runOn [d, d, d, d, d] =
      some ((env.ioEnsureBranchForked b parent).runAt d) := by
  have hmain (e : StoreError) : (env.forkFromMain b e).runOn [d, d, d] =
      some ((env.forkFromMain b e).runAt d) := by
    simp only [ForkEnv.forkFromMain, Observer.runOn, Observer.runAt]
    split
    · rfl
    · simp only [Observer.runOn, Observer.runAt]
      split <;> rfl
  unfold ForkEnv.ioEnsureBranchForked
  split
  · rfl
  · simp only [Observer.runOn, Observer.runAt]
    split
    · rfl
    · split
      · rfl
      · simp only [Observer.runOn, Observer.runAt]
        split
        · rfl
        · split
          · rfl
          · split
            · exact hmain _
            · rfl

theorem forked_within {env : ForkEnv} {b : BranchName} {parent : CommitId} {v : ℕ}
    {d after : Domain V} (hd : d.Within Q)
    (hfork : (env.ioEnsureBranchForked b parent).runAt d = .ok (.created v after)) :
    after.Within Q := by
  have hcreated : ForkedAt b parent d d d after :=
    forkedAt_of_created ((ioEnsureBranchForked_runOn env b parent d).trans (congrArg some hfork))
  cases hcreated with
  | tag hds _ hok hafter =>
    subst hafter
    intro ds hds'
    obtain rfl := Option.some.inj hds'
    exact (hd _ hds).createBranch hok
  | main _ hds hok _ hafter =>
    subst hafter
    intro ds hds'
    obtain rfl := Option.some.inj hds'
    exact (hd _ hds).createBranch hok

theorem index_within (p : HttpPush V) (hfp : fp.domain.Within Q)
    (h : ∀ c, (p.requestAt fp).collect = .ok c → ∀ row ∈ c.rows, Q row) :
    (p.index fp).2.domain.Within Q := by
  exact (within_of_walks (push_within (p.requestAt fp) p.branch h) hfp).2

theorem handlePush_within (p : HttpPush V) (hfp : fp.domain.Within Q)
    (h : (Request.push p).CollectsWithin Q fp) : (p.handlePush fp).2.domain.Within Q := by
  have hfp' : (p.applySettings fp).domain.Within Q := by
    unfold HttpPush.applySettings
    split <;> exact hfp
  unfold HttpPush.handlePush HttpPush.push
  split
  · exact hfp'
  · split
    · exact hfp'
    · split
      · exact index_within p hfp' h
      · split
        · split <;> exact hfp'
        · exact index_within p hfp' h
        · rename_i v after hfork
          exact index_within p (forked_within hfp' hfork) h

/-- What the rows of a domain have in common they have after a request as well. -/
theorem serve_within (r : Request V) (hfp : fp.domain.Within Q) (h : r.CollectsWithin Q fp) :
    (fp.serve r).2.domain.Within Q := by
  cases r with
  | push p => exact handlePush_within p hfp h
  | assign env branch source target =>
    have hwalks : Walks (KeepsWithin Q) (env.ioAssignCommit branch source target) :=
      ioAssignCommit_within env source target
    exact (within_of_walks hwalks hfp).2
  | compact epoch fails ftsVersions order =>
    simp only [Footprint.serve, Footprint.compact]
    cases hds : fp.domain.dataset with
    | none => exact hfp
    | some ds =>
      have hretag : Preserves (Dataset.Within Q)
          (ioRetagWithDeltaForks (V := V) epoch fails ftsVersions order) :=
        retag_within fun a b hb => replayDelta_keeps hb
      have hstore : Domain.Within Q { fp.domain with
          dataset := some (ioRetagWithDeltaForks epoch fails ftsVersions order ds).store } := by
        intro ds' hds'
        obtain rfl := Option.some.inj hds'
        exact hretag.final (hfp ds hds)
      exact keepsWithin_of_dataset (dataset_refresh _) hstore
  | deleteBranchIndex env branch =>
    have hwalks : Walks (KeepsWithin Q) (env.ioDeleteBranchIndex branch) :=
      ioDeleteBranchIndex_within env
    have hstore := (within_of_walks hwalks hfp).2
    simp only [Footprint.serve, Footprint.ioDeleteBranchIndex]
    split <;> exact hstore
  | search branch commit ancestors => exact keepsWithin_of_dataset (dataset_openReadonly _) hfp
  | lastIndexed branch =>
    refine keepsWithin_of_dataset ?_ hfp
    simp only [Footprint.serve, Vectorlink.lastIndexed]
    split
    · rfl
    · split
      · exact dataset_openReadonly _
      · exact dataset_openReadonly _
  | statistics => exact keepsWithin_of_dataset (dataset_openReadonly _) hfp
  | deleteDomain => exact within_fresh (Q := Q)
  | restart cleanup =>
    intro ds hds
    obtain ⟨ds₀, hds₀, rfl⟩ := Option.map_eq_some_iff.mp hds
    exact cleanup_within cleanup (hfp ds₀ hds₀)

end Requests

end Vectorlink
