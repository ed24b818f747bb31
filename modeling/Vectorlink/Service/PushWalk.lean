import Vectorlink.Service.PipelineRun

/-! A push as a walk: each of its steps is one of a few changes of the domain, and an
invariant has to be checked against these only. -/
namespace Vectorlink

open Stepwise Stepwise.Program Versioned

variable {V α : Type}

/-- One step of a push to branch `b`. -/
inductive PushStep (b : BranchName) : Domain V → Domain V → Prop
  | openDataset (d : Domain V) : PushStep b d d.openDataset
  | openReadonly (d : Domain V) : PushStep b d d.openReadonly
  | refresh (d : Domain V) : PushStep b d d.refresh
  | cacheLastIndexed (d : Domain V) (commit : CommitId) (version : ℕ) :
      PushStep b d (d.cacheLastIndexed b commit version)
  | commit {d : Domain V} {ds ds' : LanceDataset (ChunkRow V)}
      {f : List (ChunkRow V) → List (ChunkRow V)} : d.dataset = some ds →
      ds.commit (wantBranch b) f = .ok ds' → PushStep b d { d with dataset := some ds' }
  | touch {d : Domain V} {ds ds' : LanceDataset (ChunkRow V)} {n : ℕ} : d.dataset = some ds →
      ds.touch (wantBranch b) n = .ok ds' → PushStep b d { d with dataset := some ds' }
  | createTag {d : Domain V} {ds ds' : LanceDataset (ChunkRow V)} {commit : CommitId} {v : ℕ} :
      d.dataset = some ds → ds.createTag commit (wantBranch b) v = .ok ds' →
      PushStep b d { d with dataset := some ds' }
  | cleanup {d : Domain V} {ds : LanceDataset (ChunkRow V)} : d.dataset = some ds →
      PushStep b d { d with dataset := some ds.cleanup }

theorem withContext_walks {R : Domain V → Domain V → Prop} {m : StoreM V α} (message : String)
    (h : Walks R m) : Walks R (withContext message m) := h.mapError _

theorem unlessEmpty_walks {β ε : Type} {R : Domain V → Domain V → Prop} (xs : List β)
    {m : Program StoreOp (Domain V) ε Unit} (h : Walks R m) :
    Walks R (unlessEmpty xs m) := Walks.ite (Walks.pure ()) h

namespace StoreEnv

variable (env : StoreEnv) {op : StoreOp} {context : String} {branch : BranchName}

theorem ioOpenDataset_walks : Walks (PushStep (V := V) branch) (env.ioOpenDataset op) := by
  refine Walks.step fun s s' hok => ?_
  split at hok
  · cases hok
  · cases hok
    exact .openDataset s

theorem ioRefreshCachedDataset_walks :
    Walks (PushStep (V := V) branch) (env.ioRefreshCachedDataset op) := by
  refine Walks.step fun s s' hok => ?_
  split at hok
  · cases hok
  · cases hok
    exact .refresh s

theorem onDataset_walks {R : Domain V → Domain V → Prop}
    {f : LanceDataset (ChunkRow V) → Except RefError (LanceDataset (ChunkRow V))}
    (hf : ∀ s ds ds', s.dataset = some ds → f ds = .ok ds' → R s { s with dataset := some ds' }) :
    Walks R (env.onDataset op context f) := by
  refine Walks.step fun s s' hok => ?_
  split at hok
  · cases hok
  · split at hok
    · cases hok
    · rename_i ds hds
      split at hok
      · cases hok
      · rename_i ds' hds'
        cases hok
        exact hf s ds ds' hds hds'

theorem checkoutBranch_walks {R : Domain V → Domain V → Prop} :
    Walks R (env.checkoutBranch op context branch) := Walks.look _

theorem handleVersion_walks {R : Domain V → Domain V → Prop} :
    Walks R (StoreEnv.handleVersion branch : StoreM V ℕ) := Walks.look _

theorem cacheLastIndexed_walks (commit : CommitId) (version : ℕ) :
    Walks (PushStep (V := V) branch) (StoreEnv.cacheLastIndexed branch commit version) := by
  refine Walks.step fun s s' hok => ?_
  cases hok
  exact .cacheLastIndexed s commit version

theorem touchOn_walks : Walks (PushStep (V := V) branch) (env.touchOn op context branch) :=
  env.onDataset_walks fun _ _ _ hds hok => .touch hds hok

theorem ioTagCommit_walks (commit : CommitId) (version : ℕ) :
    Walks (PushStep (V := V) branch) (env.ioTagCommit branch commit version) := by
  refine Walks.bind (Walks.ite env.ioOpenDataset_walks env.checkoutBranch_walks) fun _ => ?_
  refine Walks.bind (env.onDataset_walks fun _ _ _ hds hok => .createTag hds hok) fun _ => ?_
  exact Walks.bind env.ioRefreshCachedDataset_walks fun _ => cacheLastIndexed_walks commit version

theorem ioResolveCommit_walks (commit : CommitId) :
    Walks (PushStep (V := V) branch) (env.ioResolveCommit op commit) := by
  refine Walks.bind (Walks.step fun s s' hok => ?_) fun _ => Walks.look _
  split at hok
  · cases hok
  · cases hok
    exact .openReadonly s

theorem ioAssignCommit_walks (source target : CommitId) :
    Walks (PushStep (V := V) branch) (env.ioAssignCommit branch source target) := by
  refine Walks.bind (env.ioResolveCommit_walks source) fun found => ?_
  cases found with
  | none => exact Walks.fail _
  | some v => exact Walks.bind (env.ioTagCommit_walks target v) fun _ => Walks.pure v

theorem ioBranchHeadVersion_walks :
    Walks (PushStep (V := V) branch) (env.ioBranchHeadVersion op branch) :=
  Walks.ite (Walks.bind env.ioOpenDataset_walks fun _ => Walks.look _)
    (Walks.bind env.checkoutBranch_walks fun _ => handleVersion_walks)

theorem ioDeleteOn_walks (ids : List DocId) :
    Walks (PushStep (V := V) branch) (env.ioDeleteOn branch context ids) :=
  env.onDataset_walks fun _ _ _ hds hok => .commit hds hok

theorem ioAppendOn_walks (new : List (ChunkRow V)) :
    Walks (PushStep branch) (env.ioAppendOn branch context new) :=
  env.onDataset_walks fun _ _ _ hds hok => .commit hds hok

theorem ioBatchDeleteAppend_walks (ids : List DocId) (new : List (ChunkRow V)) :
    Walks (PushStep branch) (env.ioBatchDeleteAppend branch ids new) := by
  refine Walks.bind env.ioOpenDataset_walks fun _ =>
    Walks.bind env.checkoutBranch_walks fun _ =>
    Walks.bind (unlessEmpty_walks _ (env.ioDeleteOn_walks _)) fun _ =>
    Walks.bind (unlessEmpty_walks _ (env.ioAppendOn_walks _)) fun _ =>
    Walks.bind handleVersion_walks fun _ =>
    Walks.bind env.ioRefreshCachedDataset_walks fun _ => Walks.pure _

theorem ioCleanupAggressive_walks :
    Walks (PushStep (V := V) branch) env.ioCleanupAggressive := by
  refine env.onDataset_walks fun s ds ds' hds hok => ?_
  cases hok
  exact .cleanup hds

end StoreEnv

namespace PushEnv

variable (env : PushEnv V) {branch : BranchName} {commit : CommitId}

theorem createIndices_walks : Walks (PushStep branch) (env.createIndices branch) := by
  refine Walks.bind (Walks.bind (withContext_walks _ env.touchOn_walks)
    fun _ => Walks.bind (withContext_walks _ env.touchOn_walks) fun _ => ?_)
    fun _ => ?_
  · exact Walks.ite (withContext_walks _ env.touchOn_walks) (Walks.pure ())
  · exact Walks.bind (withContext_walks _ StoreEnv.handleVersion_walks) fun _ =>
      Walks.bind env.touchOn_walks.attempt fun _ =>
      Walks.bind (withContext_walks _ env.ioRefreshCachedDataset_walks) fun _ =>
      Walks.pure _

theorem ensureFts_walks : Walks (PushStep branch) (env.ensureFts branch) :=
  Walks.bind (withContext_walks _ env.touchOn_walks) fun _ =>
    withContext_walks _ StoreEnv.handleVersion_walks

theorem indexBuffered_walks : Walks (PushStep branch) (env.indexBuffered branch) := by
  refine Walks.bind (Walks.look _) fun position => Walks.ite ?_ ?_
  · refine Walks.bind (Walks.look _).attempt fun opened => ?_
    split
    · exact Walks.bind env.createIndices_walks fun _ => Walks.pure _
    · exact Walks.pure _
  · refine Walks.bind (withContext_walks _ (Walks.look _)) fun existing => ?_
    exact Walks.ite (Walks.bind env.ensureFts_walks fun _ => Walks.pure _)
      (Walks.pure _)

theorem indexStream_walks (position : ℕ) :
    Walks (PushStep branch) (env.indexStream position branch) :=
  Walks.ite env.createIndices_walks
    (Walks.bind env.ensureFts_walks fun _ =>
      Walks.bind (withContext_walks _ env.ioRefreshCachedDataset_walks) fun _ =>
      Walks.pure _)

theorem tagWork_walks (version : ℕ) :
    Walks (PushStep branch) (env.tagWork branch commit version) :=
  Walks.bind (withContext_walks _ (env.ioTagCommit_walks _ _)) fun _ =>
    Walks.bind (withContext_walks _ (StoreEnv.cacheLastIndexed_walks _ _)) fun _ =>
    Walks.bind env.ioCleanupAggressive_walks.attempt fun _ => Walks.pure _

theorem tagNoop_walks : Walks (PushStep branch) (env.tagNoop branch commit) :=
  Walks.bind (withContext_walks _ env.ioOpenDataset_walks) fun _ =>
    Walks.bind (withContext_walks _ env.ioBranchHeadVersion_walks) fun _ =>
    Walks.bind (withContext_walks _ (env.ioTagCommit_walks _ _)) fun _ =>
    withContext_walks _ (StoreEnv.cacheLastIndexed_walks _ _)

theorem ioRunIndexPipeline_walks (operations : List Operation) :
    Walks (PushStep branch) (env.ioRunIndexPipeline branch commit operations) := by
  unfold ioRunIndexPipeline
  split
  · exact Walks.fail _
  · refine Walks.bind (Walks.ite env.tagNoop_walks ?_) fun _ => Walks.pure _
    exact Walks.bind (withContext_walks _ (env.ioBatchDeleteAppend_walks _ _))
      fun _ => Walks.bind env.indexBuffered_walks fun _ => env.tagWork_walks _

theorem ioRunIndexPipelineStream_walks (expectedDocs : Option ℕ)
    (operations : List Operation) :
    Walks (PushStep branch)
      (env.ioRunIndexPipelineStream branch commit expectedDocs operations) := by
  refine Walks.bind (withContext_walks _ env.ioOpenDataset_walks) fun _ =>
    Walks.bind (withContext_walks _ env.checkoutBranch_walks) fun _ =>
    Walks.bind (Walks.look _) fun position => ?_
  split
  · exact Walks.fail _
  · refine Walks.bind ?_ fun _ => Walks.pure _
    refine Walks.bind (unlessEmpty_walks _ (withContext_walks _
      (env.ioDeleteOn_walks _))) fun _ => Walks.bind (unlessEmpty_walks _
      (withContext_walks _ (env.ioAppendOn_walks _))) fun _ => Walks.bind
      (withContext_walks _ env.ioRefreshCachedDataset_walks) fun _ => ?_
    exact Walks.ite env.tagNoop_walks (Walks.bind
      (env.indexStream_walks _) fun _ => env.tagWork_walks _)

end PushEnv

theorem PushRequest.push_walks (r : PushRequest V) (branch : BranchName) :
    Walks (PushStep branch) (r.push branch) := by
  refine Walks.bind (Walks.mapError _ (r.env.ioResolveCommit_walks _)) fun found => ?_
  cases found with
  | some v => exact Walks.fail _
  | none =>
    have hpipeline : Walks (PushStep branch) (r.pipeline branch) := by
      unfold PushRequest.pipeline
      split
      · exact r.env.ioRunIndexPipeline_walks _
      · exact r.env.ioRunIndexPipelineStream_walks _ _
    refine Walks.bind hpipeline.attempt fun out => ?_
    split <;> exact Walks.pure _

section Serves

variable {c : CommitId} {t : TagContents BranchName} {rows : List (ChunkRow V)}

/-- The domain serves `rows` at `c`, through the tag `t`. -/
def ServesTag (c : CommitId) (t : TagContents BranchName) (rows : List (ChunkRow V))
    (d : Domain V) : Prop :=
  d.dataset.isSome ∧ Dataset.Home c t rows d.opened

theorem ServesTag.reopen {d s : Domain V} (h : ServesTag c t rows d)
    (hds : s.dataset.isSome) (hopened : s.opened = d.opened) : ServesTag c t rows s :=
  ⟨hds, by rw [hopened]; exact h.2⟩

/-- A step of a push leaves the tag and the rows of an indexed commit in place. -/
theorem PushStep.servesTag {b : BranchName} {d s : Domain V} (h : PushStep b d s)
    (hd : ServesTag c t rows d) : ServesTag c t rows s := by
  have hhome : ∀ ds, d.dataset = some ds → Dataset.Home c t rows ds := fun ds hds => by
    rw [← Domain.opened_of_some hds]
    exact hd.2
  cases h with
  | openDataset => exact hd.reopen (Domain.openDataset_dataset_isSome hd.1) (by simp)
  | openReadonly => exact hd.reopen (by simpa using hd.1) (by simp)
  | refresh => exact hd.reopen (by simpa using hd.1) (by simp)
  | cacheLastIndexed => exact hd.reopen hd.1 rfl
  | commit hds hok => exact ⟨rfl, (hhome _ hds).commit hok⟩
  | touch hds hok => exact ⟨rfl, (hhome _ hds).touch hok⟩
  | createTag hds hok => exact ⟨rfl, (hhome _ hds).createTag hok⟩
  | cleanup hds => exact ⟨rfl, (hhome _ hds).cleanup⟩

/-- Whatever a push does and wherever it stops, an indexed commit keeps its tag and rows. -/
theorem PushRequest.push_servesTag (r : PushRequest V) (b : BranchName) {d : Domain V}
    (h : ServesTag c t rows d) : ServesTag c t rows (r.push b d).store :=
  ((r.push_walks b d).invariant (fun _ _ hstep => hstep.servesTag) h).2

end Serves

end Vectorlink
