import Vectorlink.Ingest
import Vectorlink.Store.Domain

/-! The index pipelines behind a push: collect, write, index, tag. -/
namespace Vectorlink

open Stepwise Stepwise.Program Versioned

/-- Everything that one push meets: collecting, the outcome of its Lance calls and whether
clustering vectors get an index of their own. -/
structure PushEnv (V : Type) extends IngestEnv V, StoreEnv where
  clusteringConfig : Bool

abbrev Push (V α : Type) := Program StoreOp (Domain V) String α

variable {V α : Type}

/-- `map_err(|e| format!("{message}: {}", e))`. -/
def withContext (message : String) (m : StoreM V α) : Push V α :=
  mapError (fun e => s!"{message}: {e.text}") m

def unlessEmpty {β ε : Type} (xs : List β) (m : Program StoreOp (Domain V) ε Unit) :
    Program StoreOp (Domain V) ε Unit :=
  if xs.isEmpty then pure () else m

/-- Indices are created at every third commit. -/
def shouldIndexCommit (commitPosition : ℕ) : Bool := (commitPosition + 1) % 3 == 0

namespace StoreEnv

variable (env : StoreEnv)

/-- `io_batch_delete_append`: at most two new versions, deletes first. -/
def ioBatchDeleteAppend (branch : BranchName) (deleteIds : List DocId)
    (rows : List (ChunkRow V)) : StoreM V ℕ := do
  env.ioOpenDataset .ensureDataset
  env.ioOpenBranchForWrite .openBranch branch
  unlessEmpty deleteIds (env.ioDeleteOn branch "batch delete failed" deleteIds)
  unlessEmpty rows (env.ioAppendOn branch "batch append failed" rows)
  let version ← handleVersion branch
  env.ioRefreshCachedDataset .refreshWritten
  pure version

/-- A failed count is taken for 0. -/
def countCommits (branch : BranchName) : Push V ℕ :=
  look fun d =>
    .ok (if env.fails .countCommits then 0
      else (d.dataset.map fun ds => ioCountBranchCommits ds branch).getD 0)

/-- Index maintenance: new versions of the branch with the same rows. -/
def touchOn (op : StoreOp) (context : String) (branch : BranchName) : StoreM V Unit :=
  env.onDataset op context fun ds => ds.touch (wantBranch branch) (env.indexVersions op)

def ioOpenDatasetUncached (op : StoreOp) (branch : BranchName) : StoreM V Bool :=
  look fun d =>
    match d.dataset with
    | none => .ok false
    | some ds =>
      if env.fails op then .error (.internal "dataset open failed" (some .io))
      else match ds.lineage? (wantBranch branch) with
        | none =>
          .error (.internal s!"uncached checkout branch '{branch}' failed" (some .branchNotFound))
        | some _ => .ok true

def ioCleanupAggressive : StoreM V Unit :=
  env.onDataset .cleanup "aggressive cleanup failed" fun ds => .ok ds.cleanup

end StoreEnv

namespace PushEnv

variable (env : PushEnv V)

def ensureIndices (branch : BranchName) : Push V Unit := do
  withContext "FTS index creation failed"
    (env.touchOn .ftsIndex "FTS index build failed" branch)
  withContext "vector index creation failed"
    (env.touchOn .vectorIndex "vector index build failed" branch)
  if env.storeClustering && env.clusteringConfig then
    withContext "clustering vector index creation failed"
      (env.touchOn .clusteringIndex "clustering index build failed" branch)
  else pure ()

/-- Indices at a boundary: the tag goes to the version with the indices, the merge cascade
may add more versions after it. -/
def createIndices (branch : BranchName) : Push V ℕ := do
  env.ensureIndices branch
  let version ← withContext "dataset open failed" (StoreEnv.handleVersion branch)
  let _ ← attempt (env.touchOn .cascade "cascade failed" branch)
  withContext "cascade cache refresh failed" (env.ioRefreshCachedDataset .refreshIndexed)
  pure version

/-- Off the boundaries only the text index is brought up to date. -/
def ensureFts (branch : BranchName) : Push V ℕ := do
  withContext "FTS index ensure failed" (env.touchOn .ftsIndex "FTS index build failed" branch)
  withContext "dataset open failed" (StoreEnv.handleVersion branch)

/-- At a boundary a handle that cannot be opened only leaves the commit without indices. -/
def indexBoundary (branch : BranchName) : Push V (Option ℕ) := do
  match ← attempt (env.ioOpenDatasetUncached .openBoundary branch) with
  | .ok true => do
    let version ← env.createIndices branch
    pure (some version)
  | _ => pure none

def indexBuffered (branch : BranchName) : Push V (Option ℕ) := do
  let position ← env.countCommits branch
  if shouldIndexCommit position then env.indexBoundary branch
  else do
    let existing ← withContext "FTS index: failed to open dataset"
      (env.ioOpenDatasetUncached .openIndex branch)
    if existing then do
      let version ← env.ensureFts branch
      pure (some version)
    else pure none

def indexStream (position : ℕ) (branch : BranchName) : Push V ℕ :=
  if shouldIndexCommit position then env.createIndices branch
  else do
    let version ← env.ensureFts branch
    withContext "FTS cache refresh failed" (env.ioRefreshCachedDataset .refreshIndexed)
    pure version

/-- `update_last_indexed` writes the cache entry that tagging has already written. -/
def tagWork (branch : BranchName) (commit : CommitId) (tagVersion : ℕ) : Push V Unit := do
  withContext "failed to tag commit" (env.ioTagCommit branch commit tagVersion)
  withContext "" (StoreEnv.cacheLastIndexed branch commit tagVersion)
  let _ ← attempt (env.ioCleanupAggressive)
  pure ()

/-- A commit without work is tagged at the newest version. -/
def tagNoop (branch : BranchName) (commit : CommitId) : Push V Unit := do
  withContext "no-op tag: failed to ensure dataset" (env.ioOpenDataset .ensureNoop)
  let currentVersion ← withContext "no-op tag: failed to get branch head version"
    (env.ioBranchHeadVersion .headVersion branch)
  withContext "no-op tag: failed to tag commit" (env.ioTagCommit branch commit currentVersion)
  withContext "" (StoreEnv.cacheLastIndexed branch commit currentVersion)

/-- The write phase of the buffered pipeline when there is work. -/
def writeBuffered (branch : BranchName) (commit : CommitId) (c : Collected V) : Push V Unit := do
  let lastVersion ← withContext "batch delete-append failed"
    (env.ioBatchDeleteAppend branch c.deleteIds c.rows)
  let indexedVersion ← env.indexBuffered branch
  env.tagWork branch commit (indexedVersion.getD lastVersion)

/-- Every commit is tagged, also one without work. -/
def commitBuffered (branch : BranchName) (commit : CommitId) (c : Collected V) : Push V Unit :=
  if c.rows.isEmpty && c.deleteIds.isEmpty then env.tagNoop branch commit
  else env.writeBuffered branch commit c

def ioRunIndexPipeline (branch : BranchName) (commit : CommitId) (operations : List Operation) :
    Push V (ℕ × List SkippedDoc) :=
  match env.collectBuffered operations with
  | .error e => fail e
  | .ok c => do
    env.commitBuffered branch commit c
    pure (c.indexed, c.skipped)

/-- The end of the streaming pipeline, with or without work. -/
def tagStream (branch : BranchName) (commit : CommitId) (position : ℕ) (c : Collected V) :
    Push V Unit :=
  if c.indexed = 0 && c.deleteIds.isEmpty then env.tagNoop branch commit
  else do
    let version ← env.indexStream position branch
    env.tagWork branch commit version

/-- One delete and one append on the handle that was opened before the first operation
arrived. -/
def writeStream (branch : BranchName) (commit : CommitId) (position : ℕ) (c : Collected V) :
    Push V Unit := do
  unlessEmpty c.deleteIds (withContext "final delete failed"
    (env.ioDeleteOn branch "microbatch delete failed" c.deleteIds))
  unlessEmpty c.rows (withContext "end-of-push append failed"
    (env.ioAppendOn branch "microbatch append failed" c.rows))
  withContext "cache refresh failed" (env.ioRefreshCachedDataset .refreshWritten)
  env.tagStream branch commit position c

def ioRunIndexPipelineStream (branch : BranchName) (commit : CommitId)
    (expectedDocs : Option ℕ) (operations : List Operation) : Push V (ℕ × List SkippedDoc) := do
  withContext "failed to ensure dataset" (env.ioOpenDataset .ensureDataset)
  withContext "failed to open write handle" (env.ioOpenBranchForWrite .openBranch branch)
  let position ← env.countCommits branch
  match env.collectStream expectedDocs operations with
  | .error e => fail e
  | .ok c => do
    env.writeStream branch commit position c
    pure (c.indexed, c.skipped)

end PushEnv

inductive PushMode where
  | buffered
  | streaming (expectedDocs : Option ℕ)
deriving DecidableEq, Repr

inductive TaskStatus where
  | complete (indexedDocuments : ℕ) (skipped : List SkippedDoc)
  | error (error : String)
deriving DecidableEq, Repr

/-- A push of one commit to a branch. -/
structure PushRequest (V : Type) where
  env : PushEnv V
  commit : CommitId
  operations : List Operation
  mode : PushMode

namespace PushRequest

variable (r : PushRequest V)

def collect : Except String (Collected V) :=
  match r.mode with
  | .buffered => r.env.collectBuffered r.operations
  | .streaming expectedDocs => r.env.collectStream expectedDocs r.operations

def pipeline (branch : BranchName) : Push V (ℕ × List SkippedDoc) :=
  match r.mode with
  | .buffered => r.env.ioRunIndexPipeline branch r.commit r.operations
  | .streaming expectedDocs =>
    r.env.ioRunIndexPipelineStream branch r.commit expectedDocs r.operations

/-- A push to a branch that exists: a commit that has a tag is refused, otherwise the
pipeline runs and its end is the status of the task. -/
def push (branch : BranchName) : Program StoreOp (Domain V) ServiceError TaskStatus := do
  match ← mapError (fun e => ServiceError.internal e.text)
      (r.env.ioResolveCommit .resolve r.commit) with
  | some _ => fail (.conflict s!"commit {r.commit} already pushed (in-flight or indexed)")
  | none => do
    match ← attempt (r.pipeline branch) with
    | .ok (indexed, skipped) => pure (.complete indexed skipped)
    | .error e => pure (.error e)

end PushRequest

end Vectorlink
