import Vectorlink.Service.Pipeline

/-! The offline loader: the operations of one commit, written to a branch document by document
by a process of its own. -/
namespace Vectorlink

open Stepwise Stepwise.Program Versioned

variable {V : Type}

namespace StoreEnv

variable (env : StoreEnv)

/-- Whether there is a dataset; an absent one is not created. -/
def ioOpenDatasetReadonly (op : StoreOp) : StoreM V Bool := do
  step op fun d =>
    if d.cached.isNone && d.dataset.isSome && env.fails op then
      .error (.internal "dataset open failed" (some .io))
    else .ok d.openReadonly
  look fun d => .ok d.cached.isSome

/-- Replace the rows of one document: two new versions of the branch. -/
def ioUpsertChunks (branch : BranchName) (docId : DocId) (rows : List (ChunkRow V)) :
    StoreM V ℕ :=
  if rows.isEmpty then pure 0
  else do
    env.ioOpenDataset .ensureDataset
    env.ioOpenBranchForWrite .openBranch branch
    env.ioDeleteOn branch "delete failed" [docId]
    env.ioAppendOn branch "append failed" rows
    env.ioRefreshCachedDataset .refreshWritten
    handleVersion branch

/-- A delete on a domain that does not exist does nothing. -/
def ioDeleteDoc (branch : BranchName) (docId : DocId) : StoreM V ℕ := do
  if ← env.ioOpenDatasetReadonly .ensureDataset then do
    env.ioOpenBranchForWrite .openBranch branch
    env.ioDeleteOn branch "delete failed" [docId]
    env.ioRefreshCachedDataset .refreshWritten
    handleVersion branch
  else pure 0

/-- The text index is built through the cached handle, which is one on the default branch
whatever the branch of the caller. The handle moves to the version that it commits. -/
def ioEnsureFtsIndex (_branch : BranchName) : StoreM V ℕ := do
  env.ioOpenDataset .openIndex
  env.touchOn .ftsIndex "FTS index build failed" mainBranch
  step .ftsIndex fun d => .ok (if env.indexVersions .ftsIndex = 0 then d else d.refresh)
  look fun d => .ok (d.cached.getD d.opened.main.head)

end StoreEnv

/-- What the loader prints for an operation that it skips. -/
inductive LoadSkip where
  | document (line : ℕ) (id : DocId) (reason : String)
  | delete (line : ℕ) (id : DocId) (reason : String)
  | operation (line : ℕ) (message : String)
deriving DecidableEq, Repr

inductive ExitCode where
  | success
  | failure
deriving DecidableEq, Repr

/-- Any skip is a partial failure. -/
def exitCodeFor (skippedCount : ℕ) : ExitCode := if 0 < skippedCount then .failure else .success

structure LoadState where
  indexedCount : ℕ
  skipped : List LoadSkip
  lastVersion : ℕ
deriving DecidableEq, Repr

namespace LoadState

variable (st : LoadState)

def start : LoadState := ⟨0, [], 0⟩

def skip (s : LoadSkip) : LoadState := { st with skipped := st.skipped ++ [s] }

def addIndexed (line : ℕ) (id : DocId) : Except String ℕ → LoadState
  | .ok version => { st with indexedCount := st.indexedCount + 1, lastVersion := version }
  | .error e => st.skip (.document line id e)

def addDeleted (line : ℕ) (id : DocId) : Except StoreError ℕ → LoadState
  | .ok version => { st with lastVersion := version }
  | .error e => st.skip (.delete line id e.text)

end LoadState

namespace PushEnv

variable (env : PushEnv V)

/-- One document: chunk, embed in both roles, upsert. All chunks of the document go into one
request, and a request that fails is not repeated. -/
def ioIndexOne (branch : BranchName) (line : ℕ) (docId : DocId) (text : String) : Push V ℕ :=
  match env.chunkText text with
  | .error e => fail s!"chunking failed: {e}"
  | .ok chunks =>
    if chunks.isEmpty then fail "chunking produced zero chunks"
    else
      let chunkTexts := chunks.map (·.text)
      match ioEmbed env.provider ⟨.document, line, 0, none⟩ chunkTexts with
      | .error e => fail s!"embedding (doc) failed: {e}"
      | .ok embeddingsDoc =>
        match ioEmbed env.provider ⟨.clustering, line, 0, none⟩ chunkTexts with
        | .error e => fail s!"embedding (query) failed: {e}"
        | .ok embeddingsQuery =>
          if embeddingsDoc.length ≠ chunks.length then
            fail s!"doc embedding count mismatch: expected {chunks.length}, got {embeddingsDoc.length}"
          else if embeddingsQuery.length ≠ chunks.length then
            fail s!"query embedding count mismatch: expected {chunks.length}, got {embeddingsQuery.length}"
          else withContext "upsert failed" (env.ioUpsertChunks branch docId
            (chunkRows docId chunks (embeddingsDoc.map env.l2Normalize)
              (embeddingsQuery.map env.l2Normalize)))

/-- The loop over the lines of the input file. An abort ends it. -/
def loadOps (branch : BranchName) : (line : ℕ) → LoadState → List Operation → Push V LoadState
  | _, st, [] => pure st
  | line, st, op :: ops =>
    match op with
    | .inserted id string | .changed id string => do
      let result ← attempt (env.ioIndexOne branch line id string)
      loadOps branch (line + 1) (st.addIndexed line id result) ops
    | .deleted id => do
      let result ← attempt (env.ioDeleteDoc branch id)
      loadOps branch (line + 1) (st.addDeleted line id result) ops
    | .error message => loadOps branch (line + 1) (st.skip (.operation line message)) ops
    | .abort => pure st

/-- The version to tag: that of the text index, unless the index could not be built. -/
def versionToTag (lastVersion : ℕ) : Except StoreError ℕ → ℕ
  | .ok ftsVersion => if 0 < ftsVersion then ftsVersion else lastVersion
  | .error _ => lastVersion

/-- The commit is tagged if anything has been written. -/
def tagLoad (branch : BranchName) (commit : CommitId) (st : LoadState) : Push V LoadState :=
  if 0 < st.lastVersion then do
    let fts ← attempt (env.ioEnsureFtsIndex branch)
    let version := versionToTag st.lastVersion fts
    withContext "failed to tag commit" (env.ioTagCommit branch commit version)
    withContext "" (StoreEnv.cacheLastIndexed branch commit version)
    pure { st with lastVersion := version }
  else pure st

def load (branch : BranchName) (commit : CommitId) (operations : List Operation) :
    Push V (ExitCode × LoadState) := do
  let st ← env.loadOps branch 1 .start operations
  let st ← env.tagLoad branch commit st
  pure (exitCodeFor st.skipped.length, st)

end PushEnv

end Vectorlink
