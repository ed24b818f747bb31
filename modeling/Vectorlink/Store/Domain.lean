import Vectorlink.Stepwise.Program
import Vectorlink.Store.Commit

/-! One domain of the store: its dataset on disk, the cached handle on the default branch
and the cached last-indexed commits. -/
namespace Vectorlink

open Stepwise Stepwise.Program Versioned

/-- `dataset = none` before the first write. `cached` is the version at which the handle of
the default branch was opened, `branchIndexes` survives as long as the process. -/
structure Domain (V : Type) where
  dataset : Option (LanceDataset (ChunkRow V))
  cached : Option ℕ
  branchIndexes : AList fun _ : BranchName => BranchIndex

/-- The calls into Lance on behalf of a domain, by the place they are made from. -/
inductive StoreOp where
  | resolve
  | ensureDataset
  | openBranch
  | delete
  | append
  | refreshWritten
  | countCommits
  | openBoundary
  | openIndex
  | ftsIndex
  | vectorIndex
  | clusteringIndex
  | cascade
  | refreshIndexed
  | ensureNoop
  | headVersion
  | openTag
  | createTag
  | refreshTag
  | cacheIndex
  | cleanup
  | resetTags
  | resetTag (commit : CommitId)
  | purgeIndex
deriving DecidableEq, Repr

/-- The outcome of each call, and how many versions each index update commits. -/
structure StoreEnv where
  fails : StoreOp → Bool
  indexVersions : StoreOp → ℕ

abbrev StoreM (V α : Type) := Program StoreOp (Domain V) StoreError α

variable {V : Type}

namespace Domain

/-- A domain that was never written to. -/
def fresh : Domain V := ⟨none, none, ∅⟩

/-- The dataset, with the empty one where none exists yet. -/
def opened (d : Domain V) : LanceDataset (ChunkRow V) := d.dataset.getD .create

/-- Reuse the cached handle, or open the dataset and create it when it is absent. -/
def openDataset (d : Domain V) : Domain V :=
  match d.cached with
  | some _ => d
  | none => { d with dataset := some d.opened, cached := some d.opened.main.head }

/-- As `openDataset`, but an absent dataset stays absent. -/
def openReadonly (d : Domain V) : Domain V :=
  match d.cached, d.dataset with
  | none, some ds => { d with cached := some ds.main.head }
  | _, _ => d

def refresh (d : Domain V) : Domain V :=
  match d.dataset with
  | none => d
  | some ds => { d with cached := some ds.main.head }

def cacheLastIndexed (d : Domain V) (branch : BranchName) (commit : CommitId) (version : ℕ) :
    Domain V :=
  { d with branchIndexes := d.branchIndexes.insert branch ⟨some commit, version⟩ }

/-- A new process: both caches are empty. -/
def restart (d : Domain V) : Domain V := { d with cached := none, branchIndexes := ∅ }

end Domain

structure LastIndexed where
  branch : BranchName
  commit : Option CommitId
  version : ℕ
deriving DecidableEq, Repr

/-- The cached entry if there is one. Otherwise the answer comes from the tags and is
cached. -/
def lastIndexed (d : Domain V) (branch : BranchName) : LastIndexed × Domain V :=
  match d.branchIndexes.lookup branch with
  | some bi => (⟨branch, bi.commit, bi.version⟩, d)
  | none =>
    match d.dataset.bind fun ds => ioDeriveLastIndexed ds branch with
    | some (commit, version) =>
      (⟨branch, some commit, version⟩, d.openReadonly.cacheLastIndexed branch commit version)
    | none => (⟨branch, none, 0⟩, d.openReadonly)

namespace StoreEnv

variable (env : StoreEnv)

/-- A cached handle is handed out without touching the disk. -/
def ioOpenDataset (op : StoreOp) : StoreM V Unit :=
  step op fun d =>
    if d.cached.isNone && env.fails op then
      .error (.internal (if d.dataset.isSome then "dataset open failed"
        else "failed to create dataset") (some .io))
    else .ok d.openDataset

def ioRefreshCachedDataset (op : StoreOp) : StoreM V Unit :=
  step op fun d =>
    if d.dataset.isSome && env.fails op then .error (.internal "dataset open failed" (some .io))
    else .ok d.refresh

/-- Whether the tag of a commit exists, and its version. -/
def ioResolveCommit (op : StoreOp) (commit : CommitId) : StoreM V (Option ℕ) := do
  step op fun d =>
    if env.fails op then .error (.internal "tag list failed" (some .io)) else .ok d.openReadonly
  look fun d => .ok (d.dataset.bind fun ds => (ds.tags.lookup commit).map (·.version))

/-- Check a handle out to a branch. -/
def checkoutBranch (op : StoreOp) (context : String) (branch : BranchName) : StoreM V Unit :=
  look fun d =>
    if env.fails op then .error (.internal "dataset open failed" (some .io))
    else match d.dataset with
      | none => .error (.internal "dataset open failed" (some .io))
      | some ds =>
        match ds.lineage? (wantBranch branch) with
        | none => .error (.internal context (some .branchNotFound))
        | some _ => .ok ()

def ioOpenBranchForWrite (op : StoreOp) (branch : BranchName) : StoreM V Unit :=
  env.checkoutBranch op s!"failed to checkout branch '{branch}' for write (does it exist?)" branch

/-- The version of a handle that is checked out to a branch. -/
def handleVersion (branch : BranchName) : StoreM V ℕ :=
  look fun d =>
    match d.dataset.bind fun ds => ds.lineage? (wantBranch branch) with
    | some l => .ok l.head
    | none => .error (.internal "dataset open failed" (some .io))

/-- An atomic change of the dataset on disk. -/
def onDataset (op : StoreOp) (context : String)
    (f : LanceDataset (ChunkRow V) → Except RefError (LanceDataset (ChunkRow V))) :
    StoreM V Unit :=
  step op fun d =>
    if env.fails op then .error (.internal context (some .io))
    else match d.dataset with
      | none => .error (.internal context (some .io))
      | some ds =>
        match f ds with
        | .error e => .error (.internal context (some e))
        | .ok ds' => .ok { d with dataset := some ds' }

/-- For the default branch the version of the cached handle. -/
def ioBranchHeadVersion (op : StoreOp) (branch : BranchName) : StoreM V ℕ :=
  if branch = mainBranch then do
    env.ioOpenDataset op
    look fun d => .ok (d.cached.getD d.opened.main.head)
  else do
    env.ioOpenBranchForWrite op branch
    handleVersion branch

def ioDeleteOn (branch : BranchName) (context : String) (ids : List DocId) : StoreM V Unit :=
  env.onDataset .delete context fun ds => ds.commit (wantBranch branch) (deleteDocs ids)

def ioAppendOn (branch : BranchName) (context : String) (rows : List (ChunkRow V)) :
    StoreM V Unit :=
  env.onDataset .append context fun ds => ds.commit (wantBranch branch) (· ++ rows)

def openForTag (branch : BranchName) : StoreM V Unit :=
  if branch = mainBranch then env.ioOpenDataset .openTag
  else env.checkoutBranch .openTag s!"checkout '{branch}' for tag failed" branch

def cacheLastIndexed (branch : BranchName) (commit : CommitId) (version : ℕ) : StoreM V Unit :=
  step .cacheIndex fun d => .ok (d.cacheLastIndexed branch commit version)

def ioTagCommit (branch : BranchName) (commit : CommitId) (version : ℕ) : StoreM V Unit := do
  env.openForTag branch
  env.onDataset .createTag "tag creation failed" fun ds =>
    ds.createTag commit (wantBranch branch) version
  env.ioRefreshCachedDataset .refreshTag
  cacheLastIndexed branch commit version

/-- Point a commit at the version number of another. -/
def ioAssignCommit (branch : BranchName) (sourceCommit targetCommit : CommitId) :
    StoreM V ℕ := do
  match ← env.ioResolveCommit .resolve sourceCommit with
  | none =>
    fail (.internal s!"cannot assign: source commit '{sourceCommit}' is not indexed" none)
  | some version => do
    env.ioTagCommit branch targetCommit version
    pure version

/-- The commits whose tags a reset of a branch deletes: rebuild branches are not included. -/
def tagsToDelete (d : Domain V) (branch : BranchName) : List CommitId :=
  match d.dataset with
  | none => []
  | some ds => (ds.tags.entries.filter fun e => e.2.branch = wantBranch branch).map (·.1)

def ioDeleteBranchIndex (branch : BranchName) : StoreM V Unit := do
  step .resetTags fun d =>
    if env.fails .resetTags then .error (.internal "tag list failed" (some .io))
    else .ok d.openReadonly
  let commits ← look fun d => .ok (tagsToDelete d branch)
  let _ ← forEach (fun commit =>
    env.onDataset (.resetTag commit) "tag delete failed" fun ds => ds.deleteTag commit) commits
  step .purgeIndex fun d => .ok { d with branchIndexes := d.branchIndexes.erase branch }

end StoreEnv

end Vectorlink
