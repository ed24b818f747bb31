import Vectorlink.Stepwise.Program
import Vectorlink.Store.Commit
import Vectorlink.Store.Delta

/-! Delta-fork retagging: compaction replays the history on a rebuild branch and moves the
intermediate commit tags there. -/
namespace Vectorlink

open Stepwise Stepwise.Program Versioned

/-- The calls into Lance that one compaction makes, each of which may fail. -/
inductive RetagOp where
  | listCommits
  | createBranch
  | openRebuild
  | delta (commit : CommitId)
  | deltaWrite (commit : CommitId) (phase : ℕ)
  | ftsIndex (commit : CommitId)
  | openForDrop
  | dropRebuild
  | openMain (commit : CommitId)
  | deleteTag (commit : CommitId)
  | createTag (commit : CommitId)
  | listTags (commit : CommitId)
  | listBranches
  | openForDelete (branch : BranchName)
  | deleteBranch (branch : BranchName)
  | cleanupBranches
  | cleanupTags
  | openForPurge
  | purgeTag (commit : CommitId)
  | cleanupTagsAgain
  | openForPurgeBranch (branch : BranchName)
  | purgeBranch (branch : BranchName)
  | cleanupVersions
  | refresh
deriving DecidableEq, Repr

/-- What a compaction does not decide itself: the clock, the outcome of each Lance call,
how a delta is replayed, how many versions an index update commits and in which order the map
of the commits comes. -/
structure RetagEnv (ρ : Type) where
  epoch : ℕ
  fails : RetagOp → Bool
  replay : List ρ → List ρ → List (BranchWrite ρ)
  ftsVersions : CommitId → ℕ
  order : HashOrder (CommitId × ℕ)

variable {ρ : Type}

abbrev Retag (ρ α : Type) := Program RetagOp (LanceDataset ρ) StoreError α

/-- Positions 0, 3, 12, 39, ...: `pos += step * 3; step *= 3` while below `total`. -/
def boundaryLoop (total : ℕ) : (fuel pos step : ℕ) → List ℕ
  | 0, _, _ => []
  | fuel + 1, pos, step =>
    if pos < total then pos :: boundaryLoop total fuel (pos + step * 3) (step * 3) else []

/-- The newest commit is never a boundary. -/
def boundaryPositions (total : ℕ) : List ℕ :=
  (boundaryLoop total total 0 1).filter (· ≠ total - 1)

namespace RetagEnv

variable (env : RetagEnv ρ)

def rebuildBranch : BranchName := compactRebuildBranchName env.epoch

/-- A Lance call that reads. -/
def reads {α : Type} (op : RetagOp) (context : String)
    (f : LanceDataset ρ → Except RefError α) : Retag ρ α :=
  look fun ds =>
    if env.fails op then .error (.internal context (some .io))
    else (f ds).mapError fun e => .internal context (some e)

/-- A Lance call that writes, atomically. -/
def writes (op : RetagOp) (context : String)
    (f : LanceDataset ρ → Except RefError (LanceDataset ρ)) : Retag ρ Unit :=
  step op fun ds =>
    if env.fails op then .error (.internal context (some .io))
    else (f ds).mapError fun e => .internal context (some e)

def opens (op : RetagOp) : Retag ρ Unit :=
  env.reads op "dataset open failed" fun _ => .ok ()

/-- The version of the rebuild handle. -/
def rebuildVersion : Retag ρ ℕ :=
  look fun ds =>
    match ds.branches.lookup env.rebuildBranch with
    | some l => .ok l.head
    | none => .error (.internal "rebuild branch not found after creation" none)

def ioComputeDeltaBetweenCommits (commitA commitB : CommitId) : Retag ρ (List (BranchWrite ρ)) :=
  look fun ds =>
    if env.fails (.delta commitB) then .error (.internal "tag list failed" (some .io))
    else do
      let a ← ioCheckoutCommitSnapshot ds commitA
      let b ← ioCheckoutCommitSnapshot ds commitB
      pure (env.replay a b)

def applyDelta (commit : CommitId) : ℕ → List (BranchWrite ρ) → Retag ρ Unit
  | _, [] => pure ()
  | phase, write :: rest => do
    env.writes (.deltaWrite commit phase) write.context fun ds =>
      ds.commit (some env.rebuildBranch) write.apply
    applyDelta commit (phase + 1) rest

/-- `io_ensure_fts_index_on_dataset` on the rebuild handle: some new versions, same rows. -/
def ioEnsureFtsIndex (commit : CommitId) : Retag ρ Unit :=
  env.writes (.ftsIndex commit) "FTS index creation failed" fun ds =>
    ds.touch (some env.rebuildBranch) (env.ftsVersions commit)

/-- Phase 1 over the commits after `prev`, the first of them at position `i`: the retag
plan and the replayed versions of the boundary commits. No tag is touched. -/
def phase1 (boundaries : List ℕ) : (prev : CommitId) → (i : ℕ) → List (CommitId × ℕ) →
    Retag ρ (List (CommitId × ℕ) × List (CommitId × ℕ))
  | _, _, [] => pure ([], [])
  | prev, i, (commit, _) :: rest => do
    let delta ← env.ioComputeDeltaBetweenCommits prev commit
    env.applyDelta commit 0 delta
    let newVersion ← env.rebuildVersion
    if i ∈ boundaries then
      let (plan, bounds) ← phase1 boundaries commit (i + 1) rest
      pure (plan, (commit, newVersion) :: bounds)
    else
      env.ioEnsureFtsIndex commit
      let indexedVersion ← env.rebuildVersion
      let (plan, bounds) ← phase1 boundaries commit (i + 1) rest
      pure ((commit, indexedVersion) :: plan, bounds)

/-- Delete the tag wherever it lives and create it on the rebuild handle. A failed delete
is ignored. -/
def moveTag (context : String) (e : CommitId × ℕ) : Retag ρ Unit := do
  env.opens (.openMain e.1)
  let _ ← attempt (env.writes (.deleteTag e.1) "" fun ds => ds.deleteTag e.1)
  env.writes (.createTag e.1) context fun ds => ds.createTag e.1 (some env.rebuildBranch) e.2

def retagCommit (e : CommitId × ℕ) : Retag ρ Unit :=
  env.moveTag "delta-fork retag: create tag failed" e

/-- Whether a tag lives on a rebuild branch of an earlier compaction. -/
def onOlderRebuild (tagBranch : Option BranchName) : Bool :=
  tagBranch.any fun b => isCompactRebuildBranch b && b != env.rebuildBranch

/-- Phase 2b: a boundary tag moves only when it is on an older rebuild branch. -/
def migrateBoundary (e : CommitId × ℕ) : Retag ρ Unit := do
  let contents ← env.reads (.listTags e.1) "tag list for migration check failed" fun ds =>
    .ok (ds.tags.lookup e.1)
  if contents.any fun t => env.onOlderRebuild t.branch then
    env.moveTag "delta-fork boundary migration: create tag failed" e
  else pure ()

def deleteOlderRebuild (b : BranchName) : Retag ρ Unit := do
  env.opens (.openForDelete b)
  let _ ← attempt (env.writes (.deleteBranch b) "" fun ds => ds.deleteBranch b)
  pure ()

def deleteOlderRebuilds : Retag ρ Unit := do
  let allBranches ← env.reads .listBranches "list_branches failed" fun ds => .ok ds.branches.keys
  let olderRebuilds := allBranches.filter fun b => env.onOlderRebuild (some b)
  let _ ← forEach env.deleteOlderRebuild olderRebuilds
  pure ()

def purgeTag (commit : CommitId) : Retag ρ Bool := do
  let r ← attempt (env.writes (.purgeTag commit) "" fun ds => ds.deleteTag commit)
  pure r.isOk

def purgeBranch (b : BranchName) : Retag ρ Bool := do
  env.opens (.openForPurgeBranch b)
  let r ← attempt (env.writes (.purgeBranch b) "" fun ds => ds.deleteBranch b)
  pure r.isOk

/-- Tags on branches that are not among `branches`. -/
def orphanedTags (ds : LanceDataset ρ) (branches : List BranchName) : List CommitId :=
  (ds.tags.entries.filter fun e => e.2.branch.any (· ∉ branches)).map (·.1)

def referencedBranches (ds : LanceDataset ρ) : List BranchName :=
  ds.tags.entries.filterMap fun e => e.2.branch

/-- The main handle is opened only when there is a tag to purge. -/
def purgeTags (orphaned : List CommitId) : Retag ρ (List Bool) :=
  if orphaned.isEmpty then pure []
  else do
    env.opens .openForPurge
    forEach env.purgeTag orphaned

/-- Tags on branches that no longer exist, then rebuild branches without tags, then the
untagged versions of the default branch when anything was removed. -/
def ioCleanupOrphanedTagsAndStaleBranches : Retag ρ Unit := do
  let allBranches ← env.reads .cleanupBranches "list_branches failed" fun ds =>
    .ok ds.branches.keys
  let orphaned ← env.reads .cleanupTags "cleanup: tag list failed" fun ds =>
    .ok (orphanedTags ds allBranches)
  let purgedTags ← env.purgeTags orphaned
  let referenced ← env.reads .cleanupTagsAgain "cleanup: tag list after orphan deletion failed"
    fun ds => .ok (referencedBranches ds)
  let stale := allBranches.filter fun b => isCompactRebuildBranch b && b ∉ referenced
  let purgedBranches ← forEach env.purgeBranch stale
  if purgedTags.any id || purgedBranches.any id then
    let _ ← attempt (env.writes .cleanupVersions "" fun ds => .ok ds.cleanup)
    pure ()
  else pure ()

/-- The cleanup of one dataset when a server starts. An error is logged, and the server starts. -/
def ioCleanupCompactionBranches (ds : LanceDataset ρ) : LanceDataset ρ :=
  (env.ioCleanupOrphanedTagsAndStaleBranches ds).store

/-- Remove the rebuild branch of a failed Phase 1. -/
def dropRebuild : Retag ρ Unit := do
  env.opens .openForDrop
  let _ ← attempt (env.writes .dropRebuild "" fun ds => ds.deleteBranch env.rebuildBranch)
  pure ()

/-- Phases 2 and 2b. -/
def moveTags (plan bounds : List (CommitId × ℕ)) : Retag ρ Unit := do
  let _ ← forEach env.retagCommit plan
  let _ ← forEach env.migrateBoundary bounds
  pure ()

/-- All that follows a completed Phase 1. -/
def phase2 (plan bounds : List (CommitId × ℕ)) : Retag ρ Unit := do
  env.moveTags plan bounds
  env.deleteOlderRebuilds
  let _ ← attempt env.ioCleanupOrphanedTagsAndStaleBranches
  env.opens .refresh

/-- The compaction of more than two commits, the lowest version first. -/
def retagSorted (first : CommitId × ℕ) (rest : List (CommitId × ℕ)) : Retag ρ (ℕ × ℕ) := do
  let total := rest.length + 1
  env.writes .createBranch s!"create_branch '{env.rebuildBranch}' from version {first.2} failed"
    fun ds => ds.createBranch env.rebuildBranch none first.2
  env.opens .openRebuild
  match ← attempt (env.phase1 (boundaryPositions total) first.1 1 rest) with
  | .error e => do
    env.dropRebuild
    fail e
  | .ok (plan, bounds) => do
    env.phase2 plan bounds
    pure (total, plan.length)

/-- The compaction, over an arbitrary way of replaying a delta. -/
def retag : Retag ρ (ℕ × ℕ) := do
  let commitVersions ← env.reads .listCommits "tag list failed" fun ds =>
    .ok (ioListCommitVersions ds)
  if commitVersions.length ≤ 2 then pure (commitVersions.length, 0)
  else match sortByVersion (env.order.run commitVersions) with
    | [] => pure (0, 0)
    | first :: rest => env.retagSorted first rest

end RetagEnv

/-- The replay of the source: scan both snapshots, compute the delta, apply it. -/
def replayDelta {V : Type} (a b : List (ChunkRow V)) : List (BranchWrite (ChunkRow V)) :=
  applyDeltaWrites (computeDelta a b)

def ioRetagWithDeltaForks {V : Type} (epoch : ℕ) (fails : RetagOp → Bool)
    (ftsVersions : CommitId → ℕ) (order : HashOrder (CommitId × ℕ)) :
    Retag (ChunkRow V) (ℕ × ℕ) :=
  RetagEnv.retag ⟨epoch, fails, replayDelta, ftsVersions, order⟩

end Vectorlink
