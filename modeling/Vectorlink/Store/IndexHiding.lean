import Vectorlink.Files.Directory
import Vectorlink.Store.IndexDirs

/-! Version cleanup hides `_indices` from Lance under the name `_indices_backup_fixb` and restores
it afterwards; what a crash in between leaves is restored at startup. -/
namespace Vectorlink

open Stepwise Stepwise.Program Files

inductive CleanupMode where
  | currentCode
  | targetNoPatch
  | targetWithPatch
deriving DecidableEq, Repr

def CleanupMode.hideIndices : CleanupMode → Bool
  | .currentCode => true
  | .targetNoPatch | .targetWithPatch => false

def CleanupMode.disableCleanReferencedBranches : CleanupMode → Bool
  | .currentCode => false
  | .targetNoPatch | .targetWithPatch => true

/-- The two directories of a dataset, each of which may be missing. -/
structure IndexPlaces (κ : Type) where
  indices : Option (Dir κ)
  backup : Option (Dir κ)

/-- The calls of a cleanup. -/
inductive CleanupCall where
  | openDataset
  | listBranches
  | hide
  | policy
  | lance
  | readRecreated
  | entry (name : String)
  | move (name : String)
  | removeRecreated
  | restore
  | prune (name : String)
deriving DecidableEq, Repr

/-- What a cleanup finds. `lance n b d` are the contents that Lance's cleanup, told to retain `n`
versions and whether to clean referenced branches, gives `_indices` one after the other when it
finds `d` there. `pruned` is what the prunings of an aggressive cleanup take away. -/
structure CleanupEnv (κ : Type) where
  baseDir : String
  readOnly : Bool
  present : Bool
  mode : CleanupMode
  branches : List BranchName
  fails : CleanupCall → Bool
  lance : ℕ → Bool → Option (Dir κ) → List (Option (Dir κ))
  pruned : List String

/-- What tells the two cleanups apart. -/
structure CleanupKind where
  retain : ℕ
  hideFailed : String
  policyFailed : String
  restoreFailed : String
  cleanupFailed : String
  prunes : Bool

abbrev Cleanup (κ α : Type) := Program CleanupCall (IndexPlaces κ) StoreError α

namespace CleanupEnv

variable {κ : Type} (env : CleanupEnv κ) (kind : CleanupKind)

def check (call : CleanupCall) (context : String) : Except StoreError Unit :=
  if env.fails call then .error (.internal context (some .io)) else .ok ()

/-- A failed listing counts as none. -/
def hasRebuildBranches : Bool :=
  !env.fails .listBranches && env.branches.any isCompactRebuildBranch

def renames (call : CleanupCall) (context : String)
    (f : IndexPlaces κ → Option (IndexPlaces κ)) : Cleanup κ Unit :=
  step call fun s =>
    if env.fails call then .error (.internal context (some .io))
    else match f s with
      | some t => .ok t
      | none => .error (.internal context (some .io))

/-- Whether `_indices` was hidden. -/
def hide : Cleanup κ Bool := do
  let s ← look .ok
  if env.mode.hideIndices && env.hasRebuildBranches && s.indices.isSome then
    env.renames .hide kind.hideFailed fun s =>
      (renameDir s.indices s.backup).map fun dirs => ⟨dirs.1, dirs.2⟩
    pure true
  else pure false

def cleanupWithPolicy : Cleanup κ Unit := do
  let s ← look .ok
  let _ ← forEach (fun d => step .lance fun s : IndexPlaces κ => .ok { s with indices := d })
    (env.lance kind.retain (!env.mode.disableCleanReferencedBranches) s.indices)
  pure ()

/-- Neither the listing of the entry nor its rename fails. -/
def mayMove (name : String) : Bool := !env.fails (.entry name) && !env.fails (.move name)

/-- A recreated entry joins the hidden ones; a failure is ignored. -/
def moveRecreated (name : String) : Cleanup κ Unit :=
  step (.move name) fun s =>
    match s.indices, s.backup with
    | some recreated, some hidden =>
      let dirs := moveOne env.mayMove (recreated, hidden) name
      .ok ⟨some dirs.1, some dirs.2⟩
    | _, _ => .ok s

/-- `remove_dir`, whose failure is ignored. -/
def removeRecreated : Cleanup κ Unit :=
  step .removeRecreated fun s =>
    .ok (if env.fails .removeRecreated then s
      else match s.indices with
        | some recreated => if recreated.entries.isEmpty then { s with indices := none } else s
        | none => s)

def mergeRecreated (recreated : Dir κ) : Cleanup κ Unit :=
  if env.fails .readRecreated then pure ()
  else do
    let _ ← forEach env.moveRecreated recreated.keys
    pure ()

/-- Whatever Lance has put in the place of `_indices` is cleared away. -/
def clearRecreated : Option (Dir κ) → Cleanup κ Unit
  | none => pure ()
  | some recreated => do
    env.mergeRecreated recreated
    env.removeRecreated

def restore : Cleanup κ Unit := do
  let s ← look .ok
  env.clearRecreated s.indices
  env.renames .restore kind.restoreFailed fun s =>
    (renameDir s.backup s.indices).map fun dirs => ⟨dirs.2, dirs.1⟩

/-- The soft prunings that follow an aggressive cleanup. -/
def prune : Cleanup κ Unit := do
  let _ ← forEach (fun name => step (.prune name) fun s : IndexPlaces κ =>
    .ok { s with indices := s.indices.map fun d => d.erase name }) env.pruned
  pure ()

/-- All that follows the hiding. -/
def cleanupHidden (hid : Bool) : Cleanup κ Unit := do
  look fun _ => env.check .policy kind.policyFailed
  env.cleanupWithPolicy kind
  if hid then env.restore kind else pure ()
  look fun _ => env.check .lance kind.cleanupFailed
  if kind.prunes then env.prune else pure ()

def cleanup : Cleanup κ Unit := do
  look fun _ => ensureWritable env.baseDir env.readOnly
  if env.present then
    look fun _ => env.check .openDataset "dataset open failed"
    let hid ← env.hide kind
    env.cleanupHidden kind hid
  else pure ()

end CleanupEnv

def oldVersions : CleanupKind where
  retain := 3
  hideFailed := "cleanup old: failed to move _indices to backup"
  policyFailed := "cleanup policy build failed"
  restoreFailed := "cleanup old: failed to restore _indices from backup"
  cleanupFailed := "version cleanup failed"
  prunes := false

def aggressive : CleanupKind where
  retain := 1
  hideFailed := "aggressive cleanup: failed to move _indices to backup"
  policyFailed := "aggressive cleanup policy build failed"
  restoreFailed := "aggressive cleanup: failed to restore _indices from backup"
  cleanupFailed := "aggressive cleanup failed"
  prunes := true

section

variable {κ : Type}

def ioCleanupOldVersions (env : CleanupEnv κ) : Cleanup κ Unit := env.cleanup oldVersions

def ioCleanupAggressive (env : CleanupEnv κ) : Cleanup κ Unit := env.cleanup aggressive

/-- The calls of a recovery, each of which may fail. -/
inductive RecoverCall where
  | readBackup
  | item (name : String)
  | move (name : String)
  | removeBackup
  | restore
deriving DecidableEq, Repr

def mayRecover (fails : RecoverCall → Bool) (name : String) : Bool :=
  !fails (.item name) && !fails (.move name)

/-- The recovery of one dataset; failures are logged. -/
def recoverPlaces (fails : RecoverCall → Bool) (s : IndexPlaces κ) : IndexPlaces κ :=
  match s.backup with
  | none => s
  | some backup =>
    match s.indices with
    | some indices =>
      let dirs :=
        if fails .readBackup then (backup, indices)
        else moveAll (mayRecover fails) (backup, indices) backup.keys
      ⟨some dirs.2, if dirs.1.entries.isEmpty && !fails .removeBackup then none else some dirs.1⟩
    | none => if fails .restore then s else ⟨some backup, none⟩

/-- The directories of datasets are those named `*.lance`. -/
def isDatasetDir (e : DirEntry) : Bool := e.listed && extension e.name == some "lance"

def recoverStrandedIndexBackups (unreadable : Bool) (fails : String → RecoverCall → Bool)
    (base : List (DirEntry × IndexPlaces κ)) : List (DirEntry × IndexPlaces κ) :=
  if unreadable then base
  else base.map fun e =>
    if isDatasetDir e.1 then (e.1, recoverPlaces (fails e.1.name) e.2) else e

end

end Vectorlink
