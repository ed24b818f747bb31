import Vectorlink.Stepwise.Observer
import Vectorlink.Store.Domain

/-! Forking a branch. The fork holds the lock of the new branch only, so the steps of a push
to the default branch may fall between any two of its reads. -/
namespace Vectorlink

open Stepwise Versioned

variable {V : Type}

/-- The calls of a fork that open the dataset. -/
inductive ForkCall where
  | listBranches
  | createFromTag
  | headVersion
  | createBranch
deriving DecidableEq, Repr

/-- `created` carries the domain right after the branch was created. -/
inductive ForkOutcome (V : Type) where
  | alreadyExists
  | created (parentVersion : ℕ) (after : Domain V)

/-- One fork: the domain it names in its messages and which of its calls fail. -/
structure ForkEnv where
  domain : String
  fails : ForkCall → Bool

/-- The create found the branch there already. -/
def StoreError.isAlreadyExists : StoreError → Bool
  | .internal _ cause => decide (cause = some .branchExists)
  | .readOnly _ => false

/-- The tag is missing, or (with no cause) the whole dataset: both texts say that something
does not exist. -/
def StoreError.isRefNotFound : StoreError → Bool
  | .internal _ cause => decide (cause = some .tagNotFound ∨ cause = none)
  | .readOnly _ => false

namespace ForkEnv

variable (env : ForkEnv)

def openFailed : StoreError := .internal "dataset open failed" (some .io)

def datasetAbsent : StoreError :=
  .internal s!"cannot branch domain '{env.domain}': dataset does not exist (index the parent first)"
    none

/-- Create the branch at the version a commit tag names, on the branch that owns it. -/
def ioCreateBranchFromTag (branch : BranchName) (commit : CommitId) (d : Domain V) :
    Except StoreError (ForkOutcome V) :=
  match d.dataset with
  | none => .error env.datasetAbsent
  | some ds =>
    if env.fails .createFromTag then .error openFailed
    else match ds.tags.lookup commit with
      | none => .error (.internal
          s!"create_branch '{branch}' from tag '{encodeCommitTag commit}' failed"
          (some .tagNotFound))
      | some t =>
        match ds.createBranch branch t.branch t.version with
        | .ok ds' => .ok (.created t.version { d with dataset := some ds' })
        | .error e => .error (.internal
            s!"create_branch '{branch}' from tag '{encodeCommitTag commit}' failed" (some e))

/-- Create the branch at a version of the default branch. The handle that was opened to read
that version stays cached. -/
def ioCreateBranch (branch : BranchName) (fromVersion : ℕ) (d : Domain V) :
    Except StoreError (ForkOutcome V) :=
  match d.dataset with
  | none => .error env.datasetAbsent
  | some ds =>
    if env.fails .createBranch then .error openFailed
    else match ds.createBranch branch none fromVersion with
      | .ok ds' => .ok (.created fromVersion
          { d with dataset := some ds', cached := d.cached.or (some fromVersion) })
      | .error e => .error (.internal
          s!"create_branch '{branch}' from version {fromVersion} failed" (some e))

/-- Fork from the version of the cached handle of the default branch, if the dataset is
there at all. -/
def forkFromMain (branch : BranchName) (notFound : StoreError) :
    Observer (Domain V) (Except StoreError (ForkOutcome V)) :=
  .look fun d =>
    if d.dataset.isNone then .done (.error notFound)
    else .look fun d =>
      if d.cached.isNone && env.fails .headVersion then .done (.error openFailed)
      else .look fun d' => .done
        (env.ioCreateBranch branch (d.cached.getD d.opened.main.head) d')

def ioEnsureBranchForked (branch : BranchName) (parentCommit : CommitId) :
    Observer (Domain V) (Except StoreError (ForkOutcome V)) :=
  if branch = mainBranch then .done (.ok .alreadyExists)
  else .look fun d =>
    if d.dataset.isSome && env.fails .listBranches then .done (.error openFailed)
    else if d.dataset.any fun ds => decide (branch ∈ ds.branches) then
      .done (.ok .alreadyExists)
    else .look fun d =>
      match env.ioCreateBranchFromTag branch parentCommit d with
      | .ok outcome => .done (.ok outcome)
      | .error e =>
        if e.isAlreadyExists then .done (.ok .alreadyExists)
        else if e.isRefNotFound then env.forkFromMain branch e
        else .done (.error e)

end ForkEnv

end Vectorlink
