import Vectorlink.Stepwise.Observer
import Vectorlink.Store.Commit

/-! How a search request finds the snapshot it is served from. Readers take no lock: each
read of the dataset may fall between any two steps of a writer. -/
namespace Vectorlink

open Stepwise Versioned

variable {ρ : Type}

/-- `store.last_indexed`: the cached entry of the branch, else the durable tags. -/
def branchHasIndexedLineage (branch : BranchName) (cached : Option BranchIndex) :
    Observer (LanceDataset ρ) Bool :=
  match cached with
  | some bi => .done bi.commit.isSome
  | none => .look fun ds => .done (ioDeriveLastIndexed ds branch).isSome

/-- The commit itself when it is tagged, else the nearest tagged ancestor. -/
def resolveSearchableCommit (branch : BranchName) (requestedCommit : CommitId)
    (ancestors : List CommitId) (cached : Option BranchIndex) :
    Observer (LanceDataset ρ) (Except ServiceError CommitId) :=
  .look fun ds =>
    let commitVersions := ds.tags
    if requestedCommit ∈ commitVersions then .done (.ok requestedCommit)
    else (branchHasIndexedLineage branch cached).bind fun lineage =>
      if lineage then
        match resolveNearestLayer requestedCommit ancestors
            fun c => (commitVersions.lookup c).map (·.version) with
        | .exact commit _ => .done (.ok commit)
        | .ancestor servedCommit _ => .done (.ok servedCommit)
        | .none => .done (.error (.notFound
            s!"no indexed ancestor for commit {requestedCommit} on branch {branch} within the supplied window"))
      else .done (.error (.notFound
        s!"no indexed lineage for branch {branch} (commit {requestedCommit})"))

/-- The tag list, then the branch, then the version on it. -/
def ioSnapshotFromCache (commit : CommitId) :
    Observer (LanceDataset ρ) (Except StoreError (List ρ)) :=
  .look fun ds =>
    match ds.tags.lookup commit with
    | none => .done (.error
        (.internal s!"commit not indexed: tag '{encodeCommitTag commit}' not found" none))
    | some contents =>
      match contents.branch with
      | none => .look fun ds => .done
          (match ds.main.rows contents.version with
          | some rows => .ok rows
          | none => .error
              (.internal s!"checkout version {contents.version} failed" (some .versionNotFound)))
      | some branch => .look fun ds =>
          match ds.branches.lookup branch with
          | none => .done (.error (.internal s!"checkout branch '{branch}' for snapshot failed"
              (some .branchNotFound)))
          | some _ => .look fun ds => .done
              (match ds.rowsAt (some branch) contents.version with
              | some rows => .ok rows
              | none => .error (.internal
                  s!"checkout version {contents.version} on branch '{branch}' failed"
                  (some .versionNotFound)))

/-- A request: the commit it is served at and the rows of its snapshot. -/
def serveRequest (branch : BranchName) (requestedCommit : CommitId) (ancestors : List CommitId)
    (cached : Option BranchIndex) :
    Observer (LanceDataset ρ) (Except ServiceError (CommitId × List ρ)) :=
  (resolveSearchableCommit branch requestedCommit ancestors cached).bind fun
    | .error e => .done (.error e)
    | .ok servedCommit => (ioSnapshotFromCache servedCommit).bind fun
      | .error e => .done (.error (.internal e.text))
      | .ok rows => .done (.ok (servedCommit, rows))

/-- The answer is a snapshot of the commit that was asked for. -/
def ServedAt (c : CommitId) (answer : Except ServiceError (CommitId × List ρ)) : Prop :=
  ∃ rows, answer = .ok (c, rows)

section Within

open Dataset

variable {c : CommitId} {t : TagContents BranchName} {r : List ρ}

theorem resolveSearchableCommit_within (branch : BranchName) (ancestors : List CommitId)
    (cached : Option BranchIndex) :
    (resolveSearchableCommit branch c ancestors cached).Within (Home c t r) (· = .ok c) := by
  intro s hs
  have hmem : c ∈ s.tags := AList.lookup_isSome.mp (by simp [hs.1])
  simp only [hmem, if_true]
  rfl

theorem ioSnapshotFromCache_within : (ioSnapshotFromCache c).Within (Home c t r) (· = .ok r) := by
  intro s hs
  have hrow : ∀ s : LanceDataset ρ, Home c t r s → s.rowsAt t.branch t.version = some r :=
    fun s hs => hs.2
  simp only [hs.1]
  cases hb : t.branch with
  | none =>
    intro s' hs'
    have hmain : s'.main.rows t.version = some r := by simpa [hb, Dataset.rowsAt] using hs'.2
    simp only [hmain]
    rfl
  | some b =>
    intro s' hs'
    obtain ⟨l, hl⟩ := Option.isSome_iff_exists.mp (AList.lookup_isSome.mpr (hs'.mem_branches hb))
    simp only [hl]
    intro s'' hs''
    have hbranch := hrow s'' hs''
    rw [hb] at hbranch
    simp only [hbranch]
    rfl

/-- While the tag and its version stay in place, the request is served at its commit. -/
theorem serveRequest_within (branch : BranchName) (ancestors : List CommitId)
    (cached : Option BranchIndex) :
    (serveRequest branch c ancestors cached).Within (Home c t r) (ServedAt c) := by
  refine Observer.Within.bind _ (fun a ha => ?_) _
    (resolveSearchableCommit_within branch ancestors cached)
  subst ha
  refine Observer.Within.bind _ (fun a ha => ?_) _ ioSnapshotFromCache_within
  subst ha
  exact ⟨r, rfl⟩

end Within

theorem ioSnapshotFromCache_runAt (s : LanceDataset ρ) (c : CommitId) :
    (ioSnapshotFromCache c).runAt s = ioCheckoutCommitSnapshot s c := by
  simp only [ioSnapshotFromCache, ioCheckoutCommitSnapshot, Observer.runAt]
  cases ht : s.tags.lookup c with
  | none => rfl
  | some t =>
    cases hb : t.branch with
    | none => cases hr : s.main.rows t.version <;> simp [hb, hr, Observer.runAt]
    | some b =>
      cases hl : s.branches.lookup b with
      | none => simp [hb, hl, Observer.runAt]
      | some l => cases hr : l.rows t.version <;> simp [hb, hl, hr, Observer.runAt, Dataset.rowsAt]

/-- A request whose reads all see a store without that snapshot is not served at its commit. -/
theorem not_servedAt_runAt {s : LanceDataset ρ} {c : CommitId} (h : s.served c = none)
    (branch : BranchName) (ancestors : List CommitId) (cached : Option BranchIndex) :
    ¬ ServedAt c ((serveRequest branch c ancestors cached).runAt s) := by
  rintro ⟨rows, hrows⟩
  unfold serveRequest at hrows
  rw [Observer.runAt_bind] at hrows
  cases hres : (resolveSearchableCommit branch c ancestors cached).runAt s with
  | error e =>
    rw [hres] at hrows
    cases hrows
  | ok c' =>
    rw [hres] at hrows
    simp only [Observer.runAt_bind, ioSnapshotFromCache_runAt] at hrows
    cases hsnap : ioCheckoutCommitSnapshot s c' with
    | error e =>
      rw [hsnap] at hrows
      cases hrows
    | ok rows' =>
      rw [hsnap] at hrows
      obtain ⟨rfl, rfl⟩ := Prod.mk.inj (Except.ok.inj hrows)
      rw [ioCheckoutCommitSnapshot_ok, h] at hsnap
      cases hsnap

end Vectorlink
