import Mathlib.Data.List.Sort
import Vectorlink.Layeridx
import Vectorlink.Store.Schema

/-! What the store reads off the commit tags of a dataset. -/
namespace Vectorlink

open Versioned

variable {ρ : Type}

/-- All commits with their tagged versions, as the tag directory lists them. The source collects
them in a hash map, whose order is not specified. -/
def ioListCommitVersions (ds : LanceDataset ρ) : List (CommitId × ℕ) :=
  ds.tags.entries.map fun e => (e.1, e.2.version)

def sortByVersion (commits : List (CommitId × ℕ)) : List (CommitId × ℕ) :=
  commits.insertionSort fun a b => a.2 ≤ b.2

/-- The snapshot a commit tag names, on the branch that owns the version. -/
def ioCheckoutCommitSnapshot (ds : LanceDataset ρ) (commit : CommitId) :
    Except StoreError (List ρ) :=
  match ds.tags.lookup commit with
  | none => .error (.internal s!"commit not indexed: tag '{encodeCommitTag commit}' not found" none)
  | some contents =>
    match contents.branch with
    | none =>
      match ds.main.rows contents.version with
      | some rows => .ok rows
      | none =>
        .error (.internal s!"checkout version {contents.version} failed" (some .versionNotFound))
    | some branch =>
      match ds.branches.lookup branch with
      | none =>
        .error (.internal s!"checkout branch '{branch}' for snapshot failed"
          (some .branchNotFound))
      | some l =>
        match l.rows contents.version with
        | some rows => .ok rows
        | none =>
          .error (.internal s!"checkout version {contents.version} on branch '{branch}' failed"
            (some .versionNotFound))

/-- Whether a tag on `tagBranch` counts for `branch`. The default branch also owns the
tags that compaction moved to rebuild branches. -/
def belongsTo (branch : BranchName) (tagBranch : Option BranchName) : Bool :=
  if tagBranch = wantBranch branch then true
  else if branch = mainBranch then tagBranch.any isCompactRebuildBranch
  else false

/-- The tags of a branch, in listing order. -/
def branchTags (ds : LanceDataset ρ) (branch : BranchName) :
    List (CommitId × TagContents BranchName) :=
  (ds.tags.entries.map fun e => (e.1, e.2)).filter fun e => belongsTo branch e.2.branch

/-- Strictly later in the order of (version, creation time). -/
def tagLater (a b : TagContents BranchName) : Bool :=
  decide (b.version < a.version) || (a.version == b.version && decide (b.createdAt < a.createdAt))

/-- `Iterator::max_by`: of several maxima the last one is returned. -/
def maxTag (tags : List (CommitId × TagContents BranchName)) :
    Option (CommitId × TagContents BranchName) :=
  tags.foldl
    (fun best e =>
      match best with
      | none => some e
      | some x => if tagLater x.2 e.2 then some x else some e) none

def ioDeriveLastIndexed (ds : LanceDataset ρ) (branch : BranchName) : Option (CommitId × ℕ) :=
  (maxTag (branchTags ds branch)).map fun e => (e.1, e.2.version)

def ioCountBranchCommits (ds : LanceDataset ρ) (branch : BranchName) : ℕ :=
  (branchTags ds branch).length

theorem ioCheckoutCommitSnapshot_ok {ds : LanceDataset ρ} {commit : CommitId} {rows : List ρ} :
    ioCheckoutCommitSnapshot ds commit = .ok rows ↔ ds.served commit = some rows := by
  unfold ioCheckoutCommitSnapshot Dataset.served Dataset.rowsAt
  cases ht : ds.tags.lookup commit with
  | none => simp
  | some t =>
    cases hb : t.branch with
    | none => cases hr : ds.main.rows t.version <;> simp [hb, hr]
    | some b =>
      cases hl : ds.branches.lookup b with
      | none => simp [hb, hl]
      | some l => cases hr : l.rows t.version <;> simp [hb, hl, hr]

theorem served_eq_none_of_error {ds : LanceDataset ρ} {commit : CommitId} {e : StoreError}
    (h : ioCheckoutCommitSnapshot ds commit = .error e) : ds.served commit = none := by
  cases hr : ds.served commit with
  | none => rfl
  | some rows =>
    rw [ioCheckoutCommitSnapshot_ok.mpr hr] at h
    cases h

theorem mem_ioListCommitVersions {ds : LanceDataset ρ} {c : CommitId} {v : ℕ} :
    (c, v) ∈ ioListCommitVersions ds ↔ ∃ t, ds.tags.lookup c = some t ∧ t.version = v := by
  simp only [ioListCommitVersions, List.mem_map, Prod.mk.injEq]
  constructor
  · rintro ⟨e, he, rfl, rfl⟩
    exact ⟨e.2, AList.mem_lookup_iff.mpr he, rfl⟩
  · rintro ⟨t, ht, rfl⟩
    exact ⟨⟨c, t⟩, AList.mem_lookup_iff.mp ht, rfl, rfl⟩

theorem nodup_ioListCommitVersions (ds : LanceDataset ρ) :
    ((ioListCommitVersions ds).map Prod.fst).Nodup := by
  have hkeys : (ioListCommitVersions ds).map Prod.fst = ds.tags.keys := by
    simp only [ioListCommitVersions, List.map_map]
    rfl
  rw [hkeys]
  exact ds.tags.nodupKeys

theorem mem_branchTags {ds : LanceDataset ρ} {b : BranchName} {c : CommitId}
    {t : TagContents BranchName} :
    (c, t) ∈ branchTags ds b ↔ ds.tags.lookup c = some t ∧ belongsTo b t.branch := by
  simp only [branchTags, List.mem_filter, List.mem_map, Prod.mk.injEq]
  constructor
  · rintro ⟨⟨e, he, rfl, rfl⟩, hb⟩
    exact ⟨AList.mem_lookup_iff.mpr he, hb⟩
  · rintro ⟨ht, hb⟩
    exact ⟨⟨⟨c, t⟩, AList.mem_lookup_iff.mp ht, rfl, rfl⟩, hb⟩

theorem sortByVersion_perm (commits : List (CommitId × ℕ)) :
    (sortByVersion commits).Perm commits := List.perm_insertionSort _ _

theorem belongsTo_user {branch : BranchName} (h : branch ≠ mainBranch)
    (tagBranch : Option BranchName) :
    belongsTo branch tagBranch = decide (tagBranch = some branch) := by
  simp [belongsTo, wantBranch, h]

theorem belongsTo_main (tagBranch : Option BranchName) :
    belongsTo mainBranch tagBranch =
      (decide (tagBranch = none) || tagBranch.any isCompactRebuildBranch) := by
  cases tagBranch <;> simp [belongsTo, wantBranch]

end Vectorlink
