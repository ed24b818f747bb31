import Vectorlink.Service.PipelineRun
import Vectorlink.Store.Branch

/-! How a fork creates its branch: from the tag of the parent or, without one, from the version
that was read as the newest of the default branch. -/
namespace Vectorlink

open Stepwise Stepwise.Program Versioned

variable {V : Type}

section Fork

variable {env : ForkEnv} {b : BranchName} {parent : CommitId} {v : ℕ} {after : Domain V}

/-- How a fork may have come to create its branch: from the tag that the second read found,
or, when there was none, from the version that the fourth read took for the newest. -/
inductive ForkedAt (b : BranchName) (parent : CommitId) (looked read created after : Domain V) :
    Prop
  | tag {ds ds' : LanceDataset (ChunkRow V)} {t : TagContents BranchName} :
      looked.dataset = some ds → ds.tags.lookup parent = some t →
      ds.createBranch b t.branch t.version = .ok ds' →
      after = { looked with dataset := some ds' } → ForkedAt b parent looked read created after
  | main {ds ds' : LanceDataset (ChunkRow V)} {cached : Option ℕ} :
      parent ∉ looked.opened.tags → created.dataset = some ds →
      ds.createBranch b none (read.cached.getD read.opened.main.head) = .ok ds' →
      cached = created.cached.or (some (read.cached.getD read.opened.main.head)) →
      after = { created with dataset := some ds', cached := cached } →
      ForkedAt b parent looked read created after

theorem ioCreateBranchFromTag_ok {d : Domain V}
    (h : env.ioCreateBranchFromTag b parent d = .ok (.created v after)) :
    ∃ ds ds' t, d.dataset = some ds ∧ ds.tags.lookup parent = some t ∧
      ds.createBranch b t.branch t.version = .ok ds' ∧ after = { d with dataset := some ds' } := by
  unfold ForkEnv.ioCreateBranchFromTag at h
  split at h
  · cases h
  · rename_i ds hds
    split at h
    · cases h
    · split at h
      · cases h
      · rename_i t ht
        split at h
        · rename_i ds' hok
          cases h
          exact ⟨ds, ds', t, hds, ht, hok, rfl⟩
        · cases h

theorem createBranch_ne_tagNotFound {ds : LanceDataset (ChunkRow V)} {source : Option BranchName} :
    ds.createBranch b source v ≠ .error .tagNotFound := by
  intro h
  unfold Dataset.createBranch at h
  split at h
  · cases h
  · split at h <;> cases h

/-- The fallback is taken only when the tag is missing. -/
theorem not_mem_tags_of_isRefNotFound {d : Domain V} {e : StoreError}
    (h : env.ioCreateBranchFromTag b parent d = .error e) (he : e.isRefNotFound = true) :
    parent ∉ d.opened.tags := by
  unfold ForkEnv.ioCreateBranchFromTag at h
  split at h
  · rename_i hds
    rw [Domain.opened, hds, ← AList.lookup_eq_none]
    rfl
  · rename_i ds hds
    rw [Domain.opened_of_some hds, ← AList.lookup_eq_none]
    split at h
    · cases h
      cases he
    · split at h
      · assumption
      · split at h
        · cases h
        · rename_i e' hcreate
          cases h
          have htag : e' = .tagNotFound := by
            simpa [StoreError.isRefNotFound] using he
          rw [htag] at hcreate
          exact absurd hcreate createBranch_ne_tagNotFound

theorem forkFromMain_created {checked read created : Domain V} {e : StoreError}
    (h : (env.forkFromMain b e).runOn [checked, read, created] =
      some (.ok (.created v after))) :
    ∃ ds ds' cached, created.dataset = some ds ∧
      ds.createBranch b none (read.cached.getD read.opened.main.head) = .ok ds' ∧
      cached = created.cached.or (some (read.cached.getD read.opened.main.head)) ∧
      after = { created with dataset := some ds', cached := cached } := by
  simp only [ForkEnv.forkFromMain, Observer.runOn] at h
  split at h
  · cases h
  · simp only [Observer.runOn] at h
    split at h
    · cases h
    · simp only [Observer.runOn, Option.some.injEq] at h
      unfold ForkEnv.ioCreateBranch at h
      split at h
      · cases h
      · rename_i ds hds
        split at h
        · cases h
        · split at h
          · rename_i ds' hok
            cases h
            exact ⟨ds, ds', _, hds, hok, rfl, rfl⟩
          · cases h

theorem forkedAt_of_created {listed looked checked read created : Domain V}
    (h : (env.ioEnsureBranchForked b parent).runOn [listed, looked, checked, read, created] =
      some (.ok (.created v after))) : ForkedAt b parent looked read created after := by
  unfold ForkEnv.ioEnsureBranchForked at h
  split at h
  · cases h
  · simp only [Observer.runOn] at h
    split at h
    · cases h
    · split at h
      · cases h
      · simp only [Observer.runOn] at h
        cases hcreate : env.ioCreateBranchFromTag b parent looked with
        | ok outcome =>
          rw [hcreate] at h
          cases h
          obtain ⟨ds, ds', t, hds, ht, hok, hafter⟩ := ioCreateBranchFromTag_ok hcreate
          exact .tag hds ht hok hafter
        | error e =>
          rw [hcreate] at h
          simp only at h
          split at h
          · cases h
          · split at h
            · rename_i hnot
              obtain ⟨ds, ds', cached, hds, hok, hcached, hafter⟩ := forkFromMain_created h
              exact .main (not_mem_tags_of_isRefNotFound hcreate hnot) hds hok hcached hafter
            · cases h

end Fork

end Vectorlink
