import Vectorlink.Concurrent.Runs
import Vectorlink.Store.Commit

/-! Reads and refreshes of one domain around its deletion. Readers take no guard: each step
of an open may fall before, between or after the steps of the delete. -/
namespace Vectorlink

open Concurrent

/-- The reads that open the dataset without creating it. -/
inductive Query where
  | resolve (commit : CommitId)
  | list
  | lastIndexed (branch : BranchName)
deriving DecidableEq

/-- Where a task is. A refresh on behalf of `io_tag_commit` carries the entry that is cached
after it. -/
inductive DomainTask (ρ : Type) where
  | idle
  | checkIndex (branch : BranchName)
  | checkCache (q : Query)
  | checkPath (q : Query)
  | openFresh (q : Query)
  | insertCache (q : Query)
  | listTags (q : Query)
  | insertIndex (branch : BranchName) (entry : BranchIndex)
  | write (ds : LanceDataset ρ) (entry : Option (BranchName × BranchIndex))
  | refreshPath (entry : Option (BranchName × BranchIndex))
  | refreshOpen (entry : Option (BranchName × BranchIndex))
  | replaceCache (entry : Option (BranchName × BranchIndex))
  | cacheIndex (branch : BranchName) (entry : BranchIndex)
  | done

/-- `io_delete_domain` as far as reads can tell. -/
inductive DeleteStage where
  | pending
  | removed
  | cachePurged
  | returned
deriving DecidableEq, Repr

structure DomainState (ι ρ : Type) where
  disk : Option (LanceDataset ρ)
  cached : Bool
  branchIndexes : BranchName → Option BranchIndex
  deletion : DeleteStage
  task : ι → DomainTask ρ

namespace DomainTask

variable {ρ : Type}

/-- The first step of a read, of a write or of a refresh. -/
def entry : DomainTask ρ → Bool
  | .checkIndex _ | .checkCache _ | .write _ _ | .refreshPath none => true
  | _ => false

/-- A handle was opened and is about to be put into the dataset cache. -/
def opened : DomainTask ρ → Bool
  | .insertCache _ | .replaceCache _ => true
  | _ => false

/-- An entry of `branch_indexes` was read off the tags and is about to be put there. -/
def derived : DomainTask ρ → Bool
  | .insertIndex _ _ | .cacheIndex _ _ => true
  | .refreshPath entry | .refreshOpen entry | .replaceCache entry => entry.isSome
  | _ => false

end DomainTask

namespace DomainState

variable {ι ρ : Type}

/-- The commit tags are listed on disk, also through a cached handle. -/
def ioResolveCommit (s : DomainState ι ρ) (commit : CommitId) : Option ℕ :=
  s.disk.bind fun ds => (ds.tags.lookup commit).map (·.version)

def listCommitVersions (s : DomainState ι ρ) : List (CommitId × ℕ) :=
  match s.disk with
  | some ds => ioListCommitVersions ds
  | none => []

def deriveLastIndexed (s : DomainState ι ρ) (branch : BranchName) : Option BranchIndex :=
  s.disk.bind fun ds => (ioDeriveLastIndexed ds branch).map fun e => ⟨some e.1, e.2⟩

def lastIndexed (s : DomainState ι ρ) (branch : BranchName) : BranchIndex :=
  match s.branchIndexes branch with
  | some entry => entry
  | none => (s.deriveLastIndexed branch).getD ⟨none, 0⟩

/-- Nothing of the domain is reported and no handle is cached. -/
structure Gone (s : DomainState ι ρ) : Prop where
  resolve : ∀ commit, s.ioResolveCommit commit = none
  list : s.listCommitVersions = []
  lastIndexed : ∀ branch, s.lastIndexed branch = ⟨none, 0⟩
  cached : s.cached = false

variable [DecidableEq ι]

def goto (s : DomainState ι ρ) (i : ι) (t : DomainTask ρ) : DomainState ι ρ :=
  { s with task := Function.update s.task i t }

def putIndex (s : DomainState ι ρ) (branch : BranchName) (entry : BranchIndex) :
    DomainState ι ρ :=
  { s with branchIndexes := Function.update s.branchIndexes branch (some entry) }

def afterRefresh (entry : Option (BranchName × BranchIndex)) : DomainTask ρ :=
  match entry with
  | some (branch, e) => .cacheIndex branch e
  | none => .done

/-- One step of a task: `io_open_dataset_readonly` and the read it is for,
`io_refresh_cached_dataset`, and the write before it. -/
def advance (s : DomainState ι ρ) (i : ι) : DomainTask ρ → Option (DomainState ι ρ)
  | .checkIndex branch =>
    match s.branchIndexes branch with
    | some _ => s.goto i .done
    | none => s.goto i (.checkCache (.lastIndexed branch))
  | .checkCache q => if s.cached then s.goto i (.listTags q) else s.goto i (.checkPath q)
  | .checkPath q => if s.disk.isSome then s.goto i (.openFresh q) else s.goto i .done
  -- An open of a directory that is gone is an error.
  | .openFresh q => if s.disk.isSome then s.goto i (.insertCache q) else s.goto i .done
  | .insertCache q => { s with cached := true }.goto i (.listTags q)
  | .listTags (.lastIndexed branch) =>
    match s.deriveLastIndexed branch with
    | some entry => s.goto i (.insertIndex branch entry)
    | none => s.goto i .done
  | .listTags _ => s.goto i .done
  -- An entry that another task has put there stays.
  | .insertIndex branch entry =>
    match s.branchIndexes branch with
    | some _ => s.goto i .done
    | none => (s.putIndex branch entry).goto i .done
  -- The delete holds the guard under which datasets are created.
  | .write ds entry =>
    if s.deletion = .pending ∨ s.disk.isSome then
      { s with disk := some ds }.goto i (.refreshPath entry)
    else none
  | .refreshPath entry =>
    if s.disk.isSome then s.goto i (.refreshOpen entry) else s.goto i (afterRefresh entry)
  | .refreshOpen entry => if s.disk.isSome then s.goto i (.replaceCache entry) else s.goto i .done
  | .replaceCache entry => { s with cached := true }.goto i (afterRefresh entry)
  | .cacheIndex branch entry => (s.putIndex branch entry).goto i .done
  | .idle => none
  | .done => none

/-- Remove the directory, purge the dataset cache, purge `branch_indexes`. -/
def deleteStep (s : DomainState ι ρ) : Option (DomainState ι ρ) :=
  match s.deletion with
  | .pending => some { s with disk := none, deletion := .removed }
  | .removed => some { s with cached := false, deletion := .cachePurged }
  | .cachePurged => some { s with branchIndexes := fun _ => none, deletion := .returned }
  | .returned => none

/-- Tasks may fail or be dropped at any of their steps, and the cache may evict the handle. -/
inductive Action (ι ρ : Type) where
  | call (i : ι) (t : DomainTask ρ)
  | advance (i : ι)
  | abort (i : ι)
  | delete
  | evict

def step (s : DomainState ι ρ) : Action ι ρ → Option (DomainState ι ρ)
  | .call i t =>
    match s.task i with
    | .idle => if t.entry then s.goto i t else none
    | _ => none
  | .advance i => s.advance i (s.task i)
  | .abort i => s.goto i .done
  | .delete => s.deleteStep
  | .evict => some { s with cached := false }

/-- The delete purges the dataset cache while no opened handle waits to be put there, and
`branch_indexes` while no entry read off the tags does. -/
def PurgesNothingPending (s : DomainState ι ρ) : Action ι ρ → Prop
  | .delete =>
    (s.deletion = .removed → ∀ i, (s.task i).opened = false) ∧
      (s.deletion = .cachePurged → ∀ i, (s.task i).derived = false)
  | _ => True

/-- What the delete has removed so far stays removed. -/
structure Erased (s : DomainState ι ρ) : Prop where
  disk : s.deletion ≠ .pending → s.disk = none
  cached : s.deletion = .cachePurged ∨ s.deletion = .returned →
    s.cached = false ∧ ∀ i, (s.task i).opened = false
  indexes : s.deletion = .returned →
    s.branchIndexes = (fun _ => none) ∧ ∀ i, (s.task i).derived = false

variable {s s' : DomainState ι ρ} {i : ι} {t : DomainTask ρ}

omit [DecidableEq ι] in
theorem Erased.gone (h : s.Erased) (hret : s.deletion = .returned) : s.Gone := by
  have hdisk : s.disk = none := h.disk (by simp [hret])
  constructor
  · simp [ioResolveCommit, hdisk]
  · simp [listCommitVersions, hdisk]
  · simp [lastIndexed, deriveLastIndexed, (h.indexes hret).1, hdisk]
  · exact (h.cached (.inr hret)).1

omit [DecidableEq ι] in
theorem isSome_of_derive {branch : BranchName} {entry : BranchIndex}
    (h : s.deriveLastIndexed branch = some entry) : s.disk.isSome = true := by
  unfold deriveLastIndexed at h
  obtain ⟨ds, hds, -⟩ := Option.bind_eq_some_iff.mp h
  simp [hds]

/-- A task moves on, puts its handle or its entry into a map, or writes. Handles and entries
come from a dataset on disk. -/
theorem advance_cases (h : s.advance i t = some s') :
    (∃ t', s' = s.goto i t' ∧ (t'.opened = true → s.disk.isSome = true) ∧
      (t'.derived = true → t.derived = true ∨ s.disk.isSome = true)) ∨
    (∃ t', t.opened = true ∧ s' = { s with cached := true }.goto i t' ∧ t'.opened = false ∧
      (t'.derived = true → t.derived = true)) ∨
    (∃ branch e, t.derived = true ∧ s' = (s.putIndex branch e).goto i .done) ∨
    (∃ ds e, (s.deletion = .pending ∨ s.disk.isSome = true) ∧
      s' = { s with disk := some ds }.goto i (.refreshPath e)) := by
  cases t with
  | idle => cases h
  | done => cases h
  | checkIndex branch =>
    left
    simp only [advance] at h
    split at h <;> cases h <;> exact ⟨_, rfl, by simp [DomainTask.opened], by simp [DomainTask.derived]⟩
  | checkCache q =>
    left
    simp only [advance] at h
    split at h <;> cases h <;> exact ⟨_, rfl, by simp [DomainTask.opened], by simp [DomainTask.derived]⟩
  | checkPath q =>
    left
    simp only [advance] at h
    split at h <;> cases h <;> exact ⟨_, rfl, by simp [DomainTask.opened], by simp [DomainTask.derived]⟩
  | openFresh q =>
    left
    simp only [advance] at h
    split at h
    · rename_i hdisk
      cases h
      exact ⟨_, rfl, fun _ => hdisk, by simp [DomainTask.derived]⟩
    · cases h
      exact ⟨_, rfl, by simp [DomainTask.opened], by simp [DomainTask.derived]⟩
  | insertCache q =>
    cases h
    exact .inr (.inl ⟨_, rfl, rfl, rfl, by simp [DomainTask.derived]⟩)
  | listTags q =>
    left
    cases q with
    | lastIndexed branch =>
      simp only [advance] at h
      split at h
      · rename_i e he
        cases h
        exact ⟨_, rfl, by simp [DomainTask.opened], fun _ => .inr (isSome_of_derive he)⟩
      · cases h
        exact ⟨_, rfl, by simp [DomainTask.opened], by simp [DomainTask.derived]⟩
    | resolve c =>
      cases h
      exact ⟨_, rfl, by simp [DomainTask.opened], by simp [DomainTask.derived]⟩
    | list =>
      cases h
      exact ⟨_, rfl, by simp [DomainTask.opened], by simp [DomainTask.derived]⟩
  | insertIndex branch e =>
    simp only [advance] at h
    split at h
    · cases h
      exact .inl ⟨_, rfl, by simp [DomainTask.opened], by simp [DomainTask.derived]⟩
    · cases h
      exact .inr (.inr (.inl ⟨branch, e, rfl, rfl⟩))
  | write ds e =>
    simp only [advance] at h
    split at h
    · rename_i hok
      cases h
      exact .inr (.inr (.inr ⟨ds, e, hok, rfl⟩))
    · cases h
  | refreshPath e =>
    left
    simp only [advance] at h
    split at h
    · rename_i hdisk
      cases h
      exact ⟨_, rfl, by simp [DomainTask.opened], fun _ => .inr hdisk⟩
    · cases h
      cases e with
      | none => exact ⟨_, rfl, by simp [afterRefresh, DomainTask.opened],
          by simp [afterRefresh, DomainTask.derived]⟩
      | some e => exact ⟨_, rfl, by simp [afterRefresh, DomainTask.opened], fun _ => .inl rfl⟩
  | refreshOpen e =>
    left
    simp only [advance] at h
    split at h
    · rename_i hdisk
      cases h
      exact ⟨_, rfl, fun _ => hdisk, fun _ => .inr hdisk⟩
    · cases h
      exact ⟨_, rfl, by simp [DomainTask.opened], by simp [DomainTask.derived]⟩
  | replaceCache e =>
    cases h
    refine .inr (.inl ⟨_, rfl, rfl, ?_, ?_⟩)
    · cases e <;> rfl
    · cases e <;> simp [afterRefresh, DomainTask.derived]
  | cacheIndex branch e =>
    cases h
    exact .inr (.inr (.inl ⟨branch, e, rfl, rfl⟩))

theorem update_eq_false {f : DomainTask ρ → Bool} {t' : DomainTask ρ} (ht' : f t' = false)
    (h : ∀ k, f (s.task k) = false) (k : ι) : f (Function.update s.task i t' k) = false := by
  by_cases hk : k = i
  · rw [hk, Function.update_self]
    exact ht'
  · rw [Function.update_of_ne hk]
    exact h k

/-- A task that brings neither a handle nor an entry after their purge. -/
theorem Erased.goto (h : s.Erased) {t' : DomainTask ρ}
    (hop : s.deletion = .cachePurged ∨ s.deletion = .returned → t'.opened = false)
    (hde : s.deletion = .returned → t'.derived = false) : (s.goto i t').Erased where
  disk := h.disk
  cached hdel := ⟨(h.cached hdel).1, update_eq_false (hop hdel) (h.cached hdel).2⟩
  indexes hdel := ⟨(h.indexes hdel).1, update_eq_false (hde hdel) (h.indexes hdel).2⟩

theorem Erased.advance (h : s.Erased) (hstep : s.advance i (s.task i) = some s') : s'.Erased := by
  have hpending : s.disk.isSome = true → s.deletion = .pending := by
    intro hdisk
    by_contra hdel
    rw [h.disk hdel] at hdisk
    cases hdisk
  rcases advance_cases hstep with ⟨t', rfl, hop, hde⟩ | ⟨t', hop, rfl, hop', hde⟩ |
    ⟨branch, e, hde, rfl⟩ | ⟨ds, e, hok, rfl⟩
  · refine h.goto (fun hdel => ?_) (fun hdel => ?_)
    · by_contra hne
      have hd := hpending (hop (by simpa using hne))
      simp [hd] at hdel
    · by_contra hne
      rcases hde (by simpa using hne) with hold | hdisk
      · rw [(h.indexes hdel).2 i] at hold
        cases hold
      · rw [hpending hdisk] at hdel
        cases hdel
  · -- An insert into the dataset cache comes before its purge.
    have hcached : ¬ (s.deletion = .cachePurged ∨ s.deletion = .returned) := by
      intro hdel
      rw [(h.cached hdel).2 i] at hop
      cases hop
    have hput : Erased { s with cached := true } :=
      ⟨h.disk, fun hdel => absurd hdel hcached, h.indexes⟩
    exact hput.goto (fun _ => hop') fun hdel => absurd (.inr hdel) hcached
  · have hret : s.deletion ≠ .returned := by
      intro hdel
      rw [(h.indexes hdel).2 i] at hde
      cases hde
    have hput : (s.putIndex branch e).Erased :=
      ⟨h.disk, h.cached, fun hdel => absurd hdel hret⟩
    exact hput.goto (fun _ => rfl) fun _ => rfl
  · have hdel : s.deletion = .pending := hok.elim id hpending
    constructor <;> intro hne <;> simp [DomainState.goto, hdel] at hne

omit [DecidableEq ι] in
theorem Erased.deleteStep (h : s.Erased) (hcond : s.PurgesNothingPending .delete)
    (hstep : s.deleteStep = some s') : s'.Erased := by
  unfold DomainState.deleteStep at hstep
  cases hdel : s.deletion with
  | pending =>
    simp only [hdel, Option.some.injEq] at hstep
    subst hstep
    exact ⟨fun _ => rfl, by simp, by simp⟩
  | removed =>
    simp only [hdel, Option.some.injEq] at hstep
    subst hstep
    exact ⟨fun _ => h.disk (by simp [hdel]), fun _ => ⟨rfl, hcond.1 hdel⟩, by simp⟩
  | cachePurged =>
    simp only [hdel, Option.some.injEq] at hstep
    subst hstep
    exact ⟨fun _ => h.disk (by simp [hdel]), fun _ => h.cached (.inl hdel),
      fun _ => ⟨rfl, hcond.2 hdel⟩⟩
  | returned => simp [hdel] at hstep

theorem Erased.step (h : s.Erased) {a : Action ι ρ} (hcond : s.PurgesNothingPending a)
    (hstep : s.step a = some s') : s'.Erased := by
  cases a with
  | call i t =>
    simp only [DomainState.step] at hstep
    split at hstep
    · split at hstep
      · rename_i hentry
        cases hstep
        refine h.goto (fun _ => ?_) (fun _ => ?_) <;>
          cases t <;> grind [DomainTask.entry, DomainTask.opened, DomainTask.derived]
      · cases hstep
    · cases hstep
  | advance i => exact h.advance hstep
  | abort i =>
    cases hstep
    exact h.goto (fun _ => rfl) (fun _ => rfl)
  | delete => exact h.deleteStep hcond hstep
  | evict =>
    cases hstep
    exact ⟨h.disk, fun hdel => ⟨rfl, (h.cached hdel).2⟩, h.indexes⟩

/-- Before the delete: any dataset on disk, cached or not, with any cached entries. -/
def before (disk : Option (LanceDataset ρ)) (cached : Bool)
    (branchIndexes : BranchName → Option BranchIndex) : DomainState ι ρ :=
  ⟨disk, cached, branchIndexes, .pending, fun _ => .idle⟩

/-- If nothing opened or derived before the removal is still to be inserted when the delete
purges the maps, then after the delete nothing of the domain is reported or cached. -/
theorem deleted_stays_gone {disk : Option (LanceDataset ρ)} {cached : Bool}
    {branchIndexes : BranchName → Option BranchIndex}
    (h : Reaches step PurgesNothingPending
      (before disk cached branchIndexes : DomainState ι ρ) s) :
    s.deletion = .returned → s.Gone := by
  have herased : s.Erased := by
    refine h.invariant (I := Erased) ?_ fun t a u ht hC hstep => ht.step hC hstep
    constructor <;> simp [before]
  exact herased.gone

/-- A dataset with one commit on the default branch. -/
def indexedOnce : LanceDataset Unit := Versioned.Dataset.create.putTag "c" none 1

/-- A read of the last-indexed commit up to the entry it found on disk. -/
def readToEntry (i : ι) : List (Action ι Unit) :=
  .call i (.checkIndex mainBranch) :: List.replicate 3 (.advance i)

theorem deleted_stays_gone_afterRead : ∃ s : DomainState (Fin 1) Unit,
    Reaches step PurgesNothingPending (before (some indexedOnce) true fun _ => none) s ∧
      s.deletion = .returned ∧ s.Gone := by
  have hallowed : Allowed step PurgesNothingPending
      (before (some indexedOnce) true fun _ => none : DomainState (Fin 1) Unit)
      (readToEntry 0 ++ [.advance 0, .delete, .delete, .delete]) := by
    refine ⟨trivial, trivial, trivial, trivial, trivial, ?_, ?_, ?_, trivial⟩ <;>
    · constructor
      · intro _
        decide
      · intro _
        decide
  have hreach := Reaches.of_exec hallowed rfl
  exact ⟨_, hreach, by decide, deleted_stays_gone hreach (by decide)⟩

theorem deleted_reported_again :
    ¬ ∀ s : DomainState ℕ Unit, Reaches step (fun _ _ => True)
      (before (some indexedOnce) true fun _ => none) s → s.deletion = .returned → s.Gone := by
  intro h
  obtain ⟨s, hs⟩ : ∃ s, exec step (before (some indexedOnce) true fun _ => none)
      (readToEntry 0 ++ [.delete, .delete, .delete, .advance 0]) = some s := ⟨_, rfl⟩
  have hend : (exec step (before (some indexedOnce) true fun _ => none)
      (readToEntry 0 ++ [.delete, .delete, .delete, .advance 0])).map
        (fun s => (s.deletion, s.lastIndexed mainBranch)) =
      some (.returned, ⟨some "c", 1⟩) := by decide
  rw [hs] at hend
  simp only [Option.map_some, Option.some.injEq, Prod.mk.injEq] at hend
  have hgone := (h s (.of_exec (allowed_true _) hs) hend.1).lastIndexed mainBranch
  rw [hend.2] at hgone
  cases hgone

end DomainState
end Vectorlink
