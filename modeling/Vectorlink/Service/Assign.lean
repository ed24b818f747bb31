import Vectorlink.Service.Reindex
import Vectorlink.Service.Resolve

/-! Pointing one commit at the version of another. The version number is taken over, the
branch it belongs to is not. -/
namespace Vectorlink

open Stepwise Stepwise.Program Versioned

variable {V : Type}

section Spec

variable {env : StoreEnv} {d : Domain V} {branch : BranchName} {source target : CommitId}

/-- The handle that the tag is created through: `s` has what `d` has, opened or not. -/
def Reopened (d s : Domain V) : Prop := s = d.openReadonly ∨ s = d.openReadonly.openDataset

theorem Reopened.opened {s : Domain V} (h : Reopened d s) : s.opened = d.opened := by
  rcases h with rfl | rfl <;> simp

theorem Reopened.openDataset {s : Domain V} (h : Reopened d s) : Reopened d s.openDataset := by
  rcases h with rfl | rfl
  · exact .inr rfl
  · exact .inr (Domain.openDataset_of_cached (Domain.openDataset_cached_isSome _))

/-- How an assignment that succeeds leaves the domain. -/
def Assigned (d : Domain V) (branch : BranchName) (source target : CommitId) (v : ℕ)
    (s : Domain V) : Prop :=
  ∃ t s', d.opened.tags.lookup source = some t ∧ t.version = v ∧ Reopened d s' ∧
    s'.Taggable branch target v ∧ s = s'.tagged branch target v

theorem lookup_opened_of_some {commit : CommitId} {t : TagContents BranchName}
    (h : (d.dataset.bind fun ds => ds.tags.lookup commit) = some t) :
    d.opened.tags.lookup commit = some t := by
  obtain ⟨ds, hds, ht⟩ := Option.bind_eq_some_iff.mp h
  rw [Domain.opened_of_some hds, ht]

/-- One that fails may have set the tag. -/
theorem ioAssignCommit_spec {E : Domain V → Prop} (hstart : E d)
    (hopen : ∀ s, Reopened d s → E s)
    (htag : ∀ t s, d.opened.tags.lookup source = some t → Reopened d s →
      s.Taggable branch target t.version → E (s.tag branch target t.version)) :
    Spec (fun s => s = d) (env.ioAssignCommit branch source target)
      (Assigned d branch source target) (fun _ => E) (fun _ _ => True) := by
  refine Spec.bind (R := fun found s => s = d.openReadonly ∧
      ∀ v, found = some v → ∃ t, d.opened.tags.lookup source = some t ∧ t.version = v)
    (env.ioResolveCommit_spec (fun s hs => ?_) fun s hs => hs ▸ hstart) fun found =>
      Spec.of_and ?_
  · subst hs
    refine ⟨trivial, rfl, fun v hv => ?_⟩
    obtain ⟨t, ht, hversion⟩ := Option.map_eq_some_iff.mp hv
    exact ⟨t, lookup_opened_of_some ht, hversion⟩
  · intro hfound
    cases found with
    | none => exact Spec.fail fun s hs => hopen s (.inl hs)
    | some v =>
      obtain ⟨t, ht, hversion⟩ := hfound v rfl
      refine Spec.bind (ioTagCommit_spec (P := Reopened d) (fun _ s hs => hs.openDataset)
        (fun _ _ _ => trivial) (fun _ _ _ => trivial) (fun s hs _ => hopen s hs)
        (fun _ s hs htaggable => ?_) |>.pre fun s hs => .inl hs) fun _ => Spec.pure fun s hs => ?_
      · rw [← hversion] at htaggable ⊢
        exact htag t s ht hs htaggable
      · obtain ⟨s', hs', htaggable, rfl⟩ := hs
        exact ⟨t, s', ht, hversion, hs', htaggable, rfl⟩

theorem assigned_of_ok {v : ℕ} (h : (env.ioAssignCommit branch source target d).result = .ok v) :
    Assigned d branch source target v (env.ioAssignCommit branch source target d).store :=
  (ioAssignCommit_spec (E := fun _ => True) trivial (fun _ _ => trivial)
    fun _ _ _ _ _ => trivial).result_ok rfl h

end Spec

section Pointer

/-- The rows that the snapshot of a commit serves. -/
def snapshotRows (ds : LanceDataset (ChunkRow V)) (commit : CommitId) :
    Except StoreError (List (ChunkRow V)) := (ioSnapshotFromCache commit).runAt ds

theorem snapshotRows_ok {ds : LanceDataset (ChunkRow V)} {commit : CommitId}
    {rows : List (ChunkRow V)} :
    snapshotRows ds commit = .ok rows ↔ ds.served commit = some rows := by
  rw [snapshotRows, ioSnapshotFromCache_runAt, ioCheckoutCommitSnapshot_ok]

/-- The target serves what the source serves. -/
def PointsAlike (ds : LanceDataset (ChunkRow V)) (source target : CommitId) : Prop :=
  ∀ rows, snapshotRows ds source = .ok rows →
    ∃ rows', snapshotRows ds target = .ok rows' ∧ rows'.Perm rows

/-- The number of the source's version means the same rows on `branch`: the source is tagged
there, or the two branches agree about it. -/
def SameNumber (ds : LanceDataset (ChunkRow V)) (branch : BranchName) (source : CommitId) : Prop :=
  ∀ t, ds.tags.lookup source = some t → t.branch = wantBranch branch ∨
    ∀ rows rows', ds.rowsAt t.branch t.version = some rows →
      ds.rowsAt (wantBranch branch) t.version = some rows' → rows'.Perm rows

variable {env : StoreEnv} {d : Domain V} {branch : BranchName} {source target : CommitId} {v : ℕ}

/-- What both commits serve after the assignment. -/
theorem Assigned.served {s : Domain V} (h : Assigned d branch source target v s) :
    ∃ t rows', d.opened.tags.lookup source = some t ∧
      s.opened.served source = d.opened.rowsAt t.branch t.version ∧
      d.opened.rowsAt (wantBranch branch) t.version = some rows' ∧
      s.opened.served target = some rows' := by
  obtain ⟨t, s', ht, rfl, hs', htag, rfl⟩ := h
  rw [Domain.tagged_opened htag.1, hs'.opened]
  have hnew := htag.2.1
  have hrows := htag.2.2
  rw [hs'.opened] at hnew hrows
  obtain ⟨rows', hrows'⟩ := Option.isSome_iff_exists.mp hrows
  obtain ⟨l, hl, hlrows⟩ := Option.bind_eq_some_iff.mp hrows'
  have hne : source ≠ target := by
    rintro rfl
    exact hnew (AList.lookup_isSome.mp (by simp [ht]))
  refine ⟨t, rows', ht, ?_, hrows', served_putTag_self hl hlrows⟩
  rw [Dataset.served, Dataset.lookup_putTag, if_neg hne, ht, Option.bind_some,
    Dataset.putTag_rowsAt]

/-- An assignment is a pure pointer exactly when the version number means the same rows on
the branch of the source and on the branch of the request. -/
theorem assign_pointsAlike_iff
    (h : (env.ioAssignCommit branch source target d).result = .ok v) :
    PointsAlike (env.ioAssignCommit branch source target d).store.opened source target ↔
      SameNumber d.opened branch source := by
  obtain ⟨t, rows', ht, hsource, hrows', htarget⟩ := (assigned_of_ok h).served
  unfold PointsAlike SameNumber
  simp only [snapshotRows_ok, hsource, htarget, ht]
  constructor
  · intro hpoints t' ht'
    obtain rfl := Option.some.inj ht'
    refine .inr fun rows rows₁ hrows hrows₁ => ?_
    obtain ⟨rows₂, hrows₂, hperm⟩ := hpoints rows hrows
    obtain rfl := Option.some.inj (hrows₁.symm.trans hrows')
    obtain rfl := Option.some.inj hrows₂
    exact hperm
  · intro hsame rows hrows
    refine ⟨rows', rfl, ?_⟩
    rcases hsame t rfl with hbranch | hagree
    · rw [hbranch, hrows'] at hrows
      rw [Option.some.inj hrows]
    · exact hagree rows rows' hrows hrows'

end Pointer

section Samples

/-- `c0` on the default branch, and the branch `dev` forked from it with its own commit `d1`
at a version number that the default branch then uses for `c1`. -/
def twoBranches : Domain Unit :=
  let first := ((insertA fun _ => false).push mainBranch .fresh).store
  let forked := { first with dataset := first.dataset.map fun ds =>
    ((ds.createBranch "dev" none ds.main.head).toOption).getD ds }
  let insertB : PushRequest Unit := ⟨plainEnv fun _ => false, "d1", [.inserted "b" "new"], .buffered⟩
  let insertTwo : PushRequest Unit :=
    ⟨plainEnv fun _ => false, "c1", [.inserted "c" "new", .inserted "d" "new"], .buffered⟩
  let dev := (insertB.push "dev" forked).store
  (insertTwo.push mainBranch dev).store

theorem assign_pointsAlike_c0 :
    PointsAlike (noFault.ioAssignCommit mainBranch "c0" "t" twoBranches).store.opened "c0" "t" := by
  have hok : (noFault.ioAssignCommit mainBranch "c0" "t" twoBranches).result = .ok 3 := by rfl
  refine (assign_pointsAlike_iff hok).mpr fun t ht => .inl ?_
  have hlookup : (twoBranches.opened.tags.lookup "c0").map (·.branch) = some none := by decide
  rw [ht] at hlookup
  exact Option.some.inj hlookup

/-- `d1` is tagged on `dev`; assigned through the default branch it serves the rows that the
default branch has under that number. -/
theorem assign_not_pointsAlike_d1 :
    (noFault.ioAssignCommit mainBranch "d1" "t" twoBranches).result = .ok 5 ∧
    ¬ PointsAlike (noFault.ioAssignCommit mainBranch "d1" "t" twoBranches).store.opened "d1" "t" := by
  refine ⟨by rfl, fun h => ?_⟩
  have hsource : (((noFault.ioAssignCommit mainBranch "d1" "t" twoBranches).store.opened.served
      "d1").map List.length) = some 2 := by decide
  have htarget : (((noFault.ioAssignCommit mainBranch "d1" "t" twoBranches).store.opened.served
      "t").map List.length) = some 3 := by decide
  obtain ⟨rows, hrows, hlength⟩ := Option.map_eq_some_iff.mp hsource
  obtain ⟨rows', hrows', hperm⟩ := h rows (snapshotRows_ok.mpr hrows)
  rw [snapshotRows_ok.mp hrows', Option.map_some, Option.some.injEq, hperm.length_eq, hlength]
    at htarget
  exact absurd htarget (by decide)

end Samples

end Vectorlink
