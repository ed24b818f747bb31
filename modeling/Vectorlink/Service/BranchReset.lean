import Vectorlink.Service.Erasure
import Vectorlink.Service.PipelineRun
import Vectorlink.Store.LastIndexed

/-! What a reset of a branch index leaves: the readers count the tags on rebuild branches as
tags of the default branch, the reset does not. -/
namespace Vectorlink

open Stepwise Stepwise.Program Versioned

variable {V : Type}

/-- Check that the commit is absent and reserve it: `false` is answered with a 409. -/
def Footprint.ioTryReserveCommit (fp : Footprint V) (env : StoreEnv) (branch : BranchName)
    (commit : CommitId) : Except StoreError Bool × Footprint V :=
  if fp.inflightCommits.contains (branch, commit) then (.ok false, fp)
  else
    let o := env.ioResolveCommit .resolve commit fp.domain
    match o.result with
    | .error e => (.error e, { fp with domain := o.store })
    | .ok (some _) => (.ok false, { fp with domain := o.store })
    | .ok none =>
      (.ok true, { fp with
        domain := o.store
        inflightCommits := (branch, commit) :: fp.inflightCommits })

/-- The names that requests may use: those of rebuild branches are refused. -/
def RequestBranch (b : BranchName) : Prop := isCompactRebuildBranch b = false

theorem requestBranch_main : RequestBranch mainBranch := by
  unfold RequestBranch
  decide

/-- The index of `b` is gone, and nothing else. -/
structure ResetComplete (b : BranchName) (before after : Footprint V) : Prop where
  underived : ioDeriveLastIndexed after.domain.opened b = none
  uncounted : ioCountBranchCommits after.domain.opened b = 0
  reservable : ∀ e ∈ branchTags before.domain.opened b, ∀ env : StoreEnv,
    env.fails .resolve = false → (after.ioTryReserveCommit env b e.1).1 = .ok true
  others : ∀ b', RequestBranch b' → b' ≠ b → ∀ e,
    e ∈ branchTags after.domain.opened b' ↔ e ∈ branchTags before.domain.opened b'

section Tags

variable {env : StoreEnv} {d : Domain V} {b : BranchName} {fp : Footprint V}

/-- The tags of `d` without those in `gone`. -/
def Without (d : Domain V) (gone : List CommitId) (s : Domain V) : Prop :=
  ∀ c, s.opened.tags.lookup c = if c ∈ gone then none else d.opened.tags.lookup c

theorem mem_tagsToDelete {c : CommitId} :
    c ∈ StoreEnv.tagsToDelete d b ↔
      ∃ t, d.opened.tags.lookup c = some t ∧ t.branch = wantBranch b := by
  unfold StoreEnv.tagsToDelete
  cases hds : d.dataset with
  | none =>
    have hnone : d.opened.tags.lookup c = none := by
      simp only [Domain.opened, hds]
      rfl
    simp [hnone]
  | some ds =>
    rw [Domain.opened_of_some hds]
    simp only [List.mem_map, List.mem_filter, decide_eq_true_eq]
    constructor
    · rintro ⟨e, ⟨he, hb⟩, rfl⟩
      exact ⟨e.2, AList.mem_lookup_iff.mpr he, hb⟩
    · rintro ⟨t, ht, hb⟩
      exact ⟨⟨c, t⟩, ⟨AList.mem_lookup_iff.mp ht, hb⟩, rfl⟩

theorem Without.deleteTag {s : Domain V} {gone : List CommitId} {c : CommitId}
    {ds ds' : LanceDataset (ChunkRow V)} (h : Without d gone s) (hds : s.dataset = some ds)
    (hdelete : ds.deleteTag c = .ok ds') :
    Without d (c :: gone) { s with dataset := some ds' } := by
  obtain ⟨-, rfl⟩ := Dataset.deleteTag_ok.mp hdelete
  intro c'
  have hlookup := h c'
  rw [Domain.opened_of_some hds] at hlookup
  rw [Domain.opened_of_some rfl, Dataset.lookup_dropTag, hlookup]
  by_cases hc : c' = c
  · simp [hc]
  · simp [hc]

/-- The delete loop: every commit of the list loses its tag, the others keep theirs. -/
theorem deleteTags_spec (commits : List CommitId) :
    Spec (Without d []) (forEach (fun commit =>
        env.onDataset (.resetTag commit) "tag delete failed" fun ds => ds.deleteTag commit) commits)
      (fun _ => Without d commits) (fun _ _ => True) (fun _ _ => True) := by
  -- the invariant: what is no longer to be deleted has been deleted
  have hloop := Spec.forEach
    (I := fun rest s => ∃ gone, (∀ c, c ∈ gone ∨ c ∈ rest ↔ c ∈ commits) ∧ Without d gone s)
    (f := fun commit => env.onDataset (.resetTag commit) "tag delete failed"
      fun ds => ds.deleteTag commit)
    (E := fun _ _ => True) (T := fun _ _ => True) (fun c rest => ?_) commits
  · refine Spec.weaken hloop (fun s hs => ⟨[], by simp, hs⟩) (fun _ s hs => ?_) (fun _ _ _ => trivial)
      fun _ _ _ => trivial
    obtain ⟨gone, hgone, hs⟩ := hs
    intro c
    have hc : c ∈ gone ↔ c ∈ commits := by simpa using hgone c
    rw [hs c]
    simp only [hc]
  · refine env.onDataset_spec (fun s ds ds' hs hds hdelete => ⟨trivial, ?_⟩) fun _ _ _ => trivial
    obtain ⟨gone, hgone, hs⟩ := hs
    refine ⟨c :: gone, fun c' => ?_, hs.deleteTag hds hdelete⟩
    rw [← hgone c']
    simp only [List.mem_cons]
    tauto

/-- A reset that succeeds takes away the tags recorded on the branch itself. -/
theorem ioDeleteBranchIndex_tags
    (h : (env.ioDeleteBranchIndex b d).result = .ok ()) :
    Without d (StoreEnv.tagsToDelete d b) (env.ioDeleteBranchIndex b d).store := by
  have hspec : Spec (fun s => s = d) (env.ioDeleteBranchIndex b)
      (fun _ => Without d (StoreEnv.tagsToDelete d b)) (fun _ _ => True) (fun _ _ => True) := by
    refine Spec.bind (R := fun _ s => s = d.openReadonly) (Spec.step fun s hs => ?_) fun _ => ?_
    · subst hs
      split
      · rename_i hok
        split at hok
        · cases hok
        · exact ⟨trivial, (Except.ok.inj hok).symm⟩
      · trivial
    refine Spec.bind (R := fun commits s => Without d [] s ∧ commits = StoreEnv.tagsToDelete d b)
      (Spec.look fun s hs => ?_) fun commits => Spec.of_and fun hcommits => ?_
    · subst hs
      refine ⟨fun c => by simp, ?_⟩
      unfold StoreEnv.tagsToDelete
      rw [Domain.openReadonly_dataset]
    · subst hcommits
      refine Spec.bind (deleteTags_spec _) fun _ => Spec.step fun s hs => ⟨trivial, ?_⟩
      exact hs
  exact hspec.result_ok rfl h

end Tags

section Complete

variable {env : StoreEnv} {b : BranchName} {fp : Footprint V}

/-- No tag on a rebuild branch is at stake: neither is the default branch reset, which owns
all of them, nor the rebuild branch itself. -/
def NoMovedTags (b : BranchName) (ds : LanceDataset (ChunkRow V)) : Prop :=
  ∀ c t r, ds.tags.lookup c = some t → t.branch = some r → isCompactRebuildBranch r = true →
    b ≠ mainBranch ∧ b ≠ r

theorem ioCountBranchCommits_eq_zero {ds : LanceDataset (ChunkRow V)} :
    ioCountBranchCommits ds b = 0 ↔
      ∀ c t, ds.tags.lookup c = some t → belongsTo b t.branch = false := by
  rw [ioCountBranchCommits, List.length_eq_zero_iff, List.eq_nil_iff_forall_not_mem]
  simp only [Prod.forall, mem_branchTags, not_and, Bool.not_eq_true]

/-- Only the reset branch itself and, for a rebuild branch, the default branch own a tag
recorded on `b`. -/
theorem belongsTo_wantBranch {b' : BranchName} (huser : RequestBranch b') (hne : b' ≠ b)
    (h : belongsTo b' (wantBranch b) = true) : b' = mainBranch ∧ isCompactRebuildBranch b = true := by
  unfold wantBranch at h
  by_cases hmain : b' = mainBranch
  · subst hmain
    rw [if_neg (Ne.symm hne), belongsTo_main] at h
    exact ⟨rfl, by simpa using h⟩
  · rw [belongsTo_user hmain] at h
    split at h
    · simp at h
    · rw [decide_eq_true_eq, Option.some.injEq] at h
      exact absurd h.symm hne

/-- A tag that counts for `b` and is not recorded on it is on a rebuild branch. -/
theorem rebuild_of_belongsTo {tagBranch : Option BranchName} (h : belongsTo b tagBranch = true)
    (hne : tagBranch ≠ wantBranch b) :
    b = mainBranch ∧ ∃ r, tagBranch = some r ∧ isCompactRebuildBranch r = true := by
  unfold belongsTo at h
  rw [if_neg hne] at h
  split at h
  · rename_i hb
    exact ⟨hb, (Option.any_eq_true _ _).mp h⟩
  · cases h

theorem ioTryReserveCommit_absent {env : StoreEnv} {commit : CommitId}
    (hinflight : (b, commit) ∉ fp.inflightCommits) (hresolve : env.fails .resolve = false)
    (htag : fp.domain.opened.tags.lookup commit = none) :
    (fp.ioTryReserveCommit env b commit).1 = .ok true := by
  have hlookup : (env.ioResolveCommit .resolve commit fp.domain).result = .ok none := by
    have hnone : fp.domain.dataset.bind (fun ds => (ds.tags.lookup commit).map (·.version)) =
        none := by
      cases hds : fp.domain.dataset with
      | none => rfl
      | some ds =>
        rw [Domain.opened_of_some hds] at htag
        simp [htag]
    have hspec : Spec (fun s => s = fp.domain) (env.ioResolveCommit .resolve commit)
        (fun v _ => v = none) (fun _ _ => False) (fun _ _ => True) := by
      refine Spec.bind (R := fun _ s => s = fp.domain.openReadonly) (Spec.step fun s hs => ?_)
        fun _ => Spec.look fun s hs => ?_
      · subst hs
        simp [hresolve]
      · subst hs
        rw [Domain.openReadonly_dataset]
        exact hnone
    have hend := (hspec fp.domain rfl).2
    cases hr : (env.ioResolveCommit .resolve commit fp.domain).result with
    | error e =>
      rw [hr] at hend
      exact hend.elim
    | ok v =>
      rw [hr] at hend
      exact congrArg _ hend
  have hfree : fp.inflightCommits.contains (b, commit) = false := by simpa using hinflight
  simp only [Footprint.ioTryReserveCommit, hfree, Bool.false_eq_true, if_false, hlookup]

theorem ioDeleteBranchIndex_reset (h : (fp.ioDeleteBranchIndex env b).1 = .reset (.ok ())) :
    (env.ioDeleteBranchIndex b fp.domain).result = .ok () ∧
      (fp.ioDeleteBranchIndex env b).2.domain = (env.ioDeleteBranchIndex b fp.domain).store ∧
      ∀ commit, (b, commit) ∉ (fp.ioDeleteBranchIndex env b).2.inflightCommits := by
  unfold Footprint.ioDeleteBranchIndex at h ⊢
  cases hr : (env.ioDeleteBranchIndex b fp.domain).result with
  | error e =>
    simp only [hr] at h
    cases h
  | ok u =>
    simp [hr]

/-- The tags that a reset leaves. -/
theorem lookup_reset_iff (hok : (fp.ioDeleteBranchIndex env b).1 = .reset (.ok ())) (c : CommitId)
    (t : TagContents BranchName) :
    (fp.ioDeleteBranchIndex env b).2.domain.opened.tags.lookup c = some t ↔
      fp.domain.opened.tags.lookup c = some t ∧ t.branch ≠ wantBranch b := by
  obtain ⟨hresult, hdomain, _⟩ := ioDeleteBranchIndex_reset hok
  have htags := ioDeleteBranchIndex_tags hresult
  rw [← hdomain] at htags
  rw [htags c]
  constructor
  · intro ht
    split at ht
    · cases ht
    · next hnot => exact ⟨ht, fun hb => hnot (mem_tagsToDelete.mpr ⟨t, ht, hb⟩)⟩
  · rintro ⟨ht, hne⟩
    rw [if_neg, ht]
    rw [mem_tagsToDelete]
    rintro ⟨t', ht', hb⟩
    obtain rfl := Option.some.inj (ht.symm.trans ht')
    exact hne hb

theorem ne_main_of_isCompactRebuild (h : isCompactRebuildBranch b = true) : b ≠ mainBranch := by
  rintro rfl
  revert h
  decide

theorem noMovedTags_of_complete (hok : (fp.ioDeleteBranchIndex env b).1 = .reset (.ok ()))
    (hcomplete : ResetComplete b fp (fp.ioDeleteBranchIndex env b).2) :
    NoMovedTags b fp.domain.opened := by
  intro c t r ht hbranch hrebuild
  constructor
  · rintro rfl
    -- the tag stays, and the readers count it for the default branch
    have hstays := (lookup_reset_iff hok c t).mpr ⟨ht, by simp [hbranch, wantBranch]⟩
    have hnone := ioDeriveLastIndexed_eq_none.mp hcomplete.underived c t hstays
    rw [belongsTo_main, hbranch] at hnone
    simp [hrebuild] at hnone
  · rintro rfl
    -- the reset takes a tag of the default branch
    have hne := ne_main_of_isCompactRebuild hrebuild
    have hbefore : (c, t) ∈ branchTags fp.domain.opened mainBranch :=
      mem_branchTags.mpr ⟨ht, by simp [belongsTo_main, hbranch, hrebuild]⟩
    have hafter := (hcomplete.others mainBranch requestBranch_main (Ne.symm hne) (c, t)).mpr hbefore
    have hkept := ((lookup_reset_iff hok c t).mp (mem_branchTags.mp hafter).1).2
    exact hkept (by rw [hbranch, wantBranch, if_neg hne])

theorem complete_of_noMovedTags (hok : (fp.ioDeleteBranchIndex env b).1 = .reset (.ok ()))
    (hmoved : NoMovedTags b fp.domain.opened) :
    ResetComplete b fp (fp.ioDeleteBranchIndex env b).2 := by
  have hnone : ∀ c t, (fp.ioDeleteBranchIndex env b).2.domain.opened.tags.lookup c = some t →
      belongsTo b t.branch = false := by
    intro c t ht
    obtain ⟨hbefore, hne⟩ := (lookup_reset_iff hok c t).mp ht
    rw [← Bool.not_eq_true]
    intro hbelongs
    obtain ⟨hmain, r, hr, hrebuild⟩ := rebuild_of_belongsTo hbelongs hne
    exact (hmoved c t r hbefore hr hrebuild).1 hmain
  refine ⟨ioDeriveLastIndexed_eq_none.mpr hnone, ioCountBranchCommits_eq_zero.mpr hnone, ?_, ?_⟩
  · rintro ⟨c, t⟩ he env' hresolve
    refine ioTryReserveCommit_absent ((ioDeleteBranchIndex_reset hok).2.2 c) hresolve ?_
    rw [Option.eq_none_iff_forall_ne_some]
    intro t' ht'
    obtain ⟨hbefore, hbelongs⟩ := mem_branchTags.mp he
    obtain rfl := Option.some.inj (hbefore.symm.trans ((lookup_reset_iff hok c t').mp ht').1)
    have hfalse := hnone c t ht'
    rw [hbelongs] at hfalse
    cases hfalse
  · rintro b' huser hne ⟨c, t⟩
    rw [mem_branchTags, mem_branchTags, lookup_reset_iff hok]
    refine ⟨fun h => ⟨h.1.1, h.2⟩, fun h => ⟨⟨h.1, fun hb => ?_⟩, h.2⟩⟩
    have hbelongs := h.2
    rw [hb] at hbelongs
    obtain ⟨-, hrebuild⟩ := belongsTo_wantBranch huser hne hbelongs
    rw [wantBranch, if_neg (ne_main_of_isCompactRebuild hrebuild)] at hb
    exact (hmoved c t b h.1 hb hrebuild).2 rfl

/-- A reset that succeeds is complete iff it does not meet a tag that compaction moved to a
rebuild branch. -/
theorem reset_complete_iff (fp : Footprint V) (env : StoreEnv) (b : BranchName)
    (hok : (fp.ioDeleteBranchIndex env b).1 = .reset (.ok ())) :
    ResetComplete b fp (fp.ioDeleteBranchIndex env b).2 ↔ NoMovedTags b fp.domain.opened :=
  ⟨noMovedTags_of_complete hok, complete_of_noMovedTags hok⟩

end Complete

section Samples

/-- A push of one inserted document to the default branch. -/
def insertAs (commit : CommitId) (id : DocId) : Request Bool :=
  let p := Store.samplePush none [.inserted id "text"]
  .push { p with request := { p.request with commit := commit } }

/-- Three commits on the default branch. -/
def threeCommits : List (Request Bool) :=
  [insertAs "c0" "a", insertAs "c1" "b", insertAs "c2" "c"]

/-- What the store keeps about a domain after some requests on it. -/
def footprintAfter (history : List (Request Bool)) : Footprint Bool :=
  (Store.empty.run "admin/db" history).2.footprint "admin/db"

/-- No call fails. -/
def steadyEnv : StoreEnv := ⟨fun _ => false, fun _ => 1⟩

theorem reset_of_isOk {fp : Footprint V} {env : StoreEnv} {b : BranchName}
    (h : (env.ioDeleteBranchIndex b fp.domain).result.isOk = true) :
    (fp.ioDeleteBranchIndex env b).1 = .reset (.ok ()) := by
  unfold Footprint.ioDeleteBranchIndex
  cases hr : (env.ioDeleteBranchIndex b fp.domain).result with
  | error e =>
    rw [hr] at h
    cases h
  | ok u => simp [hr]

theorem reset_complete_threeCommits :
    ((footprintAfter threeCommits).ioDeleteBranchIndex steadyEnv mainBranch).1 =
        .reset (.ok ()) ∧
      ResetComplete mainBranch (footprintAfter threeCommits)
        ((footprintAfter threeCommits).ioDeleteBranchIndex steadyEnv mainBranch).2 := by
  have hok : ((footprintAfter threeCommits).ioDeleteBranchIndex steadyEnv mainBranch).1 =
      .reset (.ok ()) := reset_of_isOk (by decide +kernel)
  refine ⟨hok, (reset_complete_iff _ _ _ hok).mpr fun c t r ht hr _ => ?_⟩
  have hmain : ∀ e ∈ (footprintAfter threeCommits).domain.opened.tags.entries,
      e.2.branch = none := by decide +kernel
  rw [hmain ⟨c, t⟩ (AList.mem_lookup_iff.mp ht)] at hr
  cases hr

/-- The three commits compacted: the last two are tagged on the rebuild branch. -/
def compactedFootprint : Footprint Bool :=
  footprintAfter (threeCommits ++ [.compact 7 (fun _ => false) (fun _ => 1) .listed])

/-- The reset leaves the tag on the rebuild branch, and its commit is still reported as last
indexed. -/
theorem reset_not_complete_compacted :
    (compactedFootprint.ioDeleteBranchIndex steadyEnv mainBranch).1 = .reset (.ok ()) ∧
      ¬ ResetComplete mainBranch compactedFootprint
        (compactedFootprint.ioDeleteBranchIndex steadyEnv mainBranch).2 := by
  have hok : (compactedFootprint.ioDeleteBranchIndex steadyEnv mainBranch).1 =
      .reset (.ok ()) := reset_of_isOk (by decide +kernel)
  refine ⟨hok, fun h => ?_⟩
  have hderived := h.underived
  rw [(ioDeleteBranchIndex_reset hok).2.1] at hderived
  have hstill : (ioDeriveLastIndexed (steadyEnv.ioDeleteBranchIndex mainBranch
      compactedFootprint.domain).store.opened mainBranch).isSome = true := by decide +kernel
  rw [hderived] at hstill
  cases hstill

end Samples

end Vectorlink
