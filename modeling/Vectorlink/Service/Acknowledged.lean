import Vectorlink.Service.CatchUp
import Vectorlink.Service.Reindex

/-! What a completed push wrote is read at its commit from then on, as long as nothing is compacted
or deleted. -/
namespace Vectorlink

open Stepwise Stepwise.Program Versioned Concurrent

section Pushes

variable {V : Type} {p : HttpPush V} {fp : Footprint V} {r : PushRequest V} {d : Domain V}
  {branch : BranchName} {indexed : ℕ} {skipped : List SkippedDoc}

inductive HttpPush.StartsIn (p : HttpPush V) (fp : Footprint V) : Domain V → Prop
  | direct : p.forks fp = none → StartsIn p fp fp.domain
  | existing {parent : CommitId} : p.forks fp = some parent →
      (p.fork.ioEnsureBranchForked p.branch parent).runAt fp.domain = .ok .alreadyExists →
      StartsIn p fp fp.domain
  | created {parent : CommitId} {v : ℕ} {after : Domain V} : p.forks fp = some parent →
      (p.fork.ioEnsureBranchForked p.branch parent).runAt fp.domain = .ok (.created v after) →
      StartsIn p fp after

/-- The rows that a push leaves at its commit: those it starts from, without the documents that it
deletes or replaces, and those of the documents that it embeds. -/
def PushRequest.Leaves (r : PushRequest V) (branch : BranchName) (d : Domain V)
    (rows : List (ChunkRow V)) : Prop :=
  ∃ c docs built, r.collect = .ok c ∧ Collects r.env.toIngestEnv r.operations docs c ∧
    r.basis d branch c = some built ∧
      rows = deleteDocs c.deleteIds built ++ docs.flatMap (·.rows)

theorem PushRequest.leaves_of_complete
    (h : (r.push branch d).result = .ok (.complete indexed skipped)) :
    ∃ rows, r.Leaves branch d rows ∧
      (r.push branch d).store.opened.served r.commit = some rows := by
  obtain ⟨c, built, hc, hbuilt, hserved⟩ := r.push_serves h
  obtain ⟨docs, hdocs⟩ := PushRequest.collects hc
  have happly : c.apply built = deleteDocs c.deleteIds built ++ docs.flatMap (·.rows) := by
    rw [← hdocs.rows]
    rfl
  rw [happly] at hserved
  exact ⟨_, ⟨c, docs, built, hc, hdocs, hbuilt, rfl⟩, hserved⟩

theorem HttpPush.push_complete
    (h : (p.push fp).1 = .pushed (.ok (.complete indexed skipped))) :
    ∃ start, p.StartsIn fp start ∧
      ((p.requestAt fp).push p.branch start).result = .ok (.complete indexed skipped) ∧
        (p.push fp).2.domain = ((p.requestAt fp).push p.branch start).store := by
  unfold HttpPush.push at h ⊢
  split at h
  · cases h
  · rename_i hfree
    rw [if_neg hfree]
    split at h
    · cases h
    · rename_i hkept
      rw [if_neg hkept]
      cases hforks : p.forks fp with
      | none =>
        rw [hforks] at h
        exact ⟨fp.domain, .direct hforks, Response.pushed.inj h, rfl⟩
      | some parent =>
        rw [hforks] at h
        dsimp only at h ⊢
        cases hfork : (p.fork.ioEnsureBranchForked p.branch parent).runAt fp.domain with
        | error e =>
          rw [hfork] at h
          dsimp only at h
          split at h
          · cases h
          · cases h
        | ok outcome =>
          rw [hfork] at h
          cases outcome with
          | alreadyExists =>
            exact ⟨fp.domain, .existing hforks hfork, Response.pushed.inj h, rfl⟩
          | created v after =>
            exact ⟨after, .created hforks hfork, Response.pushed.inj h, rfl⟩

end Pushes

section Reads

variable {V : Type} {d : Domain V} {branch : BranchName} {commit : CommitId}
  {ancestors : List CommitId} {rows : List (ChunkRow V)}

theorem serves_of_served (h : d.opened.served commit = some rows) :
    d.serves branch commit ancestors = .ok (commit, rows) := by
  obtain ⟨t, ht⟩ := Dataset.exists_home h
  have hmem : commit ∈ d.opened.tags := AList.lookup_isSome.mp (by simp [ht.1])
  apply serveRequest_ok.mpr
  constructor
  · apply resolveSearchableCommit_ok.mpr
    refine ⟨?_, .inl hmem⟩
    rw [nearestIndexed, List.find?_cons_of_pos (by simpa using hmem)]
  · rw [ioSnapshotFromCache_runAt, ioCheckoutCommitSnapshot_ok]
    exact h

end Reads

section Isolation

variable {V : Type} {p : HttpPush V} {fp : Footprint V} {indexed : ℕ} {skipped : List SkippedDoc}

/-- After a completed push every later state serves its commit, on any branch and with any window,
with the rows that the push left. -/
theorem completed_push_readable
    (hcomplete : (p.handlePush fp).1 = .pushed (.ok (.complete indexed skipped))) :
    ∃ start rows, p.StartsIn (p.applySettings fp) start ∧
      (p.requestAt (p.applySettings fp)).Leaves p.branch start rows ∧
        ∀ fp' d branch ancestors,
          Reaches DomainAction.step DomainAction.TakesNothing (p.handlePush fp).2 fp' →
            fp'.Moment d →
              d.serves branch p.request.commit ancestors = .ok (p.request.commit, rows) := by
  obtain ⟨start, hstart, hresult, hdomain⟩ := HttpPush.push_complete hcomplete
  obtain ⟨rows, hleaves, hserved⟩ := PushRequest.leaves_of_complete hresult
  have hpushed : (p.handlePush fp).2.domain.opened.served p.request.commit = some rows := by
    unfold HttpPush.handlePush
    rw [hdomain]
    exact hserved
  refine ⟨start, rows, hstart, hleaves, fun fp' d branch ancestors hlater hd => ?_⟩
  have hkeeps := keeps_of_reaches hlater hd
  exact serves_of_served (hkeeps.served hpushed)

end Isolation

section Answers

variable {F R D : Type} [LinearOrder R] [LinearOrder D] [Zero D] [CommMagma F] [Add F] [Zero F]
  [One F] [Sub F] [Max F]
variable {fp fp' : Footprint (List F)} {d : Domain (List F)} {commit : CommitId}
  {rows : List (ChunkRow (List F))}

/-- At an indexed commit a request is answered in every later state as it was, if Lance makes the
same of the rows: its answers are part of what the request meets, and so are indices that a cleanup
has hidden. -/
theorem ReadRequest.answer_later (hserved : fp.domain.opened.served commit = some rows)
    (hlater : Reaches DomainAction.step DomainAction.TakesNothing fp fp') (hd : fp'.Moment d)
    (branch : BranchName) (ancestors : List CommitId) (r : ReadRequest F R D) :
    r.answer d branch commit ancestors = r.answer fp.domain branch commit ancestors := by
  have hkeeps := keeps_of_reaches hlater hd
  have hnow : d.serves branch commit ancestors = .ok (commit, rows) :=
    serves_of_served (hkeeps.served hserved)
  have hbefore : fp.domain.serves branch commit ancestors = .ok (commit, rows) :=
    serves_of_served hserved
  exact ReadRequest.answer_congr hnow hbefore r

end Answers

section Samples

theorem completed_push_readable_died : ∃ rows,
    diedWriting.domain.serves "feature" "c0" [] = .ok ("c0", rows) ∧
      rows.map (·.docId) = ["a"] := by
  have hcomplete : ((unitPush "c0" "a").handlePush .fresh).1 =
      .pushed (.ok (.complete 1 [])) := rfl
  have hdied : DomainAction.step pushedOnce (.crash (unitPush "c1" "b") 4 quietCleanup) =
      some diedWriting := rfl
  obtain ⟨start, rows, -, -, hlater⟩ := completed_push_readable hcomplete
  have hkept : (DomainAction.crash (unitPush "c1" "b") 4 quietCleanup).TakesNothing pushedOnce :=
    trivial
  have hserves := hlater diedWriting diedWriting.domain "feature" [] (.tail .refl hkept hdied)
    (.inl rfl)
  have hrow : diedWriting.domain.serves "feature" "c0" [] =
      .ok ("c0", pushedOnce.domain.opened.main.headRows) := rfl
  obtain ⟨-, rfl⟩ := Prod.mk.inj (Except.ok.inj (hserves.symm.trans hrow))
  exact ⟨_, hserves, rfl⟩

end Samples

end Vectorlink
