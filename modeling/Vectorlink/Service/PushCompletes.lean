import Vectorlink.Service.PushSpec

/-! A push that meets no failing call completes. -/
namespace Vectorlink

open Stepwise Stepwise.Program Versioned

variable {V : Type}

namespace PushEnv

variable {env : PushEnv V} {d : Domain V} {b : BranchName} {commit : CommitId}
  {c : Collected V} {l : Lineage (ChunkRow V)}

section Parts

variable (hfails : ∀ op, env.fails op = false)

include hfails

/-- A call that does not fail. -/
theorem absurd_fails {op : StoreOp} {p : Prop} (h : env.fails op = true) : p := by
  rw [hfails op] at h
  cases h

theorem ioOpenDataset_completes {op : StoreOp} (d : Domain V) :
    Spec (fun s => s = d) (env.ioOpenDataset op) (fun _ s => s = d.openDataset)
      (fun _ _ => False) (fun _ _ => True) :=
  env.ioOpenDataset_spec (fun _ hs => ⟨trivial, by rw [hs]⟩) fun hop _ _ => absurd_fails hfails hop

theorem checkoutBranch_completes {op : StoreOp} {context : String} {P : Domain V → Prop}
    (hP : ∀ s, P s → AtBranch d b l s) :
    Spec P (env.checkoutBranch op context b) (fun _ => P) (fun _ _ => False)
      (fun _ _ => True) := by
  refine env.checkoutBranch_spec (fun s _ _ hs _ _ => hs) fun s hs h => ?_
  rcases h with hop | hno
  · exact absurd_fails hfails hop
  · have hat := hP s hs
    have hnone := hno _ (Domain.dataset_eq_opened hat.dataset)
    rw [hat.lineage] at hnone
    cases hnone

theorem ioBranchHeadVersion_completes {d₁ : Domain V} (hcached : d₁.cached.isSome)
    (hat : AtBranch d b l d₁) :
    Spec (fun s => s = d₁) (env.ioBranchHeadVersion .headVersion b)
      (fun v s => s = d₁ ∧ d₁.noopVersion b = some v) (fun _ _ => False) (fun _ _ => True) := by
  refine Spec.ite (fun hb => ?_) (fun hb => ?_)
  · refine Spec.bind (ioOpenDataset_completes hfails d₁) fun _ => Spec.look fun s hs => ?_
    rw [Domain.openDataset_of_cached hcached] at hs
    subst hs
    obtain ⟨v, hv⟩ := Option.isSome_iff_exists.mp hcached
    simp [Domain.noopVersion, hb, hv]
  · refine Spec.bind (checkoutBranch_completes hfails (P := fun s => s = d₁) fun s hs => hs ▸ hat)
      fun _ => Spec.look fun s hs => ?_
    subst hs
    have hbind : (s.dataset.bind fun ds => ds.lineage? (wantBranch b)) = some l := by
      rw [Domain.dataset_eq_opened hat.dataset]
      exact hat.lineage
    rw [hbind]
    simp [Domain.noopVersion, hb, hat.lineage]

/-- The tag of a commit without work. -/
theorem tagNoop_completes {s₀ d₀ : Domain V} {v : ℕ} (hstart : s₀.openDataset = d₀)
    (hat : AtBranch d b l d₀) (hv : d₀.noopVersion b = some v) (ht : d₀.Taggable b commit v) :
    Spec (fun s => s = s₀) (env.tagNoop b commit) (fun _ s => s = d₀.tagged b commit v)
      (fun _ _ => False) (fun _ _ => True) := by
  have hcached : d₀.cached.isSome := by
    rw [← hstart]
    exact s₀.openDataset_cached_isSome
  refine Spec.bind (withContext_spec (ioOpenDataset_completes hfails s₀)) fun _ => Spec.bind
    (withContext_spec ((ioBranchHeadVersion_completes hfails hcached hat).pre
      fun s hs => hs.trans hstart)) fun v' => Spec.of_and fun hv' => ?_
  obtain rfl : v' = v := Option.some.inj (hv'.symm.trans hv)
  refine Spec.bind (withContext_spec (ioTagCommit_spec (P := fun s => s = d₀) (v := v') ?_
    (fun _ _ _ => trivial) (fun _ _ _ => trivial) ?_ ?_)) fun _ =>
      withContext_spec (cacheLastIndexed_spec fun s hs => ⟨trivial, ?_⟩)
  · rintro - s rfl
    exact Domain.openDataset_of_cached hcached
  · rintro s rfl (hop | hop | hno)
    · exact absurd_fails hfails hop
    · exact absurd_fails hfails hop
    · exact hno ht
  · rintro hop s - -
    exact absurd_fails hfails hop
  · obtain ⟨s', rfl, -, rfl⟩ := hs
    exact Domain.cacheLastIndexed_tagged s' b commit v'

theorem tagWork_completes {l' : Lineage (ChunkRow V)} {v : ℕ} {r : List (ChunkRow V)}
    (hnew : commit ∉ d.opened.tags) (hserves : ServesFrom l r v l') :
    Spec (AtBranch d b l') (env.tagWork b commit v)
      (fun _ s => ∃ s', AtBranch d b l' s' ∧
        (s = s'.tagged b commit v ∨ s = (s'.tagged b commit v).cleaned))
      (fun _ _ => False) (fun _ _ => True) := by
  refine (env.tagWork_spec (fun _ s hs => hs.openDataset) (fun _ _ _ => trivial)
    (fun _ _ _ _ => ⟨trivial, trivial⟩) (fun s hs h => ?_)
    (fun hop _ _ _ => absurd_fails hfails hop)).post fun _ s hs => ?_
  · rcases h with hop | hop | hno
    · exact absurd_fails hfails hop
    · exact absurd_fails hfails hop
    · exact hno (taggable_of_servesFrom hnew hs hserves)
  · obtain ⟨s', hs', -, h⟩ := hs
    exact ⟨s', hs', h⟩

/-- The work of a push is tagged wherever the indices have left the branch. -/
theorem tagWork_done_completes {d₀ : Domain V} {l' : Lineage (ChunkRow V)} {v : ℕ}
    (hnew : commit ∉ d.opened.tags) (hl : d.opened.lineage? (wantBranch b) = some l)
    (hwork : c.rows ≠ [] ∨ c.deleteIds ≠ []) (hserves : ServesFrom l (c.apply l.headRows) v l') :
    Spec (AtBranch d b l') (env.tagWork b commit v) (fun _ => PushDone d d₀ b commit c)
      (fun _ _ => False) (fun _ _ => True) := by
  refine (tagWork_completes hfails hnew hserves).post fun _ s hs => ?_
  obtain ⟨s', hs', h⟩ := hs
  exact .work hwork hl hs' hserves (taggable_of_servesFrom hnew hs' hserves) h

theorem delete_completes {context : String} {P : Domain V → Prop} (hP : ∀ s, P s → AtBranch d b l s)
    (ids : List DocId) :
    Spec P (env.ioDeleteOn b context ids)
      (fun _ => AtBranch d b (l.advance (deleteDocs ids l.headRows))) (fun _ _ => False)
      (fun _ _ => True) := by
  refine env.onDataset_spec_of_ok (fun s hs => ?_) fun hop _ _ => absurd_fails hfails hop
  obtain ⟨hds, hcommit⟩ := (hP s hs).commit_ok (deleteDocs ids)
  exact ⟨_, _, hds, hcommit, trivial, (hP s hs).setLineage _⟩

theorem append_completes {context : String} {P : Domain V → Prop} (hP : ∀ s, P s → AtBranch d b l s)
    (rows : List (ChunkRow V)) :
    Spec P (env.ioAppendOn b context rows)
      (fun _ => AtBranch d b (l.advance (l.headRows ++ rows))) (fun _ _ => False)
      (fun _ _ => True) :=
  append_spec (E := fun _ => False) hP (fun hop _ _ => absurd_fails hfails hop)
    (fun _ _ _ => trivial) rows

/-- After the writes of the streaming pipeline. -/
theorem tagStream_completes {d₀ : Domain V} {v : ℕ} (hopen : d₀.openDataset = d₀)
    (hnew : commit ∉ d.opened.tags) (hl : d.opened.lineage? (wantBranch b) = some l)
    (hat₀ : AtBranch d b l d₀) (hv : d₀.noopVersion b = some v) (ht : d₀.Taggable b commit v)
    (hindexed : c.indexed = 0 ↔ c.rows = []) (position : ℕ) :
    Spec (fun s => Written d b c l s ∧ (c.rows = [] → c.deleteIds = [] → s = d₀))
      (env.tagStream b commit position c) (fun _ => PushDone d d₀ b commit c)
      (fun _ _ => False) (fun _ _ => True) := by
  refine Spec.ite (fun hnil => ?_) (fun hsome => ?_)
  · rw [Bool.and_eq_true, decide_eq_true_eq, List.isEmpty_iff, hindexed] at hnil
    refine ((tagNoop_completes hfails hopen hat₀ hv ht).pre
      fun s hs => hs.2 hnil.1 hnil.2).post fun _ s hs => ?_
    exact .noop hnil.1 hnil.2 hv ht hs
  · rw [Bool.and_eq_true, decide_eq_true_eq, List.isEmpty_iff, hindexed, not_and_or] at hsome
    refine Spec.of_forall fun s₀ hs₀ => ?_
    obtain ⟨⟨l₁, hat₁, hrows, hhead⟩, -⟩ := hs₀
    refine Spec.bind ((env.indexStream_spec (B := False)
      (fun _ _ hop => absurd_fails hfails hop) (fun _ _ _ => trivial) position).pre
      fun s hs => hs ▸ hat₁) fun v => Spec.of_exists fun l' => Spec.of_and fun hserves => ?_
    refine tagWork_done_completes hfails hnew hl hsome ?_
    exact ⟨hhead.trans hserves.lower, hserves.upper, by rw [← hrows]; exact hserves.rows,
      by rw [← hrows]; exact hserves.headRows⟩

theorem writeBuffered_completes {d₀ : Domain V} (hnew : commit ∉ d.opened.tags)
    (hl : d.opened.lineage? (wantBranch b) = some l) (hat : AtBranch d b l d.openDataset)
    (hwork : c.rows ≠ [] ∨ c.deleteIds ≠ []) :
    Spec (fun s => s = d) (env.writeBuffered b commit c) (fun _ => PushDone d d₀ b commit c)
      (fun _ _ => False) (fun _ _ => True) := by
  have hwrites : Spec (fun s => s = d) (env.ioBatchDeleteAppend b c.deleteIds c.rows)
      (fun v s => ∃ l₁, AtBranch d b l₁ s ∧ l₁.headRows = c.apply l.headRows ∧
        l.head ≤ l₁.head ∧ v = l₁.head) (fun _ _ => False) (fun _ _ => True) := by
    refine Spec.bind (ioOpenDataset_completes hfails d) fun _ => Spec.bind
      (checkoutBranch_completes hfails (P := fun s => s = d.openDataset) fun s hs => hs ▸ hat)
      fun _ => writes_spec (E := fun _ => False) hat (delete_completes hfails (fun _ hs => hs ▸ hat) _)
        (fun _ => append_completes hfails (fun _ hs => hs ▸ hat) _)
        (fun _ _ => append_completes hfails (fun _ hs => hs) _) ?_
    refine Spec.of_forall fun s₀ hs₀ => ?_
    obtain ⟨⟨l₁, hat₁, hrows, hhead⟩, -⟩ := hs₀
    refine Spec.bind (handleVersion_spec.pre fun s hs => hs ▸ hat₁) fun v => Spec.bind
      (R := fun _ s => v = l₁.head ∧ AtBranch d b l₁ s)
      (env.ioRefreshCachedDataset_spec (fun s hs => ⟨trivial, hs.1, hs.2.refresh⟩)
        fun hop _ _ => absurd_fails hfails hop) fun _ => Spec.pure fun s hs => ?_
    exact ⟨l₁, hs.2, hrows, hhead, hs.1⟩
  refine Spec.bind (withContext_spec hwrites) fun lastVersion => Spec.of_exists fun l₁ =>
    Spec.of_forall fun s₀ hs₀ => ?_
  obtain ⟨hat₁, hrows, hhead, rfl⟩ := hs₀
  refine Spec.bind ((env.indexBuffered_spec (B := False)
    (fun _ _ hop => absurd_fails hfails hop) (fun _ _ _ => trivial)).pre fun s hs => hs ▸ hat₁)
    fun indexed => Spec.of_exists fun l' => Spec.of_and fun hserves => ?_
  refine tagWork_done_completes hfails hnew hl hwork ?_
  exact ⟨hhead.trans hserves.lower, hserves.upper, by rw [← hrows]; exact hserves.rows,
    by rw [← hrows]; exact hserves.headRows⟩

end Parts

end PushEnv

/-- What a push may rely on when its pipeline starts: the commit has no tag, the branch is
there (it has been forked) and a handle is open only on a dataset that exists. -/
structure Domain.Ready (d : Domain V) (b : BranchName) (commit : CommitId) : Prop where
  handle : d.cached.isSome → d.dataset.isSome
  branch : (d.opened.lineage? (wantBranch b)).isSome
  untagged : commit ∉ d.opened.tags

section Ready

variable {d : Domain V} {b : BranchName} {commit : CommitId} {l : Lineage (ChunkRow V)}

theorem Domain.Ready.dataset (h : d.Ready b commit) : d.openDataset.dataset.isSome := by
  unfold Domain.openDataset
  split
  · rename_i v hv
    exact h.handle (by rw [hv]; rfl)
  · rfl

theorem Domain.Ready.atBranch (h : d.Ready b commit)
    (hl : d.opened.lineage? (wantBranch b) = some l) : AtBranch d b l d.openDataset :=
  .start h.dataset (by simp) (by simp) hl

/-- A refreshed handle stands at the newest version. -/
theorem Domain.Ready.refreshed (h : d.Ready b commit)
    (hl : d.opened.lineage? (wantBranch b) = some l) :
    d.openDataset.refresh.noopVersion b = some l.head ∧
      d.openDataset.refresh.Taggable b commit l.head := by
  constructor
  · unfold Domain.noopVersion
    split
    · rename_i hb
      rw [hb, wantBranch, if_pos rfl, Dataset.lineage?_none, Option.some.injEq] at hl
      rw [Domain.refresh_cached h.dataset, Domain.openDataset_opened, hl]
    · rw [Domain.refresh_opened, Domain.openDataset_opened, hl]
      rfl
  · refine ⟨by simpa using h.dataset, by simpa using h.untagged, ?_⟩
    rw [Domain.refresh_opened, Domain.openDataset_opened, Dataset.rowsAt, hl, Option.bind_some,
      l.rows_head]
    rfl

end Ready

namespace PushEnv

variable {env : PushEnv V} {d : Domain V} {b : BranchName} {commit : CommitId}
  {c : Collected V} {l : Lineage (ChunkRow V)} {ops : List Operation} {expectedDocs : Option ℕ}

/-- The streaming pipeline completes whatever it has collected. -/
theorem stream_completes (hfails : ∀ op, env.fails op = false) (hready : d.Ready b commit)
    (hc : env.collectStream expectedDocs ops = .ok c) :
    (env.ioRunIndexPipelineStream b commit expectedDocs ops d).result = .ok (c.indexed, c.skipped) ∧
      PushDone d d.openDataset.refresh b commit c
        (env.ioRunIndexPipelineStream b commit expectedDocs ops d).store := by
  obtain ⟨l, hl⟩ := Option.isSome_iff_exists.mp hready.branch
  have hat := hready.atBranch hl
  obtain ⟨docs, hdocs⟩ := collectStream_collects hc
  have hopen : d.openDataset.refresh.openDataset = d.openDataset.refresh := by
    apply Domain.openDataset_of_cached
    rw [Domain.refresh_cached hat.dataset]
    rfl
  obtain ⟨hv, ht⟩ := hready.refreshed hl
  have hspec : Spec (fun s => s = d) (env.ioRunIndexPipelineStream b commit expectedDocs ops)
      (fun out s => out = (c.indexed, c.skipped) ∧
        PushDone d d.openDataset.refresh b commit c s) (fun _ _ => False) (fun _ _ => True) := by
    refine Spec.bind (withContext_spec (ioOpenDataset_completes hfails d)) fun _ => Spec.bind
      (withContext_spec (checkoutBranch_completes hfails (P := fun s => s = d.openDataset)
        fun s hs => hs ▸ hat)) fun _ => Spec.bind (R := fun _ s => s = d.openDataset)
          (Spec.look fun _ hs => hs) fun position => ?_
    rw [hc]
    refine Spec.bind (R := fun _ => PushDone d d.openDataset.refresh b commit c)
      (writes_spec (E := fun _ => False) hat
        (withContext_spec (delete_completes hfails (fun _ hs => hs ▸ hat) _))
        (fun _ => withContext_spec (append_completes hfails (fun _ hs => hs ▸ hat) _))
        (fun _ _ => withContext_spec (append_completes hfails (fun _ hs => hs) _)) ?_)
      fun _ => Spec.pure fun s hs => ⟨rfl, hs⟩
    refine Spec.bind (R := fun _ s => Written d b c l s ∧
        (c.rows = [] → c.deleteIds = [] → s = d.openDataset.refresh))
      (withContext_spec (env.ioRefreshCachedDataset_spec (fun s hs => ⟨trivial, ?_⟩)
        fun hop _ _ => absurd_fails hfails hop)) fun _ =>
      tagStream_completes hfails hopen hready.untagged hl hat.refresh hv ht hdocs.indexed_eq_zero
        position
    obtain ⟨⟨l₁, hat₁, hrows⟩, hsame⟩ := hs
    exact ⟨⟨l₁, hat₁.refresh, hrows⟩, fun hnil hdel => by rw [hsame hnil hdel]⟩
  obtain ⟨out, hout, rfl, hdone⟩ := hspec.completes rfl
  exact ⟨hout, hdone⟩

/-- The buffered pipeline completes when the version it takes for the newest is still there;
it needs that version only for a commit without work. -/
theorem buffered_completes (hfails : ∀ op, env.fails op = false) (hready : d.Ready b commit)
    (hhandle : c.rows = [] → c.deleteIds = [] → ∃ v, d.openDataset.noopVersion b = some v ∧
      d.openDataset.Taggable b commit v)
    (hc : env.collectBuffered ops = .ok c) :
    (env.ioRunIndexPipeline b commit ops d).result = .ok (c.indexed, c.skipped) ∧
      PushDone d d.openDataset b commit c (env.ioRunIndexPipeline b commit ops d).store := by
  obtain ⟨l, hl⟩ := Option.isSome_iff_exists.mp hready.branch
  have hat := hready.atBranch hl
  have hspec : Spec (fun s => s = d) (env.ioRunIndexPipeline b commit ops)
      (fun out s => out = (c.indexed, c.skipped) ∧ PushDone d d.openDataset b commit c s)
      (fun _ _ => False) (fun _ _ => True) := by
    unfold ioRunIndexPipeline
    rw [hc]
    refine Spec.bind (R := fun _ => PushDone d d.openDataset b commit c) (Spec.ite
      (fun hnil => ?_) fun hwork => ?_) fun _ => Spec.pure fun s hs => ⟨rfl, hs⟩
    · rw [Bool.and_eq_true, List.isEmpty_iff, List.isEmpty_iff] at hnil
      obtain ⟨v, hv, ht⟩ := hhandle hnil.1 hnil.2
      exact (tagNoop_completes hfails rfl hat hv ht).post fun _ s hs => .noop hnil.1 hnil.2 hv ht hs
    · rw [Bool.and_eq_true, List.isEmpty_iff, List.isEmpty_iff, not_and_or] at hwork
      exact writeBuffered_completes hfails hready.untagged hl hat hwork
  obtain ⟨out, hout, rfl, hdone⟩ := hspec.completes rfl
  exact ⟨hout, hdone⟩

end PushEnv

end Vectorlink
