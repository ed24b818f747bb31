import Vectorlink.IngestText
import Vectorlink.Service.ProgressSent
import Vectorlink.Service.PushCompletes
import Vectorlink.Service.PushRuns

/-! When the updates of a streaming push end as they should: every exit of the pipeline that
is not reported is the failure of some call or a cancellation. -/
namespace Vectorlink

open Stepwise Stepwise.Program Versioned ProgressUpdate

variable {V : Type}

/-- A list of progress updates and one terminal update, which tells how the push ended. -/
def WellFormedProgress (ops : List Operation) (commit : CommitId)
    (x : Domain V × List ProgressUpdate) (result : Except String (ℕ × List SkippedDoc)) : Prop :=
  ∃ ps t, x.2 = ps ++ [t] ∧ OnlyProgress ps ∧ t.isProgress = false ∧
    ((∃ indexed skipped, t = .complete indexed skipped) ↔ commit ∈ x.1.opened.tags) ∧
    (∀ indexed skipped, t = .complete indexed skipped → result = .ok (indexed, skipped)) ∧
    (t = .aborted ↔ .abort ∈ ops ∧ result = .error "push aborted by client")

namespace PushEnv

variable (env : PushEnv V)

/-- The documents of a stream, as they come out of the provider. -/
def outcomes (ops : List Operation) : List (Embedded V) :=
  env.embedGroups 0 (env.subBatchesOf (env.allBatches ops))

/-- Some document has its rows. -/
def HasRows (ops : List Operation) : Prop := ∃ o ∈ env.outcomes ops, o.isIndexed = true

/-- Some document is deleted or replaced. -/
def HasDeletes (ops : List Operation) : Prop :=
  (∃ id, .deleted id ∈ ops) ∨ ∃ o ∈ env.outcomes ops, o.isIndexed = true ∧ o.1.isChanged = true

def position (d : Domain V) (b : BranchName) : ℕ :=
  if env.fails .countCommits then 0 else ioCountBranchCommits d.opened b

/-- The index calls of a commit. -/
def IndexCallsSucceed (position : ℕ) : Prop :=
  env.fails .ftsIndex = false ∧
    (shouldIndexCommit position = true → env.fails .vectorIndex = false ∧
      ((env.storeClustering && env.clusteringConfig) = true →
        env.fails .clusteringIndex = false)) ∧
    env.fails .refreshIndexed = false

/-- A failure to tag is reported, but the commit must not be tagged by then. -/
def TagCallsReport (b : BranchName) : Prop :=
  (b ≠ mainBranch ∧ env.fails .openTag = true) ∨ env.fails .createTag = true ∨
    env.fails .refreshTag = false

/-- Every call of the write phase that is reached and fails is reported. -/
structure WriteReports (d : Domain V) (b : BranchName) (ops : List Operation) : Prop where
  delete : env.HasDeletes ops → env.fails .delete = false
  append : env.HasRows ops → env.fails .append = false
  refresh : env.fails .refreshWritten = false
  index : env.HasRows ops ∨ env.HasDeletes ops → env.IndexCallsSucceed (env.position d b)
  head : ¬ (env.HasRows ops ∨ env.HasDeletes ops) → b ≠ mainBranch → env.fails .headVersion = false
  tag : env.TagCallsReport b

/-- No exit of the pipeline is without a word: the handle opens, the token is not cancelled at
a look that is reached, and the write phase reports. -/
structure Reports (d : Domain V) (b : BranchName) (expectedDocs : Option ℕ)
    (ops : List Operation) : Prop where
  dataset : d.cached.isSome ∨ env.fails .ensureDataset = false
  handle : env.fails .openBranch = false ∧ (d.opened.lineage? (wantBranch b)).isSome
  looks : ∀ p ∈ env.reachedLooks expectedDocs ops, env.cancelled p = false
  write : ¬ env.Stops expectedDocs ops → env.WriteReports d b ops

end PushEnv

section Exact

variable {env : StoreEnv} {P : Domain V → Prop} {op : StoreOp} {context : String}

theorem onDataset_fails
    {f : LanceDataset (ChunkRow V) → Except RefError (LanceDataset (ChunkRow V))}
    (hop : env.fails op = true) :
    Spec P (env.onDataset op context f) (fun _ _ => False) (fun _ => P) (fun _ _ => True) := by
  refine Spec.step fun s hs => ?_
  rw [if_pos hop]
  exact hs

/-- A change of the dataset that Lance would accept fails exactly when the call fails. -/
theorem onDataset_exact {Q : Domain V → Prop}
    {f : LanceDataset (ChunkRow V) → Except RefError (LanceDataset (ChunkRow V))}
    (h : ∀ s, P s → ∃ ds ds', s.dataset = some ds ∧ f ds = .ok ds' ∧
      Q { s with dataset := some ds' }) :
    Spec P (env.onDataset op context f) (fun _ s => Q s ∧ env.fails op = false)
      (fun _ s => P s ∧ env.fails op = true) (fun _ _ => True) := by
  refine Spec.flag (fun hoff => ?_) fun hon => onDataset_fails hon
  refine env.onDataset_spec_of_ok (fun s hs => ?_) fun hop _ _ => ?_
  · obtain ⟨ds, ds', hds, hf, hq⟩ := h s hs
    exact ⟨ds, ds', hds, hf, trivial, hq⟩
  · rw [hoff] at hop
    cases hop

theorem refresh_exact {Q : Domain V → Prop} (hds : ∀ s, P s → s.dataset.isSome)
    (h : ∀ s, P s → Q s.refresh) :
    Spec P (env.ioRefreshCachedDataset op) (fun _ s => Q s ∧ env.fails op = false)
      (fun _ s => P s ∧ env.fails op = true) (fun _ _ => True) := by
  refine Spec.flag (fun hoff => ?_) fun hon => Spec.step fun s hs => ?_
  · refine env.ioRefreshCachedDataset_spec (fun s hs => ⟨trivial, h s hs⟩) fun hop _ _ => ?_
    rw [hoff] at hop
    cases hop
  · simpa [hds s hs, hon] using hs

theorem checkoutBranch_exact {b : BranchName} (hds : ∀ s, P s → s.dataset.isSome)
    (hb : ∀ s, P s → (s.opened.lineage? (wantBranch b)).isSome) :
    Spec P (env.checkoutBranch op context b) (fun _ s => P s ∧ env.fails op = false)
      (fun _ s => P s ∧ env.fails op = true) (fun _ _ => True) := by
  refine Spec.flag (fun hoff => ?_) fun hon => Spec.look fun s hs => ?_
  · refine env.checkoutBranch_spec (fun s _ _ hs _ _ => hs) fun s hs h => ?_
    rcases h with hop | hno
    · rw [hoff] at hop
      cases hop
    · have hsome := hb s hs
      rw [hno _ (Domain.dataset_eq_opened (hds s hs))] at hsome
      cases hsome
  · simpa [hon] using hs

/-- A cached handle is there whatever the call would do. -/
theorem openDataset_cached (h : ∀ s, P s → s.cached.isSome) :
    Spec P (env.ioOpenDataset op) (fun _ => P) (fun _ _ => False) (fun _ _ => True) := by
  refine Spec.step fun s hs => ?_
  obtain ⟨v, hv⟩ := Option.isSome_iff_exists.mp (h s hs)
  simpa [hv, Domain.openDataset_of_cached (h s hs)] using hs

end Exact

/-- The branch is open for writing, nothing is tagged yet. -/
structure OnBranch (d : Domain V) (b : BranchName) (s : Domain V) : Prop where
  branch : ∃ l, AtBranch d b l s
  cached : s.cached.isSome

namespace OnBranch

variable {d s : Domain V} {b : BranchName}

theorem dataset (h : OnBranch d b s) : s.dataset.isSome := by
  obtain ⟨l, hl⟩ := h.branch
  exact hl.dataset

theorem tags (h : OnBranch d b s) : s.opened.tags = d.opened.tags := by
  obtain ⟨l, hl⟩ := h.branch
  exact hl.tags

theorem lineage (h : OnBranch d b s) : (s.opened.lineage? (wantBranch b)).isSome := by
  obtain ⟨l, hl⟩ := h.branch
  rw [hl.lineage]
  rfl

theorem setLineage (h : OnBranch d b s) (l' : Lineage (ChunkRow V)) :
    OnBranch d b { s with dataset := some (s.opened.setLineage (wantBranch b) l') } := by
  obtain ⟨l, hl⟩ := h.branch
  exact ⟨⟨l', hl.setLineage l'⟩, h.cached⟩

theorem refresh (h : OnBranch d b s) :
    OnBranch d b s.refresh ∧ s.refresh.cached = some s.refresh.opened.main.head := by
  obtain ⟨l, hl⟩ := h.branch
  have hcached := Domain.refresh_cached h.dataset
  refine ⟨⟨⟨l, hl.refresh⟩, ?_⟩, ?_⟩
  · rw [hcached]
    rfl
  · rw [hcached, Domain.refresh_opened]

end OnBranch

namespace PushEnv

variable {env : PushEnv V} {d : Domain V} {b : BranchName} {commit : CommitId} {op : StoreOp}
  {context message : String}

theorem commitOn_exact (f : List (ChunkRow V) → List (ChunkRow V)) :
    Spec (OnBranch d b) (withContext message
        (env.onDataset op context fun ds => ds.commit (wantBranch b) f))
      (fun _ s => OnBranch d b s ∧ env.fails op = false) (fun _ _ => env.fails op = true)
      (fun _ _ => True) := by
  refine (withContext_spec (onDataset_exact fun s hs => ?_)).weaken (fun _ h => h)
    (fun _ _ h => h) (fun _ _ h => h.2) (fun _ _ h => h)
  obtain ⟨l, hl⟩ := hs.branch
  obtain ⟨hds, hcommit⟩ := hl.commit_ok f
  exact ⟨_, _, hds, hcommit, hs.setLineage _⟩

theorem touchOn_exact :
    Spec (OnBranch d b) (withContext message (env.touchOn op context b))
      (fun _ s => OnBranch d b s ∧ env.fails op = false) (fun _ _ => env.fails op = true)
      (fun _ _ => True) := by
  refine (withContext_spec (onDataset_exact fun s hs => ?_)).weaken (fun _ h => h)
    (fun _ _ h => h) (fun _ _ h => h.2) (fun _ _ h => h)
  obtain ⟨l, hl⟩ := hs.branch
  obtain ⟨hds, htouch⟩ := hl.touch_ok (env.indexVersions op)
  exact ⟨_, _, hds, htouch, hs.setLineage _⟩

theorem refreshBranch_exact :
    Spec (OnBranch d b) (withContext message (env.ioRefreshCachedDataset op))
      (fun _ s => (OnBranch d b s ∧ s.cached = some s.opened.main.head) ∧ env.fails op = false)
      (fun _ _ => env.fails op = true) (fun _ _ => True) :=
  (withContext_spec (refresh_exact (fun _ hs => hs.dataset) fun _ hs => hs.refresh)).weaken
    (fun _ h => h) (fun _ _ h => h) (fun _ _ h => h.2) (fun _ _ h => h)

theorem unlessEmpty_exact {β : Type} {xs : List β} {m : Push V Unit}
    (h : Spec (OnBranch d b) m (fun _ s => OnBranch d b s ∧ env.fails op = false)
      (fun _ _ => env.fails op = true) (fun _ _ => True)) :
    Spec (OnBranch d b) (unlessEmpty xs m)
      (fun _ s => OnBranch d b s ∧ (xs ≠ [] → env.fails op = false))
      (fun _ _ => xs ≠ [] ∧ env.fails op = true) (fun _ _ => True) := by
  refine Spec.ite (fun he => Spec.pure fun s hs => ⟨hs, fun hne => ?_⟩) fun hne => ?_
  · exact absurd (List.isEmpty_iff.mp he) hne
  · have hne' : xs ≠ [] := fun hnil => hne (List.isEmpty_iff.mpr hnil)
    exact h.weaken (fun _ h => h) (fun _ _ h => ⟨h.1, fun _ => h.2⟩) (fun _ _ h => ⟨hne', h⟩)
      (fun _ _ h => h)

theorem handleVersion_onBranch {T : StoreOp → Domain V → Prop} :
    Spec (OnBranch d b) (withContext message (StoreEnv.handleVersion b)) (fun _ => OnBranch d b)
      (fun _ _ => False) T := by
  refine withContext_spec (Spec.of_forall fun s₀ hs₀ => ?_)
  obtain ⟨l, hl⟩ := hs₀.branch
  refine Spec.look fun s hs => ?_
  subst hs
  have hbind : (s.dataset.bind fun ds => ds.lineage? (wantBranch b)) = some l := by
    rw [Domain.dataset_eq_opened hl.dataset]
    exact hl.lineage
  rw [hbind]
  exact hs₀

/-- The index calls fail exactly when they are not all successful. -/
theorem ensureIndices_exact :
    Spec (OnBranch d b) (env.ensureIndices b)
      (fun _ s => OnBranch d b s ∧ env.fails .ftsIndex = false ∧ env.fails .vectorIndex = false ∧
        ((env.storeClustering && env.clusteringConfig) = true → env.fails .clusteringIndex = false))
      (fun _ _ => env.fails .ftsIndex = true ∨ env.fails .vectorIndex = true ∨
        (env.storeClustering && env.clusteringConfig) = true ∧ env.fails .clusteringIndex = true)
      (fun _ _ => True) := by
  refine Spec.bind (touchOn_exact.weaken (fun _ h => h) (fun _ _ h => h) (fun _ _ h => .inl h)
    (fun _ _ h => h)) fun _ => Spec.of_and fun hfts => ?_
  refine Spec.bind (touchOn_exact.weaken (fun _ h => h) (fun _ _ h => h)
    (fun _ _ h => .inr (.inl h)) (fun _ _ h => h)) fun _ => Spec.of_and fun hvector => ?_
  refine Spec.ite (fun hcluster => ?_) fun hno => Spec.pure fun s hs => ?_
  · exact touchOn_exact.weaken (fun _ h => h) (fun _ _ h => ⟨h.1, hfts, hvector, fun _ => h.2⟩)
      (fun _ _ h => .inr (.inr ⟨hcluster, h⟩)) (fun _ _ h => h)
  · exact ⟨hs, hfts, hvector, fun hcluster => absurd hcluster hno⟩

theorem createIndices_exact {position : ℕ} (hboundary : shouldIndexCommit position = true) :
    Spec (OnBranch d b) (env.createIndices b)
      (fun _ s => OnBranch d b s ∧ env.IndexCallsSucceed position)
      (fun _ _ => ¬ env.IndexCallsSucceed position) (fun _ _ => True) := by
  refine Spec.bind (ensureIndices_exact.weaken (fun _ h => h) (fun _ _ h => h) (fun _ _ h hok => ?_)
    (fun _ _ h => h)) fun _ => Spec.of_and fun hcalls => ?_
  · obtain ⟨hfts, hrest, -⟩ := hok
    obtain ⟨hvector, hcluster⟩ := hrest hboundary
    rcases h with h | h | ⟨hwant, h⟩
    · rw [hfts] at h
      cases h
    · rw [hvector] at h
      cases h
    · rw [hcluster hwant] at h
      cases h
  · refine Spec.bind (handleVersion_onBranch.weaken (fun _ h => h) (fun _ _ h => h)
      (fun _ _ h => h.elim) (fun _ _ h => h)) fun v => Spec.bind (R := fun _ => OnBranch d b)
        (Spec.attempt_const ?_) fun _ => Spec.bind (refreshBranch_exact.weaken (fun _ h => h)
          (fun _ _ h => h) (fun _ _ h hok => ?_) (fun _ _ h => h)) fun _ => Spec.pure fun s hs => ?_
    · refine env.onDataset_spec (fun s ds ds' hs hds hf => ⟨trivial, ?_⟩) fun s hs _ => hs
      obtain ⟨l, hl⟩ := hs.branch
      obtain ⟨hds', htouch⟩ := hl.touch_ok (env.indexVersions .cascade)
      obtain rfl := Option.some.inj (hds.symm.trans hds')
      obtain rfl := Except.ok.inj (hf.symm.trans htouch)
      exact hs.setLineage _
    · rw [hok.2.2] at h
      cases h
    · exact ⟨hs.1.1, hcalls.1, fun _ => hcalls.2, hs.2⟩

theorem indexStream_exact (position : ℕ) :
    Spec (OnBranch d b) (env.indexStream position b)
      (fun _ s => OnBranch d b s ∧ env.IndexCallsSucceed position)
      (fun _ _ => ¬ env.IndexCallsSucceed position) (fun _ _ => True) := by
  refine Spec.ite (fun hboundary => createIndices_exact hboundary) fun hno => ?_
  refine Spec.bind (R := fun _ s => OnBranch d b s ∧ env.fails .ftsIndex = false) ?_ fun v =>
    Spec.of_and fun hfts => Spec.bind (refreshBranch_exact.weaken (fun _ h => h) (fun _ _ h => h)
      (fun _ _ h hok => ?_) (fun _ _ h => h)) fun _ => Spec.pure fun s hs => ?_
  · refine Spec.bind (touchOn_exact.weaken (fun _ h => h) (fun _ _ h => h) (fun _ _ h hok => ?_)
      (fun _ _ h => h)) fun _ => Spec.of_and fun hfts => ?_
    · rw [hok.1] at h
      cases h
    · exact handleVersion_onBranch.weaken (fun _ h => h) (fun _ _ h => ⟨h, hfts⟩)
        (fun _ _ h => h.elim) (fun _ _ h => h)
  · rw [hok.2.2] at h
    cases h
  · exact ⟨hs.1.1, hfts, fun hyes => absurd hyes hno, hs.2⟩

/-- The indices leave a version that can be tagged. -/
theorem indexStream_taggable (hnew : commit ∉ d.opened.tags) (position : ℕ) :
    Spec (OnBranch d b) (env.indexStream position b)
      (fun v s => (OnBranch d b s ∧ s.Taggable b commit v) ∧ env.IndexCallsSucceed position)
      (fun _ _ => ¬ env.IndexCallsSucceed position) (fun _ _ => True) := by
  refine Spec.of_forall fun s₀ hs₀ => ?_
  obtain ⟨l, hl⟩ := hs₀.branch
  have hversion := (env.indexStream_spec (T := fun _ _ => True) (B := True) (fun _ _ _ => trivial)
    (fun _ _ _ => trivial) position).pre (P := fun s => s = s₀) fun s hs => hs ▸ hl
  have hexact := (env.indexStream_exact position).pre (P := fun s => s = s₀) fun s hs => hs ▸ hs₀
  refine (hexact.and hversion).weaken (fun _ h => h) (fun v s h => ?_) (fun _ _ h => h.1)
    (fun _ _ _ => trivial)
  obtain ⟨⟨hs, hok⟩, l', hat, hserves⟩ := h
  exact ⟨⟨hs, taggable_of_servesFrom hnew hat hserves⟩, hok⟩

theorem headVersion_exact (hnew : commit ∉ d.opened.tags) :
    Spec (fun s => OnBranch d b s ∧ s.cached = some s.opened.main.head)
      (withContext message (env.ioBranchHeadVersion .headVersion b))
      (fun v s => (OnBranch d b s ∧ s.Taggable b commit v) ∧
        (b ≠ mainBranch → env.fails .headVersion = false))
      (fun _ _ => b ≠ mainBranch ∧ env.fails .headVersion = true) (fun _ _ => True) := by
  have htaggable : ∀ s l, OnBranch d b s → s.opened.lineage? (wantBranch b) = some l →
      s.Taggable b commit l.head := by
    intro s l hs hl
    refine ⟨hs.dataset, by rw [hs.tags]; exact hnew, ?_⟩
    rw [Dataset.rowsAt, hl, Option.bind_some, l.rows_head]
    rfl
  refine withContext_spec (Spec.ite (fun hb => ?_) fun hb => ?_)
  · refine Spec.bind ((openDataset_cached fun s hs => hs.1.cached).weaken (fun _ h => h)
      (fun _ _ h => h) (fun _ _ h => h.elim) (fun _ _ h => h)) fun _ => Spec.look fun s hs => ?_
    rw [hs.2, Option.getD_some]
    refine ⟨⟨hs.1, htaggable s _ hs.1 ?_⟩, fun hne => absurd hb hne⟩
    rw [hb, wantBranch, if_pos rfl, Dataset.lineage?_none]
  · refine Spec.bind ((checkoutBranch_exact (fun s hs => hs.1.dataset)
      fun s hs => hs.1.lineage).weaken (fun _ h => h) (fun _ _ h => h) (fun _ _ h => ⟨hb, h.2⟩)
        (fun _ _ h => h)) fun _ => Spec.of_and fun hok => Spec.look fun s hs => ?_
    obtain ⟨l, hl⟩ := hs.1.branch
    have hbind : (s.dataset.bind fun ds => ds.lineage? (wantBranch b)) = some l := by
      rw [Domain.dataset_eq_opened hl.dataset]
      exact hl.lineage
    rw [hbind]
    exact ⟨⟨hs.1, htaggable s l hs.1 hl.lineage⟩, fun _ => hok⟩

/-- A failure to tag leaves no tag, unless only the refresh after it fails. -/
theorem tagCommit_exact {v : ℕ} (hnew : commit ∉ d.opened.tags) :
    Spec (fun s => OnBranch d b s ∧ s.Taggable b commit v) (env.ioTagCommit b commit v)
      (fun _ s => commit ∈ s.opened.tags ∧ env.TagCallsReport b)
      (fun _ s => env.TagCallsReport b ↔ commit ∉ s.opened.tags) (fun _ _ => True) := by
  have huntagged : ∀ s, OnBranch d b s → commit ∉ s.opened.tags := fun s hs => by
    rw [hs.tags]
    exact hnew
  refine Spec.bind (R := fun _ s => (OnBranch d b s ∧ s.Taggable b commit v) ∧
      ¬ (b ≠ mainBranch ∧ env.fails .openTag = true)) (Spec.ite (fun hb => ?_) fun hb => ?_)
    fun _ => Spec.of_and fun hopen => ?_
  · exact (openDataset_cached fun s hs => hs.1.cached).weaken (fun _ h => h)
      (fun _ _ h => ⟨h, fun hno => hno.1 hb⟩) (fun _ _ h => h.elim) (fun _ _ h => h)
  · refine (checkoutBranch_exact (fun s hs => hs.1.dataset) fun s hs => hs.1.lineage).weaken
      (fun _ h => h) (fun _ _ h => ⟨h.1, fun hno => ?_⟩) (fun _ s h => ?_) (fun _ _ h => h)
    · rw [h.2] at hno
      cases hno.2
    · exact ⟨fun _ => huntagged s h.1.1, fun _ => .inl ⟨hb, h.2⟩⟩
  · refine Spec.bind (R := fun _ s => (s.dataset.isSome ∧ commit ∈ s.opened.tags) ∧
        env.fails .createTag = false) ((onDataset_exact fun s hs => ?_).weaken (fun _ h => h)
          (fun _ _ h => h) (fun _ s h => ?_) (fun _ _ h => h)) fun _ => Spec.of_and fun hcreate => ?_
    · refine ⟨_, _, Domain.dataset_eq_opened hs.1.dataset, hs.2.createTag, rfl, ?_⟩
      rw [Domain.opened_of_some rfl, ← AList.lookup_isSome, Dataset.lookup_putTag, if_pos rfl]
      rfl
    · exact ⟨fun _ => huntagged s h.1.1, fun _ => .inr (.inl h.2)⟩
    · refine Spec.bind ((refresh_exact (fun _ hs => hs.1) (Q := fun s => commit ∈ s.opened.tags)
        fun s hs => ?_).weaken (fun _ h => h) (fun _ _ h => h) (fun _ s h => ?_)
          (fun _ _ h => h)) fun _ => cacheLastIndexed_spec fun s hs => ?_
      · rw [Domain.refresh_opened]
        exact hs.2
      · refine iff_of_false ?_ fun hno => hno h.1.2
        rintro (hno | hno | hno)
        · exact hopen hno
        · rw [hcreate] at hno
          cases hno
        · rw [h.2] at hno
          cases hno
      · exact ⟨trivial, hs.1, .inr (.inr hs.2)⟩

end PushEnv

namespace Reporting

variable {α : Type} {env : PushEnv V} {d : Domain V} {b : BranchName} {commit : CommitId}
  {ops : List Operation} {c : Collected V}

section Rules

variable {P : Domain V → Prop} {Q : α → Domain V → Prop} {E : String → Domain V → Prop}
  {m : Push V α}

/-- A store program between two updates. -/
theorem beside_spec (h : Spec P m Q E (fun _ _ => True)) :
    Spec (fun x => P x.1 ∧ OnlyProgress x.2) (beside m : Reporting V α)
      (fun a x => Q a x.1 ∧ OnlyProgress x.2) (fun e x => E e x.1 ∧ OnlyProgress x.2)
      (fun _ _ => True) := by
  refine Spec.beside fun us => ?_
  intro s hs
  obtain ⟨-, hend⟩ := h s hs.1
  refine ⟨fun _ _ => trivial, ?_⟩
  cases hr : (m s).result with
  | ok a =>
    rw [hr] at hend
    exact ⟨hend, hs.2⟩
  | error e =>
    rw [hr] at hend
    exact ⟨hend, hs.2⟩

theorem reported_spec (h : Spec P m Q E (fun _ _ => True)) :
    Spec (fun x => P x.1 ∧ OnlyProgress x.2) (reported m)
      (fun a x => Q a x.1 ∧ OnlyProgress x.2)
      (fun e x => E e x.1 ∧ ∃ ps, OnlyProgress ps ∧ x.2 = ps ++ [.error e]) (fun _ _ => True) := by
  have hattempt : Spec (fun x => P x.1 ∧ OnlyProgress x.2)
      (attempt (beside m : Reporting V α) : Reporting V (Except String α))
      (fun r x => OnlyProgress x.2 ∧ (∀ a, r = .ok a → Q a x.1) ∧ ∀ e, r = .error e → E e x.1)
      (fun _ _ => False) (fun _ _ => True) := by
    refine Spec.attempt ((beside_spec h).weaken (fun _ hx => hx) (fun a x hx => ?_)
      (fun e x hx => ?_) (fun _ _ h => h))
    · refine ⟨hx.2, fun b hb => ?_, fun e he => ?_⟩
      · rw [← Except.ok.inj hb]
        exact hx.1
      · cases he
    · refine ⟨hx.2, fun a ha => ?_, fun e' he => ?_⟩
      · cases ha
      · rw [← Except.error.inj he]
        exact hx.1
  refine Spec.bind (hattempt.weaken (fun _ hx => hx) (fun _ _ hx => hx) (fun _ _ hx => hx.elim)
    (fun _ _ h => h)) fun r => ?_
  cases r with
  | ok a => exact Spec.pure fun x hx => ⟨hx.2.1 a rfl, hx.1⟩
  | error e =>
    refine Spec.bind (R := fun _ x => E e x.1 ∧ ∃ ps, OnlyProgress ps ∧ x.2 = ps ++ [.error e])
      (Spec.send fun s us hx => ⟨hx.2.2 e rfl, us, hx.1, rfl⟩) fun _ => Spec.fail fun x hx => hx

end Rules

/-- How the write phase fails: without a word and `R` is false, or with a report, and then
`R` says that the commit is not tagged. -/
def WriteBroken (R : Prop) (commit : CommitId) (e : String)
    (x : Domain V × List ProgressUpdate) : Prop :=
  (OnlyProgress x.2 ∧ ¬ R) ∨
    ∃ ps, OnlyProgress ps ∧ x.2 = ps ++ [.error e] ∧ (R ↔ commit ∉ x.1.opened.tags)

/-- What the books of the stream say about the work to do. -/
structure Work (env : PushEnv V) (ops : List Operation) (c : Collected V) : Prop where
  rows : env.HasRows ops ↔ c.rows ≠ []
  deletes : env.HasDeletes ops ↔ c.deleteIds ≠ []
  indexed : c.indexed = 0 ↔ c.rows = []

theorem work_of_collectStream {expectedDocs : Option ℕ}
    (hc : env.collectStream expectedDocs ops = .ok c) : Work env ops c := by
  have hclosed := collectStream_closed hc
  obtain ⟨docs, hdocs⟩ := collectStream_collects hc
  have hindexed := hdocs.indexed_eq_zero
  refine ⟨?_, ?_, hindexed⟩
  · have hne : c.rows ≠ [] ↔ 0 < c.indexed := by
      rw [Nat.pos_iff_ne_zero, ne_eq, ne_eq, hindexed]
    rw [hne, hclosed.indexed, List.countP_pos_iff]
    rfl
  · have hmem : c.deleteIds ≠ [] ↔ ∃ id, id ∈ c.deleteIds := by
      rw [← List.isEmpty_eq_false_iff, List.isEmpty_eq_false_iff_exists_mem]
    rw [hmem]
    simp only [hclosed.deleteIds.mem_iff, List.mem_append, exists_or]
    refine or_congr (exists_congr fun id => mem_deletedIds.symm) ?_
    simp only [List.mem_filterMap]
    constructor
    · rintro ⟨o, ho, hok, hchanged⟩
      refine ⟨o.1.id, o, ho, ?_⟩
      simp [Embedded.replaced?, hok, hchanged]
    · rintro ⟨id, o, ho, hid⟩
      refine ⟨o, ho, ?_⟩
      unfold Embedded.replaced? at hid
      split at hid
      · rename_i h
        simpa using h
      · cases hid

theorem Work.idle (h : Work env ops c) :
    (c.indexed = 0 && c.deleteIds.isEmpty) = true ↔ ¬ (env.HasRows ops ∨ env.HasDeletes ops) := by
  rw [Bool.and_eq_true, decide_eq_true_eq, List.isEmpty_iff, h.indexed, h.rows, h.deletes,
    not_or, not_not, not_not]

section Write

variable {R : Prop}

theorem reportedTag_spec {v : ℕ} {message : String} (hnew : commit ∉ d.opened.tags)
    (hR : R ↔ env.TagCallsReport b) :
    Spec (fun x => (OnBranch d b x.1 ∧ x.1.Taggable b commit v) ∧ OnlyProgress x.2)
      (reported (withContext message (env.ioTagCommit b commit v)))
      (fun _ x => (commit ∈ x.1.opened.tags ∧ R) ∧ OnlyProgress x.2) (WriteBroken R commit)
      (fun _ _ => True) := by
  refine (reported_spec (withContext_spec (PushEnv.tagCommit_exact hnew))).weaken (fun _ h => h)
    (fun _ x h => ⟨⟨h.1.1, hR.mpr h.1.2⟩, h.2⟩) (fun e x h => ?_) (fun _ _ h => h)
  obtain ⟨hiff, ps, hps, hus⟩ := h
  exact .inr ⟨ps, hps, hus, hR.trans hiff⟩

/-- Past the tag nothing fails any more. -/
theorem cacheTagged_spec {v : ℕ} :
    Spec (fun x => (commit ∈ x.1.opened.tags ∧ R) ∧ OnlyProgress x.2)
      (beside (withContext "" (StoreEnv.cacheLastIndexed b commit v)) : Reporting V Unit)
      (fun _ x => (commit ∈ x.1.opened.tags ∧ R) ∧ OnlyProgress x.2) (WriteBroken R commit)
      (fun _ _ => True) := by
  have hcache : Spec (fun s : Domain V => commit ∈ s.opened.tags ∧ R)
      (withContext "" (StoreEnv.cacheLastIndexed b commit v))
      (fun _ s => commit ∈ s.opened.tags ∧ R) (fun _ _ => False) (fun _ _ => True) :=
    withContext_spec (E := fun _ => False) (cacheLastIndexed_spec fun s hs => ⟨trivial, hs⟩)
  exact (beside_spec hcache).weaken (fun _ h => h) (fun _ _ h => h) (fun _ _ h => h.1.elim)
    (fun _ _ h => h)

theorem tagWork_spec {v : ℕ} (hnew : commit ∉ d.opened.tags) (hR : R ↔ env.TagCallsReport b) :
    Spec (fun x => (OnBranch d b x.1 ∧ x.1.Taggable b commit v) ∧ OnlyProgress x.2)
      (tagWork env b commit v)
      (fun _ x => (commit ∈ x.1.opened.tags ∧ R) ∧ OnlyProgress x.2) (WriteBroken R commit)
      (fun _ _ => True) := by
  refine Spec.bind (reportedTag_spec hnew hR) fun _ => Spec.bind cacheTagged_spec fun _ =>
    Spec.bind (R := fun _ x => (commit ∈ x.1.opened.tags ∧ R) ∧ OnlyProgress x.2) ?_ fun _ =>
      Spec.pure fun x hx => hx
  refine (beside_spec (Spec.attempt_const (E := fun _ _ => False)
    (env.onDataset_spec (fun s ds ds' (hs : commit ∈ s.opened.tags ∧ R) hds hf => ?_)
      fun s hs _ => hs))).weaken (fun _ h => h) (fun _ _ h => h) (fun _ _ h => h.1.elim)
        (fun _ _ h => h)
  obtain rfl := Except.ok.inj hf
  rw [Domain.opened_of_some hds] at hs
  exact ⟨trivial, by rw [Domain.opened_of_some rfl, Dataset.cleanup_tags]; exact hs.1, hs.2⟩

theorem tagNoop_spec (hnew : commit ∉ d.opened.tags)
    (hR : R ↔ (b ≠ mainBranch → env.fails .headVersion = false) ∧ env.TagCallsReport b) :
    Spec (fun x => (OnBranch d b x.1 ∧ x.1.cached = some x.1.opened.main.head) ∧
        OnlyProgress x.2) (tagNoop env b commit)
      (fun _ x => (commit ∈ x.1.opened.tags ∧ R) ∧ OnlyProgress x.2) (WriteBroken R commit)
      (fun _ _ => True) := by
  refine Spec.bind ((reported_spec (withContext_spec (openDataset_cached
    fun s (hs : OnBranch d b s ∧ s.cached = some s.opened.main.head) => hs.1.cached))).weaken
      (fun _ h => h) (fun _ _ h => h) (fun _ _ h => h.1.elim) (fun _ _ h => h)) fun _ =>
        Spec.bind (R := fun v x => ((OnBranch d b x.1 ∧ x.1.Taggable b commit v) ∧
          OnlyProgress x.2) ∧ (b ≠ mainBranch → env.fails .headVersion = false))
          ((beside_spec (PushEnv.headVersion_exact hnew)).weaken (fun _ h => h)
            (fun _ _ h => ⟨⟨h.1.1, h.2⟩, h.1.2⟩) (fun _ x h => .inl ⟨h.2, fun hreports => ?_⟩)
            (fun _ _ h => h)) fun v => Spec.of_and fun hhead => ?_
  · rw [(hR.mp hreports).1 h.1.1] at h
    cases h.1.2
  · have hR' : R ↔ env.TagCallsReport b := by
      rw [hR]
      exact and_iff_right hhead
    exact Spec.bind (reportedTag_spec hnew hR') fun _ => cacheTagged_spec

/-- The end of the pipeline, when its writes have gone through. -/
theorem tagStream_spec (hnew : commit ∉ d.opened.tags) (hwork : Work env ops c)
    (hdelete : env.HasDeletes ops → env.fails .delete = false)
    (happend : env.HasRows ops → env.fails .append = false)
    (hrefresh : env.fails .refreshWritten = false) :
    Spec (fun x => (OnBranch d b x.1 ∧ x.1.cached = some x.1.opened.main.head) ∧
        OnlyProgress x.2) (tagStream env b commit (env.position d b) c)
      (fun _ x => (commit ∈ x.1.opened.tags ∧ env.WriteReports d b ops) ∧ OnlyProgress x.2)
      (WriteBroken (env.WriteReports d b ops) commit) (fun _ _ => True) := by
  refine Spec.ite (fun hidle => ?_) fun hbusy => ?_
  · rw [hwork.idle] at hidle
    refine tagNoop_spec hnew ⟨fun h => ⟨h.head hidle, h.tag⟩, fun h => ?_⟩
    exact ⟨hdelete, happend, hrefresh, fun hsome => absurd hsome hidle, fun _ => h.1, h.2⟩
  · rw [hwork.idle, not_not] at hbusy
    refine Spec.bind (R := fun v x => ((OnBranch d b x.1 ∧ x.1.Taggable b commit v) ∧
        OnlyProgress x.2) ∧ env.IndexCallsSucceed (env.position d b))
      ((beside_spec ((PushEnv.indexStream_taggable hnew _).pre
        fun s (hs : OnBranch d b s ∧ s.cached = some s.opened.main.head) => hs.1)).weaken
        (fun _ h => h) (fun _ _ h => ⟨⟨h.1.1, h.2⟩, h.1.2⟩)
        (fun _ x h => .inl ⟨h.2, fun hreports => h.1 (hreports.index hbusy)⟩) (fun _ _ h => h))
      fun v => Spec.of_and fun hindex => ?_
    refine tagWork_spec hnew ⟨fun h => h.tag, fun htag => ?_⟩
    exact ⟨hdelete, happend, hrefresh, fun _ => hindex, fun hno => absurd hbusy hno, htag⟩

theorem writeStream_spec (hnew : commit ∉ d.opened.tags) (hwork : Work env ops c) :
    Spec (fun x => OnBranch d b x.1 ∧ OnlyProgress x.2)
      (writeStream env b commit (env.position d b) c)
      (fun _ x => (commit ∈ x.1.opened.tags ∧ env.WriteReports d b ops) ∧ OnlyProgress x.2)
      (WriteBroken (env.WriteReports d b ops) commit) (fun _ _ => True) := by
  refine Spec.bind (R := fun _ x => (OnBranch d b x.1 ∧ OnlyProgress x.2) ∧
      (c.deleteIds ≠ [] → env.fails .delete = false))
    ((beside_spec (PushEnv.unlessEmpty_exact (PushEnv.commitOn_exact _))).weaken (fun _ h => h)
      (fun _ _ h => ⟨⟨h.1.1, h.2⟩, h.1.2⟩) (fun _ x h => .inl ⟨h.2, fun hreports => ?_⟩)
      (fun _ _ h => h)) fun _ => Spec.of_and fun hdelete => ?_
  · have hoff := hreports.delete (hwork.deletes.mpr h.1.1)
    rw [h.1.2] at hoff
    cases hoff
  refine Spec.bind (R := fun _ x => (OnBranch d b x.1 ∧ OnlyProgress x.2) ∧
      (c.rows ≠ [] → env.fails .append = false))
    ((beside_spec (PushEnv.unlessEmpty_exact (PushEnv.commitOn_exact _))).weaken (fun _ h => h)
      (fun _ _ h => ⟨⟨h.1.1, h.2⟩, h.1.2⟩) (fun _ x h => .inl ⟨h.2, fun hreports => ?_⟩)
      (fun _ _ h => h)) fun _ => Spec.of_and fun happend => ?_
  · have hoff := hreports.append (hwork.rows.mpr h.1.1)
    rw [h.1.2] at hoff
    cases hoff
  refine Spec.bind (R := fun _ x => ((OnBranch d b x.1 ∧
      x.1.cached = some x.1.opened.main.head) ∧ OnlyProgress x.2) ∧
        env.fails .refreshWritten = false)
    ((beside_spec PushEnv.refreshBranch_exact).weaken (fun _ h => h)
      (fun _ _ h => ⟨⟨h.1.1, h.2⟩, h.1.2⟩) (fun _ x h => .inl ⟨h.2, fun hreports => ?_⟩)
      (fun _ _ h => h)) fun _ => Spec.of_and fun hrefresh => ?_
  · have hoff := hreports.refresh
    rw [h.1] at hoff
    cases hoff
  exact tagStream_spec hnew hwork (fun h => hdelete (hwork.deletes.mp h))
    (fun h => happend (hwork.rows.mp h)) hrefresh

end Write

section Ends

variable {x : Domain V × List ProgressUpdate} {result : Except String (ℕ × List SkippedDoc)}

theorem not_wellFormed_of_only (h : OnlyProgress x.2) : ¬ WellFormedProgress ops commit x result := by
  rintro ⟨ps, t, hus, -, ht, -⟩
  have hprogress := h.only t (by rw [hus]; simp)
  rw [ht] at hprogress
  cases hprogress

theorem wellFormed_iff {ps : List ProgressUpdate} {t : ProgressUpdate} (hus : x.2 = ps ++ [t])
    (hps : OnlyProgress ps) (ht : t.isProgress = false) :
    WellFormedProgress ops commit x result ↔
      ((∃ indexed skipped, t = .complete indexed skipped) ↔ commit ∈ x.1.opened.tags) ∧
      (∀ indexed skipped, t = .complete indexed skipped → result = .ok (indexed, skipped)) ∧
      (t = .aborted ↔ .abort ∈ ops ∧ result = .error "push aborted by client") := by
  constructor
  · rintro ⟨ps', t', hus', -, -, h⟩
    have hlast := List.append_inj' (hus.symm.trans hus') rfl
    obtain rfl := List.singleton_inj.mp hlast.2
    exact h
  · exact fun h => ⟨ps, t, hus, hps, ht, h⟩

theorem wellFormed_error_iff {ps : List ProgressUpdate} {e : String} (hus : x.2 = ps ++ [.error e])
    (hps : OnlyProgress ps) (hr : ¬ (.abort ∈ ops ∧ result = .error "push aborted by client")) :
    WellFormedProgress ops commit x result ↔ commit ∉ x.1.opened.tags := by
  rw [wellFormed_iff hus hps rfl]
  constructor
  · rintro ⟨hiff, -, -⟩ htag
    obtain ⟨indexed, skipped, h⟩ := hiff.mpr htag
    cases h
  · intro hno
    refine ⟨⟨?_, fun h => absurd h hno⟩, ?_, ?_, fun h => absurd h hr⟩
    · rintro ⟨indexed, skipped, h⟩
      cases h
    · intro indexed skipped h
      cases h
    · intro h
      cases h

end Ends

section Start

theorem ensureDataset_exact :
    Spec (fun s => s = d) (withContext "failed to ensure dataset"
        (env.ioOpenDataset .ensureDataset) : Push V Unit)
      (fun _ s => s = d.openDataset ∧ (d.cached.isSome ∨ env.fails .ensureDataset = false))
      (fun _ _ => ¬ (d.cached.isSome ∨ env.fails .ensureDataset = false)) (fun _ _ => True) := by
  refine withContext_spec (E := fun _ => ¬ (d.cached.isSome ∨ env.fails .ensureDataset = false))
    (Spec.step fun s hs => ?_)
  subst hs
  cases hcached : s.cached with
  | some v => simp
  | none =>
    cases hop : env.fails .ensureDataset with
    | true => simp
    | false => simp

theorem openBranch_exact (hds : d.openDataset.dataset.isSome) :
    Spec (fun s => s = d.openDataset) (withContext "failed to open write handle"
        (env.ioOpenBranchForWrite .openBranch b) : Push V Unit)
      (fun _ s => s = d.openDataset ∧
        (env.fails .openBranch = false ∧ (d.opened.lineage? (wantBranch b)).isSome))
      (fun _ _ => ¬ (env.fails .openBranch = false ∧ (d.opened.lineage? (wantBranch b)).isSome))
      (fun _ _ => True) := by
  refine withContext_spec (E := fun _ => ¬ (env.fails .openBranch = false ∧
    (d.opened.lineage? (wantBranch b)).isSome)) (Spec.look fun s hs => ?_)
  subst hs
  rw [Domain.dataset_eq_opened hds, Domain.openDataset_opened]
  cases hop : env.fails .openBranch with
  | true => simp
  | false =>
    cases hl : d.opened.lineage? (wantBranch b) with
    | none => simp [hl]
    | some l => simp [hl]

theorem countCommits_exact (hds : d.openDataset.dataset.isSome) :
    Spec (fun s => s = d.openDataset) (env.countCommits b : Push V ℕ)
      (fun n s => s = d.openDataset ∧ n = env.position d b) (fun _ _ => False)
      (fun _ _ => True) := by
  refine Spec.look fun s hs => ?_
  subst hs
  rw [Domain.dataset_eq_opened hds, Domain.openDataset_opened]
  exact ⟨rfl, rfl⟩

end Start

/-- A call before the first operation is read. -/
theorem startCall_spec {α : Type} {d d' : Domain V} {m : Push V α} {p : α → Prop} {q : Prop}
    {E : String → Domain V × List ProgressUpdate → Prop}
    (h : Spec (fun s => s = d) m (fun a s => s = d' ∧ p a) (fun _ _ => q) (fun _ _ => True))
    (hE : ∀ {e : String} {x : Domain V × List ProgressUpdate}, OnlyProgress x.2 → q → E e x) :
    Spec (fun x => x.1 = d ∧ x.2 = []) (beside m : Reporting V α)
      (fun a x => (x.1 = d' ∧ x.2 = []) ∧ p a) E (fun _ _ => True) := by
  refine Spec.beside fun us s hs => ?_
  obtain ⟨-, hend⟩ := h s hs.1
  refine ⟨fun _ _ => trivial, ?_⟩
  cases hr : (m s).result with
  | ok a =>
    rw [hr] at hend
    exact ⟨⟨hend.1, hs.2⟩, hend.2⟩
  | error e =>
    rw [hr] at hend
    refine hE ?_ hend
    rw [hs.2]
    exact onlyProgress_nil

theorem truncatedText_head (n : ℕ) (st : Reading V) :
    (IngestEnv.truncatedText n st).toList.head? = some 't' := by
  unfold IngestEnv.truncatedText
  cases st.collected.skipped.head? with
  | none =>
    simp only [String.toList_append, List.append_assoc]
    rfl
  | some first =>
    simp only [String.toList_append, List.append_assoc]
    rfl

theorem truncatedText_ne {n : ℕ} {st : Reading V} {text : String}
    (h : text.toList.head? ≠ some 't') : IngestEnv.truncatedText n st ≠ text := by
  rintro rfl
  exact h (truncatedText_head n st)

/-- The error tells whether the token was cancelled, and whether an abort came first. -/
theorem collectStream_error {expectedDocs : Option ℕ} {e : String}
    (hc : env.collectStream expectedDocs ops = .error e) :
    ((∀ p ∈ env.reachedLooks expectedDocs ops, env.cancelled p = false) ↔
        e ≠ IngestEnv.superseded) ∧
      (e ≠ IngestEnv.superseded → env.Stops expectedDocs ops) ∧
      (e = "push aborted by client" → .abort ∈ ops) := by
  have haborted : "push aborted by client" ≠ IngestEnv.superseded := by decide
  by_cases habort : .abort ∈ ops
  · refine ⟨?_, fun _ => .inl habort, fun _ => habort⟩
    rcases collectStream_abort env.toIngestEnv expectedDocs habort with ⟨hlooks, hc'⟩ | ⟨hlooks, hc'⟩
    · obtain rfl := Except.error.inj (hc.symm.trans hc')
      exact iff_of_false hlooks fun h => h rfl
    · obtain rfl := Except.error.inj (hc.symm.trans hc')
      exact iff_of_true hlooks haborted
  · rcases collectStream_noAbort env.toIngestEnv expectedDocs habort with ⟨hlooks, hc'⟩ |
      ⟨hlooks, ⟨hstops, n, st, hc'⟩ | ⟨-, c, hc'⟩⟩
    · obtain rfl := Except.error.inj (hc.symm.trans hc')
      exact ⟨iff_of_false hlooks fun h => h rfl, fun h => absurd rfl h,
        fun h => absurd h.symm haborted⟩
    · obtain rfl := Except.error.inj (hc.symm.trans hc')
      exact ⟨iff_of_true hlooks (truncatedText_ne (by decide)), fun _ => hstops,
        fun h => absurd h (truncatedText_ne (by decide))⟩
    · rw [hc] at hc'
      cases hc'

/-- The exits of the collecting phase. -/
theorem broken_wellFormed_iff {expectedDocs : Option ℕ} {e : String}
    {x : Domain V × List ProgressUpdate} (hnew : commit ∉ d.opened.tags)
    (hdataset : d.cached.isSome ∨ env.fails .ensureDataset = false)
    (hhandle : env.fails .openBranch = false ∧ (d.opened.lineage? (wantBranch b)).isSome)
    (hbroken : Broken d.openDataset e x) (hc : env.collectStream expectedDocs ops = .error e) :
    WellFormedProgress ops commit x (.error e) ↔ env.Reports d b expectedDocs ops := by
  obtain ⟨hx, hcases⟩ := hbroken
  obtain ⟨hlooks, hstops, habort⟩ := collectStream_error hc
  have huntagged : commit ∉ x.1.opened.tags := by
    rw [hx, Domain.openDataset_opened]
    exact hnew
  have hreports : env.Reports d b expectedDocs ops ↔ e ≠ IngestEnv.superseded :=
    ⟨fun h => hlooks.mp h.looks,
      fun h => ⟨hdataset, hhandle, hlooks.mpr h, fun hno => absurd (hstops h) hno⟩⟩
  rw [hreports]
  rcases hcases with ⟨he, honly⟩ | ⟨ps, hps, ⟨he, hus⟩ | ⟨⟨n, st, he⟩, hus⟩⟩
  · exact iff_of_false (not_wellFormed_of_only honly) fun hno => hno he
  · refine iff_of_true ((wellFormed_iff hus hps rfl).mpr ⟨?_, ?_, ?_⟩) ?_
    · refine ⟨?_, fun h => absurd h huntagged⟩
      rintro ⟨indexed, skipped, h⟩
      cases h
    · intro indexed skipped h
      cases h
    · exact iff_of_true rfl ⟨habort he, by rw [he]⟩
    · rw [he]
      decide
  · refine iff_of_true ((wellFormed_error_iff hus hps fun h => ?_).mpr huntagged) ?_
    · exact truncatedText_ne (by decide) (he.symm.trans (Except.error.inj h.2))
    · rw [he]
      exact truncatedText_ne (by decide)

/-- The exits of the write phase. -/
theorem writeBroken_wellFormed_iff {e : String} {x : Domain V × List ProgressUpdate} {R : Prop}
    (habort : .abort ∉ ops) (h : WriteBroken R commit e x) :
    WellFormedProgress ops commit x (.error e) ↔ R := by
  rcases h with ⟨honly, hR⟩ | ⟨ps, hps, hus, hR⟩
  · exact iff_of_false (not_wellFormed_of_only honly) hR
  · rw [wellFormed_error_iff hus hps fun h => habort h.1]
    exact hR.symm

theorem complete_wellFormed {indexed : ℕ} {skipped : List SkippedDoc} {ps : List ProgressUpdate}
    {x : Domain V × List ProgressUpdate} (htag : commit ∈ x.1.opened.tags) (hps : OnlyProgress ps)
    (hus : x.2 = ps ++ [.complete indexed skipped]) :
    WellFormedProgress ops commit x (.ok (indexed, skipped)) := by
  refine (wellFormed_iff hus hps rfl).mpr ⟨iff_of_true ⟨_, _, rfl⟩ htag, ?_, ?_⟩
  · intro indexed' skipped' h
    obtain ⟨rfl, rfl⟩ := ProgressUpdate.complete.inj h
    rfl
  · refine iff_of_false (fun h => ?_) fun h => ?_
    · cases h
    · cases h.2

/-- The updates of a streaming push are well formed exactly if no exit of the pipeline is
without a report. -/
theorem progress_wellFormed_iff (env : PushEnv V) (b : BranchName) (commit : CommitId)
    (expectedDocs : Option ℕ) (ops : List Operation) (d : Domain V)
    (hopen : d.cached.isSome → d.dataset.isSome) (hnew : commit ∉ d.opened.tags) :
    WellFormedProgress ops commit
        (ioRunIndexPipelineStream env b commit expectedDocs ops (d, [])).store
        (ioRunIndexPipelineStream env b commit expectedDocs ops (d, [])).result ↔
      env.Reports d b expectedDocs ops := by
  have hds : d.openDataset.dataset.isSome := by
    unfold Domain.openDataset
    split
    · rename_i v hv
      exact hopen (by rw [hv]; rfl)
    · rfl
  have hspec : Spec (fun x => x.1 = d ∧ x.2 = []) (ioRunIndexPipelineStream env b commit
      expectedDocs ops)
      (fun out x => WellFormedProgress ops commit x (.ok out) ↔ env.Reports d b expectedDocs ops)
      (fun e x => WellFormedProgress ops commit x (.error e) ↔ env.Reports d b expectedDocs ops)
      (fun _ _ => True) := by
    refine Spec.bind (R := fun _ x => (x.1 = d.openDataset ∧ x.2 = []) ∧
        (d.cached.isSome ∨ env.fails .ensureDataset = false))
      (startCall_spec ensureDataset_exact fun hx hno => ?_) fun _ => Spec.of_and fun hdataset => ?_
    · exact iff_of_false (not_wellFormed_of_only hx) fun h => hno h.dataset
    refine Spec.bind (R := fun _ x => (x.1 = d.openDataset ∧ x.2 = []) ∧
        (env.fails .openBranch = false ∧ (d.opened.lineage? (wantBranch b)).isSome))
      (startCall_spec (openBranch_exact hds) fun hx hno => ?_) fun _ =>
        Spec.of_and fun hhandle => ?_
    · exact iff_of_false (not_wellFormed_of_only hx) fun h => hno h.handle
    obtain ⟨l, hl⟩ := Option.isSome_iff_exists.mp hhandle.2
    have hon : OnBranch d b d.openDataset :=
      ⟨⟨l, .start hds (by simp) (by simp) hl⟩, d.openDataset_cached_isSome⟩
    refine Spec.bind (R := fun n x => (x.1 = d.openDataset ∧ x.2 = []) ∧ n = env.position d b)
      (startCall_spec (countCommits_exact hds) fun _ h => h.elim) fun position =>
        Spec.of_and fun hposition => ?_
    subst hposition
    refine Spec.bind ((Spec.known (erases_collectStream expectedDocs ops)
      (collectStream_spec expectedDocs ops)).weaken (fun x hx => Prod.ext hx.1 hx.2)
        (fun _ _ h => h) (fun e x h => broken_wellFormed_iff hnew hdataset hhandle h.1 h.2)
        (fun _ _ h => h)) fun c => Spec.of_and fun hc => ?_
    have habandoned := not_abandoned hc
    have habort : .abort ∉ ops := fun h => habandoned (.inl h)
    have hreports : env.Reports d b expectedDocs ops ↔ env.WriteReports d b ops := by
      rcases collectStream_noAbort env.toIngestEnv expectedDocs habort with ⟨-, hc'⟩ |
        ⟨hlooks, ⟨-, n, st, hc'⟩ | ⟨hstops, -⟩⟩
      · rw [hc] at hc'
        cases hc'
      · rw [hc] at hc'
        cases hc'
      · exact ⟨fun h => h.write hstops, fun h => ⟨hdataset, hhandle, hlooks, fun _ => h⟩⟩
    rw [hreports]
    refine Spec.bind ((writeStream_spec hnew (work_of_collectStream hc)).weaken
      (fun x hx => ⟨by rw [hx.1]; exact hon, hx.2⟩) (fun _ _ h => h)
      (fun e x h => writeBroken_wellFormed_iff habort h) (fun _ _ h => h)) fun _ =>
        Spec.bind (R := fun _ x => commit ∈ x.1.opened.tags ∧ env.WriteReports d b ops ∧
          ∃ ps, OnlyProgress ps ∧ x.2 = ps ++ [.complete c.indexed c.skipped])
          (Spec.send fun s us hx => ⟨hx.1.1, hx.1.2, us, hx.2, rfl⟩) fun _ =>
            Spec.pure fun x hx => ?_
    obtain ⟨htag, hwrite, ps, hps, hus⟩ := hx
    exact iff_of_true (complete_wellFormed htag hps hus) hwrite
  have hend := (hspec (d, []) ⟨rfl, rfl⟩).2
  cases hr : (ioRunIndexPipelineStream env b commit expectedDocs ops (d, [])).result with
  | ok out =>
    rw [hr] at hend
    exact hend
  | error e =>
    rw [hr] at hend
    exact hend

section Samples

/-- No call fails and nobody cancels. -/
theorem reports_fresh (expectedDocs : Option ℕ) (ops : List Operation) :
    (plainEnv fun _ => false).Reports .fresh mainBranch expectedDocs ops where
  dataset := .inr rfl
  handle := ⟨rfl, rfl⟩
  looks _ _ := rfl
  write _ :=
    { delete := fun _ => rfl
      append := fun _ => rfl
      refresh := rfl
      index := fun _ => ⟨rfl, fun _ => ⟨rfl, fun _ => rfl⟩, rfl⟩
      head := fun _ _ => rfl
      tag := .inr (.inr rfl) }

theorem progress_wellFormed_inserted :
    WellFormedProgress [.inserted "a" "text", .error "render"] "c"
      (ioRunIndexPipelineStream (plainEnv fun _ => false) mainBranch "c" none
        [.inserted "a" "text", .error "render"] (.fresh, [])).store
      (ioRunIndexPipelineStream (plainEnv fun _ => false) mainBranch "c" none
        [.inserted "a" "text", .error "render"] (.fresh, [])).result :=
  (progress_wellFormed_iff (plainEnv fun _ => false) mainBranch "c" none _ .fresh
    (by simp [Domain.fresh]) (by simp [Domain.fresh, Domain.opened, Dataset.create])).mpr
    (reports_fresh _ _)

/-- The append fails: the task ends in an error, the client has its progress and nothing after. -/
theorem progress_not_wellFormed_append :
    (ioRunIndexPipelineStream (plainEnv fun op => op == .append) mainBranch "c" none
        [.inserted "a" "text"] (.fresh, [])).store.2 = [.progress 1 1 0] ∧
      ¬ WellFormedProgress [.inserted "a" "text"] "c"
        (ioRunIndexPipelineStream (plainEnv fun op => op == .append) mainBranch "c" none
          [.inserted "a" "text"] (.fresh, [])).store
        (ioRunIndexPipelineStream (plainEnv fun op => op == .append) mainBranch "c" none
          [.inserted "a" "text"] (.fresh, [])).result := by
  have hsent : (ioRunIndexPipelineStream (plainEnv fun op => op == .append) mainBranch "c" none
      [.inserted "a" "text"] (.fresh, [])).store.2 = [.progress 1 1 0] := by decide +kernel
  refine ⟨hsent, not_wellFormed_of_only ?_⟩
  rw [hsent]
  exact ⟨by simp [ProgressUpdate.isProgress], List.isChain_singleton _⟩

end Samples

end Reporting

end Vectorlink
