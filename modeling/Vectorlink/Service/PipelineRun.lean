import Vectorlink.Service.Pipeline

/-! What the parts of a push can do to the domain, whichever Lance calls fail. -/
namespace Vectorlink

open Stepwise Stepwise.Program Versioned

variable {V α : Type}

namespace Domain

/-- A new commit tag on a branch. -/
def tag (d : Domain V) (b : BranchName) (commit : CommitId) (v : ℕ) : Domain V :=
  { d with dataset := d.dataset.map fun ds => ds.putTag commit (wantBranch b) v }

/-- The domain after `io_tag_commit`. -/
def tagged (d : Domain V) (b : BranchName) (commit : CommitId) (v : ℕ) : Domain V :=
  (d.tag b commit v).refresh.cacheLastIndexed b commit v

def cleaned (d : Domain V) : Domain V := { d with dataset := d.dataset.map Dataset.cleanup }

theorem opened_of_some {d : Domain V} {ds : LanceDataset (ChunkRow V)} (h : d.dataset = some ds) :
    d.opened = ds := by simp [opened, h]

theorem dataset_eq_opened {d : Domain V} (h : d.dataset.isSome) : d.dataset = some d.opened := by
  obtain ⟨ds, hds⟩ := Option.isSome_iff_exists.mp h
  rw [hds, opened_of_some hds]

@[simp] theorem openDataset_opened (d : Domain V) : d.openDataset.opened = d.opened := by
  unfold openDataset
  split
  · rfl
  · rfl

@[simp] theorem openDataset_branchIndexes (d : Domain V) :
    d.openDataset.branchIndexes = d.branchIndexes := by
  unfold openDataset
  split <;> rfl

theorem openDataset_of_cached {d : Domain V} (h : d.cached.isSome) : d.openDataset = d := by
  obtain ⟨v, hv⟩ := Option.isSome_iff_exists.mp h
  simp [openDataset, hv]

theorem openDataset_cached_isSome (d : Domain V) : d.openDataset.cached.isSome := by
  unfold openDataset
  cases h : d.cached <;> simp [h]

theorem openDataset_dataset_isSome {d : Domain V} (h : d.dataset.isSome) :
    d.openDataset.dataset.isSome := by
  unfold openDataset
  split
  · exact h
  · rfl

@[simp] theorem openReadonly_opened (d : Domain V) : d.openReadonly.opened = d.opened := by
  unfold openReadonly
  split <;> rfl

@[simp] theorem openReadonly_dataset (d : Domain V) : d.openReadonly.dataset = d.dataset := by
  unfold openReadonly
  split <;> rfl

@[simp] theorem openReadonly_branchIndexes (d : Domain V) :
    d.openReadonly.branchIndexes = d.branchIndexes := by
  unfold openReadonly
  split <;> rfl

@[simp] theorem refresh_dataset (d : Domain V) : d.refresh.dataset = d.dataset := by
  unfold refresh
  split <;> rfl

@[simp] theorem refresh_opened (d : Domain V) : d.refresh.opened = d.opened := by
  simp [opened]

@[simp] theorem refresh_branchIndexes (d : Domain V) :
    d.refresh.branchIndexes = d.branchIndexes := by
  unfold refresh
  split <;> rfl

theorem refresh_cached {d : Domain V} (h : d.dataset.isSome) :
    d.refresh.cached = some d.opened.main.head := by
  obtain ⟨ds, hds⟩ := Option.isSome_iff_exists.mp h
  simp [refresh, opened, hds]

theorem tag_opened {d : Domain V} (h : d.dataset.isSome) (b : BranchName) (commit : CommitId)
    (v : ℕ) : (d.tag b commit v).opened = d.opened.putTag commit (wantBranch b) v := by
  obtain ⟨ds, hds⟩ := Option.isSome_iff_exists.mp h
  simp [tag, opened, hds]

theorem tagged_opened {d : Domain V} (h : d.dataset.isSome) (b : BranchName) (commit : CommitId)
    (v : ℕ) : (d.tagged b commit v).opened = d.opened.putTag commit (wantBranch b) v := by
  have hrefresh : (d.tagged b commit v).opened = (d.tag b commit v).refresh.opened := rfl
  rw [hrefresh, refresh_opened, tag_opened h]

theorem cleaned_opened {d : Domain V} (h : d.dataset.isSome) :
    d.cleaned.opened = d.opened.cleanup := by
  obtain ⟨ds, hds⟩ := Option.isSome_iff_exists.mp h
  simp [cleaned, opened, hds]

theorem tagged_dataset_isSome {d : Domain V} (h : d.dataset.isSome) (b : BranchName)
    (commit : CommitId) (v : ℕ) : (d.tagged b commit v).dataset.isSome := by
  have hrefresh : (d.tagged b commit v).dataset = (d.tag b commit v).refresh.dataset := rfl
  simp [hrefresh, tag, h]

theorem tagged_cached {d : Domain V} (h : d.dataset.isSome) (b : BranchName) (commit : CommitId)
    (v : ℕ) : (d.tagged b commit v).cached = some d.opened.main.head := by
  have hsome : (d.tag b commit v).dataset.isSome := by simp [tag, h]
  have hrefresh : (d.tagged b commit v).cached = (d.tag b commit v).refresh.cached := rfl
  rw [hrefresh, refresh_cached hsome, tag_opened h]
  rfl

end Domain

section Calls

variable {P Q : Domain V → Prop} {E : Domain V → Prop} {T : StoreOp → Domain V → Prop}
  {op : StoreOp} {context : String} (env : StoreEnv)

theorem withContext_spec {m : StoreM V α} {Q : α → Domain V → Prop} {message : String}
    (h : Spec P m Q (fun _ => E) T) : Spec P (withContext message m) Q (fun _ => E) T :=
  Spec.mapError h

theorem unlessEmpty_spec {β ε : Type} {xs : List β} {m : Program StoreOp (Domain V) ε Unit}
    (hnil : xs = [] → ∀ s, P s → Q s) (h : xs ≠ [] → Spec P m (fun _ => Q) (fun _ => E) T) :
    Spec P (unlessEmpty xs m) (fun _ => Q) (fun _ => E) T := by
  refine Spec.ite (fun he => Spec.pure fun s hs => ?_) (fun he => h ?_)
  · exact hnil (List.isEmpty_iff.mp he) s hs
  · rintro rfl
    exact he rfl

namespace StoreEnv

theorem ioOpenDataset_spec (hok : ∀ s, P s → T op s.openDataset ∧ Q s.openDataset)
    (herr : env.fails op = true → ∀ s, P s → E s) :
    Spec P (env.ioOpenDataset op) (fun _ => Q) (fun _ => E) T := by
  refine Spec.step fun s hs => ?_
  cases hop : env.fails op with
  | true =>
    cases hc : s.cached.isNone with
    | true => simpa using herr hop s hs
    | false => simpa using hok s hs
  | false => simpa using hok s hs

theorem ioRefreshCachedDataset_spec (hok : ∀ s, P s → T op s.refresh ∧ Q s.refresh)
    (herr : env.fails op = true → ∀ s, P s → E s) :
    Spec P (env.ioRefreshCachedDataset op) (fun _ => Q) (fun _ => E) T := by
  refine Spec.step fun s hs => ?_
  cases hop : env.fails op with
  | true =>
    cases hc : s.dataset.isSome with
    | true => simpa using herr hop s hs
    | false => simpa using hok s hs
  | false => simpa using hok s hs

theorem onDataset_spec
    {f : LanceDataset (ChunkRow V) → Except RefError (LanceDataset (ChunkRow V))}
    (hok : ∀ s ds ds', P s → s.dataset = some ds → f ds = .ok ds' →
      T op { s with dataset := some ds' } ∧ Q { s with dataset := some ds' })
    (herr : ∀ s, P s → (env.fails op = true ∨ ∀ ds ds', s.dataset = some ds → f ds ≠ .ok ds') →
      E s) :
    Spec P (env.onDataset op context f) (fun _ => Q) (fun _ => E) T := by
  refine Spec.step fun s hs => ?_
  cases hop : env.fails op with
  | true => simpa using herr s hs (.inl hop)
  | false =>
    cases hds : s.dataset with
    | none => simpa using herr s hs (.inr (by simp [hds]))
    | some ds =>
      cases hf : f ds with
      | error e =>
        have hno : ∀ ds₁ ds', s.dataset = some ds₁ → f ds₁ ≠ .ok ds' := by
          intro ds₁ ds' hds₁ hok₁
          obtain rfl : ds = ds₁ := Option.some.inj (hds.symm.trans hds₁)
          rw [hf] at hok₁
          cases hok₁
        simpa [hf] using herr s hs (.inr hno)
      | ok ds' => simpa [hf] using hok s ds ds' hs hds hf

/-- A change that Lance does not refuse fails only as a call. -/
theorem onDataset_spec_of_ok
    {f : LanceDataset (ChunkRow V) → Except RefError (LanceDataset (ChunkRow V))}
    (hok : ∀ s, P s → ∃ ds ds', s.dataset = some ds ∧ f ds = .ok ds' ∧
      T op { s with dataset := some ds' } ∧ Q { s with dataset := some ds' })
    (herr : env.fails op = true → ∀ s, P s → E s) :
    Spec P (env.onDataset op context f) (fun _ => Q) (fun _ => E) T := by
  refine env.onDataset_spec (fun s ds ds' hs hds hf => ?_) (fun s hs h => ?_)
  · obtain ⟨ds₁, ds₁', hds₁, hf₁, hq⟩ := hok s hs
    obtain rfl : ds₁ = ds := Option.some.inj (hds₁.symm.trans hds)
    obtain rfl : ds₁' = ds' := Except.ok.inj (hf₁.symm.trans hf)
    exact hq
  · obtain ⟨ds, ds', hds, hf, -⟩ := hok s hs
    exact herr (h.resolve_right fun hno => hno ds ds' hds hf) s hs

theorem checkoutBranch_spec {b : BranchName}
    (hok : ∀ s ds l, P s → s.dataset = some ds → ds.lineage? (wantBranch b) = some l → Q s)
    (herr : ∀ s, P s → (env.fails op = true ∨
      ∀ ds, s.dataset = some ds → ds.lineage? (wantBranch b) = none) → E s) :
    Spec P (env.checkoutBranch op context b) (fun _ => Q) (fun _ => E) T := by
  refine Spec.look fun s hs => ?_
  cases hop : env.fails op with
  | true => simpa using herr s hs (.inl hop)
  | false =>
    cases hds : s.dataset with
    | none => simpa using herr s hs (.inr (by simp [hds]))
    | some ds =>
      cases hl : ds.lineage? (wantBranch b) with
      | none => simpa [hl] using herr s hs (.inr (by simp [hds, hl]))
      | some l => simpa [hl] using hok s ds l hs hds hl

theorem ioResolveCommit_spec {commit : CommitId} {Q : Option ℕ → Domain V → Prop}
    (hok : ∀ s, P s → T op s.openReadonly ∧
      Q ((s.dataset.bind fun ds => ds.tags.lookup commit).map (·.version)) s.openReadonly)
    (herr : ∀ s, P s → E s) :
    Spec P (env.ioResolveCommit op commit) Q (fun _ => E) T := by
  refine Spec.bind (R := fun _ s => ∃ s₀, P s₀ ∧ s = s₀.openReadonly) (Spec.step fun s hs => ?_)
    fun _ => Spec.look fun s hs => ?_
  · cases hop : env.fails op with
    | true => simpa using herr s hs
    | false => exact ⟨(hok s hs).1, s, hs, rfl⟩
  · obtain ⟨s₀, hs₀, rfl⟩ := hs
    have hq := (hok s₀ hs₀).2
    rw [Option.map_bind] at hq
    simpa using hq

end StoreEnv

end Calls

/-- The calls after which a push must not stop: the branch has new rows, the commit is not
recorded yet. -/
def StoreOp.hard : StoreOp → Bool
  | .refreshWritten | .openIndex | .ftsIndex | .vectorIndex | .clusteringIndex
  | .refreshIndexed | .openTag | .createTag | .refreshTag => true
  | _ => false

/-- The steps after which the branch and its last recorded commit agree. -/
def StoreOp.settled : StoreOp → Bool
  | .resolve | .ensureDataset | .ensureNoop | .headVersion | .cacheIndex | .cleanup => true
  | _ => false

/-- `s` is `d` with branch `b` at `l`: no tag and no recorded commit has changed. -/
structure AtBranch (d : Domain V) (b : BranchName) (l : Lineage (ChunkRow V)) (s : Domain V) :
    Prop where
  dataset : s.dataset.isSome
  tags : s.opened.tags = d.opened.tags
  clock : s.opened.clock = d.opened.clock
  lineage : s.opened.lineage? (wantBranch b) = some l
  others : ∀ b', b' ≠ wantBranch b → s.opened.lineage? b' = d.opened.lineage? b'
  indexes : s.branchIndexes = d.branchIndexes

namespace AtBranch

variable {d s : Domain V} {b : BranchName} {l : Lineage (ChunkRow V)}

theorem setLineage (h : AtBranch d b l s) (l' : Lineage (ChunkRow V)) :
    AtBranch d b l' { s with dataset := some (s.opened.setLineage (wantBranch b) l') } where
  dataset := rfl
  tags := by
    rw [Domain.opened_of_some rfl, Dataset.setLineage_tags, h.tags]
  clock := by
    rw [Domain.opened_of_some rfl, Dataset.setLineage_clock, h.clock]
  lineage := by
    rw [Domain.opened_of_some rfl, Dataset.lineage?_setLineage, if_pos rfl]
  others b' hb' := by
    rw [Domain.opened_of_some rfl, Dataset.lineage?_setLineage, if_neg hb', h.others b' hb']
  indexes := h.indexes

theorem commit_ok (h : AtBranch d b l s) (f : List (ChunkRow V) → List (ChunkRow V)) :
    s.dataset = some s.opened ∧ s.opened.commit (wantBranch b) f =
      .ok (s.opened.setLineage (wantBranch b) (l.advance (f l.headRows))) :=
  ⟨Domain.dataset_eq_opened h.dataset, Dataset.commit_ok.mpr ⟨l, h.lineage, rfl⟩⟩

theorem touch_ok (h : AtBranch d b l s) (n : ℕ) :
    s.dataset = some s.opened ∧ s.opened.touch (wantBranch b) n =
      .ok (s.opened.setLineage (wantBranch b) (l.touch n)) :=
  ⟨Domain.dataset_eq_opened h.dataset, Dataset.touch_ok.mpr ⟨l, h.lineage, rfl⟩⟩

theorem refresh (h : AtBranch d b l s) : AtBranch d b l s.refresh :=
  ⟨by simpa using h.dataset, by simpa using h.tags, by simpa using h.clock,
    by simpa using h.lineage, by simpa using h.others, by simpa using h.indexes⟩

theorem openDataset (h : AtBranch d b l s) : AtBranch d b l s.openDataset :=
  ⟨Domain.openDataset_dataset_isSome h.dataset, by simpa using h.tags, by simpa using h.clock,
    by simpa using h.lineage, by simpa using h.others, by simpa using h.indexes⟩

/-- The branch when nothing has been written yet. -/
theorem start (hds : s.dataset.isSome) (hopened : s.opened = d.opened)
    (hindexes : s.branchIndexes = d.branchIndexes)
    (hl : d.opened.lineage? (wantBranch b) = some l) : AtBranch d b l s :=
  ⟨hds, by rw [hopened], by rw [hopened], by rw [hopened, hl], fun b' _ => by rw [hopened],
    hindexes⟩

end AtBranch

/-- `l'` has come after `l` with rows `r`, at version `v` and at its head. -/
structure ServesFrom (l : Lineage (ChunkRow V)) (r : List (ChunkRow V)) (v : ℕ)
    (l' : Lineage (ChunkRow V)) : Prop where
  lower : l.head ≤ v
  upper : v ≤ l'.head
  rows : l'.rows v = some r
  headRows : l'.headRows = r

namespace PushEnv

variable (env : PushEnv V) {d : Domain V} {b : BranchName} {l : Lineage (ChunkRow V)} {B : Prop}
  {T : StoreOp → Domain V → Prop}

theorem touchOn_spec {op : StoreOp} {context : String} (hB : env.fails op = true → B)
    (hT : ∀ s, T op s) :
    Spec (AtBranch d b l) (env.touchOn op context b)
      (fun _ => AtBranch d b (l.touch (env.indexVersions op))) (fun _ _ => B) T := by
  refine env.onDataset_spec_of_ok (fun s hs => ?_) (fun hop _ _ => hB hop)
  obtain ⟨hds, htouch⟩ := hs.touch_ok (env.indexVersions op)
  exact ⟨_, _, hds, htouch, hT _, hs.setLineage _⟩

theorem handleVersion_spec {E : Domain V → Prop} :
    Spec (AtBranch d b l) (StoreEnv.handleVersion b) (fun v s => v = l.head ∧ AtBranch d b l s)
      (fun _ => E) T := by
  refine Spec.look fun s hs => ?_
  have hbind : (s.dataset.bind fun ds => ds.lineage? (wantBranch b)) = some l := by
    rw [Domain.dataset_eq_opened hs.dataset]
    exact hs.lineage
  rw [hbind]
  exact ⟨rfl, hs⟩

theorem refresh_spec {op : StoreOp} (hB : env.fails op = true → B) (hT : ∀ s, T op s) :
    Spec (AtBranch d b l) (env.ioRefreshCachedDataset op) (fun _ => AtBranch d b l)
      (fun _ _ => B) T :=
  env.ioRefreshCachedDataset_spec (fun _ hs => ⟨hT _, hs.refresh⟩) (fun hop _ _ => hB hop)

theorem ioOpenDatasetUncached_spec {op : StoreOp} {E : Domain V → Prop}
    (hE : env.fails op = true → ∀ s, AtBranch d b l s → E s) :
    Spec (AtBranch d b l) (env.ioOpenDatasetUncached op b)
      (fun existing s => existing = true ∧ AtBranch d b l s) (fun _ => E) T := by
  refine Spec.look fun s hs => ?_
  rw [Domain.dataset_eq_opened hs.dataset]
  cases hop : env.fails op with
  | true => simpa using hE hop s hs
  | false => simpa [hs.lineage] using hs

variable (hB : ∀ op, op.hard = true → env.fails op = true → B)
  (hT : ∀ op s, op.settled = false → T op s)

include hB hT

/-- A text index and one more index or two; the rows stay. -/
theorem ensureIndices_spec :
    Spec (AtBranch d b l) (env.ensureIndices b)
      (fun _ s => ∃ n, AtBranch d b (l.touch n) s) (fun _ _ => B) T := by
  refine Spec.bind (withContext_spec (env.touchOn_spec (hB _ rfl) fun s => hT _ s rfl)) fun _ =>
    Spec.bind (withContext_spec (env.touchOn_spec (hB _ rfl) fun s => hT _ s rfl)) fun _ =>
      Spec.ite (fun _ => ?_) (fun _ => Spec.pure fun s hs => ?_)
  · refine (withContext_spec (env.touchOn_spec (hB _ rfl) fun s => hT _ s rfl)).post
      fun _ s hs => ?_
    rw [Lineage.touch_touch, Lineage.touch_touch] at hs
    exact ⟨_, hs⟩
  · rw [Lineage.touch_touch] at hs
    exact ⟨_, hs⟩

theorem createIndices_spec :
    Spec (AtBranch d b l) (env.createIndices b)
      (fun v s => ∃ l', AtBranch d b l' s ∧ ServesFrom l l.headRows v l') (fun _ _ => B) T := by
  refine Spec.bind (env.ensureIndices_spec hB hT) fun _ => Spec.of_exists fun n =>
    Spec.bind (withContext_spec handleVersion_spec) fun v => Spec.bind
      (R := fun _ s => v = (l.touch n).head ∧
        ∃ m, AtBranch d b ((l.touch n).touch m) s) ?_ fun _ =>
      Spec.bind (R := fun _ s => v = (l.touch n).head ∧ ∃ m, AtBranch d b ((l.touch n).touch m) s)
        ?_ fun _ => Spec.pure fun s hs => ?_
  · -- the cascade: when it fails, the branch stays where it is
    refine Spec.attempt_const (E := fun _ _ => B) (env.onDataset_spec_of_ok (fun s hs => ?_)
      fun _ s hs => ?_)
    · obtain ⟨hds, htouch⟩ := hs.2.touch_ok (env.indexVersions .cascade)
      exact ⟨_, _, hds, htouch, hT _ _ rfl, hs.1, _, hs.2.setLineage _⟩
    · exact ⟨hs.1, 0, hs.2⟩
  · refine withContext_spec (env.ioRefreshCachedDataset_spec (fun s hs => ⟨hT _ _ rfl, hs.1, ?_⟩)
      fun hop _ _ => hB _ rfl hop)
    obtain ⟨m, hm⟩ := hs.2
    exact ⟨m, hm.refresh⟩
  · obtain ⟨rfl, m, hm⟩ := hs
    refine ⟨_, hm, ?_, ?_, ?_, by simp⟩
    · simp
    · simp
    · apply Lineage.touch_rows_of_some
      simpa using (l.touch n).rows_head

theorem ensureFts_spec :
    Spec (AtBranch d b l) (env.ensureFts b)
      (fun v s => ∃ l', AtBranch d b l' s ∧ ServesFrom l l.headRows v l') (fun _ _ => B) T := by
  refine Spec.bind (withContext_spec (env.touchOn_spec (hB _ rfl) fun s => hT _ s rfl)) fun _ =>
    (withContext_spec handleVersion_spec).post fun v s hs => ?_
  obtain ⟨rfl, hs⟩ := hs
  refine ⟨_, hs, ?_, le_rfl, ?_, by simp⟩
  · simp
  · simpa using (l.touch (env.indexVersions .ftsIndex)).rows_head

theorem indexStream_spec (position : ℕ) :
    Spec (AtBranch d b l) (env.indexStream position b)
      (fun v s => ∃ l', AtBranch d b l' s ∧ ServesFrom l l.headRows v l') (fun _ _ => B) T := by
  refine Spec.ite (fun _ => env.createIndices_spec hB hT) fun _ =>
    Spec.bind (env.ensureFts_spec hB hT) fun v => Spec.of_exists fun l' => Spec.of_and fun hl' =>
      Spec.bind (withContext_spec (env.refresh_spec (hB _ rfl) fun s => hT _ s rfl)) fun _ =>
        Spec.pure fun s hs => ⟨l', hs, hl'⟩

theorem indexBuffered_spec :
    Spec (AtBranch d b l) (env.indexBuffered b)
      (fun v s => ∃ l', AtBranch d b l' s ∧ ServesFrom l l.headRows (v.getD l.head) l')
      (fun _ _ => B) T := by
  refine Spec.bind (R := fun _ => AtBranch d b l) (Spec.look fun _ hs => hs) fun position =>
    Spec.ite (fun _ => ?_) (fun _ => ?_)
  · refine Spec.bind (R := fun _ => AtBranch d b l)
      (Spec.attempt_const ((env.ioOpenDatasetUncached_spec fun _ _ hs => hs).post
        fun _ _ hs => hs.2)) fun opened => ?_
    split
    · exact Spec.bind (env.createIndices_spec hB hT) fun v => Spec.pure fun s hs => hs
    · exact Spec.pure fun s hs => ⟨l, hs, le_rfl, le_rfl, l.rows_head, rfl⟩
  · refine Spec.bind (withContext_spec (env.ioOpenDatasetUncached_spec fun hop _ _ =>
      hB _ rfl hop)) fun existing => ?_
    refine Spec.ite (fun _ => ?_) (fun hno => Spec.pure fun s hs => absurd hs.1 hno)
    exact Spec.bind ((env.ensureFts_spec hB hT).pre fun s hs => hs.2) fun v =>
      Spec.pure fun s hs => hs

end PushEnv

section Tagging

/-- Lance does not refuse a tag of `commit` at version `v`. -/
def Domain.Taggable (s : Domain V) (b : BranchName) (commit : CommitId) (v : ℕ) : Prop :=
  s.dataset.isSome ∧ commit ∉ s.opened.tags ∧ (s.opened.rowsAt (wantBranch b) v).isSome

theorem Domain.Taggable.createTag {s : Domain V} {b : BranchName} {commit : CommitId} {v : ℕ}
    (h : s.Taggable b commit v) :
    s.opened.createTag commit (wantBranch b) v = .ok (s.opened.putTag commit (wantBranch b) v) :=
  Dataset.createTag_ok.mpr ⟨h.2.1, h.2.2, rfl⟩

theorem Domain.tag_eq {s : Domain V} {ds : LanceDataset (ChunkRow V)} (h : s.dataset = some ds)
    (b : BranchName) (commit : CommitId) (v : ℕ) :
    { s with dataset := some (ds.putTag commit (wantBranch b) v) } = s.tag b commit v := by
  simp [tag, h]

theorem Domain.cacheLastIndexed_tagged (s : Domain V) (b : BranchName) (commit : CommitId)
    (v : ℕ) : (s.tagged b commit v).cacheLastIndexed b commit v = s.tagged b commit v := by
  simp [tagged, Domain.cacheLastIndexed, AList.insert_insert]

variable {env : StoreEnv} {P E : Domain V → Prop} {T : StoreOp → Domain V → Prop}
  {b : BranchName} {commit : CommitId} {v : ℕ}

theorem cacheLastIndexed_spec {Q : Domain V → Prop}
    (hok : ∀ s, P s → T .cacheIndex (s.cacheLastIndexed b commit v) ∧
      Q (s.cacheLastIndexed b commit v)) :
    Spec P (StoreEnv.cacheLastIndexed b commit v) (fun _ => Q) (fun _ => E) T :=
  Spec.step fun s hs => hok s hs

theorem openForTag_spec (hopen : b = mainBranch → ∀ s, P s → P s.openDataset)
    (hT : ∀ op s, op.settled = false → T op s)
    (herr : ∀ s, P s → (env.fails .openTag = true ∨
      ∀ ds, s.dataset = some ds → ds.lineage? (wantBranch b) = none) → E s) :
    Spec P (env.openForTag b) (fun _ => P) (fun _ => E) T := by
  refine Spec.ite (fun hb => ?_) (fun _ => ?_)
  · exact env.ioOpenDataset_spec (fun s hs => ⟨hT _ _ rfl, hopen hb s hs⟩)
      (fun hop s hs => herr s hs (.inl hop))
  · exact env.checkoutBranch_spec (fun s _ _ hs _ _ => hs) herr

theorem Domain.not_taggable {s : Domain V}
    (h : ∀ ds, s.dataset = some ds → ds.lineage? (wantBranch b) = none) :
    ¬ s.Taggable b commit v := by
  rintro ⟨hds, -, hrows⟩
  have hnone := h s.opened (Domain.dataset_eq_opened hds)
  simp [Dataset.rowsAt, hnone] at hrows

/-- Tagging is three steps on the domain, and a failure after the first leaves the tag. -/
theorem ioTagCommit_spec (hopen : b = mainBranch → ∀ s, P s → P s.openDataset)
    (hT : ∀ op s, op.settled = false → T op s)
    (hT' : ∀ s, P s → s.Taggable b commit v → T .cacheIndex (s.tagged b commit v))
    (hbefore : ∀ s, P s → (env.fails .openTag = true ∨ env.fails .createTag = true ∨
      ¬ s.Taggable b commit v) → E s)
    (hafter : env.fails .refreshTag = true → ∀ s, P s → s.Taggable b commit v →
      E (s.tag b commit v)) :
    Spec P (env.ioTagCommit b commit v)
      (fun _ s => ∃ s', P s' ∧ s'.Taggable b commit v ∧ s = s'.tagged b commit v) (fun _ => E) T := by
  refine Spec.bind (openForTag_spec hopen hT fun s hs h =>
    hbefore s hs (h.imp id fun hno => .inr (Domain.not_taggable hno))) fun _ => ?_
  refine Spec.bind
    (R := fun _ s => ∃ s', P s' ∧ s'.Taggable b commit v ∧ s = s'.tag b commit v)
    (env.onDataset_spec (fun s ds ds' hs hds hf => ?_) (fun s hs h => ?_)) fun _ => ?_
  · obtain ⟨hnot, hrows, rfl⟩ := Dataset.createTag_ok.mp hf
    rw [Domain.tag_eq hds]
    refine ⟨hT _ _ rfl, s, hs, ⟨by simp [hds], ?_, ?_⟩, rfl⟩
    · rwa [Domain.opened_of_some hds]
    · rwa [Domain.opened_of_some hds]
  · refine hbefore s hs (.inr (h.imp id fun hno ht => ?_))
    exact hno _ _ (Domain.dataset_eq_opened ht.1) ht.createTag
  · refine Spec.bind
      (R := fun _ s => ∃ s', P s' ∧ s'.Taggable b commit v ∧ s = (s'.tag b commit v).refresh)
      (env.ioRefreshCachedDataset_spec (fun s hs => ?_) (fun hop s hs => ?_)) fun _ =>
        cacheLastIndexed_spec fun s hs => ?_
    · obtain ⟨s', hs', ht, rfl⟩ := hs
      exact ⟨hT _ _ rfl, s', hs', ht, rfl⟩
    · obtain ⟨s', hs', ht, rfl⟩ := hs
      exact hafter hop s' hs' ht
    · obtain ⟨s', hs', ht, rfl⟩ := hs
      exact ⟨hT' s' hs' ht, s', hs', ht, rfl⟩

end Tagging

namespace PushEnv

variable (env : PushEnv V) {P E : Domain V → Prop} {T : StoreOp → Domain V → Prop}
  {b : BranchName} {commit : CommitId} {v : ℕ}

/-- The end of a push with work. -/
theorem tagWork_spec (hopen : b = mainBranch → ∀ s, P s → P s.openDataset)
    (hT : ∀ op s, op.settled = false → T op s)
    (hT' : ∀ op s, P s → s.Taggable b commit v →
      T op (s.tagged b commit v) ∧ T op (s.tagged b commit v).cleaned)
    (hbefore : ∀ s, P s → (env.fails .openTag = true ∨ env.fails .createTag = true ∨
      ¬ s.Taggable b commit v) → E s)
    (hafter : env.fails .refreshTag = true → ∀ s, P s → s.Taggable b commit v →
      E (s.tag b commit v)) :
    Spec P (env.tagWork b commit v)
      (fun _ s => ∃ s', P s' ∧ s'.Taggable b commit v ∧
        (s = s'.tagged b commit v ∨ s = (s'.tagged b commit v).cleaned)) (fun _ => E) T := by
  refine Spec.bind (withContext_spec (ioTagCommit_spec hopen hT
    (fun s hs ht => (hT' _ s hs ht).1) hbefore hafter)) fun _ => ?_
  refine Spec.bind
    (R := fun _ s => ∃ s', P s' ∧ s'.Taggable b commit v ∧ s = s'.tagged b commit v)
    (withContext_spec (cacheLastIndexed_spec fun s hs => ?_)) fun _ =>
      Spec.bind (Spec.attempt_const (env.onDataset_spec (fun s ds ds' hs hds hf => ?_)
        fun s hs _ => ?_)) fun _ => Spec.pure fun s hs => hs
  · obtain ⟨s', hs', ht, rfl⟩ := hs
    rw [Domain.cacheLastIndexed_tagged]
    exact ⟨(hT' _ s' hs' ht).1, s', hs', ht, rfl⟩
  · obtain ⟨s', hs', ht, rfl⟩ := hs
    obtain rfl := Except.ok.inj hf
    have hclean : { s'.tagged b commit v with dataset := some ds.cleanup } =
        (s'.tagged b commit v).cleaned := by simp [Domain.cleaned, hds]
    rw [hclean]
    exact ⟨(hT' _ s' hs' ht).2, s', hs', ht, .inr rfl⟩
  · obtain ⟨s', hs', ht, rfl⟩ := hs
    exact ⟨s', hs', ht, .inl rfl⟩

end PushEnv

end Vectorlink
