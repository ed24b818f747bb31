import Vectorlink.IngestCollect
import Vectorlink.Service.PipelineRun

/-! What a whole push does to the domain: one specification for both pipelines. -/
namespace Vectorlink

open Stepwise Stepwise.Program Versioned

variable {V : Type}

/-- The version that a commit without work is tagged at. -/
def Domain.noopVersion (d : Domain V) (b : BranchName) : Option ℕ :=
  if b = mainBranch then d.cached else (d.opened.lineage? (wantBranch b)).map (·.head)

/-- How a push that completes leaves the domain: with its work on the branch and a tag on
it, or, when there was nothing to do, with a tag at the version that `d₀` takes for the
newest. -/
inductive PushDone (d d₀ : Domain V) (b : BranchName) (commit : CommitId) (c : Collected V)
    (s : Domain V) : Prop
  | work {s' : Domain V} {l l' : Lineage (ChunkRow V)} {v : ℕ} :
      (c.rows ≠ [] ∨ c.deleteIds ≠ []) →
      d.opened.lineage? (wantBranch b) = some l → AtBranch d b l' s' →
      ServesFrom l (c.apply l.headRows) v l' → s'.Taggable b commit v →
      (s = s'.tagged b commit v ∨ s = (s'.tagged b commit v).cleaned) →
      PushDone d d₀ b commit c s
  | noop {v : ℕ} :
      c.rows = [] → c.deleteIds = [] → d₀.noopVersion b = some v → d₀.Taggable b commit v →
      s = d₀.tagged b commit v → PushDone d d₀ b commit c s

/-- The store as the parts of a push may leave it when they fail: `early` before the first
write, `tag` with only a tag for a commit without work, `late` anywhere else. -/
structure PushFails (env : PushEnv V) (d d₀ : Domain V) (b : BranchName) (commit : CommitId)
    (c : Collected V) (E : Domain V → Prop) : Prop where
  start : E d
  early : E d.openDataset
  noop : c.rows = [] → c.deleteIds = [] → E d₀
  tag : ∀ v, c.rows = [] → c.deleteIds = [] → d₀.noopVersion b = some v →
    d₀.Taggable b commit v → E (d₀.tag b commit v)
  late : (c.rows ≠ [] ∨ c.deleteIds ≠ []) → ∀ op, op.hard = true → env.fails op = true → ∀ s, E s
  append : c.deleteIds ≠ [] → env.fails .append = true → ∀ s, E s

/-- Nothing is asked of a push that fails. -/
theorem pushFails_true {env : PushEnv V} {d d₀ : Domain V} {b : BranchName} {commit : CommitId}
    {c : Collected V} : PushFails env d d₀ b commit c (fun _ => True) :=
  ⟨trivial, trivial, fun _ _ => trivial, fun _ _ _ _ _ => trivial, fun _ _ _ _ _ => trivial,
    fun _ _ _ => trivial⟩

/-- What may be said of the store between the steps of a push: nothing while its work is
not recorded, and `T` of the stores before and after. -/
structure PushSteps (d d₀ : Domain V) (b : BranchName) (commit : CommitId) (c : Collected V)
    (T : StoreOp → Domain V → Prop) : Prop where
  unsettled : ∀ op s, op.settled = false → T op s
  start : ∀ op, T op d.openDataset
  noop : c.rows = [] → c.deleteIds = [] → ∀ op, T op d₀
  done : ∀ op s, PushDone d d₀ b commit c s → T op s

/-- A handle on the branch, right after the dataset was opened. -/
theorem AtBranch.of_openDataset {d : Domain V} {b : BranchName} {ds : LanceDataset (ChunkRow V)}
    {l : Lineage (ChunkRow V)} (hds : d.openDataset.dataset = some ds)
    (hl : ds.lineage? (wantBranch b) = some l) :
    ∃ l, AtBranch d b l d.openDataset ∧ d.opened.lineage? (wantBranch b) = some l := by
  have hopened := Domain.opened_of_some hds
  rw [Domain.openDataset_opened] at hopened
  rw [← hopened] at hl
  exact ⟨l, .start (by simp [hds]) (by simp) (by simp) hl, hl⟩

/-- A commit that is not found has no tag, also where there is no dataset yet. -/
theorem Domain.lookup_opened_eq_none {d : Domain V} {commit : CommitId}
    (h : (d.dataset.bind fun ds => ds.tags.lookup commit) = none) :
    d.opened.tags.lookup commit = none := by
  unfold opened
  cases hds : d.dataset with
  | none => rfl
  | some ds => simpa [hds] using h

namespace PushEnv

variable {env : PushEnv V} {d : Domain V} {b : BranchName} {commit : CommitId}
  {c : Collected V} {l : Lineage (ChunkRow V)} {E : Domain V → Prop}
  {T : StoreOp → Domain V → Prop}

section Noop

theorem openDataset_openDataset (d : Domain V) : d.openDataset.openDataset = d.openDataset :=
  Domain.openDataset_of_cached d.openDataset_cached_isSome

theorem ioBranchHeadVersion_spec {d₁ : Domain V} (hcached : d₁.cached.isSome) (hE : E d₁)
    (hT : ∀ op, T op d₁) :
    Spec (fun s => s = d₁) (env.ioBranchHeadVersion .headVersion b)
      (fun v s => s = d₁ ∧ d₁.noopVersion b = some v) (fun _ => E) T := by
  refine Spec.ite (fun hb => ?_) (fun hb => ?_)
  · refine Spec.bind (R := fun _ s => s = d₁) (env.ioOpenDataset_spec (fun s hs => ?_)
      fun _ s hs => hs ▸ hE) fun _ => Spec.look fun s hs => ?_
    · rw [hs, Domain.openDataset_of_cached hcached]
      exact ⟨hT _, rfl⟩
    · subst hs
      obtain ⟨v, hv⟩ := Option.isSome_iff_exists.mp hcached
      simp [Domain.noopVersion, hb, hv]
  · refine Spec.bind (R := fun _ s => s = d₁ ∧ ∃ ds l, d₁.dataset = some ds ∧
      ds.lineage? (wantBranch b) = some l) (env.checkoutBranch_spec (fun s ds l hs hds hl => ?_)
      fun s hs _ => hs ▸ hE) fun _ => Spec.look fun s hs => ?_
    · subst hs
      exact ⟨rfl, ds, l, hds, hl⟩
    · obtain ⟨rfl, ds, l, hds, hl⟩ := hs
      simp [Domain.noopVersion, hb, hds, Domain.opened_of_some hds, hl]

/-- A commit without work, tagged from the domain `d`. -/
theorem tagNoop_spec (hstart : E d) (hopened : E d.openDataset)
    (htag : ∀ v, d.openDataset.noopVersion b = some v → d.openDataset.Taggable b commit v →
      E (d.openDataset.tag b commit v))
    (hT : ∀ op s, op.settled = false → T op s) (hT₁ : ∀ op, T op d.openDataset)
    (hT' : ∀ op v, d.openDataset.noopVersion b = some v → d.openDataset.Taggable b commit v →
      T op (d.openDataset.tagged b commit v)) :
    Spec (fun s => s = d) (env.tagNoop b commit)
      (fun _ s => ∃ v, d.openDataset.noopVersion b = some v ∧
        d.openDataset.Taggable b commit v ∧ s = d.openDataset.tagged b commit v)
      (fun _ => E) T := by
  refine Spec.bind (R := fun _ s => s = d.openDataset) (withContext_spec
    (env.ioOpenDataset_spec (fun s hs => ?_) fun _ s hs => hs ▸ hstart)) fun _ =>
      Spec.bind (withContext_spec (ioBranchHeadVersion_spec d.openDataset_cached_isSome hopened
        hT₁)) fun v => Spec.of_and fun hv => ?_
  · subst hs
    exact ⟨hT₁ _, rfl⟩
  refine Spec.bind (withContext_spec (ioTagCommit_spec (P := fun s => s = d.openDataset)
    (v := v) ?_ hT ?_ ?_ ?_)) fun _ => withContext_spec (cacheLastIndexed_spec fun s hs => ?_)
  · rintro - s rfl
    exact openDataset_openDataset d
  · rintro s rfl ht
    exact hT' _ v hv ht
  · rintro s rfl -
    exact hopened
  · rintro - s rfl ht
    exact htag v hv ht
  · obtain ⟨s', rfl, ht, rfl⟩ := hs
    rw [Domain.cacheLastIndexed_tagged]
    exact ⟨hT' _ v hv ht, v, hv, ht, rfl⟩

end Noop

section Writes

/-- The rows of the push are on the branch. -/
def Written (d : Domain V) (b : BranchName) (c : Collected V) (l : Lineage (ChunkRow V))
    (s : Domain V) : Prop :=
  ∃ l', AtBranch d b l' s ∧ l'.headRows = c.apply l.headRows ∧ l.head ≤ l'.head

variable {ε α : Type} {mDelete mAppend : Program StoreOp (Domain V) ε Unit}
  {k : Unit → Program StoreOp (Domain V) ε α} {Q : α → Domain V → Prop}

/-- Delete and append, where both pipelines do the same under different error contexts. -/
theorem writes_spec (hstart : AtBranch d b l d.openDataset)
    (hdelete : Spec (fun s => s = d.openDataset) mDelete
      (fun _ => AtBranch d b (l.advance (deleteDocs c.deleteIds l.headRows))) (fun _ => E) T)
    (hfirst : c.deleteIds = [] → Spec (fun s => s = d.openDataset) mAppend
      (fun _ => AtBranch d b (l.advance (l.headRows ++ c.rows))) (fun _ => E) T)
    (hsecond : c.deleteIds ≠ [] → ∀ l₁, Spec (AtBranch d b l₁) mAppend
      (fun _ => AtBranch d b (l₁.advance (l₁.headRows ++ c.rows))) (fun _ => E) T)
    (hk : Spec (fun s => Written d b c l s ∧
      (c.rows = [] → c.deleteIds = [] → s = d.openDataset)) (k ()) Q (fun _ => E) T) :
    Spec (fun s => s = d.openDataset)
      (unlessEmpty c.deleteIds mDelete >>= fun _ => unlessEmpty c.rows mAppend >>= k) Q
      (fun _ => E) T := by
  by_cases hnil : c.deleteIds = []
  · refine Spec.bind (R := fun _ s => s = d.openDataset)
      (unlessEmpty_spec (fun _ s hs => hs) fun h => absurd hnil h) fun _ => Spec.bind
        (unlessEmpty_spec (fun hrows s hs => ?_) fun hrows => (hfirst hnil).post fun _ s hs => ?_)
        fun _ => hk
    · refine ⟨⟨l, hs ▸ hstart, ?_, le_rfl⟩, fun _ _ => hs⟩
      simp [Collected.apply, hnil, hrows]
    · refine ⟨⟨_, hs, ?_, ?_⟩, fun h => absurd h hrows⟩
      · simp [Collected.apply, hnil]
      · simp
  · refine Spec.bind (R := fun _ => AtBranch d b (l.advance (deleteDocs c.deleteIds l.headRows)))
      (unlessEmpty_spec (fun h => absurd h hnil) fun _ => hdelete) fun _ => Spec.bind
        (unlessEmpty_spec (fun hrows s hs => ?_) fun _ => (hsecond hnil _).post fun _ s hs => ?_)
        fun _ => hk
    · refine ⟨⟨_, hs, ?_, ?_⟩, fun _ h => absurd h hnil⟩
      · simp [Collected.apply, hrows]
      · simp
    · refine ⟨⟨_, hs, ?_, ?_⟩, fun _ h => absurd h hnil⟩
      · simp [Collected.apply]
      · simp only [Lineage.advance_head]
        omega

theorem delete_spec {context : String} (h : AtBranch d b l d.openDataset)
    (hE : env.fails .delete = true → E d.openDataset)
    (hT : ∀ op s, op.settled = false → T op s) (ids : List DocId) :
    Spec (fun s => s = d.openDataset) (env.ioDeleteOn b context ids)
      (fun _ => AtBranch d b (l.advance (deleteDocs ids l.headRows))) (fun _ => E) T := by
  refine env.onDataset_spec_of_ok (fun s hs => ?_) fun hop s hs => hs ▸ hE hop
  subst hs
  obtain ⟨hds, hcommit⟩ := h.commit_ok (deleteDocs ids)
  exact ⟨_, _, hds, hcommit, hT _ _ rfl, h.setLineage _⟩

theorem append_spec {P : Domain V → Prop} {context : String} (h : ∀ s, P s → AtBranch d b l s)
    (hE : env.fails .append = true → ∀ s, P s → E s)
    (hT : ∀ op s, op.settled = false → T op s) (rows : List (ChunkRow V)) :
    Spec P (env.ioAppendOn b context rows)
      (fun _ => AtBranch d b (l.advance (l.headRows ++ rows))) (fun _ => E) T := by
  refine env.onDataset_spec_of_ok (fun s hs => ?_) hE
  obtain ⟨hds, hcommit⟩ := (h s hs).commit_ok (· ++ rows)
  exact ⟨_, _, hds, hcommit, hT _ _ rfl, (h s hs).setLineage _⟩

end Writes

section Pipelines

variable {d₀ : Domain V} (hnew : commit ∉ d.opened.tags) (hF : PushFails env d d₀ b commit c E)
  (hS : PushSteps d d₀ b commit c T)

theorem taggable_of_servesFrom {l' : Lineage (ChunkRow V)} {r : List (ChunkRow V)} {v : ℕ}
    {s : Domain V} (hnew : commit ∉ d.opened.tags) (h : AtBranch d b l' s)
    (hserves : ServesFrom l r v l') : s.Taggable b commit v := by
  refine ⟨h.dataset, by rwa [h.tags], ?_⟩
  simp [Dataset.rowsAt, h.lineage, hserves.rows]

include hF hS

/-- A commit without work. Its tag needs a handle, which is open by then. -/
theorem tagNoop_done {s₀ : Domain V} (hstart : s₀.openDataset = d₀) (hE : E s₀) (hrows : c.rows = []) (hdel : c.deleteIds = []) :
    Spec (fun s => s = s₀) (env.tagNoop b commit) (fun _ => PushDone d d₀ b commit c)
      (fun _ => E) T := by
  subst hstart
  refine (tagNoop_spec hE (hF.noop hrows hdel) (fun v => hF.tag v hrows hdel) hS.unsettled
    (hS.noop hrows hdel) fun op v hv ht => hS.done op _ ?_).post fun _ s hs => ?_
  · exact .noop hrows hdel hv ht rfl
  · obtain ⟨v, hv, ht, rfl⟩ := hs
    exact .noop hrows hdel hv ht rfl

include hnew

/-- Tagging the work of a push, wherever the indices have left the branch. -/
theorem tagWork_done {l' : Lineage (ChunkRow V)} {v : ℕ}
    (hl : d.opened.lineage? (wantBranch b) = some l)
    (hwork : c.rows ≠ [] ∨ c.deleteIds ≠ []) (hserves : ServesFrom l (c.apply l.headRows) v l') :
    Spec (AtBranch d b l') (env.tagWork b commit v) (fun _ => PushDone d d₀ b commit c)
      (fun _ => E) T := by
  have htag : ∀ s, AtBranch d b l' s → s.Taggable b commit v := fun s hs =>
    taggable_of_servesFrom hnew hs hserves
  have hdone : ∀ s, AtBranch d b l' s → PushDone d d₀ b commit c (s.tagged b commit v) ∧
      PushDone d d₀ b commit c (s.tagged b commit v).cleaned := fun s hs =>
    ⟨.work hwork hl hs hserves (htag s hs) (.inl rfl), .work hwork hl hs hserves (htag s hs) (.inr rfl)⟩
  refine (env.tagWork_spec (fun _ s hs => hs.openDataset) hS.unsettled
    (fun op s hs _ => ⟨hS.done op _ (hdone s hs).1, hS.done op _ (hdone s hs).2⟩)
    (fun s hs h => ?_) (fun hop s _ _ => hF.late hwork _ rfl hop _)).post fun _ s hs => ?_
  · rcases h with hop | hop | hno
    · exact hF.late hwork _ rfl hop s
    · exact hF.late hwork _ rfl hop s
    · exact absurd (htag s hs) hno
  · obtain ⟨s', hs', ht, h⟩ := hs
    exact .work hwork hl hs' hserves ht h

/-- The two writes, from a handle that is open on the branch. -/
theorem buffered_writes_spec :
    Spec (fun s => s = d) (env.ioBatchDeleteAppend b c.deleteIds c.rows)
      (fun v s => ∃ l l₁, d.opened.lineage? (wantBranch b) = some l ∧ AtBranch d b l₁ s ∧
        l₁.headRows = c.apply l.headRows ∧ l.head ≤ l₁.head ∧ v = l₁.head)
      (fun _ s => (c.rows ≠ [] ∨ c.deleteIds ≠ []) → E s) T := by
  refine Spec.bind (R := fun _ s => s = d.openDataset) (env.ioOpenDataset_spec (fun s hs => ?_)
    fun _ s hs _ => hs ▸ hF.start) fun _ => Spec.bind
      (R := fun _ s => s = d.openDataset ∧ ∃ l, AtBranch d b l d.openDataset ∧
        d.opened.lineage? (wantBranch b) = some l)
      (env.checkoutBranch_spec (fun s ds l hs hds hl => ?_) fun s hs _ _ => hs ▸ hF.early)
      fun _ => Spec.of_and ?_
  · subst hs
    exact ⟨hS.start _, rfl⟩
  · subst hs
    exact ⟨rfl, AtBranch.of_openDataset hds hl⟩
  · rintro ⟨l, hat, hl⟩
    refine writes_spec (l := l) hat (delete_spec hat (fun _ _ => hF.early) hS.unsettled _)
      (fun hnil => append_spec (fun s hs => hs ▸ hat) (fun _ s hs _ => hs ▸ hF.early) hS.unsettled
        _)
      (fun hne l₁ => append_spec (fun _ hs => hs) (fun hop s _ _ => hF.append hne hop s)
        hS.unsettled _) ?_
    refine Spec.of_forall fun s₀ hs₀ => ?_
    obtain ⟨⟨l₁, hat₁, hrows, hhead⟩, -⟩ := hs₀
    refine Spec.bind (handleVersion_spec.pre fun s hs => hs ▸ hat₁) fun v => Spec.bind
      (R := fun _ s => v = l₁.head ∧ AtBranch d b l₁ s)
      (env.ioRefreshCachedDataset_spec (fun s hs => ⟨hS.unsettled _ _ rfl, hs.1, hs.2.refresh⟩)
        fun hop s _ hwork => hF.late hwork _ rfl hop s) fun _ => Spec.pure fun s hs => ?_
    exact ⟨l, l₁, hl, hs.2, hrows, hhead, hs.1⟩

theorem writeBuffered_spec (hwork : c.rows ≠ [] ∨ c.deleteIds ≠ []) :
    Spec (fun s => s = d) (env.writeBuffered b commit c) (fun _ => PushDone d d₀ b commit c)
      (fun _ => E) T := by
  refine Spec.bind (withContext_spec ((buffered_writes_spec hnew hF hS).weaken (fun _ hs => hs)
    (fun _ _ hs => hs) (fun _ _ hs => hs hwork) (fun _ _ h => h))) fun lastVersion => ?_
  refine Spec.of_exists fun l => Spec.of_exists fun l₁ => Spec.of_forall fun s₀ hs₀ => ?_
  obtain ⟨hl, hat₁, hrows, hhead, rfl⟩ := hs₀
  refine Spec.bind ((env.indexBuffered_spec (B := ∀ s, E s) (hF.late hwork) hS.unsettled).weaken
    (fun s hs => hs ▸ hat₁) (fun _ _ hs => hs) (fun _ s hall => hall s) (fun _ _ h => h))
    fun indexed => Spec.of_exists fun l' => Spec.of_and fun hserves => ?_
  refine tagWork_done hnew hF hS hl hwork ?_
  exact ⟨hhead.trans hserves.lower, hserves.upper, by rw [← hrows]; exact hserves.rows,
    by rw [← hrows]; exact hserves.headRows⟩

theorem commitBuffered_spec (hd₀ : d₀ = d.openDataset) :
    Spec (fun s => s = d) (env.commitBuffered b commit c) (fun _ => PushDone d d₀ b commit c)
      (fun _ => E) T := by
  refine Spec.ite (fun hnil => ?_) (fun hwork => writeBuffered_spec hnew hF hS ?_)
  · rw [Bool.and_eq_true, List.isEmpty_iff, List.isEmpty_iff] at hnil
    exact tagNoop_done hF hS hd₀.symm hF.start hnil.1 hnil.2
  · rw [Bool.and_eq_true, List.isEmpty_iff, List.isEmpty_iff, not_and_or] at hwork
    exact hwork

/-- After the writes of the streaming pipeline. -/
theorem tagStream_spec (hd₀ : d₀.openDataset = d₀)
    (hl : d.opened.lineage? (wantBranch b) = some l)
    (hindexed : c.indexed = 0 ↔ c.rows = []) (position : ℕ) :
    Spec (fun s => Written d b c l s ∧
        (c.rows = [] → c.deleteIds = [] → s = d₀))
      (env.tagStream b commit position c) (fun _ => PushDone d d₀ b commit c) (fun _ => E) T := by
  refine Spec.ite (fun hnil => ?_) (fun hsome => ?_)
  · rw [Bool.and_eq_true, decide_eq_true_eq, List.isEmpty_iff, hindexed] at hnil
    exact (tagNoop_done hF hS hd₀ (hF.noop hnil.1 hnil.2) hnil.1 hnil.2).pre
      fun s hs => hs.2 hnil.1 hnil.2
  · rw [Bool.and_eq_true, decide_eq_true_eq, List.isEmpty_iff, hindexed, not_and_or] at hsome
    refine Spec.of_forall fun s₀ hs₀ => ?_
    obtain ⟨⟨l₁, hat₁, hrows, hhead⟩, -⟩ := hs₀
    refine Spec.bind ((env.indexStream_spec (B := ∀ s, E s) (hF.late hsome) hS.unsettled
      position).weaken (fun s hs => hs ▸ hat₁) (fun _ _ hs => hs) (fun _ s hall => hall s)
      (fun _ _ h => h)) fun v => Spec.of_exists fun l' => Spec.of_and fun hserves => ?_
    refine tagWork_done hnew hF hS hl hsome ?_
    exact ⟨hhead.trans hserves.lower, hserves.upper, by rw [← hrows]; exact hserves.rows,
      by rw [← hrows]; exact hserves.headRows⟩

theorem writeStream_spec (hd₀ : d₀ = d.openDataset.refresh) (hat : AtBranch d b l d.openDataset)
    (hl : d.opened.lineage? (wantBranch b) = some l)
    (hindexed : c.indexed = 0 ↔ c.rows = []) (position : ℕ) :
    Spec (fun s => s = d.openDataset) (env.writeStream b commit position c)
      (fun _ => PushDone d d₀ b commit c) (fun _ => E) T := by
  have hopen : d₀.openDataset = d₀ := by
    rw [hd₀]
    apply Domain.openDataset_of_cached
    unfold Domain.refresh
    split
    · exact d.openDataset_cached_isSome
    · rfl
  subst hd₀
  refine writes_spec hat (withContext_spec (delete_spec hat (fun _ => hF.early) hS.unsettled _))
    (fun hnil => withContext_spec (append_spec (fun s hs => hs ▸ hat)
      (fun _ s hs => hs ▸ hF.early) hS.unsettled _))
    (fun hne l₁ => withContext_spec (append_spec (fun _ hs => hs)
      (fun hop s _ => hF.append hne hop s) hS.unsettled _)) ?_
  refine Spec.bind (R := fun _ s => Written d b c l s ∧
      (c.rows = [] → c.deleteIds = [] → s = d.openDataset.refresh))
    (withContext_spec (env.ioRefreshCachedDataset_spec (fun s hs => ⟨hS.unsettled _ _ rfl, ?_⟩)
      fun hop s hs => ?_)) fun _ => tagStream_spec hnew hF hS hopen hl hindexed position
  · obtain ⟨⟨l₁, hat₁, hrows⟩, hsame⟩ := hs
    refine ⟨⟨l₁, hat₁.refresh, hrows⟩, fun hnil hdel => ?_⟩
    rw [hsame hnil hdel]
  · by_cases hwork : c.rows = [] ∧ c.deleteIds = []
    · rw [hs.2 hwork.1 hwork.2]
      exact hF.early
    · rw [not_and_or] at hwork
      exact hF.late hwork _ rfl hop s

end Pipelines

end PushEnv

section Served

variable {d d₀ s : Domain V} {b : BranchName} {commit : CommitId} {c : Collected V}

theorem served_putTag_self {ds : LanceDataset (ChunkRow V)} {l : Lineage (ChunkRow V)}
    {v : ℕ} {r : List (ChunkRow V)} (hl : ds.lineage? (wantBranch b) = some l) (hr : l.rows v = some r) :
    (ds.putTag commit (wantBranch b) v).served commit = some r := by
  rw [Dataset.served, Dataset.lookup_putTag, if_pos rfl, Option.bind_some, Dataset.putTag_rowsAt,
    Dataset.rowsAt, hl, Option.bind_some, hr]

/-- The rows that a push starts from: the newest of its branch, or those at the version that
is taken for the newest. -/
inductive BuiltOn (d d₀ : Domain V) (b : BranchName) (c : Collected V) : List (ChunkRow V) → Prop
  | head {l : Lineage (ChunkRow V)} :
      (c.rows ≠ [] ∨ c.deleteIds ≠ []) → d.opened.lineage? (wantBranch b) = some l →
      BuiltOn d d₀ b c l.headRows
  | noop {v : ℕ} {r : List (ChunkRow V)} :
      c.rows = [] → c.deleteIds = [] → d₀.dataset.isSome → d₀.noopVersion b = some v →
      d₀.opened.rowsAt (wantBranch b) v = some r → BuiltOn d d₀ b c r

theorem Collected.apply_of_nil (hrows : c.rows = []) (hdel : c.deleteIds = [])
    (r : List (ChunkRow V)) : c.apply r = r := by
  simp [Collected.apply, hrows, hdel]

/-- What a completed push serves at its commit. -/
theorem PushDone.served (h : PushDone d d₀ b commit c s) :
    ∃ r, BuiltOn d d₀ b c r ∧ s.opened.served commit = some (c.apply r) := by
  cases h with
  | @work s' l l' v hwork hl hat hserves ht hs =>
    refine ⟨l.headRows, .head hwork hl, ?_⟩
    have htagged : (s'.tagged b commit v).opened.served commit = some (c.apply l.headRows) := by
      rw [Domain.tagged_opened hat.dataset]
      exact served_putTag_self hat.lineage hserves.rows
    rcases hs with rfl | rfl
    · exact htagged
    · obtain ⟨t, ht⟩ := Dataset.exists_home htagged
      rw [Domain.cleaned_opened (Domain.tagged_dataset_isSome hat.dataset b commit v)]
      exact ht.cleanup.served
  | @noop v hrows hdel hv ht hs =>
    subst hs
    obtain ⟨r, hr⟩ := Option.isSome_iff_exists.mp ht.2.2
    refine ⟨r, .noop hrows hdel ht.1 hv hr, ?_⟩
    obtain ⟨l, hl, hlr⟩ := Option.bind_eq_some_iff.mp hr
    rw [Domain.tagged_opened ht.1, Collected.apply_of_nil hrows hdel]
    exact served_putTag_self hl hlr

end Served

namespace PushRequest

variable {r : PushRequest V} {d : Domain V} {b : BranchName} {E : Domain V → Prop}
  {T : StoreOp → Domain V → Prop}

theorem collects {c : Collected V} (h : r.collect = .ok c) :
    ∃ docs, Collects r.env.toIngestEnv r.operations docs c := by
  unfold collect at h
  split at h
  · exact collectBuffered_collects h
  · exact collectStream_collects h

/-- The domain from which a commit without work is tagged: only the streaming pipeline
refreshes its handle before. -/
def noopStart (r : PushRequest V) (d : Domain V) : Domain V :=
  match r.mode with
  | .buffered => d.openDataset
  | .streaming _ => d.openDataset.refresh

theorem noopStart_opened (d : Domain V) : (r.noopStart d).opened = d.opened := by
  unfold noopStart
  split <;> simp

/-- A push may find work in its operations or none, and either way it is allowed to stop. -/
structure Allowed (r : PushRequest V) (d : Domain V) (b : BranchName) (E : Domain V → Prop)
    (T : StoreOp → Domain V → Prop) : Prop where
  start : E d
  early : E d.openDataset
  opens : ∀ op, T op d.openDataset
  fails : ∀ c, r.collect = .ok c → PushFails r.env d (r.noopStart d) b r.commit c E
  steps : ∀ c, r.collect = .ok c → PushSteps d (r.noopStart d) b r.commit c T

/-- The end of either pipeline when it has not failed. -/
def Ends (r : PushRequest V) (d : Domain V) (b : BranchName) (out : ℕ × List SkippedDoc)
    (s : Domain V) : Prop :=
  ∃ c, r.collect = .ok c ∧ out = (c.indexed, c.skipped) ∧ PushDone d (r.noopStart d) b r.commit c s

theorem buffered_spec (hmode : r.mode = .buffered) (hnew : r.commit ∉ d.opened.tags)
    (h : r.Allowed d b E T) :
    Spec (fun s => s = d) (r.env.ioRunIndexPipeline b r.commit r.operations) (r.Ends d b)
      (fun _ => E) T := by
  have hcollect : r.collect = r.env.collectBuffered r.operations := by
    simp only [collect, hmode]
  have hd₀ : r.noopStart d = d.openDataset := by simp only [noopStart, hmode]
  unfold PushEnv.ioRunIndexPipeline
  cases hc : r.env.collectBuffered r.operations with
  | error e => exact Spec.fail fun s hs => hs ▸ h.start
  | ok c =>
    rw [hc] at hcollect
    refine Spec.bind (PushEnv.commitBuffered_spec hnew (h.fails c hcollect) (h.steps c hcollect) hd₀)
      fun _ => Spec.pure fun s hs => ?_
    exact ⟨c, hcollect, rfl, hs⟩

theorem streaming_spec {expectedDocs : Option ℕ} (hmode : r.mode = .streaming expectedDocs)
    (hnew : r.commit ∉ d.opened.tags) (h : r.Allowed d b E T) :
    Spec (fun s => s = d)
      (r.env.ioRunIndexPipelineStream b r.commit expectedDocs r.operations) (r.Ends d b)
      (fun _ => E) T := by
  have hcollect : r.collect = r.env.collectStream expectedDocs r.operations := by
    simp only [collect, hmode]
  have hd₀ : r.noopStart d = d.openDataset.refresh := by simp only [noopStart, hmode]
  refine Spec.bind (R := fun _ s => s = d.openDataset) (withContext_spec
    (r.env.ioOpenDataset_spec (fun s hs => ?_) fun _ s hs => hs ▸ h.start)) fun _ => Spec.bind
      (R := fun _ s => s = d.openDataset ∧ ∃ l, AtBranch d b l d.openDataset ∧
        d.opened.lineage? (wantBranch b) = some l)
      (withContext_spec (r.env.checkoutBranch_spec (fun s ds l hs hds hl => ?_)
        fun s hs _ => hs ▸ h.early)) fun _ => Spec.of_and ?_
  · subst hs
    exact ⟨h.opens _, rfl⟩
  · subst hs
    exact ⟨rfl, AtBranch.of_openDataset hds hl⟩
  · rintro ⟨l, hat, hl⟩
    refine Spec.bind (R := fun _ s => s = d.openDataset) (Spec.look fun _ hs => hs)
      fun position => ?_
    cases hc : r.env.collectStream expectedDocs r.operations with
    | error e => exact Spec.fail fun s hs => hs ▸ h.early
    | ok c =>
      rw [hc] at hcollect
      obtain ⟨docs, hdocs⟩ := collects hcollect
      refine Spec.bind (PushEnv.writeStream_spec hnew (h.fails c hcollect) (h.steps c hcollect)
        hd₀ hat hl hdocs.indexed_eq_zero position) fun _ => Spec.pure fun s hs => ?_
      exact ⟨c, hcollect, rfl, hs⟩

theorem pipeline_spec (hnew : r.commit ∉ d.opened.tags) (h : r.Allowed d b E T) :
    Spec (fun s => s = d) (r.pipeline b) (r.Ends d b) (fun _ => E) T := by
  unfold pipeline
  split
  · exact buffered_spec ‹_› hnew h
  · exact streaming_spec ‹_› hnew h

/-- A push is refused, or fails, or ends complete as its pipeline leaves it. -/
theorem push_spec (hstart : E d) (hresolve : T .resolve d.openReadonly)
    (h : r.Allowed d.openReadonly b E T) :
    Spec (fun s => s = d) (r.push b)
      (fun status s => match status with
        | .complete indexed skipped => r.commit ∉ d.opened.tags ∧
          r.Ends d.openReadonly b (indexed, skipped) s
        | .error _ => E s)
      (fun _ => E) T := by
  refine Spec.bind (R := fun found s => s = d.openReadonly ∧
      (found = none → r.commit ∉ d.opened.tags)) (Spec.mapError (r.env.ioResolveCommit_spec
    (fun s hs => ?_) fun s hs => hs ▸ hstart)) fun found => Spec.of_and fun hfound => ?_
  · subst hs
    refine ⟨hresolve, rfl, fun hnone => ?_⟩
    rw [Option.map_eq_none_iff] at hnone
    rw [← AList.lookup_eq_none]
    exact Domain.lookup_opened_eq_none hnone
  · cases found with
    | some v => exact Spec.fail fun s hs => hs ▸ h.start
    | none =>
      have hnew := hfound rfl
      refine Spec.bind (Spec.attempt (Q := fun out s => match out with
          | .ok out => r.commit ∉ d.opened.tags ∧ r.Ends d.openReadonly b out s
          | .error _ => E s) ((pipeline_spec (by simpa using hnew) h).post fun _ _ hs => ⟨hnew, hs⟩))
        fun out => ?_
      cases out with
      | ok out => exact Spec.pure fun s hs => hs
      | error e => exact Spec.pure fun s hs => hs

/-- A push that ends complete has run its pipeline to the end, whatever the domain was. -/
theorem push_done {indexed : ℕ} {skipped : List SkippedDoc}
    (h : (r.push b d).result = .ok (.complete indexed skipped)) :
    ∃ c, r.collect = .ok c ∧
      PushDone d.openReadonly (r.noopStart d.openReadonly) b r.commit c (r.push b d).store := by
  have hallowed : r.Allowed d.openReadonly b (fun _ => True) (fun _ _ => True) :=
    ⟨trivial, trivial, fun _ => trivial, fun _ _ => pushFails_true,
      fun _ _ => ⟨fun _ _ _ => trivial, fun _ => trivial, fun _ _ _ => trivial,
        fun _ _ _ => trivial⟩⟩
  obtain ⟨-, c, hc, -, hdone⟩ := (push_spec (E := fun _ => True) (T := fun _ _ => True) trivial
    trivial hallowed).result_ok rfl h
  exact ⟨c, hc, hdone⟩

end PushRequest

end Vectorlink
