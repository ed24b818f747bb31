import Vectorlink.Service.AbandonedPush
import Vectorlink.Service.PushAccounts

/-! The buffered and the streaming pipeline on the same operations. They agree on everything
but the version at which a commit without work is tagged. -/
namespace Vectorlink

open Stepwise Stepwise.Program Versioned

variable {V : Type}

/-- The same documents, reports, deletes and rows. -/
structure Collected.Same (c c' : Collected V) : Prop where
  rows : c.rows = c'.rows
  indexed : c.indexed = c'.indexed
  skipped : c.skipped.Perm c'.skipped
  deleteIds : ∀ id, id ∈ c.deleteIds ↔ id ∈ c'.deleteIds

/-- Both pipelines fail on an abort and leave the dataset, or both succeed with the same
results and serve the same rows at the commit. -/
structure PipelinesAgree (env : PushEnv V) (b : BranchName) (commit : CommitId)
    (ops : List Operation) (d : Domain V) : Prop where
  abort : .abort ∈ ops →
    (∃ e, (env.ioRunIndexPipeline b commit ops d).result = .error e) ∧
    (env.ioRunIndexPipeline b commit ops d).store.opened = d.opened ∧
    (∃ e, (env.ioRunIndexPipelineStream b commit none ops d).result = .error e) ∧
    (env.ioRunIndexPipelineStream b commit none ops d).store.opened = d.opened
  work : .abort ∉ ops → ∃ c c', c.Same c' ∧
    env.collectBuffered ops = .ok c ∧ env.collectStream none ops = .ok c' ∧
    (env.ioRunIndexPipeline b commit ops d).result = .ok (c.indexed, c.skipped) ∧
    (env.ioRunIndexPipelineStream b commit none ops d).result = .ok (c'.indexed, c'.skipped) ∧
    ∃ rows, (env.ioRunIndexPipeline b commit ops d).store.opened.served commit = some rows ∧
      (env.ioRunIndexPipelineStream b commit none ops d).store.opened.served commit = some rows

/-- Some document is deleted or embedded. -/
def IngestEnv.HasWork (env : IngestEnv V) (vector : TextVectors V) (ops : List Operation) : Prop :=
  (∃ id, .deleted id ∈ ops) ∨ ∃ op ∈ ops, ∃ rows, env.entry? vector op = some (.ok rows)

/-- A cached handle on the default branch shows its newest rows. -/
def Domain.HandleCurrent (d : Domain V) : Prop :=
  ∀ v, d.cached = some v → d.opened.main.rows v = some d.opened.main.headRows

section Collect

variable {env : IngestEnv V} {vector : TextVectors V} {ops : List Operation} {c c' : Collected V}

theorem ClosedBooks.same {outs : List (Embedded V)} (h : ClosedBooks env ops outs c)
    (h' : ClosedBooks env ops outs c') : c.Same c' where
  rows := h.rows.trans h'.rows.symm
  indexed := h.indexed.trans h'.indexed.symm
  skipped := h.skipped.trans h'.skipped.symm
  deleteIds id := by rw [h.deleteIds.mem_iff, h'.deleteIds.mem_iff]

theorem Collected.Same.apply (h : c.Same c') (rows : List (ChunkRow V)) :
    c.apply rows = c'.apply rows := by
  unfold Collected.apply deleteDocs
  rw [h.rows]
  congr 1
  refine List.filter_congr fun row _ => ?_
  rw [decide_eq_decide, not_iff_not]
  exact h.deleteIds row.docId

theorem Collected.Same.noWork (h : c.Same c') (hrows : c.rows = []) (hdel : c.deleteIds = []) :
    c'.rows = [] ∧ c'.deleteIds = [] := by
  refine ⟨h.rows.symm.trans hrows, List.eq_nil_iff_forall_not_mem.mpr fun id hid => ?_⟩
  have hmem := (h.deleteIds id).mpr hid
  rw [hdel] at hmem
  cases hmem

/-- There is work exactly if there is a row to append or an id to delete. -/
theorem hasWork_iff (hbooked : env.Booked vector ops (ops.filterMap (env.entry? vector)) c)
    (hindexed : c.indexed = 0 ↔ c.rows = []) :
    env.HasWork vector ops ↔ c.rows ≠ [] ∨ c.deleteIds ≠ [] := by
  have hpos : c.rows ≠ [] ↔ ∃ op ∈ ops, ∃ rows, env.entry? vector op = some (.ok rows) := by
    have hne : c.rows ≠ [] ↔ 0 < c.indexed := by
      rw [Nat.pos_iff_ne_zero, ne_eq, ne_eq, hindexed]
    rw [hne, hbooked.indexed, List.countP_pos_iff]
    constructor
    · rintro ⟨e, he, hok⟩
      obtain ⟨op, hop, hentry⟩ := List.mem_filterMap.mp he
      cases e with
      | ok rows => exact ⟨op, hop, rows, hentry⟩
      | error report => cases hok
    · rintro ⟨op, hop, rows, hentry⟩
      exact ⟨_, List.mem_filterMap.mpr ⟨op, hop, hentry⟩, rfl⟩
  have hdel : c.deleteIds ≠ [] ↔ (∃ id, .deleted id ∈ ops) ∨ ∃ id string rows,
      .changed id string ∈ ops ∧ env.Books vector (.changed id string) (.ok rows) := by
    rw [← List.isEmpty_eq_false_iff, List.isEmpty_eq_false_iff_exists_mem, ← exists_or]
    exact exists_congr hbooked.deleteIds
  constructor
  · rintro (hdeleted | hentry)
    · exact .inr (hdel.mpr (.inl hdeleted))
    · exact .inl (hpos.mpr hentry)
  · rintro (hrows | hids)
    · exact .inr (hpos.mp hrows)
    · rcases hdel.mp hids with hdeleted | ⟨id, string, rows, hop, hbooks⟩
      · exact .inl hdeleted
      · exact .inr ⟨_, hop, entry?_of_books hbooks⟩

end Collect

section Agree

variable {env : PushEnv V} {b : BranchName} {commit : CommitId} {ops : List Operation}
  {d : Domain V} {c c' : Collected V} {l : Lineage (ChunkRow V)}

theorem agree_of_abort (habort : .abort ∈ ops) : PipelinesAgree env b commit ops d := by
  refine ⟨fun _ => ?_, fun hno => absurd habort hno⟩
  have hbuffered : ∃ e, env.collectBuffered ops = .error e := by
    cases hc : env.collectBuffered ops with
    | ok c => exact absurd habort (abort_notMem_of_collectBuffered hc)
    | error e => exact ⟨e, rfl⟩
  have hstream : ∃ e, env.collectStream none ops = .error e := by
    cases hc : env.collectStream none ops with
    | ok c => exact absurd (.inl habort) (not_abandoned hc)
    | error e => exact ⟨e, rfl⟩
  obtain ⟨e, hc⟩ := hbuffered
  obtain ⟨e', hc'⟩ := hstream
  have hrun : env.ioRunIndexPipeline b commit ops d = ⟨[], d, .error e⟩ := by
    unfold PushEnv.ioRunIndexPipeline
    rw [hc]
    rfl
  obtain ⟨e', hres, hstore⟩ := (stream_abandoned d b commit hc').fails rfl
  rw [hrun]
  refine ⟨⟨e, rfl⟩, rfl, ⟨e', hres⟩, ?_⟩
  rcases hstore with hs | hs
  · rw [hs]
  · rw [hs, Domain.openDataset_opened]

/-- What the streaming pipeline serves at its commit, with work or without. -/
theorem served_stream (hl : d.opened.lineage? (wantBranch b) = some l) (hds : d.Ready b commit)
    {s : Domain V} (h : PushDone d d.openDataset.refresh b commit c s) :
    s.opened.served commit = some (c.apply l.headRows) := by
  obtain ⟨r, hbuilt, hserved⟩ := h.served
  rw [hserved]
  cases hbuilt with
  | head _ hl' =>
    obtain rfl := Option.some.inj (hl.symm.trans hl')
    rfl
  | noop hrows hdel _ hv hr =>
    rw [(hds.refreshed hl).1, Option.some.injEq] at hv
    subst hv
    rw [Domain.refresh_opened, Domain.openDataset_opened, Dataset.rowsAt, hl, Option.bind_some,
      l.rows_head, Option.some.injEq] at hr
    rw [hr]

/-- The version at which the buffered pipeline tags a commit without work shows the newest
rows of the branch. -/
def NoopCurrent (d : Domain V) (b : BranchName) (l : Lineage (ChunkRow V)) : Prop :=
  ∃ v, d.openDataset.noopVersion b = some v ∧ l.rows v = some l.headRows

theorem noopCurrent_iff (hl : d.opened.lineage? (wantBranch b) = some l) :
    NoopCurrent d b l ↔ b ≠ mainBranch ∨ d.HandleCurrent := by
  unfold NoopCurrent Domain.noopVersion
  by_cases hb : b = mainBranch
  · have hmain : d.opened.main = l := by
      rwa [hb, wantBranch, if_pos rfl, Dataset.lineage?_none, Option.some.injEq] at hl
    simp only [hb, if_true, ne_eq, not_true_eq_false, false_or, Domain.HandleCurrent, hmain]
    cases hcached : d.cached with
    | none =>
      have hopen : d.openDataset.cached = some l.head := by
        simp [Domain.openDataset, hcached, hmain]
      simp [hopen, l.rows_head]
    | some v =>
      have hopen : d.openDataset.cached = some v := by
        simp [Domain.openDataset, hcached]
      simp [hopen]
  · simp only [hb, if_false, Domain.openDataset_opened, hl, Option.map_some, Option.some.injEq,
      ne_eq, not_false_eq_true, true_or, iff_true]
    exact ⟨l.head, rfl, l.rows_head⟩

section Runs

variable (hfails : ∀ op, env.fails op = false) (hready : d.Ready b commit)
  (hl : d.opened.lineage? (wantBranch b) = some l) (hsame : c.Same c')
  (hc : env.collectBuffered ops = .ok c) (hc' : env.collectStream none ops = .ok c')

include hfails hready hl hsame hc hc'

theorem agree_of_noopCurrent (habort : .abort ∉ ops)
    (h : c.rows = [] → c.deleteIds = [] → NoopCurrent d b l) :
    PipelinesAgree env b commit ops d := by
  refine ⟨fun hmem => absurd hmem habort, fun _ => ⟨c, c', hsame, hc, hc', ?_⟩⟩
  obtain ⟨hres', hdone'⟩ := PushEnv.stream_completes hfails hready hc'
  have hhandle : c.rows = [] → c.deleteIds = [] → ∃ v, d.openDataset.noopVersion b = some v ∧
      d.openDataset.Taggable b commit v := by
    intro hrows hdel
    obtain ⟨v, hv, hr⟩ := h hrows hdel
    refine ⟨v, hv, hready.dataset, by simpa using hready.untagged, ?_⟩
    rw [Domain.openDataset_opened, Dataset.rowsAt, hl, Option.bind_some, hr]
    rfl
  obtain ⟨hres, hdone⟩ := PushEnv.buffered_completes hfails hready hhandle hc
  refine ⟨hres, hres', c.apply l.headRows, ?_, ?_⟩
  · obtain ⟨r, hbuilt, hserved⟩ := hdone.served
    rw [hserved]
    cases hbuilt with
    | head _ hl' =>
      obtain rfl := Option.some.inj (hl.symm.trans hl')
      rfl
    | noop hrows hdel _ hv hr =>
      obtain ⟨v, hv', hr'⟩ := h hrows hdel
      obtain rfl := Option.some.inj (hv'.symm.trans hv)
      rw [Domain.openDataset_opened, Dataset.rowsAt, hl, Option.bind_some, hr',
        Option.some.injEq] at hr
      rw [hr]
  · rw [served_stream hl hready hdone', hsame.apply]

theorem noopCurrent_of_agree (habort : .abort ∉ ops) (h : PipelinesAgree env b commit ops d)
    (hrows : c.rows = []) (hdel : c.deleteIds = []) : NoopCurrent d b l := by
  obtain ⟨c₁, c₁', -, hc₁, -, hres, -, rows, hserved, hserved'⟩ := h.work habort
  obtain rfl := Except.ok.inj (hc.symm.trans hc₁)
  have hstream := served_stream hl hready (PushEnv.stream_completes hfails hready hc').2
  obtain ⟨hrows', hdel'⟩ := hsame.noWork hrows hdel
  rw [hserved', Collected.apply_of_nil hrows' hdel', Option.some.injEq] at hstream
  subst hstream
  obtain ⟨c₂, hc₂, -, hdone⟩ := PushRequest.pipeline_ends
    (r := ⟨env, commit, ops, .buffered⟩) hready.untagged hres
  obtain rfl := Except.ok.inj (hc.symm.trans hc₂)
  obtain ⟨r, hbuilt, hbuffered⟩ := hdone.served
  have heq : some (c.apply r) = some l.headRows := hbuffered.symm.trans hserved
  rw [Collected.apply_of_nil hrows hdel, Option.some.injEq] at heq
  cases hbuilt with
  | head hwork _ =>
    rcases hwork with hne | hne
    · exact absurd hrows hne
    · exact absurd hdel hne
  | noop _ _ _ hv hr =>
    have hopened : (PushRequest.noopStart ⟨env, commit, ops, .buffered⟩ d).opened = d.opened :=
      PushRequest.noopStart_opened d
    rw [hopened, Dataset.rowsAt, hl, Option.bind_some, heq] at hr
    exact ⟨_, hv, hr⟩

end Runs

/-- The pipelines agree on every list of operations, unless the list leaves nothing to do and
the cached handle of the default branch does not show its newest rows. -/
theorem pipelines_agree_iff (env : PushEnv V) (vector : TextVectors V) (b : BranchName)
    (commit : CommitId) (ops : List Operation) (d : Domain V)
    (hprovider : OfText env.provider vector) (hfails : ∀ op, env.fails op = false)
    (hgo : ∀ p, env.cancelled p = false) (hready : d.Ready b commit) :
    PipelinesAgree env b commit ops d ↔
      .abort ∈ ops ∨ env.HasWork vector ops ∨ b ≠ mainBranch ∨ d.HandleCurrent := by
  by_cases habort : .abort ∈ ops
  · exact ⟨fun _ => .inl habort, fun _ => agree_of_abort habort⟩
  · obtain ⟨l, hl⟩ := Option.isSome_iff_exists.mp hready.branch
    have hbuffered : ∃ c, env.collectBuffered ops = .ok c := collectBuffered_completes habort
    obtain ⟨c, hc⟩ := hbuffered
    have hstream : ∃ c', env.collectStream none ops = .ok c' :=
      collectStream_completes hgo habort fun n hn => by cases hn
    obtain ⟨c', hc'⟩ := hstream
    have hclosed := collectBuffered_text hprovider hc
    have hsame := hclosed.same (collectStream_text hprovider hc')
    obtain ⟨docs, hdocs⟩ := collectBuffered_collects hc
    have hwork := hasWork_iff hclosed.booked hdocs.indexed_eq_zero
    rw [← noopCurrent_iff hl, hwork]
    constructor
    · intro h
      refine .inr ?_
      by_cases hrows : c.rows = []
      · by_cases hdel : c.deleteIds = []
        · exact .inr (noopCurrent_of_agree hfails hready hl hsame hc hc' habort h hrows hdel)
        · exact .inl (.inr hdel)
      · exact .inl (.inl hrows)
    · rintro (hmem | hsome | hcurrent)
      · exact absurd hmem habort
      · refine agree_of_noopCurrent hfails hready hl hsame hc hc' habort fun hrows hdel => ?_
        rcases hsome with hne | hne
        · exact absurd hrows hne
        · exact absurd hdel hne
      · exact agree_of_noopCurrent hfails hready hl hsame hc hc' habort fun _ _ => hcurrent

end Agree

section Samples

/-- A push whose rows are on the branch while the cached handle still stands before them. -/
def staleDomain : Domain Bool :=
  (PushRequest.pipeline ⟨{ pickyEnv true with fails := fun op => op == .refreshWritten }, "c1",
    [.inserted "b" "new"], .buffered⟩ mainBranch (storedA true)).store

theorem ready_storedA : (storedA true).Ready mainBranch "c1" where
  handle := by decide +kernel
  branch := by decide +kernel
  untagged := by decide +kernel

theorem pipelines_agree_mixed :
    PipelinesAgree (pickyEnv true) mainBranch "c1"
      [.inserted "b" "new", .changed "a" "bad", .error "render"] (storedA true) :=
  (pipelines_agree_iff (pickyEnv true) boolVector mainBranch "c1" _ (storedA true)
    (pickyEnv_ofText true) (fun _ => rfl) (fun _ => rfl) ready_storedA).mpr
    (.inr (.inl (.inr ⟨.inserted "b" "new", by simp, _, rfl⟩)))

/-- An empty commit after a push whose refresh failed: the buffered pipeline serves the rows
before that push at the commit, the streaming pipeline those after it. -/
theorem pipelines_disagree_stale :
    (staleDomain.opened.main.headRows.map (·.docId) = ["a", "b"] ∧ "c2" ∉ staleDomain.opened.tags) ∧
      ¬ PipelinesAgree (pickyEnv true) mainBranch "c2" [] staleDomain := by
  refine ⟨by decide +kernel, fun h => ?_⟩
  obtain ⟨-, -, -, -, -, -, -, rows, hserved, hserved'⟩ := h.work List.not_mem_nil
  have hdiffer : ((pickyEnv true).ioRunIndexPipeline mainBranch "c2" [] staleDomain).store.opened.served
      "c2" ≠ ((pickyEnv true).ioRunIndexPipelineStream mainBranch "c2" none []
        staleDomain).store.opened.served "c2" := by decide +kernel
  exact hdiffer (hserved.trans hserved'.symm)

end Samples

end Vectorlink
