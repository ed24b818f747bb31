import Vectorlink.Service.LoadRun

/-! The offline loader against the push pipeline, on the same operations and the same data. They
part ways on an abort, on a commit without work and on every branch but the default one. -/
namespace Vectorlink

open Stepwise Stepwise.Program Versioned IngestEnv

variable {V : Type}

/-- One operation for each document, insertions of absent documents, changes and deletions of
documents that are there. -/
structure Plausible (ops : List Operation) (rows : List (ChunkRow V)) : Prop
    extends WellFormed ops rows where
  changed : ∀ id string, .changed id string ∈ ops → docRows id rows ≠ []
  deleted : ∀ id, .deleted id ∈ ops → docRows id rows ≠ []

/-- The loader, which is a process of its own, and the pipeline both leave the commit untagged,
or both tag it with the same rows and have skipped the same documents. -/
inductive LoadAgrees (env : PushEnv V) (b : BranchName) (commit : CommitId)
    (ops : List Operation) (d : Domain V) : Prop
  | untagged :
      commit ∉ (env.ioRunIndexPipeline b commit ops d).store.opened.tags →
      commit ∉ (env.load b commit ops d.restart).store.opened.tags →
      LoadAgrees env b commit ops d
  | tagged {out : ℕ × List SkippedDoc} {exit : ExitCode} {st : LoadState}
      {rows rows' : List (ChunkRow V)} :
      (env.ioRunIndexPipeline b commit ops d).result = .ok out →
      (env.load b commit ops d.restart).result = .ok (exit, st) →
      (env.ioRunIndexPipeline b commit ops d).store.opened.served commit = some rows →
      (env.load b commit ops d.restart).store.opened.served commit = some rows' →
      rows.Perm rows' →
      (∀ id, id ∈ out.2.map (·.id) ↔ id ∈ st.skipped.map LoadSkip.docId) →
      LoadAgrees env b commit ops d

section Writes

variable {env : IngestEnv V} {vector : TextVectors V} {ops : List Operation}
  {rows : List (ChunkRow V)}

/-- The rows of an entry are those of the document that the operation is about. -/
theorem own_of_entry? {op : Operation} (h : env.entry? vector op = some (.ok rows)) :
    ∃ id, op.target? = some id ∧ env.write? vector op = some ⟨id, rows⟩ ∧
      ∀ r ∈ rows, r.docId = id := by
  rcases entry?_cases env vector op with ⟨-, hnone, -, -⟩ | ⟨report, -, herror, -, -, -⟩ |
    ⟨doc, -, hentry, -, hbatch, -⟩
  · rw [hnone] at h
    cases h
  · rw [herror] at h
    cases h
  · have hdoc : ∀ r ∈ rows, r.docId = doc.id := by
      rcases textOutcome_cases env vector doc with ⟨rows', hout, hrows⟩ |
        ⟨chunk, -, role, e, -, -, hout⟩
      · rw [hentry, hout] at h
        obtain rfl : rows' = rows := Except.ok.inj (Option.some.inj h)
        intro r hr
        obtain ⟨i, hi, rfl⟩ := List.getElem_of_mem hr
        have hrow := List.Forall₂.get hrows (by rw [hrows.length_eq]; exact hi) hi
        obtain ⟨v, q, -, -, hrow⟩ := hrow
        rw [List.get_eq_getElem, List.get_eq_getElem] at hrow
        rw [hrow]
        rfl
      · rw [hentry, hout] at h
        cases h
    refine ⟨doc.id, ?_, ?_, hdoc⟩
    · cases op with
      | inserted id string => rw [(toEmbed?_some hbatch).1]; rfl
      | changed id string => rw [(toEmbed?_some hbatch).1]; rfl
      | deleted id => cases hbatch
      | error message => cases hbatch
      | abort => cases hbatch
    · cases op with
      | inserted id string =>
        rw [(toEmbed?_some hbatch).1]
        simp only [write?, h]
      | changed id string =>
        rw [(toEmbed?_some hbatch).1]
        simp only [write?, h]
      | deleted id => cases hbatch
      | error message => cases hbatch
      | abort => cases hbatch

/-- What an operation writes belongs to its document, and comes from its entry unless the
document is deleted. -/
theorem write?_some {op : Operation} {w : DocWrite V} (h : env.write? vector op = some w) :
    op.target? = some w.id ∧ w.Own ∧
      (op = .deleted w.id ∨ env.entry? vector op = some (.ok w.rows)) := by
  have hdoc : env.entry? vector op = some (.ok w.rows) → op.target? = some w.id ∧ w.Own := by
    intro hentry
    obtain ⟨id, htarget, hwrite, hown⟩ := own_of_entry? hentry
    obtain rfl : id = w.id := congrArg DocWrite.id (Option.some.inj (hwrite.symm.trans h))
    exact ⟨htarget, hown⟩
  cases op with
  | deleted id =>
    obtain rfl := Option.some.inj h
    exact ⟨rfl, fun r hr => absurd hr List.not_mem_nil, .inl rfl⟩
  | error message => cases h
  | abort => cases h
  | _ =>
    simp only [write?] at h
    split at h
    · rename_i rows hentry
      obtain rfl := Option.some.inj h
      exact ⟨(hdoc hentry).1, (hdoc hentry).2, .inr hentry⟩
    · cases h

theorem writes_own (w : DocWrite V) (hw : w ∈ env.writes vector ops) : w.Own := by
  obtain ⟨op, -, hwrite⟩ := List.mem_filterMap.mp hw
  exact (write?_some hwrite).2.1

theorem writes_sublist_target? (ops : List Operation) :
    ((env.writes vector ops).map (·.id)).Sublist (ops.filterMap Operation.target?) := by
  induction ops with
  | nil => exact .refl _
  | cons op ops ih =>
    unfold IngestEnv.writes at ih ⊢
    cases hwrite : env.write? vector op with
    | none =>
      rw [List.filterMap_cons_none hwrite]
      refine ih.trans ?_
      cases htarget : op.target? with
      | none => rw [List.filterMap_cons_none htarget]
      | some id =>
        rw [List.filterMap_cons_some htarget]
        exact List.sublist_cons_self _ _
    | some w =>
      rw [List.filterMap_cons_some hwrite, List.filterMap_cons_some (write?_some hwrite).1,
        List.map_cons]
      exact ih.cons_cons w.id

theorem hasWork_iff_writes : env.HasWork vector ops ↔ env.writes vector ops ≠ [] := by
  rw [← List.isEmpty_eq_false_iff, List.isEmpty_eq_false_iff_exists_mem]
  constructor
  · rintro (⟨id, hop⟩ | ⟨op, hop, rows, hentry⟩)
    · exact ⟨_, List.mem_filterMap.mpr ⟨_, hop, rfl⟩⟩
    · obtain ⟨id, -, hwrite, -⟩ := own_of_entry? hentry
      exact ⟨_, List.mem_filterMap.mpr ⟨op, hop, hwrite⟩⟩
  · rintro ⟨w, hw⟩
    obtain ⟨op, hop, hwrite⟩ := List.mem_filterMap.mp hw
    rcases (write?_some hwrite).2.2 with rfl | hentry
    · exact .inl ⟨_, hop⟩
    · exact .inr ⟨op, hop, _, hentry⟩

theorem flatMap_filterMap_congr {α β γ δ : Type} {f : α → Option β} {g : β → List δ}
    {f' : α → Option γ} {g' : γ → List δ}
    (h : ∀ a, ((f a).map g).getD [] = ((f' a).map g').getD []) (xs : List α) :
    (xs.filterMap f).flatMap g = (xs.filterMap f').flatMap g' := by
  have hflat : ∀ {β : Type} (f : α → Option β) (g : β → List δ),
      (xs.filterMap f).flatMap g = xs.flatMap fun a => ((f a).map g).getD [] := by
    intro β f g
    induction xs with
    | nil => rfl
    | cons x xs ih =>
      cases hx : f x with
      | none => simp [List.filterMap_cons_none hx, List.flatMap_cons, hx, ih]
      | some y => simp [List.filterMap_cons_some hx, List.flatMap_cons, hx, ih]
  rw [hflat, hflat]
  simp only [h]

/-- The rows of all entries are those of all writes: a deletion has none. -/
theorem flatMap_entries (env : IngestEnv V) (vector : TextVectors V) (ops : List Operation) :
    (ops.filterMap (env.entry? vector)).flatMap Entry.rows =
      (env.writes vector ops).flatMap (·.rows) := by
  refine flatMap_filterMap_congr (fun op => ?_) ops
  cases op with
  | deleted id => rfl
  | error message => rfl
  | abort => rfl
  | _ =>
    simp only [write?]
    split
    · rename_i rows hentry
      rw [hentry]
      rfl
    · rename_i hno
      cases hentry : env.entry? vector _ with
      | none => rfl
      | some e =>
        cases e with
        | ok rows => exact absurd hentry (hno rows)
        | error report => rfl

theorem books_of_entry? {op : Operation} {e : Entry V} (h : env.entry? vector op = some e) :
    env.Books vector op e := by
  rcases entry?_cases env vector op with ⟨-, hnone, -, -⟩ | ⟨report, -, hentry, -, -, hbooks⟩ |
    ⟨doc, -, hentry, -, -, hbooks⟩
  · rw [hnone] at h
    cases h
  · rwa [← Option.some.inj (hentry.symm.trans h)]
  · rwa [← Option.some.inj (hentry.symm.trans h)]

variable {c : Collected V}

/-- The write phase of a push makes the same rows as the writes one by one. -/
theorem apply_eq_applyWrites
    (hbooked : env.Booked vector ops (ops.filterMap (env.entry? vector)) c)
    (hops : WellFormed ops rows) : c.apply rows = applyWrites (env.writes vector ops) rows := by
  unfold Collected.apply applyWrites
  rw [hbooked.rows, flatMap_entries]
  congr 1
  refine List.filter_congr fun r hr => ?_
  rw [decide_eq_decide, not_iff_not, hbooked.deleteIds]
  constructor
  · rintro (hop | ⟨string, rows', hop, hbooks⟩)
    · exact List.mem_map.mpr ⟨⟨r.docId, []⟩, List.mem_filterMap.mpr ⟨_, hop, rfl⟩, rfl⟩
    · obtain ⟨rows'', hentry⟩ := entry?_of_books hbooks
      obtain ⟨id, htarget, hwrite, -⟩ := own_of_entry? hentry
      obtain rfl : r.docId = id := Option.some.inj htarget
      exact List.mem_map.mpr ⟨_, List.mem_filterMap.mpr ⟨_, hop, hwrite⟩, rfl⟩
  · intro hmem
    obtain ⟨w, hw, hid⟩ := List.mem_map.mp hmem
    obtain ⟨op, hop, hwrite⟩ := List.mem_filterMap.mp hw
    obtain ⟨htarget, -, hkind⟩ := write?_some hwrite
    rw [hid] at htarget hkind
    cases op with
    | deleted id =>
      obtain rfl := Option.some.inj htarget
      exact .inl hop
    | changed id string =>
      obtain rfl := Option.some.inj htarget
      have hentry := hkind.resolve_left fun h => by cases h
      exact .inr ⟨string, w.rows, hop, books_of_entry? hentry⟩
    | inserted id string =>
      -- an inserted document has no rows yet
      obtain rfl := Option.some.inj htarget
      have habsent := hops.absent r.docId string hop
      exact absurd habsent (docRows_ne_nil.mpr ⟨r, hr, rfl⟩)
    | error message => cases htarget
    | abort => cases htarget

end Writes

/-- The rows that a push serves at its commit, if it tags it. -/
def PushEnv.pushedRows (env : PushEnv V) (vector : TextVectors V) (b : BranchName)
    (ops : List Operation) (d : Domain V) (l : Lineage (ChunkRow V)) : Option (List (ChunkRow V)) :=
  if .abort ∈ ops then none
  else if env.writes vector ops = [] then (d.openDataset.noopVersion b).bind l.rows
  else some (applyWrites (env.writes vector ops) l.headRows)

/-- The rows that a load serves at its commit, if it tags it. -/
def PushEnv.loadedRows (env : PushEnv V) (vector : TextVectors V) (b : BranchName)
    (ops : List Operation) (d : Domain V) (l : Lineage (ChunkRow V)) : Option (List (ChunkRow V)) :=
  if env.writes vector (beforeAbort ops) = [] then none
  else (env.ftsLineage b (writeDocs l (env.writes vector (beforeAbort ops)))).rows
    (env.ftsVersion d b (writeDocs l (env.writes vector (beforeAbort ops))))

/-- Neither tags its commit, or both do and serve the same rows. -/
def PushEnv.RowsAgree (env : PushEnv V) (vector : TextVectors V) (b : BranchName)
    (ops : List Operation) (d : Domain V) (l : Lineage (ChunkRow V)) : Prop :=
  (env.pushedRows vector b ops d l = none ∧ env.loadedRows vector b ops d.restart l = none) ∨
  ∃ r r', env.pushedRows vector b ops d l = some r ∧
    env.loadedRows vector b ops d.restart l = some r' ∧ r.Perm r'

namespace PushEnv

variable {env : PushEnv V} {vector : TextVectors V} {b : BranchName} {commit : CommitId}
  {ops : List Operation} {d : Domain V} {l : Lineage (ChunkRow V)}

section Push

theorem push_abort (habort : .abort ∈ ops) :
    (env.ioRunIndexPipeline b commit ops d).store = d := by
  have hfailed : ∃ e, env.collectBuffered ops = .error e := by
    cases hc : env.collectBuffered ops with
    | ok c => exact absurd habort (abort_notMem_of_collectBuffered hc)
    | error e => exact ⟨e, rfl⟩
  obtain ⟨e, hc⟩ := hfailed
  unfold ioRunIndexPipeline
  rw [hc]
  rfl

/-- A commit without work whose version is not there stays untagged. -/
theorem push_noop_untagged (hready : d.Ready b commit)
    (hl : d.opened.lineage? (wantBranch b) = some l) {c : Collected V}
    (hc : env.collectBuffered ops = .ok c) (hrows : c.rows = []) (hdel : c.deleteIds = [])
    (hnone : (d.openDataset.noopVersion b).bind l.rows = none) :
    commit ∉ (env.ioRunIndexPipeline b commit ops d).store.opened.tags := by
  have hnot : ∀ v, d.openDataset.noopVersion b = some v → ¬ d.openDataset.Taggable b commit v := by
    intro v hv ht
    have hsome := ht.2.2
    rw [Domain.openDataset_opened, Dataset.rowsAt, hl, Option.bind_some] at hsome
    rw [hv, Option.bind_some] at hnone
    rw [hnone] at hsome
    cases hsome
  have hspec : Spec (fun s => s = d) (env.ioRunIndexPipeline b commit ops) (fun _ _ => False)
      (fun _ s => commit ∉ s.opened.tags) (fun _ _ => True) := by
    unfold ioRunIndexPipeline
    rw [hc]
    refine Spec.bind (R := fun _ _ => False) (Spec.ite (fun _ => ?_) fun hwork => ?_) fun _ =>
      fun s hs => hs.elim
    · refine (tagNoop_spec (E := fun s => commit ∉ s.opened.tags) hready.untagged
        (by simpa using hready.untagged) (fun v hv ht => absurd ht (hnot v hv))
        (fun _ _ _ => trivial) (fun _ => trivial) (fun _ _ _ _ => trivial)).post fun _ s hs => ?_
      obtain ⟨v, hv, ht, -⟩ := hs
      exact hnot v hv ht
    · simp [hrows, hdel] at hwork
  obtain ⟨-, -, hstore⟩ := hspec.fails rfl
  exact hstore

section Outcome

variable (hprovider : OfText env.provider vector) (hready : d.Ready b commit)
  (hl : d.opened.lineage? (wantBranch b) = some l)

include hprovider

/-- There is a write exactly if the write phase has something to do. -/
theorem writes_eq_nil_iff {c : Collected V} (hc : env.collectBuffered ops = .ok c) :
    env.writes vector ops = [] ↔ c.rows = [] ∧ c.deleteIds = [] := by
  obtain ⟨docs, hdocs⟩ := collectBuffered_collects hc
  have hwork := hasWork_iff (collectBuffered_text hprovider hc).booked hdocs.indexed_eq_zero
  rw [hasWork_iff_writes, ← not_and_or, not_iff_not] at hwork
  exact hwork

include hready hl

theorem pushedRows_none (h : env.pushedRows vector b ops d l = none) :
    commit ∉ (env.ioRunIndexPipeline b commit ops d).store.opened.tags := by
  unfold pushedRows at h
  split at h
  · rename_i habort
    rw [push_abort habort]
    exact hready.untagged
  · rename_i habort
    split at h
    · rename_i hnil
      have hcollect : ∃ c, env.collectBuffered ops = .ok c := collectBuffered_completes habort
      obtain ⟨c, hc⟩ := hcollect
      obtain ⟨hrows, hdel⟩ := (writes_eq_nil_iff hprovider hc).mp hnil
      exact push_noop_untagged hready hl hc hrows hdel h
    · cases h

theorem pushedRows_some (hfails : ∀ op, env.fails op = false) (hops : WellFormed ops l.headRows)
    {r : List (ChunkRow V)} (h : env.pushedRows vector b ops d l = some r) :
    ∃ out, (env.ioRunIndexPipeline b commit ops d).result = .ok out ∧
      (env.ioRunIndexPipeline b commit ops d).store.opened.served commit = some r ∧
      (out.2.map (·.id)).Perm (env.skippedIds vector ops) := by
  unfold pushedRows at h
  split at h
  · cases h
  · rename_i habort
    have hcollect : ∃ c, env.collectBuffered ops = .ok c := collectBuffered_completes habort
    obtain ⟨c, hc⟩ := hcollect
    have hbooked := (collectBuffered_text hprovider hc).booked
    have hnil := writes_eq_nil_iff hprovider hc
    have hhandle : c.rows = [] → c.deleteIds = [] → ∃ v, d.openDataset.noopVersion b = some v ∧
        d.openDataset.Taggable b commit v := by
      intro hrows hdel
      rw [if_pos (hnil.mpr ⟨hrows, hdel⟩)] at h
      obtain ⟨v, hv, hr⟩ := Option.bind_eq_some_iff.mp h
      refine ⟨v, hv, hready.dataset, by simpa using hready.untagged, ?_⟩
      rw [Domain.openDataset_opened, Dataset.rowsAt, hl, Option.bind_some, hr]
      rfl
    obtain ⟨hres, hdone⟩ := buffered_completes hfails hready hhandle hc
    refine ⟨_, hres, ?_, hbooked.skipped.map _⟩
    obtain ⟨base, hbuilt, hserved⟩ := hdone.served
    rw [hserved]
    cases hbuilt with
    | head hwork hl' =>
      obtain rfl := Option.some.inj (hl.symm.trans hl')
      have hsome : env.writes vector ops ≠ [] := by
        rw [ne_eq, hnil, not_and_or]
        exact hwork
      rw [if_neg hsome] at h
      rw [apply_eq_applyWrites hbooked hops, h]
    | noop hrows hdel _ hv hr =>
      rw [if_pos (hnil.mpr ⟨hrows, hdel⟩), hv, Option.bind_some] at h
      rw [Domain.openDataset_opened, Dataset.rowsAt, hl, Option.bind_some, h] at hr
      rw [Collected.apply_of_nil hrows hdel, hr]

end Outcome

end Push

section Load

variable (hfails : ∀ op, env.fails op = false) (hprovider : EachText env.provider vector)
  (hclustering : env.storeClustering = true) (hready : d.Ready b commit)
  (hl : d.opened.lineage? (wantBranch b) = some l) (hops : Plausible ops l.headRows)
  (hpos : 0 < d.opened.main.head)

theorem ready_restart (h : d.Ready b commit) : d.restart.Ready b commit where
  handle hcached := by cases hcached
  branch := h.branch
  untagged := h.untagged

/-- A branch with rows on it belongs to a dataset that exists. -/
theorem dataset_of_headRows (hl : d.opened.lineage? (wantBranch b) = some l)
    (hne : l.headRows ≠ []) : d.dataset.isSome := by
  cases hds : d.dataset with
  | some ds => rfl
  | none =>
    have hopened : d.opened = .create := by simp [Domain.opened, hds]
    rw [hopened, wantBranch] at hl
    split at hl
    · obtain rfl := Option.some.inj hl
      exact absurd rfl hne
    · cases hl

include hl hops in
theorem atBranch_of_deleted {id : DocId} (hop : .deleted id ∈ ops) :
    AtBranch d.restart b l d.restart := by
  refine .start ?_ rfl rfl hl
  refine dataset_of_headRows hl fun hnil => ?_
  have hdoc := hops.deleted id hop
  rw [hnil] at hdoc
  exact hdoc rfl

include hpos in
theorem ftsVersion_pos (hsome : env.writes vector (beforeAbort ops) ≠ []) :
    0 < env.ftsVersion d.restart b (writeDocs l (env.writes vector (beforeAbort ops))) := by
  have hhead := writeDocs_head_pos l hsome
  have hmain : d.restart.opened.main = d.opened.main := rfl
  unfold ftsVersion
  rw [hmain]
  split <;> omega

include hfails hprovider hclustering hready hl hops hpos

theorem loadedRows_none (h : env.loadedRows vector b ops d.restart l = none) :
    commit ∉ (env.load b commit ops d.restart).store.opened.tags := by
  have hready' := ready_restart hready
  have hat := hready'.atBranch hl
  have hdelete : ∀ id, .deleted id ∈ ops → AtBranch d.restart b l d.restart := fun id =>
    atBranch_of_deleted hl hops
  unfold loadedRows at h
  split at h
  · rename_i hnil
    rw [load_idle hfails hprovider hclustering hat hdelete hnil]
    exact hready'.untagged
  · rename_i hsome
    exact load_untagged hfails hprovider hclustering hat hdelete hready'.untagged hsome
      (ftsVersion_pos hpos hsome) h

theorem loadedRows_some {r : List (ChunkRow V)}
    (h : env.loadedRows vector b ops d.restart l = some r) :
    ∃ exit st, (env.load b commit ops d.restart).result = .ok (exit, st) ∧
      (env.load b commit ops d.restart).store.opened.served commit = some r ∧
      st.skipped.map LoadSkip.docId = env.skippedIds vector (beforeAbort ops) := by
  have hready' := ready_restart hready
  have hat := hready'.atBranch hl
  have hdelete : ∀ id, .deleted id ∈ ops → AtBranch d.restart b l d.restart := fun id =>
    atBranch_of_deleted hl hops
  unfold loadedRows at h
  split at h
  · cases h
  · rename_i hsome
    exact load_tags hfails hprovider hclustering hat hdelete hready'.untagged hsome
      (ftsVersion_pos hpos hsome) h

end Load

end PushEnv

section Agree

variable {env : PushEnv V} {vector : TextVectors V} {b : BranchName} {commit : CommitId}
  {ops : List Operation} {d : Domain V} {l : Lineage (ChunkRow V)}

theorem mem_tags_of_served {ds : LanceDataset (ChunkRow V)} {r : List (ChunkRow V)}
    (h : ds.served commit = some r) : commit ∈ ds.tags := by
  obtain ⟨t, ht⟩ := Dataset.exists_home h
  exact AList.lookup_isSome.mp (by rw [ht.1]; rfl)

section Rows

variable (hfails : ∀ op, env.fails op = false) (hprovider : EachText env.provider vector)
  (hclustering : env.storeClustering = true) (hready : d.Ready b commit)
  (hl : d.opened.lineage? (wantBranch b) = some l) (hops : Plausible ops l.headRows)
  (hpos : 0 < d.opened.main.head)

include hfails hprovider hready hl hops

/-- What a push serves at its commit, from the operations and the branch. -/
theorem pushed_served_iff (r : List (ChunkRow V)) :
    (env.ioRunIndexPipeline b commit ops d).store.opened.served commit = some r ↔
      env.pushedRows vector b ops d l = some r := by
  cases hpushed : env.pushedRows vector b ops d l with
  | none =>
    refine ⟨fun h => ?_, fun h => by cases h⟩
    exact absurd (mem_tags_of_served h) (PushEnv.pushedRows_none hprovider.toOfText hready hl hpushed)
  | some r' =>
    obtain ⟨out, -, hserved, -⟩ := PushEnv.pushedRows_some hprovider.toOfText hready hl hfails
      hops.toWellFormed hpushed
    rw [hserved]

include hclustering hpos

theorem loaded_served_iff (r : List (ChunkRow V)) :
    (env.load b commit ops d.restart).store.opened.served commit = some r ↔
      env.loadedRows vector b ops d.restart l = some r := by
  cases hloaded : env.loadedRows vector b ops d.restart l with
  | none =>
    refine ⟨fun h => ?_, fun h => by cases h⟩
    exact absurd (mem_tags_of_served h)
      (PushEnv.loadedRows_none hfails hprovider hclustering hready hl hops hpos hloaded)
  | some r' =>
    obtain ⟨exit, st, -, hserved, -⟩ := PushEnv.loadedRows_some hfails hprovider hclustering
      hready hl hops hpos hloaded
    rw [hserved]

/-- Only the rows at the commit can be different: the skipped documents never are. -/
theorem loadAgrees_iff_rows :
    LoadAgrees env b commit ops d ↔ env.RowsAgree vector b ops d l := by
  have hpush := pushed_served_iff hfails hprovider hready hl hops
  have hload := loaded_served_iff hfails hprovider hclustering hready hl hops hpos
  constructor
  · intro h
    cases h with
    | untagged hpushed hloaded =>
      refine .inl ⟨Option.eq_none_iff_forall_ne_some.mpr fun r hr => ?_,
        Option.eq_none_iff_forall_ne_some.mpr fun r hr => ?_⟩
      · exact hpushed (mem_tags_of_served ((hpush r).mpr hr))
      · exact hloaded (mem_tags_of_served ((hload r).mpr hr))
    | tagged _ _ hpushed hloaded hperm _ =>
      exact .inr ⟨_, _, (hpush _).mp hpushed, (hload _).mp hloaded, hperm⟩
  · rintro (⟨hpushed, hloaded⟩ | ⟨r, r', hpushed, hloaded, hperm⟩)
    · exact .untagged (PushEnv.pushedRows_none hprovider.toOfText hready hl hpushed)
        (PushEnv.loadedRows_none hfails hprovider hclustering hready hl hops hpos hloaded)
    · have habort : .abort ∉ ops := by
        intro hmem
        rw [PushEnv.pushedRows, if_pos hmem] at hpushed
        cases hpushed
      obtain ⟨out, hres, hserved, hskipped⟩ := PushEnv.pushedRows_some hprovider.toOfText hready hl
        hfails hops.toWellFormed hpushed
      obtain ⟨exit, st, hres', hserved', hskipped'⟩ := PushEnv.loadedRows_some hfails hprovider
        hclustering hready hl hops hpos hloaded
      rw [beforeAbort_of_notMem habort] at hskipped'
      refine .tagged hres hres' hserved hserved' hperm fun id => ?_
      rw [hskipped', hskipped.mem_iff]

end Rows

/-- Where the default branch's text index ends when another branch is loaded. -/
def PushEnv.mainIndexVersion (env : PushEnv V) (d : Domain V) : ℕ :=
  d.opened.main.head + env.indexVersions .ftsIndex

/-- When the loader does what a push does, in terms of the operations and of the data before
them. -/
inductive LoadsLikePush (env : PushEnv V) (vector : TextVectors V) (b : BranchName)
    (ops : List Operation) (d : Domain V) (l : Lineage (ChunkRow V)) : Prop
  /-- An abort before anything is written. -/
  | abortFirst : .abort ∈ ops → env.writes vector (beforeAbort ops) = [] →
      LoadsLikePush env vector b ops d l
  /-- An abort after writes, where the version of the text index is none of the branch. -/
  | abortUntagged : .abort ∈ ops → b ≠ mainBranch →
      (l.head + versionsOf (env.writes vector (beforeAbort ops)) < env.mainIndexVersion d ∨
        env.mainIndexVersion d < l.head ∧ l.rows (env.mainIndexVersion d) = none) →
      LoadsLikePush env vector b ops d l
  /-- Writes to the default branch. -/
  | main : .abort ∉ ops → env.writes vector ops ≠ [] → b = mainBranch →
      LoadsLikePush env vector b ops d l
  /-- Writes to another branch, where the version of the text index is an older one of that
  branch with just the rows that the writes lead to. -/
  | older {r : List (ChunkRow V)} : .abort ∉ ops → env.writes vector ops ≠ [] → b ≠ mainBranch →
      env.mainIndexVersion d < l.head → l.rows (env.mainIndexVersion d) = some r →
      r.Perm (applyWrites (env.writes vector ops) l.headRows) → LoadsLikePush env vector b ops d l
  /-- Writes to another branch, where the version of the text index is that of the last write,
  or of one after which documents are only replaced by themselves. -/
  | newer {done rest : List (DocWrite V)} : .abort ∉ ops → env.writes vector ops ≠ [] →
      b ≠ mainBranch → env.writes vector ops = done ++ rest →
      env.mainIndexVersion d = l.head + versionsOf done →
      (∀ w ∈ rest, (docRows w.id l.headRows).Perm w.rows) → LoadsLikePush env vector b ops d l
  /-- Nothing to write, and a cached handle at a version that is gone: a push fails as well. -/
  | lostHandle {v : ℕ} : .abort ∉ ops → env.writes vector ops = [] → b = mainBranch →
      d.cached = some v → l.rows v = none → LoadsLikePush env vector b ops d l

theorem loadedRows_main (hb : b = mainBranch) (hsome : env.writes vector (beforeAbort ops) ≠ []) :
    env.loadedRows vector b ops d l =
      some (writeDocs l (env.writes vector (beforeAbort ops))).headRows := by
  unfold PushEnv.loadedRows PushEnv.ftsLineage PushEnv.ftsVersion
  rw [if_neg hsome, if_pos hb, if_pos hb, ← Lineage.touch_head, Lineage.rows_head,
    Lineage.touch_headRows]

theorem loadedRows_branch (hb : b ≠ mainBranch) (hsome : env.writes vector (beforeAbort ops) ≠ []) :
    env.loadedRows vector b ops d l =
      (writeDocs l (env.writes vector (beforeAbort ops))).rows (env.mainIndexVersion d) := by
  unfold PushEnv.loadedRows PushEnv.ftsLineage PushEnv.ftsVersion PushEnv.mainIndexVersion
  rw [if_neg hsome, if_neg hb, if_neg hb]

theorem rowsAgree_abort_iff (habort : .abort ∈ ops) :
    env.RowsAgree vector b ops d l ↔ LoadsLikePush env vector b ops d l := by
  have hpushed : env.pushedRows vector b ops d l = none := if_pos habort
  have hagree : env.RowsAgree vector b ops d l ↔ env.loadedRows vector b ops d.restart l = none := by
    simp [PushEnv.RowsAgree, hpushed]
  rw [hagree]
  constructor
  · intro hnone
    by_cases hnil : env.writes vector (beforeAbort ops) = []
    · exact .abortFirst habort hnil
    · have hb : b ≠ mainBranch := by
        intro hb
        rw [loadedRows_main hb hnil] at hnone
        cases hnone
      rw [loadedRows_branch hb hnil, writeDocs_rows_eq_none_iff] at hnone
      exact .abortUntagged habort hb hnone
  · intro h
    by_cases hnil : env.writes vector (beforeAbort ops) = []
    · exact if_pos hnil
    · cases h with
      | abortFirst _ h => exact absurd h hnil
      | abortUntagged _ hb h => rwa [loadedRows_branch hb hnil, writeDocs_rows_eq_none_iff]
      | main h _ _ => exact absurd habort h
      | older h _ _ _ _ _ => exact absurd habort h
      | newer h _ _ _ _ _ => exact absurd habort h
      | lostHandle h _ _ _ _ => exact absurd habort h

theorem rowsAgree_idle_iff (habort : .abort ∉ ops) (hnil : env.writes vector ops = [])
    (hl : d.opened.lineage? (wantBranch b) = some l) :
    env.RowsAgree vector b ops d l ↔ LoadsLikePush env vector b ops d l := by
  have hloaded : env.loadedRows vector b ops d.restart l = none := by
    refine if_pos ?_
    rw [beforeAbort_of_notMem habort, hnil]
  have hpushed : env.pushedRows vector b ops d l = (d.openDataset.noopVersion b).bind l.rows := by
    unfold PushEnv.pushedRows
    rw [if_neg habort, if_pos hnil]
  have hagree : env.RowsAgree vector b ops d l ↔
      (d.openDataset.noopVersion b).bind l.rows = none := by
    simp [PushEnv.RowsAgree, hloaded, hpushed]
  rw [hagree]
  constructor
  · intro hnone
    unfold Domain.noopVersion at hnone
    by_cases hb : b = mainBranch
    · rw [if_pos hb] at hnone
      cases hcached : d.cached with
      | some v =>
        rw [Domain.openDataset, hcached] at hnone
        exact .lostHandle habort hnil hb hcached (by simpa [hcached] using hnone)
      | none =>
        rw [hb, wantBranch, if_pos rfl, Dataset.lineage?_none, Option.some.injEq] at hl
        simp [Domain.openDataset, hcached, hl] at hnone
    · rw [if_neg hb, Domain.openDataset_opened, hl] at hnone
      simp at hnone
  · intro h
    cases h with
    | abortFirst h _ => exact absurd h habort
    | abortUntagged h _ _ => exact absurd h habort
    | main _ h _ => exact absurd hnil h
    | older _ h _ _ _ _ => exact absurd hnil h
    | newer _ h _ _ _ _ => exact absurd hnil h
    | lostHandle _ _ hb hcached hrows =>
      simp [Domain.noopVersion, hb, Domain.openDataset, hcached, hrows]

theorem rowsAgree_work_iff (habort : .abort ∉ ops) (hsome : env.writes vector ops ≠ [])
    (hops : WellFormed ops l.headRows) :
    env.RowsAgree vector b ops d l ↔ LoadsLikePush env vector b ops d l := by
  have hself := beforeAbort_of_notMem habort
  have hsome' : env.writes vector (beforeAbort ops) ≠ [] := by rwa [hself]
  have hnodup : ((env.writes vector ops).map (·.id)).Nodup :=
    hops.once.sublist (writes_sublist_target? ops)
  have hrows : (writeDocs l (env.writes vector ops)).headRows =
      applyWrites (env.writes vector ops) l.headRows := writeDocs_headRows hnodup writes_own
  have hpushed : env.pushedRows vector b ops d l =
      some (applyWrites (env.writes vector ops) l.headRows) := by
    unfold PushEnv.pushedRows
    rw [if_neg habort, if_neg hsome]
  have hagree : env.RowsAgree vector b ops d l ↔ ∃ r, env.loadedRows vector b ops d.restart l =
      some r ∧ r.Perm (applyWrites (env.writes vector ops) l.headRows) := by
    simp [PushEnv.RowsAgree, hpushed, List.perm_comm]
  rw [hagree]
  by_cases hb : b = mainBranch
  · rw [loadedRows_main hb hsome', hself, hrows]
    exact ⟨fun _ => .main habort hsome hb, fun _ => ⟨_, rfl, .refl _⟩⟩
  · have hversion : env.mainIndexVersion d.restart = env.mainIndexVersion d := rfl
    rw [loadedRows_branch hb hsome', hself, hversion]
    by_cases hlow : env.mainIndexVersion d < l.head
    · rw [writeDocs_rows_of_le (Nat.le_of_lt hlow)]
      constructor
      · rintro ⟨r, hr, hperm⟩
        exact .older habort hsome hb hlow hr hperm
      · intro h
        cases h with
        | abortFirst h _ => exact absurd h habort
        | abortUntagged h _ _ => exact absurd h habort
        | main _ _ h => exact absurd h hb
        | older _ _ _ _ hr hperm => exact ⟨_, hr, hperm⟩
        | newer _ _ _ _ hv _ => omega
        | lostHandle _ h _ _ _ => exact absurd h hsome
    · rw [← hrows, writeDocs_shows_last_iff hnodup writes_own (Nat.le_of_not_lt hlow)]
      constructor
      · rintro ⟨done, rest, hws, hv, hsame⟩
        exact .newer habort hsome hb hws hv hsame
      · intro h
        cases h with
        | abortFirst h _ => exact absurd h habort
        | abortUntagged h _ _ => exact absurd h habort
        | main _ _ h => exact absurd h hb
        | older _ _ _ h _ _ => exact absurd h hlow
        | newer _ _ _ hws hv hsame => exact ⟨_, _, hws, hv, hsame⟩
        | lostHandle _ h _ _ _ => exact absurd h hsome

end Agree

section Samples

theorem pickyEnv_eachText (storeClustering : Bool) :
    EachText (pickyEnv storeClustering).provider boolVector where
  toOfText := pickyEnv_ofText storeClustering
  whole call texts h := by
    have hbad : "bad" ∉ texts := by
      intro hmem
      obtain ⟨v, hv⟩ := h "bad" hmem
      cases hv
    unfold ioEmbed
    split
    · exact ⟨_, rfl⟩
    · simp [pickyEnv, hbad]

theorem plausible_mixed :
    Plausible [.inserted "b" "new", .changed "a" "bad", .error "render"]
      (storedA true).opened.main.headRows where
  once := by decide
  absent id string h := by
    simp only [List.mem_cons, Operation.inserted.injEq, reduceCtorEq, List.not_mem_nil, or_false] at h
    rw [h.1]
    decide +kernel
  changed id string h := by
    simp only [List.mem_cons, Operation.changed.injEq, reduceCtorEq, List.not_mem_nil, or_false,
      false_or] at h
    rw [h.1]
    decide +kernel
  deleted id h := by simp at h

/-- A branch at the newest version of the default branch. -/
def forkedA : Domain Bool :=
  { storedA true with
    dataset := ((storedA true).opened.createBranch "dev" none (storedA true).opened.main.head).toOption }

theorem LoadAgrees.mem_tags_iff {env : PushEnv V} {b : BranchName} {commit : CommitId}
    {ops : List Operation} {d : Domain V} (h : LoadAgrees env b commit ops d) :
    commit ∈ (env.ioRunIndexPipeline b commit ops d).store.opened.tags ↔
      commit ∈ (env.load b commit ops d.restart).store.opened.tags := by
  cases h with
  | untagged hpush hload => simp [hpush, hload]
  | tagged _ _ hpush hload _ _ => simp [mem_tags_of_served hpush, mem_tags_of_served hload]

theorem LoadAgrees.docIds_perm {env : PushEnv V} {b : BranchName} {commit : CommitId}
    {ops : List Operation} {d : Domain V} (h : LoadAgrees env b commit ops d)
    {ids ids' : List DocId}
    (hpush : ((env.ioRunIndexPipeline b commit ops d).store.opened.served commit).map
      (·.map (·.docId)) = some ids)
    (hload : ((env.load b commit ops d.restart).store.opened.served commit).map
      (·.map (·.docId)) = some ids') : ids.Perm ids' := by
  obtain ⟨r, hr, rfl⟩ := Option.map_eq_some_iff.mp hpush
  obtain ⟨r', hr', rfl⟩ := Option.map_eq_some_iff.mp hload
  cases h with
  | untagged hnot _ => exact absurd (mem_tags_of_served hr) hnot
  | tagged _ _ hserved hserved' hperm _ =>
    obtain rfl := Option.some.inj (hr.symm.trans hserved)
    obtain rfl := Option.some.inj (hr'.symm.trans hserved')
    exact hperm.map _

end Samples

end Vectorlink
