import Vectorlink.Service.PushRuns

/-! Indexing a branch from scratch: its index is reset and its documents are pushed again.
The reset takes the tags away and leaves the rows of the branch. -/
namespace Vectorlink

open Stepwise Stepwise.Program Versioned

variable {V : Type}

section Reset

/-- `s` has the rows of `d` on every branch, and its handle is at the same version. -/
def SameRows (d s : Domain V) : Prop :=
  (∀ b, s.opened.lineage? b = d.opened.lineage? b) ∧
    s.cached.getD s.opened.main.head = d.cached.getD d.opened.main.head

variable {d s : Domain V}

theorem SameRows.main (h : SameRows d s) : s.opened.main = d.opened.main :=
  Option.some.inj (h.1 none)

theorem SameRows.openReadonly (h : SameRows d s) : SameRows d s.openReadonly := by
  refine ⟨by simpa using h.1, ?_⟩
  rw [← h.2, Domain.openReadonly_opened]
  unfold Domain.openReadonly
  split
  · rename_i hcached hds
    simp [hcached, Domain.opened_of_some hds]
  · rfl

theorem SameRows.deleteTag (h : SameRows d s) {ds ds' : LanceDataset (ChunkRow V)}
    {commit : CommitId} (hds : s.dataset = some ds) (hdelete : ds.deleteTag commit = .ok ds') :
    SameRows d { s with dataset := some ds' } := by
  obtain ⟨-, rfl⟩ := Dataset.deleteTag_ok.mp hdelete
  unfold SameRows at *
  rw [Domain.opened_of_some hds] at h
  rw [Domain.opened_of_some rfl]
  exact ⟨fun b => (by cases b <;> rfl : _ = ds.lineage? b).trans (h.1 b), h.2⟩

/-- A reset changes no row, whether it succeeds or not. -/
theorem ioDeleteBranchIndex_sameRows (env : StoreEnv) (d : Domain V) (b : BranchName) :
    SameRows d ((env.ioDeleteBranchIndex b) d).store := by
  have hpreserves : Preserves (SameRows d) (env.ioDeleteBranchIndex b) := by
    unfold StoreEnv.ioDeleteBranchIndex
    refine Preserves.bind (Preserves.step fun s t hs ht => ?_) fun _ => Preserves.bind
      (Preserves.look _) fun commits => Preserves.bind (Preserves.forEach (fun commit => ?_) _)
        fun _ => Preserves.step fun s t hs ht => ?_
    · split at ht
      · cases ht
      · obtain rfl := Except.ok.inj ht
        exact hs.openReadonly
    · exact env.onDataset_spec (fun s ds ds' hs hds hdelete =>
        ⟨hs.deleteTag hds hdelete, hs.deleteTag hds hdelete⟩) fun s hs _ => hs
    · obtain rfl := Except.ok.inj ht
      exact hs
  exact Spec.final hpreserves ⟨fun _ => rfl, rfl⟩

end Reset

namespace PushRequest

variable {r : PushRequest V} {d s : Domain V} {b : BranchName} {c : Collected V}
  {rows : List (ChunkRow V)}

/-- The rows that a push starts from. A commit without work on the default branch is tagged
by the buffered pipeline at the version of the handle, otherwise the newest rows count. -/
def basis (r : PushRequest V) (d : Domain V) (b : BranchName) (c : Collected V) :
    Option (List (ChunkRow V)) :=
  if c.rows.isEmpty ∧ c.deleteIds.isEmpty ∧ r.mode = .buffered ∧ b = mainBranch then
    d.opened.main.rows (d.cached.getD d.opened.main.head)
  else (d.opened.lineage? (wantBranch b)).map (·.headRows)

theorem basis_congr (h : SameRows d s) : r.basis s b c = r.basis d b c := by
  unfold basis
  rw [h.2, h.main, h.1]

theorem openDataset_cached (d : Domain V) :
    d.openDataset.cached = some (d.cached.getD d.opened.main.head) := by
  unfold Domain.openDataset
  split
  · rename_i v hv
    rw [hv]
    rfl
  · rename_i hnone
    rw [hnone]
    rfl

/-- The version that a commit without work gets. -/
theorem noopVersion_noopStart (hds : (r.noopStart d).dataset.isSome) (b : BranchName) :
    (r.noopStart d).noopVersion b =
      if r.mode = .buffered ∧ b = mainBranch then some (d.cached.getD d.opened.main.head)
      else (d.opened.lineage? (wantBranch b)).map (·.head) := by
  unfold Domain.noopVersion
  rw [noopStart_opened]
  unfold noopStart at hds ⊢
  by_cases hb : b = mainBranch
  · rw [if_pos hb, hb, wantBranch, if_pos rfl, Dataset.lineage?_none, Option.map_some]
    cases hmode : r.mode with
    | buffered => simp only [openDataset_cached, and_self, if_true]
    | streaming n =>
      rw [hmode] at hds
      simp only [reduceCtorEq, false_and, if_false]
      rw [Domain.refresh_cached (by simpa using hds), Domain.openDataset_opened]
  · rw [if_neg hb, if_neg fun h => hb h.2]

theorem basis_eq_some (h : BuiltOn d (r.noopStart d) b c rows) : r.basis d b c = some rows := by
  unfold basis
  cases h with
  | head hwork hl =>
    rw [if_neg, hl, Option.map_some]
    rintro ⟨hrows, hdel, -⟩
    rw [List.isEmpty_iff] at hrows hdel
    exact hwork.elim (fun h => h hrows) fun h => h hdel
  | @noop v r' hrows hdel hds hv hr =>
    rw [noopVersion_noopStart hds] at hv
    rw [noopStart_opened] at hr
    simp only [hrows, hdel, List.isEmpty_nil, true_and]
    split at hv
    · rename_i h
      rw [if_pos h]
      obtain rfl := Option.some.inj hv
      rw [h.2, wantBranch, if_pos rfl] at hr
      exact hr
    · rename_i h
      rw [if_neg h]
      obtain ⟨l, hl, rfl⟩ := Option.map_eq_some_iff.mp hv
      rw [Dataset.rowsAt, hl, Option.bind_some, l.rows_head] at hr
      rw [hl, Option.map_some, hr]

/-- What a completed push serves, from any domain. -/
theorem push_serves {indexed : ℕ} {skipped : List SkippedDoc}
    (h : (r.push b d).result = .ok (.complete indexed skipped)) :
    ∃ c built, r.collect = .ok c ∧ r.basis d b c = some built ∧
      (r.push b d).store.opened.served r.commit = some (c.apply built) := by
  obtain ⟨c, hc, hdone⟩ := push_done h
  obtain ⟨built, hbuilt, hserved⟩ := hdone.served
  refine ⟨c, built, hc, ?_, hserved⟩
  have hsame : SameRows d d.openReadonly := SameRows.openReadonly ⟨fun _ => rfl, rfl⟩
  rw [← basis_congr hsame]
  exact basis_eq_some hbuilt

end PushRequest

section Exact

/-- The commit serves the rows of the embedded documents, each once, and no others. -/
def ServesOnlyPushed (r : PushRequest V) (s : Domain V) : Prop :=
  ∃ c docs rows, r.collect = .ok c ∧ Collects r.env.toIngestEnv r.operations docs c ∧
    s.opened.served r.commit = some rows ∧ rows.Perm (docs.flatMap (·.rows))

/-- There is no row under what the push adds. -/
def StartsEmpty (r : PushRequest V) (d : Domain V) (b : BranchName) : Prop :=
  ∀ c, r.collect = .ok c → r.basis d b c = some []

/-- Insertions delete nothing. -/
theorem Collects.deleteIds_eq_nil {env : IngestEnv V} {ops : List Operation}
    {docs : List (IndexedDoc V)} {c : Collected V} (h : Collects env ops docs c)
    (hops : ∀ op ∈ ops, ∃ id string, op = .inserted id string) : c.deleteIds = [] := by
  rw [List.eq_nil_iff_forall_not_mem]
  intro id hid
  rcases (h.deleteIds id).mp hid with hdel | ⟨d, hd, hchanged, -⟩
  · obtain ⟨id', string, heq⟩ := hops _ hdel
    cases heq
  · obtain ⟨string, hop, -⟩ := h.text d hd
    obtain ⟨id', string', heq⟩ := hops _ hop
    rw [hchanged] at heq
    cases heq

variable {env : StoreEnv} {d : Domain V} {b : BranchName} {r : PushRequest V} {indexed : ℕ}
  {skipped : List SkippedDoc}

/-- After a reset, pushing all documents again is exact when there was no row to begin with,
and only then. -/
theorem reindex_exact_iff
    (hops : ∀ op ∈ r.operations, ∃ id string, op = .inserted id string)
    (hcomplete : (r.push b (env.ioDeleteBranchIndex b d).store).result =
      .ok (.complete indexed skipped)) :
    ServesOnlyPushed r (r.push b (env.ioDeleteBranchIndex b d).store).store ↔
      StartsEmpty r d b := by
  obtain ⟨c, built, hc, hbuilt, hserved⟩ := PushRequest.push_serves hcomplete
  rw [PushRequest.basis_congr (ioDeleteBranchIndex_sameRows env d b)] at hbuilt
  obtain ⟨docs, hdocs⟩ := PushRequest.collects hc
  have happly : c.apply built = built ++ c.rows := by
    rw [Collected.apply, hdocs.deleteIds_eq_nil hops]
    simp
  constructor
  · rintro ⟨c', docs', rows, hc', hdocs', hrows, hperm⟩ c'' hc''
    obtain rfl := Except.ok.inj (hc'.symm.trans hc)
    obtain rfl := Except.ok.inj (hc''.symm.trans hc)
    obtain rfl := Option.some.inj (hrows.symm.trans hserved)
    rw [happly, ← hdocs'.rows] at hperm
    have hlength := hperm.length_eq
    rw [List.length_append] at hlength
    have hnil : built = [] := List.length_eq_zero_iff.mp (by omega)
    rw [hbuilt, hnil]
  · intro hempty
    obtain rfl := Option.some.inj ((hempty c hc).symm.trans hbuilt)
    refine ⟨c, docs, _, hc, hdocs, hserved, ?_⟩
    rw [happly, List.nil_append, hdocs.rows]

end Exact

section Samples

def noFault : StoreEnv := ⟨fun _ => false, fun _ => 1⟩

/-- A commit without operations. -/
def emptyPush : PushRequest Unit := ⟨plainEnv fun _ => false, "c0", [], .buffered⟩

/-- The domain with `c0` indexed and then reset. -/
def resetAfter (r : PushRequest Unit) : Domain Unit :=
  (noFault.ioDeleteBranchIndex mainBranch (r.push mainBranch .fresh).store).store

theorem insertA_operations (fails : StoreOp → Bool) :
    ∀ op ∈ (insertA fails).operations, ∃ id string, op = .inserted id string := by
  intro op hop
  exact ⟨_, _, List.mem_singleton.mp hop⟩

theorem reindex_exact_emptyPush :
    ServesOnlyPushed (insertA fun _ => false)
      ((insertA fun _ => false).push mainBranch (resetAfter emptyPush)).store := by
  have hcomplete : ((insertA fun _ => false).push mainBranch (resetAfter emptyPush)).result =
      .ok (.complete 1 []) := by rfl
  refine (reindex_exact_iff (insertA_operations _) hcomplete).mpr ?_
  intro c hc
  obtain rfl := Except.ok.inj hc
  decide

/-- The same commit pushed, reset and pushed again has its row twice. -/
theorem reindex_not_exact_insertA :
    (noFault.ioDeleteBranchIndex mainBranch
      ((insertA fun _ => false).push mainBranch .fresh).store).result = .ok () ∧
    ((insertA fun _ => false).push mainBranch (resetAfter (insertA fun _ => false))).result =
      .ok (.complete 1 []) ∧
    ¬ ServesOnlyPushed (insertA fun _ => false)
      ((insertA fun _ => false).push mainBranch (resetAfter (insertA fun _ => false))).store := by
  refine ⟨by rfl, by rfl, ?_⟩
  rintro ⟨c, docs, rows, hc, hdocs, hserved, hperm⟩
  have htwice : ((((insertA fun _ => false).push mainBranch
      (resetAfter (insertA fun _ => false))).store.opened.served
        (insertA fun _ => false).commit).getD []).length = 2 := by decide
  obtain rfl := Except.ok.inj hc
  rw [hserved, Option.getD_some, hperm.length_eq, ← hdocs.rows] at htwice
  revert htwice
  decide

end Samples

end Vectorlink
