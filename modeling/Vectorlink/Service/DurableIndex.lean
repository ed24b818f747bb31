import Vectorlink.Concurrent.Runs
import Vectorlink.Service.Assign
import Vectorlink.Store.CompactionLast

/-! The commit that the tags report as last indexed, along whole histories of the default
branch. -/
namespace Vectorlink

open Stepwise Stepwise.Program Versioned Concurrent

variable {V : Type}

/-- A compaction of the domain, if it succeeds. With up to two commits only a handle is
opened, otherwise it is refreshed at the end. -/
def Domain.compact (d : Domain V) (env : RetagEnv (ChunkRow V)) : Option (Domain V) :=
  match d.dataset with
  | none => some d
  | some ds =>
    match (env.retag ds).result with
    | .error _ => none
    | .ok (total, _) =>
      if total ≤ 2 then some d.openReadonly
      else some (Domain.refresh { d with dataset := some (env.retag ds).store })

/-- What happens to the default branch. -/
inductive IndexEvent (V : Type) where
  | push (r : PushRequest V)
  | assign (env : StoreEnv) (source target : CommitId)
  | compact (env : RetagEnv (ChunkRow V))
  | restart

namespace IndexEvent

/-- One event that succeeds, with the commit whose push or assignment completed last. -/
def step : Domain V × Option CommitId → IndexEvent V → Option (Domain V × Option CommitId)
  | (d, _), .push r =>
    match (r.push mainBranch d).result with
    | .ok (.complete _ _) => some ((r.push mainBranch d).store, some r.commit)
    | _ => none
  | (d, _), .assign env source target =>
    match (env.ioAssignCommit mainBranch source target d).result with
    | .ok _ => some ((env.ioAssignCommit mainBranch source target d).store, some target)
    | .error _ => none
  | (d, last), .compact env => (d.compact env).map fun d' => (d', last)
  | (d, last), .restart => some (d.restart, last)

/-- No tag that counts for the default branch has a greater version than the new one. -/
def TagsHighest (before after : Domain V) (commit : CommitId) : Prop :=
  ∀ t, after.opened.tags.lookup commit = some t → ∀ c' t', before.opened.tags.lookup c' = some t' →
    belongsTo mainBranch t'.branch = true → t'.version ≤ t.version

/-- Pushes and assignments tag a version that is not below any other, and compactions plan
to leave the last commit the latest. -/
def KeepsOrder (s : Domain V × Option CommitId) : IndexEvent V → Prop
  | .push r => TagsHighest s.1 (r.push mainBranch s.1).store r.commit
  | .assign env source target =>
    TagsHighest s.1 (env.ioAssignCommit mainBranch source target s.1).store target
  | .compact env => ∀ ds, s.1.dataset = some ds →
    env.FreshEpoch ds ∧ ∀ c, s.2 = some c → env.KeepsLatest ds c
  | .restart => True

end IndexEvent

section Invariant

/-- The tags and the cache agree that `last` is the last indexed commit. -/
structure Durable (last : Option CommitId) (d : Domain V) : Prop where
  stamped : Stamped d.opened
  latest : ∀ c, last = some c → ∃ t, IsLatest d.opened mainBranch c t
  untagged : last = none → d.opened.tags = ∅
  recorded : ∀ bi, d.branchIndexes.lookup mainBranch = some bi → bi.commit = last

/-- The step has set one tag, on the default branch, and recorded its commit. -/
structure SetsTag (d : Domain V) (commit : CommitId) (v : ℕ) (s : Domain V) : Prop where
  tags : s.opened.tags = (d.opened.putTag commit none v).tags
  clock : s.opened.clock = (d.opened.putTag commit none v).clock
  recorded : s.branchIndexes = d.branchIndexes.insert mainBranch ⟨some commit, v⟩

variable {d d₀ s s' : Domain V} {last : Option CommitId} {commit : CommitId} {v : ℕ}

theorem Durable.derive (h : Durable last d) :
    (ioDeriveLastIndexed d.opened mainBranch).map Prod.fst = last := by
  cases hlast : last with
  | some c =>
    obtain ⟨t, ht⟩ := h.latest c hlast
    rw [ht.derive]
    rfl
  | none =>
    have hnone : ioDeriveLastIndexed d.opened mainBranch = none := by
      rw [ioDeriveLastIndexed_eq_none, h.untagged hlast]
      intro c t ht
      cases ht
    rw [hnone]
    rfl

theorem Durable.reported (h : Durable last d) : d.reported mainBranch = last := by
  rw [Domain.reported_eq]
  cases hbi : d.branchIndexes.lookup mainBranch with
  | some bi => exact h.recorded bi hbi
  | none => exact h.derive

theorem Durable.restart (h : Durable last d) : Durable last d.restart where
  stamped := h.stamped
  latest := h.latest
  untagged := h.untagged
  recorded bi hbi := by cases hbi

theorem Durable.reopen (h : Durable last d) (hopened : s.opened = d.opened)
    (hindexes : s.branchIndexes = d.branchIndexes) : Durable last s := by
  refine ⟨?_, ?_, ?_, ?_⟩
  · rw [hopened]
    exact h.stamped
  · rw [hopened]
    exact h.latest
  · rw [hopened]
    exact h.untagged
  · rw [hindexes]
    exact h.recorded

/-- A new tag at the highest version is the last indexed commit. -/
theorem SetsTag.durable (h : SetsTag d commit v s) (hstamped : Stamped d.opened)
    (hhighest : IndexEvent.TagsHighest d s commit) : Durable (some commit) s where
  stamped := (hstamped.putTag commit none v).congr h.tags h.clock
  latest c hc := by
    obtain rfl := Option.some.inj hc
    have htag : s.opened.tags.lookup commit = some ⟨none, v, d.opened.clock⟩ := by
      rw [h.tags, Dataset.lookup_putTag, if_pos rfl]
    exact ⟨_, (isLatest_putTag (b := mainBranch) (hhighest _ htag) hstamped).congr h.tags⟩
  untagged hnone := by cases hnone
  recorded bi hbi := by
    rw [h.recorded, AList.lookup_insert, Option.some.injEq] at hbi
    rw [← hbi]

theorem setsTag_tagged (hds : s'.dataset.isSome) (htags : s'.opened.tags = d.opened.tags)
    (hclock : s'.opened.clock = d.opened.clock) (hindexes : s'.branchIndexes = d.branchIndexes) :
    SetsTag d commit v (s'.tagged mainBranch commit v) := by
  have hopened := Domain.tagged_opened hds mainBranch commit v
  refine ⟨?_, ?_, ?_⟩
  · rw [hopened]
    simp only [Dataset.putTag, htags, hclock]
    rfl
  · rw [hopened]
    simp only [Dataset.putTag, hclock]
  · have hrecorded : (s'.tagged mainBranch commit v).branchIndexes =
        (s'.tag mainBranch commit v).refresh.branchIndexes.insert mainBranch ⟨some commit, v⟩ := rfl
    rw [hrecorded, Domain.refresh_branchIndexes]
    simp only [Domain.tag, hindexes]

theorem PushDone.setsTag {c : Collected V} (h : PushDone d d₀ mainBranch commit c s)
    (hopened : d₀.opened = d.opened) (hindexes : d₀.branchIndexes = d.branchIndexes) :
    ∃ v, SetsTag d commit v s := by
  cases h with
  | @work s' l l' v _ _ hat _ _ hs =>
    have htagged : SetsTag d commit v (s'.tagged mainBranch commit v) :=
      setsTag_tagged hat.dataset hat.tags hat.clock hat.indexes
    refine ⟨v, ?_⟩
    rcases hs with rfl | rfl
    · exact htagged
    · have hcleaned := Domain.cleaned_opened
        (Domain.tagged_dataset_isSome hat.dataset mainBranch commit v)
      refine ⟨?_, ?_, htagged.recorded⟩
      · rw [hcleaned]
        exact htagged.tags
      · rw [hcleaned]
        exact htagged.clock
  | @noop v _ _ _ ht hs =>
    subst hs
    exact ⟨v, setsTag_tagged ht.1 (by rw [hopened]) (by rw [hopened]) hindexes⟩

theorem Assigned.setsTag {source : CommitId} (h : Assigned d mainBranch source commit v s) :
    SetsTag d commit v s := by
  obtain ⟨t, s', -, -, hs', htag, rfl⟩ := h
  refine setsTag_tagged htag.1 (by rw [hs'.opened]) (by rw [hs'.opened]) ?_
  rcases hs' with rfl | rfl <;> simp

end Invariant

section Runs

variable {d : Domain V} {last : Option CommitId}

theorem Durable.push (h : Durable last d) {r : PushRequest V} {indexed : ℕ}
    {skipped : List SkippedDoc}
    (hr : (r.push mainBranch d).result = .ok (.complete indexed skipped))
    (hhighest : IndexEvent.TagsHighest d (r.push mainBranch d).store r.commit) :
    Durable (some r.commit) (r.push mainBranch d).store := by
  obtain ⟨c, -, hdone⟩ := PushRequest.push_done hr
  have hindexes : (r.noopStart d.openReadonly).branchIndexes = d.openReadonly.branchIndexes := by
    unfold PushRequest.noopStart
    split <;> simp
  obtain ⟨v, hset⟩ := hdone.setsTag (PushRequest.noopStart_opened _) hindexes
  have hset' : SetsTag d r.commit v (r.push mainBranch d).store :=
    ⟨by simpa using hset.tags, by simpa using hset.clock, by simpa using hset.recorded⟩
  exact hset'.durable h.stamped hhighest

theorem Durable.assign (h : Durable last d) {env : StoreEnv} {source target : CommitId} {v : ℕ}
    (hr : (env.ioAssignCommit mainBranch source target d).result = .ok v)
    (hhighest : IndexEvent.TagsHighest d (env.ioAssignCommit mainBranch source target d).store
      target) :
    Durable (some target) (env.ioAssignCommit mainBranch source target d).store :=
  (assigned_of_ok hr).setsTag.durable h.stamped hhighest

/-- Without tags there is nothing to compact. -/
theorem retag_untagged {ρ : Type} {env : RetagEnv ρ} {ds : LanceDataset ρ} (h : ds.tags = ∅)
    {n : ℕ × ℕ} (hok : (env.retag ds).result = .ok n) : (env.retag ds).store = ds := by
  refine Spec.result_ok (Q := fun _ s => s = ds) (E := fun _ _ => True)
    (T := fun _ _ => True) ?_ (P := fun s => s = ds) rfl hok
  refine RetagEnv.retag_spec (fun _ => trivial) (fun _ _ => rfl) fun _ first rest hsort _ => ?_
  have hmem : first.1 ∈ ds.tags := by
    rw [← RetagEnv.mem_sorted, hsort]
    exact List.mem_cons_self
  rw [h] at hmem
  cases hmem

theorem Durable.compact (h : Durable last d) {env : RetagEnv (ChunkRow V)} {d' : Domain V}
    (hd' : d.compact env = some d')
    (hkeep : ∀ ds, d.dataset = some ds →
      env.FreshEpoch ds ∧ ∀ c, last = some c → env.KeepsLatest ds c) : Durable last d' := by
  unfold Domain.compact at hd'
  split at hd'
  · obtain rfl := Option.some.inj hd'
    exact h
  · rename_i ds hds
    have hopened := Domain.opened_of_some hds
    split at hd'
    · cases hd'
    · rename_i total moved hok
      split at hd'
      · obtain rfl := Option.some.inj hd'
        exact h.reopen (by simp) (by simp)
      · obtain rfl := Option.some.inj hd'
        refine Durable.reopen (d := { d with dataset := some (env.retag ds).store }) ?_ (by simp)
          (by simp)
        have hstamped := h.stamped
        rw [hopened] at hstamped
        cases hlast : last with
        | none =>
          have huntagged := h.untagged hlast
          rw [hopened] at huntagged
          rw [retag_untagged huntagged hok, ← hlast]
          exact h.reopen hopened.symm rfl
        | some c =>
          obtain ⟨t, ht⟩ := h.latest c hlast
          rw [hopened] at ht
          obtain ⟨hlatest, hstamped'⟩ := RetagEnv.retag_stillLatest (hkeep ds hds).1 hstamped ht
            ((hkeep ds hds).2 c hlast) hok
          refine ⟨hstamped', fun c' hc' => ?_, (fun hnone => by cases hnone), ?_⟩
          · obtain rfl := Option.some.inj hc'
            exact hlatest
          · rw [← hlast]
            exact h.recorded

/-- The step lemma: an event that keeps the order keeps the tags and the cache in agreement. -/
theorem Durable.step {e : IndexEvent V} {d' : Domain V} {last' : Option CommitId}
    (h : Durable last d) (hkeep : IndexEvent.KeepsOrder (d, last) e)
    (hstep : IndexEvent.step (d, last) e = some (d', last')) : Durable last' d' := by
  cases e with
  | push r =>
    simp only [IndexEvent.step] at hstep
    split at hstep
    · rename_i indexed skipped hr
      obtain ⟨rfl, rfl⟩ := Prod.mk.inj (Option.some.inj hstep)
      exact h.push hr hkeep
    · cases hstep
  | assign env source target =>
    simp only [IndexEvent.step] at hstep
    split at hstep
    · rename_i v hr
      obtain ⟨rfl, rfl⟩ := Prod.mk.inj (Option.some.inj hstep)
      exact h.assign hr hkeep
    · cases hstep
  | compact env =>
    simp only [IndexEvent.step] at hstep
    obtain ⟨d₁, hd₁, heq⟩ := Option.map_eq_some_iff.mp hstep
    obtain ⟨rfl, rfl⟩ := Prod.mk.inj heq
    exact h.compact hd₁ hkeep
  | restart =>
    simp only [IndexEvent.step] at hstep
    obtain ⟨rfl, rfl⟩ := Prod.mk.inj (Option.some.inj hstep)
    exact h.restart

theorem durable_fresh : Durable none (Domain.fresh (V := V)) where
  stamped c t h := by cases h
  latest c h := by cases h
  untagged _ := rfl
  recorded bi h := by cases h

/-- In every history that keeps the order, the tags report the commit that was pushed or
assigned last, and a restart does not change what is reported. -/
theorem last_indexed_durable
    (hrun : Reaches IndexEvent.step IndexEvent.KeepsOrder (Domain.fresh, none) (d, last)) :
    (ioDeriveLastIndexed d.opened mainBranch).map Prod.fst = last ∧
      d.reported mainBranch = last ∧ d.restart.reported mainBranch = last := by
  have h : Durable last d := by
    refine hrun.invariant (I := fun s => Durable s.2 s.1) durable_fresh ?_
    rintro ⟨d₁, last₁⟩ e ⟨d₂, last₂⟩ hs hkeep hstep
    exact hs.step hkeep hstep
  exact ⟨h.derive, h.reported, h.restart.reported⟩

theorem tagsHighest_of_entries {before after : Domain V} {commit : CommitId} {v : ℕ}
    (hv : (after.opened.tags.lookup commit).map (·.version) = some v)
    (h : ∀ e ∈ before.opened.tags.entries, e.2.version ≤ v) :
    IndexEvent.TagsHighest before after commit := by
  intro t ht c' t' ht' _
  rw [ht, Option.map_some, Option.some.injEq] at hv
  rw [hv]
  exact h ⟨c', t'⟩ (AList.mem_lookup_iff.mp ht')

def assignHistory : List (IndexEvent Unit) :=
  [.push (insertA fun _ => false),
    .push ⟨plainEnv fun _ => false, "c1", [.inserted "b" "new"], .buffered⟩,
    .assign noFault "c0" "t"]

/-- The domain at the end of a history. -/
def afterHistory (events : List (IndexEvent Unit)) : Domain Unit :=
  ((exec IndexEvent.step (Domain.fresh, none) events).map Prod.fst).getD Domain.fresh

/-- A commit, one without work, an assignment of the newest and a restart. -/
def noopHistory : List (IndexEvent Unit) :=
  [.push (insertA fun _ => false), .push ⟨plainEnv fun _ => false, "c1", [], .buffered⟩,
    .assign noFault "c1" "t", .restart]

theorem last_indexed_durable_noopHistory :
    exec IndexEvent.step (Domain.fresh, none) noopHistory =
        some (afterHistory noopHistory, some "t") ∧
      (afterHistory noopHistory).restart.reported mainBranch = some "t" := by
  have hexec : exec IndexEvent.step (Domain.fresh, none) noopHistory =
      some (afterHistory noopHistory, some "t") := by rfl
  have hallowed : Allowed IndexEvent.step IndexEvent.KeepsOrder (Domain.fresh, none)
      noopHistory :=
    ⟨tagsHighest_of_entries (v := 3) (by decide) (by decide),
      tagsHighest_of_entries (v := 3) (by decide) (by decide),
      tagsHighest_of_entries (v := 3) (by decide) (by decide), trivial, trivial⟩
  exact ⟨hexec, (last_indexed_durable (.of_exec hallowed hexec)).2.2⟩

/-- An old version assigned to a new commit: the cache has the new commit, the tags report
the one before, and so does `last_indexed` after a restart. -/
theorem last_indexed_not_durable :
    exec IndexEvent.step (Domain.fresh, none) assignHistory =
        some (afterHistory assignHistory, some "t") ∧
      (ioDeriveLastIndexed (afterHistory assignHistory).opened mainBranch).map Prod.fst =
        some "c1" ∧
      (afterHistory assignHistory).reported mainBranch = some "t" ∧
      (afterHistory assignHistory).restart.reported mainBranch = some "c1" := by
  refine ⟨by rfl, by decide, by decide, by decide⟩

end Runs

end Vectorlink
