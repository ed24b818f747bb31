import Vectorlink.Concurrent.Runs
import Vectorlink.Service.ReadEndpoints
import Vectorlink.Service.RowContents
import Vectorlink.Store.RetagSweep
import Vectorlink.Versioned.Growth

/-! Reads never go back. Until a compaction or a deletion no indexed commit is lost, so that a
request is served where it was before and with the same rows, or at a nearer commit. -/
namespace Vectorlink

open Stepwise Stepwise.Program Versioned Concurrent

section Window

variable {ι : Type} {p q : ι → Bool} {l : List ι} {a : ι}

/-- What is found first stays found, unless something is found before it. -/
theorem find?_mono [DecidableEq ι] (hpq : ∀ x ∈ l, p x = true → q x = true)
    (h : l.find? p = some a) :
    ∃ b, l.find? q = some b ∧ (b = a ∨ p b = false ∧ l.idxOf b < l.idxOf a) := by
  induction l with
  | nil => cases h
  | cons x l ih =>
    by_cases hq : q x = true
    · refine ⟨x, List.find?_cons_of_pos hq, ?_⟩
      by_cases hp : p x = true
      · rw [List.find?_cons_of_pos hp] at h
        exact .inl (Option.some.inj h)
      · rw [List.find?_cons_of_neg hp] at h
        have hne : x ≠ a := by
          rintro rfl
          exact hp (List.find?_some h)
        refine .inr ⟨by simpa using hp, ?_⟩
        rw [List.idxOf_cons_self, List.idxOf_cons_ne l hne]
        omega
    · have hp : ¬ p x = true := fun hp => hq (hpq x List.mem_cons_self hp)
      rw [List.find?_cons_of_neg hp] at h
      obtain ⟨b, hb, hcase⟩ := ih (fun y hy => hpq y (List.mem_cons_of_mem x hy)) h
      refine ⟨b, by rw [List.find?_cons_of_neg hq]; exact hb, ?_⟩
      rcases hcase with rfl | ⟨hpb, hlt⟩
      · exact .inl rfl
      · have hxa : x ≠ a := by
          rintro rfl
          exact hp (List.find?_some h)
        have hxb : x ≠ b := by
          rintro rfl
          exact hq (List.find?_some hb)
        refine .inr ⟨hpb, ?_⟩
        rw [List.idxOf_cons_ne l hxa, List.idxOf_cons_ne l hxb]
        omega

end Window

section Resolve

variable {ρ : Type} {ds : LanceDataset ρ} {branch : BranchName} {commit served : CommitId}
  {ancestors : List CommitId} {cached : Option BranchIndex}

/-- The nearest commit of a window that is indexed. -/
def nearestIndexed (ds : LanceDataset ρ) (window : List CommitId) : Option CommitId :=
  window.find? fun c => decide (c ∈ ds.tags)

theorem findSome?_tags (ds : LanceDataset ρ) (window : List CommitId) :
    (window.findSome? fun c => ((ds.tags.lookup c).map (·.version)).map (c, ·)).map Prod.fst =
      nearestIndexed ds window := by
  induction window with
  | nil => rfl
  | cons c window ih =>
    unfold nearestIndexed at ih ⊢
    cases hc : ds.tags.lookup c with
    | none =>
      have hnot : ¬ c ∈ ds.tags := AList.lookup_eq_none.mp hc
      rw [List.findSome?_cons, hc, List.find?_cons_of_neg (by simpa using hnot)]
      exact ih
    | some t =>
      have hmem : c ∈ ds.tags := AList.lookup_isSome.mp (by simp [hc])
      rw [List.findSome?_cons, hc, List.find?_cons_of_pos (by simpa using hmem)]
      rfl

/-- A request is served at the nearest indexed commit, if its own or the branch has one. -/
theorem resolveSearchableCommit_ok :
    (resolveSearchableCommit branch commit ancestors cached).runAt ds = .ok served ↔
      nearestIndexed ds (commit :: ancestors) = some served ∧
        (commit ∈ ds.tags ∨ (branchHasIndexedLineage branch cached).runAt ds = true) := by
  unfold resolveSearchableCommit
  simp only [Observer.runAt]
  by_cases hcommit : commit ∈ ds.tags
  · rw [if_pos hcommit, nearestIndexed, List.find?_cons_of_pos (by simpa using hcommit)]
    simp [Observer.runAt, hcommit]
  · have hnone : (ds.tags.lookup commit).map (·.version) = none := by
      rw [AList.lookup_eq_none.mpr hcommit]
      rfl
    have hancestors : nearestIndexed ds (commit :: ancestors) = nearestIndexed ds ancestors :=
      List.find?_cons_of_neg (by simpa using hcommit)
    rw [if_neg hcommit, Observer.runAt_bind, hancestors, ← findSome?_tags]
    cases (branchHasIndexedLineage branch cached).runAt ds with
    | false => simp [Observer.runAt, hcommit]
    | true =>
      simp only [if_true, resolveNearestLayer, hnone]
      cases ancestors.findSome? fun c => ((ds.tags.lookup c).map (·.version)).map (c, ·) with
      | none => simp [Observer.runAt]
      | some found => simp [Observer.runAt]

end Resolve

section Kept

variable {V : Type} {d s u : Domain V} {b : BranchName}

/-- What a process remembers of a branch names a commit. -/
def Domain.Named (d : Domain V) : Prop :=
  ∀ b bi, d.branchIndexes.lookup b = some bi → bi.commit.isSome

/-- Every tagged commit has rows. A compaction that failed may leave tags without. -/
def Domain.Placed (d : Domain V) : Prop :=
  ∀ c ∈ d.opened.tags, ∃ t r, Dataset.Home c t r d.opened

theorem placed_of_grows (hd : d.Placed) (hgrows : d.opened.Grows s.opened) : s.Placed := by
  intro c hc
  rcases hgrows.gained c hc with hold | hnew
  · obtain ⟨t, r, hhome⟩ := hd c hold
    exact ⟨t, r, hgrows.homes c t r hhome⟩
  · exact hnew

/-- Nothing indexed is lost from one state of a domain to another, and no tag if all have rows. -/
structure Keeps (d s : Domain V) : Prop where
  homes : ∀ c t r, Dataset.Home c t r d.opened → Dataset.Home c t r s.opened
  grows : d.Placed → d.opened.Grows s.opened
  named : d.Named → s.Named

theorem Keeps.refl (d : Domain V) : Keeps d d := ⟨fun _ _ _ h => h, fun _ => .refl _, fun h => h⟩

theorem Keeps.placed (h : Keeps d s) (hd : d.Placed) : s.Placed := placed_of_grows hd (h.grows hd)

theorem Keeps.trans (h : Keeps d s) (h' : Keeps s u) : Keeps d u where
  homes c t r hhome := h'.homes c t r (h.homes c t r hhome)
  grows hd := (h.grows hd).trans (h'.grows (h.placed hd))
  named hd := h'.named (h.named hd)

theorem Keeps.served (h : Keeps d s) {c : CommitId} {r : List (ChunkRow V)}
    (hc : d.opened.served c = some r) : s.opened.served c = some r := by
  obtain ⟨t, hhome⟩ := Dataset.exists_home hc
  exact (h.homes c t r hhome).served

theorem keeps_of_grows (hgrows : d.opened.Grows s.opened) (hnamed : d.Named → s.Named) :
    Keeps d s := ⟨hgrows.homes, fun _ => hgrows, hnamed⟩

theorem keeps_of_opened (hopened : s.opened = d.opened) (hnamed : d.Named → s.Named) :
    Keeps d s := by
  refine keeps_of_grows ?_ hnamed
  rw [hopened]
  exact .refl _

theorem named_of_branchIndexes (h : s.branchIndexes = d.branchIndexes) (hd : d.Named) :
    s.Named := by
  intro b bi hbi
  rw [h] at hbi
  exact hd b bi hbi

theorem named_cacheLastIndexed (hd : d.Named) (commit : CommitId) (version : ℕ) :
    (d.cacheLastIndexed b commit version).Named := by
  intro b' bi hbi
  by_cases hb : b' = b
  · subst hb
    rw [Domain.cacheLastIndexed, AList.lookup_insert] at hbi
    obtain rfl := Option.some.inj hbi
    rfl
  · rw [Domain.cacheLastIndexed, AList.lookup_insert_ne hb] at hbi
    exact hd b' bi hbi

theorem keeps_openReadonly (d : Domain V) : Keeps d d.openReadonly :=
  keeps_of_opened (by simp) (named_of_branchIndexes (by simp))

theorem keeps_cacheLastIndexed (d : Domain V) (commit : CommitId) (version : ℕ) :
    Keeps d (d.cacheLastIndexed b commit version) :=
  keeps_of_opened rfl fun hd => named_cacheLastIndexed hd commit version

/-- Where every tag has rows, no tag is orphaned and the cleanup of a start deletes none. -/
theorem cleanup_grows (env : RetagEnv (ChunkRow V)) {ds : LanceDataset (ChunkRow V)}
    (hplaced : ∀ c ∈ ds.tags, ∃ t r, Dataset.Home c t r ds) :
    ds.Grows (env.ioCleanupCompactionBranches ds) := by
  have hkept : Preserves (fun s => s.tags = ds.tags ∧
      ∀ c t r, Dataset.Home c t r ds → Dataset.Home c t r s)
      env.ioCleanupOrphanedTagsAndStaleBranches := by
    refine env.preserves_cleanupOrphaned (fun _ => False)
      (fun b => ∀ c t, ds.tags.lookup c = some t → t.branch ≠ some b) ?_ ?_ ?_ ?_ ?_
    · rintro s x ⟨htags, hhomes⟩ hx
      obtain ⟨t, b, ht, hb, hgone⟩ := RetagEnv.lookup_of_mem_orphanedTags hx
      rw [htags] at ht
      obtain ⟨t', r, hhome⟩ := hplaced x (AList.lookup_isSome.mp (by simp [ht]))
      obtain rfl : t' = t := Option.some.inj (hhome.1.symm.trans ht)
      exact hgone ((hhomes x t' r hhome).mem_branches hb)
    · rintro s b ⟨htags, -⟩ - hb c t ht htb
      rw [← htags] at ht
      exact hb (RetagEnv.mem_referencedBranches ht htb)
    · exact fun _ _ hx => hx.elim
    · rintro s b hb ⟨htags, hhomes⟩
      exact ⟨htags, fun c t r hhome => (hhomes c t r hhome).dropBranch (hb c t hhome.1)⟩
    · rintro s ⟨htags, hhomes⟩
      exact ⟨htags, fun c t r hhome => (hhomes c t r hhome).cleanup⟩
  obtain ⟨htags, hhomes⟩ := hkept.final (s := ds) ⟨rfl, fun _ _ _ h => h⟩
  exact Dataset.grows_of_tags htags hhomes

/-- The start of a new process, with its cleanup. -/
theorem keeps_restart (d : Domain V) (env : RetagEnv (ChunkRow V)) :
    Keeps d { d.restart with dataset := d.dataset.map env.ioCleanupCompactionBranches } := by
  cases hds : d.dataset with
  | none =>
    refine keeps_of_opened ?_ fun _ _ _ hbi => by cases hbi
    rw [Domain.opened, Domain.opened, hds]
    rfl
  | some ds =>
    have hopened := Domain.opened_of_some hds
    refine ⟨fun c t r hhome => ?_, fun hd => ?_, fun _ _ _ hbi => by cases hbi⟩
    · rw [hopened] at hhome
      exact env.cleanupOrphaned_home.final hhome
    · rw [Domain.Placed, hopened] at hd
      rw [hopened]
      exact cleanup_grows env hd

/-- A write that lets the dataset grow. -/
theorem keeps_write {ds ds' : LanceDataset (ChunkRow V)} (hds : d.dataset = some ds)
    (hgrows : ds.Grows ds') {cached : Option ℕ} :
    Keeps d { d with dataset := some ds', cached := cached } := by
  refine keeps_of_grows ?_ (named_of_branchIndexes rfl)
  rw [Domain.opened_of_some hds, Domain.opened_of_some rfl]
  exact hgrows

theorem PushStep.keeps (h : PushStep b d s) : Keeps d s := by
  cases h with
  | openDataset => exact keeps_of_opened (by simp) (named_of_branchIndexes (by simp))
  | openReadonly => exact keeps_openReadonly d
  | refresh => exact keeps_of_opened (by simp) (named_of_branchIndexes (by simp))
  | cacheLastIndexed commit version => exact keeps_cacheLastIndexed d commit version
  | commit hds hok => exact keeps_write hds (Dataset.grows_commit hok)
  | touch hds hok => exact keeps_write hds (Dataset.grows_touch hok)
  | createTag hds hok => exact keeps_write hds (Dataset.grows_createTag hok)
  | @cleanup ds hds => exact keeps_write hds (Dataset.grows_cleanup ds)

theorem ForkedAt.keeps {parent : CommitId} {after : Domain V}
    (h : ForkedAt b parent d d d after) : Keeps d after := by
  cases h with
  | tag hds _ hok hafter =>
    subst hafter
    exact keeps_write hds (Dataset.grows_createBranch hok)
  | main _ hds hok _ hafter =>
    subst hafter
    exact keeps_write hds (Dataset.grows_createBranch hok)

/-- All states of a run keep what its first one has. -/
theorem keeps_of_walks {ℓ ε α : Type} {m : Program ℓ (Domain V) ε α}
    (h : Walks (PushStep b) m) (d : Domain V) :
    (∀ e ∈ (m d).trace, Keeps d e.2) ∧ Keeps d (m d).store :=
  (h d).invariant (fun _ _ hstep hkept => hkept.trans hstep.keeps) (.refl d)

end Kept

section Actions

variable {V : Type}

inductive DomainAction (V : Type) where
  | serve (r : Request V)
  /-- The process dies after some steps of a push, and a new one starts. -/
  | crash (p : HttpPush V) (steps : ℕ) (cleanup : RetagEnv (ChunkRow V))

namespace DomainAction

def step (fp : Footprint V) : DomainAction V → Option (Footprint V)
  | .serve r => some (fp.serve r).2
  | .crash p steps cleanup =>
    (p.moments fp)[steps]?.map fun d => { p.applySettings fp with domain := d }.restart cleanup

/-- Neither a compaction nor a deletion. -/
def TakesNothing (_ : Footprint V) : DomainAction V → Prop
  | .serve (.compact ..) | .serve (.deleteBranchIndex ..) | .serve .deleteDomain => False
  | _ => True

end DomainAction

/-- A state in which a read may find the domain: between two requests, or between two steps of a
push. -/
def Footprint.Moment (fp : Footprint V) (d : Domain V) : Prop :=
  d = fp.domain ∨ ∃ p : HttpPush V, d ∈ p.moments fp

variable {fp fp' : Footprint V} {d : Domain V}

@[simp] theorem HttpPush.applySettings_domain (p : HttpPush V) :
    (p.applySettings fp).domain = fp.domain := by
  unfold HttpPush.applySettings
  split
  · rfl
  · rfl

theorem keeps_forked {env : ForkEnv} {b : BranchName} {parent : CommitId} {v : ℕ}
    {after : Domain V}
    (hfork : (env.ioEnsureBranchForked b parent).runAt d = .ok (.created v after)) :
    Keeps d after :=
  (forkedAt_of_created ((ioEnsureBranchForked_runOn env b parent d).trans
    (congrArg some hfork))).keeps

theorem keeps_index (p : HttpPush V) (fp : Footprint V) : Keeps fp.domain (p.index fp).2.domain :=
  (keeps_of_walks ((p.requestAt fp).push_walks p.branch) fp.domain).2

theorem keeps_indexMoments {p : HttpPush V} (hd : d ∈ p.indexMoments fp) : Keeps fp.domain d := by
  obtain ⟨e, he, rfl⟩ := List.mem_map.mp hd
  exact (keeps_of_walks ((p.requestAt fp).push_walks p.branch) fp.domain).1 e he

/-- The end of a push, from where its settings are applied. -/
theorem keeps_push (p : HttpPush V) (fp : Footprint V) : Keeps fp.domain (p.push fp).2.domain := by
  unfold HttpPush.push
  split
  · exact .refl _
  · split
    · exact .refl _
    · split
      · exact keeps_index p fp
      · split
        · split
          · exact .refl _
          · exact .refl _
        · exact keeps_index p fp
        · rename_i v after hfork
          exact (keeps_forked hfork).trans (keeps_index p { fp with domain := after })

theorem keeps_moments {p : HttpPush V} (hd : d ∈ p.moments fp) : Keeps fp.domain d := by
  have hdomain : (p.applySettings fp).domain = fp.domain := p.applySettings_domain
  unfold HttpPush.moments at hd
  rw [← hdomain]
  dsimp only at hd
  split at hd
  · cases hd
  · split at hd
    · exact keeps_indexMoments hd
    · split at hd
      · cases hd
      · exact keeps_indexMoments hd
      · rename_i v after hfork
        rcases List.mem_cons.mp hd with rfl | hd
        · exact keeps_forked hfork
        · exact (keeps_forked hfork).trans (keeps_indexMoments hd)

theorem keeps_lastIndexed (d : Domain V) (b : BranchName) : Keeps d (lastIndexed d b).2 := by
  unfold lastIndexed
  split
  · exact .refl d
  · split
    · exact (keeps_openReadonly d).trans (keeps_cacheLastIndexed _ _ _)
    · exact keeps_openReadonly d

theorem keeps_assign (env : StoreEnv) (b : BranchName) (source target : CommitId) (d : Domain V) :
    Keeps d (env.ioAssignCommit b source target d).store :=
  (keeps_of_walks (env.ioAssignCommit_walks source target) d).2

/-- The step lemma. -/
theorem keeps_step {a : DomainAction V} (ha : a.TakesNothing fp) (hstep : a.step fp = some fp') :
    Keeps fp.domain fp'.domain := by
  cases a with
  | crash p steps cleanup =>
    obtain ⟨d, hd, rfl⟩ := Option.map_eq_some_iff.mp hstep
    exact (keeps_moments (List.mem_of_getElem? hd)).trans (keeps_restart d cleanup)
  | serve r =>
    obtain rfl := Option.some.inj hstep
    cases r with
    | push p =>
      have hpush := keeps_push p (p.applySettings fp)
      rw [HttpPush.applySettings_domain] at hpush
      exact hpush
    | assign env branch source target => exact keeps_assign env branch source target fp.domain
    | compact epoch fails ftsVersions order => exact ha.elim
    | deleteBranchIndex env branch => exact ha.elim
    | search branch commit ancestors => exact keeps_openReadonly fp.domain
    | lastIndexed branch => exact keeps_lastIndexed fp.domain branch
    | statistics => exact keeps_openReadonly fp.domain
    | deleteDomain => exact ha.elim
    | restart cleanup => exact keeps_restart fp.domain cleanup

theorem named_deleteBranchIndex (env : StoreEnv) (b : BranchName) (h : d.Named) :
    (env.ioDeleteBranchIndex b d).store.Named := by
  have hwalks : Walks (fun s t : Domain V => s.Named → t.Named) (env.ioDeleteBranchIndex b) := by
    refine Walks.bind (Walks.step fun s t hst => ?_) fun _ => Walks.bind (Walks.look _)
      fun commits => Walks.bind (Walks.forEach (fun commit => env.onDataset_walks
        fun s ds ds' _ _ hs => named_of_branchIndexes rfl hs) _) fun _ =>
        Walks.step fun s t hst hs b' bi hbi => ?_
    · split at hst
      · cases hst
      · obtain rfl := Except.ok.inj hst
        exact named_of_branchIndexes (by simp)
    · obtain rfl := Except.ok.inj hst
      by_cases hb : b' = b
      · subst hb
        simp at hbi
      · rw [AList.lookup_erase_ne hb] at hbi
        exact hs b' bi hbi
  exact ((hwalks d).invariant (fun _ _ hstep hs => hstep hs) h).2

/-- Also a compaction and a deletion leave only named commits in memory. -/
theorem named_step {a : DomainAction V} (hstep : a.step fp = some fp') (h : fp.domain.Named) :
    fp'.domain.Named := by
  by_cases ha : a.TakesNothing fp
  · exact (keeps_step ha hstep).named h
  · cases a with
    | crash p steps cleanup => exact absurd trivial ha
    | serve r =>
      obtain rfl := Option.some.inj hstep
      cases r with
      | compact epoch fails ftsVersions order =>
        refine named_of_branchIndexes ?_ h
        simp only [Footprint.serve, Footprint.compact]
        split
        · rfl
        · exact Domain.refresh_branchIndexes _
      | deleteBranchIndex env branch =>
        have hreset := named_deleteBranchIndex env branch h
        simp only [Footprint.serve, Footprint.ioDeleteBranchIndex]
        split
        · exact hreset
        · exact hreset
      | deleteDomain => exact fun _ _ hbi => by cases hbi
      | _ => exact absurd trivial ha

end Actions

section Reads

variable {V : Type} {ds : LanceDataset (ChunkRow V)} {d : Domain V} {fp fp' : Footprint V}
  {branch : BranchName} {commit served : CommitId} {ancestors : List CommitId}
  {rows : List (ChunkRow V)}

/-- A dataset that has grown still has an indexed commit on each branch that had one. -/
theorem lineage_of_grows (hgrows : ds.Grows d.opened) (hnamed : d.Named)
    (h : (branchHasIndexedLineage branch none).runAt ds = true) :
    (branchHasIndexedLineage branch (d.branchIndexes.lookup branch)).runAt d.opened = true := by
  cases hbi : d.branchIndexes.lookup branch with
  | some bi => exact hnamed branch bi hbi
  | none =>
    have hderived : (ioDeriveLastIndexed ds branch).isSome := h
    show (ioDeriveLastIndexed d.opened branch).isSome
    rw [← Option.ne_none_iff_isSome] at hderived ⊢
    intro hnone
    apply hderived
    rw [ioDeriveLastIndexed_eq_none] at hnone ⊢
    intro c t ht
    exact hnone c t (hgrows.tags c t ht)

/-- What the disk serves is served in every later state, unless a nearer commit was indexed. -/
theorem serves_later (hgrows : ds.Grows d.opened) (hnamed : d.Named)
    (h : (serveRequest branch commit ancestors none).runAt ds = .ok (served, rows)) :
    ∃ served' rows', d.serves branch commit ancestors = .ok (served', rows') ∧
      (served' = served ∧ rows' = rows ∨ served' ∉ ds.tags ∧
        (commit :: ancestors).idxOf served' < (commit :: ancestors).idxOf served) := by
  obtain ⟨hresolve, hsnapshot⟩ := serveRequest_ok.mp h
  obtain ⟨hnearest, hgate⟩ := resolveSearchableCommit_ok.mp hresolve
  rw [ioSnapshotFromCache_runAt, ioCheckoutCommitSnapshot_ok] at hsnapshot
  obtain ⟨served', hnearest', hcase⟩ := find?_mono
    (q := fun c => decide (c ∈ d.opened.tags)) (fun c _ hc => by
      have hmem : c ∈ ds.tags := of_decide_eq_true hc
      exact decide_eq_true (hgrows.mem hmem)) hnearest
  have hgate' : commit ∈ d.opened.tags ∨
      (branchHasIndexedLineage branch (d.branchIndexes.lookup branch)).runAt d.opened = true := by
    rcases hgate with hcommit | hlineage
    · exact .inl (hgrows.mem hcommit)
    · exact .inr (lineage_of_grows hgrows hnamed hlineage)
  have hresolve' := resolveSearchableCommit_ok.mpr ⟨hnearest', hgate'⟩
  have hserves : ∀ rows', d.opened.served served' = some rows' →
      d.serves branch commit ancestors = .ok (served', rows') := by
    intro rows' hrows'
    apply serveRequest_ok.mpr
    refine ⟨hresolve', ?_⟩
    rw [ioSnapshotFromCache_runAt, ioCheckoutCommitSnapshot_ok]
    exact hrows'
  rcases hcase with rfl | ⟨hnew, hlt⟩
  · exact ⟨served', rows, hserves rows (hgrows.served hsnapshot), .inl ⟨rfl, rfl⟩⟩
  · have hnew' : served' ∉ ds.tags := of_decide_eq_false hnew
    have hmem : served' ∈ d.opened.tags := of_decide_eq_true
      (List.find?_some (p := fun c => decide (c ∈ d.opened.tags)) hnearest')
    rcases hgrows.gained served' hmem with hold | ⟨t, r, hhome⟩
    · exact absurd hold hnew'
    · exact ⟨served', r, hserves r hhome.served, .inr ⟨hnew', hlt⟩⟩

theorem named_of_reaches
    (h : Reaches DomainAction.step (fun _ _ => True) .fresh fp) : fp.domain.Named :=
  h.invariant (I := fun fp => fp.domain.Named) (fun _ _ hbi => by cases hbi)
    fun _ _ _ ht _ hstep => named_step hstep ht

/-- The run lemma, up to a state in which a read may find the domain. -/
theorem keeps_of_reaches (h : Reaches DomainAction.step DomainAction.TakesNothing fp fp')
    (hd : fp'.Moment d) : Keeps fp.domain d := by
  have hrun : Keeps fp.domain fp'.domain :=
    h.invariant (I := fun t => Keeps fp.domain t.domain) (.refl _)
      fun _ _ _ ht ha hstep => ht.trans (keeps_step ha hstep)
  rcases hd with rfl | ⟨p, hd⟩
  · exact hrun
  · exact hrun.trans (keeps_moments hd)

end Reads

section Isolation

variable {V : Type} {fp fp' : Footprint V} {d : Domain V} {branch : BranchName}
  {commit served : CommitId} {ancestors : List CommitId} {rows : List (ChunkRow V)}

/-- Once the disk serves a request, every later state serves it: at the same commit with the same
rows, or at a nearer one that was not indexed before. -/
theorem reads_never_go_back
    (hreached : Reaches DomainAction.step (fun _ _ => True) .fresh fp) (hplaced : fp.domain.Placed)
    (hserved : (serveRequest branch commit ancestors none).runAt fp.domain.opened =
      .ok (served, rows))
    (hlater : Reaches DomainAction.step DomainAction.TakesNothing fp fp') (hd : fp'.Moment d) :
    ∃ served' rows', d.serves branch commit ancestors = .ok (served', rows') ∧
      (served' = served ∧ rows' = rows ∨ served' ∉ fp.domain.opened.tags ∧
        (commit :: ancestors).idxOf served' < (commit :: ancestors).idxOf served) := by
  have hnamed := named_of_reaches hreached
  have hkeeps := keeps_of_reaches hlater hd
  exact serves_later (hkeeps.grows hplaced) (hkeeps.named hnamed) hserved

end Isolation

section Samples

/-- A push of one document to the default branch. -/
def unitPush (commit : CommitId) (docId : DocId) : HttpPush (List ℤ) where
  branch := mainBranch
  parentCommit := none
  storeClustering := none
  request :=
    { env :=
        { chunkText := fun s => .ok [⟨0, 1, 0, 1, s⟩]
          provider := fun _ texts => .ok (texts.map fun _ => [1])
          embedBatchSize := 1
          batchSize_pos := Nat.one_pos
          storeClustering := false
          zero := [0]
          l2Normalize := fun v => v
          cancelled := fun _ => false
          fails := fun _ => false
          indexVersions := fun _ => 1
          clusteringConfig := false }
      commit := commit
      operations := [.inserted docId "text"]
      mode := .streaming none }
  cascadeVersions := fun _ => 0
  fork := ⟨"d", fun _ => false⟩
  dropped := false

def pushedOnce : Footprint (List ℤ) := (Footprint.fresh.serve (.push (unitPush "c0" "a"))).2

/-- No call of the cleanup fails. -/
def quietCleanup {V : Type} : RetagEnv (ChunkRow V) :=
  ⟨7, fun _ => false, replayDelta, fun _ => 1, .listed⟩

/-- The process died when the second push had written its document. -/
def diedWriting : Footprint (List ℤ) :=
  ((DomainAction.crash (unitPush "c1" "b") 4 quietCleanup).step pushedOnce).getD pushedOnce

/-- In the new process the head has a document that is not indexed, and the request is served as
before. -/
theorem reads_never_go_back_died : ∃ served' rows',
    diedWriting.domain.serves mainBranch "c2" ["c1", "c0"] = .ok (served', rows') ∧
      (served' = "c0" ∧ rows' = pushedOnce.domain.opened.main.headRows ∨
        served' ∉ pushedOnce.domain.opened.tags ∧
          ["c2", "c1", "c0"].idxOf served' < ["c2", "c1", "c0"].idxOf "c0") := by
  have hpushed : DomainAction.step Footprint.fresh (.serve (.push (unitPush "c0" "a"))) =
      some pushedOnce := rfl
  have hdied : DomainAction.step pushedOnce (.crash (unitPush "c1" "b") 4 quietCleanup) =
      some diedWriting := rfl
  have hserved : (serveRequest mainBranch "c2" ["c1", "c0"] none).runAt pushedOnce.domain.opened =
      .ok ("c0", pushedOnce.domain.opened.main.headRows) := rfl
  have hplaced : pushedOnce.domain.Placed := by
    intro c hc
    have hkeys : pushedOnce.domain.opened.tags.keys = ["c0"] := rfl
    have hmem := AList.mem_keys.mp hc
    rw [hkeys, List.mem_singleton] at hmem
    rw [hmem]
    exact ⟨⟨none, 3, 0⟩, _, rfl, rfl⟩
  have hkept : (DomainAction.crash (unitPush "c1" "b") 4 quietCleanup).TakesNothing pushedOnce :=
    trivial
  exact reads_never_go_back (.tail .refl trivial hpushed) hplaced hserved (.tail .refl hkept hdied)
    (.inl rfl)

end Samples

end Vectorlink
