import Vectorlink.Service.BranchReset
import Vectorlink.Service.DurableIndex
import Vectorlink.Service.PushRuns
import Vectorlink.Service.PushWalk
import Vectorlink.Store.StartupCleanup

/-! What leaves the last commit of the default branch at its newest rows: work on other branches,
assignments, compactions, resets and restarts. -/
namespace Vectorlink

open Stepwise Stepwise.Program Versioned

variable {V : Type}

section Frame

variable {base : List (ChunkRow V)} {d s : Domain V} {ds ds' : LanceDataset (ChunkRow V)}
  {b : BranchName}

/-- Every indexed commit keeps its tag and its rows. -/
def KeepsHomes (ds ds' : LanceDataset (ChunkRow V)) : Prop :=
  ∀ c t r, Dataset.Home c t r ds → Dataset.Home c t r ds'

theorem ServesHead.keep {l : Lineage (ChunkRow V)} {c : CommitId} (h : ServesHead ds l c)
    (hkeep : KeepsHomes ds ds') : ServesHead ds' l c := by
  obtain ⟨r, hr, hperm⟩ := h
  obtain ⟨t, ht⟩ := Dataset.exists_home hr
  exact ⟨r, (hkeep c t r ht).served, hperm⟩

/-- The commit that is last on the default branch stays the last one and keeps its rows. No tag of
the branch is above its newest version. -/
structure KeepsLast (ds ds' : LanceDataset (ChunkRow V)) : Prop where
  last : (ioDeriveLastIndexed ds' mainBranch).map Prod.fst =
    (ioDeriveLastIndexed ds mainBranch).map Prod.fst
  rows : ∀ c v, ioDeriveLastIndexed ds mainBranch = some (c, v) → ∀ r, ds.served c = some r →
    ∃ r', ds'.served c = some r' ∧ r'.Perm r
  versions : ∀ c t, ds'.tags.lookup c = some t → belongsTo mainBranch t.branch = true →
    t.version ≤ ds'.main.head

/-- The newest version of the default branch is what it was, and the handle is at it or where it
was. -/
structure SameHead (d s : Domain V) : Prop where
  head : s.opened.main.head = d.opened.main.head
  rows : s.opened.main.headRows = d.opened.main.headRows
  stamps : Stamped s.opened
  cached : ∀ v, s.cached = some v → v = d.opened.main.head ∨ d.cached = some v

theorem KeepsLast.of_homes (hderive : ioDeriveLastIndexed ds' mainBranch =
      ioDeriveLastIndexed ds mainBranch) (hkeep : KeepsHomes ds ds')
    (hversions : ∀ c t, ds'.tags.lookup c = some t → belongsTo mainBranch t.branch = true →
      t.version ≤ ds'.main.head) : KeepsLast ds ds' := by
  refine ⟨by rw [hderive], fun c v _ r hr => ?_, hversions⟩
  obtain ⟨t, ht⟩ := Dataset.exists_home hr
  exact ⟨r, (hkeep c t r ht).served, .refl r⟩

theorem main_eq_of_settledAt {memory : Prop} {l : Lineage (ChunkRow V)}
    (h : SettledAt memory mainBranch base l d) : d.opened.main = l :=
  Option.some.inj h.lineage

/-- The default branch stays settled when its newest rows stay and its last commit stays. -/
theorem Settled.frame (h : Settled False mainBranch base d) (hhead : SameHead d s)
    (hlast : KeepsLast d.opened s.opened) : Settled False mainBranch base s := by
  obtain ⟨l, hl⟩ := h
  have hmain := main_eq_of_settledAt hl
  have hrows : s.opened.main.headRows = l.headRows := by rw [hhead.rows, hmain]
  refine ⟨s.opened.main, rfl, fun c v hc => ?_, fun hnone => ?_, fun hmemory => hmemory.elim,
    hlast.versions, hhead.stamps, fun _ v hv => ?_⟩
  · have hfst := hlast.last
    rw [hc, Option.map_some] at hfst
    obtain ⟨⟨c', v'⟩, hc', hfst'⟩ := Option.map_eq_some_iff.mp hfst.symm
    obtain rfl : c' = c := hfst'
    obtain ⟨r, hr, hperm⟩ := hl.derived c' v' hc'
    obtain ⟨r', hr', hperm'⟩ := hlast.rows c' v' hc' r hr
    refine ⟨r', hr', ?_⟩
    rw [hrows]
    exact hperm'.trans hperm
  · have hfst := hlast.last
    rw [hnone, Option.map_none] at hfst
    rw [hrows]
    exact hl.unindexed (Option.map_eq_none_iff.mp hfst.symm)
  · rw [hhead.head]
    rcases hhead.cached v hv with rfl | hv
    · rfl
    · rw [hmain]
      exact hl.handle rfl v hv

theorem Settled.stamped (h : Settled False mainBranch base d) (hds : d.dataset = some ds) :
    Stamped ds := by
  obtain ⟨l, hl⟩ := h
  rw [← Domain.opened_of_some hds]
  exact hl.stamps

theorem Settled.versions (h : Settled False mainBranch base d) {c : CommitId}
    {t : TagContents BranchName} (ht : d.opened.tags.lookup c = some t)
    (hb : belongsTo mainBranch t.branch = true) : t.version ≤ d.opened.main.head := by
  obtain ⟨l, hl⟩ := h
  rw [main_eq_of_settledAt hl]
  exact hl.versions c t ht hb

/-- A change of the dataset that leaves the default branch and its commits alone. -/
structure Beside (ds ds' : LanceDataset (ChunkRow V)) : Prop where
  main : ds'.main = ds.main
  derived : ioDeriveLastIndexed ds' mainBranch = ioDeriveLastIndexed ds mainBranch
  homes : KeepsHomes ds ds'
  tags : ∀ c t, ds'.tags.lookup c = some t → belongsTo mainBranch t.branch = true →
    ds.tags.lookup c = some t
  stamped : Stamped ds → Stamped ds'

theorem beside_setLineage {l : Lineage (ChunkRow V)}
    (hkeep : KeepsHomes ds (ds.setLineage (some b) l)) :
    Beside ds (ds.setLineage (some b) l) where
  main := rfl
  derived := ioDeriveLastIndexed_congr rfl mainBranch
  homes := hkeep
  tags _ _ ht _ := ht
  stamped h := h.congr rfl rfl

theorem beside_createTag {c : CommitId} {v : ℕ} (hother : belongsTo mainBranch (some b) = false)
    (hok : ds.createTag c (some b) v = .ok ds') : Beside ds ds' := by
  obtain ⟨hnew, -, hds'⟩ := Dataset.createTag_ok.mp hok
  have hmain : ds'.main = ds.main := by
    rw [hds']
    rfl
  refine ⟨hmain, ?_, fun _ _ _ hhome => hhome.createTag hok, fun c' t ht hb => ?_, ?_⟩
  · rw [hds']
    exact ioDeriveLastIndexed_putTag_other hnew hother
  · rw [hds', Dataset.lookup_putTag] at ht
    split at ht
    · obtain rfl := Option.some.inj ht
      rw [hother] at hb
      cases hb
    · exact ht
  · rw [hds']
    exact fun h => h.putTag c (some b) v

theorem beside_createBranch {source : Option BranchName} {v : ℕ}
    (hok : ds.createBranch b source v = .ok ds') : Beside ds ds' := by
  obtain ⟨-, r, -, hds'⟩ := Dataset.createBranch_ok.mp hok
  have htags : ds'.tags = ds.tags := by rw [hds']
  refine ⟨by rw [hds'], ioDeriveLastIndexed_congr htags mainBranch,
    fun _ _ _ hhome => hhome.createBranch hok, fun c t ht _ => ?_, fun h => h.congr htags ?_⟩
  · rwa [htags] at ht
  · rw [hds']

/-- The default branch stays settled, with the handle as it is or at the newest version. -/
theorem Settled.beside (h : Settled False mainBranch base d) (hds : d.dataset = some ds)
    (hbeside : Beside ds ds') {cached : Option ℕ}
    (hcached : ∀ v, cached = some v → v = d.opened.main.head ∨ d.cached = some v) :
    Settled False mainBranch base { d with dataset := some ds', cached := cached } := by
  have hopened := Domain.opened_of_some hds
  have hopened' : Domain.opened { d with dataset := some ds', cached := cached } = ds' :=
    Domain.opened_of_some rfl
  refine h.frame ⟨?_, ?_, ?_, hcached⟩ (.of_homes ?_ ?_ fun c t hc hb => ?_)
  · rw [hopened', hopened, hbeside.main]
  · rw [hopened', hopened, hbeside.main]
  · rw [hopened']
    exact hbeside.stamped (h.stamped hds)
  · rw [hopened', hopened]
    exact hbeside.derived
  · rw [hopened', hopened]
    exact hbeside.homes
  · rw [hopened'] at hc ⊢
    have ht : d.opened.tags.lookup c = some t := by
      rw [hopened]
      exact hbeside.tags c t hc hb
    have hversion := h.versions ht hb
    rwa [hopened, ← hbeside.main] at hversion

theorem Settled.cacheLastIndexed (h : Settled False mainBranch base d) (b : BranchName)
    (commit : CommitId) (version : ℕ) :
    Settled False mainBranch base (d.cacheLastIndexed b commit version) := by
  obtain ⟨l, hl⟩ := h
  exact ⟨l, hl.lineage, hl.derived, hl.unindexed, fun hmemory => hmemory.elim, hl.versions,
    hl.stamps, hl.handle⟩

/-- A step of a push to another user branch leaves the default branch settled. -/
theorem PushStep.settled_other (hb : b ≠ mainBranch) (hreserved : isCompactRebuildBranch b = false)
    (h : PushStep b d s) (hd : Settled False mainBranch base d) :
    Settled False mainBranch base s := by
  have hwant : wantBranch b = some b := if_neg hb
  have hother : belongsTo mainBranch (some b) = false := by
    simp [belongsTo, wantBranch, hreserved]
  have hsettled := hd
  obtain ⟨l, hl⟩ := hsettled
  cases h with
  | openDataset => exact ⟨l, hl.openDataset⟩
  | openReadonly => exact ⟨l, hl.openReadonly⟩
  | refresh => exact ⟨l, hl.refresh⟩
  | cacheLastIndexed commit version => exact hd.cacheLastIndexed b commit version
  | commit hds hok =>
    obtain ⟨l', -, rfl⟩ := Dataset.commit_ok.mp hok
    rw [hwant] at hok ⊢
    exact hd.beside hds (beside_setLineage fun _ _ _ h => h.commit hok) fun _ hv => .inr hv
  | touch hds hok =>
    obtain ⟨l', -, rfl⟩ := Dataset.touch_ok.mp hok
    rw [hwant] at hok ⊢
    exact hd.beside hds (beside_setLineage fun _ _ _ h => h.touch hok) fun _ hv => .inr hv
  | createTag hds hok =>
    rw [hwant] at hok
    exact hd.beside hds (beside_createTag hother hok) fun _ hv => .inr hv
  | cleanup hds =>
    have hcleaned := hl.cleaned (by simp [hds])
    simpa [Domain.cleaned, hds] using hcleaned

theorem Settled.lastIndexed (h : Settled False mainBranch base d) (b : BranchName) :
    Settled False mainBranch base (Vectorlink.lastIndexed d b).2 := by
  have hopened : Settled False mainBranch base d.openReadonly := by
    obtain ⟨l, hl⟩ := h
    exact ⟨l, hl.openReadonly⟩
  unfold Vectorlink.lastIndexed
  split
  · exact h
  · split
    · exact hopened.cacheLastIndexed b _ _
    · exact hopened

end Frame

section Assigned

variable {d s : Domain V} {base : List (ChunkRow V)} {b : BranchName}

/-- A new tag at the newest rows. It need not be the last one. -/
theorem Settled.tag (h : Settled False mainBranch base s) {c : CommitId} {v : ℕ}
    {r : List (ChunkRow V)} (ht : s.Taggable mainBranch c v)
    (hr : s.opened.main.rows v = some r) (hperm : r.Perm s.opened.main.headRows) :
    Settled False mainBranch base (s.tag mainBranch c v) := by
  obtain ⟨l, hl⟩ := h
  have hnew := ht.2.1
  have hderive : ioDeriveLastIndexed (s.opened.putTag c (wantBranch mainBranch) v) mainBranch =
      some (c, v) ∨ ioDeriveLastIndexed (s.opened.putTag c (wantBranch mainBranch) v) mainBranch =
        ioDeriveLastIndexed s.opened mainBranch := ioDeriveLastIndexed_putTag_cases hnew
  rw [main_eq_of_settledAt hl] at hr hperm
  rw [← Domain.tag_opened ht.1] at hderive
  refine ⟨l, ?_, fun c' v' hc => ?_, fun hnone => ?_, fun hmemory => hmemory.elim,
    fun c' t hc hb => ?_, ?_, hl.handle⟩
  · rw [Domain.tag_opened ht.1]
    exact hl.lineage
  · rcases hderive with hderive | hderive
    · rw [hderive, Option.some.injEq, Prod.mk.injEq] at hc
      rw [← hc.1, Domain.tag_opened ht.1]
      exact ⟨r, served_putTag_self hl.lineage hr, hperm⟩
    · rw [hderive] at hc
      rw [Domain.tag_opened ht.1]
      exact (hl.derived c' v' hc).putTag hnew _ _
  · rcases hderive with hderive | hderive
    · rw [hderive] at hnone
      cases hnone
    · rw [hderive] at hnone
      exact hl.unindexed hnone
  · rw [Domain.tag_opened ht.1, Dataset.lookup_putTag] at hc
    split at hc
    · obtain rfl := Option.some.inj hc
      exact Lineage.le_head hr
    · exact hl.versions c' t hc hb
  · rw [Domain.tag_opened ht.1]
    exact Stamped.putTag hl.stamps c _ v

theorem Settled.reopened (h : Settled False mainBranch base d) (hs : Reopened d s) :
    Settled False mainBranch base s := by
  obtain ⟨l, hl⟩ := h
  rcases hs with rfl | rfl
  · exact ⟨l, hl.openReadonly⟩
  · exact ⟨l, hl.openReadonly.openDataset⟩

theorem Settled.tagged {c : CommitId} {v : ℕ}
    (h : Settled False mainBranch base (s.tag mainBranch c v)) :
    Settled False mainBranch base (s.tagged mainBranch c v) := by
  obtain ⟨l, hl⟩ := h
  have hrefreshed : Settled False mainBranch base (s.tag mainBranch c v).refresh :=
    ⟨l, hl.refresh⟩
  exact hrefreshed.cacheLastIndexed mainBranch c v

/-- A version of the default branch has its newest rows. -/
def PointsAtHead (ds : LanceDataset (ChunkRow V)) (v : ℕ) : Prop :=
  ∀ r, ds.main.rows v = some r → r.Perm ds.main.headRows

/-- An assignment on the default branch to its newest rows. -/
theorem Settled.assign (h : Settled False mainBranch base d) {env : StoreEnv}
    {source target : CommitId} (hsource : target ∉ d.opened.tags →
      ∀ t, d.opened.tags.lookup source = some t → PointsAtHead d.opened t.version) :
    Settled False mainBranch base (env.ioAssignCommit mainBranch source target d).store := by
  have htag : ∀ t s, d.opened.tags.lookup source = some t → Reopened d s →
      s.Taggable mainBranch target t.version →
      Settled False mainBranch base (s.tag mainBranch target t.version) := by
    intro t s ht hs htaggable
    obtain ⟨r, hr⟩ := Option.isSome_iff_exists.mp htaggable.2.2
    have hnew := htaggable.2.1
    rw [hs.opened] at hnew
    have hrows : s.opened.main.rows t.version = some r := hr
    refine (h.reopened hs).tag htaggable hrows ?_
    rw [hs.opened] at hrows ⊢
    exact hsource hnew t ht r hrows
  refine (ioAssignCommit_spec (E := Settled False mainBranch base) h (fun s hs => h.reopened hs)
    htag |>.post fun v s hs => ?_).final rfl
  obtain ⟨t, s', ht, rfl, hs', htaggable, rfl⟩ := hs
  exact (htag t s' ht hs' htaggable).tagged

/-- An assignment elsewhere takes steps that a push there could take. -/
theorem Settled.assign_other (hb : b ≠ mainBranch) (hreserved : isCompactRebuildBranch b = false)
    (h : Settled False mainBranch base d) (env : StoreEnv) (source target : CommitId) :
    Settled False mainBranch base (env.ioAssignCommit b source target d).store :=
  ((env.ioAssignCommit_walks source target d).invariant
    (fun _ _ hstep => hstep.settled_other hb hreserved) h).2

end Assigned

section Cleaning

variable {ρ : Type}

theorem dropTag_sublist (ds : LanceDataset ρ) (c : CommitId) :
    (ds.dropTag c).tags.entries.Sublist ds.tags.entries := List.kerase_sublist c ds.tags.entries

theorem RetagEnv.ioCleanupCompactionBranches_sublist (cleanup : RetagEnv ρ)
    (ds : LanceDataset ρ) :
    (cleanup.ioCleanupCompactionBranches ds).tags.entries.Sublist ds.tags.entries :=
  cleanup.ioCleanupCompactionBranches_of_drops
    (I := fun s => s.tags.entries.Sublist ds.tags.entries)
    (fun s c hs => (dropTag_sublist s c).trans hs) (fun _ _ hs => hs) (fun _ hs => hs) (.refl _)

theorem RetagEnv.ioCleanupCompactionBranches_clock (cleanup : RetagEnv ρ)
    (ds : LanceDataset ρ) : (cleanup.ioCleanupCompactionBranches ds).clock = ds.clock :=
  cleanup.ioCleanupCompactionBranches_of_drops (I := fun s => s.clock = ds.clock)
    (fun _ _ hs => hs) (fun _ _ hs => hs) (fun _ hs => hs) rfl

theorem RetagEnv.ioCleanupCompactionBranches_swept (cleanup : RetagEnv ρ)
    (ds : LanceDataset ρ) : Swept ds (cleanup.ioCleanupCompactionBranches ds) :=
  (cleanup.cleanupOrphaned_swept ds).final (Swept.refl ds)

end Cleaning

section Compacted

variable {d s : Domain V} {base : List (ChunkRow V)} {env : RetagEnv (ChunkRow V)}
  {ds ds' : LanceDataset (ChunkRow V)}

/-- A compaction. One that fails leaves the handle where it was opened. -/
def Domain.compacted (d : Domain V) (env : RetagEnv (ChunkRow V)) : Domain V :=
  (d.compact env).getD
    { d.openReadonly with dataset := d.dataset.map fun ds => (env.retag ds).store }

/-- A new process, which cleans up after compactions that were cut off. -/
def Domain.restarted (d : Domain V) (cleanup : RetagEnv (ChunkRow V)) : Domain V :=
  { d.restart with dataset := d.dataset.map cleanup.ioCleanupCompactionBranches }

theorem openReadonly_cached (d : Domain V) {v : ℕ} (hv : d.openReadonly.cached = some v) :
    v = d.opened.main.head ∨ d.cached = some v := by
  unfold Domain.openReadonly at hv
  split at hv
  · rename_i hds
    rw [Domain.opened_of_some hds]
    exact .inl (Option.some.inj hv).symm
  · exact .inr hv

theorem sameHead_of_dataset (hds : d.dataset = some ds) (hopened : s.opened = ds')
    (hhead : ds'.main.head = ds.main.head ∧ ds'.main.headRows = ds.main.headRows)
    (hstamped : Stamped ds') (hcached : ∀ v, s.cached = some v → v = ds.main.head ∨
      d.cached = some v) : SameHead d s := by
  have hbefore := Domain.opened_of_some hds
  refine ⟨?_, ?_, ?_, ?_⟩
  · rw [hopened, hbefore]
    exact hhead.1
  · rw [hopened, hbefore]
    exact hhead.2
  · rw [hopened]
    exact hstamped
  · rw [hbefore]
    exact hcached

theorem sameHead_openReadonly (h : Settled False mainBranch base d) :
    SameHead d d.openReadonly := by
  obtain ⟨l, hl⟩ := h
  refine ⟨by simp, by simp, ?_, fun v hv => openReadonly_cached d hv⟩
  rw [Domain.openReadonly_opened]
  exact hl.stamps

/-- However a compaction ends, the newest version of the default branch is what it was. -/
theorem sameHead_compacted (h : Settled False mainBranch base d)
    (hfresh : ∀ ds, d.dataset = some ds → env.FreshEpoch ds) : SameHead d (d.compacted env) := by
  cases hds : d.dataset with
  | none =>
    have hnothing : d.compacted env = d.openReadonly := by
      simp [Domain.compacted, Domain.compact, Domain.openReadonly, hds]
    rw [hnothing]
    exact sameHead_openReadonly h
  | some ds =>
    have hwalk := env.walks_retag ds
    have hunaffected := (env.states_allButOne (hfresh ds hds) _ hwalk.mem_last).2
    have hstamped := (hwalk.invariant (fun _ _ hstep hs => Stamped.step hs hstep)
      (h.stamped hds)).2
    have hopen : ∀ v, d.openReadonly.cached = some v → v = ds.main.head ∨ d.cached = some v := by
      intro v hv
      rw [← Domain.opened_of_some hds]
      exact openReadonly_cached d hv
    unfold Domain.compacted Domain.compact
    simp only [hds]
    split
    · apply sameHead_of_dataset hds (Domain.opened_of_some rfl) hunaffected.head hstamped
      exact hopen
    · split
      · exact sameHead_openReadonly h
      · have hopened : (Domain.refresh { d with dataset := some (env.retag ds).store }).opened =
            (env.retag ds).store := by
          rw [Domain.refresh_opened]
          exact Domain.opened_of_some rfl
        have hcached : (Domain.refresh { d with dataset := some (env.retag ds).store }).cached =
            some (env.retag ds).store.main.head := rfl
        apply sameHead_of_dataset hds hopened hunaffected.head hstamped
        intro v hv
        obtain rfl := Option.some.inj (hcached.symm.trans hv)
        exact .inl hunaffected.head.1

/-- A cleanup at the start takes no tag whose rows can still be read. -/
theorem Settled.restarted (h : Settled False mainBranch base d) (cleanup : RetagEnv (ChunkRow V)) :
    Settled False mainBranch base (d.restarted cleanup) := by
  cases hds : d.dataset with
  | none =>
    obtain ⟨l, hl⟩ := h
    have hrestart : d.restarted cleanup = d.restart := by
      simp [Domain.restarted, Domain.restart, hds]
    rw [hrestart]
    exact ⟨l, hl.restart⟩
  | some ds =>
    have hswept := cleanup.ioCleanupCompactionBranches_swept ds
    have hbefore := Domain.opened_of_some hds
    have hafter : (d.restarted cleanup).opened = cleanup.ioCleanupCompactionBranches ds := by
      simp [Domain.restarted, Domain.opened, hds]
    have hstamped := (h.stamped hds).of_lookup hswept.tags
      (cleanup.ioCleanupCompactionBranches_clock ds)
    have hderive : ioDeriveLastIndexed (cleanup.ioCleanupCompactionBranches ds) mainBranch =
        ioDeriveLastIndexed ds mainBranch := by
      refine ioDeriveLastIndexed_of_sublist (cleanup.ioCleanupCompactionBranches_sublist ds)
        fun c v hc => ?_
      obtain ⟨l, hl⟩ := h
      rw [← hbefore] at hc
      obtain ⟨r, hr, -⟩ := hl.derived c v hc
      rw [hbefore, ← hswept.served] at hr
      obtain ⟨t, ht⟩ := Dataset.exists_home hr
      exact AList.lookup_isSome.mp (by simp [ht.1])
    apply h.frame (sameHead_of_dataset hds hafter hswept.head hstamped fun v hv => by cases hv)
    rw [hafter, hbefore]
    refine ⟨by rw [hderive], fun c v _ r hr => ⟨r, by rw [hswept.served, hr], .refl r⟩,
      fun c t ht hb => ?_⟩
    rw [hswept.head.1, ← hbefore]
    exact h.versions (by rw [hbefore]; exact hswept.tags c t ht) hb

end Compacted

section Reset

variable {d s : Domain V} {base : List (ChunkRow V)} {b : BranchName} {env : StoreEnv}

/-- What a reset of branch `b` may do: it takes tags that are recorded on the branch. -/
structure Untagging (b : BranchName) (d s : Domain V) : Prop where
  main : s.opened.main = d.opened.main
  branches : s.opened.branches = d.opened.branches
  clock : s.opened.clock = d.opened.clock
  entries : s.opened.tags.entries.Sublist d.opened.tags.entries
  kept : ∀ c t, d.opened.tags.lookup c = some t → t.branch ≠ wantBranch b →
    s.opened.tags.lookup c = some t
  cached : ∀ v, s.cached = some v → v = d.opened.main.head ∨ d.cached = some v

theorem untagging_openReadonly (d : Domain V) : Untagging b d d.openReadonly := by
  refine ⟨by simp, by simp, by simp, by simp, fun c t ht _ => ?_, fun v hv =>
    openReadonly_cached d hv⟩
  rwa [Domain.openReadonly_opened]

theorem Untagging.deleteTag {c : CommitId} {ds ds' : LanceDataset (ChunkRow V)}
    (h : Untagging b d s) (hc : ∃ t, d.opened.tags.lookup c = some t ∧ t.branch = wantBranch b)
    (hds : s.dataset = some ds) (hdelete : ds.deleteTag c = .ok ds') :
    Untagging b d { s with dataset := some ds' } := by
  obtain ⟨-, rfl⟩ := Dataset.deleteTag_ok.mp hdelete
  have hbefore := Domain.opened_of_some hds
  have hafter : Domain.opened { s with dataset := some (ds.dropTag c) } = ds.dropTag c :=
    Domain.opened_of_some rfl
  have hentries := h.entries
  rw [hbefore] at hentries
  refine ⟨?_, ?_, ?_, ?_, fun c' t ht hb => ?_, h.cached⟩
  · rw [hafter, ← h.main, hbefore]
    rfl
  · rw [hafter, ← h.branches, hbefore]
    rfl
  · rw [hafter, ← h.clock, hbefore]
    rfl
  · rw [hafter]
    exact (dropTag_sublist ds c).trans hentries
  · have hne : c' ≠ c := by
      rintro rfl
      obtain ⟨t', ht', hb'⟩ := hc
      obtain rfl := Option.some.inj (ht.symm.trans ht')
      exact hb hb'
    rw [hafter, Dataset.lookup_dropTag, if_neg hne, ← hbefore]
    exact h.kept c' t ht hb

theorem deleteTags_untagging (d : Domain V) (commits : List CommitId) :
    Spec (fun s => Untagging b d s ∧ ∀ c ∈ commits, c ∈ StoreEnv.tagsToDelete d b)
      (forEach (fun commit => env.onDataset (.resetTag commit) "tag delete failed"
        fun ds => ds.deleteTag commit) commits)
      (fun _ => Untagging b d) (fun _ => Untagging b d) (fun _ _ => True) := by
  refine (Spec.forEach
    (fun rest s => Untagging b d s ∧ ∀ c ∈ rest, c ∈ StoreEnv.tagsToDelete d b)
    (fun c rest => env.onDataset_spec (fun s ds ds' hs hds hdelete => ?_) fun s hs _ => hs.1)
    commits).post fun _ s hs => hs.1
  have hc := mem_tagsToDelete.mp (hs.2 c List.mem_cons_self)
  exact ⟨trivial, hs.1.deleteTag hc hds hdelete, fun c' hc' =>
    hs.2 c' (List.mem_cons_of_mem c hc')⟩

theorem ioDeleteBranchIndex_untagging (d : Domain V) :
    Untagging b d (env.ioDeleteBranchIndex b d).store := by
  have hstart : Untagging b d d :=
    ⟨rfl, rfl, rfl, .refl _, fun _ _ ht _ => ht, fun _ hv => .inr hv⟩
  have hspec : Spec (fun s => s = d) (env.ioDeleteBranchIndex b) (fun _ => Untagging b d)
      (fun _ => Untagging b d) (fun _ _ => True) := by
    refine Spec.bind (R := fun _ s => s = d.openReadonly) (Spec.step fun s hs => ?_) fun _ => ?_
    · subst hs
      split
      · rename_i hok
        split at hok
        · cases hok
        · exact ⟨trivial, (Except.ok.inj hok).symm⟩
      · exact hstart
    refine Spec.bind (R := fun commits s => Untagging b d s ∧
      ∀ c ∈ commits, c ∈ StoreEnv.tagsToDelete d b) (Spec.look fun s hs => ?_) fun commits =>
        Spec.bind (deleteTags_untagging d commits) fun _ => Spec.step fun s hs => ⟨trivial, ?_⟩
    · subst hs
      refine ⟨untagging_openReadonly d, fun c hc => ?_⟩
      unfold StoreEnv.tagsToDelete at hc ⊢
      rwa [Domain.openReadonly_dataset] at hc
    · exact ⟨hs.main, hs.branches, hs.clock, hs.entries, hs.kept, hs.cached⟩
  exact hspec.final rfl

theorem Untagging.lookup (h : Untagging b d s) {c : CommitId} {t : TagContents BranchName}
    (ht : s.opened.tags.lookup c = some t) : d.opened.tags.lookup c = some t :=
  AList.mem_lookup_iff.mpr (h.entries.subset (AList.mem_lookup_iff.mp ht))

theorem Untagging.rowsAt (h : Untagging b d s) (branch : Option BranchName) (v : ℕ) :
    s.opened.rowsAt branch v = d.opened.rowsAt branch v := by
  cases branch with
  | none => simp only [Dataset.rowsAt, Dataset.lineage?_none, h.main]
  | some b' => simp only [Dataset.rowsAt, Dataset.lineage?_some, h.branches]

theorem Untagging.sameHead (h : Untagging b d s) (hd : Settled False mainBranch base d) :
    SameHead d s := by
  obtain ⟨l, hl⟩ := hd
  exact ⟨by rw [h.main], by rw [h.main], Stamped.of_lookup hl.stamps (fun _ _ ht => h.lookup ht)
    h.clock, h.cached⟩

/-- A reset of another user branch takes no tag of the default branch. -/
theorem Untagging.settled_other (hb : b ≠ mainBranch) (hreserved : isCompactRebuildBranch b = false)
    (h : Untagging b d s) (hd : Settled False mainBranch base d) :
    Settled False mainBranch base s := by
  have hkept : ∀ c t, d.opened.tags.lookup c = some t → belongsTo mainBranch t.branch = true →
      s.opened.tags.lookup c = some t := by
    intro c t ht hbelongs
    refine h.kept c t ht fun hbranch => ?_
    rw [hbranch, wantBranch, if_neg hb, belongsTo_main] at hbelongs
    simp [hreserved] at hbelongs
  have hderive : ioDeriveLastIndexed s.opened mainBranch =
      ioDeriveLastIndexed d.opened mainBranch := by
    refine ioDeriveLastIndexed_of_sublist h.entries fun c v hc => ?_
    obtain ⟨t, ht, hbelongs, -⟩ := exists_tag_of_derive hc
    exact AList.lookup_isSome.mp (by simp [hkept c t ht hbelongs])
  refine hd.frame (h.sameHead hd) ⟨by rw [hderive], fun c v hc r hr => ?_, fun c t ht hb => ?_⟩
  · obtain ⟨t, ht, hbelongs, -⟩ := exists_tag_of_derive hc
    refine ⟨r, ?_, .refl r⟩
    rw [← hr, Dataset.served, Dataset.served, hkept c t ht hbelongs, ht, Option.bind_some,
      Option.bind_some, h.rowsAt]
  · rw [h.main]
    exact hd.versions (h.lookup ht) hb

end Reset

end Vectorlink
