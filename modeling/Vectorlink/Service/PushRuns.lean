import Vectorlink.Service.PushSpec
import Vectorlink.Store.LastIndexed

/-! Pushes to one branch, one after the other: what a push builds on is what the commit
reported as last indexed serves, as long as no push stops between its first write and the
recording of its commit. -/
namespace Vectorlink

open Stepwise Stepwise.Program Versioned

variable {V : Type}

section Invariant

/-- `c` serves the newest rows of the branch. -/
def ServesHead (ds : LanceDataset (ChunkRow V)) (l : Lineage (ChunkRow V)) (c : CommitId) : Prop :=
  ∃ r, ds.served c = some r ∧ r.Perm l.headRows

/-- Whichever commit may be reported for branch `b`, it serves the newest rows `l.headRows`,
and the next tag of the branch will be the latest. `base` is what the branch had before its
first commit; `memory` says whether the commit that the process remembers counts too. -/
structure SettledAt (memory : Prop) (b : BranchName) (base : List (ChunkRow V))
    (l : Lineage (ChunkRow V)) (d : Domain V) : Prop where
  lineage : d.opened.lineage? (wantBranch b) = some l
  derived : ∀ c v, ioDeriveLastIndexed d.opened b = some (c, v) → ServesHead d.opened l c
  unindexed : ioDeriveLastIndexed d.opened b = none → base.Perm l.headRows
  indexed : memory → ∀ bi, d.branchIndexes.lookup b = some bi →
    ∃ c, bi.commit = some c ∧ ServesHead d.opened l c
  versions : ∀ c t, d.opened.tags.lookup c = some t → belongsTo b t.branch = true →
    t.version ≤ l.head
  stamps : ∀ c t, d.opened.tags.lookup c = some t → t.createdAt < d.opened.clock
  handle : b = mainBranch → ∀ v, d.cached = some v → v = l.head

def Settled (memory : Prop) (b : BranchName) (base : List (ChunkRow V)) (d : Domain V) : Prop :=
  ∃ l, SettledAt memory b base l d

variable {memory : Prop} {b : BranchName} {base : List (ChunkRow V)} {l : Lineage (ChunkRow V)}
  {d s : Domain V}

/-- Opening a handle changes nothing but the handle. -/
theorem SettledAt.reopen (h : SettledAt memory b base l d) (hopened : s.opened = d.opened)
    (hindexes : s.branchIndexes = d.branchIndexes)
    (hcached : s.cached = d.cached ∨ s.cached = some d.opened.main.head) :
    SettledAt memory b base l s := by
  refine ⟨?_, ?_, ?_, ?_, ?_, ?_, fun hb v hv => ?_⟩
  · rw [hopened, h.lineage]
  · rw [hopened]
    exact h.derived
  · rw [hopened]
    exact h.unindexed
  · rw [hopened, hindexes]
    exact h.indexed
  · rw [hopened]
    exact h.versions
  · rw [hopened]
    exact h.stamps
  · rcases hcached with hc | hc
    · exact h.handle hb v (by rw [← hc, hv])
    · have hmain := h.lineage
      rw [hb, wantBranch, if_pos rfl, Dataset.lineage?_none, Option.some.injEq] at hmain
      rw [hc, Option.some.injEq, hmain] at hv
      exact hv.symm

theorem SettledAt.openReadonly (h : SettledAt memory b base l d) :
    SettledAt memory b base l d.openReadonly := by
  apply h.reopen (by simp) (by simp)
  unfold Domain.openReadonly
  split
  · rename_i hds
    exact .inr (by rw [Domain.opened_of_some hds])
  · exact .inl rfl

theorem SettledAt.openDataset (h : SettledAt memory b base l d) :
    SettledAt memory b base l d.openDataset := by
  apply h.reopen (by simp) (by simp)
  unfold Domain.openDataset
  split
  · exact .inl rfl
  · exact .inr rfl

theorem SettledAt.refresh (h : SettledAt memory b base l d) :
    SettledAt memory b base l d.refresh := by
  apply h.reopen (by simp) (by simp)
  unfold Domain.refresh
  split
  · exact .inl rfl
  · rename_i hds
    exact .inr (by rw [Domain.opened_of_some hds])

theorem SettledAt.restart (h : SettledAt memory b base l d) :
    SettledAt memory b base l d.restart where
  lineage := h.lineage
  derived := h.derived
  unindexed := h.unindexed
  indexed _ bi hbi := by cases hbi
  versions := h.versions
  stamps := h.stamps
  handle _ v hv := by cases hv

/-- The version that a commit without work is tagged at is the newest. -/
theorem SettledAt.noopVersion (h : SettledAt memory b base l d) {v : ℕ}
    (hv : d.noopVersion b = some v) : v = l.head := by
  unfold Domain.noopVersion at hv
  split at hv
  · exact h.handle ‹_› v hv
  · rw [h.lineage] at hv
    exact (Option.some.inj hv).symm

end Invariant

section Tagged

variable {memory : Prop} {b : BranchName} {base : List (ChunkRow V)} {l : Lineage (ChunkRow V)}
  {ds : LanceDataset (ChunkRow V)} {c : CommitId} {v : ℕ} {r : List (ChunkRow V)}

theorem ServesHead.putTag {c' : CommitId} (h : ServesHead ds l c') (hnew : c ∉ ds.tags)
    (b' : Option BranchName) (v : ℕ) : ServesHead (ds.putTag c b' v) l c' := by
  obtain ⟨r, hr, hperm⟩ := h
  obtain ⟨t, ht⟩ := Dataset.exists_home hr
  have hne : c' ≠ c := by
    rintro rfl
    exact hnew (AList.lookup_isSome.mp (by simp [ht.1]))
  exact ⟨r, (ht.putTag hne b' v).served, hperm⟩

/-- A new tag at the end of the branch settles it, whatever else the domain remembers. -/
theorem settledAt_of_putTag {d : Domain V} (hopened : d.opened = ds.putTag c (wantBranch b) v)
    (hl : ds.lineage? (wantBranch b) = some l) (hr : l.rows v = some r)
    (hperm : r.Perm l.headRows) (hv : v ≤ l.head)
    (hversions : ∀ c' t, ds.tags.lookup c' = some t → belongsTo b t.branch = true → t.version ≤ v)
    (hstamps : ∀ c' t, ds.tags.lookup c' = some t → t.createdAt < ds.clock)
    (hindexed : memory → ∀ bi, d.branchIndexes.lookup b = some bi →
      ∃ c', bi.commit = some c' ∧ ServesHead d.opened l c')
    (hcached : b = mainBranch → ∀ w, d.cached = some w → w = l.head) :
    SettledAt memory b base l d := by
  have hlatest := (isLatest_putTag (c := c) hversions hstamps).derive
  rw [← hopened] at hlatest
  refine ⟨?_, fun c' v' h => ?_, fun h => ?_, hindexed, fun c' t h hb => ?_, fun c' t h => ?_,
    hcached⟩
  · rw [hopened]
    exact hl
  · rw [hlatest, Option.some.injEq, Prod.mk.injEq] at h
    rw [← h.1, hopened]
    exact ⟨r, served_putTag_self hl hr, hperm⟩
  · rw [hlatest] at h
    cases h
  · rw [hopened, Dataset.lookup_putTag] at h
    split at h
    · obtain rfl := Option.some.inj h
      exact hv
    · exact (hversions c' t h hb).trans hv
  · rw [hopened, Dataset.lookup_putTag] at h
    rw [hopened]
    split at h
    · obtain rfl := Option.some.inj h
      exact Nat.lt_succ_self _
    · exact (hstamps c' t h).trans (Nat.lt_succ_self _)

/-- Tagging settles the branch and leaves the handle at the newest version. -/
theorem settledAt_tagged {d : Domain V} (hds : d.dataset.isSome)
    (hl : d.opened.lineage? (wantBranch b) = some l) (hr : l.rows v = some r)
    (hperm : r.Perm l.headRows) (hv : v ≤ l.head)
    (hversions : ∀ c' t, d.opened.tags.lookup c' = some t → belongsTo b t.branch = true →
      t.version ≤ v)
    (hstamps : ∀ c' t, d.opened.tags.lookup c' = some t → t.createdAt < d.opened.clock) :
    SettledAt memory b base l (d.tagged b c v) := by
  have hopened := Domain.tagged_opened hds b c v
  refine settledAt_of_putTag hopened hl hr hperm hv hversions hstamps (fun _ bi hbi => ?_)
    fun hb w hw => ?_
  · have hlookup : (d.tagged b c v).branchIndexes.lookup b = some ⟨some c, v⟩ :=
      AList.lookup_insert _
    rw [hlookup, Option.some.injEq] at hbi
    refine ⟨c, by rw [← hbi], r, ?_, hperm⟩
    rw [hopened]
    exact served_putTag_self hl hr
  · rw [Domain.tagged_cached hds, Option.some.injEq] at hw
    rw [hb, wantBranch, if_pos rfl, Dataset.lineage?_none, Option.some.injEq] at hl
    rw [← hw, hl]

theorem SettledAt.noopTag {d : Domain V} (h : SettledAt memory b base l d) {v : ℕ}
    (hv : d.noopVersion b = some v) (ht : d.Taggable b c v) :
    SettledAt memory b base l (d.tag b c v) ∧ SettledAt memory b base l (d.tagged b c v) := by
  obtain rfl := h.noopVersion hv
  constructor
  · have hopened := Domain.tag_opened ht.1 b c l.head
    refine settledAt_of_putTag hopened h.lineage l.rows_head (.refl _) le_rfl h.versions h.stamps
      (fun hmemory bi hbi => ?_) h.handle
    obtain ⟨c', hc', hserves⟩ := h.indexed hmemory bi hbi
    rw [hopened]
    exact ⟨c', hc', hserves.putTag ht.2.1 _ _⟩
  · exact settledAt_tagged ht.1 h.lineage l.rows_head (.refl _) le_rfl h.versions h.stamps

theorem ServesHead.cleanup {c' : CommitId} (h : ServesHead ds l c') {l' : Lineage (ChunkRow V)}
    (hl' : l'.headRows = l.headRows) : ServesHead ds.cleanup l' c' := by
  obtain ⟨r, hr, hperm⟩ := h
  obtain ⟨t, ht⟩ := Dataset.exists_home hr
  exact ⟨r, ht.cleanup.served, by rwa [hl']⟩

theorem exists_lineage_cleanup (hl : ds.lineage? (wantBranch b) = some l) :
    ∃ l', ds.cleanup.lineage? (wantBranch b) = some l' ∧ l'.head = l.head ∧
      l'.headRows = l.headRows := by
  cases hb : wantBranch b with
  | none =>
    rw [hb, Dataset.lineage?_none, Option.some.injEq] at hl
    exact ⟨_, rfl, by rw [← hl]; rfl, by rw [← hl]; rfl⟩
  | some b' =>
    rw [hb] at hl
    exact ⟨l, hl, rfl, rfl⟩

/-- Cleanup prunes versions that no tag names. -/
theorem SettledAt.cleaned {d : Domain V} (h : SettledAt memory b base l d)
    (hds : d.dataset.isSome) : Settled memory b base d.cleaned := by
  have hopened := Domain.cleaned_opened hds
  obtain ⟨l', hl', hhead, hrows⟩ := exists_lineage_cleanup h.lineage
  have hderive : ioDeriveLastIndexed d.cleaned.opened b = ioDeriveLastIndexed d.opened b :=
    ioDeriveLastIndexed_congr (by rw [hopened, Dataset.cleanup_tags]) b
  refine ⟨l', by rw [hopened, hl'], fun c v hc => ?_, fun hnone => ?_, fun hmemory bi hbi => ?_,
    ?_, ?_, fun hb v hv => ?_⟩
  · rw [hderive] at hc
    rw [hopened]
    exact (h.derived c v hc).cleanup hrows
  · rw [hderive] at hnone
    rw [hrows]
    exact h.unindexed hnone
  · obtain ⟨c', hc', hserves⟩ := h.indexed hmemory bi hbi
    rw [hopened]
    exact ⟨c', hc', hserves.cleanup hrows⟩
  · rw [hopened, hhead]
    exact h.versions
  · rw [hopened]
    exact h.stamps
  · rw [hhead]
    exact h.handle hb v hv

end Tagged

section Push

variable {memory : Prop} {b : BranchName} {base : List (ChunkRow V)} {l : Lineage (ChunkRow V)}
  {d d₀ s : Domain V} {commit : CommitId} {c : Collected V}

theorem SettledAt.lineage_unique (h : SettledAt memory b base l d) {l' : Lineage (ChunkRow V)}
    (hl' : d.opened.lineage? (wantBranch b) = some l') : l' = l :=
  Option.some.inj (hl'.symm.trans h.lineage)

/-- A push that completes settles the branch again. -/
theorem PushDone.settled (hdone : PushDone d d₀ b commit c s) (h : SettledAt memory b base l d)
    (h₀ : SettledAt memory b base l d₀) : Settled memory b base s := by
  cases hdone with
  | @work s' l₁ l' v _ hl hat hserves ht hs =>
    obtain rfl := h.lineage_unique hl
    have htagged : SettledAt memory b base l' (s'.tagged b commit v) := by
      refine settledAt_tagged hat.dataset hat.lineage hserves.rows ?_ hserves.upper
        (fun c' t hc' hb => ?_) fun c' t hc' => ?_
      · rw [hserves.headRows]
      · rw [hat.tags] at hc'
        exact (h.versions c' t hc' hb).trans hserves.lower
      · rw [hat.tags] at hc'
        rw [hat.clock]
        exact h.stamps c' t hc'
    rcases hs with rfl | rfl
    · exact ⟨l', htagged⟩
    · exact htagged.cleaned (Domain.tagged_dataset_isSome hat.dataset b commit v)
  | noop _ _ hv ht hs =>
    subst hs
    exact ⟨l, (h₀.noopTag hv ht).2⟩

/-- A push starts from the newest rows, also when it only tags them. -/
theorem SettledAt.builtOn (h : SettledAt memory b base l d) (h₀ : SettledAt memory b base l d₀)
    {r : List (ChunkRow V)} (hr : BuiltOn d d₀ b c r) : r = l.headRows := by
  cases hr with
  | head _ hl => rw [h.lineage_unique hl]
  | noop _ _ _ hv hrows =>
    obtain rfl := h₀.noopVersion hv
    rw [Dataset.rowsAt, h₀.lineage, Option.bind_some, l.rows_head, Option.some.injEq] at hrows
    exact hrows.symm

namespace PushRequest

variable {r : PushRequest V}

/-- With work, no call fails after the first write until the commit is recorded. Calls that
the push does not come to make have no outcome and count as not failing. -/
def Settles (r : PushRequest V) : Prop :=
  ∀ c, r.collect = .ok c → (c.rows ≠ [] ∨ c.deleteIds ≠ []) →
    (∀ op, op.hard = true → r.env.fails op = false) ∧
      (c.deleteIds ≠ [] → r.env.fails .append = false)

theorem noopStart_settledAt (h : SettledAt memory b base l d) :
    SettledAt memory b base l (r.noopStart d) := by
  unfold noopStart
  split
  · exact h.openDataset
  · exact h.openDataset.refresh

/-- The store after those steps of a push that leave it settled. -/
theorem pushSteps_settled (h : SettledAt memory b base l d) (c : Collected V) :
    PushSteps d (r.noopStart d) b r.commit c
      (fun op s => op.settled = true → Settled memory b base s) where
  unsettled op s hop hop' := by
    rw [hop] at hop'
    cases hop'
  start op _ := ⟨l, h.openDataset⟩
  noop _ _ op _ := ⟨l, noopStart_settledAt h⟩
  done op s hdone _ := hdone.settled h (noopStart_settledAt h)

/-- What a push that settles may leave behind. -/
theorem allowed_settled (h : SettledAt memory b base l d) (hr : r.Settles) :
    r.Allowed d b (Settled memory b base)
      (fun op s => op.settled = true → Settled memory b base s) where
  start := ⟨l, h⟩
  early := ⟨l, h.openDataset⟩
  opens op _ := ⟨l, h.openDataset⟩
  fails c hc := {
    start := ⟨l, h⟩
    early := ⟨l, h.openDataset⟩
    noop := fun _ _ => ⟨l, noopStart_settledAt h⟩
    tag := fun v _ _ hv ht => ⟨l, ((noopStart_settledAt h).noopTag hv ht).1⟩
    late := fun hwork op hop hfails => by
      have hok := (hr c hc hwork).1 op hop
      rw [hfails] at hok
      cases hok
    append := fun hdel hfails => by
      have hok := (hr c hc (.inr hdel)).2 hdel
      rw [hfails] at hok
      cases hok }
  steps c _ := pushSteps_settled h c

/-- Also in a push that fails half way, the steps around its work leave the store settled. -/
theorem trace_settled (h : Settled memory b base d) {op : StoreOp} {s : Domain V}
    (hmem : (op, s) ∈ (r.push b d).trace) (hop : op.settled = true) : Settled memory b base s := by
  obtain ⟨l, hl⟩ := h
  have hspec := push_spec (r := r) (d := d) (b := b) (E := fun _ => True)
    (T := fun op s => op.settled = true → Settled memory b base s) trivial
    (fun _ => ⟨l, hl.openReadonly⟩)
    ⟨trivial, trivial, fun op _ => ⟨l, hl.openReadonly.openDataset⟩, fun _ _ => pushFails_true,
      fun c _ => pushSteps_settled hl.openReadonly c⟩
  exact (hspec d rfl).1 _ hmem hop

/-- The step lemma: a push that settles keeps the invariant, however it ends. -/
theorem push_settled (h : Settled memory b base d) (hr : r.Settles) :
    Spec (fun s => s = d) (r.push b) (fun _ => Settled memory b base)
      (fun _ => Settled memory b base)
      (fun op s => op.settled = true → Settled memory b base s) := by
  obtain ⟨l, hl⟩ := h
  refine (push_spec ⟨l, hl⟩ (fun _ => ⟨l, hl.openReadonly⟩)
    (allowed_settled hl.openReadonly hr)).post fun status s hs => ?_
  cases status with
  | complete indexed skipped =>
    obtain ⟨-, c, -, -, hdone⟩ := hs
    exact hdone.settled hl.openReadonly (noopStart_settledAt hl.openReadonly)
  | error e => exact hs

end PushRequest

end Push

section Runs

/-- What happens to a branch between its first push and the last. -/
inductive Event (V : Type) where
  | push (r : PushRequest V)
  | restart

def Event.apply (b : BranchName) (d : Domain V) : Event V → Domain V
  | .push r => (r.push b d).store
  | .restart => d.restart

/-- `φ` holds of every push of the run, with the domain it starts from. -/
def EachPush (b : BranchName) (φ : Domain V → PushRequest V → Prop) :
    Domain V → List (Event V) → Prop
  | _, [] => True
  | d, .push r :: events => φ d r ∧ EachPush b φ ((Event.push r).apply b d) events
  | d, .restart :: events => EachPush b φ (Event.restart.apply b d) events

/-- The rows at the commit that `last_indexed` reports, or at the start of the branch. -/
def Domain.parentRows (d : Domain V) (b : BranchName) (base : List (ChunkRow V)) :
    List (ChunkRow V) :=
  match d.reported b with
  | some c => (d.opened.served c).getD []
  | none => base

/-- If the push ends complete, its commit serves the parent's rows with its operations
applied. -/
def ExactPush (b : BranchName) (base : List (ChunkRow V)) (d : Domain V) (r : PushRequest V) :
    Prop :=
  ∀ indexed skipped, (r.push b d).result = .ok (.complete indexed skipped) →
    WellFormed r.operations (d.parentRows b base) →
    ∃ c rows, r.collect = .ok c ∧ indexed = c.indexed ∧ skipped = c.skipped ∧
      (r.push b d).store.opened.served r.commit = some rows ∧
      ExactlyPushed r.env.toIngestEnv r.operations c (d.parentRows b base) rows

/-- A branch before its first commit. -/
structure Unindexed (b : BranchName) (base : List (ChunkRow V)) (d : Domain V) : Prop where
  head : ∃ l, d.opened.lineage? (wantBranch b) = some l ∧ l.headRows = base ∧
    (b = mainBranch → ∀ v, d.cached = some v → v = l.head)
  untagged : ∀ c t, d.opened.tags.lookup c = some t → belongsTo b t.branch = false
  unrecorded : d.branchIndexes.lookup b = none
  stamps : ∀ c t, d.opened.tags.lookup c = some t → t.createdAt < d.opened.clock

variable {b : BranchName} {base : List (ChunkRow V)} {d : Domain V}

theorem Unindexed.settled (h : Unindexed b base d) (memory : Prop) : Settled memory b base d := by
  obtain ⟨l, hl, rfl, hcached⟩ := h.head
  have hnone := ioDeriveLastIndexed_eq_none.mpr h.untagged
  refine ⟨l, hl, fun c v hc => ?_, fun _ => .refl _, fun _ bi hbi => ?_, fun c t hc hb => ?_,
    h.stamps, hcached⟩
  · rw [hnone] at hc
    cases hc
  · rw [h.unrecorded] at hbi
    cases hbi
  · rw [h.untagged c t hc] at hb
    cases hb

theorem unindexed_fresh : Unindexed (V := V) mainBranch [] .fresh where
  head := ⟨_, rfl, rfl, fun _ v hv => by cases hv⟩
  untagged c t h := by cases h
  unrecorded := rfl
  stamps c t h := by cases h

/-- In a settled domain the parent of the next push has the newest rows. -/
theorem SettledAt.parentRows {l : Lineage (ChunkRow V)} (h : SettledAt True b base l d) :
    l.headRows.Perm (d.parentRows b base) := by
  have hserves : ∀ c, ServesHead d.opened l c → l.headRows.Perm ((d.opened.served c).getD []) := by
    rintro c ⟨r, hr, hperm⟩
    rw [hr]
    exact hperm.symm
  unfold Domain.parentRows
  rw [Domain.reported_eq]
  cases hbi : d.branchIndexes.lookup b with
  | some bi =>
    obtain ⟨c, hc, hs⟩ := h.indexed trivial bi hbi
    simp only [hc]
    exact hserves c hs
  | none =>
    cases hderive : ioDeriveLastIndexed d.opened b with
    | none => exact (h.unindexed hderive).symm
    | some e => exact hserves e.1 (h.derived e.1 e.2 hderive)

theorem Settled.exactPush (h : Settled True b base d) {r : PushRequest V} (hr : r.Settles) :
    ExactPush b base d r := by
  intro indexed skipped hresult hwf
  obtain ⟨l, hl⟩ := h
  have hspec := (PushRequest.push_spec ⟨l, hl⟩ (fun _ => ⟨l, hl.openReadonly⟩)
    (PushRequest.allowed_settled hl.openReadonly hr)).result_ok rfl hresult
  obtain ⟨-, c, hc, hout, hdone⟩ := hspec
  obtain ⟨rfl, rfl⟩ := Prod.mk.inj hout
  obtain ⟨built, hbuilt, hserved⟩ := hdone.served
  obtain rfl := hl.openReadonly.builtOn (PushRequest.noopStart_settledAt hl.openReadonly) hbuilt
  obtain ⟨docs, hdocs⟩ := PushRequest.collects hc
  exact ⟨c, _, hc, rfl, rfl, hserved, hdocs.exactlyPushed hwf hl.parentRows⟩

/-- Incremental indexing is exact in every run whose pushes settle. -/
theorem pushes_exact (hstart : Unindexed b base d) (events : List (Event V))
    (h : ∀ r, .push r ∈ events → r.Settles) : EachPush b (ExactPush b base) d events := by
  have hsettled := hstart.settled True
  clear hstart
  -- along the run, the branch is settled before every event
  induction events generalizing d with
  | nil => trivial
  | cons e events ih =>
    have hrest : ∀ r, .push r ∈ events → r.Settles := fun r hr => h r (List.mem_cons_of_mem _ hr)
    cases e with
    | push r =>
      have hr := h r List.mem_cons_self
      exact ⟨hsettled.exactPush hr, ih hrest ((r.push_settled hsettled hr).final rfl)⟩
    | restart =>
      obtain ⟨l, hl⟩ := hsettled
      exact ih hrest ⟨l, hl.restart⟩

end Runs

section Samples

/-- One chunk for each text, vectors without content. -/
def plainEnv (fails : StoreOp → Bool) : PushEnv Unit where
  chunkText s := .ok [⟨0, 1, 0, 1, s⟩]
  provider _ texts := .ok (texts.map fun _ => ())
  embedBatchSize := 8
  batchSize_pos := by decide
  storeClustering := true
  zero := ()
  l2Normalize := id
  cancelled _ := false
  fails := fails
  indexVersions _ := 1
  clusteringConfig := false

/-- An insertion of document `a` as commit `c0`. -/
def insertA (fails : StoreOp → Bool) : PushRequest Unit :=
  ⟨plainEnv fails, "c0", [.inserted "a" "old"], .buffered⟩

/-- The domain after document `a` was indexed as commit `c0`. -/
def indexedA : Domain Unit := ((insertA fun _ => false).push mainBranch .fresh).store

def changeA : PushRequest Unit :=
  ⟨plainEnv fun _ => false, "c1", [.changed "a" "new"], .streaming (some 1)⟩

theorem settles_of_no_fault {r : PushRequest V} (h : ∀ op, r.env.fails op = false) : r.Settles :=
  fun _ _ _ => ⟨fun op _ => h op, fun _ => h .append⟩

theorem pushes_exact_changeA :
    ((changeA.push mainBranch ((insertA fun _ => false).push mainBranch .fresh).store).result =
      .ok (.complete 1 [])) ∧
    EachPush mainBranch (ExactPush mainBranch []) .fresh
      [.push (insertA fun _ => false), .restart, .push changeA] := by
  refine ⟨by rfl, pushes_exact unindexed_fresh _ fun r hr => ?_⟩
  simp only [List.mem_cons, Event.push.injEq, reduceCtorEq, List.not_mem_nil, or_false,
    false_or] at hr
  rcases hr with rfl | rfl
  · exact settles_of_no_fault fun _ => rfl
  · exact settles_of_no_fault fun _ => rfl

/-- The domain after the tag of the first attempt could not be created. -/
def untaggedA : Domain Unit := ((insertA fun op => op == .createTag).push mainBranch .fresh).store

/-- The second attempt appends the rows once more. -/
theorem retry_not_exact :
    ¬ EachPush mainBranch (ExactPush mainBranch []) .fresh
      [.push (insertA fun op => op == .createTag), .push (insertA fun _ => false)] := by
  rintro ⟨-, hretry, -⟩
  change ExactPush mainBranch [] untaggedA (insertA fun _ => false) at hretry
  have hparent : untaggedA.parentRows mainBranch [] = [] := by rfl
  obtain ⟨c, rows, -, -, -, hserved, docs, hdocs, hrows⟩ := hretry 1 [] (by rfl)
    ⟨by decide, fun id string h => by rfl⟩
  have htwice : (docRows "a" rows).length = 2 := by
    have hlength : (docRows "a" ((((insertA fun _ => false).push mainBranch
        untaggedA).store.opened.served (insertA fun _ => false).commit).getD [])).length = 2 := by
      decide
    rwa [hserved] at hlength
  have hperm := (hrows "a").length_eq
  rw [htwice] at hperm
  cases hfind : docs.find? (·.id = "a") with
  | none =>
    simp [hfind, hparent, docRows] at hperm
  | some d =>
    obtain ⟨string, hop, chunks, vs, qs, htext, -, hvs, hqs, hd⟩ :=
      hdocs.text d (List.mem_of_find?_eq_some hfind)
    obtain rfl := Except.ok.inj htext
    rw [hfind] at hperm
    simp only [hd, chunkRows, List.length_map, List.length_zip, List.length_singleton] at hperm
    omega

end Samples

end Vectorlink
