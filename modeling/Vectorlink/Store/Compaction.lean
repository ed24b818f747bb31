import Vectorlink.Store.RetagSweep

/-! A whole compaction, cut into the replay, the moves and the sweep. -/
namespace Vectorlink

open Stepwise Stepwise.Program Versioned Dataset

namespace RetagEnv

variable {ρ : Type} {env : RetagEnv ρ} {ds : LanceDataset ρ} {order : HashOrder (CommitId × ℕ)}

/-- The commits as the compaction orders them. Commits at the same version number, on different
branches, keep the order in which the map comes. -/
def sorted (order : HashOrder (CommitId × ℕ)) (ds : LanceDataset ρ) : List (CommitId × ℕ) :=
  sortByVersion (order.run (ioListCommitVersions ds))

theorem sorted_perm : (sorted order ds).Perm (ioListCommitVersions ds) :=
  (sortByVersion_perm _).trans (order.perm _)

/-- Where no two commits have the same version number, the order of the map does not matter. -/
theorem sorted_eq {l : List (CommitId × ℕ)} (hperm : l.Perm (ioListCommitVersions ds))
    (hlt : l.Pairwise fun a b => a.2 < b.2) : sorted order ds = l := by
  have hsame : (sorted order ds).Perm l := sorted_perm.trans hperm.symm
  have hne : (sorted order ds).Pairwise fun a b => a.2 ≠ b.2 :=
    hsame.symm.pairwise (hlt.imp fun h => h.ne) fun h => h.symm
  have hle : (sorted order ds).Pairwise fun a b => a.2 ≤ b.2 := List.pairwise_insertionSort _ _
  have hsorted : (sorted order ds).Pairwise fun a b => a.2 < b.2 :=
    (hle.and hne).imp fun h => lt_of_le_of_ne h.1 h.2
  exact hsame.eq_of_pairwise (fun a b _ _ hab hba => by omega) hsorted hlt

/-- The positions that keep their tags. -/
def boundaries (order : HashOrder (CommitId × ℕ)) (ds : LanceDataset ρ) : List ℕ :=
  boundaryPositions (sorted order ds).length

/-- Nothing stops the compaction before it moves the first tag. -/
structure ReplayClear (env : RetagEnv ρ) (ds : LanceDataset ρ) (first : CommitId × ℕ)
    (rest : List (CommitId × ℕ)) : Prop where
  create : env.fails .createBranch = false
  unused : env.rebuildBranch ∉ ds.branches
  base : (ds.main.rows first.2).isSome
  opened : env.fails .openRebuild = false
  ops : ∀ op ∈ env.replayOps ds (boundaryPositions (rest.length + 1)) first.1 1 rest,
    env.fails op = false
  resolved : ∀ e ∈ first :: rest, (ds.served e.1).isSome

/-- The plan and the boundary versions of a replay that starts at the first commit. -/
def plan (env : RetagEnv ρ) (ds : LanceDataset ρ) (first : CommitId × ℕ)
    (rest : List (CommitId × ℕ)) : List (CommitId × ℕ) × List (CommitId × ℕ) :=
  env.planFrom ds (boundaryPositions (rest.length + 1)) first.2 first.1 1 rest

/-- The dataset when the first tag is about to move. -/
structure ReadyToMove (env : RetagEnv ρ) (ds : LanceDataset ρ) (Rel : CommitId → List ρ → Prop)
    (first : CommitId × ℕ) (rest : List (CommitId × ℕ)) (s : LanceDataset ρ) : Prop where
  replayed : env.Replayed ds s
  clear : ReplayClear env ds first rest
  rows : ∀ e ∈ (env.plan ds first rest).1 ++ (env.plan ds first rest).2,
    ∃ r, s.rowsAt (some env.rebuildBranch) e.2 = some r ∧ Rel e.1 r

theorem dropRebuild_spec {T : RetagOp → LanceDataset ρ → Prop} {E : LanceDataset ρ → Prop}
    (hE : ∀ s, env.Replayed ds s → E s) (hT : ∀ op s, env.Replayed ds s → T op s) :
    Spec (env.Replayed ds) env.dropRebuild (fun _ => env.Replayed ds) (fun _ => E) T := by
  refine Spec.bind (env.opens_spec (fun s hs _ => hs) (fun s hs _ => hE s hs)) fun _ =>
    Spec.bind (env.softWrites_spec (fun s t hs _ hf => ?_) (fun s hs _ => hs)) fun _ =>
      Spec.pure fun s hs => hs
  obtain ⟨-, rfl⟩ := deleteBranch_ok.mp hf
  have hdrop : env.Replayed ds (s.dropBranch env.rebuildBranch) :=
    ⟨hs.main, hs.tags, hs.clock, fun b hb => by
      rw [← hs.branches b hb]
      exact AList.lookup_erase_ne hb, by
      rw [← hs.order]
      exact erase_keys_erase _ _⟩
  exact ⟨hT _ _ hdrop, hdrop⟩

/-- The end of the first phase: the plan, or a replay that was stuck on something. -/
def PhaseOneEnd (env : RetagEnv ρ) (ds : LanceDataset ρ) (Rel : CommitId → List ρ → Prop)
    (first : CommitId × ℕ) (rest : List (CommitId × ℕ)) (r : List ρ)
    (res : Except StoreError (List (CommitId × ℕ) × List (CommitId × ℕ)))
    (s : LanceDataset ρ) : Prop :=
  match res with
  | .ok pb => PhaseOneDone env ds Rel (boundaryPositions (rest.length + 1)) (.start first.2 r)
      first.1 1 rest pb s
  | .error _ => env.Replayed ds s ∧ ¬ ReplayClear env ds first rest

/-- The rebuild branch is forked from the version number of the first commit on main. -/
theorem createRebuild_spec {E : LanceDataset ρ → Prop} {T : RetagOp → LanceDataset ρ → Prop}
    {first : CommitId × ℕ} {rest : List (CommitId × ℕ)} {context : String}
    (hE : ∀ s, env.Replayed ds s → ¬ ReplayClear env ds first rest → E s)
    (hT : ∀ op s, env.Replayed ds s → T op s) :
    Spec (fun s => s = ds)
      (env.writes .createBranch context fun ds => ds.createBranch env.rebuildBranch none first.2)
      (fun _ s => ∃ r, AtRebuild ds env (.start first.2 r) s ∧ ds.main.rows first.2 = some r ∧
        env.rebuildBranch ∉ ds.branches ∧ env.fails .createBranch = false)
      (fun _ => E) T := by
  refine env.writes_spec (fun s t hs hop hf => ?_) (fun s hs h => ?_)
  · subst hs
    obtain ⟨hnot, r, hr, rfl⟩ := createBranch_ok.mp hf
    have hat : AtRebuild s env (.start first.2 r)
        { s with branches := s.branches.insert env.rebuildBranch (.start first.2 r) } :=
      ⟨⟨rfl, rfl, rfl, fun b hb => AList.lookup_insert_ne hb, erase_keys_insert _ _ _⟩,
        AList.lookup_insert _⟩
    exact ⟨hT _ _ hat.toReplayed, r, hat, hr, hnot, hop⟩
  · subst hs
    refine hE s (Replayed.refl s) fun hc => ?_
    rcases h with h | ⟨e, h⟩
    · rw [hc.create] at h
      cases h
    · obtain ⟨r, hr⟩ := Option.isSome_iff_exists.mp hc.base
      have hrow : s.rowsAt none first.2 = some r := hr
      rw [createBranch_ok.mpr ⟨hc.unused, r, hrow, rfl⟩] at h
      cases h

/-- After a completed replay everything is in place for the moves. -/
theorem PhaseOneEnd.ready {Rel : CommitId → List ρ → Prop} {first : CommitId × ℕ}
    {rest : List (CommitId × ℕ)} {r : List ρ} {s : LanceDataset ρ}
    {pb : List (CommitId × ℕ) × List (CommitId × ℕ)} (hrest : rest ≠ [])
    (hr : ds.main.rows first.2 = some r) (hnot : env.rebuildBranch ∉ ds.branches)
    (hcreate : env.fails .createBranch = false) (hopen : env.fails .openRebuild = false)
    (h : PhaseOneEnd env ds Rel first rest r (.ok pb) s) :
    pb = env.plan ds first rest ∧ ReadyToMove env ds Rel first rest s := by
  change PhaseOneDone env ds Rel (boundaryPositions (rest.length + 1)) (.start first.2 r) first.1 1
    rest pb s at h
  obtain ⟨l', hat, hext, hrows⟩ := h.replayed
  have hplan : pb = env.plan ds first rest := h.plan
  refine ⟨hplan, hat.toReplayed, ⟨hcreate, hnot, by simp [hr], hopen, h.clear, ?_⟩, ?_⟩
  · intro e he
    rcases List.mem_cons.mp he with rfl | he
    · exact h.prev_resolved hrest
    · exact h.resolved e he
  · intro e he
    rw [← hplan] at he
    obtain ⟨r', hr', hrel⟩ := hrows e he
    exact ⟨r', by simpa [Dataset.rowsAt, hat.rebuild] using hr', hrel⟩

/-- To know what a compaction does it is enough to know what follows a completed replay:
before that the dataset is as it was, up to the rebuild branch. -/
theorem retagSorted_spec {Q : ℕ × ℕ → LanceDataset ρ → Prop} {E : LanceDataset ρ → Prop}
    {T : RetagOp → LanceDataset ρ → Prop} (hfresh : env.FreshEpoch ds)
    (Rel : CommitId → List ρ → Prop) (hcarry : Carries env ds Rel) {first : CommitId × ℕ}
    {rest : List (CommitId × ℕ)} (hrest : rest ≠ [])
    (hbase : ∀ r, ds.main.rows first.2 = some r → Rel first.1 r)
    (hE : ∀ s, env.Replayed ds s → ¬ ReplayClear env ds first rest → E s)
    (hT : ∀ op s, env.Replayed ds s → T op s)
    (hmove : ∀ s, ReadyToMove env ds Rel first rest s →
      Spec (fun s' => s' = s) (env.phase2 (env.plan ds first rest).1 (env.plan ds first rest).2)
        (fun _ => Q (rest.length + 1, (env.plan ds first rest).1.length)) (fun _ => E) T) :
    Spec (fun s => s = ds) (env.retagSorted first rest) Q (fun _ => E) T := by
  have hsub : ∀ {p : Prop}, (ReplayClear env ds first rest → p) → ¬ p →
      ¬ ReplayClear env ds first rest := fun h hp hc => hp (h hc)
  refine Spec.bind (createRebuild_spec hE hT) fun _ => Spec.of_exists fun r => Spec.of_and ?_
  rintro ⟨hr, hnot, hcreate⟩
  refine Spec.bind
    (R := fun _ s => AtRebuild ds env (.start first.2 r) s ∧ env.fails .openRebuild = false)
    (env.opens_spec (fun s hs hop => ⟨hs, hop⟩) (fun s hs hop => hE s hs.toReplayed
      (hsub (·.opened) (by simp [hop])))) fun _ => Spec.of_and fun hopen => ?_
  have hphase := phase1_spec (B := ¬ ReplayClear env ds first rest) hfresh hcarry
    (boundaryPositions (rest.length + 1)) rest first.1 1 (.start first.2 r) (hbase r hr)
    (fun op hop h => hsub (fun hc => hc.ops op hop) (by simp [h]))
    (fun h => hsub (fun hc => hc.resolved _ List.mem_cons_self) (by simp [h]))
    (fun e he h => hsub (fun hc => hc.resolved _ (List.mem_cons_of_mem _ he)) (by simp [h]))
  refine Spec.bind (Spec.attempt (Q := PhaseOneEnd env ds Rel first rest r)
    (hphase.weaken (fun _ h => h) (fun _ _ h => h) (fun _ _ h => h) (fun op s h => hT op s h)))
    fun res => ?_
  cases res with
  | error e =>
    refine Spec.of_and fun hstuck => ?_
    exact Spec.bind (dropRebuild_spec (fun s hs => hE s hs hstuck) hT) fun _ =>
      Spec.fail fun s hs => hE s hs hstuck
  | ok pb =>
    intro s hs
    obtain ⟨hplan, hready⟩ := PhaseOneEnd.ready hrest hr hnot hcreate hopen hs
    have hrun := Spec.bind (hmove s hready)
      (fun _ => Spec.pure (a := (rest.length + 1, (env.plan ds first rest).1.length))
        (Q := Q) (E := fun _ => E) (T := T) fun _ h => h) s rfl
    rw [← hplan] at hrun
    exact hrun

/-- Up to two commits are left alone. -/
theorem retag_spec {Q : ℕ × ℕ → LanceDataset ρ → Prop} {E : LanceDataset ρ → Prop}
    {T : RetagOp → LanceDataset ρ → Prop}
    (hlist : env.fails .listCommits = true → E ds)
    (hsmall : env.fails .listCommits = false → (sorted env.order ds).length ≤ 2 →
      Q ((sorted env.order ds).length, 0) ds)
    (hbig : env.fails .listCommits = false → ∀ first rest, sorted env.order ds = first :: rest →
      1 < rest.length → Spec (fun s => s = ds) (env.retagSorted first rest) Q (fun _ => E) T) :
    Spec (fun s => s = ds) env.retag Q (fun _ => E) T := by
  refine Spec.bind
    (R := fun commits s => s = ds ∧ commits = ioListCommitVersions ds ∧
      env.fails .listCommits = false)
    (env.reads_spec (fun s a hs hop hf => ?_) (fun s hs h => ?_)) fun commits => Spec.of_and ?_
  · subst hs
    exact ⟨rfl, (Except.ok.inj hf).symm, hop⟩
  · subst hs
    exact hlist (h.resolve_right (by simp))
  · rintro ⟨rfl, hop⟩
    have hlen : (sorted env.order ds).length = (ioListCommitVersions ds).length :=
      sorted_perm.length_eq
    refine Spec.ite (fun hle => Spec.pure fun s hs => ?_) (fun hgt => ?_)
    · rw [hs, ← hlen]
      exact hsmall hop (by omega)
    · cases hsort : sortByVersion (env.order.run (ioListCommitVersions ds)) with
      | nil => simp [sorted, hsort] at hlen; omega
      | cons first rest =>
        refine hbig hop first rest hsort ?_
        simp only [sorted, hsort, List.length_cons] at hlen
        omega

section Plan

/-- A commit is planned when its position is no boundary. -/
theorem mem_planFrom_fst {bs : List ℕ} {c : CommitId} (rest : List (CommitId × ℕ)) (v : ℕ)
    (prev : CommitId) (i : ℕ) :
    c ∈ (env.planFrom ds bs v prev i rest).1.map Prod.fst ↔
      ∃ k, (rest.map Prod.fst)[k]? = some c ∧ i + k ∉ bs := by
  induction rest generalizing v prev i with
  | nil => simp [planFrom]
  | cons e rest ih =>
    obtain ⟨x, w⟩ := e
    have hshift : (∃ k, (((x, w) :: rest).map Prod.fst)[k]? = some c ∧ i + k ∉ bs) ↔
        (x = c ∧ i ∉ bs) ∨ ∃ k, (rest.map Prod.fst)[k]? = some c ∧ i + 1 + k ∉ bs := by
      constructor
      · rintro ⟨k, hk, hi⟩
        cases k with
        | zero => exact .inl ⟨by simpa using hk, hi⟩
        | succ k =>
          have hk' : (rest.map Prod.fst)[k]? = some c := by simpa using hk
          exact .inr ⟨k, hk', by rwa [show i + 1 + k = i + (k + 1) by omega]⟩
      · rintro (⟨rfl, hi⟩ | ⟨k, hk, hi⟩)
        · exact ⟨0, by simp, hi⟩
        · exact ⟨k + 1, by simpa using hk, by rwa [show i + (k + 1) = i + 1 + k by omega]⟩
    rw [hshift]
    by_cases hb : i ∈ bs
    · simp only [planFrom, hb, if_true, ih, not_true_eq_false, and_false, false_or]
    · simp only [planFrom, hb, if_false, List.map_cons, List.mem_cons, ih, not_false_eq_true,
        and_true, eq_comm]

/-- The planned and the kept commits together are the commits after the first. -/
theorem planFrom_perm (bs : List ℕ) (rest : List (CommitId × ℕ)) (v : ℕ) (prev : CommitId)
    (i : ℕ) :
    (((env.planFrom ds bs v prev i rest).1 ++ (env.planFrom ds bs v prev i rest).2).map
      Prod.fst).Perm (rest.map Prod.fst) := by
  induction rest generalizing v prev i with
  | nil => simp [planFrom]
  | cons e rest ih =>
    obtain ⟨x, w⟩ := e
    by_cases hb : i ∈ bs
    · simp only [planFrom, hb, if_true, List.map_append, List.map_cons] at ih ⊢
      exact List.perm_middle.trans ((ih _ _ _).cons x)
    · simp only [planFrom, hb, if_false, List.map_append, List.map_cons, List.cons_append] at ih ⊢
      exact (ih _ _ _).cons x

end Plan

section Sorted

theorem mem_sorted {c : CommitId} : c ∈ (sorted order ds).map Prod.fst ↔ c ∈ ds.tags := by
  rw [(sorted_perm.map Prod.fst).mem_iff, ← AList.lookup_isSome]
  simp only [List.mem_map, Prod.exists, exists_and_right, exists_eq_right]
  simp only [mem_ioListCommitVersions, Option.isSome_iff_exists]
  exact ⟨fun ⟨_, t, ht, _⟩ => ⟨t, ht⟩, fun ⟨t, ht⟩ => ⟨_, t, ht, rfl⟩⟩

theorem nodup_sorted : ((sorted order ds).map Prod.fst).Nodup :=
  (sorted_perm.map Prod.fst).nodup_iff.mpr (nodup_ioListCommitVersions ds)

end Sorted

section Boundaries

/-- The commit stands at a boundary position of the sorted list. -/
def AtBoundary (order : HashOrder (CommitId × ℕ)) (ds : LanceDataset ρ) (c : CommitId) : Prop :=
  ∃ k, ((sorted order ds).map Prod.fst)[k]? = some c ∧ k ∈ boundaries order ds

theorem zero_mem_boundaryPositions {n : ℕ} (h : 1 < n) : 0 ∈ boundaryPositions n := by
  obtain ⟨m, rfl⟩ : ∃ m, n = m + 1 := ⟨n - 1, by omega⟩
  rw [boundaryPositions, List.mem_filter]
  refine ⟨?_, by simpa using by omega⟩
  simp [boundaryLoop]

theorem atBoundary_first {first : CommitId × ℕ} {rest : List (CommitId × ℕ)}
    (hsort : sorted order ds = first :: rest) (hlen : 1 < rest.length) :
    AtBoundary order ds first.1 := by
  refine ⟨0, by simp [hsort], ?_⟩
  simpa [boundaries, hsort] using zero_mem_boundaryPositions (by omega)

theorem last_notMem_boundaryPositions (n : ℕ) : n - 1 ∉ boundaryPositions n := by
  simp [boundaryPositions]

theorem position_unique {c : CommitId} {j k : ℕ}
    (hj : ((sorted order ds).map Prod.fst)[j]? = some c)
    (hk : ((sorted order ds).map Prod.fst)[k]? = some c) : j = k := by
  obtain ⟨hj', hj⟩ := List.getElem?_eq_some_iff.mp hj
  obtain ⟨hk', hk⟩ := List.getElem?_eq_some_iff.mp hk
  have hnodup : ((sorted order ds).map Prod.fst).Nodup := nodup_sorted
  exact hnodup.getElem_inj_iff.mp (hj.trans hk.symm)

/-- The planned commits are those off the boundary positions. -/
theorem mem_plan {first : CommitId × ℕ} {rest : List (CommitId × ℕ)}
    (hsort : sorted env.order ds = first :: rest) (hlen : 1 < rest.length) {c : CommitId} :
    c ∈ (env.plan ds first rest).1.map Prod.fst ↔ c ∈ ds.tags ∧ ¬ AtBoundary env.order ds c := by
  have hbs : boundaryPositions (rest.length + 1) = boundaries env.order ds := by
    simp [boundaries, hsort]
  rw [plan, mem_planFrom_fst, hbs]
  constructor
  · rintro ⟨k, hk, hnot⟩
    have hpos : ((sorted env.order ds).map Prod.fst)[1 + k]? = some c := by
      rw [hsort, List.map_cons, show 1 + k = k + 1 by omega, List.getElem?_cons_succ, hk]
    refine ⟨mem_sorted.mp (List.mem_of_getElem? hpos), ?_⟩
    rintro ⟨j, hj, hmem⟩
    rw [position_unique hj hpos] at hmem
    exact hnot hmem
  · rintro ⟨hmem, hnot⟩
    obtain ⟨j, hj⟩ := List.mem_iff_getElem?.mp (mem_sorted.mpr hmem)
    cases j with
    | zero =>
      refine absurd ⟨0, hj, ?_⟩ hnot
      rw [← hbs]
      exact zero_mem_boundaryPositions (by omega)
    | succ k =>
      refine ⟨k, ?_, fun hin => hnot ⟨k + 1, hj, by rwa [show k + 1 = 1 + k by omega]⟩⟩
      rwa [hsort, List.map_cons, List.getElem?_cons_succ] at hj

end Boundaries

section Ready

variable {Rel : CommitId → List ρ → Prop} {first : CommitId × ℕ} {rest : List (CommitId × ℕ)}
  {s : LanceDataset ρ}

theorem plan_perm :
    (((env.plan ds first rest).1 ++ (env.plan ds first rest).2).map Prod.fst).Perm
      (rest.map Prod.fst) := planFrom_perm ..

theorem nodup_plan (hsort : sorted env.order ds = first :: rest) :
    (((env.plan ds first rest).1 ++ (env.plan ds first rest).2).map Prod.fst).Nodup := by
  have hnodup : ((sorted env.order ds).map Prod.fst).Nodup := nodup_sorted
  rw [hsort, List.map_cons, List.nodup_cons] at hnodup
  exact plan_perm.nodup_iff.mpr hnodup.2

theorem ReplayClear.exists_home (h : ReplayClear env ds first rest)
    (hsort : sorted env.order ds = first :: rest) {c : CommitId} {t : TagContents BranchName}
    (ht : ds.tags.lookup c = some t) : ∃ r, Home c t r ds := by
  have hmem : c ∈ (sorted env.order ds).map Prod.fst :=
    mem_sorted.mpr (AList.lookup_isSome.mp (by simp [ht]))
  obtain ⟨e, he, rfl⟩ := List.mem_map.mp hmem
  obtain ⟨r, hr⟩ := Option.isSome_iff_exists.mp (h.resolved e (hsort ▸ he))
  obtain ⟨t', hhome⟩ := Dataset.exists_home hr
  obtain rfl : t' = t := Option.some.inj (hhome.1.symm.trans ht)
  exact ⟨r, hhome⟩

theorem ReadyToMove.movable (h : ReadyToMove env ds Rel first rest s)
    (hsort : sorted env.order ds = first :: rest) :
    env.Movable s ((env.plan ds first rest).1 ++ (env.plan ds first rest).2) := by
  intro e he
  obtain ⟨r, hr, -⟩ := h.rows e he
  refine ⟨?_, by simp [hr]⟩
  rw [h.replayed.tags, ← mem_sorted, hsort, List.map_cons]
  exact List.mem_cons_of_mem _ (plan_perm.mem_iff.mp (List.mem_map_of_mem he))

/-- The moves of a compaction, all of them to versions that the replay made. -/
def movesOf (env : RetagEnv ρ) (ds : LanceDataset ρ) (first : CommitId × ℕ)
    (rest : List (CommitId × ℕ)) : List (CommitId × ℕ) :=
  env.moves ds (env.plan ds first rest).1 (env.plan ds first rest).2

theorem movesOf_sublist :
    (env.movesOf ds first rest).Sublist
      ((env.plan ds first rest).1 ++ (env.plan ds first rest).2) :=
  (List.Sublist.refl _).append List.filter_sublist

/-- The commits whose tags a compaction moves: those off the boundary positions, and later
boundaries on older rebuild branches. -/
def Moves (env : RetagEnv ρ) (ds : LanceDataset ρ) (first c : CommitId) : Prop :=
  ∃ t, ds.tags.lookup c = some t ∧
    (¬ AtBoundary env.order ds c ∨ (c ≠ first ∧ env.onOlderRebuild t.branch))

theorem mem_rest (hsort : sorted env.order ds = first :: rest) {c : CommitId} :
    c ∈ rest.map Prod.fst ↔ c ∈ ds.tags ∧ c ≠ first.1 := by
  have hnodup : ((sorted env.order ds).map Prod.fst).Nodup := nodup_sorted
  rw [hsort, List.map_cons, List.nodup_cons] at hnodup
  rw [← mem_sorted, hsort, List.map_cons, List.mem_cons]
  constructor
  · intro h
    exact ⟨.inr h, fun e => hnodup.1 (e ▸ h)⟩
  · rintro ⟨h, hne⟩
    exact h.resolve_left hne

theorem mem_bounds (hsort : sorted env.order ds = first :: rest) (hlen : 1 < rest.length)
    {c : CommitId} :
    c ∈ (env.plan ds first rest).2.map Prod.fst ↔
      c ∈ ds.tags ∧ c ≠ first.1 ∧ AtBoundary env.order ds c := by
  have hsplit : c ∈ ((env.plan ds first rest).1 ++ (env.plan ds first rest).2).map Prod.fst ↔
      c ∈ rest.map Prod.fst := plan_perm.mem_iff
  rw [List.map_append, List.mem_append, mem_rest hsort, mem_plan hsort hlen] at hsplit
  have hnodup : (((env.plan ds first rest).1 ++ (env.plan ds first rest).2).map
      Prod.fst).Nodup := nodup_plan hsort
  rw [List.map_append, List.nodup_append'] at hnodup
  constructor
  · intro h
    obtain ⟨hmem, hne⟩ := hsplit.mp (.inr h)
    refine ⟨hmem, hne, ?_⟩
    by_contra hnot
    exact hnodup.2.2 ((mem_plan hsort hlen).mpr ⟨hmem, hnot⟩) h
  · rintro ⟨hmem, hne, hb⟩
    exact (hsplit.mpr ⟨hmem, hne⟩).resolve_left fun h => h.2 hb

theorem mem_movesOf (hsort : sorted env.order ds = first :: rest) (hlen : 1 < rest.length)
    {c : CommitId} :
    c ∈ (env.movesOf ds first rest).map Prod.fst ↔ env.Moves ds first.1 c := by
  have hfilter : c ∈ ((env.plan ds first rest).2.filter (env.older ds)).map Prod.fst ↔
      c ∈ (env.plan ds first rest).2.map Prod.fst ∧
        (ds.tags.lookup c).any fun t => env.onOlderRebuild t.branch := by
    simp only [List.mem_map, List.mem_filter, older]
    constructor
    · rintro ⟨e, ⟨he, hold⟩, rfl⟩
      exact ⟨⟨e, he, rfl⟩, hold⟩
    · rintro ⟨⟨e, he, rfl⟩, hold⟩
      exact ⟨e, ⟨he, hold⟩, rfl⟩
  rw [movesOf, moves, List.map_append, List.mem_append, hfilter, mem_plan hsort hlen,
    mem_bounds hsort hlen, Moves, ← AList.lookup_isSome]
  cases hl : ds.tags.lookup c with
  | none => simp
  | some t =>
    simp only [Option.isSome_some, true_and, Option.any_some, Option.some.injEq,
      exists_eq_left']
    tauto

theorem nodup_movesOf (hsort : sorted env.order ds = first :: rest) :
    ((env.movesOf ds first rest).map Prod.fst).Nodup :=
  (nodup_plan hsort).sublist (movesOf_sublist.map _)

theorem ReadyToMove.moves_eq (h : ReadyToMove env ds Rel first rest s) :
    env.moves s (env.plan ds first rest).1 (env.plan ds first rest).2 =
      env.movesOf ds first rest := by
  have hold : env.older s = env.older ds := by
    funext e
    simp only [older, h.replayed.tags]
  simp only [movesOf, moves, hold]

theorem lookup_movedAll_of_mem {es : List (CommitId × ℕ)} (hnodup : (es.map Prod.fst).Nodup)
    {e : CommitId × ℕ} (he : e ∈ es) (s : LanceDataset ρ) :
    ∃ n < es.length, (env.movedAll s es).tags.lookup e.1 =
      some ⟨some env.rebuildBranch, e.2, s.clock + n⟩ := by
  obtain ⟨pre, post, rfl⟩ := List.append_of_mem he
  rw [List.map_append, List.map_cons] at hnodup
  have hpost : e.1 ∉ post.map Prod.fst :=
    (List.nodup_cons.mp (List.nodup_append'.mp hnodup).2.1).1
  exact ⟨pre.length, by simp, lookup_movedAll_append hpost⟩

/-- A commit that is not among the moved ones stays where it was. -/
theorem ReadyToMove.home_of_notMem (h : ReadyToMove env ds Rel first rest s)
    (hfresh : env.FreshEpoch ds) {es : List (CommitId × ℕ)} {c : CommitId}
    {t : TagContents BranchName} {r : List ρ} (hc : c ∉ es.map Prod.fst) (hhome : Home c t r ds) :
    Home c t r (env.movedAll s es) := by
  refine ⟨?_, ?_⟩
  · rw [lookup_movedAll_of_notMem hc, h.replayed.tags, hhome.1]
  · rw [movedAll_rowsAt, h.replayed.rowsAt (hfresh c t hhome.1), hhome.2]

/-- A moved commit is at its replayed version on the rebuild branch. -/
theorem ReadyToMove.home_of_mem (h : ReadyToMove env ds Rel first rest s)
    (hsort : sorted env.order ds = first :: rest) {es : List (CommitId × ℕ)}
    (hes : es <+: env.movesOf ds first rest) {c : CommitId} (hc : c ∈ es.map Prod.fst) :
    ∃ t r, Home c t r (env.movedAll s es) ∧ t.branch = some env.rebuildBranch ∧ Rel c r := by
  obtain ⟨e, he, rfl⟩ := List.mem_map.mp hc
  have hnodup : (es.map Prod.fst).Nodup :=
    (nodup_movesOf hsort).sublist (hes.sublist.map Prod.fst)
  obtain ⟨n, -, hn⟩ := lookup_movedAll_of_mem hnodup he s
  obtain ⟨r, hr, hrel⟩ := h.rows e (movesOf_sublist.subset (hes.subset he))
  exact ⟨_, r, ⟨hn, by simpa using hr⟩, rfl, hrel⟩

/-- Phase 2 from a completed replay: the moves stop, or all are done and the sweep follows. -/
theorem phase2_spec {Q E : LanceDataset ρ → Prop} {T : RetagOp → LanceDataset ρ → Prop}
    (h : ReadyToMove env ds Rel first rest s) (hsort : sorted env.order ds = first :: rest)
    (hstop : ∀ s', env.MovesStopped s (env.plan ds first rest).1 (env.plan ds first rest).2 s' →
      E s')
    (hmid : ∀ op s', env.MidMove s (env.plan ds first rest).1 (env.plan ds first rest).2 s' →
      T op s')
    (hsweep : env.MovesClear s (env.plan ds first rest).1 (env.plan ds first rest).2 →
      Spec (fun s' => s' = env.movedAll s (env.movesOf ds first rest)) env.sweep (fun _ => Q)
        (fun _ => E) T) :
    Spec (fun s' => s' = s) (env.phase2 (env.plan ds first rest).1 (env.plan ds first rest).2)
      (fun _ => Q) (fun _ => E) T := by
  rw [phase2_eq]
  refine Spec.bind ((moveTags_spec (h.movable hsort) (nodup_plan hsort)).weaken (fun _ hs => hs)
    (fun _ _ hs => hs) (fun _ s' hs => hstop s' hs) (fun op s' hs => hmid op s' hs))
    fun _ => Spec.of_and fun hclear => ?_
  rw [h.moves_eq]
  exact hsweep hclear

end Ready

section Walk

theorem walks_applyDelta (c : CommitId) (ws : List (BranchWrite ρ)) (phase : ℕ) :
    Walks Dataset.Step (env.applyDelta c phase ws) := by
  induction ws generalizing phase with
  | nil => exact Walks.pure ()
  | cons w ws ih => exact Walks.bind (env.walks_writes fun _ _ h => .commit h) fun _ => ih _

theorem walks_phase1 (bs : List ℕ) (rest : List (CommitId × ℕ)) (prev : CommitId) (i : ℕ) :
    Walks Dataset.Step (env.phase1 bs prev i rest) := by
  induction rest generalizing prev i with
  | nil => exact Walks.pure _
  | cons e rest ih =>
    refine Walks.bind (Walks.look _) fun delta => Walks.bind (walks_applyDelta _ _ _) fun _ =>
      Walks.bind (Walks.look _) fun v => Walks.ite ?_ ?_
    · exact Walks.bind (ih _ _) fun _ => Walks.pure _
    · exact Walks.bind (env.walks_writes fun _ _ h => .touch h) fun _ =>
        Walks.bind (Walks.look _) fun _ => Walks.bind (ih _ _) fun _ => Walks.pure _

theorem walks_moveTag (context : String) (e : CommitId × ℕ) :
    Walks Dataset.Step (env.moveTag context e) :=
  Walks.bind (env.walks_reads _) fun _ =>
    Walks.bind (Walks.attempt (env.walks_writes fun _ _ h => .deleteTag h)) fun _ =>
      env.walks_writes fun _ _ h => .createTag h

theorem walks_moveTags (plan bounds : List (CommitId × ℕ)) :
    Walks Dataset.Step (env.moveTags plan bounds) := by
  refine Walks.bind (Walks.forEach (fun e => walks_moveTag _ e) plan) fun _ =>
    Walks.bind (Walks.forEach (fun e => ?_) bounds) fun _ => Walks.pure ()
  exact Walks.bind (env.walks_reads _) fun _ => Walks.ite (walks_moveTag _ e) (Walks.pure ())

theorem walks_sweep : Walks Dataset.Step env.sweep := by
  have hdrop (op : RetagOp) (b : BranchName) : Walks Dataset.Step (attempt
      (env.writes op "" fun ds => ds.deleteBranch b) : Retag ρ (Except StoreError Unit)) :=
    Walks.attempt (env.walks_writes fun _ _ h => .deleteBranch h)
  refine Walks.bind (Walks.bind (env.walks_reads _) fun _ => Walks.bind (Walks.forEach (fun b =>
    Walks.bind (env.walks_reads _) fun _ => Walks.bind (hdrop _ b) fun _ => Walks.pure ()) _)
    fun _ => Walks.pure ()) fun _ => Walks.bind (Walks.attempt ?_) fun _ => env.walks_reads _
  refine Walks.bind (env.walks_reads _) fun all => Walks.bind (env.walks_reads _) fun orphaned =>
    Walks.bind ?_ fun purgedTags => Walks.bind (env.walks_reads _) fun refs =>
      Walks.bind (Walks.forEach (fun b => ?_) _) fun purgedBranches => Walks.ite ?_ (Walks.pure ())
  · exact Walks.ite (Walks.pure []) (Walks.bind (env.walks_reads _) fun _ =>
      Walks.forEach (fun x => Walks.bind (Walks.attempt (env.walks_writes fun _ _ h =>
        .deleteTag h)) fun _ => Walks.pure _) _)
  · exact Walks.bind (env.walks_reads _) fun _ => Walks.bind (hdrop _ b) fun _ => Walks.pure _
  · refine Walks.bind (Walks.attempt (env.walks_writes fun s t h => ?_)) fun _ => Walks.pure ()
    obtain rfl := Except.ok.inj h
    exact .cleanup

theorem walks_retagSorted (first : CommitId × ℕ) (rest : List (CommitId × ℕ)) :
    Walks Dataset.Step (env.retagSorted first rest) := by
  refine Walks.bind (env.walks_writes fun _ _ h => .createBranch h) fun _ =>
    Walks.bind (env.walks_reads _) fun _ =>
      Walks.bind (Walks.attempt (walks_phase1 _ _ _ _)) fun res => ?_
  cases res with
  | error e =>
    refine Walks.bind ?_ fun _ => Walks.fail e
    exact Walks.bind (env.walks_reads _) fun _ => Walks.bind (Walks.attempt
      (env.walks_writes fun _ _ h => .deleteBranch h)) fun _ => Walks.pure ()
  | ok pb =>
    exact Walks.bind (Walks.bind (walks_moveTags _ _) fun _ => walks_sweep) fun _ => Walks.pure _

/-- A compaction is a walk of single operations on the dataset. -/
theorem walks_retag : Walks Dataset.Step env.retag := by
  refine Walks.bind (env.walks_reads _) fun commits => Walks.ite (Walks.pure _) ?_
  cases sortByVersion (env.order.run commits) with
  | nil => exact Walks.pure _
  | cons first rest => exact walks_retagSorted first rest

end Walk

/-- The dataset that a sequence of operations makes; the new one when one is refused. -/
def built (ops : Except RefError (LanceDataset ρ)) : LanceDataset ρ := ops.toOption.getD .create

theorem freshEpoch_of_entries (h : ∀ e ∈ ds.tags.entries, e.2.branch ≠ some env.rebuildBranch) :
    env.FreshEpoch ds := fun c t ht => h ⟨c, t⟩ (AList.mem_lookup_iff.mp ht)

end RetagEnv

end Vectorlink
