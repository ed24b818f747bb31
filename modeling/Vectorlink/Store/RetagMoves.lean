import Vectorlink.Store.RetagRun

/-! Phases 2 and 2b: how far the tags have moved when a compaction is stopped or observed. -/
namespace Vectorlink

open Stepwise Stepwise.Program Versioned

namespace RetagEnv

variable {ρ : Type} (env : RetagEnv ρ)

/-- The tag of `e` moved to its version on the rebuild branch. -/
def moved (s : LanceDataset ρ) (e : CommitId × ℕ) : LanceDataset ρ :=
  s.putTag e.1 (some env.rebuildBranch) e.2

def movedAll (s : LanceDataset ρ) (es : List (CommitId × ℕ)) : LanceDataset ρ :=
  es.foldl env.moved s

/-- The tags of `es` exist and so do the versions they are to be moved to. -/
def Movable (s : LanceDataset ρ) (es : List (CommitId × ℕ)) : Prop :=
  ∀ e ∈ es, e.1 ∈ s.tags ∧ (s.rowsAt (some env.rebuildBranch) e.2).isSome

/-- No call that moves the tag of `e` fails. -/
def MoveClear (e : CommitId × ℕ) : Prop :=
  env.fails (.openMain e.1) = false ∧ env.fails (.deleteTag e.1) = false ∧
    env.fails (.createTag e.1) = false

/-- A move of `e` stopped: either the old tag was not deleted, or no new one was made. -/
def MoveStopped (s₀ : LanceDataset ρ) (e : CommitId × ℕ) (s : LanceDataset ρ) : Prop :=
  (s = s₀ ∧ (env.fails (.openMain e.1) = true ∨ env.fails (.deleteTag e.1) = true)) ∨
    (s = s₀.dropTag e.1 ∧ env.fails (.createTag e.1) = true)

variable {env} {s₀ : LanceDataset ρ} {e : CommitId × ℕ} {es : List (CommitId × ℕ)}

@[simp] theorem moved_rowsAt (b : Option BranchName) (v : ℕ) :
    (env.moved s₀ e).rowsAt b v = s₀.rowsAt b v := Dataset.putTag_rowsAt ..

@[simp] theorem movedAll_rowsAt (b : Option BranchName) (v : ℕ) :
    (env.movedAll s₀ es).rowsAt b v = s₀.rowsAt b v := by
  induction es generalizing s₀ with
  | nil => rfl
  | cons e es ih => exact ih.trans (moved_rowsAt b v)

@[simp] theorem movedAll_branches : (env.movedAll s₀ es).branches = s₀.branches := by
  induction es generalizing s₀ with
  | nil => rfl
  | cons e es ih => exact ih

theorem movedAll_append (xs ys : List (CommitId × ℕ)) :
    env.movedAll s₀ (xs ++ ys) = env.movedAll (env.movedAll s₀ xs) ys := List.foldl_append

theorem lookup_moved (c : CommitId) : (env.moved s₀ e).tags.lookup c =
    if c = e.1 then some ⟨some env.rebuildBranch, e.2, s₀.clock⟩ else s₀.tags.lookup c :=
  Dataset.lookup_putTag ..

theorem lookup_movedAll_of_notMem {c : CommitId} (h : c ∉ es.map Prod.fst) :
    (env.movedAll s₀ es).tags.lookup c = s₀.tags.lookup c := by
  induction es generalizing s₀ with
  | nil => rfl
  | cons e es ih =>
    simp only [List.map_cons, List.mem_cons, not_or] at h
    exact (ih h.2).trans (by rw [lookup_moved, if_neg h.1])

theorem mem_tags_moved {c : CommitId} (h : c ∈ s₀.tags) : c ∈ (env.moved s₀ e).tags :=
  (AList.mem_insert _).mpr (.inr h)

theorem Movable.moved (h : env.Movable s₀ es) (e : CommitId × ℕ) :
    env.Movable (env.moved s₀ e) es := fun x hx =>
  ⟨mem_tags_moved (h x hx).1, by simpa using (h x hx).2⟩

theorem Movable.movedAll (h : env.Movable s₀ es) (xs : List (CommitId × ℕ)) :
    env.Movable (env.movedAll s₀ xs) es := by
  induction xs generalizing s₀ with
  | nil => exact h
  | cons x xs ih => exact ih (h.moved x)

/-- The tag of a moved commit: its version on the rebuild branch, stamped in the order of
the moves. -/
theorem lookup_movedAll_append {pre post : List (CommitId × ℕ)}
    (h : e.1 ∉ post.map Prod.fst) :
    (env.movedAll s₀ (pre ++ e :: post)).tags.lookup e.1 =
      some ⟨some env.rebuildBranch, e.2, s₀.clock + pre.length⟩ := by
  have hclock : ∀ xs : List (CommitId × ℕ), (env.movedAll s₀ xs).clock = s₀.clock + xs.length := by
    intro xs
    induction xs generalizing s₀ with
    | nil => rfl
    | cons x xs ih =>
      refine ih.trans ?_
      simp only [RetagEnv.moved, Dataset.putTag, List.length_cons]
      omega
  have hsplit : env.movedAll s₀ (pre ++ e :: post) =
      env.movedAll (env.moved (env.movedAll s₀ pre) e) post := by
    simp [RetagEnv.movedAll]
  rw [hsplit, lookup_movedAll_of_notMem h, lookup_moved, if_pos rfl, hclock]

theorem moveTag_spec (context : String) (hmem : e.1 ∈ s₀.tags)
    (hrows : (s₀.rowsAt (some env.rebuildBranch) e.2).isSome) :
    Spec (fun s => s = s₀) (env.moveTag context e)
      (fun _ s => s = env.moved s₀ e ∧ env.MoveClear e) (fun _ s => env.MoveStopped s₀ e s)
      (fun _ s => s = s₀.dropTag e.1 ∨ s = env.moved s₀ e) := by
  refine Spec.bind (R := fun _ s => s = s₀ ∧ env.fails (.openMain e.1) = false)
    (env.opens_spec (fun s hs hop => ⟨hs, hop⟩) (fun s hs hop => .inl ⟨hs, .inl hop⟩))
    fun _ => Spec.of_and fun hopen => ?_
  refine Spec.bind
    (R := fun _ s => (s = s₀.dropTag e.1 ∧ env.fails (.deleteTag e.1) = false) ∨
      (s = s₀ ∧ env.fails (.deleteTag e.1) = true))
    (env.softWrites_spec (fun s t hs hop hf => ?_) (fun s hs h => .inr ⟨hs, ?_⟩)) fun _ => ?_
  · subst hs
    obtain ⟨-, rfl⟩ := Dataset.deleteTag_ok.mp hf
    exact ⟨.inl rfl, .inl ⟨rfl, hop⟩⟩
  · subst hs
    rcases h with h | ⟨e', h⟩
    · exact h
    · rw [Dataset.deleteTag_ok.mpr ⟨hmem, rfl⟩] at h
      cases h
  · refine env.writes_spec (fun s t hs hop hf => ?_) (fun s hs h => ?_)
    · obtain ⟨hnot, -, rfl⟩ := Dataset.createTag_ok.mp hf
      rcases hs with ⟨rfl, hdel⟩ | ⟨rfl, -⟩
      · rw [Dataset.putTag_dropTag]
        exact ⟨.inr rfl, rfl, hopen, hdel, hop⟩
      · exact absurd hmem hnot
    · rcases hs with ⟨rfl, -⟩ | ⟨rfl, hdel⟩
      · rcases h with h | ⟨e', h⟩
        · exact .inr ⟨rfl, h⟩
        · have hnot : e.1 ∉ (s₀.dropTag e.1).tags := by simp [Dataset.dropTag]
          rw [Dataset.createTag_ok.mpr ⟨hnot, by simpa using hrows, rfl⟩] at h
          cases h
      · exact .inl ⟨rfl, .inr hdel⟩

/-- Phase 2 over a plan. -/
theorem retagCommits_spec (hmov : env.Movable s₀ es) :
    Spec (fun s => s = s₀) (forEach env.retagCommit es)
      (fun _ s => s = env.movedAll s₀ es ∧ ∀ e ∈ es, env.MoveClear e)
      (fun _ s => ∃ pre e post, es = pre ++ e :: post ∧
        env.MoveStopped (env.movedAll s₀ pre) e s)
      (fun _ s => ∃ pre e post, es = pre ++ e :: post ∧
        (s = (env.movedAll s₀ pre).dropTag e.1 ∨ s = env.movedAll s₀ (pre ++ [e]))) := by
  induction es generalizing s₀ with
  | nil => exact Spec.pure fun s hs => ⟨hs, by simp⟩
  | cons e es ih =>
    obtain ⟨hmem, hrows⟩ := hmov e List.mem_cons_self
    have hmov' : env.Movable (env.moved s₀ e) es :=
      Movable.moved (fun x hx => hmov x (List.mem_cons_of_mem _ hx)) e
    refine Spec.bind ((moveTag_spec _ hmem hrows).weaken (fun _ hs => hs) (fun _ _ h => h)
        (fun _ s h => ⟨[], e, es, rfl, h⟩) (fun _ s h => ⟨[], e, es, rfl, h⟩))
      fun _ => Spec.of_and fun hclear => ?_
    refine Spec.bind ((ih hmov').weaken (fun _ hs => hs) (fun _ _ h => h) (fun _ s => ?_)
      (fun _ s => ?_)) fun _ => Spec.pure fun s hs => ⟨hs.1, ?_⟩
    · rintro ⟨pre, e', post, rfl, h⟩
      exact ⟨e :: pre, e', post, rfl, h⟩
    · rintro ⟨pre, e', post, rfl, h⟩
      exact ⟨e :: pre, e', post, rfl, h⟩
    · intro x hx
      rcases List.mem_cons.mp hx with rfl | hx
      · exact hclear
      · exact hs.2 x hx

/-- Whether the tag of `e` is on a rebuild branch of an earlier compaction. -/
def older (env : RetagEnv ρ) (s : LanceDataset ρ) (e : CommitId × ℕ) : Bool :=
  (s.tags.lookup e.1).any fun t => env.onOlderRebuild t.branch

theorem older_movedAll {xs : List (CommitId × ℕ)} (h : e.1 ∉ xs.map Prod.fst) :
    env.older (env.movedAll s₀ xs) e = env.older s₀ e := by
  simp only [older, lookup_movedAll_of_notMem h]

/-- The state after Phase 2b has looked at `e`: moved when it was on an older branch. -/
def migrated (env : RetagEnv ρ) (s : LanceDataset ρ) (e : CommitId × ℕ) : LanceDataset ρ :=
  env.movedAll s ([e].filter (env.older s))

theorem older_migrated {x : CommitId × ℕ} (h : x.1 ≠ e.1) :
    env.older (env.migrated s₀ e) x = env.older s₀ x := by
  refine older_movedAll fun hin => ?_
  obtain ⟨y, hy, hyx⟩ := List.mem_map.mp hin
  rw [List.mem_singleton.mp (List.mem_of_mem_filter hy)] at hyx
  exact h hyx.symm

theorem movedAll_migrated {xs : List (CommitId × ℕ)} (h : ∀ x ∈ xs, x.1 ≠ e.1) :
    env.movedAll (env.migrated s₀ e) (xs.filter (env.older (env.migrated s₀ e))) =
      env.movedAll s₀ ((e :: xs).filter (env.older s₀)) := by
  have hfilter : xs.filter (env.older (env.migrated s₀ e)) = xs.filter (env.older s₀) :=
    List.filter_congr fun x hx => older_migrated (h x hx)
  rw [hfilter, migrated, ← movedAll_append, ← List.filter_append, List.singleton_append]

theorem migrateBoundary_spec (hmem : e.1 ∈ s₀.tags)
    (hrows : (s₀.rowsAt (some env.rebuildBranch) e.2).isSome) :
    Spec (fun s => s = s₀) (env.migrateBoundary e)
      (fun _ s => s = env.migrated s₀ e ∧ env.fails (.listTags e.1) = false ∧
        (env.older s₀ e → env.MoveClear e))
      (fun _ s => (s = s₀ ∧ env.fails (.listTags e.1) = true) ∨
        (env.older s₀ e ∧ env.MoveStopped s₀ e s))
      (fun _ s => env.older s₀ e ∧ (s = s₀.dropTag e.1 ∨ s = env.moved s₀ e)) := by
  refine Spec.bind
    (R := fun contents s => s = s₀ ∧ contents = s₀.tags.lookup e.1 ∧
      env.fails (.listTags e.1) = false)
    (env.reads_spec (fun s a hs hop hf => ?_) (fun s hs h => .inl ⟨hs, ?_⟩)) fun contents =>
      Spec.of_and ?_
  · subst hs
    exact ⟨rfl, (Except.ok.inj hf).symm, hop⟩
  · exact h.resolve_right (by simp)
  · rintro ⟨rfl, hlist⟩
    refine Spec.ite (fun hold => ?_) (fun hold => Spec.pure fun s hs => ⟨?_, hlist, ?_⟩)
    · have hold' : env.older s₀ e := hold
      refine (moveTag_spec _ hmem hrows).weaken (fun _ hs => hs)
        (fun _ s h => ⟨?_, hlist, fun _ => h.2⟩) (fun _ s h => .inr ⟨hold', h⟩)
        (fun _ s h => ⟨hold', h⟩)
      rw [h.1]
      simp [migrated, hold', RetagEnv.movedAll]
    · have hold' : env.older s₀ e = false := Bool.eq_false_iff.mpr hold
      rw [hs]
      simp [migrated, hold', RetagEnv.movedAll]
    · exact fun h => absurd h hold

/-- Phase 2b over the boundary commits. -/
theorem migrateBoundaries_spec (hmov : env.Movable s₀ es) (hnodup : (es.map Prod.fst).Nodup) :
    Spec (fun s => s = s₀) (forEach env.migrateBoundary es)
      (fun _ s => s = env.movedAll s₀ (es.filter (env.older s₀)) ∧
        (∀ e ∈ es, env.fails (.listTags e.1) = false) ∧
        ∀ e ∈ es.filter (env.older s₀), env.MoveClear e)
      (fun _ s => ∃ pre e post, es = pre ++ e :: post ∧
        ((s = env.movedAll s₀ (pre.filter (env.older s₀)) ∧ env.fails (.listTags e.1) = true) ∨
          (env.older s₀ e ∧ env.MoveStopped (env.movedAll s₀ (pre.filter (env.older s₀))) e s)))
      (fun _ s => ∃ pre e post, es = pre ++ e :: post ∧ env.older s₀ e ∧
        (s = (env.movedAll s₀ (pre.filter (env.older s₀))).dropTag e.1 ∨
          s = env.moved (env.movedAll s₀ (pre.filter (env.older s₀))) e)) := by
  induction es generalizing s₀ with
  | nil => exact Spec.pure fun s hs => ⟨hs, by simp, by simp⟩
  | cons e es ih =>
    obtain ⟨hmem, hrows⟩ := hmov e List.mem_cons_self
    rw [List.map_cons, List.nodup_cons] at hnodup
    have hne : ∀ x ∈ es, x.1 ≠ e.1 := fun x hx h => hnodup.1 (h ▸ List.mem_map_of_mem hx)
    have hmov' : env.Movable (env.migrated s₀ e) es :=
      Movable.movedAll (fun x hx => hmov x (List.mem_cons_of_mem _ hx)) _
    refine Spec.bind ((migrateBoundary_spec hmem hrows).weaken (fun _ hs => hs) (fun _ _ h => h)
        (fun _ s h => ⟨[], e, es, rfl, h⟩) (fun _ s h => ⟨[], e, es, rfl, h⟩))
      fun _ => Spec.of_and fun hclear => ?_
    refine Spec.bind ((ih hmov' hnodup.2).weaken (fun _ hs => hs) (fun _ _ h => h)
      (fun _ s => ?_) (fun _ s => ?_)) fun _ => Spec.pure fun s hs => ?_
    · rintro ⟨pre, x, post, hes, h⟩
      have hpre : ∀ y ∈ pre, y.1 ≠ e.1 := fun y hy => hne y (by simp [hes, hy])
      rw [movedAll_migrated hpre, older_migrated (hne x (by simp [hes]))] at h
      exact ⟨e :: pre, x, post, by rw [hes]; rfl, h⟩
    · rintro ⟨pre, x, post, hes, h⟩
      have hpre : ∀ y ∈ pre, y.1 ≠ e.1 := fun y hy => hne y (by simp [hes, hy])
      rw [movedAll_migrated hpre, older_migrated (hne x (by simp [hes]))] at h
      exact ⟨e :: pre, x, post, by rw [hes]; rfl, h⟩
    · obtain ⟨hs, hlist, hmoves⟩ := hs
      rw [movedAll_migrated hne] at hs
      refine ⟨hs, ?_, fun x hx => ?_⟩
      · intro x hx
        rcases List.mem_cons.mp hx with rfl | hx
        · exact hclear.1
        · exact hlist x hx
      · obtain ⟨hx, hold⟩ := List.mem_filter.mp hx
        rcases List.mem_cons.mp hx with rfl | hx
        · exact hclear.2 hold
        · exact hmoves x (List.mem_filter.mpr ⟨hx, (older_migrated (hne x hx)).trans hold⟩)

section MoveTags

variable (env)

/-- All moves of Phases 2 and 2b, in order. -/
def moves (s : LanceDataset ρ) (plan bounds : List (CommitId × ℕ)) : List (CommitId × ℕ) :=
  plan ++ bounds.filter (env.older s)

/-- The tags stopped moving: between two moves, or after a delete whose create failed. -/
def MovesStopped (s₀ : LanceDataset ρ) (plan bounds : List (CommitId × ℕ))
    (s : LanceDataset ρ) : Prop :=
  (∃ pre, pre <+: env.moves s₀ plan bounds ∧ s = env.movedAll s₀ pre ∧
    ((∃ e ∈ env.moves s₀ plan bounds,
      env.fails (.openMain e.1) = true ∨ env.fails (.deleteTag e.1) = true) ∨
      ∃ e ∈ bounds, env.fails (.listTags e.1) = true)) ∨
  ∃ pre e, pre ++ [e] <+: env.moves s₀ plan bounds ∧
    s = (env.movedAll s₀ pre).dropTag e.1 ∧ env.fails (.createTag e.1) = true

/-- No call of Phases 2 and 2b fails. -/
def MovesClear (s₀ : LanceDataset ρ) (plan bounds : List (CommitId × ℕ)) : Prop :=
  (∀ e ∈ env.moves s₀ plan bounds, env.MoveClear e) ∧
    ∀ e ∈ bounds, env.fails (.listTags e.1) = false

/-- A state seen while the tags move: one tag is missing, or some have moved. -/
def MidMove (s₀ : LanceDataset ρ) (plan bounds : List (CommitId × ℕ))
    (s : LanceDataset ρ) : Prop :=
  ∃ pre e, pre ++ [e] <+: env.moves s₀ plan bounds ∧
    (s = (env.movedAll s₀ pre).dropTag e.1 ∨ s = env.movedAll s₀ (pre ++ [e]))

end MoveTags

theorem MovesStopped.of_moveStopped {plan bounds pre post : List (CommitId × ℕ)}
    {s : LanceDataset ρ} (hmoves : env.moves s₀ plan bounds = pre ++ e :: post)
    (h : env.MoveStopped (env.movedAll s₀ pre) e s) : env.MovesStopped s₀ plan bounds s := by
  rcases h with ⟨rfl, hop⟩ | ⟨rfl, hop⟩
  · refine .inl ⟨pre, ⟨e :: post, hmoves.symm⟩, rfl, .inl ⟨e, ?_, hop⟩⟩
    simp [hmoves]
  · exact .inr ⟨pre, e, ⟨post, by simp [hmoves]⟩, rfl, hop⟩

theorem moveTags_spec {plan bounds : List (CommitId × ℕ)}
    (hmov : env.Movable s₀ (plan ++ bounds)) (hnodup : ((plan ++ bounds).map Prod.fst).Nodup) :
    Spec (fun s => s = s₀) (env.moveTags plan bounds)
      (fun _ s => s = env.movedAll s₀ (env.moves s₀ plan bounds) ∧ env.MovesClear s₀ plan bounds)
      (fun _ s => env.MovesStopped s₀ plan bounds s)
      (fun _ s => env.MidMove s₀ plan bounds s) := by
  rw [List.map_append, List.nodup_append'] at hnodup
  obtain ⟨-, hnodup, hdisj⟩ := hnodup
  have hplan : env.Movable s₀ plan := fun e he => hmov e (List.mem_append_left _ he)
  have hbounds : env.Movable (env.movedAll s₀ plan) bounds :=
    Movable.movedAll (fun e he => hmov e (List.mem_append_right _ he)) plan
  have hold : ∀ e ∈ bounds, env.older (env.movedAll s₀ plan) e = env.older s₀ e :=
    fun e he => older_movedAll fun hin => hdisj hin (List.mem_map_of_mem he)
  have hfilter : ∀ xs : List (CommitId × ℕ), (∀ x ∈ xs, x ∈ bounds) →
      xs.filter (env.older (env.movedAll s₀ plan)) = xs.filter (env.older s₀) :=
    fun xs hxs => List.filter_congr fun x hx => hold x (hxs x hx)
  refine Spec.bind ((retagCommits_spec hplan).weaken (fun _ hs => hs) (fun _ _ h => h)
    (fun _ s => ?_) (fun _ s => ?_)) fun _ => Spec.of_and fun hclear => ?_
  · rintro ⟨pre, e, post, hes, h⟩
    have hmoves : env.moves s₀ plan bounds =
        pre ++ e :: (post ++ bounds.filter (env.older s₀)) := by simp [moves, hes]
    exact .of_moveStopped hmoves h
  · rintro ⟨pre, e, post, hes, h⟩
    exact ⟨pre, e, ⟨post ++ bounds.filter (env.older s₀), by simp [moves, hes]⟩, h⟩
  refine Spec.bind ((migrateBoundaries_spec hbounds hnodup).weaken (fun _ hs => hs)
    (fun _ _ h => h) (fun _ s => ?_) (fun _ s => ?_)) fun _ => Spec.pure fun s hs => ?_
  · rintro ⟨pre, e, post, hes, h⟩
    have hpre : ∀ x ∈ pre, x ∈ bounds := fun x hx => by simp [hes, hx]
    rw [hold e (by simp [hes]), hfilter pre hpre, ← movedAll_append] at h
    rcases h with ⟨rfl, hop⟩ | ⟨hold, h⟩
    · refine .inl ⟨_, ?_, rfl, .inr ⟨e, by simp [hes], hop⟩⟩
      exact ⟨(e :: post).filter (env.older s₀), by simp [moves, hes, List.filter_append]⟩
    · have hmoves : env.moves s₀ plan bounds =
          plan ++ pre.filter (env.older s₀) ++ e :: post.filter (env.older s₀) := by
        simp [moves, hes, List.filter_append, hold]
      exact .of_moveStopped hmoves h
  · rintro ⟨pre, e, post, hes, hold', h⟩
    have hpre : ∀ x ∈ pre, x ∈ bounds := fun x hx => by simp [hes, hx]
    rw [hold e (by simp [hes])] at hold'
    rw [hfilter pre hpre, ← movedAll_append] at h
    refine ⟨plan ++ pre.filter (env.older s₀), e, ⟨post.filter (env.older s₀), ?_⟩, ?_⟩
    · simp [moves, hes, List.filter_append, hold']
    · rwa [movedAll_append _ [e]]
  · obtain ⟨hs, hlist, hmoves⟩ := hs
    rw [hfilter bounds fun _ h => h] at hs hmoves
    refine ⟨hs.trans (movedAll_append _ _).symm, fun x hx => ?_, hlist⟩
    rcases List.mem_append.mp hx with hx | hx
    · exact hclear x hx
    · exact hmoves x hx

end RetagEnv

end Vectorlink
