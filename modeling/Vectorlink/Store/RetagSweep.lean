import Vectorlink.Store.RetagMoves

/-! What follows the moves: older rebuild branches are deleted, orphaned tags and stale
branches purged. -/
namespace Vectorlink

open Stepwise Stepwise.Program Versioned Dataset

namespace RetagEnv

variable {ρ : Type} (env : RetagEnv ρ)

/-- The part of a compaction after the moves. -/
def sweep : Retag ρ Unit := do
  env.deleteOlderRebuilds
  let _ ← attempt env.ioCleanupOrphanedTagsAndStaleBranches
  env.opens .refresh

theorem phase2_eq (plan bounds : List (CommitId × ℕ)) :
    env.phase2 plan bounds = (do env.moveTags plan bounds; env.sweep) := rfl

section Rules

variable {I : LanceDataset ρ → Prop} (SafeTag : CommitId → Prop) (SafeBranch : BranchName → Prop)

theorem preserves_deleteBranch {op : RetagOp} {b : BranchName}
    (h : ∀ s, I s → I (s.dropBranch b)) :
    Preserves I (attempt (env.writes op "" fun ds => ds.deleteBranch b) :
      Retag ρ (Except StoreError Unit)) := by
  refine Preserves.attempt (env.preserves_writes fun s s' hs hf => ?_)
  obtain ⟨-, rfl⟩ := deleteBranch_ok.mp hf
  exact h s hs

theorem preserves_purgeTags (htag : ∀ s x, SafeTag x → I s → I (s.dropTag x))
    {xs : List CommitId} (hxs : ∀ x ∈ xs, SafeTag x) : Preserves I (env.purgeTags xs) := by
  refine Spec.ite (fun _ => Preserves.pure _)
    (fun _ => Preserves.bind env.preserves_opens fun _ => ?_)
  refine (Spec.forEach (fun xs s => I s ∧ ∀ x ∈ xs, SafeTag x) (fun x xs => Spec.of_and fun hx => ?_)
    xs).weaken (fun s hs => ⟨hs, hxs⟩) (fun _ s hs => hs.1) (fun _ _ h => h) (fun _ _ h => h)
  refine Spec.bind (Preserves.attempt (env.preserves_writes fun s s' hs hf => ?_))
    fun _ => Spec.pure fun s hs => ⟨hs, fun y hy => hx y (List.mem_cons_of_mem _ hy)⟩
  obtain ⟨-, rfl⟩ := deleteTag_ok.mp hf
  exact htag s x (hx x List.mem_cons_self) hs

theorem preserves_purgeBranches (hbranch : ∀ s b, SafeBranch b → I s → I (s.dropBranch b))
    {bs : List BranchName} (hbs : ∀ b ∈ bs, SafeBranch b) :
    Preserves I (forEach env.purgeBranch bs) := by
  refine (Spec.forEach (fun bs s => I s ∧ ∀ b ∈ bs, SafeBranch b)
    (fun b bs => Spec.of_and fun hb => ?_) bs).weaken (fun s hs => ⟨hs, hbs⟩)
    (fun _ s hs => hs.1) (fun _ _ h => h) (fun _ _ h => h)
  exact Spec.bind env.preserves_opens fun _ => Spec.bind
    (env.preserves_deleteBranch fun s => hbranch s b (hb b List.mem_cons_self)) fun _ =>
      Spec.pure fun s hs => ⟨hs, fun x hx => hb x (List.mem_cons_of_mem _ hx)⟩

/-- The orphan cleanup preserves `I` when the tags and branches it may remove are safe. -/
theorem preserves_cleanupOrphaned
    (horphan : ∀ s x, I s → x ∈ orphanedTags s s.branches.keys → SafeTag x)
    (hstale : ∀ s b, I s → isCompactRebuildBranch b → b ∉ referencedBranches s → SafeBranch b)
    (htag : ∀ s x, SafeTag x → I s → I (s.dropTag x))
    (hbranch : ∀ s b, SafeBranch b → I s → I (s.dropBranch b)) (hclean : ∀ s, I s → I s.cleanup) :
    Preserves I env.ioCleanupOrphanedTagsAndStaleBranches := by
  -- nothing is written between the two listings, so both are of one state
  refine Spec.of_forall fun s₀ hs₀ => Spec.bind
    (R := fun all s => s = s₀ ∧ all = s₀.branches.keys)
    (env.reads_spec (fun s a hs _ hf => ?_) (fun s hs _ => hs ▸ hs₀))
    fun all => Spec.of_and ?_
  · subst hs
    exact ⟨rfl, (Except.ok.inj hf).symm⟩
  rintro rfl
  refine Spec.bind (R := fun orphaned s => I s ∧ ∀ x ∈ orphaned, SafeTag x)
    (env.reads_spec (fun s a hs _ hf => ?_) (fun s hs _ => hs ▸ hs₀))
    fun orphaned => Spec.of_and fun hsafe => ?_
  · subst hs
    obtain rfl := Except.ok.inj hf
    exact ⟨hs₀, fun x hx => horphan s x hs₀ hx⟩
  refine Spec.bind (env.preserves_purgeTags SafeTag htag hsafe) fun purgedTags => ?_
  refine Spec.bind
    (R := fun refs s => I s ∧ ∀ b, isCompactRebuildBranch b → b ∉ refs → SafeBranch b)
    (env.reads_spec (fun s a hs _ hf => ?_) (fun _ hs _ => hs))
    fun refs => Spec.of_and fun hrefs => ?_
  · obtain rfl := Except.ok.inj hf
    exact ⟨hs, fun b => hstale s b hs⟩
  refine Spec.bind (env.preserves_purgeBranches SafeBranch hbranch fun b hb => ?_) fun purgedBranches => ?_
  · have hb' := (List.mem_filter.mp hb).2
    simp only [Bool.and_eq_true, decide_eq_true_eq] at hb'
    exact hrefs b hb'.1 hb'.2
  refine Spec.ite (fun _ => Preserves.bind (Preserves.attempt (env.preserves_writes
    fun s s' hs hf => ?_)) fun _ => Preserves.pure _) (fun _ => Preserves.pure _)
  obtain rfl := Except.ok.inj hf
  exact hclean s hs

theorem preserves_deleteOlderRebuilds
    (hdel : ∀ s b, env.onOlderRebuild (some b) → I s → I (s.dropBranch b)) :
    Preserves I env.deleteOlderRebuilds := by
  refine Preserves.bind (Preserves.look _) fun all => Preserves.bind ?_ fun _ => Preserves.pure _
  refine (Spec.forEach (fun bs s => I s ∧ ∀ b ∈ bs, env.onOlderRebuild (some b))
    (fun b bs => Spec.of_and fun hb => ?_) _).weaken
    (fun s hs => ⟨hs, fun b hb => (List.mem_filter.mp hb).2⟩)
    (fun _ s hs => hs.1) (fun _ _ h => h) (fun _ _ h => h)
  exact Spec.bind env.preserves_opens fun _ => Spec.bind
    (env.preserves_deleteBranch fun s => hdel s b (hb b List.mem_cons_self)) fun _ =>
      Spec.pure fun s hs => ⟨hs, fun x hx => hb x (List.mem_cons_of_mem _ hx)⟩

theorem preserves_sweep
    (hdel : ∀ s b, env.onOlderRebuild (some b) → I s → I (s.dropBranch b))
    (horphan : ∀ s x, I s → x ∈ orphanedTags s s.branches.keys → SafeTag x)
    (hstale : ∀ s b, I s → isCompactRebuildBranch b → b ∉ referencedBranches s → SafeBranch b)
    (htag : ∀ s x, SafeTag x → I s → I (s.dropTag x))
    (hbranch : ∀ s b, SafeBranch b → I s → I (s.dropBranch b)) (hclean : ∀ s, I s → I s.cleanup) :
    Preserves I env.sweep :=
  Preserves.bind (env.preserves_deleteOlderRebuilds hdel) fun _ =>
    Preserves.bind (Preserves.attempt (env.preserves_cleanupOrphaned SafeTag SafeBranch horphan hstale htag hbranch
      hclean)) fun _ => env.preserves_opens

/-- The cleanup of a start preserves what no removal of a tag or a branch can break. -/
theorem ioCleanupCompactionBranches_of_drops (htag : ∀ s x, I s → I (s.dropTag x))
    (hbranch : ∀ s b, I s → I (s.dropBranch b)) (hclean : ∀ s, I s → I s.cleanup)
    {ds : LanceDataset ρ} (h : I ds) : I (env.ioCleanupCompactionBranches ds) := by
  have hcleanup : Preserves I env.ioCleanupOrphanedTagsAndStaleBranches :=
    env.preserves_cleanupOrphaned (fun _ => True) (fun _ => True) (fun _ _ _ _ => trivial)
      (fun _ _ _ _ _ => trivial) (fun s x _ => htag s x) (fun s b _ => hbranch s b) hclean
  exact hcleanup.final h

/-- The sweep preserves what no removal of a tag or a branch can break. -/
theorem preserves_sweep_of_drops (htag : ∀ s x, I s → I (s.dropTag x))
    (hbranch : ∀ s b, I s → I (s.dropBranch b)) (hclean : ∀ s, I s → I s.cleanup) :
    Preserves I env.sweep :=
  env.preserves_sweep (fun _ => True) (fun _ => True)
    (fun s b _ => hbranch s b) (fun _ _ _ _ => trivial) (fun _ _ _ _ _ => trivial)
    (fun s x _ => htag s x) (fun s b _ => hbranch s b) hclean

end Rules

section Home

variable {c : CommitId} {t : TagContents BranchName} {r : List ρ}

theorem lookup_of_mem_orphanedTags {s : LanceDataset ρ} {x : CommitId}
    (h : x ∈ orphanedTags s s.branches.keys) :
    ∃ t b, s.tags.lookup x = some t ∧ t.branch = some b ∧ b ∉ s.branches := by
  obtain ⟨⟨x, t⟩, he, rfl⟩ := List.mem_map.mp h
  obtain ⟨he, hany⟩ := List.mem_filter.mp he
  obtain ⟨b, hb, hnot⟩ := (Option.any_eq_true _ _).mp hany
  exact ⟨t, b, AList.mem_lookup_iff.mpr he, hb,
    fun hmem => (by simpa using hnot : b ∉ s.branches.keys) (AList.mem_keys.mp hmem)⟩

theorem mem_referencedBranches {s : LanceDataset ρ} (h : s.tags.lookup c = some t)
    {b : BranchName} (hb : t.branch = some b) : b ∈ referencedBranches s :=
  List.mem_filterMap.mpr ⟨⟨c, t⟩, AList.mem_lookup_iff.mp h, hb⟩

theorem Home.ne_of_mem_orphanedTags {s : LanceDataset ρ} (h : Home c t r s) {x : CommitId}
    (hx : x ∈ orphanedTags s s.branches.keys) : c ≠ x := by
  rintro rfl
  obtain ⟨t', b, ht', hb, hnot⟩ := lookup_of_mem_orphanedTags hx
  obtain rfl : t' = t := Option.some.inj (ht'.symm.trans h.1)
  exact hnot (h.mem_branches hb)

/-- The orphan cleanup keeps every commit that resolves. -/
theorem cleanupOrphaned_home :
    Preserves (Home c t r) env.ioCleanupOrphanedTagsAndStaleBranches :=
  env.preserves_cleanupOrphaned (fun x => c ≠ x) (fun b => t.branch ≠ some b)
    (fun _ _ hs hx => Home.ne_of_mem_orphanedTags hs hx)
    (fun _ _ hs _ hb ht => hb (mem_referencedBranches hs.1 ht)) (fun _ _ hx hs => hs.dropTag hx)
    (fun _ _ hb hs => hs.dropBranch hb) (fun _ hs => hs.cleanup)

/-- A commit whose tag is not on an older rebuild branch outlives the sweep. -/
theorem sweep_home (hold : env.onOlderRebuild t.branch = false) :
    Preserves (Home c t r) env.sweep := by
  refine Preserves.bind (env.preserves_deleteOlderRebuilds fun s b hb hs =>
    hs.dropBranch fun h => ?_) fun _ =>
    Preserves.bind (Preserves.attempt env.cleanupOrphaned_home) fun _ => env.preserves_opens
  rw [h, hb] at hold
  cases hold

end Home

end RetagEnv

end Vectorlink
