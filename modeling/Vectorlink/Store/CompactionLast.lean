import Vectorlink.Store.CompactionBranches
import Vectorlink.Store.LastIndexed

/-! Which commit a compaction leaves as the last indexed one of the default branch. -/
namespace Vectorlink

open Stepwise Stepwise.Program Versioned Dataset

variable {ρ : Type}

/-- Tags are stamped by a clock that has gone on since. -/
def Stamped (ds : LanceDataset ρ) : Prop :=
  ∀ c t, ds.tags.lookup c = some t → t.createdAt < ds.clock

theorem Stamped.putTag {ds : LanceDataset ρ} (h : Stamped ds) (c : CommitId)
    (b : Option BranchName) (v : ℕ) : Stamped (ds.putTag c b v) := by
  intro c' t ht
  have hclock : (ds.putTag c b v).clock = ds.clock + 1 := rfl
  rw [lookup_putTag] at ht
  rw [hclock]
  split at ht
  · obtain rfl := Option.some.inj ht
    exact Nat.lt_succ_self _
  · exact (h c' t ht).trans (Nat.lt_succ_self _)

theorem Stamped.congr {ds ds' : LanceDataset ρ} (h : Stamped ds) (htags : ds'.tags = ds.tags)
    (hclock : ds'.clock = ds.clock) : Stamped ds' := by
  intro c t ht
  rw [htags] at ht
  rw [hclock]
  exact h c t ht

theorem Stamped.of_lookup {ds ds' : LanceDataset ρ} (h : Stamped ds)
    (htags : ∀ c t, ds'.tags.lookup c = some t → ds.tags.lookup c = some t)
    (hclock : ds'.clock = ds.clock) : Stamped ds' := by
  intro c t ht
  rw [hclock]
  exact h c t (htags c t ht)

theorem Stamped.dropTag {ds : LanceDataset ρ} (h : Stamped ds) (c : CommitId) :
    Stamped (ds.dropTag c) := by
  refine h.of_lookup (fun c' t ht => ?_) rfl
  rw [lookup_dropTag] at ht
  split at ht
  · cases ht
  · exact ht

/-- No operation on a dataset stamps a tag with a time to come. -/
theorem Stamped.step {ds ds' : LanceDataset ρ} (h : Stamped ds) (hstep : Step ds ds') :
    Stamped ds' := by
  cases hstep with
  | commit hok =>
    obtain ⟨l, -, rfl⟩ := commit_ok.mp hok
    exact h.congr (setLineage_tags ..) (setLineage_clock ..)
  | touch hok =>
    obtain ⟨l, -, rfl⟩ := touch_ok.mp hok
    exact h.congr (setLineage_tags ..) (setLineage_clock ..)
  | createTag hok =>
    obtain ⟨-, -, rfl⟩ := createTag_ok.mp hok
    exact h.putTag _ _ _
  | deleteTag hok =>
    obtain ⟨-, rfl⟩ := deleteTag_ok.mp hok
    exact h.dropTag _
  | createBranch hok =>
    obtain ⟨-, r, -, rfl⟩ := createBranch_ok.mp hok
    exact h.congr rfl rfl
  | deleteBranch hok =>
    obtain ⟨-, rfl⟩ := deleteBranch_ok.mp hok
    exact h.congr rfl rfl
  | cleanup => exact h.congr rfl rfl

namespace RetagEnv

variable {env : RetagEnv ρ} {ds s : LanceDataset ρ} {c : CommitId} {first : CommitId × ℕ}
  {rest : List (CommitId × ℕ)}

/-- The planned moves leave the tag of `c` the latest of the default branch, and not on a
branch that is about to be deleted. -/
def KeepsLatest (env : RetagEnv ρ) (ds : LanceDataset ρ) (c : CommitId) : Prop :=
  ∀ first rest, sorted env.order ds = first :: rest → 1 < rest.length →
    ∃ t, IsLatest (env.movedAll ds (env.movesOf ds first rest)) mainBranch c t ∧
      env.onOlderRebuild t.branch = false

theorem movedAll_tags_congr {s₁ s₂ : LanceDataset ρ} (htags : s₁.tags = s₂.tags)
    (hclock : s₁.clock = s₂.clock) (es : List (CommitId × ℕ)) :
    (env.movedAll s₁ es).tags = (env.movedAll s₂ es).tags ∧
      (env.movedAll s₁ es).clock = (env.movedAll s₂ es).clock := by
  induction es generalizing s₁ s₂ with
  | nil => exact ⟨htags, hclock⟩
  | cons e es ih =>
    apply ih
    · simp only [moved, putTag, htags, hclock]
    · simp only [moved, putTag, hclock]

theorem stamped_movedAll (h : Stamped ds) (es : List (CommitId × ℕ)) :
    Stamped (env.movedAll ds es) := by
  induction es generalizing ds with
  | nil => exact h
  | cons e es ih => exact ih (h.putTag _ _ _)

theorem sweep_stamped : Preserves Stamped env.sweep := by
  exact env.preserves_sweep_of_drops (fun s c hs => hs.dropTag c) (fun s b hs => hs)
    fun s hs => hs

/-- What the compaction leaves of the latest commit. -/
def StillLatest (c : CommitId) (s : LanceDataset ρ) : Prop :=
  (∃ t, IsLatest s mainBranch c t) ∧ Stamped s

/-- Every commit resolves after the moves. -/
theorem ReadyToMove.home_of_lookup {Rel : CommitId → List ρ → Prop}
    (h : ReadyToMove env ds Rel first rest s) (hfresh : env.FreshEpoch ds)
    (hsort : sorted env.order ds = first :: rest) {t : TagContents BranchName}
    (ht : (env.movedAll s (env.movesOf ds first rest)).tags.lookup c = some t) :
    ∃ r, Home c t r (env.movedAll s (env.movesOf ds first rest)) := by
  by_cases hmem : c ∈ (env.movesOf ds first rest).map Prod.fst
  · obtain ⟨t', r, hhome, -⟩ := h.home_of_mem hsort (List.prefix_refl _) hmem
    obtain rfl : t' = t := Option.some.inj (hhome.1.symm.trans ht)
    exact ⟨r, hhome⟩
  · rw [lookup_movedAll_of_notMem hmem, h.replayed.tags] at ht
    obtain ⟨r, hhome⟩ := h.clear.exists_home hsort ht
    exact ⟨r, h.home_of_notMem hfresh hmem hhome⟩

theorem sweep_stillLatest {Rel : CommitId → List ρ → Prop}
    (h : ReadyToMove env ds Rel first rest s) (hfresh : env.FreshEpoch ds)
    (hsort : sorted env.order ds = first :: rest) (hstamped : Stamped ds)
    {t : TagContents BranchName}
    (hlatest : IsLatest (env.movedAll ds (env.movesOf ds first rest)) mainBranch c t)
    (hold : env.onOlderRebuild t.branch = false) :
    Spec (fun s' => s' = env.movedAll s (env.movesOf ds first rest)) env.sweep
      (fun _ => StillLatest c) (fun _ _ => True) (fun _ _ => True) := by
  have hmoved : (env.movedAll s (env.movesOf ds first rest)).tags =
        (env.movedAll ds (env.movesOf ds first rest)).tags ∧
      (env.movedAll s (env.movesOf ds first rest)).clock =
        (env.movedAll ds (env.movesOf ds first rest)).clock :=
    movedAll_tags_congr h.replayed.tags h.replayed.clock _
  have hlatest' := hlatest.congr hmoved.1
  have hstamped₀ : Stamped (env.movedAll ds (env.movesOf ds first rest)) :=
    stamped_movedAll hstamped _
  have hstamped' := hstamped₀.congr hmoved.1 hmoved.2
  obtain ⟨r, hhome⟩ := h.home_of_lookup hfresh hsort hlatest'.1
  have hsweep : Preserves (fun s' => ∀ c t, s'.tags.lookup c = some t →
      (env.movedAll s (env.movesOf ds first rest)).tags.lookup c = some t) env.sweep := sweep_tags _
  have hspec := (((env.sweep_home hold).pre fun s' (hs : s' = _) => hs ▸ hhome).and
    (hsweep.pre fun s' (hs : s' = _) => hs ▸ fun _ _ h => h)).and
    (sweep_stamped.pre fun s' (hs : s' = _) => hs ▸ hstamped')
  refine hspec.weaken (fun _ hs => hs) (fun _ s' hs => ?_) (fun _ _ _ => trivial)
    (fun _ _ _ => trivial)
  exact ⟨⟨t, hlatest'.of_sub hs.1.1.1 hs.1.2⟩, hs.2⟩

/-- A compaction whose plan keeps the latest commit the latest does so. -/
theorem retag_stillLatest (hfresh : env.FreshEpoch ds) (hstamped : Stamped ds)
    {t : TagContents BranchName} (hlatest : IsLatest ds mainBranch c t)
    (hkeep : env.KeepsLatest ds c) {n : ℕ × ℕ} (hok : (env.retag ds).result = .ok n) :
    StillLatest c (env.retag ds).store := by
  refine Spec.result_ok (Q := fun _ => StillLatest c) (E := fun _ _ => True)
    (T := fun _ _ => True) ?_ (P := fun s => s = ds) rfl hok
  refine retag_spec (fun _ => trivial) (fun _ _ => ⟨⟨t, hlatest⟩, hstamped⟩)
    fun _ first rest hsort hlen => ?_
  obtain ⟨t', hlatest', hold⟩ := hkeep first rest hsort hlen
  have hrest : rest ≠ [] := by
    rintro rfl
    simp at hlen
  refine retagSorted_spec hfresh (fun _ _ => True) (fun _ _ _ _ _ _ _ _ => trivial) hrest
    (fun _ _ => trivial) (fun _ _ _ => trivial) (fun _ _ _ => trivial) fun s hready => ?_
  exact phase2_spec hready hsort (fun _ _ => trivial) (fun _ _ _ => trivial) fun _ =>
    sweep_stillLatest hready hfresh hsort hstamped hlatest' hold

end RetagEnv

end Vectorlink
