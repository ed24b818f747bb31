import Vectorlink.Store.Compaction

/-! Compaction and the tags of user branches. -/
namespace Vectorlink

open Stepwise Stepwise.Program Versioned Dataset

variable {ρ : Type}

/-- A branch made by a fork, neither the default branch nor one of compaction's own. -/
def UserBranch (b : BranchName) : Prop := b ≠ mainBranch ∧ isCompactRebuildBranch b = false

/-- Branches kept apart from `ds` to `s`: user branches keep their tags and their answers,
and the default branch counts only what it counted before. -/
structure BranchesApart (ds s : LanceDataset ρ) : Prop where
  stay : ∀ b, UserBranch b → ∀ c t, ds.tags.lookup c = some t → t.branch = some b →
    ∃ t', s.tags.lookup c = some t' ∧ t'.branch = some b
  last : ∀ b, UserBranch b → ioDeriveLastIndexed s b = ioDeriveLastIndexed ds b
  count : ∀ b, UserBranch b → ioCountBranchCommits s b = ioCountBranchCommits ds b
  main : ∀ e ∈ branchTags s mainBranch,
    ∃ t, ds.tags.lookup e.1 = some t ∧ belongsTo mainBranch t.branch

section BranchTags

theorem filter_kerase {c : CommitId} {p : CommitId × TagContents BranchName → Bool}
    (l : List (Sigma fun _ : CommitId => TagContents BranchName))
    (h : ∀ e ∈ l, e.1 = c → p (e.1, e.2) = false) :
    ((l.kerase c).map fun e => (e.1, e.2)).filter p = (l.map fun e => (e.1, e.2)).filter p := by
  induction l with
  | nil => rfl
  | cons e l ih =>
    by_cases hc : c = e.1
    · rw [List.kerase_cons_eq hc, List.map_cons, List.filter_cons,
        h e List.mem_cons_self hc.symm, if_neg Bool.false_ne_true]
    · rw [List.kerase_cons_ne hc, List.map_cons, List.map_cons, List.filter_cons,
        List.filter_cons, ih fun x hx => h x (List.mem_cons_of_mem _ hx)]

/-- Removing a tag of another branch leaves the tags of `b` as they are listed. -/
theorem branchTags_dropTag {ds : LanceDataset ρ} {b : BranchName} {c : CommitId}
    (h : c ∉ (branchTags ds b).map Prod.fst) : branchTags (ds.dropTag c) b = branchTags ds b := by
  refine filter_kerase _ fun e he hc => Bool.eq_false_iff.mpr fun hb => h ?_
  refine List.mem_map.mpr ⟨(e.1, e.2), ?_, hc⟩
  exact mem_branchTags.mpr ⟨AList.mem_lookup_iff.mpr he, hb⟩

theorem branchTags_putTag {ds : LanceDataset ρ} {b : BranchName} {c : CommitId}
    {b' : Option BranchName} {v : ℕ} (h : c ∉ (branchTags ds b).map Prod.fst)
    (hb : belongsTo b b' = false) : branchTags (ds.putTag c b' v) b = branchTags ds b := by
  rw [← branchTags_dropTag h]
  simp only [branchTags, putTag, AList.entries_insert, List.map_cons, List.filter_cons, hb,
    Bool.false_eq_true, if_false]
  rfl

theorem UserBranch.belongsTo_iff {b : BranchName} (hb : UserBranch b) {x : Option BranchName} :
    belongsTo b x ↔ x = some b := by
  simp [belongsTo_user hb.1]

end BranchTags

namespace RetagEnv

variable {env : RetagEnv ρ} {ds : LanceDataset ρ}

theorem UserBranch.not_rebuild {b : BranchName} (hb : UserBranch b) : b ≠ env.rebuildBranch := by
  rintro rfl
  have h := isCompactRebuildBranch_compactRebuildBranchName env.epoch
  rw [show compactRebuildBranchName env.epoch = env.rebuildBranch from rfl, hb.2] at h
  cases h

theorem UserBranch.not_older {b : BranchName} (hb : UserBranch b) :
    env.onOlderRebuild (some b) = false := by
  simp [onOlderRebuild, hb.2]

/-- The sweep never adds or changes a tag. -/
theorem sweep_tags (s₀ : LanceDataset ρ) :
    Preserves (fun s => ∀ c t, s.tags.lookup c = some t → s₀.tags.lookup c = some t)
      env.sweep := by
  refine env.preserves_sweep_of_drops (fun s x hs c t ht => ?_) (fun s b hs => hs) (fun s hs => hs)
  rw [lookup_dropTag] at ht
  split at ht
  · cases ht
  · exact hs c t ht

/-- The tags of an existing user branch are listed after the sweep as before. -/
theorem sweep_branchTags {b : BranchName} (hb : UserBranch b)
    (L : List (CommitId × TagContents BranchName)) :
    Preserves (fun s => branchTags s b = L ∧ (L ≠ [] → b ∈ s.branches)) env.sweep := by
  have hdrop : ∀ (s : LanceDataset ρ) (x : BranchName), isCompactRebuildBranch x →
      (branchTags s b = L ∧ (L ≠ [] → b ∈ s.branches)) →
      branchTags (s.dropBranch x) b = L ∧ (L ≠ [] → b ∈ (s.dropBranch x).branches) := by
    intro s x hx hs
    refine ⟨hs.1, fun hL => AList.mem_erase.mpr ⟨?_, hs.2 hL⟩⟩
    rintro rfl
    rw [hb.2] at hx
    cases hx
  refine env.preserves_sweep (fun x => x ∉ L.map Prod.fst) (fun x => isCompactRebuildBranch x)
    (fun s x hx => hdrop s x ?_) (fun s x hs hx hin => ?_) (fun s x _ hx _ => hx)
    (fun s x hx hs => ⟨?_, hs.2⟩) hdrop (fun s hs => hs)
  · simp only [onOlderRebuild, Option.any_some, Bool.and_eq_true] at hx
    exact hx.1
  · obtain ⟨t, b', ht, hb', hnot⟩ := lookup_of_mem_orphanedTags hx
    rw [← hs.1] at hin
    obtain ⟨⟨c, t'⟩, hmem, rfl⟩ := List.mem_map.mp hin
    obtain ⟨ht', hbel⟩ := mem_branchTags.mp hmem
    obtain rfl : t' = t := Option.some.inj (ht'.symm.trans ht)
    obtain rfl : b' = b := Option.some.inj (hb'.symm.trans (hb.belongsTo_iff.mp hbel))
    exact hnot (hs.2 (by rw [← hs.1]; exact List.ne_nil_of_mem hmem))
  · rw [branchTags_dropTag (by rwa [hs.1]), hs.1]

theorem branchTags_movedAll {b : BranchName} (hb : UserBranch b) {es : List (CommitId × ℕ)}
    {s : LanceDataset ρ} (h : ∀ e ∈ es, e.1 ∉ (branchTags s b).map Prod.fst) :
    branchTags (env.movedAll s es) b = branchTags s b := by
  induction es generalizing s with
  | nil => rfl
  | cons e es ih =>
    have hone : branchTags (env.moved s e) b = branchTags s b := by
      refine branchTags_putTag (h e List.mem_cons_self) (Bool.eq_false_iff.mpr fun hbel => ?_)
      exact UserBranch.not_rebuild hb (Option.some.inj (hb.belongsTo_iff.mp hbel)).symm
    refine (ih fun x hx => ?_).trans hone
    rw [hone]
    exact h x (List.mem_cons_of_mem _ hx)

theorem branchesApart_refl (ds : LanceDataset ρ) : BranchesApart ds ds where
  stay _ _ _ t ht hb := ⟨t, ht, hb⟩
  last _ _ := rfl
  count _ _ := rfl
  main e he := ⟨e.2, mem_branchTags.mp he⟩

/-- The branches are apart after the sweep, once no tag of a user branch was moved. -/
theorem branchesApart_of_sweep {first : CommitId × ℕ} {rest : List (CommitId × ℕ)}
    {s₁ s : LanceDataset ρ} (hsort : sorted env.order ds = first :: rest) (hlen : 1 < rest.length)
    (htags₁ : s₁.tags = ds.tags) (hres : ∀ c t, ds.tags.lookup c = some t →
      ∀ b, t.branch = some b → b ∈ ds.branches) (hmain : mainBranch ∉ ds.branches)
    (hkept : ∀ c t b, ds.tags.lookup c = some t → t.branch = some b → UserBranch b →
      AtBoundary env.order ds c)
    (htags : ∀ c t, s.tags.lookup c = some t →
      (env.movedAll s₁ (env.movesOf ds first rest)).tags.lookup c = some t)
    (huser : ∀ b, UserBranch b → branchTags s b = branchTags ds b) : BranchesApart ds s where
  stay b hb c t ht htb := by
    have hmem : (c, t) ∈ branchTags s b := by
      rw [huser b hb]
      exact mem_branchTags.mpr ⟨ht, hb.belongsTo_iff.mpr htb⟩
    exact ⟨t, (mem_branchTags.mp hmem).1, htb⟩
  last b hb := by simp only [ioDeriveLastIndexed, huser b hb]
  count b hb := by simp only [ioCountBranchCommits, huser b hb]
  main := by
    rintro ⟨c, t'⟩ he
    obtain ⟨ht', hbel⟩ := mem_branchTags.mp he
    have hmoved := htags c t' ht'
    by_cases hc : c ∈ (env.movesOf ds first rest).map Prod.fst
    · obtain ⟨t, ht, hwhy⟩ := (mem_movesOf hsort hlen).mp hc
      refine ⟨t, ht, ?_⟩
      rw [belongsTo_main]
      cases hb : t.branch with
      | none => simp
      | some b =>
        by_cases hreb : isCompactRebuildBranch b
        · simp [hreb]
        · -- a user branch: its commits stand at boundaries and do not move
          have hub : UserBranch b :=
            ⟨fun h => hmain (h ▸ hres c t ht b hb), Bool.eq_false_iff.mpr hreb⟩
          rcases hwhy with hwhy | ⟨-, hold⟩
          · exact absurd (hkept c t b ht hb hub) hwhy
          · rw [hb, UserBranch.not_older hub] at hold
            cases hold
    · rw [lookup_movedAll_of_notMem hc, htags₁] at hmoved
      exact ⟨t', hmoved, hbel⟩

section Moved

variable {Rel : CommitId → List ρ → Prop} {first : CommitId × ℕ} {rest : List (CommitId × ℕ)}
  {s₁ : LanceDataset ρ} (h : ReadyToMove env ds Rel first rest s₁)
  (hsort : sorted env.order ds = first :: rest)
include h hsort

/-- Every branch that has a commit exists. -/
theorem ReadyToMove.branch_mem {c : CommitId} {t : TagContents BranchName} {b : BranchName}
    (ht : ds.tags.lookup c = some t) (hb : t.branch = some b) : b ∈ ds.branches := by
  obtain ⟨r, hhome⟩ := h.clear.exists_home hsort ht
  exact hhome.mem_branches hb

/-- A user branch with commits still exists after the moves. -/
theorem ReadyToMove.user_branch_mem {b : BranchName} (hb : UserBranch b)
    (hne : branchTags ds b ≠ []) :
    b ∈ (env.movedAll s₁ (env.movesOf ds first rest)).branches := by
  obtain ⟨⟨c, t⟩, hmem⟩ := List.exists_mem_of_ne_nil _ hne
  obtain ⟨ht, hbel⟩ := mem_branchTags.mp hmem
  have hin := h.branch_mem hsort ht (hb.belongsTo_iff.mp hbel)
  rw [movedAll_branches, ← AList.lookup_isSome, h.replayed.branches b (UserBranch.not_rebuild hb)]
  exact AList.lookup_isSome.mpr hin

variable (hlen : 1 < rest.length)
include hlen

/-- Where the commits of user branches stand at boundaries, none of their tags moves. -/
theorem ReadyToMove.branchTags_moved {b : BranchName} (hb : UserBranch b)
    (hkept : ∀ c t b, ds.tags.lookup c = some t → t.branch = some b → UserBranch b →
      AtBoundary env.order ds c) :
    branchTags (env.movedAll s₁ (env.movesOf ds first rest)) b = branchTags ds b := by
  have hsame : branchTags s₁ b = branchTags ds b := by
    simp only [branchTags, h.replayed.tags]
  rw [branchTags_movedAll hb, hsame]
  intro e he hin
  rw [hsame] at hin
  obtain ⟨⟨c, t⟩, hmem, rfl : c = e.1⟩ := List.mem_map.mp hin
  obtain ⟨ht, hbel⟩ := mem_branchTags.mp hmem
  have htb := hb.belongsTo_iff.mp hbel
  obtain ⟨t', ht', hwhy⟩ := (mem_movesOf hsort hlen).mp (List.mem_map_of_mem he)
  obtain rfl : t' = t := Option.some.inj (ht'.symm.trans ht)
  rcases hwhy with hwhy | ⟨-, hold⟩
  · exact hwhy (hkept _ _ b ht htb hb)
  · rw [htb, UserBranch.not_older hb] at hold
    cases hold

/-- A commit off the boundaries is on the rebuild branch, so it is not apart any more. -/
theorem ReadyToMove.atBoundary_of_apart {s : LanceDataset ρ}
    (htags : ∀ c t, s.tags.lookup c = some t →
      (env.movedAll s₁ (env.movesOf ds first rest)).tags.lookup c = some t)
    (hapart : BranchesApart ds s) {c : CommitId} {t : TagContents BranchName} {b : BranchName}
    (ht : ds.tags.lookup c = some t) (htb : t.branch = some b) (hb : UserBranch b) :
    AtBoundary env.order ds c := by
  by_contra hnot
  have hmoved : c ∈ (env.movesOf ds first rest).map Prod.fst :=
    (mem_movesOf hsort hlen).mpr ⟨t, ht, .inl hnot⟩
  obtain ⟨t', ht', htb'⟩ := hapart.stay b hb c t ht htb
  obtain ⟨t'', r, hhome, hreb, -⟩ := h.home_of_mem hsort (List.prefix_refl _) hmoved
  obtain rfl : t' = t'' := Option.some.inj ((htags c t' ht').symm.trans hhome.1)
  exact UserBranch.not_rebuild hb (Option.some.inj (htb'.symm.trans hreb))

end Moved

/-- A successful compaction keeps the branches apart precisely when it has nothing to do or
every commit of a user branch stands at a boundary position: the sorted list mixes all
branches, and every other commit in it is moved to the rebuild branch. -/
theorem retag_branchesApart_iff (hfresh : env.FreshEpoch ds) (hmain : mainBranch ∉ ds.branches)
    {n : ℕ × ℕ} (hok : (env.retag ds).result = .ok n) :
    BranchesApart ds (env.retag ds).store ↔
      (sorted env.order ds).length ≤ 2 ∨ ∀ c t b, ds.tags.lookup c = some t → t.branch = some b →
        UserBranch b → AtBoundary env.order ds c := by
  refine Spec.result_ok (Q := fun _ s => BranchesApart ds s ↔ _) (E := fun _ _ => True)
    (T := fun _ _ => True) ?_ (P := fun s => s = ds) rfl hok
  refine retag_spec (fun _ => trivial) (fun _ hsmall => ⟨fun _ => .inl hsmall,
    fun _ => branchesApart_refl ds⟩) (fun _ first rest hsort hlen => ?_)
  refine retagSorted_spec hfresh (fun _ _ => True) (fun _ _ _ _ _ _ _ _ => trivial)
    (fun h => by simp [h] at hlen) (fun _ _ => trivial) (fun _ _ _ => trivial)
    (fun _ _ _ => trivial) fun s₁ hready => ?_
  refine phase2_spec hready hsort (fun _ _ => trivial) (fun _ _ _ => trivial) fun _ => ?_
  intro s' hs'
  subst hs'
  refine ⟨fun _ _ => trivial, ?_⟩
  cases hr : (env.sweep (env.movedAll s₁ (env.movesOf ds first rest))).result with
  | error e => trivial
  | ok a =>
    have htags := (sweep_tags (env.movedAll s₁ (env.movesOf ds first rest))).result_ok
      (fun _ _ h => h) hr
    constructor
    · intro hapart
      exact .inr fun c t b => hready.atBoundary_of_apart hsort hlen htags hapart
    · intro hcond
      have hkept := hcond.resolve_left (by rw [hsort, List.length_cons]; omega)
      refine branchesApart_of_sweep hsort hlen hready.replayed.tags
        (fun c t ht b => hready.branch_mem hsort ht) hmain hkept htags fun b hb => ?_
      have hstart := hready.branchTags_moved hsort hlen hb hkept
      exact ((sweep_branchTags hb (branchTags ds b)).result_ok
        ⟨hstart, hready.user_branch_mem hsort hb⟩ hr).1

end RetagEnv

/-- A branch forked before the first push and pushed to, then two commits on the default
branch. -/
def earlyFork : LanceDataset (ChunkRow Unit) := RetagEnv.built do
  let ds ← Dataset.create.createBranch "dev" none 1
  let ds ← ds.commit none (· ++ [oneChunk "a" "1"])
  let ds ← ds.createTag "c0" none 2
  let ds ← ds.commit none (· ++ [oneChunk "b" "2"])
  let ds ← ds.createTag "c1" none 3
  let ds ← ds.commit (some "dev") (· ++ [oneChunk "d" "3"])
  ds.createTag "d0" (some "dev") 2

theorem retag_branchesApart_earlyFork :
    BranchesApart earlyFork
      (ioRetagWithDeltaForks 7 (fun _ => false) (fun _ => 1) .listed earlyFork).store := by
  have hfresh : (⟨7, fun _ => false, replayDelta, fun _ => 1, .listed⟩ :
      RetagEnv (ChunkRow Unit)).FreshEpoch earlyFork :=
    RetagEnv.freshEpoch_of_entries (by decide)
  refine (RetagEnv.retag_branchesApart_iff (n := (3, 2)) hfresh (by decide) (by decide)).mpr
    (.inr fun c t b ht htb hb => ?_)
  have hentries : earlyFork.tags.entries = [⟨"d0", some "dev", 2, 2⟩, ⟨"c1", none, 3, 1⟩,
      ⟨"c0", none, 2, 0⟩] := by decide
  have hmem := AList.mem_lookup_iff.mp ht
  rw [hentries] at hmem
  simp only [List.mem_cons, Sigma.mk.injEq, List.not_mem_nil, or_false] at hmem
  rcases hmem with ⟨rfl, -⟩ | ⟨-, h⟩ | ⟨-, h⟩
  · exact ⟨0, by decide, by decide⟩
  · rw [eq_of_heq h] at htb
    cases htb
  · rw [eq_of_heq h] at htb
    cases htb

/-- A branch forked from the first commit and pushed to, beside a second commit on the
default branch. -/
def forkedHistory : LanceDataset (ChunkRow Unit) := RetagEnv.built do
  let ds ← Dataset.create.commit none (· ++ [oneChunk "a" "1"])
  let ds ← ds.createTag "c0" none 2
  let ds ← ds.createBranch "dev" none 2
  let ds ← ds.commit none (· ++ [oneChunk "b" "2"])
  let ds ← ds.createTag "c1" none 3
  let ds ← ds.commit (some "dev") (· ++ [oneChunk "d" "3"])
  ds.createTag "d1" (some "dev") 3

/-- The only commit of the branch is moved to the rebuild branch. -/
theorem retag_not_branchesApart :
    ¬ ∀ (epoch : ℕ) (fails : RetagOp → Bool) (ftsVersions : CommitId → ℕ)
      (order : HashOrder (CommitId × ℕ)) (ds : LanceDataset (ChunkRow Unit)) (n : ℕ × ℕ),
      (ioRetagWithDeltaForks epoch fails ftsVersions order ds).result = .ok n →
      BranchesApart ds (ioRetagWithDeltaForks epoch fails ftsVersions order ds).store := by
  intro h
  have hlast := (h 7 (fun _ => false) (fun _ => 1) .listed forkedHistory (3, 2)
    (by decide)).last "dev" ⟨by decide, by decide⟩
  revert hlast
  decide

end Vectorlink
