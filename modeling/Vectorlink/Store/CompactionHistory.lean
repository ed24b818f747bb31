import Vectorlink.Store.CompactionBranches
import Vectorlink.Store.CompactionLoss

/-! What the commits serve after a compaction, when every replayed delta is exact. -/
namespace Vectorlink

open Stepwise Stepwise.Program Versioned Dataset

variable {ρ : Type}

/-- Every commit is served the rows that it was served before. -/
def SameHistory (ds s : LanceDataset ρ) : Prop :=
  ∀ c r, ds.served c = some r → ∃ r', s.served c = some r' ∧ r'.Perm r

namespace RetagEnv

/-- The delta between any two snapshots of the history, applied to a head that holds the
rows of the one, makes the rows of the other. -/
def ExactReplays (env : RetagEnv ρ) (ds : LanceDataset ρ) : Prop :=
  ∀ a b ra rb h, ds.served a = some ra → ds.served b = some rb → h.Perm ra →
    (runWrites (env.replay ra rb) h).Perm rb

/-- Whatever calls fail and however exactly the deltas are replayed, a compaction of this
epoch that succeeds keeps the history. -/
def KeepsHistory (epoch : ℕ) (ds : LanceDataset ρ) : Prop :=
  ∀ env : RetagEnv ρ, env.epoch = epoch → env.ExactReplays ds →
    ∀ n, (env.retag ds).result = .ok n → SameHistory ds (env.retag ds).store

/-- Whenever a compaction can replay the history, the version of the default branch that it
starts from holds the rows of the first commit, and no earlier compaction has moved that
commit. -/
def StartsAtFirst (epoch : ℕ) (ds : LanceDataset ρ) : Prop :=
  ∀ order first rest base, sorted order ds = first :: rest → 1 < rest.length →
    compactRebuildBranchName epoch ∉ ds.branches → ds.main.rows first.2 = some base →
    (∀ e ∈ first :: rest, (ds.served e.1).isSome) →
    ∃ t r, Home first.1 t r ds ∧ base.Perm r ∧ t.branch.any isCompactRebuildBranch = false

variable {env : RetagEnv ρ} {ds : LanceDataset ρ} {first : CommitId × ℕ}
  {rest : List (CommitId × ℕ)} {s₁ : LanceDataset ρ}

theorem onOlderRebuild_eq (hfresh : env.FreshEpoch ds) {c : CommitId}
    {t : TagContents BranchName} (ht : ds.tags.lookup c = some t) :
    env.onOlderRebuild t.branch = t.branch.any isCompactRebuildBranch := by
  cases hb : t.branch with
  | none => rfl
  | some b =>
    have hne : b ≠ env.rebuildBranch := by
      rintro rfl
      exact hfresh c t ht hb
    simp [onOlderRebuild, hne]

theorem SameHistory.refl (ds : LanceDataset ρ) : SameHistory ds ds :=
  fun _ r h => ⟨r, h, .refl r⟩

/-- The rows are those of the commit. -/
def RowsOf (ds : LanceDataset ρ) (c : CommitId) (r : List ρ) : Prop :=
  ∃ rc, ds.served c = some rc ∧ r.Perm rc

theorem carries_rowsOf (hexact : env.ExactReplays ds) : Carries env ds (RowsOf ds) := by
  intro a b ra rb h ha hb hrel
  obtain ⟨rc, hrc, hperm⟩ := hrel
  have heq : rc = ra := Option.some.inj (hrc.symm.trans ha)
  rw [heq] at hperm
  exact ⟨rb, hb, hexact a b ra rb h ha hb hperm⟩

/-- After all moves a commit has its rows, on a branch that the sweep leaves alone. -/
theorem ReadyToMove.home_rowsOf (h : ReadyToMove env ds (RowsOf ds) first rest s₁)
    (hfresh : env.FreshEpoch ds) (hsort : sorted env.order ds = first :: rest)
    (hlen : 1 < rest.length)
    {t₀ : TagContents BranchName} (ht₀ : ds.tags.lookup first.1 = some t₀)
    (hfirst : env.onOlderRebuild t₀.branch = false) {c : CommitId} {r : List ρ}
    (hc : ds.served c = some r) :
    ∃ t' r', Home c t' r' (env.movedAll s₁ (env.movesOf ds first rest)) ∧ r'.Perm r ∧
      env.onOlderRebuild t'.branch = false := by
  obtain ⟨t, hhome⟩ := exists_home hc
  by_cases hmem : c ∈ (env.movesOf ds first rest).map Prod.fst
  · obtain ⟨t', r', hhome', hb, rc, hrc, hperm⟩ := h.home_of_mem hsort (List.prefix_refl _) hmem
    have heq : rc = r := Option.some.inj (hrc.symm.trans hc)
    refine ⟨t', r', hhome', heq ▸ hperm, ?_⟩
    simp [hb, onOlderRebuild]
  · have hstay := h.home_of_notMem hfresh hmem hhome
    refine ⟨t, r, hstay, .refl r, Bool.eq_false_iff.mpr fun hold => ?_⟩
    -- only the first commit stays on an older rebuild branch, and it is not on one
    apply hmem
    apply (mem_movesOf hsort hlen).mpr
    refine ⟨t, hhome.1, .inr ⟨?_, hold⟩⟩
    rintro rfl
    have heq : t₀ = t := Option.some.inj (ht₀.symm.trans hhome.1)
    rw [← heq, hfirst] at hold
    cases hold

/-- The sweep keeps the rows of every commit. -/
theorem sweep_sameHistory (h : ReadyToMove env ds (RowsOf ds) first rest s₁)
    (hfresh : env.FreshEpoch ds) (hsort : sorted env.order ds = first :: rest)
    (hlen : 1 < rest.length)
    {t₀ : TagContents BranchName} (ht₀ : ds.tags.lookup first.1 = some t₀)
    (hfirst : env.onOlderRebuild t₀.branch = false) :
    Spec (fun s => s = env.movedAll s₁ (env.movesOf ds first rest)) env.sweep
      (fun _ => SameHistory ds) (fun _ _ => True) (fun _ _ => True) := by
  refine (Spec.all (T := fun _ _ => True)
    (Q := fun (x : { x : CommitId × List ρ // ds.served x.1 = some x.2 }) _ s =>
      ∃ r', s.served x.1.1 = some r' ∧ r'.Perm x.1.2)
    (E := fun _ _ _ => True) ?_ (fun _ _ _ _ => trivial)).weaken
    (fun _ hs => hs) (fun _ s hs c r hc => hs ⟨(c, r), hc⟩) (fun _ _ _ => trivial) (fun _ _ h => h)
  intro x
  obtain ⟨t', r', hhome', hperm, hold⟩ := h.home_rowsOf hfresh hsort hlen ht₀ hfirst x.2
  exact (env.sweep_home hold).weaken (fun s hs => hs ▸ hhome')
    (fun _ _ hs => ⟨r', hs.served, hperm⟩) (fun _ _ _ => trivial) (fun _ _ _ => trivial)

/-- A compaction that starts at the first commit keeps the history. -/
theorem retag_sameHistory (hfresh : env.FreshEpoch ds) (hexact : env.ExactReplays ds)
    (hstart : StartsAtFirst env.epoch ds) {n : ℕ × ℕ} (hok : (env.retag ds).result = .ok n) :
    SameHistory ds (env.retag ds).store := by
  refine Spec.result_ok (Q := fun _ => SameHistory ds) (E := fun _ _ => True)
    (T := fun _ _ => True) ?_ (P := fun s => s = ds) rfl hok
  refine retag_spec (fun _ => trivial) (fun _ _ => SameHistory.refl ds)
    (fun _ first rest hsort hlen => ?_)
  -- without its first commit the history cannot be replayed, and there is nothing to show
  by_cases hres : (env.rebuildBranch ∉ ds.branches ∧
      ∀ e ∈ first :: rest, (ds.served e.1).isSome) ∧ (ds.main.rows first.2).isSome
  · obtain ⟨base, hbase⟩ := Option.isSome_iff_exists.mp hres.2
    obtain ⟨t, r, hhome, hperm, hplain⟩ := hstart env.order first rest base hsort
      hlen hres.1.1 hbase hres.1.2
    have hold : env.onOlderRebuild t.branch = false := by
      rw [onOlderRebuild_eq hfresh hhome.1, hplain]
    refine retagSorted_spec hfresh (RowsOf ds) (carries_rowsOf hexact)
      (fun h => by simp [h] at hlen) (fun r' hr' => ?_) (fun _ _ _ => trivial)
      (fun _ _ _ => trivial) fun s₁ hready => ?_
    · have heq : base = r' := Option.some.inj (hbase.symm.trans hr')
      exact ⟨r, hhome.served, heq ▸ hperm⟩
    · exact phase2_spec hready hsort (fun _ _ => trivial) (fun _ _ _ => trivial) fun _ =>
        sweep_sameHistory hready hfresh hsort hlen hhome.1 hold
  · refine retagSorted_spec hfresh (fun _ _ => True) (fun _ _ _ _ _ _ _ _ => trivial)
      (fun h => by simp [h] at hlen) (fun _ _ => trivial) (fun _ _ _ => trivial)
      (fun _ _ _ => trivial) fun s₁ hready => ?_
    exact absurd ⟨⟨hready.clear.unused, hready.clear.resolved⟩, hready.clear.base⟩ hres

section Broken

/-- Without failing calls the sweep succeeds. -/
theorem sweep_ok (hfails : ∀ op, env.fails op = false) :
    Spec (fun _ => True) env.sweep (fun _ _ => True) (fun _ _ => False) (fun _ _ => True) := by
  have hopens : ∀ op, Spec (fun _ => True) (env.opens op) (fun _ _ => True) (fun _ _ => False)
      (fun _ _ => True) := fun op =>
    env.opens_spec (fun _ _ _ => trivial) (fun _ _ h => by rw [hfails] at h; cases h)
  have hsoft {α : Type} (m : Retag ρ α) : Spec (fun _ => True)
      (attempt m : Retag ρ (Except StoreError α)) (fun _ _ => True) (fun _ _ => False)
      (fun _ _ => True) :=
    Spec.attempt fun s _ => ⟨fun _ _ => trivial, by split <;> trivial⟩
  refine Spec.bind (R := fun _ _ => True) ?_ fun _ => Spec.bind (hsoft _) fun _ => hopens _
  refine Spec.bind (R := fun _ _ => True) (env.reads_spec (fun _ _ _ _ _ => trivial) ?_) fun _ =>
    Spec.bind (R := fun _ _ => True) ?_ fun _ => Spec.pure fun _ _ => trivial
  · intro s _ h
    simp [hfails] at h
  · refine Spec.forEach (fun _ _ => True) (fun b bs => ?_) _
    exact Spec.bind (hopens _) fun _ => Spec.bind (hsoft _) fun _ => Spec.pure fun _ _ => trivial

/-- Without failing calls a history that can be replayed is compacted. -/
theorem retag_ok (hfresh : env.FreshEpoch ds) (hfails : ∀ op, env.fails op = false)
    (hsort : sorted env.order ds = first :: rest) (hlen : 1 < rest.length)
    (hclear : ReplayClear env ds first rest) : ∃ n, (env.retag ds).result = .ok n := by
  have hspec : Spec (fun s => s = ds) env.retag (fun _ _ => True) (fun _ _ => False)
      (fun _ _ => True) := by
    refine retag_spec (fun h => by simp [hfails] at h) (fun _ _ => trivial)
      (fun _ first' rest' hsort' _ => ?_)
    obtain ⟨rfl, rfl⟩ := List.cons.inj (hsort.symm.trans hsort')
    refine retagSorted_spec hfresh (fun _ _ => True) (fun _ _ _ _ _ _ _ _ => trivial)
      (fun h => by simp [h] at hlen) (fun _ _ => trivial) (fun s _ h => absurd hclear h)
      (fun _ _ _ => trivial) fun s₁ hready => ?_
    refine phase2_spec hready hsort (fun s hs => ?_) (fun _ _ _ => trivial) fun _ => ?_
    · simp [MovesStopped, hfails] at hs
    · exact (sweep_ok hfails).pre fun _ _ => trivial
  cases hr : (env.retag ds).result with
  | ok n => exact ⟨n, rfl⟩
  | error e => exact (hspec.result_error rfl hr).elim

/-- The rows are not those of the commit. -/
def RowsNotOf (ds : LanceDataset ρ) (c : CommitId) (r : List ρ) : Prop :=
  ∀ rc, ds.served c = some rc → ¬ r.Perm rc

/-- Without failing calls some commit is moved to the last version of the replay. -/
theorem exists_moved (hsort : sorted env.order ds = first :: rest) (hlen : 1 < rest.length) :
    ∃ c, env.Moves ds first.1 c := by
  have hpos : (sorted env.order ds).length - 1 < ((sorted env.order ds).map Prod.fst).length := by
    rw [List.length_map, hsort, List.length_cons]
    omega
  refine ⟨((sorted env.order ds).map Prod.fst)[(sorted env.order ds).length - 1], ?_⟩
  have hmem := mem_sorted.mp (List.getElem_mem hpos)
  obtain ⟨t, ht⟩ := Option.isSome_iff_exists.mp (AList.lookup_isSome.mpr hmem)
  refine ⟨t, ht, .inl ?_⟩
  rintro ⟨k, hk, hin⟩
  rw [position_unique hk (List.getElem?_eq_getElem hpos)] at hin
  exact last_notMem_boundaryPositions _ hin

/-- A wrong start is carried to the last commit by a replay that only promises to be exact. -/
theorem retag_not_sameHistory (hfresh : env.FreshEpoch ds) (hfails : ∀ op, env.fails op = false)
    (hsort : sorted env.order ds = first :: rest) (hlen : 1 < rest.length)
    (hclear : ReplayClear env ds first rest) (hcarry : Carries env ds (RowsNotOf ds))
    (hbase : ∀ r, ds.main.rows first.2 = some r → RowsNotOf ds first.1 r) :
    ¬ SameHistory ds (env.retag ds).store := by
  obtain ⟨c, hmoves⟩ : ∃ c, env.Moves ds first.1 c := exists_moved hsort hlen
  have hspec : Spec (fun s => s = ds) env.retag
      (fun _ s => ∃ r, s.served c = some r ∧ RowsNotOf ds c r)
      (fun _ s => ∃ r, s.served c = some r ∧ RowsNotOf ds c r) (fun _ _ => True) := by
    refine retag_spec (fun h => by simp [hfails] at h)
      (fun _ h => by rw [hsort, List.length_cons] at h; omega) (fun _ first' rest' hsort' _ => ?_)
    obtain ⟨rfl, rfl⟩ := List.cons.inj (hsort.symm.trans hsort')
    refine retagSorted_spec hfresh (RowsNotOf ds) hcarry (fun h => by simp [h] at hlen) hbase
      (fun s _ h => absurd hclear h) (fun _ _ _ => trivial) fun s₁ hready => ?_
    refine phase2_spec hready hsort (fun s hs => ?_) (fun _ _ _ => trivial) fun _ => ?_
    · simp [MovesStopped, hfails] at hs
    · obtain ⟨t', r', hhome', hb, hrel⟩ := hready.home_of_mem hsort (List.prefix_refl _)
        ((mem_movesOf hsort hlen).mpr hmoves)
      have hold : env.onOlderRebuild t'.branch = false := by simp [hb, onOlderRebuild]
      exact (env.sweep_home hold).weaken (fun s hs => hs ▸ hhome')
        (fun _ s hs => ⟨r', hs.served, hrel⟩) (fun _ s hs => ⟨r', hs.served, hrel⟩)
        (fun _ _ _ => trivial)
  obtain ⟨r, hr, hnot⟩ := hspec.final rfl
  obtain ⟨t, ht, -⟩ := hmoves
  obtain ⟨rc, hhome⟩ := hclear.exists_home hsort ht
  intro hsame
  obtain ⟨r', hr', hperm⟩ := hsame c rc hhome.served
  have heq : r = r' := Option.some.inj (hr.symm.trans hr')
  exact hnot rc hhome.served (heq ▸ hperm)

variable [DecidableEq ρ]

/-- Exact where exactness is promised, with `junk` in front everywhere else. -/
def brittleReplay (junk a b : List ρ) : List (BranchWrite ρ) :=
  [⟨"delta apply failed", fun h => if h.Perm a then b else junk ++ b⟩]

/-- A compaction without failing calls that replays deltas in this way. -/
def brittle (epoch : ℕ) (order : HashOrder (CommitId × ℕ)) (junk : List ρ) : RetagEnv ρ :=
  ⟨epoch, fun _ => false, brittleReplay junk, fun _ => 1, order⟩

theorem brittle_exactReplays (epoch : ℕ) (order : HashOrder (CommitId × ℕ)) (junk : List ρ) :
    (brittle epoch order junk).ExactReplays ds := by
  intro a b ra rb h _ _ hperm
  simp [brittle, brittleReplay, runWrites, hperm]

theorem carries_brittle (epoch : ℕ) (order : HashOrder (CommitId × ℕ)) {junk : List ρ}
    (hjunk : junk ≠ []) : Carries (brittle epoch order junk) ds (RowsNotOf ds) := by
  intro a b ra rb h ha hb hrel rc hrc hperm
  have heq : rb = rc := Option.some.inj (hb.symm.trans hrc)
  have hnot : ¬ h.Perm ra := hrel ra ha
  simp only [brittle, brittleReplay, runWrites, List.foldl_cons, List.foldl_nil, hnot,
    if_false] at hperm
  have hlength := hperm.length_eq
  have hpos := List.length_pos_iff.mpr hjunk
  rw [heq, List.length_append] at hlength
  omega

/-- A compaction that starts from other rows than those of the first commit breaks the
history for some exact replay. -/
theorem perm_of_keepsHistory {epoch : ℕ}
    (hfresh : ∀ c t, ds.tags.lookup c = some t → t.branch ≠ some (compactRebuildBranchName epoch))
    (hkeep : KeepsHistory epoch ds) {order : HashOrder (CommitId × ℕ)}
    (hsort : sorted order ds = first :: rest) (hlen : 1 < rest.length)
    (hclear : ∀ junk : List ρ, ReplayClear (brittle epoch order junk) ds first rest)
    {base r : List ρ}
    (hbase : ds.main.rows first.2 = some base) (hr : ds.served first.1 = some r) :
    base.Perm r := by
  by_contra hnot
  -- one of the two holds a row, since they differ
  have hjunk : base ++ r ≠ [] := by
    intro hnil
    obtain ⟨hb, hr⟩ := List.append_eq_nil_iff.mp hnil
    rw [hb, hr] at hnot
    exact hnot (.refl [])
  have hwrong : ∀ r', ds.main.rows first.2 = some r' → RowsNotOf ds first.1 r' := by
    intro r' hr' rc hrc
    have hbase' : base = r' := Option.some.inj (hbase.symm.trans hr')
    have hrows : r = rc := Option.some.inj (hr.symm.trans hrc)
    rwa [← hbase', ← hrows]
  have hfresh' : (brittle epoch order (base ++ r)).FreshEpoch ds := hfresh
  obtain ⟨n, hn⟩ := retag_ok hfresh' (fun _ => rfl) hsort hlen (hclear _)
  exact retag_not_sameHistory hfresh' (fun _ => rfl) hsort hlen (hclear _)
    (carries_brittle epoch order hjunk) hwrong
    (hkeep _ rfl (brittle_exactReplays epoch order _) n hn)

/-- A first commit that an earlier compaction moved is lost. -/
theorem plain_of_keepsHistory {epoch : ℕ}
    (hfresh : ∀ c t, ds.tags.lookup c = some t → t.branch ≠ some (compactRebuildBranchName epoch))
    (hkeep : KeepsHistory epoch ds) {order : HashOrder (CommitId × ℕ)}
    (hsort : sorted order ds = first :: rest) (hlen : 1 < rest.length)
    (hclear : ∀ junk : List ρ, ReplayClear (brittle epoch order junk) ds first rest)
    {t : TagContents BranchName} {r : List ρ} (hhome : Home first.1 t r ds) :
    t.branch.any isCompactRebuildBranch = false := by
  have hfresh' : (brittle epoch order ([] : List ρ)).FreshEpoch ds := hfresh
  have hfails : ∀ op, (brittle epoch order ([] : List ρ)).fails op = false := fun _ => rfl
  rw [← onOlderRebuild_eq hfresh' hhome.1]
  cases hb : t.branch with
  | none => rfl
  | some b =>
    refine Bool.eq_false_iff.mpr fun hold => ?_
    have hstranded := retag_strands_first hfresh' rfl hsort hlen (hclear []) hhome.1 hb hold
      (by simp [StopsMoves, hfails]) rfl (by simp [Spares, hfails])
    obtain ⟨n, hn⟩ := retag_ok hfresh' hfails hsort hlen (hclear [])
    obtain ⟨r', hr', -⟩ :=
      hkeep _ rfl (brittle_exactReplays epoch order []) n hn first.1 r hhome.served
    rw [hstranded.served_eq_none] at hr'
    cases hr'

/-- With exact deltas a compaction keeps the history precisely when it starts at the first
commit: from the rows of that commit, and with its tag on no older rebuild branch. -/
theorem keepsHistory_iff {epoch : ℕ}
    (hfresh : ∀ c t, ds.tags.lookup c = some t → t.branch ≠ some (compactRebuildBranchName epoch)) :
    KeepsHistory epoch ds ↔ StartsAtFirst epoch ds := by
  constructor
  · intro hkeep order first rest base hsort hlen hunused hbase hres
    have hclear (junk : List ρ) : ReplayClear (brittle epoch order junk) ds first rest :=
      ⟨rfl, hunused, by simp [hbase], rfl, fun _ _ => rfl, hres⟩
    obtain ⟨r, hr⟩ := Option.isSome_iff_exists.mp (hres first List.mem_cons_self)
    obtain ⟨t, hhome⟩ := exists_home hr
    exact ⟨t, r, hhome, perm_of_keepsHistory hfresh hkeep hsort hlen hclear hbase hr,
      plain_of_keepsHistory hfresh hkeep hsort hlen hclear hhome⟩
  · rintro hstart env rfl hexact n hok
    exact retag_sameHistory hfresh hexact hstart hok

end Broken

end RetagEnv

theorem keepsHistory_linearHistory : RetagEnv.KeepsHistory 7 linearHistory := by
  have hfresh : (⟨7, fun _ => false, replayDelta, fun _ => 1, .listed⟩ :
      RetagEnv (ChunkRow Unit)).FreshEpoch linearHistory :=
    RetagEnv.freshEpoch_of_entries (by decide)
  refine (RetagEnv.keepsHistory_iff hfresh).mpr ?_
  intro order first rest base hsort _ _ hbase _
  have hlist : RetagEnv.sorted order linearHistory = [("c0", 2), ("c1", 3), ("c2", 4)] :=
    RetagEnv.sorted_eq (by decide) (by decide)
  obtain rfl : ("c0", 2) = first := (List.cons.inj (hlist.symm.trans hsort)).1
  exact ⟨⟨none, 2, 0⟩, base, ⟨by decide, hbase⟩, .refl base, rfl⟩

section Replay

variable {V : Type}

theorem runWrites_replayDelta (a b h : List (ChunkRow V)) :
    RetagEnv.runWrites (replayDelta a b) h =
      deleteDocs (computeDelta a b).docIdsToDelete h ++ (computeDelta a b).rowsToAppend := by
  have hrows := RetagEnv.advanceAll_headRows (Lineage.start 0 h) (replayDelta a b)
  have happly := ioApplyDeltaOnBranch_headRows (Lineage.start 0 h) (computeDelta a b)
  exact hrows.symm.trans happly

/-- Whether a delta is exact does not depend on the order of the rows. -/
theorem exactReplays_of_served {env : RetagEnv (ChunkRow V)} {ds : LanceDataset (ChunkRow V)}
    (henv : env.replay = replayDelta)
    (h : ∀ a ∈ ds.tags.keys, ∀ b ∈ ds.tags.keys, ∀ ra ∈ ds.served a, ∀ rb ∈ ds.served b,
      (RetagEnv.runWrites (replayDelta ra rb) ra).Perm rb) : env.ExactReplays ds := by
  intro a b ra rb h' ha hb hperm
  have hkeys : ∀ {c r}, ds.served c = some r → c ∈ ds.tags.keys := by
    intro c r hr
    obtain ⟨t, ht, -⟩ := exists_home hr
    exact AList.mem_keys.mp (AList.lookup_isSome.mp (by simp [ht]))
  have hexact := h a (hkeys ha) b (hkeys hb) ra ha rb hb
  rw [henv]
  rw [runWrites_replayDelta] at hexact ⊢
  exact ((hperm.filter _).append_right _).trans hexact

end Replay

/-- The first commit of the sorted list is on a branch, so the replay starts from the rows
that the default branch has under the same version number. -/
theorem retag_not_sameHistory_earlyFork :
    ¬ ∀ (epoch : ℕ) (fails : RetagOp → Bool) (ftsVersions : CommitId → ℕ)
      (order : HashOrder (CommitId × ℕ)) (ds : LanceDataset (ChunkRow Unit)) (n : ℕ × ℕ),
      (⟨epoch, fails, replayDelta, ftsVersions, order⟩ : RetagEnv _).ExactReplays ds →
      (ioRetagWithDeltaForks epoch fails ftsVersions order ds).result = .ok n →
      SameHistory ds (ioRetagWithDeltaForks epoch fails ftsVersions order ds).store := by
  intro h
  have hsame := h 7 (fun _ => false) (fun _ => 1) .listed earlyFork (3, 2)
    (exactReplays_of_served rfl (by decide)) (by decide)
  obtain ⟨r, hr, hperm⟩ := hsame "c0" [oneChunk "a" "1"] (by decide)
  have htwice :
      (ioRetagWithDeltaForks 7 (fun _ => false) (fun _ => 1) .listed earlyFork).store.served "c0" =
        some [oneChunk "a" "1", oneChunk "a" "1"] := by decide
  obtain rfl : r = [oneChunk "a" "1", oneChunk "a" "1"] := Option.some.inj (hr.symm.trans htwice)
  have hlength := hperm.length_eq
  revert hlength
  decide

end Vectorlink
