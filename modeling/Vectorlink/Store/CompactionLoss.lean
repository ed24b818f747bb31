import Vectorlink.Store.Compaction

/-! Which commits a compaction loses when one of its Lance calls fails. -/
namespace Vectorlink

open Stepwise Stepwise.Program Versioned Dataset

variable {ρ : Type}

/-- Every commit that resolved to a version still does. -/
def NoLoss (ds s : LanceDataset ρ) : Prop := ∀ c, (ds.served c).isSome → (s.served c).isSome

/-- At most one Lance call fails. -/
def singleFault (fault : Option RetagOp) (op : RetagOp) : Bool := decide (fault = some op)

namespace RetagEnv

variable (env : RetagEnv ρ) {ds : LanceDataset ρ}

/-- The rebuild branches that a compaction deletes, in listing order. -/
def olderRebuilds (ds : LanceDataset ρ) : List BranchName :=
  ds.branches.keys.filter fun b => env.onOlderRebuild (some b)

/-- The branches opened for deletion up to `b`. -/
def deletedUpTo (bs : List BranchName) (b : BranchName) : List BranchName :=
  bs.takeWhile (· ≠ b) ++ [b]

/-- The deletion of `b` is not reached or does not succeed. -/
def Spares (bs : List BranchName) (b : BranchName) : Prop :=
  env.fails (.deleteBranch b) = true ∨
    ∃ b' ∈ deletedUpTo bs b, env.fails (.openForDelete b') = true

/-- The tag of `c` can only name the branch `b`, which is gone. -/
def Stranded (c : CommitId) (b : BranchName) (s : LanceDataset ρ) : Prop :=
  b ∉ s.branches ∧ ∀ t, s.tags.lookup c = some t → t.branch = some b

variable {env}

theorem Stranded.served_eq_none {c : CommitId} {b : BranchName} {s : LanceDataset ρ}
    (h : Stranded c b s) : s.served c = none := by
  unfold Dataset.served
  cases ht : s.tags.lookup c with
  | none => rfl
  | some t => simp [Dataset.rowsAt, h.2 t ht, AList.lookup_eq_none.mpr h.1]

theorem Stranded.dropTag {c : CommitId} {b : BranchName} {s : LanceDataset ρ}
    (h : Stranded c b s) (x : CommitId) : Stranded c b (s.dropTag x) := by
  refine ⟨h.1, fun t ht => ?_⟩
  rw [lookup_dropTag] at ht
  split at ht
  · cases ht
  · exact h.2 t ht

theorem Stranded.dropBranch {c : CommitId} {b : BranchName} {s : LanceDataset ρ}
    (h : Stranded c b s) (x : BranchName) : Stranded c b (s.dropBranch x) :=
  ⟨fun hin => h.1 (AList.mem_erase.mp hin).2, h.2⟩

theorem deletedUpTo_cons_self (b : BranchName) (bs : List BranchName) :
    deletedUpTo (b :: bs) b = [b] := by
  simp [deletedUpTo]

theorem deletedUpTo_cons_ne {b x : BranchName} (h : x ≠ b) (bs : List BranchName) :
    deletedUpTo (x :: bs) b = x :: deletedUpTo bs b := by
  simp [deletedUpTo, h]

/-- A branch whose deletion is spared keeps the commits on it. -/
theorem deleteOlderRebuild_spared {c : CommitId} {t : TagContents BranchName} {r : List ρ}
    {b : BranchName} (hb : t.branch = some b) (bs : List BranchName) (hspare : env.Spares bs b) :
    Preserves (Home c t r) (forEach env.deleteOlderRebuild bs) := by
  refine (Spec.forEach (fun bs s => Home c t r s ∧ env.Spares bs b)
    (fun x bs => Spec.of_and fun hsp => ?_) bs).weaken (fun s hs => ⟨hs, hspare⟩)
    (fun _ s hs => hs.1) (fun _ _ h => h) (fun _ _ h => h)
  refine Spec.bind
    (R := fun _ s => Home c t r s ∧ env.fails (.openForDelete x) = false)
    (env.opens_spec (fun s hs hop => ⟨hs, hop⟩) (fun s hs _ => hs)) fun _ =>
      Spec.of_and fun hop => ?_
  by_cases hx : x = b
  · -- the branch itself: its own deletion is the call that fails
    subst hx
    have hfail : env.fails (.deleteBranch x) = true := by
      rcases hsp with h | ⟨b', hb', h⟩
      · exact h
      · rw [deletedUpTo_cons_self, List.mem_singleton] at hb'
        rw [hb', hop] at h
        cases h
    refine Spec.bind (env.softWrites_spec (fun s s' hs hno _ => ?_) (fun s hs _ => hs)) fun _ =>
      Spec.pure fun s hs => ⟨hs, .inl hfail⟩
    rw [hfail] at hno
    cases hno
  · have hsp' : env.Spares bs b := by
      refine hsp.imp id ?_
      rintro ⟨b', hb', h⟩
      rw [deletedUpTo_cons_ne hx, List.mem_cons] at hb'
      refine ⟨b', hb'.resolve_left ?_, h⟩
      rintro rfl
      rw [hop] at h
      cases h
    exact Spec.bind (env.preserves_deleteBranch fun s hs => hs.dropBranch fun h =>
      hx (Option.some.inj (h.symm.trans hb))) fun _ => Spec.pure fun s hs => ⟨hs, hsp'⟩

/-- A branch whose deletion is not spared is deleted, and the tags on it are stranded. -/
theorem deleteOlderRebuild_stranded {c : CommitId} {b : BranchName} (bs : List BranchName)
    (hmem : b ∈ bs) (hspare : ¬ env.Spares bs b) :
    Spec (fun s => ∀ t, s.tags.lookup c = some t → t.branch = some b)
      (forEach env.deleteOlderRebuild bs) (fun _ => Stranded c b) (fun _ => Stranded c b)
      (fun _ _ => True) := by
  refine (Spec.forEach (fun bs s => (∀ t, s.tags.lookup c = some t → t.branch = some b) ∧
    (Stranded c b s ∨ (b ∈ bs ∧ ¬ env.Spares bs b))) (fun x bs => ?_) bs).weaken
    (fun s hs => ⟨hs, .inr ⟨hmem, hspare⟩⟩) (fun _ s hs => hs.2.resolve_right (by simp))
    (fun _ _ h => h) (fun _ _ h => h)
  refine Spec.of_forall fun s₀ ⟨htag, hs₀⟩ => ?_
  rcases hs₀ with hgone | ⟨hb, hsp⟩
  · refine Spec.bind (R := fun _ => Stranded c b) (env.opens_spec (fun s hs _ => hs ▸ hgone)
      (fun s hs _ => hs ▸ hgone)) fun _ => Spec.bind (env.softWrites_spec (fun s s' hs _ hf => ?_)
      (fun s hs _ => hs)) fun _ => Spec.pure fun s hs => ⟨hs.2, .inl hs⟩
    obtain ⟨-, rfl⟩ := deleteBranch_ok.mp hf
    exact ⟨trivial, hs.dropBranch x⟩
  · have hopen : env.fails (.openForDelete x) = false := by
      refine Bool.eq_false_iff.mpr fun h => hsp (.inr ⟨x, ?_, h⟩)
      by_cases hx : x = b
      · rw [hx, deletedUpTo_cons_self]
        exact List.mem_singleton_self b
      · rw [deletedUpTo_cons_ne hx]
        exact List.mem_cons_self
    refine Spec.bind (R := fun _ s => s = s₀) (env.opens_spec (fun s hs _ => hs)
      (fun s _ h => by rw [hopen] at h; cases h)) fun _ => ?_
    by_cases hx : x = b
    · subst hx
      have hdel : env.fails (.deleteBranch x) = false :=
        Bool.eq_false_iff.mpr fun h => hsp (.inl h)
      refine Spec.bind (env.softWrites_spec (Q := Stranded c x) (fun s s' hs _ hf => ?_)
        (fun s hs h => ?_)) fun _ => Spec.pure fun s hs => ⟨hs.2, .inl hs⟩
      · subst hs
        obtain ⟨-, rfl⟩ := deleteBranch_ok.mp hf
        exact ⟨trivial, fun hin => (AList.mem_erase.mp hin).1 rfl, htag⟩
      · subst hs
        refine ⟨fun hin => ?_, htag⟩
        rcases h with h | ⟨e, h⟩
        · rw [hdel] at h
          cases h
        · rw [deleteBranch_ok.mpr ⟨hin, rfl⟩] at h
          cases h
    · refine Spec.bind (env.softWrites_spec
        (Q := fun s => ∀ t, s.tags.lookup c = some t → t.branch = some b) (fun s s' hs _ hf => ?_)
        (fun s hs _ => hs ▸ htag)) fun _ => Spec.pure fun s hs => ⟨hs, .inr ⟨?_, ?_⟩⟩
      · subst hs
        obtain ⟨-, rfl⟩ := deleteBranch_ok.mp hf
        exact ⟨trivial, htag⟩
      · exact (List.mem_cons.mp hb).resolve_left (Ne.symm hx)
      · rintro (h | ⟨b', hb', h⟩)
        · exact hsp (.inl h)
        · exact hsp (.inr ⟨b', by rw [deletedUpTo_cons_ne hx]; exact List.mem_cons_of_mem _ hb', h⟩)

theorem filter_erase_of_not {p : BranchName → Bool} {b : BranchName} (h : p b = false)
    (l : List BranchName) : (l.erase b).filter p = l.filter p := by
  induction l with
  | nil => rfl
  | cons x l ih =>
    by_cases hx : x = b
    · subst hx
      rw [List.erase_cons_head, List.filter_cons, h, if_neg Bool.false_ne_true]
    · rw [List.erase_cons_tail (by simpa using hx), List.filter_cons, List.filter_cons, ih]

theorem Replayed.olderRebuilds {s : LanceDataset ρ} (h : env.Replayed ds s) :
    env.olderRebuilds s = env.olderRebuilds ds := by
  have hnot : env.onOlderRebuild (some env.rebuildBranch) = false := by simp [onOlderRebuild]
  unfold RetagEnv.olderRebuilds
  rw [← filter_erase_of_not hnot, h.order, filter_erase_of_not hnot]

theorem deleteOlderRebuilds_spec {s₀ : LanceDataset ρ} {Q : LanceDataset ρ → Prop}
    (hlist : env.fails .listBranches = true → Q s₀)
    (hloop : env.fails .listBranches = false → Spec (fun s => s = s₀)
      (forEach env.deleteOlderRebuild (env.olderRebuilds s₀)) (fun _ => Q) (fun _ => Q)
      (fun _ _ => True)) :
    Spec (fun s => s = s₀) env.deleteOlderRebuilds (fun _ => Q) (fun _ => Q) (fun _ _ => True) := by
  refine Spec.bind (R := fun all s => s = s₀ ∧ all = s₀.branches.keys ∧
    env.fails .listBranches = false) (env.reads_spec (fun s a hs hop hf => ?_) (fun s hs h => ?_))
    fun all => Spec.of_and ?_
  · subst hs
    exact ⟨rfl, (Except.ok.inj hf).symm, hop⟩
  · subst hs
    exact hlist (h.resolve_right (by simp))
  · rintro ⟨rfl, hop⟩
    exact Spec.bind (hloop hop) fun _ => Spec.pure fun _ h => h

/-- A commit on a spared branch outlives the sweep. -/
theorem sweep_spared {s₀ : LanceDataset ρ} {c : CommitId} {t : TagContents BranchName}
    {r : List ρ} {b : BranchName} (hb : t.branch = some b) (h : Home c t r s₀)
    (hspare : env.fails .listBranches = true ∨ env.Spares (env.olderRebuilds s₀) b) :
    Spec (fun s => s = s₀) env.sweep (fun _ => Home c t r) (fun _ => Home c t r)
      (fun _ _ => True) := by
  refine Spec.bind (deleteOlderRebuilds_spec (fun _ => h) fun hop => ?_) fun _ =>
    Spec.weaken (Preserves.bind (Preserves.attempt env.cleanupOrphaned_home)
      fun _ => env.preserves_opens) (fun _ hs => hs) (fun _ _ hs => hs) (fun _ _ hs => hs)
      (fun _ _ _ => trivial)
  have hsp := hspare.resolve_left (by simp [hop])
  exact (deleteOlderRebuild_spared hb _ hsp).weaken (fun s hs => hs ▸ h) (fun _ _ hs => hs)
    (fun _ _ hs => hs) (fun _ _ _ => trivial)

/-- A commit on a branch that is not spared is lost by the sweep. -/
theorem sweep_stranded {s₀ : LanceDataset ρ} {c : CommitId} {b : BranchName}
    (htag : ∀ t, s₀.tags.lookup c = some t → t.branch = some b)
    (hmem : b ∈ env.olderRebuilds s₀) (hlist : env.fails .listBranches = false)
    (hspare : ¬ env.Spares (env.olderRebuilds s₀) b) :
    Spec (fun s => s = s₀) env.sweep (fun _ => Stranded c b) (fun _ => Stranded c b)
      (fun _ _ => True) := by
  refine Spec.bind (deleteOlderRebuilds_spec (fun h => ?_) fun _ => ?_) fun _ =>
    Spec.weaken (Preserves.bind (Preserves.attempt (env.preserves_cleanupOrphaned (fun _ => True)
      (fun _ => True) (fun _ _ _ _ => trivial) (fun _ _ _ _ _ => trivial)
      (fun _ x _ hs => hs.dropTag x) (fun _ x _ hs => hs.dropBranch x) (fun _ hs => hs)))
      fun _ => env.preserves_opens) (fun _ hs => hs) (fun _ _ hs => hs) (fun _ _ hs => hs)
      (fun _ _ _ => trivial)
  · rw [hlist] at h
    cases h
  · exact (deleteOlderRebuild_stranded _ hmem hspare).pre fun s hs => hs ▸ htag

section Loss

variable (env) (ds)

/-- A failed call ends the run before the tags have all moved. -/
def StopsMoves (first : CommitId) : Prop :=
  (∃ c, env.Moves ds first c ∧ (env.fails (.openMain c) = true ∨
    env.fails (.deleteTag c) = true ∨ env.fails (.createTag c) = true)) ∨
  ∃ c, c ∈ ds.tags ∧ c ≠ first ∧ AtBoundary env.order ds c ∧ env.fails (.listTags c) = true

/-- The replay completes, and then a tag is deleted and not created again, or the first
commit is left on an older rebuild branch that is deleted. -/
def Loses : Prop :=
  env.fails .listCommits = false ∧
    ∃ first rest, sorted env.order ds = first :: rest ∧ 1 < rest.length ∧
    ReplayClear env ds first rest ∧
    ((∃ c, env.Moves ds first.1 c ∧ env.fails (.createTag c) = true) ∨
      ∃ t b, ds.tags.lookup first.1 = some t ∧ t.branch = some b ∧
        env.onOlderRebuild (some b) ∧ ¬ env.StopsMoves ds first.1 ∧
        env.fails .listBranches = false ∧ ¬ env.Spares (env.olderRebuilds ds) b)

end Loss

variable {first : CommitId × ℕ} {rest : List (CommitId × ℕ)} {s₁ : LanceDataset ρ}
  {Rel : CommitId → List ρ → Prop}

theorem noLoss_of_home {s : LanceDataset ρ}
    (h : ∀ c t r, Home c t r ds → ∃ t' r', Home c t' r' s) : NoLoss ds s := by
  intro c hc
  obtain ⟨r, hr⟩ := Option.isSome_iff_exists.mp hc
  obtain ⟨t, hhome⟩ := exists_home hr
  obtain ⟨t', r', hhome'⟩ := h c t r hhome
  simp [hhome'.served]

theorem Replayed.noLoss {s : LanceDataset ρ} (h : env.Replayed ds s) (hfresh : env.FreshEpoch ds) :
    NoLoss ds s := fun c hc => by rwa [h.served hfresh]

theorem ReadyToMove.noLoss_movedAll (h : ReadyToMove env ds Rel first rest s₁)
    (hfresh : env.FreshEpoch ds) (hsort : sorted env.order ds = first :: rest)
    {es : List (CommitId × ℕ)} (hes : es <+: env.movesOf ds first rest) :
    NoLoss ds (env.movedAll s₁ es) := by
  refine noLoss_of_home fun c t r hhome => ?_
  by_cases hc : c ∈ es.map Prod.fst
  · obtain ⟨t', r', hhome', -⟩ := h.home_of_mem hsort hes hc
    exact ⟨t', r', hhome'⟩
  · exact ⟨t, r, h.home_of_notMem hfresh hc hhome⟩

/-- Stopped between two moves, no commit is lost. -/
theorem noLoss_of_movesStopped (h : ReadyToMove env ds Rel first rest s₁)
    (hfresh : env.FreshEpoch ds) (hsort : sorted env.order ds = first :: rest)
    (hlen : 1 < rest.length)
    (hcreate : ∀ c, env.Moves ds first.1 c → env.fails (.createTag c) = false)
    {s : LanceDataset ρ}
    (hstop : env.MovesStopped s₁ (env.plan ds first rest).1 (env.plan ds first rest).2 s) :
    NoLoss ds s := by
  rw [MovesStopped, h.moves_eq] at hstop
  rcases hstop with ⟨pre, hpre, rfl, -⟩ | ⟨pre, e, hpre, -, hfail⟩
  · exact h.noLoss_movedAll hfresh hsort hpre
  · have hmem : e.1 ∈ (env.movesOf ds first rest).map Prod.fst :=
      List.mem_map_of_mem (hpre.subset (by simp))
    rw [hcreate _ ((mem_movesOf hsort hlen).mp hmem)] at hfail
    cases hfail

/-- After all moves only the first commit can still be on an older rebuild branch. -/
theorem home_movedAll_cases (h : ReadyToMove env ds Rel first rest s₁)
    (hfresh : env.FreshEpoch ds) (hsort : sorted env.order ds = first :: rest)
    (hlen : 1 < rest.length)
    {c : CommitId} {t : TagContents BranchName} {r : List ρ} (hhome : Home c t r ds) :
    (∃ t' r', Home c t' r' (env.movedAll s₁ (env.movesOf ds first rest)) ∧
      env.onOlderRebuild t'.branch = false) ∨
    (c = first.1 ∧ env.onOlderRebuild t.branch ∧
      Home c t r (env.movedAll s₁ (env.movesOf ds first rest))) := by
  by_cases hc : c ∈ (env.movesOf ds first rest).map Prod.fst
  · obtain ⟨t', r', hhome', hb, -⟩ := h.home_of_mem hsort (List.prefix_refl _) hc
    refine .inl ⟨t', r', hhome', ?_⟩
    simp [hb, onOlderRebuild]
  · have hstay := h.home_of_notMem hfresh hc hhome
    cases hold : env.onOlderRebuild t.branch with
    | false => exact .inl ⟨t, r, hstay, hold⟩
    | true =>
      refine .inr ⟨?_, rfl, hstay⟩
      by_contra hne
      exact hc ((mem_movesOf hsort hlen).mpr ⟨t, hhome.1, .inr ⟨hne, hold⟩⟩)

theorem stopsMoves_of_movesStopped (h : ReadyToMove env ds Rel first rest s₁)
    (hsort : sorted env.order ds = first :: rest) (hlen : 1 < rest.length) {s : LanceDataset ρ}
    (hstop : env.MovesStopped s₁ (env.plan ds first rest).1 (env.plan ds first rest).2 s) :
    env.StopsMoves ds first.1 := by
  rw [MovesStopped, h.moves_eq] at hstop
  have hmoves : ∀ e ∈ env.movesOf ds first rest, env.Moves ds first.1 e.1 := fun e he =>
    (mem_movesOf hsort hlen).mp (List.mem_map_of_mem he)
  rcases hstop with ⟨pre, -, -, ⟨e, he, hop⟩ | ⟨e, he, hop⟩⟩ | ⟨pre, e, hpre, -, hop⟩
  · exact .inl ⟨e.1, hmoves e he, hop.imp id .inl⟩
  · obtain ⟨hmem, hne, hb⟩ := (mem_bounds hsort hlen).mp (List.mem_map_of_mem he)
    exact .inr ⟨e.1, hmem, hne, hb, hop⟩
  · exact .inl ⟨e.1, hmoves e (hpre.subset (by simp)), .inr (.inr hop)⟩

/-- The sweep loses nothing unless the first commit is stranded. -/
theorem sweep_noLoss (h : ReadyToMove env ds Rel first rest s₁) (hfresh : env.FreshEpoch ds)
    (hsort : sorted env.order ds = first :: rest) (hlen : 1 < rest.length)
    (hspare : ∀ t b, ds.tags.lookup first.1 = some t → t.branch = some b →
      env.onOlderRebuild (some b) →
      env.fails .listBranches = true ∨ env.Spares (env.olderRebuilds ds) b) :
    Spec (fun s => s = env.movedAll s₁ (env.movesOf ds first rest)) env.sweep
      (fun _ => NoLoss ds) (fun _ => NoLoss ds) (fun _ _ => True) := by
  refine (Spec.all (T := fun _ _ => True)
    (Q := fun (x : { x : CommitId × TagContents BranchName × List ρ // Home x.1 x.2.1 x.2.2 ds })
      _ s => ∃ t' r', Home x.1.1 t' r' s)
    (E := fun x _ s => ∃ t' r', Home x.1.1 t' r' s) ?_ (fun _ _ _ _ => trivial)).weaken
    (fun _ hs => hs) (fun _ s hs => noLoss_of_home fun c t r hhome => hs ⟨(c, t, r), hhome⟩)
    (fun _ s hs => noLoss_of_home fun c t r hhome => hs ⟨(c, t, r), hhome⟩) (fun _ _ h => h)
  rintro ⟨⟨c, t, r⟩, hhome⟩
  rcases home_movedAll_cases h hfresh hsort hlen hhome with ⟨t', r', hhome', hold⟩ |
    ⟨rfl, hold, hhome'⟩
  · exact (env.sweep_home hold).weaken (fun s hs => hs ▸ hhome') (fun _ _ hs => ⟨t', r', hs⟩)
      (fun _ _ hs => ⟨t', r', hs⟩) (fun _ _ _ => trivial)
  · cases hb : t.branch with
    | none => simp [hb, onOlderRebuild] at hold
    | some b =>
      rw [hb] at hold
      have hsp := hspare t b hhome.1 hb hold
      rw [← h.replayed.olderRebuilds] at hsp
      refine (sweep_spared hb hhome' ?_).weaken (fun _ hs => hs) (fun _ _ hs => ⟨t, r, hs⟩)
        (fun _ _ hs => ⟨t, r, hs⟩) (fun _ _ _ => trivial)
      simpa [RetagEnv.olderRebuilds] using hsp

theorem retag_noLoss (hfresh : env.FreshEpoch ds) (hsafe : ¬ env.Loses ds) :
    NoLoss ds (env.retag ds).store := by
  have hspec : Spec (fun s => s = ds) env.retag (fun _ => NoLoss ds) (fun _ => NoLoss ds)
      (fun _ _ => True) := by
    refine retag_spec (fun _ _ h => h) (fun _ _ _ h => h) (fun hlist first rest hsort hlen => ?_)
    refine retagSorted_spec hfresh (fun _ _ => True) (fun _ _ _ _ _ _ _ _ => trivial)
      (fun h => by simp [h] at hlen) (fun _ _ => trivial) (fun s hs _ => hs.noLoss hfresh)
      (fun _ _ _ => trivial) fun s₁ hready => ?_
    have hcreate : ∀ c, env.Moves ds first.1 c → env.fails (.createTag c) = false := fun c hc =>
      Bool.eq_false_iff.mpr fun hfail =>
        hsafe ⟨hlist, first, rest, hsort, hlen, hready.clear, .inl ⟨c, hc, hfail⟩⟩
    refine phase2_spec hready hsort
      (fun s hs => noLoss_of_movesStopped hready hfresh hsort hlen hcreate hs)
      (fun _ _ _ => trivial) fun hclear => ?_
    refine sweep_noLoss hready hfresh hsort hlen fun t b ht hb hold => ?_
    by_contra hnot
    rw [not_or, Bool.not_eq_true] at hnot
    refine hsafe ⟨hlist, first, rest, hsort, hlen, hready.clear,
      .inr ⟨t, b, ht, hb, hold, ?_, hnot.1, hnot.2⟩⟩
    rw [MovesClear, hready.moves_eq] at hclear
    rintro (⟨c, hc, hop⟩ | ⟨c, hmem, hne, hbound, hop⟩)
    · obtain ⟨e, he, rfl⟩ := List.mem_map.mp ((mem_movesOf hsort hlen).mpr hc)
      obtain ⟨h1, h2, h3⟩ := hclear.1 e he
      simp [h1, h2, h3] at hop
    · obtain ⟨e, he, rfl⟩ := List.mem_map.mp ((mem_bounds hsort hlen).mpr ⟨hmem, hne, hbound⟩)
      rw [hclear.2 e he] at hop
      cases hop
  exact hspec.final rfl

/-- The first commit is stranded when it is on an older rebuild branch, the tags all move
and the branch is not spared. -/
theorem retag_strands_first (hfresh : env.FreshEpoch ds) (hlist : env.fails .listCommits = false)
    (hsort : sorted env.order ds = first :: rest) (hlen : 1 < rest.length)
    (hclear : ReplayClear env ds first rest) {t : TagContents BranchName} {b : BranchName}
    (ht : ds.tags.lookup first.1 = some t) (hb : t.branch = some b)
    (hold : env.onOlderRebuild (some b)) (hrun : ¬ env.StopsMoves ds first.1)
    (hbranches : env.fails .listBranches = false)
    (hspare : ¬ env.Spares (env.olderRebuilds ds) b) :
    Stranded first.1 b (env.retag ds).store := by
  have hspec : Spec (fun s => s = ds) env.retag (fun _ => Stranded first.1 b)
      (fun _ => Stranded first.1 b) (fun _ _ => True) := by
    refine retag_spec (fun h => by rw [hlist] at h; cases h)
      (fun _ h => by rw [hsort, List.length_cons] at h; omega) (fun _ first' rest' hsort' _ => ?_)
    obtain ⟨rfl, rfl⟩ := List.cons.inj (hsort.symm.trans hsort')
    refine retagSorted_spec hfresh (fun _ _ => True) (fun _ _ _ _ _ _ _ _ => trivial)
      (fun h => by simp [h] at hlen) (fun _ _ => trivial) (fun s _ h => absurd hclear h)
      (fun _ _ _ => trivial) fun s₁ hready => ?_
    refine phase2_spec hready hsort
      (fun s hs => absurd (stopsMoves_of_movesStopped hready hsort hlen hs) hrun)
      (fun _ _ _ => trivial) fun _ => ?_
    obtain ⟨r, hhome⟩ := hclear.exists_home hsort ht
    have hfirst : first.1 ∉ (env.movesOf ds first rest).map Prod.fst := by
      rw [mem_movesOf hsort hlen]
      rintro ⟨t', -, hnot | ⟨hne, -⟩⟩
      · exact hnot (atBoundary_first hsort hlen)
      · exact hne rfl
    have hstay := hready.home_of_notMem hfresh hfirst hhome
    have holder : env.olderRebuilds (env.movedAll s₁ (env.movesOf ds first rest)) =
        env.olderRebuilds ds := by
      rw [← hready.replayed.olderRebuilds]
      simp [RetagEnv.olderRebuilds]
    refine sweep_stranded (fun t' ht' => ?_) ?_ hbranches ?_
    · obtain rfl : t' = t := Option.some.inj (ht'.symm.trans hstay.1)
      exact hb
    · rw [holder]
      exact List.mem_filter.mpr ⟨AList.mem_keys.mp (hhome.mem_branches hb), hold⟩
    · rwa [holder]
  exact hspec.final rfl

/-- A tag is lost when it is to be moved and its new version is the call that fails. -/
theorem retag_loses_moved {fault : Option RetagOp} (hfault : env.fails = singleFault fault)
    (hfresh : env.FreshEpoch ds) (hlist : env.fails .listCommits = false)
    (hsort : sorted env.order ds = first :: rest) (hlen : 1 < rest.length)
    (hclear : ReplayClear env ds first rest) {c : CommitId} (hc : env.Moves ds first.1 c)
    (hfail : env.fails (.createTag c) = true) : (env.retag ds).store.served c = none := by
  have honly : ∀ {op}, env.fails op = true → op = .createTag c := by
    intro op h
    rw [hfault, singleFault, decide_eq_true_eq] at h hfail
    exact Option.some.inj (h.symm.trans hfail)
  have hspec : Spec (fun s => s = ds) env.retag (fun _ s => s.served c = none)
      (fun _ s => s.served c = none) (fun _ _ => True) := by
    refine retag_spec (fun h => by rw [hlist] at h; cases h)
      (fun _ h => by rw [hsort, List.length_cons] at h; omega) (fun _ first' rest' hsort' _ => ?_)
    obtain ⟨rfl, rfl⟩ := List.cons.inj (hsort.symm.trans hsort')
    refine retagSorted_spec hfresh (fun _ _ => True) (fun _ _ _ _ _ _ _ _ => trivial)
      (fun h => by simp [h] at hlen) (fun _ _ => trivial) (fun s _ h => absurd hclear h)
      (fun _ _ _ => trivial) fun s₁ hready => ?_
    refine phase2_spec hready hsort (fun s hs => ?_) (fun _ _ _ => trivial) fun hmoves => ?_
    · rw [MovesStopped, hready.moves_eq] at hs
      rcases hs with ⟨pre, -, -, ⟨e, -, h | h⟩ | ⟨e, -, h⟩⟩ | ⟨pre, e, -, rfl, h⟩
      · cases honly h
      · cases honly h
      · cases honly h
      · obtain rfl : e.1 = c := RetagOp.createTag.inj (honly h)
        simp [Dataset.served, lookup_dropTag]
    · obtain ⟨e, he, rfl⟩ := List.mem_map.mp ((mem_movesOf hsort hlen).mpr hc)
      rw [MovesClear, hready.moves_eq] at hmoves
      rw [(hmoves.1 e he).2.2] at hfail
      cases hfail
  exact hspec.final rfl

/-- With one failed call, what `Loses` describes does happen. -/
theorem retag_loses {fault : Option RetagOp} (hfault : env.fails = singleFault fault)
    (hfresh : env.FreshEpoch ds) (hloses : env.Loses ds) : ¬ NoLoss ds (env.retag ds).store := by
  obtain ⟨hlist, first, rest, hsort, hlen, hclear, hwhy⟩ := hloses
  have hlost : ∀ c t, ds.tags.lookup c = some t → (env.retag ds).store.served c = none →
      ¬ NoLoss ds (env.retag ds).store := by
    intro c t ht hnone hno
    obtain ⟨r, hhome⟩ := hclear.exists_home hsort ht
    have hsome := hno c (by simp [hhome.served])
    rw [hnone] at hsome
    cases hsome
  rcases hwhy with ⟨c, hc, hfail⟩ | ⟨t, b, ht, hb, hold, hrun, hbranches, hspare⟩
  · have hnone := retag_loses_moved hfault hfresh hlist hsort hlen hclear hc hfail
    obtain ⟨t, ht, -⟩ := hc
    exact hlost c t ht hnone
  · have hstranded := retag_strands_first hfresh hlist hsort hlen hclear ht hb hold hrun
      hbranches hspare
    exact hlost first.1 t ht hstranded.served_eq_none

/-- With at most one failed call, every commit survives a compaction precisely when that
call does not come between deleting a tag and creating it again, and the first commit is
not left on an older rebuild branch that gets deleted. -/
theorem retag_noLoss_iff {fault : Option RetagOp} (hfault : env.fails = singleFault fault)
    (hfresh : env.FreshEpoch ds) : NoLoss ds (env.retag ds).store ↔ ¬ env.Loses ds :=
  ⟨fun h hloses => retag_loses hfault hfresh hloses h, retag_noLoss hfresh⟩

end RetagEnv

/-- Three commits on the default branch. -/
def linearHistory : LanceDataset (ChunkRow Unit) := RetagEnv.built do
  let ds ← Dataset.create.commit none (· ++ [oneChunk "a" "1"])
  let ds ← ds.createTag "c0" none 2
  let ds ← ds.commit none (· ++ [oneChunk "b" "2"])
  let ds ← ds.createTag "c1" none 3
  let ds ← ds.commit none (· ++ [oneChunk "c" "3"])
  ds.createTag "c2" none 4

theorem retag_noLoss_linearHistory :
    NoLoss linearHistory (ioRetagWithDeltaForks 7 (singleFault (some (.deleteTag "c1")))
      (fun _ => 1) .listed linearHistory).store := by
  refine (RetagEnv.retag_noLoss_iff rfl (RetagEnv.freshEpoch_of_entries (by decide))).mpr ?_
  rintro ⟨-, first, rest, hsort, -, -, ⟨c, -, hfail⟩ | ⟨t, b, ht, hb, -⟩⟩
  · simp [singleFault] at hfail
  · have hlist : RetagEnv.sorted .listed linearHistory = [("c0", 2), ("c1", 3), ("c2", 4)] := by
      decide
    obtain rfl : ("c0", 2) = first := (List.cons.inj (hlist.symm.trans hsort)).1
    have htag : linearHistory.tags.lookup "c0" = some ⟨none, 2, 0⟩ := by decide
    obtain rfl : ⟨none, 2, 0⟩ = t := Option.some.inj (htag.symm.trans ht)
    cases hb

/-- The tag of the second commit is deleted, its new one cannot be created. -/
theorem retag_not_noLoss :
    ¬ ∀ (epoch : ℕ) (fault : Option RetagOp) (ftsVersions : CommitId → ℕ)
      (order : HashOrder (CommitId × ℕ)) (ds : LanceDataset (ChunkRow Unit)),
      NoLoss ds (ioRetagWithDeltaForks epoch (singleFault fault) ftsVersions order ds).store := by
  intro h
  have hc1 := h 7 (some (.createTag "c1")) (fun _ => 1) .listed linearHistory "c1" (by decide)
  revert hc1
  decide

end Vectorlink
