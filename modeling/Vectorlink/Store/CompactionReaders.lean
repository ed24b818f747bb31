import Vectorlink.Service.Resolve
import Vectorlink.Store.CompactionLoss

/-! Search requests that run while a compaction moves tags and deletes branches. -/
namespace Vectorlink

open Stepwise Stepwise.Program Versioned Dataset

variable {ρ : Type}

namespace RetagEnv

variable {env : RetagEnv ρ} {ds : LanceDataset ρ} {c : CommitId} {t : TagContents BranchName}
  {r : List ρ}

def states (env : RetagEnv ρ) (ds : LanceDataset ρ) : List (LanceDataset ρ) :=
  ds :: (env.retag ds).trace.map Prod.snd

/-- However its reads fall, a request for `c` is served at `c`. -/
def StaysVisible (env : RetagEnv ρ) (ds : LanceDataset ρ) (c : CommitId) : Prop :=
  ∀ branch ancestors cached answer,
    Observes (env.states ds) (serveRequest branch c ancestors cached) answer → ServedAt c answer

theorem Replayed.home {s : LanceDataset ρ} (h : env.Replayed ds s) (hfresh : env.FreshEpoch ds)
    (hhome : Home c t r ds) : Home c t r s := by
  refine ⟨?_, ?_⟩
  · rw [h.tags, hhome.1]
  · rw [h.rowsAt (hfresh c t hhome.1), hhome.2]

theorem MidMove.home {first : CommitId × ℕ} {rest : List (CommitId × ℕ)} {s₁ s : LanceDataset ρ}
    {Rel : CommitId → List ρ → Prop} (hready : ReadyToMove env ds Rel first rest s₁)
    (hfresh : env.FreshEpoch ds) (hc : c ∉ (env.movesOf ds first rest).map Prod.fst)
    (hhome : Home c t r ds)
    (h : env.MidMove s₁ (env.plan ds first rest).1 (env.plan ds first rest).2 s) :
    Home c t r s := by
  obtain ⟨pre, e, hpre, hs⟩ := h
  rw [hready.moves_eq] at hpre
  have hne : c ∉ (pre ++ [e]).map Prod.fst := fun h => hc ((hpre.map Prod.fst).subset h)
  rcases hs with rfl | rfl
  · have hstay := hready.home_of_notMem hfresh
      (fun h => hne (by rw [List.map_append]; exact List.mem_append_left _ h)) hhome
    exact hstay.dropTag fun h => hne (by simp [h])
  · exact hready.home_of_notMem hfresh hne hhome

theorem home_of_mem_states (hfresh : env.FreshEpoch ds) (hhome : Home c t r ds)
    (hkeep : ∀ first rest, sorted env.order ds = first :: rest → 1 < rest.length →
      ReplayClear env ds first rest →
        AtBoundary env.order ds c ∧ env.onOlderRebuild t.branch = false) :
    ∀ s ∈ env.states ds, Home c t r s := by
  have hspec : Spec (fun s => s = ds) env.retag (fun _ _ => True) (fun _ _ => True)
      (fun _ => Home c t r) := by
    refine retag_spec (fun _ => trivial) (fun _ _ => trivial) (fun _ first rest hsort hlen => ?_)
    refine retagSorted_spec hfresh (fun _ _ => True) (fun _ _ _ _ _ _ _ _ => trivial)
      (fun h => by simp [h] at hlen) (fun _ _ => trivial) (fun _ _ _ => trivial)
      (fun _ s hs => hs.home hfresh hhome) fun s₁ hready => ?_
    obtain ⟨hbound, hold⟩ := hkeep first rest hsort hlen hready.clear
    have hc : c ∉ (env.movesOf ds first rest).map Prod.fst := by
      rw [mem_movesOf hsort hlen]
      rintro ⟨t', ht', hnot | ⟨-, holder⟩⟩
      · exact hnot hbound
      · obtain rfl : t' = t := Option.some.inj (ht'.symm.trans hhome.1)
        rw [hold] at holder
        cases holder
    refine phase2_spec hready hsort (fun _ _ => trivial)
      (fun _ s hs => hs.home hready hfresh hc hhome) fun _ => ?_
    exact (env.sweep_home hold).weaken (fun s hs => hs ▸ hready.home_of_notMem hfresh hc hhome)
      (fun _ _ _ => trivial) (fun _ _ _ => trivial) (fun _ _ h => h)
  intro s hs
  rcases List.mem_cons.mp hs with rfl | hs
  · exact hhome
  · obtain ⟨e, he, rfl⟩ := List.mem_map.mp hs
    exact (hspec ds rfl).1 e he

theorem retag_moved (hfresh : env.FreshEpoch ds) (hfails : ∀ op, env.fails op = false)
    {first : CommitId × ℕ} {rest : List (CommitId × ℕ)}
    (hsort : sorted env.order ds = first :: rest) (hlen : 1 < rest.length)
    (hclear : ReplayClear env ds first rest)
    (hc : env.Moves ds first.1 c) :
    ∃ t', (env.retag ds).store.tags.lookup c = some t' ∧ t'.branch = some env.rebuildBranch := by
  have hspec : Spec (fun s => s = ds) env.retag
      (fun _ s => ∃ t', s.tags.lookup c = some t' ∧ t'.branch = some env.rebuildBranch)
      (fun _ s => ∃ t', s.tags.lookup c = some t' ∧ t'.branch = some env.rebuildBranch)
      (fun _ _ => True) := by
    refine retag_spec (fun h => by simp [hfails] at h)
      (fun _ h => by rw [hsort, List.length_cons] at h; omega) (fun _ first' rest' hsort' _ => ?_)
    obtain ⟨rfl, rfl⟩ := List.cons.inj (hsort.symm.trans hsort')
    refine retagSorted_spec hfresh (fun _ _ => True) (fun _ _ _ _ _ _ _ _ => trivial)
      (fun h => by simp [h] at hlen) (fun _ _ => trivial) (fun s _ h => absurd hclear h)
      (fun _ _ _ => trivial) fun s₁ hready => ?_
    refine phase2_spec hready hsort (fun s hs => ?_) (fun _ _ _ => trivial) fun _ => ?_
    · simp [MovesStopped, hfails] at hs
    · obtain ⟨t', r', hhome', hb, -⟩ := hready.home_of_mem hsort (List.prefix_refl _)
        ((mem_movesOf hsort hlen).mpr hc)
      have hold : env.onOlderRebuild t'.branch = false := by simp [hb, onOlderRebuild]
      exact (env.sweep_home hold).weaken (fun s hs => hs ▸ hhome') (fun _ s hs => ⟨t', hs.1, hb⟩)
        (fun _ s hs => ⟨t', hs.1, hb⟩) (fun _ _ _ => trivial)
  exact hspec.final rfl

/-- A moved commit has no tag at some state in between: Lance cannot replace a tag. -/
theorem exists_untagged_state (hfresh : env.FreshEpoch ds) (hfails : ∀ op, env.fails op = false)
    {first : CommitId × ℕ} {rest : List (CommitId × ℕ)}
    (hsort : sorted env.order ds = first :: rest) (hlen : 1 < rest.length)
    (hclear : ReplayClear env ds first rest)
    (ht : ds.tags.lookup c = some t) (hc : env.Moves ds first.1 c) :
    ∃ s ∈ env.states ds, s.served c = none := by
  obtain ⟨t', ht', hb⟩ := retag_moved hfresh hfails hsort hlen hclear hc
  have hne : t ≠ t' := by
    rintro rfl
    exact hfresh c t ht hb
  obtain ⟨e, he, hnone⟩ := (walks_retag ds).exists_none (f := fun s => s.tags.lookup c)
    (fun s s' hstep a b ha hb => hstep.lookup_eq ha hb) ht ht' hne
  refine ⟨e.2, List.mem_cons_of_mem _ (List.mem_map_of_mem he), ?_⟩
  simp [Dataset.served, hnone]

theorem exists_stranded_state (hfresh : env.FreshEpoch ds) (hfails : ∀ op, env.fails op = false)
    {first : CommitId × ℕ} {rest : List (CommitId × ℕ)}
    (hsort : sorted env.order ds = first :: rest) (hlen : 1 < rest.length)
    (hclear : ReplayClear env ds first rest)
    (ht : ds.tags.lookup first.1 = some t) (hold : env.onOlderRebuild t.branch) :
    ∃ s ∈ env.states ds, s.served first.1 = none := by
  cases hb : t.branch with
  | none => simp [hb, onOlderRebuild] at hold
  | some b =>
    rw [hb] at hold
    have hstranded := retag_strands_first hfresh (hfails _) hsort hlen hclear ht hb hold
      (by simp [StopsMoves, hfails]) (hfails _) (by simp [Spares, hfails])
    exact ⟨_, (walks_retag ds).mem_last, hstranded.served_eq_none⟩

/-- While a compaction without failing calls runs, an indexed commit stays visible
precisely when there is nothing to compact, the replay is refused, or the commit stands at
a boundary and its tag is not on an older rebuild branch. -/
theorem retag_staysVisible_iff (hfresh : env.FreshEpoch ds) (hfails : ∀ op, env.fails op = false)
    (hhome : Home c t r ds) :
    env.StaysVisible ds c ↔
      ∀ first rest, sorted env.order ds = first :: rest → 1 < rest.length →
        ReplayClear env ds first rest →
          AtBoundary env.order ds c ∧ env.onOlderRebuild t.branch = false := by
  constructor
  · intro hvisible first rest hsort hlen hclear
    have hserved : ∀ s ∈ env.states ds, s.served c ≠ none := by
      intro s hs hnone
      exact not_servedAt_runAt hnone mainBranch [] none
        (hvisible _ _ _ _ (observes_runAt_of_mem hs _))
    have hnot : ¬ env.Moves ds first.1 c := by
      intro hc
      obtain ⟨s, hs, hnone⟩ := exists_untagged_state hfresh hfails hsort hlen hclear hhome.1 hc
      exact hserved s hs hnone
    have hbound : AtBoundary env.order ds c := by
      by_contra h
      exact hnot ⟨t, hhome.1, .inl h⟩
    refine ⟨hbound, Bool.eq_false_iff.mpr fun hold => ?_⟩
    obtain rfl : c = first.1 := by
      by_contra hne
      exact hnot ⟨t, hhome.1, .inr ⟨hne, hold⟩⟩
    obtain ⟨s, hs, hnone⟩ := exists_stranded_state hfresh hfails hsort hlen hclear hhome.1 hold
    exact hserved s hs hnone
  · intro hkeep branch ancestors cached answer hobs
    exact hobs.within (home_of_mem_states hfresh hhome hkeep)
      (serveRequest_within branch ancestors cached)

end RetagEnv

def faultFree {V : Type} (epoch : ℕ) (ftsVersions : CommitId → ℕ)
    (order : HashOrder (CommitId × ℕ)) : RetagEnv (ChunkRow V) :=
  ⟨epoch, fun _ => false, replayDelta, ftsVersions, order⟩

theorem retag_staysVisible_linearHistory :
    (faultFree 7 (fun _ => 1) .listed).StaysVisible linearHistory "c0" := by
  have hhome : Home "c0" ⟨none, 2, 0⟩ [oneChunk "a" "1"] linearHistory := ⟨by decide, by decide⟩
  refine (RetagEnv.retag_staysVisible_iff (RetagEnv.freshEpoch_of_entries (by decide))
    (fun _ => rfl) hhome).mpr fun first rest _ _ _ => ⟨⟨0, by decide, by decide⟩, rfl⟩

/-- Between the delete and the create of its tag, a request for the second commit fails. -/
theorem retag_not_staysVisible :
    ¬ ∀ (epoch : ℕ) (ftsVersions : CommitId → ℕ) (order : HashOrder (CommitId × ℕ))
      (ds : LanceDataset (ChunkRow Unit)) (c : CommitId), (ds.served c).isSome →
      (faultFree epoch ftsVersions order).StaysVisible ds c := by
  intro h
  have hvisible := h 7 (fun _ => 1) .listed linearHistory "c1" (by decide)
  have huntagged : ∃ s ∈ (faultFree 7 (fun _ => 1) .listed).states linearHistory,
      s.served "c1" = none := by decide
  obtain ⟨s, hs, hnone⟩ := huntagged
  exact not_servedAt_runAt hnone mainBranch [] none
    (hvisible _ _ _ _ (observes_runAt_of_mem hs _))

end Vectorlink
