import Vectorlink.IngestText
import Vectorlink.Service.Erasure
import Vectorlink.Service.PushCompletes
import Vectorlink.Service.PushRuns

/-! A streaming push that is given up before its first write, and what the count of received
documents makes of a truncated stream. -/
namespace Vectorlink

open Stepwise Stepwise.Program Versioned

variable {V : Type}

/-- The streaming pipeline on everything the store keeps about the domain. -/
def Footprint.runStream (fp : Footprint V) (env : PushEnv V) (b : BranchName) (commit : CommitId)
    (expectedDocs : Option ℕ) (ops : List Operation) :
    Except String (ℕ × List SkippedDoc) × Footprint V :=
  let r : PushRequest V := ⟨env, commit, ops, .streaming expectedDocs⟩
  let o := env.ioRunIndexPipelineStream b commit expectedDocs ops fp.domain
  (o.result,
    { fp with
      domain := o.store
      indexDeltaCounts :=
        if HttpPush.countsDelta r o.trace then
          Function.update fp.indexDeltaCounts b (fp.indexDeltaCounts b + 1)
        else fp.indexDeltaCounts })

/-- The index as it was: at most an empty dataset has been created. -/
structure Untouched (before after : Footprint V) : Prop where
  heads : ∀ b, (after.domain.opened.lineage? b).map (·.headRows) =
    (before.domain.opened.lineage? b).map (·.headRows)
  tags : after.domain.opened.tags = before.domain.opened.tags
  lastIndexed : ∀ b, (lastIndexed after.domain b).1 = (lastIndexed before.domain b).1
  deltaCounts : after.indexDeltaCounts = before.indexDeltaCounts
  dataset : after.domain.dataset = before.domain.dataset ∨
    before.domain.dataset = none ∧ after.domain.dataset = some .create

section Abandoned

variable {env : PushEnv V} {expectedDocs : Option ℕ} {ops : List Operation}

/-- A stream that is not collected: the pipeline has opened the dataset at most. -/
theorem stream_abandoned (d : Domain V) (b : BranchName) (commit : CommitId) {e : String}
    (hc : env.collectStream expectedDocs ops = .error e) :
    Spec (fun s => s = d) (env.ioRunIndexPipelineStream b commit expectedDocs ops)
      (fun _ _ => False) (fun _ s => s = d ∨ s = d.openDataset)
      (fun op _ => op = .ensureDataset) := by
  refine Spec.bind (R := fun _ s => s = d.openDataset) (withContext_spec
    (env.ioOpenDataset_spec (fun s hs => ⟨rfl, by rw [hs]⟩) fun _ s hs => .inl hs)) fun _ =>
      Spec.bind (R := fun _ s => s = d.openDataset) (withContext_spec
        (env.checkoutBranch_spec (fun s ds l hs _ _ => hs) fun s hs _ => .inr hs)) fun _ =>
          Spec.bind (R := fun _ s => s = d.openDataset) (Spec.look fun s hs => hs)
            fun position => ?_
  rw [hc]
  exact Spec.fail fun s hs => .inr hs

theorem Domain.openDataset_dataset (d : Domain V) :
    d.openDataset.dataset = d.dataset ∨
      d.dataset = none ∧ d.openDataset.dataset = some .create := by
  unfold openDataset
  cases hcached : d.cached with
  | some v => exact .inl rfl
  | none =>
    cases hds : d.dataset with
    | some ds => exact .inl (by simp [opened, hds])
    | none => exact .inr ⟨rfl, by simp [opened, hds]⟩

theorem lastIndexed_openDataset (d : Domain V) (b : BranchName) :
    (lastIndexed d.openDataset b).1 = (lastIndexed d b).1 := by
  unfold lastIndexed
  rw [Domain.openDataset_branchIndexes]
  cases d.branchIndexes.lookup b with
  | some bi => rfl
  | none =>
    rcases d.openDataset_dataset with hsame | ⟨hnone, hcreate⟩
    · rw [hsame]
      dsimp only
      cases d.dataset.bind fun ds => ioDeriveLastIndexed ds b with
      | some found => rfl
      | none => rfl
    · rw [hnone, hcreate]
      rfl

theorem untouched_openDataset {fp fp' : Footprint V}
    (hdomain : fp'.domain = fp.domain ∨ fp'.domain = fp.domain.openDataset)
    (hcounts : fp'.indexDeltaCounts = fp.indexDeltaCounts) : Untouched fp fp' := by
  rcases hdomain with h | h
  · refine ⟨fun b => ?_, ?_, fun b => ?_, hcounts, .inl ?_⟩
    · rw [h]
    · rw [h]
    · rw [h]
    · rw [h]
  · refine ⟨fun b => ?_, ?_, fun b => ?_, hcounts, ?_⟩
    · rw [h, Domain.openDataset_opened]
    · rw [h, Domain.openDataset_opened]
    · rw [h, lastIndexed_openDataset]
    · rw [h]
      exact fp.domain.openDataset_dataset

/-- A push that is aborted, cancelled at any of its looks or rejected as truncated fails, and
leaves the index as it was. -/
theorem abandoned_push_untouched (env : PushEnv V) (b : BranchName) (commit : CommitId)
    (expectedDocs : Option ℕ) (ops : List Operation) (fp : Footprint V)
    (h : Abandoned env.toIngestEnv expectedDocs ops) :
    (∃ e, (fp.runStream env b commit expectedDocs ops).1 = .error e) ∧
      Untouched fp (fp.runStream env b commit expectedDocs ops).2 := by
  cases hc : env.collectStream expectedDocs ops with
  | ok c => exact absurd h (not_abandoned hc)
  | error e =>
    have hspec := stream_abandoned fp.domain b commit hc
    obtain ⟨e', hr, hend⟩ := hspec.fails rfl
    have hcounts : HttpPush.countsDelta ⟨env, commit, ops, .streaming expectedDocs⟩
        (env.ioRunIndexPipelineStream b commit expectedDocs ops fp.domain).trace = false := by
      unfold HttpPush.countsDelta
      rw [Bool.and_eq_false_iff]
      left
      refine List.any_eq_false.mpr fun x hx => ?_
      rw [(hspec _ rfl).1 x hx]
      decide
    refine ⟨⟨e', hr⟩, untouched_openDataset hend ?_⟩
    simp only [Footprint.runStream, hcounts, Bool.false_eq_true, if_false]

end Abandoned

/-- A stream that is cut off by an abort after its first document. -/
theorem abandoned_push_untouched_aborted :
    Abandoned (plainEnv fun _ => false).toIngestEnv none [.inserted "a" "text", .abort] ∧
      Untouched .fresh ((Footprint.fresh : Footprint Unit).runStream (plainEnv fun _ => false)
        mainBranch "c" none [.inserted "a" "text", .abort]).2 := by
  have habort : Abandoned (plainEnv fun _ => false).toIngestEnv none
      [.inserted "a" "text", .abort] := .inl (by simp)
  exact ⟨habort, (abandoned_push_untouched _ _ _ _ _ _ habort).2⟩

section Truncation

/-- The same push with other calls that fail and another moment of cancellation. -/
def PushEnv.under (env : PushEnv V) (fails : StoreOp → Bool) (cancelled : CancelPoint → Bool) :
    PushEnv V :=
  { env with fails := fails, cancelled := cancelled }

/-- The commit is tagged only if the expected number of document operations arrived, and a
shorter stream is an error without a trace in the dataset. -/
def PushEnv.DetectsTruncation (env : PushEnv V) (n : ℕ) (ops : List Operation) (b : BranchName)
    (commit : CommitId) (d : Domain V) : Prop :=
  let o := env.ioRunIndexPipelineStream b commit (some n) ops d
  (commit ∉ d.opened.tags → commit ∈ o.store.opened.tags → n ≤ docOps ops) ∧
    (docOps ops < n → (∃ e, o.result = .error e) ∧ o.store.opened = d.opened)

variable {env : PushEnv V} {d : Domain V} {b : BranchName} {commit : CommitId} {n : ℕ}
  {ops : List Operation}

theorem detectsTruncation_of_le (h : n ≤ docOps ops) :
    env.DetectsTruncation n ops b commit d :=
  ⟨fun _ _ => h, fun hlt => absurd hlt (by omega)⟩

theorem detectsTruncation_of_abandoned (h : Abandoned env.toIngestEnv (some n) ops) :
    env.DetectsTruncation n ops b commit d := by
  cases hc : env.collectStream (some n) ops with
  | ok c => exact absurd h (not_abandoned hc)
  | error e =>
    obtain ⟨e', hr, hend⟩ := (stream_abandoned d b commit hc).fails rfl
    have hopened : (env.ioRunIndexPipelineStream b commit (some n) ops d).store.opened =
        d.opened := by
      rcases hend with hs | hs
      · rw [hs]
      · rw [hs, Domain.openDataset_opened]
    constructor
    · intro hnew htag
      rw [hopened] at htag
      exact absurd htag hnew
    · exact fun _ => ⟨⟨e', hr⟩, hopened⟩

theorem ready_fresh (commit : CommitId) : (Domain.fresh : Domain V).Ready mainBranch commit where
  handle := by simp [Domain.fresh]
  branch := rfl
  untagged := by simp [Domain.fresh, Domain.opened, Dataset.create]

/-- Documents that are counted twice make up for documents that never came. -/
theorem not_detectsTruncation (hfails : ∀ op, env.fails op = false)
    (hgo : ∀ p, env.cancelled p = false) (habort : .abort ∉ ops) (hshort : docOps ops < n)
    (hcount : n ≤ docOps ops + env.countedTwice ops) (commit : CommitId) :
    ¬ env.DetectsTruncation n ops mainBranch commit .fresh := by
  have hcollect : ∃ c, env.collectStream (some n) ops = .ok c := by
    refine collectStream_completes hgo habort fun m hm => ?_
    obtain rfl := Option.some.inj hm
    exact hcount
  obtain ⟨c, hc⟩ := hcollect
  have hok := (PushEnv.stream_completes hfails (ready_fresh commit) hc).1
  intro h
  obtain ⟨⟨e, he⟩, -⟩ := h.2 hshort
  rw [hok] at he
  cases he

/-- Truncation is detected in every run of a stream unless the changed documents of its full
micro-batches make the count reach the expected number. -/
theorem truncation_detected_iff (env : PushEnv V) (n : ℕ) (ops : List Operation) :
    (∀ fails cancelled b commit d,
      (env.under fails cancelled).DetectsTruncation n ops b commit d) ↔
      .abort ∈ ops ∨ n ≤ docOps ops ∨ docOps ops + env.countedTwice ops < n := by
  have hcounted : ∀ fails cancelled, (env.under fails cancelled).countedTwice ops =
      env.countedTwice ops := fun _ cancelled => countedTwice_cancelled env.toIngestEnv cancelled ops
  constructor
  · intro h
    by_contra hno
    rw [not_or, not_or, Nat.not_le, Nat.not_lt] at hno
    obtain ⟨habort, hshort, hcount⟩ := hno
    rw [← hcounted (fun _ => false) fun _ => false] at hcount
    exact not_detectsTruncation (fun _ => rfl) (fun _ => rfl) habort hshort hcount "c" (h _ _ _ _ _)
  · rintro (habort | hle | hlt) fails cancelled b commit d
    · exact detectsTruncation_of_abandoned (.inl habort)
    · exact detectsTruncation_of_le hle
    · rw [← hcounted fails cancelled] at hlt
      exact detectsTruncation_of_abandoned (.inr (.inr ⟨n, rfl, hlt⟩))

/-- As many changed documents as a micro-batch holds. -/
def changedBatch : List Operation :=
  (List.range IngestEnv.microBatchDocs).map fun i => .changed s!"doc/{i}" "text"

theorem plainEnv_ofText (fails : StoreOp → Bool) :
    OfText (plainEnv fails).provider fun _ _ => .ok () where
  answer call texts vs h := by
    have hlen := length_of_ioEmbed h
    rw [List.forall₂_iff_get]
    exact ⟨hlen.symm, fun _ _ _ => rfl⟩
  alone call text := rfl

theorem countedTwice_changedBatch (fails : StoreOp → Bool) :
    (plainEnv fails).countedTwice changedBatch = 2000 := by
  have hbatched : changedBatch.filterMap (plainEnv fails).batchedDoc? =
      (List.range IngestEnv.microBatchDocs).map fun i =>
        ⟨s!"doc/{i}", [⟨0, 1, 0, 1, "text"⟩], true⟩ := by
    unfold changedBatch
    rw [List.filterMap_map, ← List.filterMap_eq_map]
    rfl
  unfold IngestEnv.countedTwice IngestEnv.fullBatches
  rw [IngestEnv.embedGroups_text (plainEnv_ofText fails), flatten_subBatchesOf,
    flatten_sliceChunks (by decide : 0 < IngestEnv.microBatchDocs), hbatched]
  simp only [List.length_map, List.length_range]
  rw [List.take_of_length_le (by rw [List.length_map, List.length_range]; decide), List.map_map, List.filterMap_map]
  have hall : ∀ i ∈ List.range IngestEnv.microBatchDocs, ((Embedded.replaced? ∘
      (plainEnv fails).textOutcome (fun _ _ => .ok ()) ∘ fun i : ℕ =>
        (⟨s!"doc/{i}", [⟨0, 1, 0, 1, "text"⟩], true⟩ : DocToEmbed)) i) = some s!"doc/{i}" := by
    intro i _
    rfl
  rw [List.filterMap_congr hall, List.filterMap_eq_map', List.length_map, List.length_range]
  rfl

theorem docOps_changedBatch : docOps changedBatch = 2000 := by
  have hall : ∀ i ∈ List.range IngestEnv.microBatchDocs,
      (Operation.target? ∘ fun i : ℕ => .changed s!"doc/{i}" "text") i = some s!"doc/{i}" := by
    intro i _
    rfl
  unfold docOps changedBatch
  rw [List.filterMap_map, List.filterMap_congr hall, List.filterMap_eq_map', List.length_map,
    List.length_range]
  rfl

theorem abort_notMem_changedBatch : .abort ∉ changedBatch := by
  intro h
  obtain ⟨i, -, hi⟩ := List.mem_map.mp h
  cases hi

/-- Two thousand changed documents pass for four thousand. -/
theorem truncation_not_detected_changedBatch :
    docOps changedBatch = 2000 ∧
      ¬ (plainEnv fun _ => false).DetectsTruncation 4000 changedBatch mainBranch "c" .fresh := by
  refine ⟨docOps_changedBatch, not_detectsTruncation (fun _ => rfl) (fun _ => rfl)
    abort_notMem_changedBatch ?_ ?_ "c"⟩
  · rw [docOps_changedBatch]
    omega
  · rw [docOps_changedBatch, countedTwice_changedBatch]

end Truncation

end Vectorlink
