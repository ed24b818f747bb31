import Mathlib.Data.List.Chain
import Vectorlink.IngestLooks
import Vectorlink.Service.Progress

/-! The updates that are sent while the operations are collected. -/
namespace Vectorlink

open Stepwise Stepwise.Program

variable {V α : Type}

namespace ProgressUpdate

def isProgress : ProgressUpdate → Bool
  | .progress _ _ _ => true
  | _ => false

/-- The next progress update: one more document is indexed, nothing else is taken back. -/
def Next : ProgressUpdate → ProgressUpdate → Prop
  | .progress indexed totalSeen skipped, .progress indexed' totalSeen' skipped' =>
    indexed' = indexed + 1 ∧ totalSeen ≤ totalSeen' ∧ skipped ≤ skipped'
  | _, _ => False

end ProgressUpdate

open ProgressUpdate

/-- Nothing but progress, in order. -/
structure OnlyProgress (us : List ProgressUpdate) : Prop where
  only : ∀ u ∈ us, u.isProgress = true
  chain : us.IsChain Next

/-- The updates sent so far have come up to these counts. -/
structure ProgressTo (indexed totalSeen skipped : ℕ) (us : List ProgressUpdate) : Prop
    extends OnlyProgress us where
  last : ∀ u ∈ us.getLast?, ∃ t s, u = .progress indexed t s ∧ t ≤ totalSeen ∧ s ≤ skipped

theorem onlyProgress_nil : OnlyProgress [] := ⟨by simp, List.isChain_nil⟩

theorem progressTo_nil (indexed totalSeen skipped : ℕ) : ProgressTo indexed totalSeen skipped [] :=
  ⟨onlyProgress_nil, by simp⟩

theorem ProgressTo.mono {indexed totalSeen totalSeen' skipped skipped' : ℕ}
    {us : List ProgressUpdate} (h : ProgressTo indexed totalSeen skipped us)
    (htotal : totalSeen ≤ totalSeen') (hskipped : skipped ≤ skipped') :
    ProgressTo indexed totalSeen' skipped' us := by
  refine ⟨h.toOnlyProgress, fun u hu => ?_⟩
  obtain ⟨t, s, rfl, ht, hs⟩ := h.last u hu
  exact ⟨t, s, rfl, Nat.le_trans ht htotal, Nat.le_trans hs hskipped⟩

theorem ProgressTo.concat {indexed totalSeen skipped : ℕ} {us : List ProgressUpdate}
    (h : ProgressTo indexed totalSeen skipped us) :
    ProgressTo (indexed + 1) totalSeen skipped (us ++ [.progress (indexed + 1) totalSeen skipped]) := by
  refine ⟨⟨fun u hu => ?_, ?_⟩, fun u hu => ?_⟩
  · rcases List.mem_append.mp hu with hu | hu
    · exact h.only u hu
    · rw [List.mem_singleton.mp hu]
      rfl
  · refine h.chain.append (List.isChain_singleton _) fun u hu v hv => ?_
    obtain ⟨t, s, rfl, ht, hs⟩ := h.last u hu
    obtain rfl := Option.some.inj hv
    exact ⟨rfl, ht, hs⟩
  · rw [List.getLast?_concat] at hu
    obtain rfl := Option.some.inj hu
    exact ⟨totalSeen, skipped, rfl, le_rfl, le_rfl⟩

namespace Reporting

variable {env : PushEnv V} {d : Domain V}

/-- The domain is as it was and the updates have come up to the counts of `acc`. -/
def At (d : Domain V) (totalSeen : ℕ) (acc : Collected V) (x : Domain V × List ProgressUpdate) :
    Prop :=
  x.1 = d ∧ ProgressTo acc.indexed totalSeen acc.skipped.length x.2

theorem addDocs_spec (totalSeen : ℕ) (outs : List (Embedded V)) (acc : Collected V) :
    Spec (At d totalSeen acc) (addDocs totalSeen acc outs) (fun acc' => At d totalSeen acc')
      (fun _ _ => False) (fun _ _ => True) := by
  induction outs generalizing acc with
  | nil => exact Spec.pure fun _ hx => hx
  | cons o outs ih =>
    rw [addDocs]
    dsimp only
    obtain ⟨doc, result⟩ := o
    cases result with
    | ok rows =>
      refine Spec.ite (fun _ => Spec.bind (R := fun _ => At d totalSeen (acc.addDoc doc (.ok rows)))
        (Spec.send fun s us hx => ⟨hx.1, hx.2.concat⟩) fun _ => ih _) fun hno => ?_
      exact absurd rfl hno
    | error message =>
      refine Spec.ite (fun hyes => ?_) fun _ => (ih _).pre fun x hx => ⟨hx.1, hx.2.mono le_rfl ?_⟩
      · cases hyes
      · simp [Collected.addDoc]

/-- A flush that is cancelled has sent nothing but progress. -/
theorem flushSubBatches_spec (totalSeen : ℕ) (groups : List (List DocToEmbed)) (n : ℕ)
    (acc : Collected V) :
    Spec (At d totalSeen acc) (flushSubBatches env totalSeen n acc groups)
      (fun out => At d totalSeen out.2) (fun e x => e = IngestEnv.superseded ∧ x.1 = d ∧
        OnlyProgress x.2) (fun _ _ => True) := by
  induction groups generalizing n acc with
  | nil => exact Spec.pure fun _ hx => hx
  | cons docs rest ih =>
    rw [flushSubBatches]
    refine Spec.ite (fun _ => Spec.fail fun x hx => ⟨rfl, hx.1, hx.2.toOnlyProgress⟩) fun _ => ?_
    exact Spec.bind ((addDocs_spec totalSeen _ acc).weaken (fun _ h => h) (fun _ _ h => h)
      (fun _ _ h => h.elim) fun _ _ h => h) fun acc' => ih (n + 1) acc'

/-- As `At`, for the operations read so far. -/
abbrev AtReading (d : Domain V) (st : Reading V) := At d st.totalDocsSeen st.collected

theorem flushMicrobatch_spec (st : Reading V) :
    Spec (AtReading d st) (flushMicrobatch env st) (fun st' => AtReading d st')
      (fun e x => e = IngestEnv.superseded ∧ x.1 = d ∧ OnlyProgress x.2) (fun _ _ => True) :=
  Spec.bind (flushSubBatches_spec _ _ _ _) fun _ => Spec.pure fun _ hx => hx

theorem atReading_readOp {st st' : Reading V} {op : Operation}
    (hop : st.readOp env.toIngestEnv op = .ok st') {x : Domain V × List ProgressUpdate}
    (h : AtReading d st x) : AtReading d st' x := by
  rw [readOp_eq hop]
  refine ⟨h.1, h.2.mono (Nat.le_add_right _ _) ?_⟩
  rw [List.length_append]
  exact Nat.le_add_right _ _

/-- How the collecting phase fails: without a word, or with one last update. -/
def Broken (d : Domain V) (e : String) (x : Domain V × List ProgressUpdate) : Prop :=
  x.1 = d ∧
    (e = IngestEnv.superseded ∧ OnlyProgress x.2 ∨
      ∃ ps, OnlyProgress ps ∧
        (e = "push aborted by client" ∧ x.2 = ps ++ [.aborted] ∨
          (∃ n, ∃ st : Reading V, e = IngestEnv.truncatedText n st) ∧ x.2 = ps ++ [.error e]))

theorem streamStep_spec (st : Reading V) (op : Operation) :
    Spec (AtReading d st) (streamStep env st op) (fun st' => AtReading d st') (Broken d)
      (fun _ _ => True) := by
  unfold streamStep
  cases hop : st.readOp env.toIngestEnv op with
  | error e =>
    have habort : e = "push aborted by client" := by
      cases op with
      | abort => exact (Except.error.inj hop).symm
      | _ => cases hop
    refine Spec.bind (R := fun _ x => x.1 = d ∧ ∃ ps, OnlyProgress ps ∧ x.2 = ps ++ [.aborted])
      (Spec.send fun s us hx => ⟨hx.1, us, hx.2.toOnlyProgress, rfl⟩) fun _ =>
        Spec.fail fun x hx => ?_
    obtain ⟨hd, ps, hps, hus⟩ := hx
    exact ⟨hd, .inr ⟨ps, hps, .inl ⟨habort, hus⟩⟩⟩
  | ok st₁ =>
    refine Spec.ite (fun _ => ?_) fun _ => Spec.pure fun x hx => atReading_readOp hop hx
    exact (flushMicrobatch_spec st₁).weaken (fun x hx => atReading_readOp hop hx) (fun _ _ h => h)
      (fun _ _ h => ⟨h.2.1, .inl ⟨h.1, h.2.2⟩⟩) fun _ _ h => h

theorem streamOps_spec (ops : List Operation) (n : ℕ) (st : Reading V) :
    Spec (AtReading d st) (streamOps env n st ops) (fun st' => AtReading d st') (Broken d)
      (fun _ _ => True) := by
  induction ops generalizing n st with
  | nil =>
    rw [streamOps]
    exact Spec.ite (fun _ => Spec.fail fun x hx => ⟨hx.1, .inl ⟨rfl, hx.2.toOnlyProgress⟩⟩)
      fun _ => Spec.pure fun _ hx => hx
  | cons op ops ih =>
    rw [streamOps]
    exact Spec.ite (fun _ => Spec.fail fun x hx => ⟨hx.1, .inl ⟨rfl, hx.2.toOnlyProgress⟩⟩)
      fun _ => Spec.bind (streamStep_spec st op) fun st' => ih (n + 1) st'

theorem checkTruncated_spec (expectedDocs : Option ℕ) (st : Reading V) :
    Spec (AtReading d st) (checkTruncated expectedDocs st) (fun _ => AtReading d st) (Broken d)
      (fun _ _ => True) := by
  unfold checkTruncated
  cases hcheck : IngestEnv.checkTruncated expectedDocs st with
  | ok u => exact Spec.pure fun _ hx => hx
  | error e =>
    have htext : ∃ n, e = IngestEnv.truncatedText n st := by
      unfold IngestEnv.checkTruncated at hcheck
      cases expectedDocs with
      | none => cases hcheck
      | some n =>
        dsimp only at hcheck
        split at hcheck
        · exact ⟨n, (Except.error.inj hcheck).symm⟩
        · cases hcheck
    obtain ⟨n, hn⟩ := htext
    refine Spec.bind (R := fun _ x => x.1 = d ∧ ∃ ps, OnlyProgress ps ∧ x.2 = ps ++ [.error e])
      (Spec.send fun s us hx => ⟨hx.1, us, hx.2.toOnlyProgress, rfl⟩) fun _ =>
        Spec.fail fun x hx => ?_
    obtain ⟨hd, ps, hps, hus⟩ := hx
    exact ⟨hd, .inr ⟨ps, hps, .inr ⟨⟨n, st, hn⟩, hus⟩⟩⟩

/-- The whole collecting phase. -/
theorem collectStream_spec (expectedDocs : Option ℕ) (ops : List Operation) :
    Spec (fun x => x = (d, [])) (collectStream env expectedDocs ops)
      (fun _ x => x.1 = d ∧ OnlyProgress x.2) (Broken d) (fun _ _ => True) := by
  refine Spec.bind ((streamOps_spec ops 0 .start).pre fun x hx => ?_) fun st =>
    Spec.bind (checkTruncated_spec expectedDocs st) fun _ =>
      Spec.bind ((flushMicrobatch_spec st).weaken (fun _ h => h) (fun _ _ h => h)
        (fun _ _ h => ⟨h.2.1, .inl ⟨h.1, h.2.2⟩⟩) fun _ _ h => h) fun st' =>
          Spec.pure fun x hx => ⟨hx.1, hx.2.toOnlyProgress⟩
  rw [hx]
  exact ⟨rfl, progressTo_nil _ _ _⟩

/-- The collecting phase with the result it has without its updates. -/
theorem Spec.known {P : Domain V × List ProgressUpdate → Prop} {m : Reporting V α}
    {Q : α → Domain V × List ProgressUpdate → Prop}
    {E : String → Domain V × List ProgressUpdate → Prop} {x : Except String α}
    (h : Erases m (ofExcept x)) (hm : Spec P m Q E (fun _ _ => True)) :
    Spec P m (fun a y => Q a y ∧ x = .ok a) (fun e y => E e y ∧ x = .error e)
      (fun _ _ => True) := by
  rintro ⟨s, us⟩ hs
  have hresult := (h s us).2
  have hx : (ofExcept x : Push V α) s = ⟨[], s, x⟩ := by
    cases x <;> rfl
  rw [hx] at hresult
  obtain ⟨htr, hend⟩ := hm (s, us) hs
  refine ⟨htr, ?_⟩
  cases hr : (m (s, us)).result with
  | ok a =>
    rw [hr] at hend hresult
    exact ⟨hend, hresult.symm⟩
  | error e =>
    rw [hr] at hend hresult
    exact ⟨hend, hresult.symm⟩

end Reporting

end Vectorlink
