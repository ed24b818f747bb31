import Mathlib.Data.List.TakeWhile
import Vectorlink.IngestAccount

/-! Which looks at the cancellation token a stream of operations reaches, and how collecting
ends in each case. -/
namespace Vectorlink

open IngestEnv

variable {V : Type}

namespace IngestEnv

variable (env : IngestEnv V)

/-- Collecting stops before the write phase whatever the token says: at an abort, or because
fewer documents arrived than were expected. -/
def Stops (expectedDocs : Option ℕ) (ops : List Operation) : Prop :=
  .abort ∈ ops ∨ ∃ n, expectedDocs = some n ∧ docOps ops + env.countedTwice ops < n

instance (expectedDocs : Option ℕ) (ops : List Operation) :
    Decidable (env.Stops expectedDocs ops) :=
  match expectedDocs with
  | none => decidable_of_iff (.abort ∈ ops) (by simp [Stops])
  | some n => decidable_of_iff (.abort ∈ ops ∨ docOps ops + env.countedTwice ops < n)
      (by simp [Stops])

/-- The operations before the first abort. -/
def beforeAbort (ops : List Operation) : List Operation := ops.takeWhile (· ≠ .abort)

/-- The looks at the token that are made while it is not cancelled. -/
def reachedLooks (expectedDocs : Option ℕ) (ops : List Operation) : List CancelPoint :=
  let batches := if env.Stops expectedDocs ops then env.fullBatches (beforeAbort ops)
    else env.allBatches ops
  (List.range ((beforeAbort ops).length + 1)).map .receive ++
    (List.range (env.subBatchesOf batches).length).flatMap env.subBatchLooks

/-- The same task with a token that is never cancelled. -/
def uncancelled : IngestEnv V := { env with cancelled := fun _ => false }

end IngestEnv

/-- No look is cancelled during the sub-batches from `n` on before `m`. -/
def Calm (env : IngestEnv V) (n m : ℕ) : Prop :=
  ∀ j, n ≤ j → j < m → ∀ p ∈ env.subBatchLooks j, env.cancelled p = false

section Looks

variable {env : IngestEnv V} {ops : List Operation} {st st' : Reading V}

theorem Calm.trans {n m k : ℕ} (h : Calm env n m) (h' : Calm env m k) : Calm env n k := by
  intro j hn hk
  rcases Nat.lt_or_ge j m with hm | hm
  · exact h j hn hm
  · exact h' j hm hk

theorem not_calm_mono {n m n' m' : ℕ} (h : ¬ Calm env n m) (hn : n' ≤ n) (hm : m ≤ m') :
    ¬ Calm env n' m' := by
  intro hcalm
  exact h fun j hj hj' => hcalm j (Nat.le_trans hn hj) (Nat.lt_of_lt_of_le hj' hm)

/-- The looks of one sub-batch are those of its guard. -/
theorem calm_succ_iff (n : ℕ) : Calm env n (n + 1) ↔
    (env.cancelled (.subBatch n) || env.cancelled (.embedDocument n) ||
      (env.storeClustering && env.cancelled (.embedClustering n))) = false := by
  have hone : Calm env n (n + 1) ↔ ∀ p ∈ env.subBatchLooks n, env.cancelled p = false := by
    constructor
    · exact fun h => h n le_rfl (Nat.lt_succ_self n)
    · intro h j hj hj'
      obtain rfl : j = n := by omega
      exact h
  rw [hone]
  unfold subBatchLooks
  cases env.storeClustering with
  | true => simp [and_assoc]
  | false => simp

/-- Either the token stays uncancelled through the sub-batches, or it ends the flush. -/
theorem flushSubBatches_looks {groups : List (List DocToEmbed)} {n m : ℕ} {acc acc' : Collected V}
    (h : env.uncancelled.flushSubBatches n acc groups = .ok (m, acc')) :
    n ≤ m ∧ (Calm env n m ∧ env.flushSubBatches n acc groups = .ok (m, acc') ∨
      ¬ Calm env n m ∧ env.flushSubBatches n acc groups = .error superseded) := by
  induction groups generalizing n acc with
  | nil =>
    obtain ⟨rfl, rfl⟩ := Prod.mk.inj (Except.ok.inj h)
    exact ⟨le_rfl, .inl ⟨fun j hj hj' => absurd hj' (by omega), rfl⟩⟩
  | cons group groups ih =>
    have hdocs : env.uncancelled.embedDocs n group = env.embedDocs n group := by
      unfold uncancelled embedDocs
      rw [scatter_cancelled]
      rfl
    have hrest : env.uncancelled.flushSubBatches (n + 1) (acc.addDocs (env.embedDocs n group))
        groups = .ok (m, acc') := by
      rw [flushSubBatches, hdocs] at h
      simpa [uncancelled] using h
    obtain ⟨hle, hcases⟩ := ih hrest
    refine ⟨by omega, ?_⟩
    rw [flushSubBatches]
    by_cases hcalm : Calm env n (n + 1)
    · rw [if_neg (by rw [(calm_succ_iff n).mp hcalm]; exact Bool.false_ne_true)]
      rcases hcases with ⟨hrestCalm, hrun⟩ | ⟨hrestCalm, hrun⟩
      · exact .inl ⟨hcalm.trans hrestCalm, hrun⟩
      · exact .inr ⟨not_calm_mono hrestCalm (by omega) le_rfl, hrun⟩
    · rw [calm_succ_iff, Bool.not_eq_false] at hcalm
      rw [if_pos hcalm]
      refine .inr ⟨not_calm_mono (fun h => ?_) le_rfl hle, rfl⟩
      rw [calm_succ_iff, hcalm] at h
      cases h

theorem flushMicrobatch_looks (h : env.uncancelled.flushMicrobatch st = .ok st') :
    st.subBatches ≤ st'.subBatches ∧
      (Calm env st.subBatches st'.subBatches ∧ env.flushMicrobatch st = .ok st' ∨
        ¬ Calm env st.subBatches st'.subBatches ∧ env.flushMicrobatch st = .error superseded) := by
  obtain ⟨n, acc, hgroups, rfl⟩ := flushMicrobatch_ok h
  have hsize : env.uncancelled.embedBatchSize = env.embedBatchSize := rfl
  rw [hsize] at hgroups
  obtain ⟨hle, hcases⟩ := flushSubBatches_looks hgroups
  refine ⟨hle, ?_⟩
  unfold flushMicrobatch
  rcases hcases with ⟨hcalm, hrun⟩ | ⟨hcalm, hrun⟩
  · exact .inl ⟨hcalm, by rw [hrun]; rfl⟩
  · exact .inr ⟨hcalm, by rw [hrun]; rfl⟩

theorem readOp_uncancelled (st : Reading V) (op : Operation) :
    st.readOp env.uncancelled op = st.readOp env op := by
  cases op <;> rfl

theorem streamStep_looks {op : Operation} (h : env.uncancelled.streamStep st op = .ok st') :
    st.subBatches ≤ st'.subBatches ∧
      (Calm env st.subBatches st'.subBatches ∧ env.streamStep st op = .ok st' ∨
        ¬ Calm env st.subBatches st'.subBatches ∧ env.streamStep st op = .error superseded) := by
  obtain ⟨st₁, hop, hcases⟩ := streamStep_ok h
  have hsub := subBatches_readOp hop
  rw [readOp_uncancelled] at hop
  rw [← hsub]
  have hstep : env.streamStep st op = if microBatchDocs ≤ st₁.batchDocs.length then
      env.flushMicrobatch st₁ else .ok st₁ := by
    unfold streamStep
    rw [hop]
    rfl
  rw [hstep]
  rcases hcases with ⟨hfull, hflush⟩ | ⟨hroom, rfl⟩
  · rw [if_pos hfull]
    exact flushMicrobatch_looks hflush
  · rw [if_neg (by omega)]
    exact ⟨le_rfl, .inl ⟨fun j hj hj' => absurd hj' (by omega), rfl⟩⟩

/-- The receives from `n` on, `k + 1` of them. -/
def CalmReceives (env : IngestEnv V) (n k : ℕ) : Prop :=
  ∀ i, i ≤ k → env.cancelled (.receive (n + i)) = false

theorem calmReceives_succ {n k : ℕ} : CalmReceives env n (k + 1) ↔
    env.cancelled (.receive n) = false ∧ CalmReceives env (n + 1) k := by
  constructor
  · intro h
    refine ⟨h 0 (Nat.zero_le _), fun i hi => ?_⟩
    have hnext := h (i + 1) (by omega)
    rwa [show n + (i + 1) = n + 1 + i by omega] at hnext
  · rintro ⟨h, h'⟩ i hi
    cases i with
    | zero => exact h
    | succ i =>
      have hnext := h' i (by omega)
      rwa [show n + 1 + i = n + (i + 1) by omega] at hnext

/-- The main loop over operations without an abort. -/
theorem streamOps_looks {n : ℕ} (h : env.uncancelled.streamOps n st ops = .ok st') :
    st.subBatches ≤ st'.subBatches ∧
      ((CalmReceives env n ops.length ∧ Calm env st.subBatches st'.subBatches) ∧
          env.streamOps n st ops = .ok st' ∨
        ¬ (CalmReceives env n ops.length ∧ Calm env st.subBatches st'.subBatches) ∧
          env.streamOps n st ops = .error superseded) := by
  induction ops generalizing n st with
  | nil =>
    rw [streamOps] at h ⊢
    obtain rfl : st = st' := by simpa [uncancelled] using h
    refine ⟨le_rfl, ?_⟩
    cases hlook : env.cancelled (.receive n) with
    | true =>
      refine .inr ⟨fun hcalm => ?_, rfl⟩
      have hfalse := hcalm.1 0 le_rfl
      rw [Nat.add_zero, hlook] at hfalse
      cases hfalse
    | false =>
      refine .inl ⟨⟨fun i hi => ?_, fun j hj hj' => absurd hj' (by omega)⟩, rfl⟩
      obtain rfl : i = 0 := by simpa using hi
      exact hlook
  | cons op ops ih =>
    have hgo : env.uncancelled.cancelled (.receive n) = false := rfl
    rw [streamOps, hgo, if_neg Bool.false_ne_true] at h
    cases hstep : env.uncancelled.streamStep st op with
    | error e =>
      rw [hstep] at h
      cases h
    | ok st₁ =>
      rw [hstep] at h
      obtain ⟨hle₁, hfirst⟩ := streamStep_looks hstep
      obtain ⟨hle, hrest⟩ := ih h
      refine ⟨Nat.le_trans hle₁ hle, ?_⟩
      rw [List.length_cons, calmReceives_succ, streamOps]
      cases hlook : env.cancelled (.receive n) with
      | true => exact .inr ⟨fun hcalm => Bool.noConfusion hcalm.1.1, rfl⟩
      | false =>
        rw [if_neg Bool.false_ne_true]
        rcases hfirst with ⟨hcalm₁, hrun₁⟩ | ⟨hcalm₁, hrun₁⟩
        · rw [hrun₁]
          rcases hrest with ⟨⟨hreceives, hcalm⟩, hrun⟩ | ⟨hno, hrun⟩
          · exact .inl ⟨⟨⟨rfl, hreceives⟩, hcalm₁.trans hcalm⟩, hrun⟩
          · refine .inr ⟨fun hcalm => hno ⟨hcalm.1.2, fun j hj => hcalm.2 j ?_⟩, hrun⟩
            omega
        · rw [hrun₁]
          exact .inr ⟨fun hcalm => not_calm_mono hcalm₁ le_rfl hle hcalm.2, rfl⟩

/-- The abort is received after everything before it. -/
theorem streamOps_abort {n : ℕ} {before after : List Operation}
    (h : env.streamOps n st before = .ok st') :
    env.streamOps n st (before ++ .abort :: after) = .error "push aborted by client" := by
  induction before generalizing n st with
  | nil =>
    rw [streamOps] at h
    split at h
    · cases h
    · rename_i hgo
      rw [List.nil_append, streamOps, if_neg hgo]
      rfl
  | cons op before ih =>
    rw [streamOps] at h
    rw [List.cons_append, streamOps]
    split at h
    · cases h
    · rename_i hgo
      rw [if_neg hgo]
      cases hstep : env.streamStep st op with
      | error e =>
        rw [hstep] at h
        cases h
      | ok st₁ =>
        rw [hstep] at h
        exact ih h

theorem streamOps_error_append {n : ℕ} {before after : List Operation} {op : Operation} {e : String}
    (h : env.streamOps n st before = .error e) :
    env.streamOps n st (before ++ op :: after) = .error e := by
  induction before generalizing n st with
  | nil =>
    rw [streamOps] at h
    split at h
    · rename_i hlook
      rw [List.nil_append, streamOps, if_pos hlook]
      exact h
    · cases h
  | cons first before ih =>
    rw [streamOps] at h
    rw [List.cons_append, streamOps]
    split at h
    · rename_i hlook
      rw [if_pos hlook]
      exact h
    · rename_i hgo
      rw [if_neg hgo]
      cases hstep : env.streamStep st first with
      | error e' =>
        rw [hstep] at h
        exact h
      | ok st₁ =>
        rw [hstep] at h
        exact ih h

theorem beforeAbort_of_notMem (h : .abort ∉ ops) : beforeAbort ops = ops := by
  refine List.takeWhile_eq_self_iff.mpr fun op hop => ?_
  simp only [decide_eq_true_eq]
  rintro rfl
  exact h hop

theorem abort_notMem_beforeAbort (ops : List Operation) : .abort ∉ beforeAbort ops := by
  intro h
  have hne := List.mem_takeWhile_imp h
  simp at hne

theorem exists_after_abort (h : .abort ∈ ops) :
    ∃ after, ops = beforeAbort ops ++ .abort :: after := by
  unfold beforeAbort
  induction ops with
  | nil => cases h
  | cons op ops ih =>
    by_cases hop : op = .abort
    · subst hop
      exact ⟨ops, by simp⟩
    · obtain ⟨after, hafter⟩ := ih ((List.mem_cons.mp h).resolve_left (Ne.symm hop))
      refine ⟨after, ?_⟩
      rw [List.takeWhile_cons_of_pos (by simpa using hop), List.cons_append, ← hafter]

/-- Calm is what the reached looks are asked for. -/
theorem reachedLooks_iff {k m : ℕ} :
    (∀ p ∈ (List.range (k + 1)).map CancelPoint.receive ++
        (List.range m).flatMap env.subBatchLooks, env.cancelled p = false) ↔
      CalmReceives env 0 k ∧ Calm env 0 m := by
  simp only [List.mem_append, List.mem_map, List.mem_flatMap, List.mem_range]
  constructor
  · intro h
    refine ⟨fun i hi => h _ (.inl ⟨i, by omega, by rw [Nat.zero_add]⟩), fun j _ hj p hp => ?_⟩
    exact h p (.inr ⟨j, hj, hp⟩)
  · rintro ⟨hreceives, hcalm⟩ p (⟨i, hi, rfl⟩ | ⟨j, hj, hp⟩)
    · have hlook := hreceives i (by omega)
      rwa [Nat.zero_add] at hlook
    · exact hcalm j (Nat.zero_le j) hj p hp

/-- The number of sub-batches behind the main loop, and after the last flush. -/
theorem subBatches_uncancelled (hrun : env.uncancelled.streamOps 0 .start ops = .ok st) :
    st.subBatches = (env.subBatchesOf (env.fullBatches ops)).length ∧
      received st = docOps ops + env.countedTwice ops ∧
      ∀ st', env.uncancelled.flushMicrobatch st = .ok st' →
        st'.subBatches = (env.subBatchesOf (env.allBatches ops)).length := by
  obtain ⟨micro, hst⟩ := streamOps_accounts hrun
  have hbatched : env.uncancelled.batchedDoc? = env.batchedDoc? := batchedDoc?_cancelled env _
  have hfull : env.uncancelled.fullBatches ops = env.fullBatches ops := by
    unfold fullBatches
    rw [hbatched]
  have hall : env.uncancelled.allBatches ops = env.allBatches ops := by
    unfold allBatches
    rw [hbatched]
  refine ⟨?_, ?_, fun st' hflush => ?_⟩
  · rw [hst.subBatches, hst.micro_eq, hfull]
    rfl
  · rw [hst.received_eq]
    exact congrArg _ (countedTwice_cancelled env _ ops)
  · obtain ⟨-, -, hcount⟩ := StreamAccounts.flushMicrobatch hst.accounts hst.subBatches hflush
    rw [hcount, ← hst.subBatches_all, hall]
    rfl

theorem collectStream_of_error {expectedDocs : Option ℕ} {e : String}
    (h : env.streamOps 0 .start ops = .error e) : env.collectStream expectedDocs ops = .error e := by
  unfold collectStream
  rw [h]
  rfl

/-- How a stream with an abort in it ends. -/
theorem collectStream_abort (env : IngestEnv V) (expectedDocs : Option ℕ) (habort : .abort ∈ ops) :
    (¬ (∀ p ∈ env.reachedLooks expectedDocs ops, env.cancelled p = false) ∧
      env.collectStream expectedDocs ops = .error superseded) ∨
    (∀ p ∈ env.reachedLooks expectedDocs ops, env.cancelled p = false) ∧
      env.collectStream expectedDocs ops = .error "push aborted by client" := by
  have hcomplete : ∃ st, env.uncancelled.streamOps 0 .start (beforeAbort ops) = .ok st :=
    streamOps_completes (fun _ => rfl) (abort_notMem_beforeAbort ops) 0 .start
  obtain ⟨st, hrun⟩ := hcomplete
  obtain ⟨hsub, -, -⟩ := subBatches_uncancelled hrun
  obtain ⟨after, hafter⟩ := exists_after_abort habort
  have hstops : env.Stops expectedDocs ops := .inl habort
  unfold reachedLooks
  rw [if_pos hstops, reachedLooks_iff, ← hsub]
  rcases (streamOps_looks hrun).2 with ⟨hcalm, hok⟩ | ⟨hno, herr⟩
  · refine .inr ⟨hcalm, collectStream_of_error ?_⟩
    rw [hafter]
    exact streamOps_abort hok
  · refine .inl ⟨hno, collectStream_of_error ?_⟩
    rw [hafter]
    exact streamOps_error_append herr

/-- After the main loop: the truncation check and the last flush. -/
theorem finishStream_looks {expectedDocs : Option ℕ}
    (hrun : env.uncancelled.streamOps 0 .start ops = .ok st)
    (hok : env.streamOps 0 .start ops = .ok st) (habort : .abort ∉ ops)
    (hcalm : Calm env 0 (env.subBatchesOf (env.fullBatches ops)).length) :
    (env.Stops expectedDocs ops ∧ ∃ n, ∃ st : Reading V,
        env.collectStream expectedDocs ops = .error (truncatedText n st)) ∨
      ¬ env.Stops expectedDocs ops ∧
        (Calm env 0 (env.subBatchesOf (env.allBatches ops)).length ∧
            (∃ c, env.collectStream expectedDocs ops = .ok c) ∨
          ¬ Calm env 0 (env.subBatchesOf (env.allBatches ops)).length ∧
            env.collectStream expectedDocs ops = .error superseded) := by
  obtain ⟨hsub, hcount, hlast⟩ := subBatches_uncancelled hrun
  have hcollect : env.collectStream expectedDocs ops = env.finishStream expectedDocs st := by
    unfold collectStream
    rw [hok]
    rfl
  rw [hcollect]
  unfold finishStream
  by_cases hstops : env.Stops expectedDocs ops
  · obtain ⟨n, rfl, hlt⟩ := hstops.resolve_left habort
    have hcheck : checkTruncated (some n) st = .error (truncatedText n st) := if_pos (by omega)
    refine .inl ⟨hstops, n, st, ?_⟩
    rw [hcheck]
    rfl
  · have hcheck : checkTruncated expectedDocs st = .ok () := by
      cases expectedDocs with
      | none => rfl
      | some n =>
        have hge : ¬ docOps ops + env.countedTwice ops < n := fun hlt => hstops (.inr ⟨n, rfl, hlt⟩)
        exact if_neg (by omega)
    obtain ⟨st', hflush⟩ := flushMicrobatch_completes (fun _ => rfl : ∀ p,
      env.uncancelled.cancelled p = false) st
    rw [← hlast st' hflush, hcheck]
    rw [← hsub] at hcalm
    refine .inr ⟨hstops, ?_⟩
    rcases (flushMicrobatch_looks hflush).2 with ⟨hlate, hrun'⟩ | ⟨hlate, hrun'⟩
    · refine .inl ⟨hcalm.trans hlate, st'.collected, ?_⟩
      change (do let st ← env.flushMicrobatch st; pure st.collected) = _
      rw [hrun']
      rfl
    · refine .inr ⟨not_calm_mono hlate (Nat.zero_le _) le_rfl, ?_⟩
      change (do let st ← env.flushMicrobatch st; pure st.collected) = _
      rw [hrun']
      rfl

/-- How a stream without an abort ends. -/
theorem collectStream_noAbort (env : IngestEnv V) (expectedDocs : Option ℕ)
    (habort : .abort ∉ ops) :
    (¬ (∀ p ∈ env.reachedLooks expectedDocs ops, env.cancelled p = false) ∧
      env.collectStream expectedDocs ops = .error superseded) ∨
    (∀ p ∈ env.reachedLooks expectedDocs ops, env.cancelled p = false) ∧
      ((env.Stops expectedDocs ops ∧ ∃ n, ∃ st : Reading V,
          env.collectStream expectedDocs ops = .error (truncatedText n st)) ∨
        ¬ env.Stops expectedDocs ops ∧ ∃ c, env.collectStream expectedDocs ops = .ok c) := by
  have hcomplete : ∃ st, env.uncancelled.streamOps 0 .start ops = .ok st :=
    streamOps_completes (fun _ => rfl) habort 0 .start
  obtain ⟨st, hrun⟩ := hcomplete
  obtain ⟨hsub, -, hlast⟩ := subBatches_uncancelled hrun
  have hmain := (streamOps_looks hrun).2
  rw [hsub] at hmain
  unfold reachedLooks
  rw [beforeAbort_of_notMem habort, reachedLooks_iff]
  rcases hmain with ⟨⟨hreceives, hcalm⟩, hok⟩ | ⟨hno, herr⟩
  · rcases finishStream_looks hrun hok habort hcalm with ⟨hstops, n, st', hcut⟩ |
      ⟨hstops, ⟨hall, c, hc⟩ | ⟨hall, hc⟩⟩
    · rw [if_pos hstops]
      exact .inr ⟨⟨hreceives, hcalm⟩, .inl ⟨hstops, n, st', hcut⟩⟩
    · rw [if_neg hstops]
      exact .inr ⟨⟨hreceives, hall⟩, .inr ⟨hstops, c, hc⟩⟩
    · rw [if_neg hstops]
      exact .inl ⟨fun h => hall h.2, hc⟩
  · -- cancelled during the main loop, whose sub-batches are among those of the whole stream
    refine .inl ⟨fun h => hno ⟨h.1, ?_⟩, collectStream_of_error herr⟩
    have hcalm := h.2
    split at hcalm
    · exact hcalm
    · obtain ⟨st', hflush⟩ := flushMicrobatch_completes (fun _ => rfl : ∀ p,
        env.uncancelled.cancelled p = false) st
      have hle := (flushMicrobatch_looks hflush).1
      rw [hsub, hlast st' hflush] at hle
      exact fun j hj hj' => hcalm j hj (Nat.lt_of_lt_of_le hj' hle)

end Looks

end Vectorlink
