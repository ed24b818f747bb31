import Vectorlink.IngestAccount

/-! What the streaming pipeline counts when the channel is closed. The ids of changed
documents join the deletes when their micro-batch is embedded, so the documents of full
micro-batches are counted as documents and as deletes. -/
namespace Vectorlink

variable {V : Type}

namespace IngestEnv

variable (env : IngestEnv V)

def hasChunks (string : String) : Bool :=
  match env.chunkText string with
  | .ok chunks => !chunks.isEmpty
  | .error _ => false

/-- For an operation whose document joins the batch: whether it replaces an older one. -/
def batched? : Operation → Option Bool
  | .inserted _ string => if env.hasChunks string then some false else none
  | .changed _ string => if env.hasChunks string then some true else none
  | _ => none

/-- The changed documents in full micro-batches. -/
def recounted (ops : List Operation) : ℕ :=
  let docs := ops.filterMap env.batched?
  (docs.take (docs.length / microBatchDocs * microBatchDocs)).count true

def countedDocs (ops : List Operation) : ℕ :=
  (ops.filterMap Operation.target?).length + env.recounted ops

end IngestEnv

open IngestEnv

/-- The operations read so far, where the documents of the micro-batches `flushed` are
embedded. -/
structure CountsTo (env : IngestEnv V) (ops : List Operation) (flushed : List Bool)
    (st : Reading V) : Prop where
  docs : ops.filterMap env.batched? = flushed ++ st.batchDocs.map (·.isChanged)
  full : ∃ k, flushed.length = k * microBatchDocs
  count : received st ≤ (ops.filterMap Operation.target?).length + flushed.count true

variable {env : IngestEnv V} {ops : List Operation} {flushed : List Bool} {st : Reading V}

theorem batched?_eq (env : IngestEnv V) (op : Operation) :
    env.batched? op = (env.batchedDoc? op).map (·.isChanged) := by
  have hdoc (id : DocId) (string : String) (isChanged : Bool) :
      (if env.hasChunks string then some isChanged else none) =
        (env.toEmbed? id string isChanged).map (·.isChanged) := by
    unfold hasChunks toEmbed?
    cases env.chunkText string with
    | error e => rfl
    | ok chunks => cases chunks <;> rfl
  cases op with
  | inserted id string => exact hdoc id string false
  | changed id string => exact hdoc id string true
  | _ => rfl

theorem length_replaced_le (outs : List (Embedded V)) :
    (outs.filterMap Embedded.replaced?).length ≤ (outs.map (·.1.isChanged)).count true := by
  induction outs with
  | nil => rfl
  | cons o outs ih =>
    unfold Embedded.replaced? at ih ⊢
    rw [List.map_cons]
    cases hchanged : o.1.isChanged with
    | true =>
      rw [List.count_cons_self]
      cases hindexed : o.isIndexed with
      | true => simpa [hchanged, hindexed] using ih
      | false =>
        simp only [List.filterMap_cons, hchanged, hindexed, Bool.false_and]
        exact Nat.le_succ_of_le ih
    | false => simpa [hchanged] using ih

theorem StreamAccounts.countsTo {micro : List (List DocToEmbed)}
    (h : StreamAccounts env ops micro st) :
    CountsTo env ops (micro.flatten.map (·.isChanged)) st where
  docs := by
    have hbatched : env.batched? = fun op => (env.batchedDoc? op).map (·.isChanged) :=
      funext (batched?_eq env)
    rw [hbatched, ← List.map_filterMap, h.docs_eq, List.map_append]
  full := by
    refine ⟨micro.length, ?_⟩
    rw [List.length_map]
    exact length_flatten_pieces micro h.full
  count := by
    have hle := length_replaced_le (env.embedGroups 0 (env.subBatchesOf micro))
    have hdocs : (env.embedGroups 0 (env.subBatchesOf micro)).map Prod.fst = micro.flatten := by
      rw [embedGroups_fst, flatten_subBatchesOf]
    rw [← hdocs, List.map_map, h.received_eq, IngestEnv.countedTwice, ← h.micro_eq]
    exact Nat.add_le_add_left hle _

/-- What is counted is at most the document operations and those of full micro-batches
again. -/
theorem CountsTo.received_le (h : CountsTo env ops flushed st)
    (hroom : st.batchDocs.length < microBatchDocs) : received st ≤ env.countedDocs ops := by
  obtain ⟨k, hk⟩ := h.full
  have hlen : (ops.filterMap env.batched?).length = k * microBatchDocs + st.batchDocs.length := by
    rw [h.docs, List.length_append, List.length_map, hk]
  have hdiv : (ops.filterMap env.batched?).length / microBatchDocs = k := by
    rw [hlen, Nat.mul_comm, Nat.mul_add_div (by decide : 0 < microBatchDocs),
      Nat.div_eq_of_lt hroom, Nat.add_zero]
  have htake : (ops.filterMap env.batched?).take
      ((ops.filterMap env.batched?).length / microBatchDocs * microBatchDocs) = flushed := by
    rw [hdiv, ← hk, h.docs, List.take_left]
  have hrecounted : env.recounted ops = flushed.count true := by
    simp only [recounted, htake]
  unfold countedDocs
  rw [hrecounted]
  exact h.count

theorem collectStream_fails {expectedDocs : Option ℕ}
    (h : .abort ∈ ops ∨ ∃ n, expectedDocs = some n ∧ env.countedDocs ops < n) :
    ∃ e, env.collectStream expectedDocs ops = .error e := by
  unfold collectStream
  cases hrun : env.streamOps 0 .start ops with
  | error e => exact ⟨e, rfl⟩
  | ok st =>
    obtain ⟨micro, hst⟩ := streamOps_accounts hrun
    obtain ⟨n, rfl, hlt⟩ := h.resolve_left hst.abort
    have hle := hst.countsTo.received_le hst.room
    have hcheck : checkTruncated (some n) st = .error (truncatedText n st) := by
      exact if_pos (by omega)
    refine ⟨truncatedText n st, ?_⟩
    change env.finishStream (some n) st = _
    unfold finishStream
    rw [hcheck]
    rfl

theorem countedDocs_append {reports : List Operation}
    (h : ∀ op ∈ reports, ∃ message, op = .error message) :
    env.countedDocs (ops ++ reports) = env.countedDocs ops := by
  have hbatched : reports.filterMap env.batched? = [] := by
    rw [List.filterMap_eq_nil_iff]
    intro op hop
    obtain ⟨message, rfl⟩ := h op hop
    rfl
  have htarget : reports.filterMap Operation.target? = [] := by
    rw [List.filterMap_eq_nil_iff]
    intro op hop
    obtain ⟨message, rfl⟩ := h op hop
    rfl
  simp only [countedDocs, recounted, List.filterMap_append, hbatched, htarget, List.append_nil]

end Vectorlink
