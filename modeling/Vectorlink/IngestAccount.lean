import Vectorlink.IngestExact

/-! The books of a push: where every operation ends up, for both pipelines and for a provider
that may answer every request differently. -/
namespace Vectorlink

open IngestEnv

variable {V : Type}

namespace IngestEnv

variable (env : IngestEnv V)

/-- The document that an operation adds to the batch. -/
def toEmbed? (id : DocId) (string : String) (isChanged : Bool) : Option DocToEmbed :=
  match env.chunkText string with
  | .ok chunks => if chunks.isEmpty then none else some ⟨id, chunks, isChanged⟩
  | .error _ => none

def batchedDoc? : Operation → Option DocToEmbed
  | .inserted id string => env.toEmbed? id string false
  | .changed id string => env.toEmbed? id string true
  | _ => none

/-- The report on a document that has no chunks. -/
def unchunked? (id : DocId) (string : String) : Option SkippedDoc :=
  match env.chunkText string with
  | .ok chunks => if chunks.isEmpty then some ⟨id, "chunking produced zero chunks"⟩ else none
  | .error e => some ⟨id, s!"chunking failed: {e}"⟩

/-- The report on an operation that is skipped while it is read. -/
def readSkip? : Operation → Option SkippedDoc
  | .inserted id string => env.unchunked? id string
  | .changed id string => env.unchunked? id string
  | .error message => some ⟨"unknown", s!"operation error: {message}"⟩
  | _ => none

end IngestEnv

def Operation.deletedId? : Operation → Option DocId
  | .deleted id => some id
  | _ => none

/-- Inserted and changed documents, whether they have chunks or not. -/
def Operation.isDoc : Operation → Bool
  | .inserted _ _ | .changed _ _ => true
  | _ => false

/-- A document with its rows or the reason why it has none. -/
abbrev Embedded (V : Type) := DocToEmbed × Except String (List (ChunkRow V))

namespace Embedded

variable (o : Embedded V)

def rows : List (ChunkRow V) := o.2.toOption.getD []

def isIndexed : Bool := o.2.toOption.isSome

def replaced? : Option DocId := if o.isIndexed && o.1.isChanged then some o.1.id else none

def failed? : Option SkippedDoc :=
  match o.2 with
  | .ok _ => none
  | .error message => some ⟨o.1.id, message⟩

end Embedded

theorem Collected.addDocs_account (acc : Collected V) (outs : List (Embedded V)) :
    acc.addDocs outs =
      ⟨acc.rows ++ outs.flatMap Embedded.rows, acc.deleteIds ++ outs.filterMap Embedded.replaced?,
        acc.indexed + outs.countP Embedded.isIndexed,
        acc.skipped ++ outs.filterMap Embedded.failed?⟩ := by
  induction outs generalizing acc with
  | nil => simp [Collected.addDocs]
  | cons o outs ih =>
    have hstep : acc.addDocs (o :: outs) = (acc.addDoc o.1 o.2).addDocs outs := rfl
    rw [hstep, ih]
    obtain ⟨doc, result⟩ := o
    cases result with
    | error message =>
      simp [Collected.addDoc, Embedded.rows, Embedded.replaced?, Embedded.isIndexed,
        Embedded.failed?, Except.toOption]
    | ok rows =>
      cases hchanged : doc.isChanged with
      | true =>
        simp [Collected.addDoc, hchanged, Embedded.rows, Embedded.replaced?, Embedded.isIndexed,
          Embedded.failed?, Except.toOption, List.countP_cons, List.filterMap_cons, Nat.add_assoc,
          Nat.add_comm]
      | false =>
        simp [Collected.addDoc, hchanged, Embedded.rows, Embedded.replaced?, Embedded.isIndexed,
          Embedded.failed?, Except.toOption, List.countP_cons, List.filterMap_cons, Nat.add_assoc,
          Nat.add_comm]

/-- Every operation read so far is in the books: `outs` are the documents embedded so far, in
the order of their operations. -/
structure Accounts (env : IngestEnv V) (ops : List Operation) (outs : List (Embedded V))
    (st : Reading V) : Prop where
  docs : ops.filterMap env.batchedDoc? = outs.map Prod.fst ++ st.batchDocs
  rows : st.collected.rows = outs.flatMap Embedded.rows
  deleteIds : st.collected.deleteIds.Perm
    (ops.filterMap Operation.deletedId? ++ outs.filterMap Embedded.replaced?)
  indexed : st.collected.indexed = outs.countP Embedded.isIndexed
  skipped : st.collected.skipped.Perm
    (ops.filterMap env.readSkip? ++ outs.filterMap Embedded.failed?)
  seen : st.totalDocsSeen = ops.countP Operation.isDoc

variable {env : IngestEnv V} {ops : List Operation} {outs : List (Embedded V)} {st st' : Reading V}

theorem accounts_start (env : IngestEnv V) : Accounts env [] [] Reading.start where
  docs := rfl
  rows := rfl
  deleteIds := .refl _
  indexed := rfl
  skipped := .refl _
  seen := rfl

/-- One more entry in the middle of the books. -/
theorem perm_append_entry {α : Type} {xs ys zs : List α} (h : xs.Perm (ys ++ zs)) (new : List α) :
    (xs ++ new).Perm ((ys ++ new) ++ zs) := by
  have hswap : (ys ++ (zs ++ new)).Perm (ys ++ (new ++ zs)) :=
    List.perm_append_comm.append_left _
  rw [← List.append_assoc, ← List.append_assoc] at hswap
  exact (h.append_right _).trans hswap

/-- What reading an operation does: it is counted, and its document joins the batch or its
report the books. -/
theorem readOp_eq {op : Operation} (hop : st.readOp env op = .ok st') :
    st' = { st with
      collected := { st.collected with
        deleteIds := st.collected.deleteIds ++ op.deletedId?.toList
        skipped := st.collected.skipped ++ (env.readSkip? op).toList }
      batchDocs := st.batchDocs ++ (env.batchedDoc? op).toList
      totalDocsSeen := st.totalDocsSeen + if op.isDoc then 1 else 0 } := by
  have hdoc (id : DocId) (string : String) (isChanged : Bool) :
      st.readDoc env id string isChanged = { st with
        collected := { st.collected with
          skipped := st.collected.skipped ++ (env.unchunked? id string).toList }
        batchDocs := st.batchDocs ++ (env.toEmbed? id string isChanged).toList
        totalDocsSeen := st.totalDocsSeen + 1 } := by
    unfold Reading.readDoc toEmbed? unchunked?
    cases env.chunkText string with
    | error e => simp [Reading.skip]
    | ok chunks => cases chunks <;> simp [Reading.skip]
  cases op with
  | inserted id string =>
    obtain rfl := Except.ok.inj hop
    simp [hdoc, Operation.deletedId?, readSkip?, batchedDoc?, Operation.isDoc]
  | changed id string =>
    obtain rfl := Except.ok.inj hop
    simp [hdoc, Operation.deletedId?, readSkip?, batchedDoc?, Operation.isDoc]
  | deleted id =>
    obtain rfl := Except.ok.inj hop
    simp [Operation.deletedId?, readSkip?, batchedDoc?, Operation.isDoc]
  | error message =>
    obtain rfl := Except.ok.inj hop
    simp [Reading.skip, Operation.deletedId?, readSkip?, batchedDoc?, Operation.isDoc]
  | abort => cases hop

theorem filterMap_concat_op {β : Type} (f : Operation → Option β) (ops : List Operation)
    (op : Operation) : (ops ++ [op]).filterMap f = ops.filterMap f ++ (f op).toList := by
  rw [List.filterMap_append]
  cases hf : f op <;> simp [hf]

theorem Accounts.readOp (h : Accounts env ops outs st) {op : Operation}
    (hop : st.readOp env op = .ok st') : Accounts env (ops ++ [op]) outs st' := by
  rw [readOp_eq hop]
  refine ⟨?_, h.rows, ?_, h.indexed, ?_, ?_⟩
  · rw [filterMap_concat_op, h.docs, List.append_assoc]
  · rw [filterMap_concat_op]
    exact perm_append_entry h.deleteIds _
  · rw [filterMap_concat_op]
    exact perm_append_entry h.skipped _
  · rw [h.seen, List.countP_append, List.countP_singleton]

theorem subBatches_readOp {op : Operation} (hop : st.readOp env op = .ok st') :
    st'.subBatches = st.subBatches := by
  rw [readOp_eq hop]

theorem length_batchDocs_readOp {op : Operation} (hop : st.readOp env op = .ok st') :
    st'.batchDocs.length ≤ st.batchDocs.length + 1 := by
  rw [readOp_eq hop, List.length_append]
  exact Nat.add_le_add_left Option.length_toList_le _

/-- The first documents of the batch are embedded. -/
theorem Accounts.embed (h : Accounts env ops outs st) {group rest : List DocToEmbed}
    (hbatch : st.batchDocs = group ++ rest) (n m : ℕ) :
    Accounts env ops (outs ++ env.embedDocs n group)
      { st with
        collected := st.collected.addDocs (env.embedDocs n group)
        batchDocs := rest
        subBatches := m } := by
  rw [Collected.addDocs_account]
  refine ⟨?_, ?_, ?_, ?_, ?_, h.seen⟩
  · rw [h.docs, hbatch, List.map_append, embedDocs_fst, List.append_assoc]
  · rw [List.flatMap_append, h.rows]
  · rw [List.filterMap_append, ← List.append_assoc]
    exact h.deleteIds.append_right _
  · rw [List.countP_append, h.indexed]
  · rw [List.filterMap_append, ← List.append_assoc]
    exact h.skipped.append_right _

/-- The main loop reads on only after operations that are no abort. -/
theorem streamStep_ne_abort {op : Operation} (hstep : env.streamStep st op = .ok st') :
    op ≠ .abort := by
  rintro rfl
  cases hstep

/-- The sub-batches `groups`, each in a request of its own from number `n` on. -/
def IngestEnv.embedGroups (env : IngestEnv V) : ℕ → List (List DocToEmbed) → List (Embedded V)
  | _, [] => []
  | n, group :: groups => env.embedDocs n group ++ embedGroups env (n + 1) groups

theorem embedGroups_append (n : ℕ) (gs gs' : List (List DocToEmbed)) :
    env.embedGroups n (gs ++ gs') = env.embedGroups n gs ++ env.embedGroups (n + gs.length) gs' := by
  induction gs generalizing n with
  | nil => rfl
  | cons g gs ih =>
    rw [List.cons_append, embedGroups, embedGroups, ih, List.append_assoc, List.length_cons]
    congr 3
    omega

theorem Accounts.flushSubBatches {groups : List (List DocToEmbed)} {n m : ℕ} {acc : Collected V}
    (h : Accounts env ops outs st) (hbatch : st.batchDocs = groups.flatten)
    (hflush : env.flushSubBatches n st.collected groups = .ok (m, acc)) :
    Accounts env ops (outs ++ env.embedGroups n groups)
      { st with collected := acc, batchDocs := [], subBatches := m } ∧ m = n + groups.length := by
  induction groups generalizing n outs st with
  | nil =>
    obtain ⟨rfl, rfl⟩ := Prod.mk.inj (Except.ok.inj hflush)
    have hnil : st.batchDocs = [] := by simpa using hbatch
    rw [embedGroups, List.append_nil]
    refine ⟨⟨?_, h.rows, h.deleteIds, h.indexed, h.skipped, h.seen⟩, rfl⟩
    rw [h.docs, hnil]
  | cons group groups ih =>
    rw [IngestEnv.flushSubBatches] at hflush
    split at hflush
    · cases hflush
    · rw [List.flatten_cons] at hbatch
      obtain ⟨hrest, hm⟩ := ih (h.embed hbatch n st.subBatches) rfl hflush
      rw [embedGroups, ← List.append_assoc, List.length_cons]
      exact ⟨hrest, by omega⟩

/-- The documents in full micro-batches `micro`, cut into sub-batches. -/
def IngestEnv.subBatchesOf (env : IngestEnv V) (micro : List (List DocToEmbed)) :
    List (List DocToEmbed) :=
  micro.flatMap (sliceChunks (max env.embedBatchSize 1))

/-- The books of the streaming pipeline: `micro` are the micro-batches flushed so far. -/
structure StreamAccounts (env : IngestEnv V) (ops : List Operation)
    (micro : List (List DocToEmbed)) (st : Reading V) : Prop where
  accounts : Accounts env ops (env.embedGroups 0 (env.subBatchesOf micro)) st
  full : ∀ batch ∈ micro, batch.length = microBatchDocs
  subBatches : st.subBatches = (env.subBatchesOf micro).length
  room : st.batchDocs.length < microBatchDocs
  abort : .abort ∉ ops

theorem embedGroups_fst (n : ℕ) (groups : List (List DocToEmbed)) :
    (env.embedGroups n groups).map Prod.fst = groups.flatten := by
  induction groups generalizing n with
  | nil => rfl
  | cons g gs ih => rw [embedGroups, List.map_append, embedDocs_fst, ih, List.flatten_cons]

theorem flatten_subBatchesOf (micro : List (List DocToEmbed)) :
    (env.subBatchesOf micro).flatten = micro.flatten := by
  induction micro with
  | nil => rfl
  | cons batch micro ih =>
    have hcons : env.subBatchesOf (batch :: micro) =
        sliceChunks (max env.embedBatchSize 1) batch ++ env.subBatchesOf micro := rfl
    rw [hcons, List.flatten_append, ih, List.flatten_cons,
      flatten_sliceChunks (show 0 < max env.embedBatchSize 1 by omega)]

theorem streamAccounts_start (env : IngestEnv V) : StreamAccounts env [] [] Reading.start where
  accounts := accounts_start env
  full := by simp
  subBatches := rfl
  room := (by decide : 0 < microBatchDocs)
  abort := List.not_mem_nil

variable {micro : List (List DocToEmbed)}

/-- A flush moves the batch into the books, whatever its size. -/
theorem StreamAccounts.flushMicrobatch
    (h : Accounts env ops (env.embedGroups 0 (env.subBatchesOf micro)) st)
    (hsub : st.subBatches = (env.subBatchesOf micro).length)
    (hflush : env.flushMicrobatch st = .ok st') :
    Accounts env ops (env.embedGroups 0 (env.subBatchesOf (micro ++ [st.batchDocs]))) st' ∧
      st'.batchDocs = [] ∧
      st'.subBatches = (env.subBatchesOf (micro ++ [st.batchDocs])).length := by
  obtain ⟨n, acc, hgroups, rfl⟩ := flushMicrobatch_ok hflush
  have hflat := flatten_sliceChunks (show 0 < max env.embedBatchSize 1 by omega) st.batchDocs
  obtain ⟨haccounts, hn⟩ := h.flushSubBatches hflat.symm hgroups
  have hsnoc : env.subBatchesOf (micro ++ [st.batchDocs]) =
      env.subBatchesOf micro ++ sliceChunks (max env.embedBatchSize 1) st.batchDocs := by
    simp [subBatchesOf]
  rw [hsnoc, embedGroups_append, Nat.zero_add, ← hsub, List.length_append, ← hsub]
  exact ⟨haccounts, rfl, hn⟩

theorem StreamAccounts.streamStep (h : StreamAccounts env ops micro st) {op : Operation}
    (hstep : env.streamStep st op = .ok st') : ∃ micro', StreamAccounts env (ops ++ [op]) micro' st' := by
  have habort : .abort ∉ ops ++ [op] := by simp [h.abort, (streamStep_ne_abort hstep).symm]
  obtain ⟨st₁, hop, ⟨hfull, hflush⟩ | ⟨hroom, rfl⟩⟩ := streamStep_ok hstep
  · have hsub : st₁.subBatches = (env.subBatchesOf micro).length :=
      (subBatches_readOp hop).trans h.subBatches
    have hlen := length_batchDocs_readOp hop
    have hold := h.room
    obtain ⟨haccounts, hnil, hsub'⟩ :=
      StreamAccounts.flushMicrobatch (h.accounts.readOp hop) hsub hflush
    refine ⟨_, haccounts, fun batch hbatch => ?_, hsub', ?_, habort⟩
    · rcases List.mem_append.mp hbatch with hold' | hnew
      · exact h.full batch hold'
      · rw [List.mem_singleton.mp hnew]
        omega
    · rw [hnil]
      exact (by decide : 0 < microBatchDocs)
  · exact ⟨micro, h.accounts.readOp hop, h.full, (subBatches_readOp hop).trans h.subBatches, hroom,
      habort⟩

theorem streamOps_accounts (hrun : env.streamOps 0 .start ops = .ok st) :
    ∃ micro, StreamAccounts env ops micro st := by
  refine streamOps_rule (I := fun past st => ∃ micro, StreamAccounts env past micro st)
    (fun past op st st' hst hstep => ?_) ⟨[], streamAccounts_start env⟩ hrun
  obtain ⟨micro, hst⟩ := hst
  exact hst.streamStep hstep

/-- The full micro-batches of a stream of operations. -/
def IngestEnv.fullBatches (env : IngestEnv V) (ops : List Operation) : List (List DocToEmbed) :=
  let docs := ops.filterMap env.batchedDoc?
  sliceChunks microBatchDocs (docs.take (docs.length / microBatchDocs * microBatchDocs))

theorem StreamAccounts.docs_eq (h : StreamAccounts env ops micro st) :
    ops.filterMap env.batchedDoc? = micro.flatten ++ st.batchDocs := by
  rw [h.accounts.docs, embedGroups_fst, flatten_subBatchesOf]

theorem StreamAccounts.micro_eq (h : StreamAccounts env ops micro st) :
    micro = env.fullBatches ops := by
  have hlen := length_flatten_pieces micro h.full
  have hdocs := h.docs_eq
  have hdiv : (ops.filterMap env.batchedDoc?).length / microBatchDocs = micro.length := by
    rw [hdocs, List.length_append, hlen, Nat.mul_comm,
      Nat.mul_add_div (by decide : 0 < microBatchDocs), Nat.div_eq_of_lt h.room, Nat.add_zero]
  have htake : (ops.filterMap env.batchedDoc?).take
      ((ops.filterMap env.batchedDoc?).length / microBatchDocs * microBatchDocs) =
        micro.flatten := by
    rw [hdiv, ← hlen, hdocs, List.take_left]
  simp only [fullBatches, htake]
  exact (sliceChunks_flatten (by decide : 0 < microBatchDocs) micro h.full).symm

/-- The documents of full micro-batches that replace an older document: by the time the
channel is closed they are among the seen documents and among the deletes. -/
def IngestEnv.countedTwice (env : IngestEnv V) (ops : List Operation) : ℕ :=
  ((env.embedGroups 0 (env.subBatchesOf (env.fullBatches ops))).filterMap
    Embedded.replaced?).length

/-- The document operations: insertions, changes and deletions. -/
def docOps (ops : List Operation) : ℕ := (ops.filterMap Operation.target?).length

theorem docOps_eq (ops : List Operation) :
    docOps ops = ops.countP Operation.isDoc + (ops.filterMap Operation.deletedId?).length := by
  unfold docOps
  induction ops with
  | nil => rfl
  | cons op ops ih =>
    cases op <;> simp [List.filterMap_cons, List.countP_cons, Operation.target?, Operation.isDoc,
      Operation.deletedId?, ih] <;> omega

/-- What the truncation check compares with the expected number. -/
theorem StreamAccounts.received_eq (h : StreamAccounts env ops micro st) :
    received st = docOps ops + env.countedTwice ops := by
  have hdelete := h.accounts.deleteIds.length_eq
  rw [List.length_append] at hdelete
  unfold received countedTwice
  rw [h.accounts.seen, hdelete, docOps_eq, ← h.micro_eq]
  omega

/-! The cancellation of the task plays no part in the books. -/

section Cancelled

variable (env : IngestEnv V) (cancelled : CancelPoint → Bool)

theorem scatter_cancelled (docs : List DocToEmbed) (rd rq : List (EmbedResult V)) :
    ({ env with cancelled := cancelled } : IngestEnv V).scatter docs rd rq =
      env.scatter docs rd rq := by
  induction docs generalizing rd rq with
  | nil => rfl
  | cons doc docs ih =>
    rw [scatter, scatter, ih]
    rfl

theorem embedGroups_cancelled (n : ℕ) (groups : List (List DocToEmbed)) :
    ({ env with cancelled := cancelled } : IngestEnv V).embedGroups n groups =
      env.embedGroups n groups := by
  induction groups generalizing n with
  | nil => rfl
  | cons group groups ih =>
    rw [embedGroups, embedGroups, ih, embedDocs, scatter_cancelled]
    rfl

theorem batchedDoc?_cancelled :
    ({ env with cancelled := cancelled } : IngestEnv V).batchedDoc? = env.batchedDoc? := by
  funext op
  cases op <;> rfl

theorem countedTwice_cancelled (ops : List Operation) :
    ({ env with cancelled := cancelled } : IngestEnv V).countedTwice ops = env.countedTwice ops := by
  unfold countedTwice fullBatches
  rw [batchedDoc?_cancelled, embedGroups_cancelled]
  rfl

end Cancelled

namespace IngestEnv

variable (env : IngestEnv V)

/-- The looks at the cancellation token while one sub-batch is embedded. -/
def subBatchLooks (n : ℕ) : List CancelPoint :=
  [.subBatch n, .embedDocument n] ++ if env.storeClustering then [.embedClustering n] else []

/-- The micro-batches of a stream of operations, the last one possibly short. -/
def allBatches (ops : List Operation) : List (List DocToEmbed) :=
  sliceChunks microBatchDocs (ops.filterMap env.batchedDoc?)

/-- Every look at the cancellation token on the way through a stream of operations. -/
def looks (ops : List Operation) : List CancelPoint :=
  (List.range (ops.length + 1)).map .receive ++
    (List.range (env.subBatchesOf (env.allBatches ops)).length).flatMap env.subBatchLooks

end IngestEnv

/-- The last flush makes the sub-batches of the whole stream complete. -/
theorem StreamAccounts.subBatches_all (h : StreamAccounts env ops micro st) :
    env.subBatchesOf (env.allBatches ops) = env.subBatchesOf (micro ++ [st.batchDocs]) := by
  rw [allBatches, h.docs_eq,
    sliceChunks_flatten_append (by decide : 0 < microBatchDocs) micro h.full h.room]
  cases hbatch : st.batchDocs with
  | nil => simp [subBatchesOf, sliceChunks, sliceLoop]
  | cons doc docs => rfl

/-- The token was not cancelled at any look during the first `n` sub-batches. -/
def Uncancelled (env : IngestEnv V) (n : ℕ) : Prop :=
  ∀ i < n, ∀ p ∈ env.subBatchLooks i, env.cancelled p = false

theorem flushSubBatches_uncancelled {groups : List (List DocToEmbed)} {n m : ℕ}
    {acc acc' : Collected V} (h : Uncancelled env n)
    (hflush : env.flushSubBatches n acc groups = .ok (m, acc')) : Uncancelled env m := by
  induction groups generalizing n acc with
  | nil =>
    obtain ⟨rfl, -⟩ := Prod.mk.inj (Except.ok.inj hflush)
    exact h
  | cons group groups ih =>
    rw [IngestEnv.flushSubBatches] at hflush
    split at hflush
    · cases hflush
    · rename_i hgo
      refine ih (fun i hi p hp => ?_) hflush
      rcases Nat.lt_succ_iff_lt_or_eq.mp hi with hlt | rfl
      · exact h i hlt p hp
      · simp only [Bool.not_eq_true, Bool.or_eq_false_iff, Bool.and_eq_false_iff] at hgo
        simp only [subBatchLooks, List.mem_append, List.mem_cons, List.not_mem_nil, or_false] at hp
        rcases hp with (rfl | rfl) | hp
        · exact hgo.1.1
        · exact hgo.1.2
        · split at hp
          · rename_i hclustering
            rw [List.mem_singleton.mp hp]
            exact hgo.2.resolve_left (by simp [hclustering])
          · cases hp

theorem flushMicrobatch_uncancelled (h : Uncancelled env st.subBatches)
    (hflush : env.flushMicrobatch st = .ok st') : Uncancelled env st'.subBatches := by
  obtain ⟨n, acc, hgroups, rfl⟩ := flushMicrobatch_ok hflush
  exact flushSubBatches_uncancelled h hgroups

theorem streamOps_receives {n : ℕ} (hrun : env.streamOps n st ops = .ok st') :
    ∀ i, i < ops.length + 1 → env.cancelled (.receive (n + i)) = false := by
  induction ops generalizing n st with
  | nil =>
    rw [IngestEnv.streamOps] at hrun
    split at hrun
    · cases hrun
    · rename_i hgo
      intro i hi
      obtain rfl : i = 0 := by simpa using hi
      simpa using hgo
  | cons op ops ih =>
    rw [IngestEnv.streamOps] at hrun
    split at hrun
    · cases hrun
    · rename_i hgo
      cases hstep : env.streamStep st op with
      | error e =>
        rw [hstep] at hrun
        cases hrun
      | ok st₁ =>
        rw [hstep] at hrun
        intro i hi
        cases i with
        | zero => simpa using hgo
        | succ i =>
          have hrest := ih hrun i (by simpa using hi)
          rwa [show n + (i + 1) = n + 1 + i by omega]

/-- A streaming push is abandoned before it writes: its stream holds an abort, the token is
cancelled at one of its looks, or the truncation check counts fewer documents than
expected. -/
def Abandoned (env : IngestEnv V) (expectedDocs : Option ℕ) (ops : List Operation) : Prop :=
  .abort ∈ ops ∨ (∃ p ∈ env.looks ops, env.cancelled p = true) ∨
    ∃ n, expectedDocs = some n ∧ docOps ops + env.countedTwice ops < n

theorem checkTruncated_ok {expectedDocs : Option ℕ} (h : checkTruncated expectedDocs st = .ok ())
    {n : ℕ} (hn : expectedDocs = some n) : n ≤ received st := by
  subst hn
  unfold checkTruncated at h
  dsimp only at h
  split at h
  · cases h
  · omega

/-- Collecting ends well only if the push is not abandoned. -/
theorem not_abandoned {expectedDocs : Option ℕ} {c : Collected V}
    (h : env.collectStream expectedDocs ops = .ok c) : ¬ Abandoned env expectedDocs ops := by
  obtain ⟨st, st', hrun, hcheck, hflush, rfl⟩ := collectStream_ok h
  obtain ⟨micro, hst⟩ := streamOps_accounts hrun
  rintro (habort | ⟨p, hp, hcancelled⟩ | ⟨n, hn, hlt⟩)
  · exact hst.abort habort
  · have hsub : Uncancelled env st.subBatches := by
      let kept : List Operation → Reading V → Prop := fun _ st => Uncancelled env st.subBatches
      have hstart : kept [] .start := by
        intro i hi
        cases hi
      have hkept : ∀ past op st st', kept past st → env.streamStep st op = .ok st' →
          kept (past ++ [op]) st' := by
        intro past op st st' hold hstep
        obtain ⟨st₁, hop, ⟨-, hflush⟩ | ⟨-, rfl⟩⟩ := streamStep_ok hstep
        · change Uncancelled env st.subBatches at hold
          rw [← subBatches_readOp hop] at hold
          exact flushMicrobatch_uncancelled hold hflush
        · change Uncancelled env st'.subBatches
          rwa [subBatches_readOp hop]
      exact @streamOps_rule V env .start st ops kept hkept [] 0 hstart hrun
    obtain ⟨-, -, hcount⟩ := StreamAccounts.flushMicrobatch hst.accounts hst.subBatches hflush
    have hbatches : (env.subBatchesOf (env.allBatches ops)).length = st'.subBatches := by
      rw [hcount, hst.subBatches_all]
    have hfalse : env.cancelled p = false := by
      rw [looks, List.mem_append, hbatches] at hp
      rcases hp with hp | hp
      · obtain ⟨i, hi, rfl⟩ := List.mem_map.mp hp
        have hreceive := streamOps_receives hrun i (List.mem_range.mp hi)
        rwa [Nat.zero_add] at hreceive
      · obtain ⟨i, hi, hp⟩ := List.mem_flatMap.mp hp
        exact flushMicrobatch_uncancelled hsub hflush i (List.mem_range.mp hi) p hp
    rw [hfalse] at hcancelled
    cases hcancelled
  · have hle := checkTruncated_ok hcheck hn
    rw [hst.received_eq] at hle
    omega

/-- The books at the end of a collecting phase: `outs` are its documents in the order of their
operations. -/
structure ClosedBooks (env : IngestEnv V) (ops : List Operation) (outs : List (Embedded V))
    (c : Collected V) : Prop where
  docs : ops.filterMap env.batchedDoc? = outs.map Prod.fst
  rows : c.rows = outs.flatMap Embedded.rows
  deleteIds : c.deleteIds.Perm
    (ops.filterMap Operation.deletedId? ++ outs.filterMap Embedded.replaced?)
  indexed : c.indexed = outs.countP Embedded.isIndexed
  skipped : c.skipped.Perm (ops.filterMap env.readSkip? ++ outs.filterMap Embedded.failed?)

theorem Accounts.closed (h : Accounts env ops outs st) (hbatch : st.batchDocs = []) :
    ClosedBooks env ops outs st.collected where
  docs := by rw [h.docs, hbatch, List.append_nil]
  rows := h.rows
  deleteIds := h.deleteIds
  indexed := h.indexed
  skipped := h.skipped

/-- The books of the buffered pipeline, which embeds all documents at once. -/
theorem collectBuffered_accounts {c : Collected V} (h : env.collectBuffered ops = .ok c) :
    ∃ st, Accounts env ops (env.embedDocs 0 (ops.filterMap env.batchedDoc?)) st ∧
      st.batchDocs = [] ∧ st.collected = c := by
  obtain ⟨st, hread, rfl⟩ := collectBuffered_ok h
  have hst : Accounts env ops [] st := readOps_rule (I := fun past st => Accounts env past [] st)
    (fun past op st st' hold hop => hold.readOp hop) (accounts_start env) hread
  have hdocs : ops.filterMap env.batchedDoc? = st.batchDocs := hst.docs
  rw [hdocs]
  exact ⟨_, hst.embed (List.append_nil _).symm 0 st.subBatches, rfl, rfl⟩

/-- The books of the streaming pipeline after its last flush. -/
theorem collectStream_accounts {expectedDocs : Option ℕ} {c : Collected V}
    (h : env.collectStream expectedDocs ops = .ok c) :
    ∃ st, Accounts env ops (env.embedGroups 0 (env.subBatchesOf (env.allBatches ops))) st ∧
      st.batchDocs = [] ∧ st.collected = c := by
  obtain ⟨st, st', hrun, -, hflush, rfl⟩ := collectStream_ok h
  obtain ⟨micro, hst⟩ := streamOps_accounts hrun
  obtain ⟨haccounts, hnil, -⟩ := StreamAccounts.flushMicrobatch hst.accounts hst.subBatches hflush
  rw [hst.subBatches_all]
  exact ⟨st', haccounts, hnil, rfl⟩

theorem collectBuffered_closed {c : Collected V} (h : env.collectBuffered ops = .ok c) :
    ClosedBooks env ops (env.embedDocs 0 (ops.filterMap env.batchedDoc?)) c := by
  obtain ⟨st, hst, hnil, rfl⟩ := collectBuffered_accounts h
  exact hst.closed hnil

theorem collectStream_closed {expectedDocs : Option ℕ} {c : Collected V}
    (h : env.collectStream expectedDocs ops = .ok c) :
    ClosedBooks env ops (env.embedGroups 0 (env.subBatchesOf (env.allBatches ops))) c := by
  obtain ⟨st, hst, hnil, rfl⟩ := collectStream_accounts h
  exact hst.closed hnil

theorem flushSubBatches_completes (hgo : ∀ p, env.cancelled p = false)
    (groups : List (List DocToEmbed)) (n : ℕ) (acc : Collected V) :
    ∃ out, env.flushSubBatches n acc groups = .ok out := by
  induction groups generalizing n acc with
  | nil => exact ⟨_, rfl⟩
  | cons group groups ih =>
    obtain ⟨out, hout⟩ := ih (n + 1) (acc.addDocs (env.embedDocs n group))
    refine ⟨out, ?_⟩
    rw [flushSubBatches, hgo, hgo, hgo]
    simpa using hout

theorem flushMicrobatch_completes (hgo : ∀ p, env.cancelled p = false) (st : Reading V) :
    ∃ st', env.flushMicrobatch st = .ok st' := by
  obtain ⟨out, hout⟩ := flushSubBatches_completes hgo
    (sliceChunks (max env.embedBatchSize 1) st.batchDocs) st.subBatches st.collected
  unfold flushMicrobatch
  rw [hout]
  exact ⟨_, rfl⟩

theorem readOp_completes (env : IngestEnv V) {op : Operation} (hop : op ≠ .abort) (st : Reading V) :
    ∃ st', st.readOp env op = .ok st' := by
  cases op with
  | abort => exact absurd rfl hop
  | _ => exact ⟨_, rfl⟩

theorem streamStep_completes (hgo : ∀ p, env.cancelled p = false) {op : Operation}
    (hop : op ≠ .abort) (st : Reading V) : ∃ st', env.streamStep st op = .ok st' := by
  obtain ⟨st₁, hread⟩ := readOp_completes env hop st
  unfold streamStep
  rw [hread]
  change ∃ st', (if microBatchDocs ≤ st₁.batchDocs.length then env.flushMicrobatch st₁
    else pure st₁) = .ok st'
  split
  · exact flushMicrobatch_completes hgo st₁
  · exact ⟨st₁, rfl⟩

/-- A stream without an abort is collected to its end unless the token is cancelled. -/
theorem streamOps_completes (hgo : ∀ p, env.cancelled p = false) (habort : .abort ∉ ops) (n : ℕ)
    (st : Reading V) : ∃ st', env.streamOps n st ops = .ok st' := by
  induction ops generalizing n st with
  | nil => exact ⟨st, by simp [streamOps, hgo]⟩
  | cons op ops ih =>
    rw [List.mem_cons, not_or] at habort
    obtain ⟨st₁, hstep⟩ := streamStep_completes hgo (fun h => habort.1 h.symm) st
    obtain ⟨st', hrest⟩ := ih habort.2 (n + 1) st₁
    refine ⟨st', ?_⟩
    rw [streamOps, hgo, hstep]
    exact hrest

/-- Nothing but an abort, a cancellation or the count keeps a stream from being collected. -/
theorem collectStream_completes (hgo : ∀ p, env.cancelled p = false) (habort : .abort ∉ ops)
    {expectedDocs : Option ℕ}
    (hcount : ∀ n, expectedDocs = some n → n ≤ docOps ops + env.countedTwice ops) :
    ∃ c, env.collectStream expectedDocs ops = .ok c := by
  obtain ⟨st, hrun⟩ := streamOps_completes hgo habort 0 (.start : Reading V)
  obtain ⟨micro, hst⟩ := streamOps_accounts hrun
  have hcheck : checkTruncated expectedDocs st = .ok () := by
    cases expectedDocs with
    | none => rfl
    | some n =>
      have hle := hcount n rfl
      rw [← hst.received_eq] at hle
      exact if_neg (by omega)
  obtain ⟨st', hflush⟩ := flushMicrobatch_completes hgo st
  refine ⟨st'.collected, ?_⟩
  unfold collectStream
  rw [hrun]
  change env.finishStream expectedDocs st = _
  unfold finishStream
  rw [hcheck]
  change (do let st ← env.flushMicrobatch st; pure st.collected) = _
  rw [hflush]
  rfl

/-- The buffered pipeline collects every list without an abort, and only those. -/
theorem collectBuffered_completes (habort : .abort ∉ ops) :
    ∃ c, env.collectBuffered ops = .ok c := by
  have hread : ∀ st : Reading V, ∃ st', env.readOps st ops = .ok st' := by
    induction ops with
    | nil => exact fun st => ⟨st, rfl⟩
    | cons op ops ih =>
      intro st
      rw [List.mem_cons, not_or] at habort
      obtain ⟨st₁, hop⟩ := readOp_completes env (fun h => habort.1 h.symm) st
      obtain ⟨st', hrest⟩ := ih habort.2 st₁
      exact ⟨st', by rw [readOps, hop]; exact hrest⟩
  obtain ⟨st, hst⟩ := hread .start
  unfold collectBuffered
  rw [hst]
  exact ⟨_, rfl⟩

theorem abort_notMem_of_collectBuffered {c : Collected V} (h : env.collectBuffered ops = .ok c) :
    .abort ∉ ops := by
  obtain ⟨st, hread, -⟩ := collectBuffered_ok h
  refine readOps_rule (I := fun past _ => .abort ∉ past) (fun past op st st' hold hop => ?_)
    List.not_mem_nil hread
  rw [List.mem_append, not_or, List.mem_singleton]
  refine ⟨hold, ?_⟩
  rintro rfl
  cases hop

end Vectorlink
