import Vectorlink.Embed
import Vectorlink.Store.Schema

/-! From the operations of a push to the rows and deletes it writes: the collecting half of
the buffered and of the streaming pipeline. -/
namespace Vectorlink

/-- One line of a push body. -/
inductive Operation where
  | inserted (id : DocId) (string : String)
  | changed (id : DocId) (string : String)
  | deleted (id : DocId)
  | error (message : String)
  | abort
deriving DecidableEq, Repr

structure SkippedDoc where
  id : String
  message : String
deriving DecidableEq, Repr

structure Chunk where
  index : UInt32
  count : UInt32
  tokenStart : UInt32
  docTokenLen : UInt32
  text : String
deriving DecidableEq, Repr

structure DocToEmbed where
  id : DocId
  chunks : List Chunk
  isChanged : Bool
deriving DecidableEq, Repr

/-- The text after the first `///`. -/
def afterScheme : List Char → Option (List Char)
  | [] => none
  | c :: cs => if ['/', '/', '/'].isPrefixOf (c :: cs) then some (cs.drop 2) else afterScheme cs

/-- The second segment from the end. -/
def typeSegment (path : List Char) : Option String :=
  let segments := path.splitOn '/'
  if 2 ≤ segments.length then (segments.dropLast.getLast?).map String.ofList else none

def extractDocType (docId : DocId) : String :=
  (((afterScheme docId.toList).bind typeSegment).or (typeSegment docId.toList)).getD "unknown"

/-- Where the streaming pipeline looks at its cancellation token. -/
inductive CancelPoint where
  | receive (n : ℕ)
  | subBatch (n : ℕ)
  | embedDocument (n : ℕ)
  | embedClustering (n : ℕ)
deriving DecidableEq, Repr

/-- What collecting does not decide itself: the tokenizer, the provider, the settings of the
domain and the cancellation of the task. -/
structure IngestEnv (V : Type) where
  chunkText : String → Except String (List Chunk)
  provider : Provider V
  embedBatchSize : ℕ
  batchSize_pos : 0 < embedBatchSize
  storeClustering : Bool
  zero : V
  l2Normalize : V → V
  cancelled : CancelPoint → Bool

variable {V : Type}

def EmbedResult.failure? : EmbedResult V → Option String
  | .ok _ => none
  | .failed message => some message

def EmbedResult.embedding? : EmbedResult V → Option V
  | .ok embedding => some embedding
  | .failed _ => none

def chunkRow (id : DocId) (chunk : Chunk) (embedding clusteringEmbedding : V) : ChunkRow V where
  docId := id
  docType := extractDocType id
  chunkIndex := chunk.index.toInt32
  chunkCount := chunk.count.toInt32
  chunkTokenStart := chunk.tokenStart.toInt32
  docTokenLen := chunk.docTokenLen.toInt32
  embedding := embedding
  clusteringEmbedding := clusteringEmbedding
  content := chunk.text

def chunkRows (id : DocId) (chunks : List Chunk) (embeddings clustering : List V) :
    List (ChunkRow V) :=
  (chunks.zip (embeddings.zip clustering)).map fun x => chunkRow id x.1 x.2.1 x.2.2

namespace IngestEnv

variable (env : IngestEnv V)

/-- The rows of a document from the results for its chunks, or the first failure in either
role. Past that check every result is an embedding. -/
def docRows (doc : DocToEmbed) (resultsDoc resultsQuery : List (EmbedResult V)) :
    Except String (List (ChunkRow V)) :=
  match (resultsDoc ++ resultsQuery).findSome? EmbedResult.failure? with
  | some message => .error message
  | none =>
    .ok (chunkRows doc.id doc.chunks
      ((resultsDoc.filterMap EmbedResult.embedding?).map env.l2Normalize)
      ((resultsQuery.filterMap EmbedResult.embedding?).map env.l2Normalize))

/-- Hand each document the results for its own chunks. -/
def scatter : List DocToEmbed → List (EmbedResult V) → List (EmbedResult V) →
    List (DocToEmbed × Except String (List (ChunkRow V)))
  | [], _, _ => []
  | doc :: docs, resultsDoc, resultsQuery =>
    let n := doc.chunks.length
    (doc, env.docRows doc (resultsDoc.take n) (resultsQuery.take n)) ::
      scatter docs (resultsDoc.drop n) (resultsQuery.drop n)

def flatTexts (docs : List DocToEmbed) : List String :=
  docs.flatMap fun doc => doc.chunks.map (·.text)

def clusteringResults (subBatch : ℕ) (texts : List String) : List (EmbedResult V) :=
  if env.storeClustering then
    ioEmbedBatched env.provider .clustering subBatch env.embedBatchSize texts
  else texts.map fun _ => .ok env.zero

def embedDocs (subBatch : ℕ) (docs : List DocToEmbed) :
    List (DocToEmbed × Except String (List (ChunkRow V))) :=
  env.scatter docs
    (ioEmbedBatched env.provider .document subBatch env.embedBatchSize (flatTexts docs))
    (env.clusteringResults subBatch (flatTexts docs))

end IngestEnv

/-- What a collecting phase hands to the write phase. -/
structure Collected (V : Type) where
  rows : List (ChunkRow V)
  deleteIds : List DocId
  indexed : ℕ
  skipped : List SkippedDoc
deriving DecidableEq, Repr

def Collected.empty : Collected V := ⟨[], [], 0, []⟩

/-- One embedded or skipped document. -/
def Collected.addDoc (acc : Collected V) (doc : DocToEmbed)
    (result : Except String (List (ChunkRow V))) : Collected V :=
  match result with
  | .error message => { acc with skipped := acc.skipped ++ [⟨doc.id, message⟩] }
  | .ok rows =>
    { acc with
      rows := acc.rows ++ rows
      deleteIds := if doc.isChanged then acc.deleteIds ++ [doc.id] else acc.deleteIds
      indexed := acc.indexed + 1 }

def Collected.addDocs (acc : Collected V)
    (docs : List (DocToEmbed × Except String (List (ChunkRow V)))) : Collected V :=
  docs.foldl (fun acc d => acc.addDoc d.1 d.2) acc

/-- The operations read so far: what is settled, the documents still to embed, the document
operations counted and the number of sub-batches embedded. -/
structure Reading (V : Type) where
  collected : Collected V
  batchDocs : List DocToEmbed
  totalDocsSeen : ℕ
  subBatches : ℕ
deriving DecidableEq, Repr

def Reading.start : Reading V := ⟨.empty, [], 0, 0⟩

namespace Reading

variable (st : Reading V)

def skip (id message : String) : Reading V :=
  { st with collected := { st.collected with
      skipped := st.collected.skipped ++ [⟨id, message⟩] } }

/-- An inserted or a changed document. -/
def readDoc (env : IngestEnv V) (id : DocId) (string : String) (isChanged : Bool) : Reading V :=
  let st := { st with totalDocsSeen := st.totalDocsSeen + 1 }
  match env.chunkText string with
  | .ok chunks =>
    if chunks.isEmpty then st.skip id "chunking produced zero chunks"
    else { st with batchDocs := st.batchDocs ++ [⟨id, chunks, isChanged⟩] }
  | .error e => st.skip id s!"chunking failed: {e}"

/-- The same `match` on the operation in both pipelines. -/
def readOp (env : IngestEnv V) : Operation → Except String (Reading V)
  | .inserted id string => .ok (st.readDoc env id string false)
  | .changed id string => .ok (st.readDoc env id string true)
  | .deleted id =>
    .ok { st with collected := { st.collected with
      deleteIds := st.collected.deleteIds ++ [id] } }
  | .error message => .ok (st.skip "unknown" s!"operation error: {message}")
  | .abort => .error "push aborted by client"

end Reading

namespace IngestEnv

variable (env : IngestEnv V)

/-- The buffered pipeline reads all operations and then embeds all documents at once. -/
def readOps : Reading V → List Operation → Except String (Reading V)
  | st, [] => .ok st
  | st, op :: ops => do
    let st ← st.readOp env op
    readOps st ops

def collectBuffered (ops : List Operation) : Except String (Collected V) := do
  let st ← env.readOps .start ops
  pure (st.collected.addDocs (env.embedDocs 0 st.batchDocs))

def superseded : String := "pipeline superseded by new push (reindex)"

/-- The sub-batches of a micro-batch in turn, each after a look at the cancellation token. -/
def flushSubBatches : (subBatch : ℕ) → Collected V → List (List DocToEmbed) →
    Except String (ℕ × Collected V)
  | n, acc, [] => .ok (n, acc)
  | n, acc, docs :: rest =>
    if env.cancelled (.subBatch n) || env.cancelled (.embedDocument n) ||
        (env.storeClustering && env.cancelled (.embedClustering n)) then .error superseded
    else flushSubBatches (n + 1) (acc.addDocs (env.embedDocs n docs)) rest

def flushMicrobatch (st : Reading V) : Except String (Reading V) := do
  let (n, acc) ← env.flushSubBatches st.subBatches st.collected
    (sliceChunks (max env.embedBatchSize 1) st.batchDocs)
  pure { st with collected := acc, batchDocs := [], subBatches := n }

def microBatchDocs : ℕ := 2000

/-- One round of the main loop: the operation that was received, then a flush when the
micro-batch is full. -/
def streamStep (st : Reading V) (op : Operation) : Except String (Reading V) := do
  let st ← st.readOp env op
  if microBatchDocs ≤ st.batchDocs.length then env.flushMicrobatch st else pure st

/-- The main loop, until the channel is closed. -/
def streamOps : (n : ℕ) → Reading V → List Operation → Except String (Reading V)
  | n, st, [] => if env.cancelled (.receive n) then .error superseded else .ok st
  | n, st, op :: ops =>
    if env.cancelled (.receive n) then .error superseded
    else do
      let st ← env.streamStep st op
      streamOps (n + 1) st ops

/-- The count that is compared with `expected_docs` when the channel is closed. -/
def received (st : Reading V) : ℕ := st.totalDocsSeen + st.collected.deleteIds.length

def truncatedText (expected : ℕ) (st : Reading V) : String :=
  match st.collected.skipped.head? with
  | some first =>
    s!"truncated push: expected {expected} document ops, received {received st} (first failure: {first.message})"
  | none => s!"truncated push: expected {expected} document ops, received {received st}"

def checkTruncated (expectedDocs : Option ℕ) (st : Reading V) : Except String Unit :=
  match expectedDocs with
  | none => .ok ()
  | some expected => if received st < expected then .error (truncatedText expected st) else .ok ()

/-- After the channel is closed: the truncation check and the last flush. -/
def finishStream (expectedDocs : Option ℕ) (st : Reading V) : Except String (Collected V) := do
  checkTruncated expectedDocs st
  let st ← env.flushMicrobatch st
  pure st.collected

def collectStream (expectedDocs : Option ℕ) (ops : List Operation) :
    Except String (Collected V) := do
  let st ← env.streamOps 0 .start ops
  env.finishStream expectedDocs st

end IngestEnv

/-! How a collecting phase that ends well came to its end. -/

namespace IngestEnv

variable {env : IngestEnv V} {st st' : Reading V} {ops : List Operation} {c : Collected V}

theorem flushMicrobatch_ok (h : env.flushMicrobatch st = .ok st') :
    ∃ n acc, env.flushSubBatches st.subBatches st.collected
        (sliceChunks (max env.embedBatchSize 1) st.batchDocs) = .ok (n, acc) ∧
      st' = { st with collected := acc, batchDocs := [], subBatches := n } := by
  unfold flushMicrobatch at h
  cases hsub : env.flushSubBatches st.subBatches st.collected
      (sliceChunks (max env.embedBatchSize 1) st.batchDocs) with
  | error e =>
    rw [hsub] at h
    cases h
  | ok out =>
    rw [hsub] at h
    exact ⟨out.1, out.2, rfl, (Except.ok.inj h).symm⟩

theorem streamStep_ok {op : Operation} (h : env.streamStep st op = .ok st') :
    ∃ st₁, st.readOp env op = .ok st₁ ∧
      (microBatchDocs ≤ st₁.batchDocs.length ∧ env.flushMicrobatch st₁ = .ok st' ∨
        st₁.batchDocs.length < microBatchDocs ∧ st' = st₁) := by
  unfold streamStep at h
  cases hop : st.readOp env op with
  | error e =>
    rw [hop] at h
    cases h
  | ok st₁ =>
    rw [hop] at h
    change (if microBatchDocs ≤ st₁.batchDocs.length then env.flushMicrobatch st₁
      else pure st₁) = .ok st' at h
    refine ⟨st₁, rfl, ?_⟩
    split at h
    · exact .inl ⟨‹_›, h⟩
    · exact .inr ⟨by omega, (Except.ok.inj h).symm⟩

/-- What holds at the start and is kept by every round holds when the channel is closed. -/
theorem streamOps_rule {I : List Operation → Reading V → Prop}
    (hstep : ∀ past op st st', I past st → env.streamStep st op = .ok st' → I (past ++ [op]) st')
    {past : List Operation} {n : ℕ} (h : I past st) (hrun : env.streamOps n st ops = .ok st') :
    I (past ++ ops) st' := by
  induction ops generalizing past st n with
  | nil =>
    rw [streamOps] at hrun
    split at hrun
    · cases hrun
    · obtain rfl := Except.ok.inj hrun
      simpa using h
  | cons op ops ih =>
    rw [streamOps] at hrun
    split at hrun
    · cases hrun
    · cases hround : env.streamStep st op with
      | error e =>
        rw [hround] at hrun
        cases hrun
      | ok st₁ =>
        rw [hround] at hrun
        have hrest := ih (hstep past op st st₁ h hround) hrun
        rwa [List.append_assoc] at hrest

theorem readOps_rule {I : List Operation → Reading V → Prop}
    (hstep : ∀ past op st st', I past st → st.readOp env op = .ok st' → I (past ++ [op]) st')
    {past : List Operation} (h : I past st) (hread : env.readOps st ops = .ok st') :
    I (past ++ ops) st' := by
  induction ops generalizing past st with
  | nil =>
    obtain rfl := Except.ok.inj hread
    simpa using h
  | cons op ops ih =>
    rw [readOps] at hread
    cases hop : st.readOp env op with
    | error e =>
      rw [hop] at hread
      cases hread
    | ok st₁ =>
      rw [hop] at hread
      have hrest := ih (hstep past op st st₁ h hop) hread
      rwa [List.append_assoc] at hrest

theorem collectBuffered_ok (h : env.collectBuffered ops = .ok c) :
    ∃ st, env.readOps .start ops = .ok st ∧
      c = st.collected.addDocs (env.embedDocs 0 st.batchDocs) := by
  unfold collectBuffered at h
  cases hread : env.readOps .start ops with
  | error e =>
    rw [hread] at h
    cases h
  | ok st =>
    rw [hread] at h
    exact ⟨st, rfl, (Except.ok.inj h).symm⟩

theorem collectStream_ok {expectedDocs : Option ℕ} (h : env.collectStream expectedDocs ops = .ok c) :
    ∃ st st', env.streamOps 0 .start ops = .ok st ∧ checkTruncated expectedDocs st = .ok () ∧
      env.flushMicrobatch st = .ok st' ∧ c = st'.collected := by
  unfold collectStream at h
  cases hrun : env.streamOps 0 .start ops with
  | error e =>
    rw [hrun] at h
    cases h
  | ok st =>
    rw [hrun] at h
    change env.finishStream expectedDocs st = .ok c at h
    unfold finishStream at h
    cases hcheck : checkTruncated expectedDocs st with
    | error e =>
      rw [hcheck] at h
      cases h
    | ok u =>
      rw [hcheck] at h
      change (do let st ← env.flushMicrobatch st; pure st.collected) = .ok c at h
      cases hflush : env.flushMicrobatch st with
      | error e =>
        rw [hflush] at h
        cases h
      | ok st' =>
        rw [hflush] at h
        exact ⟨st, st', rfl, hcheck, hflush, (Except.ok.inj h).symm⟩

end IngestEnv

end Vectorlink
