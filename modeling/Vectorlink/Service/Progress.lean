import Vectorlink.IngestAccount
import Vectorlink.Service.Pipeline
import Vectorlink.Stepwise.Messages

/-! The streaming pipeline with the progress updates it sends. -/
namespace Vectorlink

open Stepwise Stepwise.Program Versioned

variable {V α : Type}

inductive ProgressUpdate where
  | progress (indexed totalSeen skipped : ℕ)
  | complete (indexedDocuments : ℕ) (skipped : List SkippedDoc)
  | error (error : String)
  | aborted
deriving DecidableEq, Repr

/-- The pipeline with the updates sent so far beside the domain. -/
abbrev Reporting (V α : Type) := Program StoreOp (Domain V × List ProgressUpdate) String α

namespace Reporting

/-- A failure that is reported before the pipeline returns it. -/
def reported (m : Push V α) : Reporting V α := do
  match ← attempt (beside m) with
  | .ok a => pure a
  | .error e => do
    send (.error e)
    fail e

/-- The scatter loop: one update for each document that has its rows. -/
def addDocs (totalSeen : ℕ) : Collected V → List (Embedded V) → Reporting V (Collected V)
  | acc, [] => pure acc
  | acc, o :: outs => do
    let acc := acc.addDoc o.1 o.2
    if o.isIndexed then send (.progress acc.indexed totalSeen acc.skipped.length) else pure ()
    addDocs totalSeen acc outs

variable (env : PushEnv V)

def flushSubBatches (totalSeen : ℕ) : (subBatch : ℕ) → Collected V → List (List DocToEmbed) →
    Reporting V (ℕ × Collected V)
  | n, acc, [] => pure (n, acc)
  | n, acc, docs :: rest =>
    if env.cancelled (.subBatch n) || env.cancelled (.embedDocument n) ||
        (env.storeClustering && env.cancelled (.embedClustering n)) then fail IngestEnv.superseded
    else do
      let acc ← addDocs totalSeen acc (env.embedDocs n docs)
      flushSubBatches totalSeen (n + 1) acc rest

def flushMicrobatch (st : Reading V) : Reporting V (Reading V) := do
  let (n, acc) ← flushSubBatches env st.totalDocsSeen st.subBatches st.collected
    (sliceChunks (max env.embedBatchSize 1) st.batchDocs)
  pure { st with collected := acc, batchDocs := [], subBatches := n }

/-- Of all operations only an abort cannot be read. -/
def streamStep (st : Reading V) (op : Operation) : Reporting V (Reading V) :=
  match st.readOp env.toIngestEnv op with
  | .error e => do
    send .aborted
    fail e
  | .ok st =>
    if IngestEnv.microBatchDocs ≤ st.batchDocs.length then flushMicrobatch env st else pure st

def streamOps : (n : ℕ) → Reading V → List Operation → Reporting V (Reading V)
  | n, st, [] => if env.cancelled (.receive n) then fail IngestEnv.superseded else pure st
  | n, st, op :: ops =>
    if env.cancelled (.receive n) then fail IngestEnv.superseded
    else do
      let st ← streamStep env st op
      streamOps (n + 1) st ops

def checkTruncated (expectedDocs : Option ℕ) (st : Reading V) : Reporting V Unit :=
  match IngestEnv.checkTruncated expectedDocs st with
  | .error e => do
    send (.error e)
    fail e
  | .ok () => pure ()

def collectStream (expectedDocs : Option ℕ) (ops : List Operation) :
    Reporting V (Collected V) := do
  let st ← streamOps env 0 .start ops
  checkTruncated expectedDocs st
  let st ← flushMicrobatch env st
  pure st.collected

def tagWork (branch : BranchName) (commit : CommitId) (tagVersion : ℕ) : Reporting V Unit := do
  reported (withContext "failed to tag commit" (env.ioTagCommit branch commit tagVersion))
  beside (withContext "" (StoreEnv.cacheLastIndexed branch commit tagVersion))
  let _ ← beside (attempt (env.ioCleanupAggressive))
  pure ()

/-- The version of the branch is the one call whose failure is not reported. -/
def tagNoop (branch : BranchName) (commit : CommitId) : Reporting V Unit := do
  reported (withContext "no-op tag: failed to ensure dataset" (env.ioOpenDataset .ensureNoop))
  let currentVersion ← beside (withContext "no-op tag: failed to get branch head version"
    (env.ioBranchHeadVersion .headVersion branch))
  reported (withContext "no-op tag: failed to tag commit"
    (env.ioTagCommit branch commit currentVersion))
  beside (withContext "" (StoreEnv.cacheLastIndexed branch commit currentVersion))

def tagStream (branch : BranchName) (commit : CommitId) (position : ℕ) (c : Collected V) :
    Reporting V Unit :=
  if c.indexed = 0 && c.deleteIds.isEmpty then tagNoop env branch commit
  else do
    let version ← beside (env.indexStream position branch)
    tagWork env branch commit version

def writeStream (branch : BranchName) (commit : CommitId) (position : ℕ) (c : Collected V) :
    Reporting V Unit := do
  beside (unlessEmpty c.deleteIds (withContext "final delete failed"
    (env.ioDeleteOn branch "microbatch delete failed" c.deleteIds)))
  beside (unlessEmpty c.rows (withContext "end-of-push append failed"
    (env.ioAppendOn branch "microbatch append failed" c.rows)))
  beside (withContext "cache refresh failed" (env.ioRefreshCachedDataset .refreshWritten))
  tagStream env branch commit position c

def ioRunIndexPipelineStream (branch : BranchName) (commit : CommitId)
    (expectedDocs : Option ℕ) (operations : List Operation) :
    Reporting V (ℕ × List SkippedDoc) := do
  beside (withContext "failed to ensure dataset" (env.ioOpenDataset .ensureDataset))
  beside (withContext "failed to open write handle" (env.ioOpenBranchForWrite .openBranch branch))
  let position ← beside (env.countCommits branch)
  let c ← collectStream env expectedDocs operations
  writeStream env branch commit position c
  send (.complete c.indexed c.skipped)
  pure (c.indexed, c.skipped)

section Erasure

variable {env : PushEnv V}

/-- A pure result as a program. -/
def ofExcept (x : Except String α) : Push V α :=
  match x with
  | .ok a => pure a
  | .error e => fail e

theorem erases_reported (m : Push V α) : Erases (reported m) m := by
  intro s us
  unfold reported
  rcases hrun : m s with ⟨tr, t, r⟩
  have hattempt : (attempt (beside m) : Reporting V (Except String α)) (s, us) =
      ⟨tr.map fun e => (e.1, (e.2, us)), (t, us), .ok r⟩ := by
    simp [attempt, beside, hrun]
  rw [bind_run_ok hattempt]
  cases r with
  | ok a => exact ⟨rfl, rfl⟩
  | error e => exact ⟨rfl, rfl⟩

theorem erases_addDocs (totalSeen : ℕ) (acc : Collected V) (outs : List (Embedded V)) :
    Erases (addDocs totalSeen acc outs) (pure (acc.addDocs outs)) := by
  induction outs generalizing acc with
  | nil => exact erases_pure _
  | cons o outs ih =>
    rw [addDocs]
    dsimp only
    split
    · exact (erases_send _).after (ih _)
    · exact ih _

theorem erases_bind {m : Reporting V α} {β : Type} {x : Except String α} (h : Erases m (ofExcept x))
    {k : α → Reporting V β} {f : α → Except String β} (hk : ∀ a, Erases (k a) (ofExcept (f a))) :
    Erases (m >>= k) (ofExcept (x >>= f)) := by
  cases x with
  | ok a => exact h.after (hk a)
  | error e => exact h.stop k

theorem erases_flushSubBatches (totalSeen n : ℕ) (acc : Collected V)
    (groups : List (List DocToEmbed)) :
    Erases (flushSubBatches env totalSeen n acc groups)
      (ofExcept (env.flushSubBatches n acc groups)) := by
  induction groups generalizing n acc with
  | nil => exact erases_pure _
  | cons docs rest ih =>
    rw [flushSubBatches, IngestEnv.flushSubBatches]
    split
    · exact erases_fail _
    · exact (erases_addDocs _ _ _).after (ih _ _)

theorem erases_flushMicrobatch (st : Reading V) :
    Erases (flushMicrobatch env st) (ofExcept (env.flushMicrobatch st)) :=
  erases_bind (erases_flushSubBatches _ _ _ _) fun _ => erases_pure _

theorem erases_streamStep (st : Reading V) (op : Operation) :
    Erases (streamStep env st op) (ofExcept (env.streamStep st op)) := by
  unfold streamStep IngestEnv.streamStep
  cases hop : st.readOp env.toIngestEnv op with
  | error e => exact (erases_send _).after (erases_fail e)
  | ok st₁ =>
    change Erases (if IngestEnv.microBatchDocs ≤ st₁.batchDocs.length then flushMicrobatch env st₁
      else pure st₁) (ofExcept (if IngestEnv.microBatchDocs ≤ st₁.batchDocs.length then
        env.flushMicrobatch st₁ else pure st₁))
    split
    · exact erases_flushMicrobatch st₁
    · exact erases_pure st₁

theorem erases_streamOps (n : ℕ) (st : Reading V) (ops : List Operation) :
    Erases (streamOps env n st ops) (ofExcept (env.streamOps n st ops)) := by
  induction ops generalizing n st with
  | nil =>
    rw [streamOps, IngestEnv.streamOps]
    split
    · exact erases_fail _
    · exact erases_pure _
  | cons op ops ih =>
    rw [streamOps, IngestEnv.streamOps]
    split
    · exact erases_fail _
    · exact erases_bind (erases_streamStep st op) fun st => ih _ st

theorem erases_checkTruncated (expectedDocs : Option ℕ) (st : Reading V) :
    Erases (checkTruncated expectedDocs st) (ofExcept (IngestEnv.checkTruncated expectedDocs st)) := by
  unfold checkTruncated
  cases IngestEnv.checkTruncated expectedDocs st with
  | error e => exact (erases_send _).after (erases_fail e)
  | ok u => exact erases_pure u

theorem erases_collectStream (expectedDocs : Option ℕ) (ops : List Operation) :
    Erases (collectStream env expectedDocs ops) (ofExcept (env.collectStream expectedDocs ops)) :=
  erases_bind (erases_streamOps _ _ _) fun st => erases_bind (erases_checkTruncated _ st) fun _ =>
    erases_bind (erases_flushMicrobatch st) fun _ => erases_pure _

theorem erases_tagNoop (branch : BranchName) (commit : CommitId) :
    Erases (tagNoop env branch commit) (env.tagNoop branch commit) :=
  (erases_reported _).bind fun _ => (erases_beside _).bind fun _ => (erases_reported _).bind
    fun _ => erases_beside _

theorem erases_tagWork (branch : BranchName) (commit : CommitId) (v : ℕ) :
    Erases (tagWork env branch commit v) (env.tagWork branch commit v) :=
  (erases_reported _).bind fun _ => (erases_beside _).bind fun _ => (erases_beside _).bind
    fun _ => erases_pure _

theorem erases_tagStream (branch : BranchName) (commit : CommitId) (position : ℕ)
    (c : Collected V) :
    Erases (tagStream env branch commit position c) (env.tagStream branch commit position c) := by
  unfold tagStream PushEnv.tagStream
  split
  · exact erases_tagNoop branch commit
  · exact (erases_beside _).bind fun v => erases_tagWork branch commit v

theorem erases_writeStream (branch : BranchName) (commit : CommitId) (position : ℕ)
    (c : Collected V) :
    Erases (writeStream env branch commit position c) (env.writeStream branch commit position c) :=
  (erases_beside _).bind fun _ => (erases_beside _).bind fun _ => (erases_beside _).bind
    fun _ => erases_tagStream branch commit position c

/-- The updates change nothing about the push. -/
theorem erases_ioRunIndexPipelineStream (branch : BranchName) (commit : CommitId)
    (expectedDocs : Option ℕ) (ops : List Operation) :
    Erases (ioRunIndexPipelineStream env branch commit expectedDocs ops)
      (env.ioRunIndexPipelineStream branch commit expectedDocs ops) := by
  refine (erases_beside _).bind fun _ => (erases_beside _).bind fun _ => (erases_beside _).bind
    fun position => ?_
  have hcollect : Erases (collectStream env expectedDocs ops)
      (ofExcept (env.collectStream expectedDocs ops)) := erases_collectStream expectedDocs ops
  cases hc : env.collectStream expectedDocs ops with
  | error e =>
    rw [hc] at hcollect
    exact hcollect.stop _
  | ok c =>
    rw [hc] at hcollect
    exact hcollect.after ((erases_writeStream branch commit position c).bind fun _ =>
      (erases_send _).after (erases_pure _))

end Erasure

end Reporting

end Vectorlink
