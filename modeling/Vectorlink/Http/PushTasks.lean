import Vectorlink.Concurrent.Runs
import Vectorlink.Http.PushBody
import Vectorlink.IngestCount
import Vectorlink.Service.PushSpec

/-! A push over HTTP: the task that reads the body and the task that runs the pipeline,
joined by a channel and by the record of the push. -/
namespace Vectorlink

open Stepwise Stepwise.Program Versioned Concurrent

variable {V : Type}

/-- What the streaming pipeline does before it takes the first operation. -/
def PushEnv.openStream (env : PushEnv V) (branch : BranchName) : Push V ℕ := do
  withContext "failed to ensure dataset" (env.ioOpenDataset .ensureDataset)
  withContext "failed to open write handle" (env.ioOpenBranchForWrite .openBranch branch)
  env.countCommits branch

/-- A push that `push_stream` has accepted. -/
structure StreamedPush (V : Type) where
  handler : PushHandler
  body : PushBody
  env : PushEnv V
  branch : BranchName
  commit : CommitId
  expectedDocs : Option ℕ

/-- Where the pipeline is; `ended` is before its status is recorded. -/
inductive PipelineTask (V : Type) where
  | spawned
  | reading (position n : ℕ) (st : Reading V)
  | writing (position : ℕ) (c : Collected V)
  | ended (result : Except String (ℕ × List SkippedDoc))
  | recorded

/-- The receiver lives as long as the pipeline function. -/
def PipelineTask.listens : PipelineTask V → Bool
  | .spawned => true
  | .reading _ _ _ => true
  | .writing _ _ => true
  | .ended _ => false
  | .recorded => false

/-- Both tasks and what they share. There is no status while the push is pending. The trace
holds each change of the domain so far. -/
structure PushTasks (V : Type) where
  reader : BodyReader
  senderOpen : Bool
  channel : List Operation
  pipeline : PipelineTask V
  domain : Domain V
  trace : List (StoreOp × Domain V)
  status : Option TaskStatus

inductive PushParty where
  | reader
  | pipeline
deriving DecidableEq, Repr

def taskStatus (result : Except String (ℕ × List SkippedDoc)) : TaskStatus :=
  match result with
  | .ok (indexed, skipped) => .complete indexed skipped
  | .error e => .error e

def channelCapacity : ℕ := 128

namespace StreamedPush

variable (p : StreamedPush V)

def start (d : Domain V) : PushTasks V where
  reader := p.handler.readBody p.body
  senderOpen := true
  channel := []
  pipeline := .spawned
  domain := d
  trace := []
  status := none

/-- The reader waits while the channel is full. -/
def readerStep (s : PushTasks V) : Option (PushTasks V) :=
  match s.reader with
  | .send op closed next =>
    if !s.senderOpen then none
    else if !s.pipeline.listens then some { s with reader := closed }
    else if s.channel.length < channelCapacity then
      some { s with reader := next, channel := s.channel ++ [op] }
    else none
  | .record message next => some { s with reader := next, status := some (.error message) }
  | .drop next => some { s with reader := next, senderOpen := false }
  | .done _ => none

/-- The pipeline waits while the channel is empty and may still be written to. -/
def pipelineStep (s : PushTasks V) : Option (PushTasks V) :=
  match s.pipeline with
  | .spawned =>
    let out := p.env.openStream p.branch s.domain
    some { s with
      domain := out.store
      trace := s.trace ++ out.trace
      pipeline := match out.result with
        | .ok position => .reading position 0 .start
        | .error e => .ended (.error e) }
  | .reading position n st =>
    if p.env.cancelled (.receive n) then
      some { s with pipeline := .ended (.error IngestEnv.superseded) }
    else
      match s.channel with
      | op :: rest =>
        some { s with
          channel := rest
          pipeline := match p.env.streamStep st op with
            | .ok st => .reading position (n + 1) st
            | .error e => .ended (.error e) }
      | [] =>
        if s.senderOpen then none
        else
          some { s with
            pipeline := match p.env.finishStream p.expectedDocs st with
              | .ok c => .writing position c
              | .error e => .ended (.error e) }
  | .writing position c =>
    let out := p.env.writeStream p.branch p.commit position c s.domain
    some { s with
      domain := out.store
      trace := s.trace ++ out.trace
      pipeline := .ended (out.result.map fun _ => (c.indexed, c.skipped)) }
  | .ended result => some { s with pipeline := .recorded, status := some (taskStatus result) }
  | .recorded => none

def step (s : PushTasks V) : PushParty → Option (PushTasks V)
  | .reader => readerStep s
  | .pipeline => p.pipelineStep s

end StreamedPush

section Pipeline

variable {env : PushEnv V} {b : BranchName} {commit : CommitId} {expectedDocs : Option ℕ}
  {ops : List Operation} {d s : Domain V} {tr : List (StoreOp × Domain V)}

/-- The pipeline function opens the stream first. -/
theorem PushEnv.ioRunIndexPipelineStream_eq :
    env.ioRunIndexPipelineStream b commit expectedDocs ops =
      (env.openStream b >>= fun position =>
        match env.collectStream expectedDocs ops with
        | .error e => fail e
        | .ok c => do
          env.writeStream b commit position c
          pure (c.indexed, c.skipped)) := by
  unfold PushEnv.openStream
  simp only [bind_assoc]
  rfl

theorem PushEnv.run_of_open_error {e : String} (h : env.openStream b d = ⟨tr, s, .error e⟩) :
    env.ioRunIndexPipelineStream b commit expectedDocs ops d = ⟨tr, s, .error e⟩ := by
  rw [PushEnv.ioRunIndexPipelineStream_eq]
  exact bind_run_error h

theorem PushEnv.run_of_collect_error {position : ℕ} {e : String}
    (h : env.openStream b d = ⟨tr, s, .ok position⟩)
    (hc : env.collectStream expectedDocs ops = .error e) :
    env.ioRunIndexPipelineStream b commit expectedDocs ops d = ⟨tr, s, .error e⟩ := by
  rw [PushEnv.ioRunIndexPipelineStream_eq, bind_run_ok h, hc]
  simp [fail]

theorem PushEnv.run_of_collect {position : ℕ} {c : Collected V}
    (h : env.openStream b d = ⟨tr, s, .ok position⟩)
    (hc : env.collectStream expectedDocs ops = .ok c) :
    env.ioRunIndexPipelineStream b commit expectedDocs ops d =
      ⟨tr ++ (env.writeStream b commit position c s).trace,
        (env.writeStream b commit position c s).store,
        (env.writeStream b commit position c s).result.map fun _ => (c.indexed, c.skipped)⟩ := by
  rw [PushEnv.ioRunIndexPipelineStream_eq, bind_run_ok h, hc]
  dsimp only
  rcases hw : env.writeStream b commit position c s with ⟨tr', t, r⟩
  cases r with
  | error e =>
    rw [bind_run_error hw]
    rfl
  | ok u =>
    rw [bind_run_ok hw]
    simp [Except.map]

/-- Opening the stream leaves every tag as it is. -/
theorem PushEnv.openStream_tags (d : Domain V) :
    Preserves (fun s => s.opened.tags = d.opened.tags) (env.openStream b) := by
  refine Spec.bind (withContext_spec (env.ioOpenDataset_spec (fun s hs => ?_) fun _ s hs => hs))
    fun _ => Spec.bind (withContext_spec (env.checkoutBranch_spec (fun s _ _ hs _ _ => hs)
      fun s hs _ => hs)) fun _ => Preserves.look _
  rw [Domain.openDataset_opened]
  exact ⟨hs, hs⟩

end Pipeline

namespace StreamedPush

variable (p : StreamedPush V) (d : Domain V)

/-- What the pipeline is offered while it listens. -/
def sends : List Operation := (p.handler.readBody p.body).sends

/-- The pipeline has taken `read`, and what it has not taken is in the channel or still with
the reader. -/
def Pending (s : PushTasks V) (read : List Operation) : Prop :=
  read ++ (s.channel ++ if s.senderOpen then s.reader.sends else []) = p.sends

def Opened (s : PushTasks V) (position : ℕ) : Prop :=
  p.env.openStream p.branch d = ⟨s.trace, s.domain, .ok position⟩

/-- The pipeline has run as the pipeline function does on operations of the body: on all of
them, unless it failed before the channel was closed. -/
def Ran (s : PushTasks V) (result : Except String (ℕ × List SkippedDoc)) : Prop :=
  ∃ ops, ops <+: p.sends ∧
    (ops = p.sends ∨ ∃ e, p.env.collectStream p.expectedDocs ops = .error e) ∧
    p.env.ioRunIndexPipelineStream p.branch p.commit p.expectedDocs ops d =
      ⟨s.trace, s.domain, result⟩

/-- How far the pipeline function has come. -/
def Phase (s : PushTasks V) : Prop :=
  match s.pipeline with
  | .spawned => s.trace = [] ∧ s.domain = d ∧ p.Pending s []
  | .reading position n st => p.Opened d s position ∧ ∃ read, p.Pending s read ∧
      ∀ rest, p.env.streamOps 0 .start (read ++ rest) = p.env.streamOps n st rest
  | .writing position c => p.Opened d s position ∧
      p.env.collectStream p.expectedDocs p.sends = .ok c
  | .ended result => p.Ran d s result
  | .recorded => ∃ result, p.Ran d s result ∧
      (s.status = some (taskStatus result) ∨ ∃ message, s.status = some (.error message))

variable {p d} {s s' : PushTasks V}

theorem start_phase : p.Phase d (p.start d) := ⟨rfl, rfl, rfl⟩

section Reader

/-- What a step of the reader leaves alone, and what it does to the channel. -/
structure ReaderStep (s s' : PushTasks V) : Prop where
  pipeline : s'.pipeline = s.pipeline
  domain : s'.domain = s.domain
  trace : s'.trace = s.trace
  status : s'.status = s.status ∨ ∃ message, s'.status = some (.error message)
  offered : s.pipeline.listens = true →
    (s'.channel ++ if s'.senderOpen then s'.reader.sends else []) =
      s.channel ++ if s.senderOpen then s.reader.sends else []

theorem readerStep_cases (h : readerStep s = some s') : ReaderStep s s' := by
  unfold readerStep at h
  cases hr : s.reader with
  | send op closed next =>
    simp only [hr] at h
    cases hopen : s.senderOpen with
    | false => simp [hopen] at h
    | true =>
      cases hlistens : s.pipeline.listens with
      | false =>
        simp only [hopen, hlistens, Bool.not_true, Bool.false_eq_true, if_false, Bool.not_false,
          if_true, Option.some.injEq] at h
        subst h
        exact ⟨rfl, rfl, rfl, .inl rfl, fun hl => by simp [hlistens] at hl⟩
      | true =>
        simp only [hopen, hlistens, Bool.not_true, Bool.false_eq_true, if_false] at h
        split at h
        · obtain rfl := Option.some.inj h
          refine ⟨rfl, rfl, rfl, .inl rfl, fun _ => ?_⟩
          simp [hopen, hr, BodyReader.sends]
        · cases h
  | record message next =>
    simp only [hr, Option.some.injEq] at h
    subst h
    exact ⟨rfl, rfl, rfl, .inr ⟨message, rfl⟩, fun _ => by simp [hr, BodyReader.sends]⟩
  | drop next =>
    simp only [hr, Option.some.injEq] at h
    subst h
    exact ⟨rfl, rfl, rfl, .inl rfl, fun _ => by simp [hr, BodyReader.sends]⟩
  | done response => simp [hr] at h

theorem ReaderStep.ran (h : ReaderStep s s') {result : Except String (ℕ × List SkippedDoc)}
    (hran : p.Ran d s result) : p.Ran d s' result := by
  obtain ⟨ops, hpre, hall, hrun⟩ := hran
  exact ⟨ops, hpre, hall, by rw [h.trace, h.domain, hrun]⟩

theorem ReaderStep.opened (h : ReaderStep s s') {position : ℕ} (hopened : p.Opened d s position) :
    p.Opened d s' position := by
  unfold Opened at *
  rw [h.trace, h.domain, hopened]

theorem ReaderStep.pending (h : ReaderStep s s') (hl : s.pipeline.listens = true)
    {read : List Operation} (hpending : p.Pending s read) : p.Pending s' read := by
  unfold Pending at *
  rw [h.offered hl, hpending]

theorem ReaderStep.phase (h : ReaderStep s s') (hphase : p.Phase d s) : p.Phase d s' := by
  unfold Phase at *
  rw [h.pipeline]
  cases hp : s.pipeline with
  | spawned =>
    simp only [hp] at hphase
    obtain ⟨htrace, hdomain, hpending⟩ := hphase
    exact ⟨h.trace.trans htrace, h.domain.trans hdomain, h.pending (by simp [hp, PipelineTask.listens]) hpending⟩
  | reading position n st =>
    simp only [hp] at hphase
    obtain ⟨hopened, read, hpending, hread⟩ := hphase
    exact ⟨h.opened hopened, read, h.pending (by simp [hp, PipelineTask.listens]) hpending, hread⟩
  | writing position c =>
    simp only [hp] at hphase
    exact ⟨h.opened hphase.1, hphase.2⟩
  | ended result =>
    simp only [hp] at hphase
    exact h.ran hphase
  | recorded =>
    simp only [hp] at hphase
    obtain ⟨result, hran, hstatus⟩ := hphase
    refine ⟨result, h.ran hran, ?_⟩
    rcases h.status with hs | hs
    · rwa [hs]
    · exact .inr hs

end Reader

section Steps

variable {position n : ℕ} {st : Reading V} {read : List Operation}

/-- The stream is opened before anything is read. -/
theorem phase_spawned (hp : s.pipeline = .spawned) (hphase : p.Phase d s)
    (h : p.pipelineStep s = some s') : p.Phase d s' := by
  simp only [Phase, hp] at hphase
  obtain ⟨htrace, hdomain, hpending⟩ := hphase
  simp only [pipelineStep, hp, htrace, hdomain, List.nil_append, Option.some.injEq] at h
  subst h
  rcases ho : p.env.openStream p.branch d with ⟨tr, t, r⟩
  cases r with
  | error e =>
    exact ⟨p.sends, List.prefix_refl _, .inl rfl, PushEnv.run_of_open_error ho⟩
  | ok position => exact ⟨ho, [], hpending, fun _ => rfl⟩

/-- The pipeline fails after it has taken `read`. -/
theorem ran_of_failed {e : String} (hopened : p.Opened d s position)
    (hpre : read <+: p.sends) (hfail : p.env.streamOps 0 .start read = .error e) :
    p.Ran d s (.error e) := by
  have hcollect : p.env.collectStream p.expectedDocs read = .error e := by
    unfold IngestEnv.collectStream
    rw [hfail]
    rfl
  exact ⟨read, hpre, .inr ⟨e, hcollect⟩, PushEnv.run_of_collect_error hopened hcollect⟩

theorem streamOps_nil (hcancel : p.env.cancelled (.receive n) = false) :
    p.env.streamOps n st [] = .ok st := by
  rw [IngestEnv.streamOps, hcancel]
  rfl

theorem streamOps_cons (hcancel : p.env.cancelled (.receive n) = false) (op : Operation)
    (rest : List Operation) :
    p.env.streamOps n st (op :: rest) =
      (p.env.streamStep st op).bind fun st => p.env.streamOps (n + 1) st rest := by
  rw [IngestEnv.streamOps, hcancel]
  rfl

/-- One round of the main loop. -/
theorem phase_received {op : Operation} {rest : List Operation}
    (hopened : p.Opened d s position) (hpending : p.Pending s read)
    (hread : ∀ rest, p.env.streamOps 0 .start (read ++ rest) = p.env.streamOps n st rest)
    (hcancel : p.env.cancelled (.receive n) = false) (hchannel : s.channel = op :: rest) :
    p.Phase d { s with
      channel := rest
      pipeline := match p.env.streamStep st op with
        | .ok st => .reading position (n + 1) st
        | .error e => .ended (.error e) } := by
  have htaken : (read ++ [op]) ++ (rest ++ if s.senderOpen then s.reader.sends else []) =
      p.sends := by
    rw [← hpending, hchannel]
    simp
  cases hstep : p.env.streamStep st op with
  | error e =>
    have hfail : p.env.streamOps 0 .start (read ++ [op]) = .error e := by
      rw [hread, streamOps_cons hcancel, hstep]
      rfl
    exact ran_of_failed (s := { s with channel := rest, pipeline := .ended (.error e) }) hopened
      ⟨_, htaken⟩ hfail
  | ok st' =>
    refine ⟨hopened, read ++ [op], htaken, fun more => ?_⟩
    rw [List.append_assoc, List.singleton_append, hread, streamOps_cons hcancel, hstep]
    rfl

/-- The channel is closed: all that the reader sends has been taken. -/
theorem phase_closed (hopened : p.Opened d s position) (hpending : p.Pending s read)
    (hread : ∀ rest, p.env.streamOps 0 .start (read ++ rest) = p.env.streamOps n st rest)
    (hcancel : p.env.cancelled (.receive n) = false) (hchannel : s.channel = [])
    (hclosed : s.senderOpen = false) :
    p.Phase d { s with
      pipeline := match p.env.finishStream p.expectedDocs st with
        | .ok c => .writing position c
        | .error e => .ended (.error e) } := by
  have hall : read = p.sends := by
    unfold Pending at hpending
    simpa [hchannel, hclosed] using hpending
  have hstream := hread []
  rw [List.append_nil, streamOps_nil hcancel, hall] at hstream
  have hcollect : p.env.collectStream p.expectedDocs p.sends =
      p.env.finishStream p.expectedDocs st := by
    unfold IngestEnv.collectStream
    rw [hstream]
    rfl
  cases hfinish : p.env.finishStream p.expectedDocs st with
  | error e =>
    rw [hfinish] at hcollect
    exact ⟨p.sends, List.prefix_refl _, .inl rfl, PushEnv.run_of_collect_error hopened hcollect⟩
  | ok c => exact ⟨hopened, hcollect.trans hfinish⟩

theorem phase_reading (hp : s.pipeline = .reading position n st) (hphase : p.Phase d s)
    (h : p.pipelineStep s = some s') : p.Phase d s' := by
  simp only [Phase, hp] at hphase
  obtain ⟨hopened, read, hpending, hread⟩ := hphase
  simp only [pipelineStep, hp] at h
  cases hcancel : p.env.cancelled (.receive n) with
  | true =>
    simp only [hcancel, if_true, Option.some.injEq] at h
    subst h
    have hfail := hread []
    rw [List.append_nil, IngestEnv.streamOps, hcancel] at hfail
    exact ran_of_failed (s := { s with pipeline := .ended (.error IngestEnv.superseded) }) hopened
      ⟨_, hpending⟩ hfail
  | false =>
    simp only [hcancel, Bool.false_eq_true, if_false] at h
    cases hchannel : s.channel with
    | cons op rest =>
      simp only [hchannel, Option.some.injEq] at h
      subst h
      exact phase_received hopened hpending hread hcancel hchannel
    | nil =>
      cases hclosed : s.senderOpen with
      | true => simp [hchannel, hclosed] at h
      | false =>
        simp only [hchannel, hclosed, Bool.false_eq_true, if_false, Option.some.injEq] at h
        subst h
        have hnext := phase_closed hopened hpending hread hcancel hchannel hclosed
        simpa only [hchannel, hclosed] using hnext

theorem phase_writing {c : Collected V} (hp : s.pipeline = .writing position c)
    (hphase : p.Phase d s) (h : p.pipelineStep s = some s') : p.Phase d s' := by
  simp only [Phase, hp] at hphase
  obtain ⟨hopened, hcollect⟩ := hphase
  simp only [pipelineStep, hp, Option.some.injEq] at h
  subst h
  exact ⟨p.sends, List.prefix_refl _, .inl rfl, PushEnv.run_of_collect hopened hcollect⟩

theorem pipelineStep_phase (h : p.pipelineStep s = some s') (hphase : p.Phase d s) :
    p.Phase d s' := by
  cases hp : s.pipeline with
  | spawned => exact phase_spawned hp hphase h
  | reading position n st => exact phase_reading hp hphase h
  | writing position c => exact phase_writing hp hphase h
  | ended result =>
    simp only [Phase, hp] at hphase
    simp only [pipelineStep, hp, Option.some.injEq] at h
    subst h
    exact ⟨result, hphase, .inl rfl⟩
  | recorded => simp [pipelineStep, hp] at h

/-- Whatever the order of the steps, the pipeline runs as its function does on the operations
that the reader sends. -/
theorem reaches_phase {C : PushTasks V → PushParty → Prop}
    (h : Reaches p.step C (p.start d) s) : p.Phase d s := by
  refine h.invariant start_phase fun t a u ht _ hstep => ?_
  cases a with
  | reader => exact (readerStep_cases hstep).phase ht
  | pipeline => exact pipelineStep_phase hstep ht

end Steps

end StreamedPush

end Vectorlink
