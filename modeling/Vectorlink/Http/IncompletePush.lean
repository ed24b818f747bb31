import Vectorlink.Http.PushTasks
import Vectorlink.Service.PushRuns

/-! Pushes whose body does not arrive as it should. The end of the channel is all that the
pipeline learns of it, so the push is turned down only where the operations before the
defect give it away. -/
namespace Vectorlink

open Stepwise Stepwise.Program Versioned Concurrent Text

variable {V : Type}

namespace StreamedPush

/-- A line of the body is no operation, the body is not valid UTF-8, or the transport fails.
Blank lines do not count. -/
inductive Defective (p : StreamedPush V) : Prop
  | line {text line : List Char} {e : String} :
      fromUtf8 p.body.chunks.flatten = .ok text → line ∈ text.splitOn '\n' → trim line ≠ [] →
      p.handler.fromStr (String.ofList (trim line)) = .error e → Defective p
  | utf8 {e : Utf8Error} : fromUtf8 p.body.chunks.flatten = .error e → Defective p
  | transport {e : String} : p.body.failure = some e → Defective p

/-- The lines before the defect hold an abort or fewer document operations than expected,
where changed documents of full micro-batches count twice. -/
def Detected (p : StreamedPush V) : Prop :=
  .abort ∈ p.handler.operations p.body.lines ∨
    ∃ n, p.expectedDocs = some n ∧ p.env.countedDocs (p.handler.operations p.body.lines) < n

/-- The commit has the tag it had before at every moment, and once the pipeline has recorded
its end the push is in error. -/
def Rejects (p : StreamedPush V) (d : Domain V) (s : PushTasks V) : Prop :=
  (∀ x ∈ s.domain :: s.trace.map Prod.snd,
    x.opened.tags.lookup p.commit = d.opened.tags.lookup p.commit) ∧
  (s.pipeline = .recorded → ∃ e, s.status = some (.error e))

variable {p : StreamedPush V} {d : Domain V} {s : PushTasks V}

theorem Detected.fails (h : p.Detected) :
    ∃ e, p.env.collectStream p.expectedDocs p.sends = .error e := by
  obtain ⟨reports, hreports, hsends⟩ := PushHandler.readBody_delivers (h := p.handler) p.body
  apply collectStream_fails
  unfold sends
  rw [hsends, countedDocs_append hreports]
  rcases h with habort | hcount
  · exact .inl (List.mem_append_left _ habort)
  · exact .inr hcount

/-- A domain and the stores on the way to it have the tags of `d`. -/
def KeepsTags (d : Domain V) (s : PushTasks V) : Prop :=
  ∀ x ∈ s.domain :: s.trace.map Prod.snd, x.opened.tags = d.opened.tags

theorem keepsTags_of_outcome {α : Type} {m : Push V α} {r : Except String α}
    (hm : Preserves (fun x => x.opened.tags = d.opened.tags) m)
    (h : m d = ⟨s.trace, s.domain, r⟩) : KeepsTags d s := by
  have hfinal := Spec.final hm (s := d) rfl
  have htrace := (hm d rfl).1
  rw [h] at hfinal htrace
  intro x hx
  rcases List.mem_cons.mp hx with rfl | hx
  · exact hfinal
  · obtain ⟨e, he, rfl⟩ := List.mem_map.mp hx
    exact htrace e he

/-- A pipeline that cannot collect its operations has changed no tag. -/
theorem run_preserves_tags {b : BranchName} {commit : CommitId} {expectedDocs : Option ℕ}
    {ops : List Operation} {e : String} {env : PushEnv V}
    (h : env.collectStream expectedDocs ops = .error e) :
    Preserves (fun x => x.opened.tags = d.opened.tags)
      (env.ioRunIndexPipelineStream b commit expectedDocs ops) := by
  rw [PushEnv.ioRunIndexPipelineStream_eq, h]
  exact Spec.bind (env.openStream_tags d) fun _ => Spec.fail fun _ hx => hx

/-- With a defect that is detected the pipeline fails, whatever it had read by then. -/
theorem Ran.rejected (hdetected : p.Detected) {result : Except String (ℕ × List SkippedDoc)}
    (h : p.Ran d s result) : KeepsTags d s ∧ ∃ e, result = .error e := by
  obtain ⟨ops, -, hall, hrun⟩ := h
  have hfails : ∃ e, p.env.collectStream p.expectedDocs ops = .error e := by
    rcases hall with rfl | hfails
    · exact hdetected.fails
    · exact hfails
  obtain ⟨e, he⟩ := hfails
  refine ⟨keepsTags_of_outcome (run_preserves_tags he) hrun, ?_⟩
  rcases ho : p.env.openStream p.branch d with ⟨tr, t, r⟩
  cases r with
  | error e' =>
    rw [PushEnv.run_of_open_error ho] at hrun
    exact ⟨e', (congrArg Outcome.result hrun).symm⟩
  | ok position =>
    rw [PushEnv.run_of_collect_error ho he] at hrun
    exact ⟨e, (congrArg Outcome.result hrun).symm⟩

theorem Phase.keepsTags (hdetected : p.Detected) (h : p.Phase d s) : KeepsTags d s := by
  unfold Phase at h
  split at h
  · obtain ⟨htrace, hdomain, -⟩ := h
    intro x hx
    rw [htrace, hdomain] at hx
    obtain rfl := List.mem_singleton.mp hx
    rfl
  · exact keepsTags_of_outcome (p.env.openStream_tags d) h.1
  · obtain ⟨e, he⟩ := hdetected.fails
    rw [he] at h
    cases h.2
  · exact (Ran.rejected hdetected h).1
  · obtain ⟨result, hran, -⟩ := h
    exact (hran.rejected hdetected).1

theorem Phase.status (hdetected : p.Detected) (h : p.Phase d s) (hp : s.pipeline = .recorded) :
    ∃ e, s.status = some (.error e) := by
  simp only [Phase, hp] at h
  obtain ⟨result, hran, hstatus⟩ := h
  obtain ⟨e, rfl⟩ := (hran.rejected hdetected).2
  rcases hstatus with hstatus | hstatus
  · exact ⟨e, hstatus⟩
  · exact hstatus

/-- A push whose defects are detected is turned down in every run, whatever the order of the
reader's and the pipeline's steps. -/
theorem defective_push_rejected (hdetected : p.Defective → p.Detected)
    (hrun : Reaches p.step (fun _ _ => True) (p.start d) s) (hdefective : p.Defective) :
    p.Rejects d s := by
  have hphase := reaches_phase hrun
  have hdet := hdetected hdefective
  refine ⟨fun x hx => ?_, hphase.status hdet⟩
  rw [hphase.keepsTags hdet x hx]

end StreamedPush

section Samples

/-- A push of one line that is no operation, where one document is expected. -/
def garbledPush : StreamedPush Unit where
  handler := ⟨fun _ => .error "expected value at line 1 column 1", true⟩
  body := ⟨[[120, 10]], none⟩
  env := plainEnv fun _ => false
  branch := mainBranch
  commit := "c0"
  expectedDocs := some 1

/-- The reader records its error first, then the pipeline finds the push truncated. -/
def garbledRun : List PushParty :=
  [.pipeline, .reader, .reader, .pipeline, .reader, .pipeline, .pipeline]

theorem defective_push_rejected_garbled :
    ∃ s, exec garbledPush.step (garbledPush.start .fresh) garbledRun = some s ∧
      garbledPush.Rejects .fresh s ∧ s.pipeline = .recorded := by
  have htext : fromUtf8 garbledPush.body.chunks.flatten = .ok ['x', '\n'] := rfl
  have hline : ['x'] ∈ ['x', '\n'].splitOn '\n' := by decide
  have hdefective : garbledPush.Defective := .line htext hline (by decide) rfl
  have hdetected : garbledPush.Detected := .inr ⟨1, rfl, by decide⟩
  obtain ⟨s, hs, hp⟩ : ∃ s, exec garbledPush.step (garbledPush.start .fresh) garbledRun = some s ∧
      s.pipeline = .recorded := ⟨_, rfl, rfl⟩
  exact ⟨s, hs, StreamedPush.defective_push_rejected (fun _ => hdetected)
    (.of_exec (allowed_true _) hs) hdefective, hp⟩

/-- A push whose connection is lost before the first operation. -/
def lostPush : StreamedPush Unit where
  handler := ⟨fun _ => .error "", true⟩
  body := ⟨[], some "connection reset by peer"⟩
  env := plainEnv fun _ => false
  branch := mainBranch
  commit := "c0"
  expectedDocs := none

def lostRun : List PushParty := [.pipeline, .reader, .pipeline, .pipeline, .pipeline]

/-- The lost push is taken for a commit without work: it is tagged and complete. -/
theorem lost_push_not_rejected :
    ¬ ∀ s, Reaches lostPush.step (fun _ _ => True) (lostPush.start .fresh) s →
      lostPush.Defective → lostPush.Rejects .fresh s := by
  intro h
  have hrun : ∃ s, exec lostPush.step (lostPush.start .fresh) lostRun = some s ∧
      s.pipeline = .recorded ∧ s.status = some (.complete 0 []) := ⟨_, rfl, rfl, rfl⟩
  obtain ⟨s, hs, hp, hstatus⟩ := hrun
  have hrejects := h s (.of_exec (allowed_true _) hs) (.transport rfl)
  obtain ⟨e, he⟩ := hrejects.2 hp
  rw [hstatus] at he
  cases he

end Samples

end Vectorlink
