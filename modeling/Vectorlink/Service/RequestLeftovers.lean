import Vectorlink.Service.RequestReservations

/-! What requests leave in the shared maps when they are over. -/
namespace Vectorlink

open Concurrent

namespace Job

/-- The request is still executing, or its pipeline is still running. -/
def live : Job → Bool
  | .idle | .done => false
  | _ => true

/-- The task of the push is recorded as pending until it is reported. -/
def taskOpen : Job → Bool
  | .register _ | .acquire _ | .lockGuard _ | .running _ | .unregister _ _ | .report _ _
  | .panicReport _ => true
  | _ => false

/-- The branch under which the push has a token that it will still remove. -/
def token : Job → Option BranchKey
  | .acquire p | .lockGuard p | .running p => if p.streamed then some p.key.branchKey else none
  | .unregister p _ | .panicReport p | .panicRelease p | .panicUnregister p =>
    some p.key.branchKey
  | _ => none

/-- The push gave up on its lock, or its pipeline has nobody who waits for it. -/
def strayed : Job → Bool
  | .timedOut _ | .registerAgain _ | .orphaned _ => true
  -- Buffered pushes have no token.
  | .register p => !p.streamed
  | _ => false

/-- The push stops waiting for the lock, or is dropped while it has its reservation. -/
def quits (j : Job) (m : Move) : Bool :=
  match m with
  | .giveUp => j.reserved.isSome
  | .drop => j.reserved.isSome
  | _ => false

variable {j j' : Job} {m : Move} {e : Effect} {κ : CommitKey} {key : BranchKey}

theorem live_of_reserved (h : j.reserved = some κ) : j.live = true := by
  cases j <;> simp_all [reserved, live]

theorem live_of_taskOpen (h : j.taskOpen = true) : j.live = true := by
  cases j <;> simp_all [taskOpen, live]

theorem live_of_token (h : j.token = some key) : j.live = true := by
  cases j <;> simp_all [token, live]

theorem plan_strayed (h : j.plan m = some (e, j')) (hq : j.quits m = false)
    (hj : j.strayed = false) : j'.strayed = false := by
  cases Job.plan_step h <;> simp_all [strayed, quits, reserved]

theorem plan_keeps_reserved (h : j.plan m = some (e, j')) (hq : j.quits m = false)
    (hs : j.strayed = false) (hj : j.reserved = some κ) :
    j'.reserved = some κ ∨ e = .unreserve κ := by
  cases Job.plan_step h <;> simp_all [strayed, quits, reserved]

theorem plan_keeps_taskOpen (h : j.plan m = some (e, j')) (hq : j.quits m = false)
    (hj : j.taskOpen = true) : j'.taskOpen = true ∨ ∃ st, e = .setTask st ∧ st ≠ .pending := by
  cases Job.plan_step h with
  | drop => cases j <;> simp_all [taskOpen, quits, reserved]
  | _ => simp_all [taskOpen, quits, reserved]

theorem plan_setTask (h : j.plan m = some (.setTask .pending, j')) : j'.taskOpen = true := by
  cases Job.plan_step h <;> simp_all [taskOpen]

theorem plan_keeps_token (h : j.plan m = some (e, j')) (hq : j.quits m = false)
    (hj : j.token = some key) : j'.token = some key ∨ e = .unregister key := by
  cases Job.plan_step h with
  | drop => cases j <;> simp_all [token, quits, reserved, Job.plan, taskStep]
  | _ => simp_all [token, quits, reserved]

theorem plan_register (h : j.plan m = some (.register key, j')) (hs : j.strayed = false) :
    j'.token = some key := by
  cases Job.plan_step h
  simp_all [token, strayed]

theorem plan_registerAgain (h : j.plan m = some (.registerAgain key, j')) : j.strayed = true := by
  cases Job.plan_step h
  rfl

end Job

namespace Requests

variable {ι : Type} [DecidableEq ι] {s s' : Requests ι}

/-- Reservations, pending tasks and tokens belong to requests that are still executing or
pipelines that are still running. -/
structure NoTrace (s : Requests ι) : Prop where
  inflight : ∀ κ, s.inflight κ = true → ∃ i, (s.job i).reserved = some κ ∧ (s.job i).live = true
  pending : ∀ i, s.tasks i = some .pending → (s.job i).live = true
  token : ∀ key i, s.tokens key = some i → (s.job i).live = true

/-- The step is neither a lock timeout of a push nor the drop of a push that has its
reservation. -/
def NobodyQuits (s : Requests ι) : Action ι → Prop
  | .move i m => (s.job i).quits m = false
  | _ => True

structure Tidy (s : Requests ι) : Prop where
  inflight : ∀ κ, s.inflight κ = true → ∃ i, (s.job i).reserved = some κ
  pending : ∀ i, s.tasks i = some .pending → (s.job i).taskOpen = true
  token : ∀ key i, s.tokens key = some i → (s.job i).token = some key
  strayed : ∀ i, (s.job i).strayed = false

omit [DecidableEq ι] in
theorem Tidy.noTrace (h : s.Tidy) : s.NoTrace where
  inflight κ hκ := by
    obtain ⟨i, hi⟩ := h.inflight κ hκ
    exact ⟨i, hi, Job.live_of_reserved hi⟩
  pending i hi := Job.live_of_taskOpen (h.pending i hi)
  token key i hi := Job.live_of_token (h.token key i hi)

omit [DecidableEq ι] in
theorem tidy_start (tagged : String → CommitId → Option BranchName) :
    (start tagged : Requests ι).Tidy := by
  constructor <;> simp [start, Job.strayed]

section Step

variable {i : ι} {m : Move} {e : Effect} {j : Job}

/-- What holds of the job of a request still holds after a step of this request that keeps
it. -/
theorem job_after {k : ι} {P : Job → Prop} (hj : P (s.job i) → P j) (h : P (s.job k)) :
    P ((s.after i e j).job k) := by
  by_cases hk : k = i
  · subst hk
    simp only [after, Function.update_self]
    exact hj h
  · simpa only [after, Function.update_of_ne hk] using h

theorem Tidy.step_inflight (h : s.Tidy) (hplan : (s.job i).plan m = some (e, j))
    (hq : (s.job i).quits m = false) {κ : CommitKey} (hκ : (s.after i e j).inflight κ = true) :
    ∃ k, ((s.after i e j).job k).reserved = some κ := by
  have hkeep : e ≠ .unreserve κ → s.inflight κ = true →
      ∃ k, ((s.after i e j).job k).reserved = some κ := by
    intro he hin
    obtain ⟨k, hk⟩ := h.inflight κ hin
    refine ⟨k, job_after (P := fun j => j.reserved = some κ) (fun hi => ?_) hk⟩
    exact (Job.plan_keeps_reserved hplan hq (h.strayed i) hi).resolve_right he
  cases e with
  | reserve κ' =>
    by_cases hκ' : κ = κ'
    · subst hκ'
      refine ⟨i, ?_⟩
      simp only [after, Function.update_self]
      exact (Job.plan_reserve hplan).2.2.1
    · simp only [after, apply, Function.update_of_ne hκ'] at hκ
      exact hkeep (by simp) hκ
  | unreserve κ' =>
    have hκ' : κ ≠ κ' := by
      rintro rfl
      simp [after, apply] at hκ
    simp only [after, apply, Function.update_of_ne hκ'] at hκ
    exact hkeep (fun he => hκ' (by cases he; rfl)) hκ
  | purgeInflight d =>
    simp only [after, apply, Bool.and_eq_true] at hκ
    exact hkeep (by simp) hκ.2
  | purgeBranch key =>
    simp only [after, apply, Bool.and_eq_true] at hκ
    exact hkeep (by simp) hκ.2
  | _ => exact hkeep (by simp) hκ

theorem Tidy.step_pending (h : s.Tidy) (hplan : (s.job i).plan m = some (e, j))
    (hq : (s.job i).quits m = false) {k : ι} (hk : (s.after i e j).tasks k = some .pending) :
    ((s.after i e j).job k).taskOpen = true := by
  have hkeep : (∀ st, e = .setTask st → k ≠ i) → s.tasks k = some .pending →
      ((s.after i e j).job k).taskOpen = true := by
    intro he hpend
    have hopen := h.pending k hpend
    by_cases hki : k = i
    · subst hki
      simp only [after, Function.update_self]
      refine (Job.plan_keeps_taskOpen hplan hq hopen).resolve_right ?_
      rintro ⟨st, hst, -⟩
      exact he st hst rfl
    · simpa only [after, Function.update_of_ne hki] using hopen
  cases e with
  | setTask st =>
    by_cases hki : k = i
    · subst hki
      simp only [after, apply, Function.update_self, Option.some.injEq] at hk
      subst hk
      simp only [after, Function.update_self]
      exact Job.plan_setTask hplan
    · simp only [after, apply, Function.update_of_ne hki] at hk
      exact hkeep (fun _ _ => hki) hk
  | _ => exact hkeep (by simp) hk

theorem Tidy.step_token (h : s.Tidy) (hplan : (s.job i).plan m = some (e, j))
    (hq : (s.job i).quits m = false) {key : BranchKey} {k : ι}
    (hk : (s.after i e j).tokens key = some k) : ((s.after i e j).job k).token = some key := by
  have hkeep : e ≠ .unregister key → s.tokens key = some k →
      ((s.after i e j).job k).token = some key := by
    intro he htok
    refine job_after (P := fun j => j.token = some key) (fun hi => ?_) (h.token key k htok)
    exact (Job.plan_keeps_token hplan hq hi).resolve_right he
  cases e with
  | register key' =>
    by_cases hkey : key = key'
    · subst hkey
      simp only [after, apply, Function.update_self, Option.some.injEq] at hk
      subst hk
      simp only [after, Function.update_self]
      exact Job.plan_register hplan (h.strayed i)
    · simp only [after, apply, Function.update_of_ne hkey] at hk
      exact hkeep (by simp) hk
  | registerAgain key' =>
    have hstray := Job.plan_registerAgain hplan
    rw [h.strayed i] at hstray
    cases hstray
  | unregister key' =>
    have hkey : key ≠ key' := by
      rintro rfl
      simp [after, apply] at hk
    simp only [after, apply, Function.update_of_ne hkey] at hk
    exact hkeep (fun he => hkey (by cases he; rfl)) hk
  | cancelToken key' =>
    have hkey : key ≠ key' := by
      rintro rfl
      simp [after, apply] at hk
    simp only [after, apply, Function.update_of_ne hkey] at hk
    exact hkeep (by simp) hk
  | cancelTokens d =>
    simp only [after, apply] at hk
    split at hk
    · cases hk
    · exact hkeep (by simp) hk
  | _ => exact hkeep (by simp) hk

theorem Tidy.step (h : s.Tidy) (hplan : (s.job i).plan m = some (e, j))
    (hq : (s.job i).quits m = false) : (s.after i e j).Tidy where
  inflight _ hκ := h.step_inflight hplan hq hκ
  pending _ hk := h.step_pending hplan hq hk
  token _ _ hk := h.step_token hplan hq hk
  strayed k := job_after (P := fun j => j.strayed = false)
    (fun hi => Job.plan_strayed hplan hq hi) (h.strayed k)

theorem Tidy.setTask (h : s.Tidy) {status : Option TaskState} (hst : status ≠ some .pending) :
    Tidy { s with tasks := Function.update s.tasks i status } := by
  refine ⟨h.inflight, fun k hk => ?_, h.token, h.strayed⟩
  by_cases hki : k = i
  · subst hki
    simp only [Function.update_self] at hk
    exact absurd hk hst
  · simp only [Function.update_of_ne hki] at hk
    exact h.pending k hk

end Step

/-- While no push times out on its lock and none is dropped with its reservation, what is
found in the maps belongs to requests and pipelines that are still under way. -/
theorem pushes_leave_no_trace {tagged : String → CommitId → Option BranchName}
    (h : Reaches step NobodyQuits (start tagged : Requests ι) s) : s.NoTrace := by
  have htidy : s.Tidy := by
    refine h.invariant (I := Tidy) (tidy_start tagged) fun t a u ht hC hstep => ?_
    obtain ⟨i, m, e, j, rfl, hplan, -, rfl⟩ | ⟨i, status, hst, rfl⟩ := step_cases hstep
    · exact ht.step hplan hC
    · exact ht.setTask hst
  exact htidy.noTrace

/-- A push to a new branch whose fork fails. -/
def failedFork (i : ι) : List (Action ι) :=
  .move i (.push ⟨⟨"d", "b", "c"⟩, some "p", false⟩) ::
    (List.replicate 4 (.move i (.next true)) ++
      [.move i .look, .move i .create, .move i .grant, .move i (.next false), .move i (.next true)])

theorem pushes_leave_no_trace_failedFork : ∃ s : Requests ℕ,
    Reaches step NobodyQuits (start fun _ _ => none) s ∧ s.job 0 = .done ∧ s.NoTrace := by
  have hallowed : Allowed step NobodyQuits (start fun _ _ => none : Requests ℕ)
      (failedFork 0) := by
    refine ⟨?_, ?_, ?_, ?_, ?_, ?_, ?_, ?_, ?_, ?_, trivial⟩ <;> rfl
  have hreach := Reaches.of_exec hallowed rfl
  exact ⟨_, hreach, by decide, pushes_leave_no_trace hreach⟩

/-- A push finds its lock in use until the time limit. -/
def timedOutPush : List (Action ℕ) :=
  [.move 0 (.useLock (.pipeline ("d", mainBranch))), .move 0 .look, .move 0 .create,
    .move 0 .grant, .move 1 (.push ⟨⟨"d", mainBranch, "c"⟩, none, false⟩)] ++
    List.replicate 5 (.move 1 (.next true)) ++
    [.move 1 .look, .move 1 .giveUp, .move 1 (.next true)]

theorem timedOutPush_leaves_trace :
    ¬ ∀ s : Requests ℕ, Reaches step (fun _ _ => True) (start fun _ _ => none) s → s.NoTrace := by
  intro h
  obtain ⟨s, hs⟩ : ∃ s, exec step (start fun _ _ => none) timedOutPush = some s := ⟨_, rfl⟩
  have hend : (exec step (start fun _ _ => none) timedOutPush).map
      (fun s => (s.tasks 1, (s.job 1).live)) = some (some .pending, false) := by decide
  rw [hs] at hend
  simp only [Option.map_some, Option.some.injEq, Prod.mk.injEq] at hend
  have hlive := (h s (.of_exec (allowed_true _) hs)).pending 1 hend.1
  rw [hend.2] at hlive
  cases hlive

end Requests
end Vectorlink
