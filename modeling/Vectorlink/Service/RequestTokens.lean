import Vectorlink.Service.Requests

/-! Whose cancel token is registered for a branch. -/
namespace Vectorlink

open Concurrent

/-- The branch of a streamed push, from the registration of its token to the end of its
pipeline. -/
def Job.pipeline : Job → Option BranchKey
  | .acquire p | .lockGuard p | .running p => if p.streamed then some p.key.branchKey else none
  | .unregister p _ => some p.key.branchKey
  | _ => none

namespace Requests

variable {ι : Type} [DecidableEq ι] {s s' : Requests ι}

/-- The last pipeline registered for the branch is over. -/
def NewestEnded (s : Requests ι) (key : BranchKey) : Prop :=
  ∀ i, s.latest key = some i → (s.job i).pipeline ≠ some key

/-- The entry of a branch names the last registered pipeline until that is over, and
whoever cancels what is registered next cancels this one and no other. -/
def NamesNewest (s : Requests ι) : Prop :=
  ∀ key i, s.latest key = some i → (s.job i).pipeline = some key →
    s.tokens key = some i ∧
      ∀ j, s.cancel (· = key) key j = (s.cancelled key j || decide (j = i))

/-- Apart from a registration on the way to the pipeline, a step touches the entry of a
branch only for the last registered pipeline or after that one is over. -/
def NewestUndisturbed (s : Requests ι) : Action ι → Prop
  | .move i m => ∀ e j, (s.job i).plan m = some (e, j) →
    match e with
    | .unregister key => s.latest key = some i ∨ s.NewestEnded key
    | .registerAgain key => s.NewestEnded key
    | .cancelToken key => s.NewestEnded key
    | .cancelTokens d => ∀ branch, s.NewestEnded (d, branch)
    | _ => True
  | _ => True

theorem plan_pipeline {j j' : Job} {m : Move} {e : Effect} {key : BranchKey}
    (h : j.plan m = some (e, j')) (hj' : j'.pipeline = some key) :
    j.pipeline = some key ∨ e = .register key := by
  cases Job.plan_step h <;> simp_all [Job.pipeline]

theorem plan_unregister {j j' : Job} {m : Move} {key : BranchKey}
    (h : j.plan m = some (.unregister key, j')) : j'.pipeline = none := by
  cases Job.plan_step h <;> simp_all [Job.pipeline]

/-- Until the last registered pipeline is over, the entry names it. -/
def Named (s : Requests ι) : Prop :=
  ∀ key i, s.latest key = some i → (s.job i).pipeline = some key → s.tokens key = some i

theorem Named.namesNewest (h : s.Named) : s.NamesNewest := by
  intro key i hi hp
  have htok : s.tokens key = some i := h key i hi hp
  refine ⟨htok, fun j => ?_⟩
  simp [cancel, htok, eq_comm]

theorem apply_named {i : ι} {m : Move} {e : Effect} {j : Job}
    (hplan : (s.job i).plan m = some (e, j)) (hcond : s.NewestUndisturbed (.move i m))
    (h : s.Named) : (s.after i e j).Named := by
  intro key k hk hp
  have hcond := hcond e j hplan
  have hold : e ≠ .register key → (s.job k).pipeline = some key := fun he =>
    job_before (P := fun j => j.pipeline = some key)
      (fun _ hj => (plan_pipeline hplan hj).resolve_right he) hp
  cases e with
  | register key' =>
    by_cases hkey : key = key'
    · subst hkey
      simp only [after, apply, Function.update_self] at hk ⊢
      exact hk
    · simp only [after, apply, Function.update_of_ne hkey] at hk ⊢
      exact h key k hk (hold fun he => hkey (by cases he; rfl))
  | unregister key' =>
    have hpipe := hold (by simp)
    by_cases hkey : key = key'
    · subst hkey
      rcases hcond with hlast | hended
      · have hki : k = i := by
          simp only [after, apply] at hk
          rw [hlast] at hk
          exact (Option.some.inj hk).symm
        subst hki
        simp only [after, Function.update_self, plan_unregister hplan] at hp
        cases hp
      · exact absurd hpipe (hended k hk)
    · simp only [after, apply, Function.update_of_ne hkey]
      exact h key k hk hpipe
  | registerAgain key' =>
    have hpipe := hold (by simp)
    by_cases hkey : key = key'
    · subst hkey
      exact absurd hpipe (hcond k hk)
    · simp only [after, apply, Function.update_of_ne hkey]
      exact h key k hk hpipe
  | cancelToken key' =>
    have hpipe := hold (by simp)
    by_cases hkey : key = key'
    · subst hkey
      exact absurd hpipe (hcond k hk)
    · simp only [after, apply, Function.update_of_ne hkey]
      exact h key k hk hpipe
  | cancelTokens d =>
    have hpipe := hold (by simp)
    by_cases hkey : key.1 = d
    · subst hkey
      exact absurd hpipe (hcond key.2 k hk)
    · simp only [after, apply, if_neg hkey]
      exact h key k hk hpipe
  | _ => exact h key k hk (hold (by simp))

/-- While no ending, timed out or deleting request touches the entry of a pipeline that was
registered after it, the registry names the newest pipeline of every branch. -/
theorem tokens_name_newest {tagged : String → CommitId → Option BranchName}
    (h : Reaches step NewestUndisturbed (start tagged : Requests ι) s) : s.NamesNewest := by
  have hnamed : s.Named := by
    refine h.invariant (I := Named) (fun _ _ hk => by cases hk) fun t a u ht hC hstep => ?_
    obtain ⟨i, m, e, j, rfl, hplan, -, rfl⟩ | ⟨i, status, -, rfl⟩ := step_cases hstep
    · exact apply_named hplan hC ht
    · exact ht
  exact hnamed.namesNewest

/-- The steps of a streamed push on the default branch up to its registration. -/
def streamToRegister (i : ι) (commit : CommitId) : List (Action ι) :=
  .move i (.push ⟨⟨"d", mainBranch, commit⟩, none, true⟩) ::
    List.replicate 6 (.move i (.next true))

theorem tokens_name_newest_streamed : ∃ s : Requests ℕ,
    Reaches step NewestUndisturbed (start fun _ _ => none) s ∧
      s.latest ("d", mainBranch) = some 0 ∧ s.NamesNewest := by
  have hallowed : Allowed step NewestUndisturbed (start fun _ _ => none : Requests ℕ)
      (streamToRegister 0 "c") := by
    refine ⟨?_, ?_, ?_, ?_, ?_, ?_, ?_, trivial⟩ <;>
    · intro e j hplan
      cases hplan
      trivial
  have hreach := Reaches.of_exec hallowed rfl
  exact ⟨_, hreach, by decide, tokens_name_newest hreach⟩

/-- The first push runs, the second has registered its token, the first ends. -/
def lateUnregister : List (Action ℕ) :=
  streamToRegister 0 "c1" ++ [.move 0 .look, .move 0 .create, .move 0 .grant] ++
    [.move 0 .look, .move 0 .create, .move 0 .grant] ++ streamToRegister 1 "c2" ++ [.move 0 (.next false), .move 0 (.next true)]

theorem tokens_not_name_newest :
    ¬ ∀ s : Requests ℕ, Reaches step (fun _ _ => True) (start fun _ _ => none) s →
      s.NamesNewest := by
  intro h
  obtain ⟨s, hs⟩ : ∃ s, exec step (start fun _ _ => none) lateUnregister = some s := ⟨_, rfl⟩
  have hend : (exec step (start fun _ _ => none) lateUnregister).map
      (fun s => (s.latest ("d", mainBranch), (s.job 1).pipeline, s.tokens ("d", mainBranch))) =
      some (some 1, some ("d", mainBranch), none) := by decide
  rw [hs] at hend
  simp only [Option.map_some, Option.some.injEq, Prod.mk.injEq] at hend
  have htok := (h s (.of_exec (allowed_true _) hs) _ 1 hend.1 hend.2.1).1
  rw [hend.2.2] at htok
  cases htok

end Requests
end Vectorlink
