import Vectorlink.Service.Requests

/-! Who holds the pipeline lock of a branch and the guard of a domain. -/
namespace Vectorlink

open Concurrent

namespace Requests

variable {ι : Type} [DecidableEq ι] {s s' : Requests ι}

/-- The step finds no entry for its key and puts a new mutex there only while no task waits
on or holds an earlier mutex of that key. -/
def FreshLockUnclaimed (s : Requests ι) : Action ι → Prop
  | .move i .create =>
    ∀ key, s.locks.claims (i, key.registry) = .creating key → s.locks.entries key = none →
      ∀ j n, ¬ s.locks.On j key n
  | _ => True

theorem plan_create {j j' : Job} {m : Move} {key : LockKey}
    (h : j.plan m = some (.create key, j')) : m = .create := by
  cases Job.plan_step h
  rfl

theorem apply_oneLock {i : ι} {m : Move} {e : Effect} {j : Job}
    (hplan : (s.job i).plan m = some (e, j)) (hcond : s.FreshLockUnclaimed (.move i m))
    (hen : s.enabled i e) (h : s.locks.OneLock) : (s.apply i e).locks.OneLock := by
  cases e with
  | look key => exact h.look _ key
  | create key =>
    have hm : m = .create := plan_create hplan
    subst hm
    have hclaim : s.locks.claims (i, key.registry) = .creating key := by
      simpa [enabled] using hen
    exact h.create _ key (hcond key hclaim)
  | grant key =>
    simp only [enabled, lockFree] at hen
    simp only [apply, grantLock]
    split at hen
    · rename_i k n hw
      simp only [Bool.and_eq_true, decide_eq_true_eq, Option.isNone_iff_eq_none] at hen
      obtain ⟨rfl, hn⟩ := hen
      exact h.grant hw hn
    · cases hen
  | leave => exact (h.leave _).leave _
  | leaveGuard => exact h.leave _
  | abandon => exact (h.leave _).leave _
  | purgePipelineLocks d => exact h.purge _
  | purgeGuardEntry d => exact h.purge _
  | _ => exact h

/-- While fresh mutexes are only made for keys that nobody uses, every pipeline lock and
every domain guard has at most one holder. -/
theorem locks_exclusive {tagged : String → CommitId → Option BranchName}
    (h : Reaches step FreshLockUnclaimed (start tagged : Requests ι) s) : s.locks.Exclusive := by
  have hone : s.locks.OneLock := by
    refine h.invariant (I := fun t => t.locks.OneLock) LockTable.oneLock_empty
      fun t a u ht hC hstep => ?_
    obtain ⟨i, m, e, j, rfl, hplan, hen, rfl⟩ | ⟨i, status, -, rfl⟩ := step_cases hstep
    · exact apply_oneLock hplan hC hen ht
    · exact ht
  exact hone.exclusive

/-- A task takes the lock of a branch that nobody has used before. -/
def lockBranchMain (i : ι) : List (Action ι) :=
  [.move i (.useLock (.pipeline ("d", mainBranch))), .move i .look, .move i .create,
    .move i .grant]

/-- A second task queues for the lock and gets it when the first one lets it go. -/
def handOverMain (i j : ι) : List (Action ι) :=
  lockBranchMain i ++
    [.move j (.useLock (.pipeline ("d", mainBranch))), .move j .look, .move i (.next true),
      .move j .grant]

/-- A delete runs up to the purge of the pipeline locks. -/
def deleteToPurge (i : ι) : List (Action ι) :=
  [.move i (.deleteDomain "d"), .move i .look, .move i .create, .move i .grant,
    .move i (.next true), .move i (.next true)]

theorem locks_exclusive_branchMain : ∃ s : Requests ℕ,
    Reaches step FreshLockUnclaimed (start fun _ _ => none) s ∧
      s.locks.Holds (1, .pipelineLocks) (.pipeline ("d", mainBranch)) ∧ s.locks.Exclusive := by
  have hallowed : Allowed step FreshLockUnclaimed (start fun _ _ => none : Requests ℕ)
      (handOverMain 0 1) := by
    refine ⟨trivial, trivial, ?_, trivial, trivial, trivial, trivial, trivial, trivial⟩
    intro key _ _ j n hj
    change Function.update (fun _ => Claim.none) ((0 : ℕ), LockRegistry.pipelineLocks)
        (Claim.creating (LockKey.pipeline ("d", mainBranch))) j = .waiting key n ∨
      Function.update (fun _ => Claim.none) ((0 : ℕ), LockRegistry.pipelineLocks)
        (Claim.creating (LockKey.pipeline ("d", mainBranch))) j = .held key n at hj
    simp only [Function.update_apply] at hj
    split at hj <;> simp at hj
  have hreach := Reaches.of_exec hallowed rfl
  exact ⟨_, hreach, ⟨0, by decide⟩, locks_exclusive hreach⟩

theorem locks_not_exclusive :
    ¬ ∀ s : Requests ℕ, Reaches step (fun _ _ => True) (start fun _ _ => none) s →
      s.locks.Exclusive := by
  intro h
  obtain ⟨s, hs⟩ : ∃ s, exec step (start fun _ _ => none)
      (lockBranchMain 0 ++ deleteToPurge 1 ++ lockBranchMain 2) = some s := ⟨_, rfl⟩
  have hclaims : (exec step (start fun _ _ => none)
      (lockBranchMain 0 ++ deleteToPurge 1 ++ lockBranchMain 2)).map
        (fun s => (s.locks.claims (0, .pipelineLocks), s.locks.claims (2, .pipelineLocks))) =
      some (.held (.pipeline ("d", mainBranch)) 0, .held (.pipeline ("d", mainBranch)) 2) := by
    decide
  rw [hs] at hclaims
  simp only [Option.map_some, Option.some.injEq, Prod.mk.injEq] at hclaims
  have heq : ((0 : ℕ), LockRegistry.pipelineLocks) = (2, .pipelineLocks) :=
    h s (.of_exec (allowed_true _) hs) _ _ _ ⟨_, hclaims.1⟩ ⟨_, hclaims.2⟩
  cases heq

end Requests
end Vectorlink
