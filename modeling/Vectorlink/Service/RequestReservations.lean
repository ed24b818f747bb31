import Vectorlink.Service.Requests

/-! The reservations of commits: what they protect, and what a push leaves behind. -/
namespace Vectorlink

open Concurrent

namespace Job

/-- The commit of a push that has taken its reservation and not yet released it. -/
def reserved : Job → Option CommitKey
  | .lockFork p | .fork p | .forkFailed p | .recordPending p | .register p | .acquire p
  | .timedOut p | .lockGuard p | .running p | .unregister p _ | .report p _ | .release p
  | .panicReport p | .panicRelease p | .orphaned p => some p.key
  | _ => none

/-- The commit whose index pipeline is running. -/
def indexing : Job → Option CommitKey
  | .lockGuard p | .running p | .orphaned p => some p.key
  | _ => none

/-- The push holds the reservation lock. -/
def checks : Job → Bool
  | .checkInflight _ | .checkTag _ | .insert _ | .reject => true
  | _ => false

/-- The commit found to have no reservation, while the reservation lock is held. -/
def absent : Job → Option CommitKey
  | .checkTag p | .insert p => some p.key
  | _ => none

/-- The commit found to be untagged as well. -/
def accepted : Job → Option CommitKey
  | .insert p => some p.key
  | _ => none

/-- The push has passed the check of its commit. -/
def passed (j : Job) (κ : CommitKey) : Prop := j.accepted = some κ ∨ j.reserved = some κ

variable {j j' : Job} {m : Move} {e : Effect} {κ : CommitKey}

theorem reserved_of_indexing (h : j.indexing = some κ) : j.reserved = some κ := by
  cases j <;> simp_all [indexing, reserved]

theorem absent_of_accepted (h : j.accepted = some κ) : j.absent = some κ := by
  cases j <;> simp_all [accepted, absent]

theorem checks_of_absent (h : j.absent = some κ) : j.checks = true := by
  cases j <;> simp_all [absent, checks]

theorem plan_reserved (h : j.plan m = some (e, j')) (hj' : j'.reserved = some κ) :
    j.reserved = some κ ∨ e = .reserve κ := by
  cases Job.plan_step h <;> simp_all [reserved]

theorem plan_unreserve (h : j.plan m = some (.unreserve κ, j')) :
    j.reserved = some κ ∧ j'.reserved = none := by
  cases Job.plan_step h <;> simp_all [reserved]

theorem plan_reserve (h : j.plan m = some (.reserve κ, j')) :
    j.accepted = some κ ∧ j.reserved = none ∧ j'.reserved = some κ ∧ j'.checks = false := by
  cases Job.plan_step h <;> simp_all [accepted, reserved, checks]

theorem plan_tag (h : j.plan m = some (.tag κ, j')) : j.indexing = some κ ∧ j' = j := by
  cases Job.plan_step h <;> simp_all [indexing]

theorem plan_checks (h : j.plan m = some (e, j')) (hj' : j'.checks = true) :
    j.checks = true ∨ e = .lockReservations := by
  cases Job.plan_step h <;> simp_all [checks]

theorem plan_unlock (h : j.plan m = some (.unlockReservations, j')) :
    j.checks = true ∧ j'.checks = false := by
  cases Job.plan_step h
  exact ⟨rfl, rfl⟩

theorem plan_abandon (h : j.plan m = some (.abandon, j')) : j' = .done := by
  cases Job.plan_step h
  rfl

theorem plan_absent (h : j.plan m = some (e, j')) (hj' : j'.absent = some κ) :
    j.absent = some κ ∨ e = .expectAbsent κ := by
  cases Job.plan_step h <;> simp_all [absent]

theorem plan_accepted (h : j.plan m = some (e, j')) (hj' : j'.accepted = some κ) :
    e = .expectUntagged κ := by
  cases Job.plan_step h with
  | look hkey => cases j <;> simp_all [accepted, lockKey]
  | create hkey => cases j <;> simp_all [accepted, lockKey]
  | _ => simp_all [accepted]

theorem plan_passed (h : j.plan m = some (e, j')) (hj' : j'.passed κ) :
    j.passed κ ∨ e = .expectUntagged κ := by
  rcases hj' with hacc | hres
  · exact .inr (plan_accepted h hacc)
  · rcases plan_reserved h hres with hres | rfl
    · exact .inl (.inr hres)
    · exact .inl (.inl (plan_reserve h).1)

end Job

namespace Requests

variable {ι : Type} [DecidableEq ι] {s s' : Requests ι}

/-- No push passes the check of a commit while that is tagged, on whatever branch. -/
def RejectsTagged (s : Requests ι) : Prop :=
  ∀ i κ t, Reaches step (fun u _ => (u.tagged κ.domain κ.commit).isSome) s t →
    ¬ (s.job i).passed κ → ¬ (t.job i).passed κ

/-- No two pipelines run for a commit, pushes of tagged commits are rejected, a push that is
accepted finds no tag of its own branch, and a running pipeline has its reservation. -/
structure OnePipeline (s : Requests ι) : Prop where
  unique : ∀ i j κ, (s.job i).indexing = some κ → (s.job j).indexing = some κ → i = j
  rejected : s.RejectsTagged
  untagged : ∀ i κ, (s.job i).accepted = some κ → s.tagged κ.domain κ.commit ≠ some κ.branch
  kept : ∀ i κ, (s.job i).indexing = some κ → s.inflight κ = true

/-- A delete removes the reservations of a domain or a branch only while no push there has
one. -/
def PurgesNoReservation (s : Requests ι) : Action ι → Prop
  | .move i m => ∀ e j, (s.job i).plan m = some (e, j) →
    match e with
    | .purgeInflight d => ∀ k κ, (s.job k).reserved = some κ → κ.domain ≠ d
    | .purgeBranch key => ∀ k κ, (s.job k).reserved = some κ → κ.branchKey ≠ key
    | _ => True
  | _ => True

/-- The reservation set seen by its owners. -/
structure Reserved (s : Requests ι) : Prop where
  kept : ∀ i κ, (s.job i).reserved = some κ → s.inflight κ = true
  unique : ∀ i j κ, (s.job i).reserved = some κ → (s.job j).reserved = some κ → i = j
  locked : ∀ i, (s.job i).checks = true → s.reserving = some i
  absent : ∀ i κ, (s.job i).absent = some κ → s.inflight κ = false
  untagged : ∀ i κ, (s.job i).accepted = some κ → s.tagged κ.domain κ.commit ≠ some κ.branch

theorem rejectsTagged (s : Requests ι) : s.RejectsTagged := by
  intro i κ t hreach hi
  refine hreach.invariant (I := fun u => ¬ (u.job i).passed κ) hi fun u a v hu htag hstep hv => ?_
  obtain ⟨k, m, e, j, rfl, hplan, hen, rfl⟩ | ⟨k, status, -, rfl⟩ := step_cases hstep
  · refine hu (job_before (P := fun j => j.passed κ) (fun _ hj => ?_) hv)
    rcases Job.plan_passed hplan hj with hbefore | rfl
    · exact hbefore
    · have hnone : u.tagged κ.domain κ.commit = none := by simpa [enabled] using hen
      rw [hnone] at htag
      cases htag
  · exact hu hv

theorem Reserved.onePipeline (h : s.Reserved) : s.OnePipeline where
  unique i j κ hi hj :=
    h.unique i j κ (Job.reserved_of_indexing hi) (Job.reserved_of_indexing hj)
  rejected := s.rejectsTagged
  untagged := h.untagged
  kept i κ hi := h.kept i κ (Job.reserved_of_indexing hi)

omit [DecidableEq ι] in
theorem reserved_start (tagged : String → CommitId → Option BranchName) :
    (start tagged : Requests ι).Reserved := by
  constructor <;>
    simp [start, Job.reserved, Job.checks, Job.absent, Job.accepted]

section Step

variable {i : ι} {m : Move} {e : Effect} {j : Job}

theorem reserved_before (hplan : (s.job i).plan m = some (e, j)) {k : ι} {κ : CommitKey}
    (h : ((s.after i e j).job k).reserved = some κ) :
    (s.job k).reserved = some κ ∨ (k = i ∧ e = .reserve κ) := by
  by_cases he : k = i ∧ e = .reserve κ
  · exact .inr he
  · left
    refine job_before (P := fun j => j.reserved = some κ) (fun hk hj => ?_) h
    exact (Job.plan_reserved hplan hj).resolve_right fun heq => he ⟨hk, heq⟩

theorem checks_before (hplan : (s.job i).plan m = some (e, j)) (he : e ≠ .lockReservations)
    {k : ι} (h : ((s.after i e j).job k).checks = true) : (s.job k).checks = true :=
  job_before (P := fun j => j.checks = true)
    (fun _ hj => (Job.plan_checks hplan hj).resolve_right he) h

theorem ne_of_job {k : ι} {P : Job → Prop} (hj : ¬ P j) (h : P ((s.after i e j).job k)) :
    k ≠ i := by
  rintro rfl
  simp only [after, Function.update_self] at h
  exact hj h

theorem Reserved.step_kept (h : s.Reserved) (hplan : (s.job i).plan m = some (e, j))
    (hcond : s.PurgesNoReservation (.move i m)) {k : ι} {κ : CommitKey}
    (hk : ((s.after i e j).job k).reserved = some κ) : (s.after i e j).inflight κ = true := by
  rcases reserved_before hplan hk with hbefore | ⟨-, rfl⟩
  · have hin : s.inflight κ = true := h.kept k κ hbefore
    have hcond := hcond e j hplan
    cases e with
    | reserve κ' => simp [after, apply, Function.update_apply, hin]
    | unreserve κ' =>
      obtain ⟨hown, hnone⟩ := Job.plan_unreserve hplan
      have hκ : κ ≠ κ' := by
        rintro rfl
        have hki : k = i := h.unique k i κ hbefore hown
        exact ne_of_job (P := fun j => j.reserved = some κ) (by simp [hnone]) hk hki
      simpa only [after, apply, Function.update_of_ne hκ] using hin
    | purgeInflight d => simpa [after, apply, hcond k κ hbefore] using hin
    | purgeBranch key => simpa [after, apply, hcond k κ hbefore] using hin
    | _ => exact hin
  · simp [after, apply]

theorem Reserved.step_unique (h : s.Reserved) (hplan : (s.job i).plan m = some (e, j))
    {k k' : ι} {κ : CommitKey} (hk : ((s.after i e j).job k).reserved = some κ)
    (hk' : ((s.after i e j).job k').reserved = some κ) : k = k' := by
  have hnew : ∀ k, e = .reserve κ → (s.job k).reserved ≠ some κ := by
    rintro k rfl hres
    have habs := h.absent i κ (Job.absent_of_accepted (Job.plan_reserve hplan).1)
    rw [h.kept k κ hres] at habs
    cases habs
  rcases reserved_before hplan hk with hb | ⟨hki, he⟩ <;>
    rcases reserved_before hplan hk' with hb' | ⟨hki', he'⟩
  · exact h.unique k k' κ hb hb'
  · exact absurd hb (hnew k he')
  · exact absurd hb' (hnew k' he)
  · rw [hki, hki']

theorem Reserved.step_locked (h : s.Reserved) (hplan : (s.job i).plan m = some (e, j))
    (hen : s.enabled i e) {k : ι} (hk : ((s.after i e j).job k).checks = true) :
    (s.after i e j).reserving = some k := by
  -- The owner of the lock is the only one that gives it away.
  have hother : e ≠ .lockReservations → (s.job i).checks = true → j.checks = false → False := by
    intro he hi hj
    have hki := ne_of_job (P := fun j => j.checks = true) (by simp [hj]) hk
    have hlock : some k = some i :=
      (h.locked k (checks_before hplan he hk)).symm.trans (h.locked i hi)
    exact hki (Option.some.inj hlock)
  cases e with
  | lockReservations =>
    by_cases hki : k = i
    · rw [hki]
      rfl
    · have hbefore : (s.job k).checks = true := by
        simpa only [after, Function.update_of_ne hki] using hk
      have hfree : s.reserving = none := by simpa [enabled] using hen
      rw [h.locked k hbefore] at hfree
      cases hfree
  | unlockReservations =>
    obtain ⟨hi, hj⟩ := Job.plan_unlock hplan
    exact (hother (by simp) hi hj).elim
  | reserve κ =>
    obtain ⟨hacc, -, -, hj⟩ := Job.plan_reserve hplan
    have hi := Job.checks_of_absent (Job.absent_of_accepted hacc)
    exact (hother (by simp) hi hj).elim
  | abandon =>
    have hj : j = .done := Job.plan_abandon hplan
    subst hj
    have hki := ne_of_job (P := fun j => j.checks = true) (by simp [Job.checks]) hk
    have hlock : s.reserving = some k := h.locked k (checks_before hplan (by simp) hk)
    have hne : s.reserving ≠ some i := by
      rw [hlock]
      exact fun heq => hki (Option.some.inj heq)
    simpa only [after, apply, if_neg hne] using hlock
  | _ => exact h.locked k (checks_before hplan (by simp) hk)

theorem Reserved.step_absent (h : s.Reserved) (hplan : (s.job i).plan m = some (e, j))
    (hen : s.enabled i e) {k : ι} {κ : CommitKey}
    (hk : ((s.after i e j).job k).absent = some κ) : (s.after i e j).inflight κ = false := by
  have hbefore : e ≠ .expectAbsent κ → s.inflight κ = false := by
    intro he
    refine h.absent k κ (job_before (P := fun j => j.absent = some κ) (fun _ hj => ?_) hk)
    exact (Job.plan_absent hplan hj).resolve_right he
  cases e with
  | expectAbsent κ' =>
    by_cases hκ : κ = κ'
    · subst hκ
      simpa [after, apply, enabled] using hen
    · exact hbefore fun he => hκ (by cases he; rfl)
  | reserve κ' =>
    obtain ⟨hacc, -, -, hj⟩ := Job.plan_reserve hplan
    have hi := h.locked i (Job.checks_of_absent (Job.absent_of_accepted hacc))
    have hchecks : ((s.after i (.reserve κ') j).job k).checks = true := Job.checks_of_absent hk
    have hki := ne_of_job (P := fun j => j.checks = true) (by simp [hj]) hchecks
    have hlock := h.locked k (checks_before hplan (by simp) hchecks)
    rw [hi] at hlock
    exact absurd (Option.some.inj hlock).symm hki
  | unreserve κ' =>
    have hin := hbefore (by simp)
    simp [after, apply, Function.update_apply, hin]
  | purgeInflight d =>
    have hin := hbefore (by simp)
    simp [after, apply, hin]
  | purgeBranch key =>
    have hin := hbefore (by simp)
    simp [after, apply, hin]
  | _ => exact hbefore (by simp)

theorem Reserved.step_untagged (h : s.Reserved) (hplan : (s.job i).plan m = some (e, j))
    (hen : s.enabled i e) {k : ι} {κ : CommitKey}
    (hk : ((s.after i e j).job k).accepted = some κ) :
    (s.after i e j).tagged κ.domain κ.commit ≠ some κ.branch := by
  have hacc : e ≠ .expectUntagged κ → (s.job k).accepted = some κ := by
    intro he
    refine job_before (P := fun j => j.accepted = some κ) (fun _ hj => ?_) hk
    exact absurd (Job.plan_accepted hplan hj) he
  have hbefore : e ≠ .expectUntagged κ → s.tagged κ.domain κ.commit ≠ some κ.branch :=
    fun he => h.untagged k κ (hacc he)
  cases e with
  | expectUntagged κ' =>
    by_cases hκ : κ = κ'
    · subst hκ
      have hnone : s.tagged κ.domain κ.commit = none := by simpa [enabled] using hen
      simp [after, apply, hnone]
    · exact hbefore fun he => hκ (by cases he; rfl)
  | tag κ' =>
    have hκ : κ ≠ κ' := by
      rintro rfl
      have habs := h.absent k κ (Job.absent_of_accepted (hacc (by simp)))
      rw [h.kept i κ (Job.reserved_of_indexing (Job.plan_tag hplan).1)] at habs
      cases habs
    simp only [after, apply]
    split_ifs with hd
    · intro hb
      apply hκ
      cases κ
      cases κ'
      simp_all
    · exact hbefore (by simp)
  | untag key c =>
    simp only [after, apply]
    split_ifs with hd
    · simp
    · exact hbefore (by simp)
  | untagDomain d =>
    simp only [after, apply]
    split_ifs with hd
    · simp
    · exact hbefore (by simp)
  | _ => exact hbefore (by simp)

theorem Reserved.step (h : s.Reserved) (hplan : (s.job i).plan m = some (e, j))
    (hen : s.enabled i e) (hcond : s.PurgesNoReservation (.move i m)) :
    (s.after i e j).Reserved where
  kept _ _ hk := h.step_kept hplan hcond hk
  unique _ _ _ hk hk' := h.step_unique hplan hk hk'
  locked _ hk := h.step_locked hplan hen hk
  absent _ _ hk := h.step_absent hplan hen hk
  untagged _ _ hk := h.step_untagged hplan hen hk

end Step

/-- While deletes only find reservations of pushes that are gone, at most one pipeline runs
for a commit, under its own reservation, and tagged commits are rejected. -/
theorem pipelines_exclusive {tagged : String → CommitId → Option BranchName}
    (h : Reaches step PurgesNoReservation (start tagged : Requests ι) s) : s.OnePipeline := by
  have hres : s.Reserved := by
    refine h.invariant (I := Reserved) (reserved_start tagged) fun t a u ht hC hstep => ?_
    obtain ⟨i, m, e, j, rfl, hplan, hen, rfl⟩ | ⟨i, status, -, rfl⟩ := step_cases hstep
    · exact ht.step hplan hen hC
    · exact ⟨ht.kept, ht.unique, ht.locked, ht.absent, ht.untagged⟩
  exact hres.onePipeline

def mainCall (streamed : Bool) : PushCall := ⟨⟨"d", mainBranch, "c"⟩, none, streamed⟩

/-- A streamed push of one commit to the default branch, up to its wait for the domain guard. -/
def streamToGuard (i : ι) : List (Action ι) :=
  .move i (.push (mainCall true)) ::
    (List.replicate 6 (.move i (.next true)) ++
      [.move i .look, .move i .create, .move i .grant, .move i .look])

/-- The same, up to its running pipeline. -/
def streamToPipeline (i : ι) : List (Action ι) :=
  streamToGuard i ++ [.move i .create, .move i .grant]

/-- A buffered push, up to its running pipeline. -/
def bufferToPipeline (i : ι) : List (Action ι) :=
  .move i (.push (mainCall false)) ::
    (List.replicate 5 (.move i (.next true)) ++ [.move i .look, .move i .create, .move i .grant])

/-- `io_delete_domain` up to the removal of the directory. -/
def deleteDomainStart (i : ι) : List (Action ι) :=
  [.move i (.deleteDomain "d"), .move i .look, .move i .create, .move i .grant]

def deleteDomainRest (i : ι) : List (Action ι) := List.replicate 6 (.move i (.next true))

/-- A delete of the domain, and another push of the commit. The buffered pipeline is running when
the delete begins, the streamed one waits for the domain guard that the delete has. -/
def pushedTwice : Bool → List (Action ℕ)
  | true => deleteDomainStart 1 ++ streamToGuard 0 ++ deleteDomainRest 1 ++
      [.move 0 .grant] ++ streamToPipeline 2
  | false => bufferToPipeline 0 ++ deleteDomainStart 1 ++ deleteDomainRest 1 ++ bufferToPipeline 2

theorem pipelines_exclusive_streamed : ∃ s : Requests ℕ,
    Reaches step PurgesNoReservation (start fun _ _ => none) s ∧
      s.job 0 = .running (mainCall true) ∧ s.OnePipeline := by
  have hallowed : Allowed step PurgesNoReservation (start fun _ _ => none : Requests ℕ)
      (streamToPipeline 0) := by
    refine ⟨?_, ?_, ?_, ?_, ?_, ?_, ?_, ?_, ?_, ?_, ?_, ?_, ?_, trivial⟩ <;>
    · intro e j hplan
      cases hplan
      trivial
  have hreach := Reaches.of_exec hallowed rfl
  exact ⟨_, hreach, by decide, pipelines_exclusive hreach⟩

/-- Two pipelines of one commit run, buffered ones as well as streamed ones. -/
theorem pushedTwice_running (streamed : Bool) : ∃ s : Requests ℕ,
    exec step (start fun _ _ => none) (pushedTwice streamed) = some s ∧
      s.job 0 = .running (mainCall streamed) ∧ s.job 2 = .running (mainCall streamed) := by
  cases streamed with
  | true => exact ⟨_, rfl, by decide, by decide⟩
  | false => exact ⟨_, rfl, by decide, by decide⟩

theorem pipelines_not_exclusive :
    ¬ ∀ s : Requests ℕ, Reaches step (fun _ _ => True) (start fun _ _ => none) s →
      s.OnePipeline := by
  intro h
  obtain ⟨s, hs, hfirst, hsecond⟩ := pushedTwice_running false
  have heq : (0 : ℕ) = 2 := by
    apply (h s (.of_exec (allowed_true _) hs)).unique 0 2 (mainCall false).key
    · rw [hfirst]
      rfl
    · rw [hsecond]
      rfl
  cases heq

end Requests
end Vectorlink
