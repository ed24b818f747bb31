import Vectorlink.Concurrent.Runs
import Vectorlink.Concurrent.LockTable
import Vectorlink.Store.Schema

/-! Pushes and deletes of any number of callers on one store, step by step. Each request is
a sequential program over the shared maps; its awaits are the places where another request
may go on. -/
namespace Vectorlink

open Concurrent

abbrev BranchKey := String × BranchName

structure CommitKey where
  domain : String
  branch : BranchName
  commit : CommitId
deriving DecidableEq, Repr

def CommitKey.branchKey (κ : CommitKey) : BranchKey := (κ.domain, κ.branch)

inductive LockKey where
  | pipeline (key : BranchKey)
  | guard (domain : String)
deriving DecidableEq, Repr

/-- The two lock registries. A task has one lock of each at most. -/
inductive LockRegistry where
  | pipelineLocks
  | domainGuards
deriving DecidableEq, Repr

def LockKey.registry : LockKey → LockRegistry
  | .pipeline _ => .pipelineLocks
  | .guard _ => .domainGuards

/-- What decides the steps of `push` (buffered) and `push_stream`. -/
structure PushCall where
  key : CommitKey
  parentCommit : Option CommitId
  streamed : Bool
deriving DecidableEq, Repr

def PushCall.forks (p : PushCall) : Bool :=
  decide (p.key.branch ≠ mainBranch) && p.parentCommit.isSome

inductive TaskState where
  | pending
  | complete
  | error
deriving DecidableEq, Repr

/-- Where a request is. The name of a state is the step that comes next. -/
inductive Job where
  | idle
  | lockReservations (p : PushCall)
  | checkInflight (p : PushCall)
  | checkTag (p : PushCall)
  | insert (p : PushCall)
  | reject
  | lockFork (p : PushCall)
  | fork (p : PushCall)
  | forkFailed (p : PushCall)
  | recordPending (p : PushCall)
  | register (p : PushCall)
  | acquire (p : PushCall)
  | lockGuard (p : PushCall)
  | timedOut (p : PushCall)
  | registerAgain (p : PushCall)
  | running (p : PushCall)
  | unregister (p : PushCall) (ok : Bool)
  | report (p : PushCall) (ok : Bool)
  | release (p : PushCall)
  | panicReport (p : PushCall)
  | panicRelease (p : PushCall)
  | panicUnregister (p : PushCall)
  | orphaned (p : PushCall)
  | lockDomain (domain : String)
  | removeDir (domain : String)
  | purgeLocks (domain : String)
  | purgeTokens (domain : String)
  | purgeInflight (domain : String)
  | purgeGuard (domain : String)
  | cancelBranch (key : BranchKey)
  | lockBranch (key : BranchKey)
  | deleteTags (key : BranchKey)
  | purgeBranch (key : BranchKey)
  | lockOnly (key : LockKey)
  | dropGuard
  | done
deriving DecidableEq, Repr

/-- What a step does to the shared maps. -/
inductive Effect where
  | skip
  | lockReservations
  | unlockReservations
  | expectAbsent (κ : CommitKey)
  | expectInflight (κ : CommitKey)
  | expectUntagged (κ : CommitKey)
  | reserve (κ : CommitKey)
  | unreserve (κ : CommitKey)
  | setTask (status : TaskState)
  | register (key : BranchKey)
  | registerAgain (key : BranchKey)
  | unregister (key : BranchKey)
  | cancelToken (key : BranchKey)
  | cancelTokens (domain : String)
  | tag (κ : CommitKey)
  | untag (key : BranchKey) (commit : CommitId)
  | untagDomain (domain : String)
  | purgeInflight (domain : String)
  | purgeBranch (key : BranchKey)
  | look (key : LockKey)
  | create (key : LockKey)
  | grant (key : LockKey)
  | leave
  | leaveGuard
  | purgePipelineLocks (domain : String)
  | purgeGuardEntry (domain : String)
  | abandon
deriving DecidableEq, Repr

/-- The choices of the scheduler and of the outside world. `useLock` is a task that only
uses a lock: an append under the domain guard, a compaction, a load. -/
inductive Move where
  | push (p : PushCall)
  | deleteDomain (domain : String)
  | deleteBranch (key : BranchKey)
  | useLock (key : LockKey)
  | next (ok : Bool)
  | look
  | create
  | grant
  | giveUp
  | tag
  | untag (commit : CommitId)
  | panic
  | drop
deriving DecidableEq, Repr

/-- Get the lock of a key or create it, then wait for it. -/
def lockStep (key : LockKey) (here granted : Job) : Move → Option (Effect × Job)
  | .look => some (.look key, here)
  | .create => some (.create key, here)
  | .grant => some (.grant key, granted)
  | .drop => some (.abandon, .done)
  | _ => none

/-- A step before the pipeline is spawned, or of a delete: the future may be dropped. -/
def awaitStep (plan : Bool → Effect × Job) : Move → Option (Effect × Job)
  | .next ok => some (plan ok)
  | .drop => some (.abandon, .done)
  | _ => none

/-- A step of a spawned task, which nobody drops. -/
def taskStep (plan : Effect × Job) : Move → Option (Effect × Job)
  | .next _ => some plan
  | _ => none

/-- The steps after the pipeline: in the spawned task (streamed) or in the request. -/
def endStep (p : PushCall) (plan : Effect × Job) : Move → Option (Effect × Job)
  | .next _ => some plan
  | .drop => if p.streamed then none else some (.abandon, .done)
  | _ => none

/-- `push`, `push_stream`, `io_delete_domain` and `io_delete_branch_index`. -/
def Job.plan : Job → Move → Option (Effect × Job)
  | .lockReservations p => awaitStep fun _ => (.lockReservations, .checkInflight p)
  | .checkInflight p => awaitStep fun absent =>
      if absent then (.expectAbsent p.key, .checkTag p) else (.expectInflight p.key, .reject)
  -- `false`: the commit is tagged, or the lookup failed.
  | .checkTag p => awaitStep fun untagged =>
      if untagged then (.expectUntagged p.key, .insert p) else (.skip, .reject)
  | .insert p => awaitStep fun _ =>
      (.reserve p.key, if p.forks then .lockFork p else .recordPending p)
  | .reject => awaitStep fun _ => (.unlockReservations, .done)
  | .lockFork p => lockStep (.pipeline p.key.branchKey) (.lockFork p) (.fork p)
  | .fork p => awaitStep fun ok => (.leave, if ok then .recordPending p else .forkFailed p)
  | .forkFailed p => awaitStep fun _ => (.unreserve p.key, .done)
  | .recordPending p => awaitStep fun _ =>
      (.setTask .pending, if p.streamed then .register p else .acquire p)
  | .register p => awaitStep fun _ => (.register p.key.branchKey, .acquire p)
  | .acquire p => fun
      | .giveUp => some (.leave, .timedOut p)
      | m => lockStep (.pipeline p.key.branchKey) (.acquire p)
          (if p.streamed then .lockGuard p else .running p) m
  -- The first step of the streamed pipeline, in a task of its own.
  | .lockGuard p => fun
      | .drop => none
      | m => lockStep (.guard p.key.domain) (.lockGuard p) (.running p) m
  | .timedOut p => awaitStep fun _ =>
      (.unreserve p.key, if p.streamed then .registerAgain p else .done)
  | .registerAgain p => awaitStep fun _ => (.registerAgain p.key.branchKey, .done)
  -- The buffered pipeline drops its lock as it ends; the streamed one drops the domain guard and
  -- keeps its lock until its status is recorded and its reservation released.
  | .running p => fun
      | .tag => some (.tag p.key, .running p)
      | .next ok => some
          (if p.streamed then (.leaveGuard, .unregister p ok) else (.leave, .report p ok))
      | .panic => some (.leave, if p.streamed then .panicReport p else .report p false)
      | .drop => if p.streamed then none else some (.skip, .orphaned p)
      | _ => none
  | .unregister p ok => taskStep (.unregister p.key.branchKey, .report p ok)
  | .report p ok => endStep p (.setTask (if ok then .complete else .error), .release p)
  | .release p => endStep p (.unreserve p.key, if p.streamed then .dropGuard else .done)
  | .panicReport p => taskStep (.setTask .error, .panicRelease p)
  | .panicRelease p => taskStep (.unreserve p.key, .panicUnregister p)
  | .panicUnregister p => taskStep (.unregister p.key.branchKey, .done)
  -- The request of a buffered push is gone, its pipeline goes on.
  | .orphaned p => fun
      | .tag => some (.tag p.key, .orphaned p)
      | .next _ => some (.leave, .done)
      | .panic => some (.leave, .done)
      | _ => none
  | .lockDomain d => lockStep (.guard d) (.lockDomain d) (.removeDir d)
  | .removeDir d => awaitStep fun ok =>
      if ok then (.untagDomain d, .purgeLocks d) else (.leave, .done)
  | .purgeLocks d => awaitStep fun _ => (.purgePipelineLocks d, .purgeTokens d)
  | .purgeTokens d => awaitStep fun _ => (.cancelTokens d, .purgeInflight d)
  | .purgeInflight d => awaitStep fun _ => (.purgeInflight d, .purgeGuard d)
  | .purgeGuard d => awaitStep fun _ => (.purgeGuardEntry d, .dropGuard)
  | .cancelBranch key => awaitStep fun _ => (.cancelToken key, .lockBranch key)
  | .lockBranch key => lockStep (.pipeline key) (.lockBranch key) (.deleteTags key)
  | .deleteTags key => fun
      | .untag c => some (.untag key c, .deleteTags key)
      | m => awaitStep (fun ok => if ok then (.skip, .purgeBranch key) else (.leave, .done)) m
  | .purgeBranch key => awaitStep fun _ => (.purgeBranch key, .dropGuard)
  | .lockOnly key => fun
      | .giveUp => some (.leave, .done)
      | m => lockStep key (.lockOnly key) .dropGuard m
  | .dropGuard => taskStep (.leave, .done)
  | .idle => fun
      | .push p => some (.skip, .lockReservations p)
      | .deleteDomain d => some (.skip, .lockDomain d)
      | .deleteBranch key => some (.skip, .cancelBranch key)
      | .useLock key => some (.skip, .lockOnly key)
      | _ => none
  | .done => fun _ => none

/-- The lock that a request looks up, creates or waits for. -/
def Job.lockKey : Job → Option LockKey
  | .lockFork p | .acquire p => some (.pipeline p.key.branchKey)
  | .lockGuard p => some (.guard p.key.domain)
  | .lockDomain d => some (.guard d)
  | .lockBranch key => some (.pipeline key)
  | .lockOnly key => some key
  | _ => none

/-- The transitions of the jobs, one by one: what a proof about every step splits into. -/
inductive Job.Step : Job → Move → Effect → Job → Prop
  | look {j : Job} {key : LockKey} : j.lockKey = some key → Step j .look (.look key) j
  | create {j : Job} {key : LockKey} : j.lockKey = some key → Step j .create (.create key) j
  | drop (j : Job) : Step j .drop .abandon .done
  | lockReservations (p : PushCall) (ok : Bool) :
      Step (.lockReservations p) (.next ok) .lockReservations (.checkInflight p)
  | absent (p : PushCall) : Step (.checkInflight p) (.next true) (.expectAbsent p.key) (.checkTag p)
  | inflight (p : PushCall) : Step (.checkInflight p) (.next false) (.expectInflight p.key) .reject
  | untagged (p : PushCall) : Step (.checkTag p) (.next true) (.expectUntagged p.key) (.insert p)
  | tagged (p : PushCall) : Step (.checkTag p) (.next false) .skip .reject
  | reserveForking (p : PushCall) (ok : Bool) :
      Step (.insert p) (.next ok) (.reserve p.key) (.lockFork p)
  | reserve (p : PushCall) (ok : Bool) :
      Step (.insert p) (.next ok) (.reserve p.key) (.recordPending p)
  | reject (ok : Bool) : Step .reject (.next ok) .unlockReservations .done
  | grantFork (p : PushCall) :
      Step (.lockFork p) .grant (.grant (.pipeline p.key.branchKey)) (.fork p)
  | forked (p : PushCall) : Step (.fork p) (.next true) .leave (.recordPending p)
  | forkFails (p : PushCall) : Step (.fork p) (.next false) .leave (.forkFailed p)
  | forkFailed (p : PushCall) (ok : Bool) : Step (.forkFailed p) (.next ok) (.unreserve p.key) .done
  | pendingStreamed (p : PushCall) (ok : Bool) : p.streamed = true →
      Step (.recordPending p) (.next ok) (.setTask .pending) (.register p)
  | pending (p : PushCall) (ok : Bool) : p.streamed = false →
      Step (.recordPending p) (.next ok) (.setTask .pending) (.acquire p)
  | register (p : PushCall) (ok : Bool) :
      Step (.register p) (.next ok) (.register p.key.branchKey) (.acquire p)
  | grantStreamed (p : PushCall) : p.streamed = true →
      Step (.acquire p) .grant (.grant (.pipeline p.key.branchKey)) (.lockGuard p)
  | grantBuffered (p : PushCall) : p.streamed = false →
      Step (.acquire p) .grant (.grant (.pipeline p.key.branchKey)) (.running p)
  | grantGuard (p : PushCall) :
      Step (.lockGuard p) .grant (.grant (.guard p.key.domain)) (.running p)
  | timeOut (p : PushCall) : Step (.acquire p) .giveUp .leave (.timedOut p)
  | timedOutStreamed (p : PushCall) (ok : Bool) :
      Step (.timedOut p) (.next ok) (.unreserve p.key) (.registerAgain p)
  | timedOut (p : PushCall) (ok : Bool) : Step (.timedOut p) (.next ok) (.unreserve p.key) .done
  | registerAgain (p : PushCall) (ok : Bool) :
      Step (.registerAgain p) (.next ok) (.registerAgain p.key.branchKey) .done
  | tag (p : PushCall) : Step (.running p) .tag (.tag p.key) (.running p)
  | endStreamed (p : PushCall) (ok : Bool) : p.streamed = true →
      Step (.running p) (.next ok) .leaveGuard (.unregister p ok)
  | endBuffered (p : PushCall) (ok : Bool) : p.streamed = false →
      Step (.running p) (.next ok) .leave (.report p ok)
  | panicStreamed (p : PushCall) : p.streamed = true →
      Step (.running p) .panic .leave (.panicReport p)
  | panicBuffered (p : PushCall) : p.streamed = false →
      Step (.running p) .panic .leave (.report p false)
  | orphan (p : PushCall) : p.streamed = false → Step (.running p) .drop .skip (.orphaned p)
  | unregister (p : PushCall) (ok ok' : Bool) :
      Step (.unregister p ok) (.next ok') (.unregister p.key.branchKey) (.report p ok)
  | reportComplete (p : PushCall) (ok : Bool) :
      Step (.report p true) (.next ok) (.setTask .complete) (.release p)
  | reportError (p : PushCall) (ok : Bool) :
      Step (.report p false) (.next ok) (.setTask .error) (.release p)
  | releaseStreamed (p : PushCall) (ok : Bool) :
      Step (.release p) (.next ok) (.unreserve p.key) .dropGuard
  | release (p : PushCall) (ok : Bool) : Step (.release p) (.next ok) (.unreserve p.key) .done
  | panicReport (p : PushCall) (ok : Bool) :
      Step (.panicReport p) (.next ok) (.setTask .error) (.panicRelease p)
  | panicRelease (p : PushCall) (ok : Bool) :
      Step (.panicRelease p) (.next ok) (.unreserve p.key) (.panicUnregister p)
  | panicUnregister (p : PushCall) (ok : Bool) :
      Step (.panicUnregister p) (.next ok) (.unregister p.key.branchKey) .done
  | orphanTag (p : PushCall) : Step (.orphaned p) .tag (.tag p.key) (.orphaned p)
  | orphanEnd (p : PushCall) (m : Move) : Step (.orphaned p) m .leave .done
  | grantDomain (d : String) : Step (.lockDomain d) .grant (.grant (.guard d)) (.removeDir d)
  | removed (d : String) : Step (.removeDir d) (.next true) (.untagDomain d) (.purgeLocks d)
  | removeFails (d : String) : Step (.removeDir d) (.next false) .leave .done
  | purgeLocks (d : String) (ok : Bool) :
      Step (.purgeLocks d) (.next ok) (.purgePipelineLocks d) (.purgeTokens d)
  | purgeTokens (d : String) (ok : Bool) :
      Step (.purgeTokens d) (.next ok) (.cancelTokens d) (.purgeInflight d)
  | purgeInflight (d : String) (ok : Bool) :
      Step (.purgeInflight d) (.next ok) (.purgeInflight d) (.purgeGuard d)
  | purgeGuard (d : String) (ok : Bool) :
      Step (.purgeGuard d) (.next ok) (.purgeGuardEntry d) .dropGuard
  | cancelBranch (key : BranchKey) (ok : Bool) :
      Step (.cancelBranch key) (.next ok) (.cancelToken key) (.lockBranch key)
  | grantBranch (key : BranchKey) :
      Step (.lockBranch key) .grant (.grant (.pipeline key)) (.deleteTags key)
  | untag (key : BranchKey) (c : CommitId) :
      Step (.deleteTags key) (.untag c) (.untag key c) (.deleteTags key)
  | tagsDeleted (key : BranchKey) : Step (.deleteTags key) (.next true) .skip (.purgeBranch key)
  | deleteFails (key : BranchKey) : Step (.deleteTags key) (.next false) .leave .done
  | purgeBranch (key : BranchKey) (ok : Bool) :
      Step (.purgeBranch key) (.next ok) (.purgeBranch key) .dropGuard
  | grantOnly (key : LockKey) : Step (.lockOnly key) .grant (.grant key) .dropGuard
  | giveUpOnly (key : LockKey) : Step (.lockOnly key) .giveUp .leave .done
  | dropGuard (ok : Bool) : Step .dropGuard (.next ok) .leave .done
  | push (p : PushCall) : Step .idle (.push p) .skip (.lockReservations p)
  | deleteDomain (d : String) : Step .idle (.deleteDomain d) .skip (.lockDomain d)
  | deleteBranch (key : BranchKey) : Step .idle (.deleteBranch key) .skip (.cancelBranch key)
  | useLock (key : LockKey) : Step .idle (.useLock key) .skip (.lockOnly key)

theorem Job.plan_step {j j' : Job} {m : Move} {e : Effect} (h : j.plan m = some (e, j')) :
    j.Step m e j' := by
  cases j <;> cases m <;> simp [Job.plan, lockStep, awaitStep, taskStep, endStep] at h <;>
    grind [Job.Step, Job.lockKey]

/-- The maps of the store that requests share. A token is named by the branch it was
registered for and the request that made it. `latest` is no map of the store: it remembers
who last registered a token on its way to the pipeline. -/
structure Requests (ι : Type) where
  inflight : CommitKey → Bool
  reserving : Option ι
  tagged : String → CommitId → Option BranchName
  locks : LockTable LockKey (ι × LockRegistry)
  tokens : BranchKey → Option ι
  cancelled : BranchKey → ι → Bool
  tasks : ι → Option TaskState
  latest : BranchKey → Option ι
  job : ι → Job

namespace Requests

variable {ι : Type} [DecidableEq ι]

/-- The process has just started on what is on disk. -/
def start (tagged : String → CommitId → Option BranchName) : Requests ι where
  inflight _ := false
  reserving := none
  tagged := tagged
  locks := .empty
  tokens _ := none
  cancelled _ _ := false
  tasks _ := none
  latest _ := none
  job _ := .idle

/-- Cancel the tokens that are registered for some branches. -/
def cancel (s : Requests ι) (p : BranchKey → Bool) : BranchKey → ι → Bool :=
  fun key i => s.cancelled key i || (p key && decide (s.tokens key = some i))

def lockFree (s : Requests ι) (i : ι) (key : LockKey) : Bool :=
  match s.locks.claims (i, key.registry) with
  | .waiting k n => decide (k = key) && (s.locks.holder n).isNone
  | _ => false

def enabled (s : Requests ι) (i : ι) : Effect → Bool
  | .lockReservations => s.reserving.isNone
  | .expectAbsent κ => !s.inflight κ
  | .expectInflight κ => s.inflight κ
  -- `io_resolve_commit` finds the tag of another branch as well.
  | .expectUntagged κ => (s.tagged κ.domain κ.commit).isNone
  | .tag κ => (s.tagged κ.domain κ.commit).isNone
  | .untag key c => decide (s.tagged key.1 c = some key.2)
  | .look key => decide (s.locks.claims (i, key.registry) = .none)
  | .create key => decide (s.locks.claims (i, key.registry) = .creating key)
  | .grant key => s.lockFree i key
  | _ => true

def grantLock (s : Requests ι) (i : ι) (key : LockKey) :
    LockTable LockKey (ι × LockRegistry) :=
  match s.locks.claims (i, key.registry) with
  | .waiting _ n => s.locks.grant (i, key.registry) key n
  | _ => s.locks

/-- The task drops all its guards. -/
def leaveLocks (s : Requests ι) (i : ι) : LockTable LockKey (ι × LockRegistry) :=
  (s.locks.leave (i, .domainGuards)).leave (i, .pipelineLocks)

def apply (s : Requests ι) (i : ι) : Effect → Requests ι
  | .skip | .expectAbsent _ | .expectInflight _ | .expectUntagged _ => s
  | .lockReservations => { s with reserving := some i }
  | .unlockReservations => { s with reserving := none }
  | .reserve κ => { s with inflight := Function.update s.inflight κ true, reserving := none }
  | .unreserve κ => { s with inflight := Function.update s.inflight κ false }
  | .setTask status => { s with tasks := Function.update s.tasks i (some status) }
  | .register key =>
    { s with
      cancelled := s.cancel (· = key)
      tokens := Function.update s.tokens key (some i)
      latest := Function.update s.latest key (some i) }
  | .registerAgain key =>
    { s with cancelled := s.cancel (· = key), tokens := Function.update s.tokens key (some i) }
  | .unregister key => { s with tokens := Function.update s.tokens key none }
  | .cancelToken key =>
    { s with cancelled := s.cancel (· = key), tokens := Function.update s.tokens key none }
  | .cancelTokens d =>
    { s with
      cancelled := s.cancel (·.1 = d)
      tokens := fun key => if key.1 = d then none else s.tokens key }
  | .tag κ =>
    { s with
      tagged := fun d c =>
        if d = κ.domain ∧ c = κ.commit then some κ.branch else s.tagged d c }
  | .untag key c =>
    { s with tagged := fun d c' => if d = key.1 ∧ c' = c then none else s.tagged d c' }
  | .untagDomain d => { s with tagged := fun d' c => if d' = d then none else s.tagged d' c }
  | .purgeInflight d => { s with inflight := fun κ => !decide (κ.domain = d) && s.inflight κ }
  | .purgeBranch key => { s with inflight := fun κ => !decide (κ.branchKey = key) && s.inflight κ }
  | .look key => { s with locks := s.locks.look (i, key.registry) key }
  | .create key => { s with locks := s.locks.create (i, key.registry) key }
  | .grant key => { s with locks := s.grantLock i key }
  | .leave => { s with locks := s.leaveLocks i }
  | .leaveGuard => { s with locks := s.locks.leave (i, .domainGuards) }
  | .purgePipelineLocks d =>
    { s with locks := s.locks.purge fun
        | .pipeline key => decide (key.1 = d)
        | .guard _ => false }
  | .purgeGuardEntry d => { s with locks := s.locks.purge fun key => decide (key = .guard d) }
  | .abandon =>
    { s with
      locks := s.leaveLocks i
      reserving := if s.reserving = some i then none else s.reserving }

/-- One request takes a step, the others stay where they are. -/
def after (s : Requests ι) (i : ι) (e : Effect) (j : Job) : Requests ι :=
  { s.apply i e with job := Function.update s.job i j }

/-- Besides the steps of the requests: a handler marks a task as failed, and the task map
evicts entries. -/
inductive Action (ι : Type) where
  | move (i : ι) (m : Move)
  | failTask (i : ι)
  | evictTask (i : ι)

def step (s : Requests ι) : Action ι → Option (Requests ι)
  | .move i m =>
    match (s.job i).plan m with
    | none => none
    | some (e, j) => if s.enabled i e then some (s.after i e j) else none
  | .failTask i =>
    if s.job i = .idle then none
    else some { s with tasks := Function.update s.tasks i (some .error) }
  | .evictTask i => some { s with tasks := Function.update s.tasks i none }

variable {s s' : Requests ι}

/-- A fact about the jobs that a step does not bring about held before it. -/
theorem job_before {i k : ι} {e : Effect} {j : Job} {P : Job → Prop} (hj : k = i → P j → P (s.job i))
    (h : P ((s.after i e j).job k)) : P (s.job k) := by
  by_cases hk : k = i
  · subst hk
    simp only [after, Function.update_self] at h
    exact hj rfl h
  · simpa only [after, Function.update_of_ne hk] using h

/-- A step is one that the plan of a job gives, or one of the task map. -/
theorem step_cases {a : Action ι} (h : s.step a = some s') :
    (∃ i m e j, a = .move i m ∧ (s.job i).plan m = some (e, j) ∧ s.enabled i e ∧
      s' = s.after i e j) ∨
    (∃ i status, status ≠ some .pending ∧
      s' = { s with tasks := Function.update s.tasks i status }) := by
  cases a with
  | move i m =>
    simp only [step] at h
    split at h
    · cases h
    · rename_i e j hp
      split at h
      · rename_i he
        cases h
        exact .inl ⟨i, m, e, j, rfl, hp, he, rfl⟩
      · cases h
  | failTask i =>
    simp only [step] at h
    split at h
    · cases h
    · cases h
      exact .inr ⟨i, some .error, by simp, rfl⟩
  | evictTask i =>
    cases h
    exact .inr ⟨i, none, by simp, rfl⟩

end Requests
end Vectorlink
