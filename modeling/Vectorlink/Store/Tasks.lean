import Mathlib.Algebra.Group.Nat.Defs
import Vectorlink.Ingest
import Vectorlink.Ranking.Oldest
import Vectorlink.Store.CrossNeighbours

/-! The states of the tasks, kept for those who ask, and which of them are given up. -/
namespace Vectorlink.Tasks

open Ranking

variable {P : Type}

/-- `P` is the type of percentages. -/
inductive RecordedStatus (P : Type) where
  | pending (percentage : P)
  | complete (indexedDocuments : ℕ) (skipped : List SkippedDoc)
  | error (error : String)
deriving DecidableEq, Repr

def RecordedStatus.isTerminal : RecordedStatus P → Bool
  | .pending _ => false
  | .complete _ _ => true
  | .error _ => true

/-- A status with the time at which it was recorded, in nanoseconds. -/
abbrev TaskEntry (P : Type) := RecordedStatus P × ℕ

abbrev TaskMap (P : Type) := AList fun _ : String => TaskEntry P

/-- One hour. -/
def taskTtl : ℕ := 3600 * 10 ^ 9

def maxTasks : ℕ := 10000

def terminal (e : TaskEntry P) : Bool := e.1.isTerminal

/-- The time since a status was recorded is zero if it was recorded later. -/
def expired (now : ℕ) (e : TaskEntry P) : Bool := terminal e && taskTtl < now - e.2

def taskCount (tasks : TaskMap P) : ℕ := tasks.entries.length

/-- The order in which the map is iterated. -/
abbrev TaskOrder (P : Type) := HashOrder (Sigma fun _ : String => TaskEntry P)

section Source

variable (order order' : TaskOrder P) (tasks : TaskMap P) (now : ℕ)

/-- Over the cap, the oldest terminal entries go first, and the oldest of the others after them. -/
def enforceCap : TaskMap P :=
  if maxTasks < taskCount tasks then
    let toEvict := taskCount tasks - maxTasks
    let tasks := giveUpOldest Prod.snd terminal (order.run tasks.entries) toEvict tasks
    if maxTasks < taskCount tasks then
      let remaining := taskCount tasks - maxTasks
      giveUpOldest Prod.snd (fun _ => true) (order'.run tasks.entries) remaining tasks
    else tasks
  else tasks

/-- Pending tasks do not expire. -/
def evictStaleTasks : TaskMap P :=
  enforceCap order order' (retain (fun e => !expired now e) tasks)

def recordTask (taskId : String) (status : RecordedStatus P) : TaskMap P :=
  evictStaleTasks order order' (tasks.insert taskId (status, now)) now

end Source

/-- What is given up of `before`. -/
structure EvictedFairly (now : ℕ) (before after : TaskMap P) : Prop where
  bounded : taskCount after ≤ maxTasks
  /-- No terminal entry is older than the time to live. -/
  fresh : ∀ k e, after.lookup k = some e → terminal e = true → now - e.2 ≤ taskTtl
  kept : ∀ k e, after.lookup k = some e → before.lookup k = some e
  /-- A pending entry is given up if no terminal one remains, and there are still too many. -/
  pendingLast : ∀ k e, before.lookup k = some e → after.lookup k = none →
    terminal e = false →
      (∀ k' e', after.lookup k' = some e' → terminal e' = false) ∧
      maxTasks < countClass (fun e => !terminal e) before
  /-- Within a class the oldest of those that have not expired are given up. -/
  oldest : ∀ k e k' e', before.lookup k = some e → after.lookup k = none →
    expired now e = false → after.lookup k' = some e' →
    terminal e = terminal e' → e.2 ≤ e'.2
  /-- No more of these are given up than are too many. -/
  minimal : taskCount after = min maxTasks (countClass (fun e => !expired now e) before)

section Phases

variable {order order' : TaskOrder P} {tasks : TaskMap P} {now : ℕ} {k : String} {e : TaskEntry P}

theorem taskCount_retain : taskCount (retain (fun e => !expired now e) tasks) =
    countClass (fun e => !expired now e) tasks := by
  rw [countClass, List.countP_eq_length_filter]
  rfl

theorem countClass_all : countClass (fun _ => true) tasks = taskCount tasks :=
  congrFun List.countP_true _

/-- The terminal and the pending entries are all there are. -/
theorem taskCount_eq_add : taskCount tasks = countClass terminal tasks +
    countClass (fun e => !terminal e) tasks := by
  have h := List.length_eq_countP_add_countP (fun e => terminal e.2) (l := tasks.entries)
  simp only [Bool.not_eq_true, Bool.decide_eq_false] at h
  exact h

theorem countClass_retain_le (p q : TaskEntry P → Bool) :
    countClass p (retain q tasks) ≤ countClass p tasks :=
  List.filter_sublist.countP_le

theorem not_expired_of_pending (h : terminal e = false) : expired now e = false := by
  rw [expired, h, Bool.false_and]

/-- What the cap does. -/
structure Capped (before after : TaskMap P) : Prop where
  size : taskCount after = min maxTasks (taskCount before)
  kept : ∀ k e, after.lookup k = some e → before.lookup k = some e
  oldest : ∀ k e k' e', before.lookup k = some e → after.lookup k = none →
    after.lookup k' = some e' → terminal e = terminal e' → e.2 ≤ e'.2
  pendingLast : ∀ k e, before.lookup k = some e → after.lookup k = none →
    terminal e = false →
      (∀ k' e', after.lookup k' = some e' → terminal e' = false) ∧
      maxTasks < countClass (fun e => !terminal e) before

theorem Capped.refl (h : taskCount tasks ≤ maxTasks) : Capped tasks tasks where
  size := (Nat.min_eq_right h).symm
  kept _ _ he := he
  oldest k e k' e' he hnone := by
    rw [he] at hnone
    cases hnone
  pendingLast k e he hnone := by
    rw [he] at hnone
    cases hnone

/-- There are enough terminal entries to give up. -/
theorem capped_terminal {iterated : List (Sigma fun _ : String => TaskEntry P)} {n : ℕ}
    (h : iterated.Perm tasks.entries) (hn : taskCount tasks = maxTasks + n)
    (henough : n ≤ countClass terminal tasks) :
    Capped tasks (giveUpOldest Prod.snd terminal iterated n tasks) where
  size := by
    have hlength : taskCount (giveUpOldest Prod.snd terminal iterated n tasks) +
        min n (countClass terminal tasks) = taskCount tasks := length_giveUpOldest h
    omega
  kept k e he := lookup_giveUpOldest he
  oldest k e k' e' he hnone he' hclass := by
    have hterminal := class_of_givenUp h he hnone
    rw [hclass] at hterminal
    exact time_le_of_givenUp h he hnone he' hterminal
  pendingLast k e he hnone hpending := by
    have hterminal := class_of_givenUp h he hnone
    rw [hpending] at hterminal
    cases hterminal

/-- The terminal entries are too few: all of them go, and the oldest of the pending ones. -/
theorem capped_pending {iterated iterated' : List (Sigma fun _ : String => TaskEntry P)}
    {between : TaskMap P} {n n' : ℕ} (h : iterated.Perm tasks.entries)
    (hbetween : between = giveUpOldest Prod.snd terminal iterated n tasks)
    (h' : iterated'.Perm between.entries) (hn : taskCount tasks = maxTasks + n)
    (hn' : taskCount between = maxTasks + n') (hpos : 0 < n') :
    Capped tasks (giveUpOldest Prod.snd (fun _ => true) iterated' n' between) := by
  have hfirst : taskCount between + min n (countClass terminal tasks) =
      taskCount tasks := by
    rw [hbetween]
    exact length_giveUpOldest h
  have hsecond : taskCount (giveUpOldest Prod.snd (fun _ => true) iterated' n' between) +
      min n' (taskCount between) = taskCount between := by
    have hlength : taskCount (giveUpOldest Prod.snd (fun _ => true) iterated' n' between) +
        min n' (countClass (fun _ => true) between) = taskCount between := length_giveUpOldest h'
    rwa [countClass_all] at hlength
  have hall : countClass terminal tasks ≤ n := by omega
  have hnone (k : String) (e : TaskEntry P) (he : between.lookup k = some e) :
      terminal e = false := by
    rw [hbetween] at he
    exact class_giveUpOldest h hall he
  have hsplit : taskCount tasks = countClass terminal tasks +
      countClass (fun e => !terminal e) tasks := taskCount_eq_add
  constructor
  case size => omega
  case kept =>
    intro k e he
    have hkept := lookup_giveUpOldest he
    rw [hbetween] at hkept
    exact lookup_giveUpOldest hkept
  case oldest =>
    intro k e k' e' he hgone he' hclass
    have hpending : terminal e = false := hclass.trans (hnone k' e' (lookup_giveUpOldest he'))
    have hstays : between.lookup k = some e := by
      rw [hbetween]
      exact lookup_giveUpOldest_of_class h he hpending
    exact time_le_of_givenUp h' hstays hgone he' rfl
  case pendingLast =>
    intro k e he hgone hpending
    constructor
    · intro k' e' he'
      exact hnone k' e' (lookup_giveUpOldest he')
    · omega

theorem capped_enforceCap : Capped tasks (enforceCap order order' tasks) := by
  have hperm := order.perm tasks.entries
  unfold enforceCap
  dsimp only
  split
  case isFalse hle => exact .refl (Nat.le_of_not_lt hle)
  case isTrue hover =>
    have hn : taskCount tasks = maxTasks + (taskCount tasks - maxTasks) := by omega
    generalize taskCount tasks - maxTasks = n at hn
    generalize hbetween : giveUpOldest Prod.snd terminal (order.run tasks.entries) n tasks = between
    split
    case isTrue hstill =>
      exact capped_pending hperm hbetween.symm (order'.perm between.entries) hn (by omega) (by omega)
    case isFalse hstill =>
      have hlength : taskCount between + min n (countClass terminal tasks) = taskCount tasks := by
        rw [← hbetween]
        exact length_giveUpOldest hperm
      rw [← hbetween]
      exact capped_terminal hperm hn (by omega)

theorem evictedFairly_of_capped {after : TaskMap P}
    (h : Capped (retain (fun e => !expired now e) tasks) after) :
    EvictedFairly now tasks after := by
  have hstart (k : String) (e : TaskEntry P) (he : tasks.lookup k = some e)
      (hexpired : expired now e = false) :
      (retain (fun e => !expired now e) tasks).lookup k = some e := by
    apply lookup_retain.mpr
    rw [hexpired]
    exact ⟨he, rfl⟩
  constructor
  case bounded =>
    rw [h.size]
    exact Nat.min_le_left _ _
  case fresh =>
    intro k e he hterminal
    have hexpired := (lookup_retain.mp (h.kept k e he)).2
    rw [expired, hterminal, Bool.true_and, Bool.not_eq_true', decide_eq_false_iff_not] at hexpired
    exact Nat.le_of_not_lt hexpired
  case kept =>
    intro k e he
    exact (lookup_retain.mp (h.kept k e he)).1
  case pendingLast =>
    intro k e he hnone hpending
    have hlast := h.pendingLast k e (hstart k e he (not_expired_of_pending hpending)) hnone hpending
    exact ⟨hlast.1, Nat.lt_of_lt_of_le hlast.2 (countClass_retain_le _ _)⟩
  case oldest =>
    intro k e k' e' he hnone hexpired
    exact h.oldest k e k' e' (hstart k e he hexpired) hnone
  case minimal =>
    rw [h.size, taskCount_retain]

theorem evictedFairly_recordTask (order order' : TaskOrder P) (tasks : TaskMap P) (now : ℕ)
    (taskId : String) (status : RecordedStatus P) :
    EvictedFairly now (tasks.insert taskId (status, now))
      (recordTask order order' tasks now taskId status) :=
  evictedFairly_of_capped capped_enforceCap

end Phases

end Vectorlink.Tasks
