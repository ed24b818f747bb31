import Mathlib.Algebra.GroupWithZero.Nat
import Vectorlink.Concurrent.Gauge
import Vectorlink.Concurrent.Runs
import Vectorlink.Ingest

/-! The counter of pending chunks, which all streaming pipelines of a store share. -/
namespace Vectorlink.PendingChunks

open Concurrent IngestEnv

def batchChunkCount (batchDocs : List DocToEmbed) : ℕ :=
  (batchDocs.map fun doc => doc.chunks.length).sum

/-- How far a pipeline has come, with the documents of its micro-batch. -/
inductive Stage where
  | idle
  /-- The counters are reset, the guard of the domain is not taken yet. -/
  | waiting
  | collecting (batchDocs : List DocToEmbed)
  | flushing (batchDocs : List DocToEmbed) (closed : Bool)
  | writing
  | ended
deriving DecidableEq

/-- What a pipeline does next. -/
inductive Move where
  | start
  | enter
  | push (doc : DocToEmbed)
  | flush
  | close
  | flushed
  | finish
  | fail
deriving DecidableEq

/-- The guard is held up to the end of the pipeline. -/
def Stage.guarded : Stage → Bool
  | .idle | .waiting | .ended => false
  | .collecting _ | .flushing _ _ | .writing => true

/-- The next stage, and what is done to the counter on the way. -/
def Stage.next (guardFree : Bool) : Stage → Move → Option (Stage × CounterStep)
  | .idle, .start => some (.waiting, .reset)
  | .waiting, .enter => if guardFree then some (.collecting [], .keep) else none
  | .waiting, .fail => some (.ended, .keep)
  | .collecting batchDocs, .push doc =>
    if doc.chunks ≠ [] ∧ batchDocs.length < microBatchDocs then
      some (.collecting (batchDocs ++ [doc]), .keep)
    else none
  | .collecting batchDocs, .flush =>
    if microBatchDocs ≤ batchDocs.length then
      some (.flushing batchDocs false, .add (batchChunkCount batchDocs))
    else none
  | .collecting batchDocs, .close =>
    if batchDocs.length < microBatchDocs then
      if batchDocs.isEmpty then some (.writing, .keep)
      else some (.flushing batchDocs true, .add (batchChunkCount batchDocs))
    else none
  | .collecting _, .fail => some (.ended, .keep)
  | .flushing batchDocs closed, .flushed =>
    some (if closed then .writing else .collecting [], .subtract (batchChunkCount batchDocs))
  -- a flush that is cancelled returns before it subtracts
  | .flushing _ _, .fail => some (.ended, .keep)
  | .writing, .finish => some (.ended, .reset)
  | .writing, .fail => some (.ended, .keep)
  | _, _ => none

/-- The chunks of a micro-batch are in flight from the addition to the end of the flush. -/
def Stage.inFlight : Stage → ℕ
  | .flushing batchDocs _ => batchChunkCount batchDocs
  | _ => 0

/-- The chunks that the next flush would add. -/
def Stage.collected : Stage → ℕ
  | .collecting batchDocs => batchChunkCount batchDocs
  | _ => 0

variable {ι : Type} [Fintype ι] [DecidableEq ι]

/-- The pipelines of a store, and their counter. -/
structure Pipelines (ι : Type) where
  pipelinePendingChunks : UInt64
  stage : ι → Stage

namespace Pipelines

def init : Pipelines ι := ⟨0, fun _ => .idle⟩

/-- A pipeline, and its move. -/
abbrev Action (ι : Type) := ι × Move

variable (domain : ι → String)

def guardFree (s : Pipelines ι) (p : ι) : Bool :=
  ∀ q, domain q = domain p → (s.stage q).guarded = false

def step (s : Pipelines ι) (a : Action ι) : Option (Pipelines ι) :=
  ((s.stage a.1).next (s.guardFree domain a.1) a.2).map fun next =>
    ⟨next.2.apply s.pipelinePendingChunks, Function.update s.stage a.1 next.1⟩

def inFlight (s : Pipelines ι) (p : ι) : ℕ := (s.stage p).inFlight

/-- The counter has the chunks in flight, and each of them can be taken out of it again. -/
structure CountsPending (s : Pipelines ι) : Prop where
  exact : s.pipelinePendingChunks.toNat = ∑ p, s.inFlight p
  noUnderflow : ∀ p, s.inFlight p ≤ s.pipelinePendingChunks.toNat

/-- A reset while no other pipeline has chunks in flight, an addition below the width of the
counter, and no failure between an addition and its subtraction. -/
def Sound (s : Pipelines ι) (a : Action ι) : Prop :=
  match a.2 with
  | .start | .finish => ∀ q ≠ a.1, s.inFlight q = 0
  | .flush | .close => ∑ q, s.inFlight q + (s.stage a.1).collected < 2 ^ 64
  | .fail => s.inFlight a.1 = 0
  | _ => True

instance (s : Pipelines ι) : (a : Action ι) → Decidable (s.Sound a)
  | (p, .start) => inferInstanceAs (Decidable (∀ q ≠ p, s.inFlight q = 0))
  | (p, .finish) => inferInstanceAs (Decidable (∀ q ≠ p, s.inFlight q = 0))
  | (p, .flush) =>
    inferInstanceAs (Decidable (∑ q, s.inFlight q + (s.stage p).collected < 2 ^ 64))
  | (p, .close) =>
    inferInstanceAs (Decidable (∑ q, s.inFlight q + (s.stage p).collected < 2 ^ 64))
  | (p, .fail) => inferInstanceAs (Decidable (s.inFlight p = 0))
  | (_, .enter) => .isTrue trivial
  | (_, .push _) => .isTrue trivial
  | (_, .flushed) => .isTrue trivial

end Pipelines

/-- What a move does, as far as the counter is concerned. -/
inductive Stage.Moves (st : Stage) : Move → Stage → CounterStep → Prop
  | reset {m : Move} {st' : Stage} : m = .start ∨ m = .finish → st.inFlight = 0 →
      st'.inFlight = 0 → st.Moves m st' .reset
  | add {m : Move} {st' : Stage} : m = .flush ∨ m = .close → st.inFlight = 0 →
      st'.inFlight = st.collected → st.Moves m st' (.add st.collected)
  | closeEmpty {st' : Stage} : st.inFlight = 0 → st'.inFlight = 0 → st.collected = 0 →
      st.Moves .close st' .keep
  | subtract {st' : Stage} : st'.inFlight = 0 → st.Moves .flushed st' (.subtract st.inFlight)
  | enter {st' : Stage} : st.inFlight = 0 → st'.inFlight = 0 → st.Moves .enter st' .keep
  | push {st' : Stage} (doc : DocToEmbed) : st.inFlight = 0 → st'.inFlight = 0 →
      st.Moves (.push doc) st' .keep
  | fail {st' : Stage} : st'.inFlight = 0 → st.Moves .fail st' .keep

theorem Stage.moves_of_next {st st' : Stage} {m : Move} {guardFree : Bool} {cs : CounterStep}
    (h : st.next guardFree m = some (st', cs)) : st.Moves m st' cs := by
  cases st with
  | idle =>
    cases m <;> cases h
    exact .reset (.inl rfl) rfl rfl
  | waiting =>
    cases m
    case enter =>
      rw [next, Option.ite_none_right_eq_some] at h
      cases h.2
      exact .enter rfl rfl
    case fail =>
      cases h
      exact .fail rfl
    all_goals cases h
  | collecting batchDocs =>
    cases m
    case push doc =>
      rw [next, Option.ite_none_right_eq_some] at h
      cases h.2
      exact .push doc rfl rfl
    case flush =>
      rw [next, Option.ite_none_right_eq_some] at h
      cases h.2
      exact .add (.inl rfl) rfl rfl
    case close =>
      rw [next, Option.ite_none_right_eq_some] at h
      obtain ⟨_, h⟩ := h
      split at h
      case isTrue hempty =>
        cases h
        rw [List.isEmpty_iff] at hempty
        subst hempty
        exact .closeEmpty rfl rfl rfl
      case isFalse =>
        cases h
        exact .add (.inr rfl) rfl rfl
    case fail =>
      cases h
      exact .fail rfl
    all_goals cases h
  | flushing batchDocs closed =>
    cases m
    case flushed =>
      cases h
      apply Stage.Moves.subtract
      cases closed <;> rfl
    case fail =>
      cases h
      exact .fail rfl
    all_goals cases h
  | writing =>
    cases m
    case finish =>
      cases h
      exact .reset (.inr rfl) rfl rfl
    case fail =>
      cases h
      exact .fail rfl
    all_goals cases h
  | ended => cases m <;> cases h

namespace Pipelines

section Steps

variable {domain : ι → String} {s t : Pipelines ι} {as : List (Action ι)}

omit [Fintype ι] in
theorem inFlight_update_self (c : UInt64) (p : ι) (st : Stage) :
    inFlight ⟨c, Function.update s.stage p st⟩ p = st.inFlight := by
  show (Function.update s.stage p st p).inFlight = st.inFlight
  rw [Function.update_self]

omit [Fintype ι] in
theorem inFlight_update_ne (c : UInt64) (st : Stage) {p q : ι} (h : q ≠ p) :
    inFlight ⟨c, Function.update s.stage p st⟩ q = s.inFlight q := by
  show (Function.update s.stage p st q).inFlight = (s.stage q).inFlight
  rw [Function.update_of_ne h]

theorem countsPending_iff : s.CountsPending ↔ Gauges s.pipelinePendingChunks s.inFlight := by
  constructor
  · intro h
    exact h.exact
  · intro h
    exact ⟨h, h.le⟩

omit [DecidableEq ι] in
theorem gauges_init : Gauges (init : Pipelines ι).pipelinePendingChunks
    (init : Pipelines ι).inFlight := by
  show (0 : UInt64).toNat = ∑ _ : ι, 0
  rw [Finset.sum_const_zero]
  rfl

/-- The counter is right after a step just if the step is sound. -/
theorem gauges_step_iff (a : Action ι) (h : Gauges s.pipelinePendingChunks s.inFlight)
    (hstep : s.step domain a = some t) :
    Gauges t.pipelinePendingChunks t.inFlight ↔ s.Sound a := by
  obtain ⟨p, m⟩ := a
  obtain ⟨⟨st', cs⟩, hnext, rfl⟩ := Option.map_eq_some_iff.mp hstep
  have hmoves := Stage.moves_of_next hnext
  have hothers := fun q => inFlight_update_ne (s := s) (cs.apply s.pipelinePendingChunks) st'
    (p := p) (q := q)
  have hself := inFlight_update_self (s := s) (cs.apply s.pipelinePendingChunks) p st'
  have hidle (hcs : cs = .keep) (hold : (s.stage p).inFlight = 0) (hnew : st'.inFlight = 0) :
      Gauges s.pipelinePendingChunks
        (inFlight ⟨cs.apply s.pipelinePendingChunks, Function.update s.stage p st'⟩) := by
    subst hcs
    apply (h.keep_iff hothers).mpr
    rw [hself, hnew, inFlight, hold]
  cases hmoves with
  | reset hm hold hnew =>
    have hreset := gauges_reset_iff hothers
    rw [hself, hnew] at hreset
    cases hm with
    | inl hm =>
      subst hm
      exact hreset.trans (and_iff_right rfl)
    | inr hm =>
      subst hm
      exact hreset.trans (and_iff_right rfl)
  | add hm hold hnew =>
    have hadd := h.add_iff hothers hold (hself.trans hnew)
    cases hm with
    | inl hm =>
      subst hm
      exact hadd
    | inr hm =>
      subst hm
      exact hadd
  | closeEmpty hold hnew hempty =>
    apply iff_of_true
    · exact hidle rfl hold hnew
    · show ∑ q, s.inFlight q + (s.stage p).collected < 2 ^ 64
      have hnone : (s.stage p).collected = 0 := hempty
      have hsum : s.pipelinePendingChunks.toNat = ∑ q, s.inFlight q := h
      have hlt := s.pipelinePendingChunks.toNat_lt
      omega
  | subtract hnew =>
    apply iff_of_true
    · exact h.subtract hothers rfl (hself.trans hnew)
    · trivial
  | enter hold hnew =>
    apply iff_of_true
    · exact hidle rfl hold hnew
    · trivial
  | push doc hold hnew =>
    apply iff_of_true
    · exact hidle rfl hold hnew
    · trivial
  | fail hnew =>
    have hkeep := h.keep_iff hothers
    rw [hself, hnew] at hkeep
    exact hkeep.trans eq_comm

/-- The counter is right throughout a run just if every step of it is sound. -/
theorem countsPending_throughout_iff (hexec : exec (step domain) init as = some t) :
    Throughout (step domain) CountsPending init as ↔ Allowed (step domain) Sound init as := by
  apply throughout_iff_allowed _ _ hexec
  · exact countsPending_iff.mpr gauges_init
  · intro s a u hs hstep
    rw [countsPending_iff]
    exact gauges_step_iff a (countsPending_iff.mp hs) hstep

/-- Two pipelines that do not overlap. -/
theorem countsPending_oneAfterAnother :
    let domain (p : Bool) : String := if p then "b" else "a"
    let doc : DocToEmbed := ⟨"a/Doc/1", [⟨0, 2, 0, 9, "x"⟩, ⟨1, 2, 5, 9, "y"⟩], false⟩
    let run (p : Bool) : List (Action Bool) :=
      [(p, .start), (p, .enter), (p, .push doc), (p, .close), (p, .flushed), (p, .finish)]
    (exec (step domain) init (run false ++ run true)).isSome ∧
      Throughout (step domain) CountsPending init (run false ++ run true) :=
  ⟨by decide +kernel, (countsPending_throughout_iff rfl).mpr (by decide +kernel)⟩

/-- The second pipeline resets the counter while the first one has three chunks in it. -/
theorem not_countsPending_reset :
    let domain (p : Bool) : String := if p then "b" else "a"
    let chunks : List Chunk := [⟨0, 3, 0, 9, "x"⟩, ⟨1, 3, 3, 9, "y"⟩, ⟨2, 3, 6, 9, "z"⟩]
    let run : List (Action Bool) := [(false, .start), (false, .enter),
      (false, .push ⟨"a/Doc/1", chunks, false⟩), (false, .close), (true, .start),
      (false, .flushed)]
    ∃ t, exec (step domain) init run = some t ∧ t.pipelinePendingChunks.toNat = 2 ^ 64 - 3 ∧
      ∑ p, t.inFlight p = 0 ∧ ¬Throughout (step domain) CountsPending init run := by
  intro domain chunks run
  refine ⟨_, rfl, by decide +kernel, by decide +kernel, ?_⟩
  intro h
  have hlast := (h run [] _ (List.append_nil run).symm rfl).exact
  revert hlast
  decide +kernel

end Steps

end Pipelines

end Vectorlink.PendingChunks
