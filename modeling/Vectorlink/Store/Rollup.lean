import Vectorlink.Kernel
import Vectorlink.Positional.Deltas
import Vectorlink.Stepwise.Program

/-! Roll-up of the deltas of an index. The entries are kept newest first, each with the number of
pushes it holds: a push that indexes adds an entry, a merge makes one entry of the newest ones. -/
namespace Vectorlink

open Stepwise Stepwise.Program Positional

/-- The calls into Lance, each of which may fail. -/
inductive RollupCall where
  | loadBefore
  | load (i : ℕ)
  | merge (i : ℕ)
  | loadAfter
deriving DecidableEq, Repr

/-- A failure without an error is a panic. -/
abbrev Rollup (α : Type) := Program RollupCall (List ℕ) (Option StoreError) α

section Calls

variable (fails : RollupCall → Bool)

def loadIndices (call : RollupCall) (context : String) : Rollup ℕ :=
  look fun entries =>
    if fails call then .error (some (.internal context (some .io))) else .ok entries.length

/-- `optimize_indices(merge(size))`. -/
def optimizeIndices (call : RollupCall) (context : String) (size : ℕ) : Rollup Unit :=
  step call fun entries =>
    if fails call then .error (some (.internal context (some .io)))
    else .ok (mergeNewest size entries)

end Calls

section Cascade

/-- `while n > 0 && n.is_multiple_of(3) { count += 1; n /= 3 }`. -/
def mergesLoop (count n : ℕ) : ℕ :=
  if 0 < n ∧ n % 3 = 0 then mergesLoop (count + 1) (n / 3) else count
termination_by n

def mergesNeeded (deltaCount : ℕ) : ℕ := mergesLoop 0 deltaCount

variable (fails : RollupCall → Bool)

/-- The rounds from `i` on, of which `left` are left. -/
def cascadeLoop (i : ℕ) : (left : ℕ) → Rollup Unit
  | 0 => pure ()
  | left + 1 => do
    let count ← loadIndices fails (.load i) "load indices in cascade failed"
    if count < 3 then pure ()
    else do
      optimizeIndices fails (.merge i) "cascade merge(3) failed" 3
      cascadeLoop (i + 1) left

def ioIncrementalCascade (deltaCount : ℕ) : Rollup (ℕ × ℕ) := do
  let countBefore ← loadIndices fails .loadBefore "load indices failed"
  if mergesNeeded deltaCount = 0 then pure (countBefore, countBefore)
  else do
    cascadeLoop fails 0 (mergesNeeded deltaCount)
    let countAfter ← loadIndices fails .loadAfter "load indices after cascade failed"
    pure (countBefore, countAfter)

/-- The deltas of an index and how many of them were counted since the last compaction. -/
structure DeltaState where
  entries : List ℕ
  deltaCount : ℕ

/-- A push at an indexing position. A cascade that fails is not reported. -/
def indexingPush (s : DeltaState) : DeltaState :=
  let deltaCount := s.deltaCount + 1
  ⟨(ioIncrementalCascade fails deltaCount (1 :: s.entries)).store, deltaCount⟩

end Cascade

/-- Every call into Lance succeeds. -/
def quiet : RollupCall → Bool := fun _ => false

section BaseThree

/-- The entries spell a number in base 3, the newest ones in the lowest place. -/
structure BaseThree (n : ℕ) (entries : List ℕ) : Prop where
  digit : ∀ j, entries.count (3 ^ j) = (Nat.digits 3 n).getD j 0
  power : ∀ w ∈ entries, ∃ j, w = 3 ^ j
  order : entries.Pairwise (· ≤ ·)
  few : entries.length ≤ 2 * (Nat.log 3 n + 1)

theorem baseThree_spell (n : ℕ) : BaseThree n (spell 3 n) where
  digit j := by
    have hcount := count_levels (b := 3) (by decide) Nat.one_pos (Nat.digits 3 n) j
    rwa [Nat.one_mul] at hcount
  power w hw := by
    obtain ⟨j, hj⟩ := mem_levels hw
    exact ⟨j, by rw [hj, Nat.one_mul]⟩
  order := sorted_levels (by decide) 1 _
  few := length_spell_le (by decide) n

theorem mergesLoop_of_dvd {n : ℕ} (h : 0 < n ∧ n % 3 = 0) (count : ℕ) :
    mergesLoop count n = mergesLoop (count + 1) (n / 3) := by
  rw [mergesLoop, if_pos h]

theorem mergesLoop_of_not_dvd {n : ℕ} (h : ¬(0 < n ∧ n % 3 = 0)) (count : ℕ) :
    mergesLoop count n = count := by
  rw [mergesLoop, if_neg h]

theorem mergesLoop_add (count n : ℕ) : mergesLoop count n = count + mergesLoop 0 n := by
  induction n using Nat.strong_induction_on generalizing count with
  | _ n ih =>
    by_cases h : 0 < n ∧ n % 3 = 0
    · have hlt : n / 3 < n := Nat.div_lt_self h.1 (by decide)
      rw [mergesLoop_of_dvd h, mergesLoop_of_dvd h, ih _ hlt (count + 1), ih _ hlt (0 + 1)]
      omega
    · rw [mergesLoop_of_not_dvd h, mergesLoop_of_not_dvd h]
      rfl

theorem mergesNeeded_of_carry {n : ℕ} (h : n % 3 + 1 = 3) :
    mergesNeeded (n + 1) = mergesNeeded (n / 3 + 1) + 1 := by
  have hdvd : 0 < n + 1 ∧ (n + 1) % 3 = 0 := by omega
  have hdiv : (n + 1) / 3 = n / 3 + 1 := by omega
  rw [mergesNeeded, mergesLoop_of_dvd hdvd, hdiv, mergesLoop_add, mergesNeeded]
  omega

theorem mergesNeeded_of_lt {n : ℕ} (h : n % 3 + 1 < 3) : mergesNeeded (n + 1) = 0 := by
  have hnot : ¬(0 < n + 1 ∧ (n + 1) % 3 = 0) := by omega
  rw [mergesNeeded, mergesLoop_of_not_dvd hnot]

theorem loadIndices_quiet (call : RollupCall) (context : String) (entries : List ℕ) :
    loadIndices quiet call context entries = ⟨[], entries, .ok entries.length⟩ := rfl

theorem optimizeIndices_quiet (call : RollupCall) (context : String) (size : ℕ)
    (entries : List ℕ) : optimizeIndices quiet call context size entries =
      ⟨[(call, mergeNewest size entries)], mergeNewest size entries, .ok ()⟩ := rfl

/-- A round with enough entries merges and goes on. -/
theorem cascadeLoop_succ {i left : ℕ} {entries : List ℕ} (h : 3 ≤ entries.length) :
    cascadeLoop quiet i (left + 1) entries =
      ⟨(.merge i, mergeNewest 3 entries) ::
          (cascadeLoop quiet (i + 1) left (mergeNewest 3 entries)).trace,
        (cascadeLoop quiet (i + 1) left (mergeNewest 3 entries)).store,
        (cascadeLoop quiet (i + 1) left (mergeNewest 3 entries)).result⟩ := by
  rw [cascadeLoop, bind_run_ok (loadIndices_quiet _ _ entries), if_neg (by omega),
    bind_run_ok (optimizeIndices_quiet _ _ 3 entries)]
  rfl

/-- The carry, from the place of weight `w` on: as many merges as the new number has factors
of 3, and none of them is stopped by the guard. -/
theorem cascadeLoop_carry (old : List ℕ) (n w i : ℕ) :
    (cascadeLoop quiet i (mergesNeeded (n + 1))
        (w :: (levels 3 w (Nat.digits 3 n) ++ old))).store =
      levels 3 w (Nat.digits 3 (n + 1)) ++ old ∧
    (cascadeLoop quiet i (mergesNeeded (n + 1))
        (w :: (levels 3 w (Nat.digits 3 n) ++ old))).trace.length = mergesNeeded (n + 1) ∧
    (cascadeLoop quiet i (mergesNeeded (n + 1))
        (w :: (levels 3 w (Nat.digits 3 n) ++ old))).result = .ok () := by
  induction n using Nat.strong_induction_on generalizing w i with
  | _ n ih =>
    rcases Nat.lt_or_eq_of_le (Nat.mod_lt n (by decide : 0 < 3)) with hlt | hcarry
    · rw [mergesNeeded_of_lt hlt, ← List.cons_append, cons_levels_of_lt (by decide) w hlt]
      exact ⟨rfl, rfl, rfl⟩
    · have hless : n / 3 < n := by
        refine Nat.div_lt_self ?_ (by decide)
        have hmod := Nat.mod_le n 3
        omega
      obtain ⟨hstore, htrace, hresult⟩ := ih (n / 3) hless (w * 3) (i + 1)
      rw [mergesNeeded_of_carry hcarry,
        cascadeLoop_succ (le_length_of_carry (by decide) w hcarry old),
        mergeNewest_of_carry (by decide) w hcarry old]
      refine ⟨?_, ?_, hresult⟩
      · rw [hstore, levels_of_carry (by decide) w hcarry]
      · rw [List.length_cons, htrace]

theorem ioIncrementalCascade_quiet (deltaCount : ℕ) (entries : List ℕ)
    (h : (cascadeLoop quiet 0 (mergesNeeded deltaCount) entries).result = .ok ()) :
    ioIncrementalCascade quiet deltaCount entries =
      ⟨(cascadeLoop quiet 0 (mergesNeeded deltaCount) entries).trace,
        (cascadeLoop quiet 0 (mergesNeeded deltaCount) entries).store,
        .ok (entries.length,
          (cascadeLoop quiet 0 (mergesNeeded deltaCount) entries).store.length)⟩ := by
  unfold ioIncrementalCascade
  rw [bind_run_ok (loadIndices_quiet _ _ entries)]
  by_cases hzero : mergesNeeded deltaCount = 0
  · rw [if_pos hzero, hzero]
    rfl
  · rw [if_neg hzero]
    rcases hloop : cascadeLoop quiet 0 (mergesNeeded deltaCount) entries with ⟨trace, store, result⟩
    rw [hloop] at h
    obtain rfl : result = .ok () := h
    rw [bind_run_ok hloop, bind_run_ok (loadIndices_quiet _ _ store)]
    simp

/-- What `n` pushes at indexing positions leave of an index whose deltas were not counted yet. -/
def pushed (old : List ℕ) (n : ℕ) : DeltaState := (indexingPush quiet)^[n] ⟨old, 0⟩

theorem pushed_eq (old : List ℕ) (n : ℕ) : pushed old n = ⟨spell 3 n ++ old, n⟩ := by
  induction n with
  | zero => simp [pushed, spell, levels]
  | succ n ih =>
    have hnext : pushed old (n + 1) = indexingPush quiet (pushed old n) :=
      Function.iterate_succ_apply' _ _ _
    obtain ⟨hstore, -, hresult⟩ := cascadeLoop_carry old n 1 0
    rw [hnext, ih, indexingPush]
    dsimp only
    rw [spell, ioIncrementalCascade_quiet _ _ hresult, hstore, spell]

/-- After every push the entries above the older ones spell the number of pushes in base 3, and
the next cascade makes all the merges it needs. -/
theorem pushed_baseThree (old : List ℕ) (n : ℕ) :
    (∃ new, (pushed old n).entries = new ++ old ∧ BaseThree n new) ∧
    (pushed old n).deltaCount = n ∧
    (ioIncrementalCascade quiet (n + 1) (1 :: (pushed old n).entries)).trace.length =
      mergesNeeded (n + 1) := by
  rw [pushed_eq]
  obtain ⟨-, htrace, hresult⟩ := cascadeLoop_carry old n 1 0
  refine ⟨⟨spell 3 n, rfl, baseThree_spell n⟩, rfl, ?_⟩
  dsimp only
  rw [spell, ioIncrementalCascade_quiet _ _ hresult, htrace]

end BaseThree

end Vectorlink
