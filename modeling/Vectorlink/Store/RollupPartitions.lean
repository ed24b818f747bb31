import Vectorlink.Positional.Greedy
import Vectorlink.Store.Rollup

/-! Exponential roll-up: the deltas of an index are cut into intervals whose sizes are powers of
the base, and merged in groups of these sizes, the smallest first. -/
namespace Vectorlink

open Stepwise Stepwise.Program Positional

section Model

/-- The loops end if they are given enough fuel; an overflow of a `usize` is a panic. -/
def ilogLoop (base : ℕ) : (fuel val exp : ℕ) → Option ℕ
  | 0, _, _ => none
  | fuel + 1, val, exp =>
    if base ≤ val then ilogLoop base fuel (val / base) (exp + 1) else some exp

def ilog (fuel n base : ℕ) : Option ℕ :=
  if n < base then some 0 else ilogLoop base fuel n 0

def usize (n : ℕ) : Option ℕ := if n < 2 ^ 64 then some n else none

def partitionLoop (base : ℕ) : (fuel offset remaining : ℕ) → Option (List (ℕ × ℕ))
  | 0, _, _ => none
  | fuel + 1, offset, remaining =>
    if base ≤ remaining then do
      let exp ← ilog (fuel + 1) remaining base
      let size ← usize (base ^ exp)
      let next ← usize (offset + size)
      let rest ← partitionLoop base fuel next (remaining - size)
      pure ((offset, next - 1) :: rest)
    else some []

def rollupPartitions (fuel total base : ℕ) : Option (List (ℕ × ℕ)) :=
  if total < base then some [] else partitionLoop base fuel 0 total

def partitionSize (p : ℕ × ℕ) : ℕ := p.2 - p.1 + 1

variable (fails : RollupCall → Bool)

def mergePartitions : (i : ℕ) → List (ℕ × ℕ) → Rollup Unit
  | _, [] => pure ()
  | i, p :: ps => do
    optimizeIndices fails (.merge i) s!"rollup merge({partitionSize p}) failed" (partitionSize p)
    mergePartitions (i + 1) ps

def ioExponentialRollup (fuel base : ℕ) : Rollup (ℕ × ℕ) := do
  let countBefore ← loadIndices fails .loadBefore "load indices failed"
  if countBefore = 0 then pure (0, 0)
  else
    match rollupPartitions fuel countBefore base with
    | none => fail none
    | some [] => pure (countBefore, countBefore)
    | some (p :: ps) => do
      mergePartitions fails 0 (p :: ps).reverse
      let countAfter ← loadIndices fails .loadAfter "load indices after rollup failed"
      pure (countBefore, countAfter)

end Model

section Spec

/-- `positions/4`: the first interval has the size of the largest power that fits, the others are
those of the rest, shifted. -/
def positions (base length : ℕ) : List (ℕ × ℕ) :=
  if 1 < base ∧ base ≤ length then
    (0, base ^ Nat.log base length - 1) ::
      if base ^ Nat.log base length < length then
        (positions base (length - base ^ Nat.log base length)).map fun p =>
          (p.1 + base ^ Nat.log base length, p.2 + base ^ Nat.log base length)
      else []
  else []
termination_by length
decreasing_by
  have hpow : 0 < base ^ Nat.log base length := Nat.pow_pos (by omega)
  omega

/-- Each interval starts where the one before it ends. -/
def ContiguousFrom : ℕ → List (ℕ × ℕ) → Prop
  | _, [] => True
  | start, p :: ps => p.1 = start ∧ start ≤ p.2 ∧ ContiguousFrom (p.2 + 1) ps

def covered (ps : List (ℕ × ℕ)) : ℕ := (ps.map partitionSize).sum

structure Tiles (total base : ℕ) (ps : List (ℕ × ℕ)) : Prop where
  contiguous : ContiguousFrom 0 ps
  power : ∀ p ∈ ps, ∃ e, 1 ≤ e ∧ partitionSize p = base ^ e
  order : (ps.map partitionSize).Pairwise (· ≥ ·)
  few : ∀ size, (ps.map partitionSize).count size < base
  within : covered ps ≤ total
  rest : total - covered ps < base
  recursion : ps = positions base total

end Spec

section Partitions

variable {base : ℕ}

/-- Intervals of the given sizes, one after the other. -/
def layout : ℕ → List ℕ → List (ℕ × ℕ)
  | _, [] => []
  | offset, size :: sizes => (offset, offset + size - 1) :: layout (offset + size) sizes

theorem ilogLoop_eq (hbase : 1 < base) {fuel val : ℕ} (hfuel : val < fuel) (exp : ℕ) :
    ilogLoop base fuel val exp = some (exp + Nat.log base val) := by
  induction fuel generalizing val exp with
  | zero => omega
  | succ fuel ih =>
    rw [ilogLoop]
    split
    · rename_i h
      have hless : val / base < val := Nat.div_lt_self (by omega) hbase
      rw [ih (by omega), Nat.log_of_one_lt_of_le hbase h]
      congr 1
      omega
    · rename_i h
      rw [Nat.log_of_lt (by omega), Nat.add_zero]

theorem ilog_eq (hbase : 1 < base) {fuel n : ℕ} (hfuel : n < fuel) :
    ilog fuel n base = some (Nat.log base n) := by
  unfold ilog
  split
  · rename_i h
    rw [Nat.log_of_lt h]
  · rw [ilogLoop_eq hbase hfuel, Nat.zero_add]

theorem usize_eq {n : ℕ} (h : n < 2 ^ 64) : usize n = some n := if_pos h

/-- The loop lays out the greedy parts, without an overflow. -/
theorem partitionLoop_eq (hbase : 1 < base) {fuel offset remaining : ℕ} (hfuel : remaining < fuel)
    (hfits : offset + remaining < 2 ^ 64) :
    partitionLoop base fuel offset remaining = some (layout offset (greedy base remaining)) := by
  induction fuel generalizing offset remaining with
  | zero => omega
  | succ fuel ih =>
    rw [partitionLoop]
    split
    · rename_i h
      have hle := pow_log_le hbase h
      have hpos := pow_log_pos hbase remaining
      rw [ilog_eq hbase hfuel, Option.bind_eq_bind, Option.bind_some, usize_eq (by omega),
        Option.bind_some, usize_eq (by omega), Option.bind_some, ih (by omega) (by omega),
        greedy_of_le hbase h]
      rfl
    · rename_i h
      rw [greedy_of_lt (by omega)]
      rfl

theorem rollupPartitions_eq (hbase : 1 < base) {fuel total : ℕ} (hfuel : total < fuel)
    (hfits : total < 2 ^ 64) :
    rollupPartitions fuel total base = some (layout 0 (greedy base total)) := by
  unfold rollupPartitions
  split
  · rename_i h
    rw [greedy_of_lt h]
    rfl
  · exact partitionLoop_eq hbase hfuel (by omega)

theorem map_size_layout {sizes : List ℕ} (hpos : ∀ k ∈ sizes, 1 ≤ k) (offset : ℕ) :
    (layout offset sizes).map partitionSize = sizes := by
  induction sizes generalizing offset with
  | nil => rfl
  | cons k sizes ih =>
    have hk := hpos k List.mem_cons_self
    rw [layout, List.map_cons, ih fun x hx => hpos x (List.mem_cons_of_mem _ hx)]
    congr 1
    unfold partitionSize
    dsimp only
    omega

theorem contiguous_layout {sizes : List ℕ} (hpos : ∀ k ∈ sizes, 1 ≤ k) (offset : ℕ) :
    ContiguousFrom offset (layout offset sizes) := by
  induction sizes generalizing offset with
  | nil => trivial
  | cons k sizes ih =>
    have hk := hpos k List.mem_cons_self
    have hrest := ih (fun x hx => hpos x (List.mem_cons_of_mem _ hx)) (offset + k)
    have hnext : offset + k - 1 + 1 = offset + k := by omega
    refine ⟨rfl, ?_, ?_⟩
    · dsimp only
      omega
    · dsimp only
      rwa [hnext]

theorem layout_shift {sizes : List ℕ} (hpos : ∀ k ∈ sizes, 1 ≤ k) (offset shift : ℕ) :
    layout (offset + shift) sizes =
      (layout offset sizes).map fun p => (p.1 + shift, p.2 + shift) := by
  induction sizes generalizing offset with
  | nil => rfl
  | cons k sizes ih =>
    have hk := hpos k List.mem_cons_self
    have hrest := ih (fun x hx => hpos x (List.mem_cons_of_mem _ hx)) (offset + k)
    rw [layout, layout, List.map_cons, ← hrest]
    congr 1
    · congr 1
      dsimp only
      omega
    · congr 1
      omega

theorem one_le_of_mem_greedy (hbase : 1 < base) {total k : ℕ} (h : k ∈ greedy base total) :
    1 ≤ k := by
  obtain ⟨e, -, -, rfl⟩ := mem_greedy hbase h
  exact Nat.pow_pos (by omega)

theorem layout_eq_positions (hbase : 1 < base) (total : ℕ) :
    layout 0 (greedy base total) = positions base total := by
  induction total using Nat.strong_induction_on with
  | _ total ih =>
    rw [positions]
    split
    · rename_i h
      have hpos := pow_log_pos hbase total
      have hless : total - base ^ Nat.log base total < total := by omega
      rw [greedy_of_le hbase h.2, layout, Nat.zero_add,
        ← Nat.zero_add (base ^ Nat.log base total),
        layout_shift fun k hk => one_le_of_mem_greedy hbase hk, Nat.zero_add, ih _ hless]
      congr 1
      split
      · rfl
      · rename_i hall
        have hzero : total - base ^ Nat.log base total = 0 := by omega
        rw [hzero, positions, if_neg (by omega)]
        rfl
    · rename_i h
      rw [greedy_of_lt (by omega)]
      rfl

theorem tiles_layout (hbase : 1 < base) (total : ℕ) :
    Tiles total base (layout 0 (greedy base total)) := by
  have hpos : ∀ k ∈ greedy base total, 1 ≤ k := fun k hk => one_le_of_mem_greedy hbase hk
  have hsizes := map_size_layout hpos 0
  refine ⟨contiguous_layout hpos 0, ?_, ?_, ?_, ?_, ?_, layout_eq_positions hbase total⟩
  · intro p hp
    have hmem := List.mem_map_of_mem (f := partitionSize) hp
    rw [hsizes] at hmem
    obtain ⟨e, he, -, hsize⟩ := mem_greedy hbase hmem
    exact ⟨e, he, hsize⟩
  · rw [hsizes]
    exact sorted_greedy hbase total
  · intro size
    rw [hsizes]
    exact count_greedy_lt hbase total size
  · rw [covered, hsizes]
    exact sum_greedy_le hbase total
  · rw [covered, hsizes]
    exact sub_sum_greedy_lt hbase total

end Partitions

section Rollup

variable {base : ℕ}

theorem mergePartitions_quiet (i : ℕ) (ps : List (ℕ × ℕ)) (entries : List ℕ) :
    (mergePartitions quiet i ps entries).store = mergeAll entries (ps.map partitionSize) ∧
      (mergePartitions quiet i ps entries).result = .ok () := by
  induction ps generalizing i entries with
  | nil => exact ⟨rfl, rfl⟩
  | cons p ps ih =>
    rw [mergePartitions, bind_run_ok (optimizeIndices_quiet _ _ (partitionSize p) entries)]
    exact ih (i + 1) (mergeNewest (partitionSize p) entries)

/-- The roll-up leaves what the merges leave, in the order opposite to the intervals. -/
theorem ioExponentialRollup_quiet {fuel : ℕ} {entries : List ℕ} {ps : List (ℕ × ℕ)}
    (hps : rollupPartitions fuel entries.length base = some ps)
    (hnil : entries = [] → ps = []) :
    (ioExponentialRollup quiet fuel base entries).store =
        mergeAll entries (ps.reverse.map partitionSize) ∧
      (ioExponentialRollup quiet fuel base entries).result =
        .ok (entries.length, (mergeAll entries (ps.reverse.map partitionSize)).length) := by
  unfold ioExponentialRollup
  rw [bind_run_ok (loadIndices_quiet _ _ entries)]
  by_cases hempty : entries.length = 0
  · have hentries := List.eq_nil_of_length_eq_zero hempty
    rw [if_pos hempty, hnil hentries, hentries]
    exact ⟨rfl, rfl⟩
  · rw [if_neg hempty, hps]
    cases ps with
    | nil => exact ⟨rfl, rfl⟩
    | cons p ps =>
      obtain ⟨hstore, hresult⟩ := mergePartitions_quiet 0 (p :: ps).reverse entries
      rcases hrun : mergePartitions quiet 0 (p :: ps).reverse entries with ⟨trace, store, result⟩
      rw [hrun] at hstore hresult
      dsimp only at hstore hresult
      subst hstore hresult
      dsimp only
      rw [bind_run_ok hrun, bind_run_ok (loadIndices_quiet _ _ _)]
      exact ⟨rfl, rfl⟩

/-- The roll-up cuts the entries as `positions/4` does, with powers of the base, and its merges
leave one entry for each interval besides those that are left uncovered. -/
theorem rollup_tiles (total base : ℕ) (hbase : 2 ≤ base) (htotal : total < 2 ^ 64) :
    ∃ ps, rollupPartitions (total + 1) total base = some ps ∧ Tiles total base ps ∧
      ∀ entries : List ℕ, entries.length = total →
        (ioExponentialRollup quiet (total + 1) base entries).result =
            .ok (total, ps.length + (total - covered ps)) ∧
          (ioExponentialRollup quiet (total + 1) base entries).store.length =
            ps.length + (total - covered ps) ∧
          (ioExponentialRollup quiet (total + 1) base entries).store.sum = entries.sum := by
  have htiles := tiles_layout hbase total
  have hps := rollupPartitions_eq hbase (Nat.lt_succ_self total) htotal
  refine ⟨_, hps, htiles, ?_⟩
  rintro entries rfl
  have hnil : entries = [] → layout 0 (greedy base entries.length) = [] := by
    rintro rfl
    rw [List.length_nil, greedy_of_lt (by omega)]
    rfl
  obtain ⟨hstore, hresult⟩ := ioExponentialRollup_quiet hps hnil
  have hsizes : (layout 0 (greedy base entries.length)).map partitionSize =
      greedy base entries.length :=
    map_size_layout (fun k hk => one_le_of_mem_greedy hbase hk) 0
  have hsum : ((layout 0 (greedy base entries.length)).reverse.map partitionSize).sum =
      covered (layout 0 (greedy base entries.length)) := by
    rw [List.map_reverse, List.sum_reverse, covered]
  have hpos : ∀ k ∈ (layout 0 (greedy base entries.length)).reverse.map partitionSize, 1 ≤ k := by
    intro k hk
    rw [List.map_reverse, List.mem_reverse, hsizes] at hk
    exact one_le_of_mem_greedy hbase hk
  have hwithin := htiles.within
  have hlength := length_mergeAll hpos (by rw [hsum]; exact hwithin)
  rw [hsum, List.length_map, List.length_reverse] at hlength
  have hcount : (mergeAll entries
      ((layout 0 (greedy base entries.length)).reverse.map partitionSize)).length =
        (layout 0 (greedy base entries.length)).length +
          (entries.length - covered (layout 0 (greedy base entries.length))) := by
    omega
  rw [hstore, hresult, hcount, sum_mergeAll]
  exact ⟨rfl, rfl, rfl⟩

/-- Thirteen deltas in base three: nine, three and one. -/
theorem rollup_tiles_thirteen : ∃ ps, rollupPartitions 14 13 3 = some ps ∧ Tiles 13 3 ps :=
  let ⟨ps, hps, htiles, _⟩ := rollup_tiles 13 3 (by decide) (by decide)
  ⟨ps, hps, htiles⟩

end Rollup

end Vectorlink
