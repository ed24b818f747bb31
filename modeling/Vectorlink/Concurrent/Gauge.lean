import Mathlib.Algebra.Order.BigOperators.Group.Finset
import Mathlib.Data.Fintype.BigOperators

/-! A counter of 64 bits that several parties share, and the sum of what they hold. -/
namespace Concurrent

open Finset

/-- What a party does to the counter. -/
inductive CounterStep where
  | keep
  | reset
  | add (n : ℕ)
  | subtract (n : ℕ)
deriving DecidableEq, Repr

def CounterStep.apply (c : UInt64) : CounterStep → UInt64
  | .keep => c
  | .reset => 0
  | .add n => c + UInt64.ofNat n
  | .subtract n => c - UInt64.ofNat n

variable {ι : Type} [Fintype ι]

/-- The counter is the sum of what the parties hold. -/
def Gauges (c : UInt64) (held : ι → ℕ) : Prop := c.toNat = ∑ p, held p

instance (c : UInt64) (held : ι → ℕ) : Decidable (Gauges c held) :=
  inferInstanceAs (Decidable (_ = _))

variable [DecidableEq ι] {c : UInt64} {held held' : ι → ℕ} {p : ι}

/-- What the parties other than `p` hold. -/
def others (held : ι → ℕ) (p : ι) : ℕ := ∑ q ∈ univ.erase p, held q

theorem sum_eq_add_others (held : ι → ℕ) (p : ι) : ∑ q, held q = held p + others held p :=
  (add_sum_erase univ held (mem_univ p)).symm

theorem others_congr (h : ∀ q ≠ p, held' q = held q) : others held' p = others held p := by
  apply sum_congr rfl
  intro q hq
  exact h q (ne_of_mem_erase hq)

theorem others_eq_zero_iff : others held p = 0 ↔ ∀ q ≠ p, held q = 0 := by
  rw [others, sum_eq_zero_iff]
  constructor
  · intro h q hq
    exact h q (mem_erase.mpr ⟨hq, mem_univ q⟩)
  · intro h q hq
    exact h q (ne_of_mem_erase hq)

/-- Nobody can take out more than the counter has. -/
theorem Gauges.le (h : Gauges c held) (p : ι) : held p ≤ c.toNat := by
  rw [h, sum_eq_add_others held p]
  exact Nat.le_add_right _ _

section Steps

variable (h : Gauges c held) (hothers : ∀ q ≠ p, held' q = held q)

include h hothers

theorem Gauges.keep_iff : Gauges c held' ↔ held' p = held p := by
  unfold Gauges at h ⊢
  rw [h, sum_eq_add_others held p, sum_eq_add_others held' p, others_congr hothers]
  omega

omit h in
theorem gauges_reset_iff : Gauges 0 held' ↔ held' p = 0 ∧ ∀ q ≠ p, held q = 0 := by
  have hzero : (0 : UInt64).toNat = 0 := rfl
  unfold Gauges
  rw [hzero, sum_eq_add_others held' p, others_congr hothers, ← others_eq_zero_iff]
  omega

theorem Gauges.add_iff {n : ℕ} (hold : held p = 0) (hnew : held' p = n) :
    Gauges (c + UInt64.ofNat n) held' ↔ ∑ q, held q + n < 2 ^ 64 := by
  have hsum : ∑ q, held' q = ∑ q, held q + n := by
    rw [sum_eq_add_others held p, sum_eq_add_others held' p, others_congr hothers]
    omega
  have hadd : (c + UInt64.ofNat n).toNat = (∑ q, held q + n) % 2 ^ 64 := by
    rw [UInt64.toNat_add, UInt64.toNat_ofNat', Nat.add_mod_mod, h]
  unfold Gauges
  rw [hadd, hsum]
  constructor
  · intro heq
    have hlt := Nat.mod_lt (∑ q, held q + n) (by omega : 0 < 2 ^ 64)
    omega
  · intro hlt
    exact Nat.mod_eq_of_lt hlt

theorem Gauges.subtract {n : ℕ} (hold : held p = n) (hnew : held' p = 0) :
    Gauges (c - UInt64.ofNat n) held' := by
  have hle := h.le p
  have hlt := c.toNat_lt
  have hn : (UInt64.ofNat n).toNat = n := by
    rw [UInt64.toNat_ofNat']
    apply Nat.mod_eq_of_lt
    omega
  have hsub : (c - UInt64.ofNat n).toNat = c.toNat - n := by
    rw [UInt64.toNat_sub_of_le, hn]
    apply UInt64.le_iff_toNat_le.mpr
    omega
  unfold Gauges at h ⊢
  rw [hsub, h, sum_eq_add_others held p, sum_eq_add_others held' p, others_congr hothers]
  omega

end Steps

end Concurrent
