import Mathlib.Data.List.Basic

/-! The version history of one branch: numbered snapshots with a newest one. -/
namespace Versioned

/-- Versions are numbered upwards. Old ones may have been pruned, the newest is kept. -/
structure Lineage (ρ : Type) where
  head : ℕ
  rows : ℕ → Option (List ρ)
  headRows : List ρ
  rows_head : rows head = some headRows
  rows_above : ∀ v, head < v → rows v = none

namespace Lineage

variable {ρ : Type}

attribute [simp] rows_head

/-- A lineage that starts at version `v`. -/
def start (v : ℕ) (r : List ρ) : Lineage ρ where
  head := v
  rows w := if w = v then some r else none
  headRows := r
  rows_head := by simp
  rows_above w hw := if_neg (by omega)

/-- Commit one more version. -/
def advance (l : Lineage ρ) (r : List ρ) : Lineage ρ where
  head := l.head + 1
  rows v := if v = l.head + 1 then some r else l.rows v
  headRows := r
  rows_head := by simp
  rows_above v hv := by
    rw [if_neg (by omega)]
    exact l.rows_above v (by omega)

/-- Commit `n` versions that leave the rows alone. -/
def touch (l : Lineage ρ) : ℕ → Lineage ρ
  | 0 => l
  | n + 1 => (l.touch n).advance l.headRows

/-- Forget the versions outside `keep`, except the newest. -/
def prune (l : Lineage ρ) (keep : ℕ → Bool) : Lineage ρ where
  head := l.head
  rows v := if v = l.head ∨ keep v then l.rows v else none
  headRows := l.headRows
  rows_head := by simp
  rows_above v hv := by
    split
    · exact l.rows_above v hv
    · rfl

@[simp] theorem start_head (v : ℕ) (r : List ρ) : (start v r).head = v := rfl
@[simp] theorem start_headRows (v : ℕ) (r : List ρ) : (start v r).headRows = r := rfl
@[simp] theorem advance_head (l : Lineage ρ) (r : List ρ) : (l.advance r).head = l.head + 1 := rfl
@[simp] theorem advance_headRows (l : Lineage ρ) (r : List ρ) : (l.advance r).headRows = r := rfl
@[simp] theorem prune_head (l : Lineage ρ) (k : ℕ → Bool) : (l.prune k).head = l.head := rfl
@[simp] theorem prune_headRows (l : Lineage ρ) (k : ℕ → Bool) :
    (l.prune k).headRows = l.headRows := rfl

@[simp] theorem touch_head (l : Lineage ρ) (n : ℕ) : (l.touch n).head = l.head + n := by
  induction n with
  | zero => rfl
  | succ n ih => simp only [touch, advance_head, ih]; omega

@[simp] theorem touch_headRows (l : Lineage ρ) (n : ℕ) : (l.touch n).headRows = l.headRows := by
  cases n <;> rfl

theorem touch_touch (l : Lineage ρ) (m n : ℕ) : (l.touch m).touch n = l.touch (m + n) := by
  induction n with
  | zero => rfl
  | succ n ih => simp only [touch, ih, touch_headRows, Nat.add_eq]

theorem le_head {l : Lineage ρ} {v : ℕ} {r : List ρ} (h : l.rows v = some r) : v ≤ l.head := by
  by_contra hv
  rw [l.rows_above v (by omega)] at h
  cases h

/-- A committed version never changes. -/
theorem advance_rows_of_some {l : Lineage ρ} {v : ℕ} {r : List ρ} (h : l.rows v = some r)
    (r' : List ρ) : (l.advance r').rows v = some r := by
  have := le_head h
  simp only [advance]
  rw [if_neg (by omega), h]

theorem touch_rows_of_some {l : Lineage ρ} {v : ℕ} {r : List ρ} (h : l.rows v = some r)
    (n : ℕ) : (l.touch n).rows v = some r := by
  induction n with
  | zero => exact h
  | succ n ih => exact advance_rows_of_some ih _

theorem touch_rows_of_le {l : Lineage ρ} {v : ℕ} (h : v ≤ l.head) (n : ℕ) :
    (l.touch n).rows v = l.rows v := by
  induction n with
  | zero => rfl
  | succ n ih =>
    have hne : v ≠ (l.touch n).head + 1 := by
      rw [touch_head]
      omega
    simp only [touch, advance]
    rw [if_neg hne, ih]

theorem prune_rows_of_keep {l : Lineage ρ} {v : ℕ} {keep : ℕ → Bool} (h : keep v) :
    (l.prune keep).rows v = l.rows v := by
  simp [prune, h]

end Lineage

end Versioned
