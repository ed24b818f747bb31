import Vectorlink.Positional.Deltas

/-! A number taken apart into powers of a base, the largest that fits each time, until less than
the base is left. -/
namespace Positional

variable {b : ℕ}

/-- Nothing fits where the base is no base. -/
def greedy (b n : ℕ) : List ℕ :=
  if 1 < b ∧ b ≤ n then b ^ Nat.log b n :: greedy b (n - b ^ Nat.log b n) else []
termination_by n
decreasing_by
  have hpow : 0 < b ^ Nat.log b n := Nat.pow_pos (by omega)
  omega

theorem greedy_of_lt {n : ℕ} (h : n < b) : greedy b n = [] := by
  rw [greedy, if_neg (by omega)]

theorem greedy_of_le (hb : 1 < b) {n : ℕ} (h : b ≤ n) :
    greedy b n = b ^ Nat.log b n :: greedy b (n - b ^ Nat.log b n) := by
  rw [greedy, if_pos ⟨hb, h⟩]

theorem pow_log_le (hb : 1 < b) {n : ℕ} (h : b ≤ n) : b ^ Nat.log b n ≤ n :=
  Nat.pow_log_le_self b (by omega)

theorem pow_log_pos (hb : 1 < b) (n : ℕ) : 0 < b ^ Nat.log b n := Nat.pow_pos (by omega)

/-- Induction over the parts, in the order in which they are taken. -/
theorem greedy_induction (hb : 1 < b) {P : ℕ → List ℕ → Prop} (hlt : ∀ n, n < b → P n [])
    (hle : ∀ n, b ≤ n → P (n - b ^ Nat.log b n) (greedy b (n - b ^ Nat.log b n)) →
      P n (b ^ Nat.log b n :: greedy b (n - b ^ Nat.log b n))) (n : ℕ) : P n (greedy b n) := by
  induction n using Nat.strong_induction_on with
  | _ n ih =>
    rcases Nat.lt_or_ge n b with h | h
    · rw [greedy_of_lt h]
      exact hlt n h
    · rw [greedy_of_le hb h]
      have hpos := pow_log_pos hb n
      exact hle n h (ih _ (by omega))

theorem sum_greedy_le (hb : 1 < b) (n : ℕ) : (greedy b n).sum ≤ n := by
  refine greedy_induction hb (P := fun n l => l.sum ≤ n) (fun n _ => Nat.zero_le n) ?_ n
  intro n h ih
  have hfits := pow_log_le hb h
  rw [List.sum_cons]
  omega

/-- Less than the base is left. -/
theorem sub_sum_greedy_lt (hb : 1 < b) (n : ℕ) : n - (greedy b n).sum < b := by
  refine greedy_induction hb (P := fun n l => n - l.sum < b) (fun n h => h) ?_ n
  intro n _ ih
  rw [List.sum_cons]
  omega

theorem mem_greedy (hb : 1 < b) {n x : ℕ} (h : x ∈ greedy b n) :
    ∃ e, 1 ≤ e ∧ e ≤ Nat.log b n ∧ x = b ^ e := by
  revert h
  refine greedy_induction hb
    (P := fun n l => x ∈ l → ∃ e, 1 ≤ e ∧ e ≤ Nat.log b n ∧ x = b ^ e) ?_ ?_ n
  · intro n _ h
    cases h
  · intro n hle ih h
    rcases List.mem_cons.mp h with rfl | h
    · exact ⟨Nat.log b n, Nat.log_pos hb hle, Nat.le_refl _, rfl⟩
    · obtain ⟨e, hpos, hlog, rfl⟩ := ih h
      exact ⟨e, hpos, hlog.trans (Nat.log_mono_right (Nat.sub_le _ _)), rfl⟩

theorem sorted_greedy (hb : 1 < b) (n : ℕ) : (greedy b n).Pairwise (· ≥ ·) := by
  refine greedy_induction hb (P := fun _ l => l.Pairwise (· ≥ ·)) (fun _ _ => .nil) ?_ n
  intro n _ ih
  refine List.pairwise_cons.mpr ⟨fun x hx => ?_, ih⟩
  obtain ⟨e, -, hlog, rfl⟩ := mem_greedy hb hx
  exact Nat.pow_le_pow_right (by omega) (hlog.trans (Nat.log_mono_right (Nat.sub_le _ _)))

theorem count_mul_le_sum (l : List ℕ) (x : ℕ) : l.count x * x ≤ l.sum := by
  induction l with
  | nil => simp
  | cons y l ih =>
    rw [List.sum_cons, List.count_cons]
    split
    · rename_i h
      rw [beq_iff_eq] at h
      subst h
      rw [Nat.succ_mul]
      omega
    · rw [Nat.add_zero]
      omega

/-- From the first part of a size on less than `b` times that size is left. -/
theorem count_greedy_lt (hb : 1 < b) (n x : ℕ) : (greedy b n).count x < b := by
  refine greedy_induction hb (P := fun _ l => l.count x < b) (fun n _ => by simp; omega) ?_ n
  intro n hle ih
  by_cases hx : b ^ Nat.log b n = x
  · have hsum := sum_greedy_le hb n
    have hcount := count_mul_le_sum (greedy b n) x
    have hless : n < b * x := by
      rw [← hx, ← pow_succ']
      exact Nat.lt_pow_succ_log_self hb n
    rw [greedy_of_le hb hle] at hsum hcount
    exact Nat.lt_of_mul_lt_mul_right (a := x) (by omega)
  · rw [List.count_cons_of_ne hx]
    exact ih

section Merge

/-- The entries after merges of the given sizes, one after the other. -/
def mergeAll (entries : List ℕ) (sizes : List ℕ) : List ℕ :=
  sizes.foldl (fun entries size => mergeNewest size entries) entries

/-- Whatever the order of the merges, each of them takes its size away and leaves one. -/
theorem length_mergeAll {entries sizes : List ℕ} (hpos : ∀ k ∈ sizes, 1 ≤ k)
    (h : sizes.sum ≤ entries.length) :
    (mergeAll entries sizes).length + sizes.sum = entries.length + sizes.length := by
  induction sizes generalizing entries with
  | nil => rfl
  | cons k sizes ih =>
    rw [List.sum_cons] at h
    have hk := hpos k List.mem_cons_self
    have hmerge := length_mergeNewest (show k ≤ entries.length by omega)
    have hlater : ∀ x ∈ sizes, 1 ≤ x := fun x hx => hpos x (List.mem_cons_of_mem _ hx)
    have hfits : sizes.sum ≤ (mergeNewest k entries).length := by omega
    have hrest := ih hlater hfits
    rw [List.sum_cons, List.length_cons]
    change (mergeAll (mergeNewest k entries) sizes).length + _ = _
    omega

theorem sum_mergeAll (entries sizes : List ℕ) : (mergeAll entries sizes).sum = entries.sum := by
  induction sizes generalizing entries with
  | nil => rfl
  | cons k sizes ih => exact (ih (mergeNewest k entries)).trans (sum_mergeNewest k entries)

end Merge

end Positional
