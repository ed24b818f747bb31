import Mathlib.Algebra.Order.BigOperators.Group.List
import Mathlib.Tactic.Linarith
import Mathlib.Data.Nat.Digits.Lemmas

/-! Weighted entries on a stack, newest first, and the stack that spells a number in a base: for
each digit that many entries of the weight of its place. -/
namespace Positional

/-- The `k` newest entries become one. -/
def mergeNewest (k : ℕ) (entries : List ℕ) : List ℕ :=
  (entries.take k).sum :: entries.drop k

theorem length_mergeNewest {k : ℕ} {entries : List ℕ} (h : k ≤ entries.length) :
    (mergeNewest k entries).length + k = entries.length + 1 := by
  rw [mergeNewest, List.length_cons, List.length_drop]
  omega

theorem sum_mergeNewest (k : ℕ) (entries : List ℕ) : (mergeNewest k entries).sum = entries.sum := by
  rw [mergeNewest, List.sum_cons, List.sum_take_add_sum_drop]

/-- Entries for the digits from the place of weight `w` on, lowest place first. -/
def levels (b : ℕ) : (w : ℕ) → (digits : List ℕ) → List ℕ
  | _, [] => []
  | w, d :: digits => List.replicate d w ++ levels b (w * b) digits

/-- The entries that spell `n`. -/
def spell (b n : ℕ) : List ℕ := levels b 1 (Nat.digits b n)

section Carry

variable {b : ℕ}

theorem digits_succ_of_lt (hb : 1 < b) {n : ℕ} (h : n % b + 1 < b) :
    Nat.digits b (n + 1) = (n % b + 1) :: Nat.digits b (n / b) := by
  have hdecomp := Nat.mod_add_div n b
  have hsum : n + 1 = (n % b + 1) + b * (n / b) := by omega
  rw [hsum]
  exact Nat.digits_add b hb (n % b + 1) (n / b) h (Or.inl (Nat.succ_ne_zero _))

theorem digits_succ_of_carry (hb : 1 < b) {n : ℕ} (h : n % b + 1 = b) :
    Nat.digits b (n + 1) = 0 :: Nat.digits b (n / b + 1) := by
  have hdecomp := Nat.mod_add_div n b
  have hsum : n + 1 = 0 + b * (n / b + 1) := by
    rw [Nat.mul_add, Nat.mul_one]
    omega
  rw [hsum]
  exact Nat.digits_add b hb 0 (n / b + 1) (by omega) (Or.inr (Nat.succ_ne_zero _))

/-- The lowest place takes one more entry. -/
theorem cons_levels_of_lt (hb : 1 < b) (w : ℕ) {n : ℕ} (h : n % b + 1 < b) :
    w :: levels b w (Nat.digits b n) = levels b w (Nat.digits b (n + 1)) := by
  rw [digits_succ_of_lt hb h]
  rcases Nat.eq_zero_or_pos n with rfl | hn
  · simp [levels]
  · rw [Nat.digits_def' hb hn, levels, levels, List.replicate_succ, List.cons_append]

/-- The lowest place is full: a merge moves its entries, with the new one, to the next place. -/
theorem mergeNewest_of_carry (hb : 1 < b) (w : ℕ) {n : ℕ} (h : n % b + 1 = b)
    (rest : List ℕ) :
    mergeNewest b (w :: (levels b w (Nat.digits b n) ++ rest)) =
      w * b :: (levels b (w * b) (Nat.digits b (n / b)) ++ rest) := by
  have hn : 0 < n := by
    rcases Nat.eq_zero_or_pos n with rfl | hn
    · rw [Nat.zero_mod] at h
      omega
    · exact hn
  have hfull : w :: (levels b w (Nat.digits b n) ++ rest) =
      List.replicate b w ++ (levels b (w * b) (Nat.digits b (n / b)) ++ rest) := by
    rw [Nat.digits_def' hb hn, levels, ← h, List.replicate_succ, List.append_assoc,
      List.cons_append, h]
  rw [hfull, mergeNewest, List.take_left' List.length_replicate, List.drop_left' List.length_replicate,
    List.sum_replicate_nat, Nat.mul_comm]

/-- The entries that a carry has moved up spell the number with its lowest place empty. -/
theorem levels_of_carry (hb : 1 < b) (w : ℕ) {n : ℕ} (h : n % b + 1 = b) :
    levels b (w * b) (Nat.digits b (n / b + 1)) = levels b w (Nat.digits b (n + 1)) := by
  rw [digits_succ_of_carry hb h, levels, List.replicate_zero, List.nil_append]

/-- Before a carry there are enough entries for a merge. -/
theorem le_length_of_carry (hb : 1 < b) (w : ℕ) {n : ℕ} (h : n % b + 1 = b) (rest : List ℕ) :
    b ≤ (w :: (levels b w (Nat.digits b n) ++ rest)).length := by
  have hn : 0 < n := by
    rcases Nat.eq_zero_or_pos n with rfl | hn
    · rw [Nat.zero_mod] at h
      omega
    · exact hn
  rw [Nat.digits_def' hb hn, levels]
  simp only [List.length_cons, List.length_append, List.length_replicate]
  omega

end Carry

section Spelling

variable {b : ℕ}

theorem mem_levels {w x : ℕ} {digits : List ℕ} (h : x ∈ levels b w digits) :
    ∃ j, x = w * b ^ j := by
  induction digits generalizing w with
  | nil => cases h
  | cons d digits ih =>
    rcases List.mem_append.mp h with h | h
    · exact ⟨0, by rw [List.eq_of_mem_replicate h, pow_zero, Nat.mul_one]⟩
    · obtain ⟨j, rfl⟩ := ih h
      exact ⟨j + 1, by rw [pow_succ', Nat.mul_assoc]⟩

/-- As many entries of the weight of a place as its digit says. -/
theorem count_levels (hb : 1 < b) {w : ℕ} (hw : 0 < w) (digits : List ℕ) (j : ℕ) :
    (levels b w digits).count (w * b ^ j) = digits.getD j 0 := by
  induction digits generalizing w j with
  | nil => rfl
  | cons d digits ih =>
    have hwb : 0 < w * b := Nat.mul_pos hw (by omega)
    rw [levels, List.count_append, List.count_replicate]
    cases j with
    | zero =>
      have hnone : (levels b (w * b) digits).count (w * b ^ 0) = 0 := by
        rw [List.count_eq_zero]
        intro hmem
        obtain ⟨i, hi⟩ := mem_levels hmem
        have hpow : 0 < b ^ i := Nat.pow_pos (by omega)
        have hle : w * b ≤ w * b * b ^ i := Nat.le_mul_of_pos_right _ hpow
        have hlt : w < w * b := by nlinarith
        rw [pow_zero, Nat.mul_one] at hi
        omega
      rw [hnone]
      simp
    | succ j =>
      have hne : ¬w = w * b ^ (j + 1) := by
        have hpow : b ≤ b ^ (j + 1) := Nat.le_self_pow (Nat.succ_ne_zero j) b
        have hlt : w < w * b ^ (j + 1) := by nlinarith
        omega
      have hplace : w * b ^ (j + 1) = w * b * b ^ j := by rw [pow_succ', Nat.mul_assoc]
      rw [if_neg (by simpa using hne), Nat.zero_add, hplace, ih hwb, List.getD_cons_succ]

theorem le_of_mem_levels (hb : 1 < b) {w x : ℕ} {digits : List ℕ} (h : x ∈ levels b w digits) :
    w ≤ x := by
  obtain ⟨j, rfl⟩ := mem_levels h
  exact Nat.le_mul_of_pos_right _ (Nat.pow_pos (by omega))

/-- The newest entries are the lightest. -/
theorem sorted_levels (hb : 1 < b) (w : ℕ) (digits : List ℕ) :
    (levels b w digits).Pairwise (· ≤ ·) := by
  induction digits generalizing w with
  | nil => exact List.Pairwise.nil
  | cons d digits ih =>
    rw [levels, List.pairwise_append]
    refine ⟨List.pairwise_replicate.mpr (Or.inr (Nat.le_refl w)), ih (w * b), ?_⟩
    intro x hx y hy
    rw [List.eq_of_mem_replicate hx]
    exact Nat.le_trans (Nat.le_mul_of_pos_right w (by omega)) (le_of_mem_levels hb hy)

theorem length_levels (w : ℕ) (digits : List ℕ) : (levels b w digits).length = digits.sum := by
  induction digits generalizing w with
  | nil => rfl
  | cons d digits ih => rw [levels, List.length_append, List.length_replicate, ih, List.sum_cons]

theorem sum_digits_le (hb : 1 < b) (n : ℕ) : (Nat.digits b n).sum ≤ (b - 1) * (Nat.log b n + 1) := by
  have hdigit : ∀ d ∈ Nat.digits b n, d ≤ b - 1 := by
    intro d hd
    have hlt := Nat.digits_lt_base hb hd
    omega
  have hsum := List.sum_le_card_nsmul _ _ hdigit
  rw [Nat.nsmul_eq_mul, Nat.mul_comm] at hsum
  refine hsum.trans (Nat.mul_le_mul_left _ ?_)
  rcases Nat.eq_zero_or_pos n with rfl | hn
  · simp
  · rw [Nat.length_digits b n hb (by omega)]

theorem length_spell_le (hb : 1 < b) (n : ℕ) :
    (spell b n).length ≤ (b - 1) * (Nat.log b n + 1) := by
  rw [spell, length_levels]
  exact sum_digits_le hb n

end Spelling

end Positional
