import Mathlib.Data.List.Infix
import Mathlib.Data.List.Nodup

/-! Things in the order of their last use, and what a bounded store keeps of them. -/
namespace Vectorlink.Ranking

variable {α : Type*}

/-- A thing is used, or forgotten. -/
inductive UseEvent (α : Type*) where
  | use (a : α)
  | drop (a : α)
deriving DecidableEq, Repr

variable [DecidableEq α]

/-- The things used and not forgotten since, the latest use first. The events come latest first. -/
def recent : List (UseEvent α) → List α
  | [] => []
  | .use a :: es => a :: (recent es).erase a
  | .drop a :: es => (recent es).erase a

/-- What is left in a store with room for `max` things that gives up the one used least recently. -/
def kept (max : ℕ) : List (UseEvent α) → List α
  | [] => []
  | .use a :: es => (a :: (kept max es).erase a).take max
  | .drop a :: es => (kept max es).erase a

variable {max n : ℕ} {es : List (UseEvent α)} {a b : α} {l l' : List α}

theorem nodup_recent (es : List (UseEvent α)) : (recent es).Nodup := by
  induction es with
  | nil => exact List.nodup_nil
  | cons e es ih =>
    cases e with
    | use a => exact List.nodup_cons.mpr ⟨ih.not_mem_erase, ih.erase a⟩
    | drop a => exact ih.erase a

/-- What is kept are the most recently used things. -/
theorem kept_isPrefix (max : ℕ) (es : List (UseEvent α)) : kept max es <+: recent es := by
  induction es with
  | nil => exact List.prefix_rfl
  | cons e es ih =>
    cases e with
    | use a =>
      have hcons : a :: (kept max es).erase a <+: a :: (recent es).erase a :=
        List.cons_prefix_cons.mpr ⟨rfl, ih.erase a⟩
      exact (List.take_prefix max _).trans hcons
    | drop a => exact ih.erase a

theorem length_kept_le (max : ℕ) (es : List (UseEvent α)) : (kept max es).length ≤ max := by
  induction es with
  | nil => exact Nat.zero_le max
  | cons e es ih =>
    cases e with
    | use a => exact List.length_take_le _ _
    | drop a => exact Nat.le_trans List.length_erase_le ih

/-- A use of a thing that is kept gives up nothing. -/
theorem kept_use_of_mem (h : a ∈ kept max es) :
    kept max (.use a :: es) = a :: (kept max es).erase a := by
  have hlength := List.length_erase_of_mem h
  have hpos := List.length_pos_of_mem h
  have hle := length_kept_le max es
  apply List.take_of_length_le
  rw [List.length_cons]
  omega

omit [DecidableEq α] in
theorem mem_take_of_isPrefix (hstart : l <+: l') (hmem : a ∈ l) (h : a ∈ l'.take n) :
    a ∈ l.take n := by
  obtain ⟨t, rfl⟩ := hstart
  by_cases hn : n ≤ l.length
  · rwa [List.take_append_of_le_length hn] at h
  · rwa [List.take_of_length_le (by omega)]

section Splits

omit [DecidableEq α]

/-- What holds of all tails of a list up to the first `x`, by the head of the list. -/
theorem forall_tails_cons_iff {β : Type*} {P : List β → Prop} {x e : β} {es : List β} :
    (∀ later earlier, e :: es = later ++ earlier → x ∉ later → P earlier) ↔
      P (e :: es) ∧ (e ≠ x → ∀ later earlier, es = later ++ earlier → x ∉ later → P earlier) := by
  constructor
  · intro h
    constructor
    · exact h [] _ rfl List.not_mem_nil
    · intro hne later earlier hes hx
      apply h (e :: later) earlier
      · rw [hes, List.cons_append]
      · rw [List.mem_cons, not_or]
        exact ⟨fun heq => hne heq.symm, hx⟩
  · intro h later earlier hes hx
    cases later with
    | nil =>
      rw [List.nil_append] at hes
      rw [← hes]
      exact h.1
    | cons e' later =>
      rw [List.cons_append] at hes
      obtain ⟨rfl, hrest⟩ := List.cons.inj hes
      rw [List.mem_cons, not_or] at hx
      exact h.2 (fun heq => hx.1 heq.symm) later earlier hrest hx.2

end Splits

theorem mem_kept_use_self :
    a ∈ kept max (.use a :: es) ↔ a ∈ (recent (.use a :: es)).take max := by
  have hfront (l : List α) : a ∈ (a :: l).take max ↔ 0 < max := by
    cases max <;> simp
  rw [kept, recent, hfront, hfront]

/-- A thing survives the use of another one if it is still among the first `max`. -/
theorem mem_kept_use (hab : a ≠ b) :
    a ∈ kept max (.use b :: es) ↔ a ∈ (recent (.use b :: es)).take max ∧ a ∈ kept max es := by
  have hstart : b :: (kept max es).erase b <+: b :: (recent es).erase b :=
    List.cons_prefix_cons.mpr ⟨rfl, (kept_isPrefix max es).erase b⟩
  constructor
  · intro h
    have hmem := List.mem_of_mem_take h
    rw [List.mem_cons, List.mem_erase_of_ne hab] at hmem
    exact ⟨(hstart.take max).subset h, hmem.resolve_left hab⟩
  · intro h
    apply mem_take_of_isPrefix hstart
    · rw [List.mem_cons, List.mem_erase_of_ne hab]
      exact .inr h.2
    · exact h.1

theorem mem_kept_drop (hab : a ≠ b) : a ∈ kept max (.drop b :: es) ↔ a ∈ kept max es := by
  rw [kept, List.mem_erase_of_ne hab]

theorem not_mem_recent_drop_self : a ∉ recent (.drop a :: es) := (nodup_recent es).not_mem_erase

theorem mem_take_of_mem_kept (h : a ∈ kept max es) : a ∈ (recent es).take max := by
  have hkept : kept max es = (kept max es).take max :=
    (List.take_of_length_le (length_kept_le max es)).symm
  rw [hkept] at h
  exact ((kept_isPrefix max es).take max).subset h

/-- A thing is kept if it was among the `max` most recently used ones ever since its last use. -/
theorem mem_kept_iff : a ∈ kept max es ↔ ∀ later earlier, es = later ++ earlier →
    .use a ∉ later → a ∈ (recent earlier).take max := by
  induction es with
  | nil =>
    apply iff_of_false List.not_mem_nil
    intro h
    have hnone := h [] [] rfl List.not_mem_nil
    rw [recent, List.take_nil] at hnone
    cases hnone
  | cons e es ih =>
    -- the time just after the event, and the times before it
    rw [forall_tails_cons_iff (P := fun earlier => a ∈ (recent earlier).take max), ← ih]
    by_cases hab : e = .use a
    · subst hab
      rw [mem_kept_use_self]
      exact ⟨fun h => ⟨h, fun hne => absurd rfl hne⟩, fun h => h.1⟩
    · constructor
      · intro h
        refine ⟨mem_take_of_mem_kept h, fun _ => ?_⟩
        cases e with
        | use b => exact ((mem_kept_use fun heq => hab (congrArg _ heq.symm)).mp h).2
        | drop b => exact List.mem_of_mem_erase h
      · intro h
        have hkept := h.2 hab
        cases e with
        | use b => exact (mem_kept_use fun heq => hab (congrArg _ heq.symm)).mpr ⟨h.1, hkept⟩
        | drop b =>
          have hne : a ≠ b := by
            intro heq
            subst heq
            exact not_mem_recent_drop_self (List.mem_of_mem_take h.1)
          exact (mem_kept_drop hne).mpr hkept

end Vectorlink.Ranking
