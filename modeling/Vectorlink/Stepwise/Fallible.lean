import Mathlib.Data.List.Forall2

/-! What a computation that may fail gives, from what its parts give. -/
namespace Stepwise

variable {ε α β : Type} {x : Except ε α} {f : α → Except ε β} {r : β} {l : List α} {e : ε}

theorem exceptBind_eq_ok : (x >>= f) = .ok r ↔ ∃ a, x = .ok a ∧ f a = .ok r := by
  cases x with
  | error e => simp [bind, Except.bind]
  | ok a => simp [bind, Except.bind]

theorem exceptBind_eq_error :
    (x >>= f) = .error e ↔ x = .error e ∨ ∃ a, x = .ok a ∧ f a = .error e := by
  cases x with
  | error e' => simp [bind, Except.bind]
  | ok a => simp [bind, Except.bind]

/-- A walk over a list returns what each member gives. -/
theorem mapM_ok_iff {ys : List β} :
    l.mapM f = .ok ys ↔ List.Forall₂ (fun x y => f x = .ok y) l ys := by
  induction l generalizing ys with
  | nil =>
    rw [List.mapM_nil, List.forall₂_nil_left_iff]
    constructor
    · intro h
      exact (Except.ok.inj h).symm
    · intro h
      rw [h]
      rfl
  | cons x l ih =>
    rw [List.mapM_cons, exceptBind_eq_ok, List.forall₂_cons_left_iff]
    constructor
    · rintro ⟨y, hx, h⟩
      obtain ⟨ys', hl, h⟩ := exceptBind_eq_ok.mp h
      exact ⟨y, ys', hx, ih.mp hl, (Except.ok.inj h).symm⟩
    · rintro ⟨y, ys', hx, hl, rfl⟩
      exact ⟨y, hx, exceptBind_eq_ok.mpr ⟨ys', ih.mpr hl, rfl⟩⟩

theorem exists_error_of_mapM (h : l.mapM f = .error e) : ∃ x ∈ l, f x = .error e := by
  induction l with
  | nil => cases h
  | cons x l ih =>
    rw [List.mapM_cons, exceptBind_eq_error] at h
    rcases h with hx | ⟨y, _, h⟩
    · exact ⟨x, List.mem_cons_self, hx⟩
    · rcases exceptBind_eq_error.mp h with hl | ⟨_, _, hpure⟩
      · obtain ⟨x', hx', he⟩ := ih hl
        exact ⟨x', List.mem_cons_of_mem _ hx', he⟩
      · cases hpure

theorem exists_ok_of_mapM {ys : List β} (h : l.mapM f = .ok ys) : ∀ x ∈ l, ∃ y, f x = .ok y := by
  have hall := mapM_ok_iff.mp h
  clear h
  induction hall with
  | nil => simp
  | cons hx _ ih => exact List.forall_mem_cons.mpr ⟨⟨_, hx⟩, ih⟩

theorem exists_mapM_ok (h : ∀ x ∈ l, ∃ y, f x = .ok y) : ∃ ys, l.mapM f = .ok ys := by
  cases hrun : l.mapM f with
  | ok ys => exact ⟨ys, rfl⟩
  | error e =>
    obtain ⟨x, hx, herror⟩ := exists_error_of_mapM hrun
    obtain ⟨y, hy⟩ := h x hx
    rw [hy] at herror
    cases herror

/-- A fold whose steps all succeed. -/
theorem foldlM_eq_ok {f : β → α → Except ε β} {g : β → α → β}
    (h : ∀ b, ∀ a ∈ l, f b a = .ok (g b a)) (b : β) : l.foldlM f b = .ok (l.foldl g b) := by
  induction l generalizing b with
  | nil => rfl
  | cons a l ih =>
    have hrest := ih fun b a' ha' => h b a' (List.mem_cons_of_mem a ha')
    rw [List.foldlM_cons, h b a List.mem_cons_self, List.foldl_cons, ← hrest]
    rfl

end Stepwise
