import Mathlib.Data.List.Basic

/-! Runs of a system whose parties take their steps in any order. -/
namespace Concurrent

variable {σ α : Type}

/-- The states reached by enabled actions, each of which meets `C` in the state it is
taken in. -/
inductive Reaches (step : σ → α → Option σ) (C : σ → α → Prop) (s : σ) : σ → Prop
  | refl : Reaches step C s s
  | tail {t u : σ} {a : α} : Reaches step C s t → C t a → step t a = some u →
      Reaches step C s u

/-- The state after a list of actions, if all are enabled. -/
def exec (step : σ → α → Option σ) : σ → List α → Option σ
  | s, [] => some s
  | s, a :: as => (step s a).bind fun t => exec step t as

variable {step : σ → α → Option σ} {C : σ → α → Prop} {s t : σ}

theorem exec_append (as bs : List α) :
    exec step s (as ++ bs) = (exec step s as).bind fun t => exec step t bs := by
  induction as generalizing s with
  | nil => rfl
  | cons a as ih =>
    simp only [List.cons_append, exec, Option.bind_assoc]
    congr 1
    funext t
    exact ih

theorem Reaches.invariant {I : σ → Prop} (h : Reaches step C s t) (hinit : I s)
    (hstep : ∀ t a u, I t → C t a → step t a = some u → I u) : I t := by
  induction h with
  | refl => exact hinit
  | tail _ hC hs ih => exact hstep _ _ _ ih hC hs

theorem Reaches.trans {u : σ} (h : Reaches step C s t) (h' : Reaches step C t u) :
    Reaches step C s u := by
  induction h' with
  | refl => exact h
  | tail _ hC hs ih => exact .tail ih hC hs

/-- Each action of the list meets `C` where it is taken. -/
def Allowed (step : σ → α → Option σ) (C : σ → α → Prop) : σ → List α → Prop
  | _, [] => True
  | s, a :: as => C s a ∧
    match step s a with
    | some t => Allowed step C t as
    | none => True

theorem Reaches.of_exec {as : List α} (hC : Allowed step C s as) (h : exec step s as = some t) :
    Reaches step C s t := by
  induction as generalizing s with
  | nil =>
    cases h
    exact .refl
  | cons a as ih =>
    obtain ⟨u, hu, hrest⟩ := Option.bind_eq_some_iff.mp h
    have hfirst : Reaches step C s u := .tail .refl hC.1 hu
    have hCrest : Allowed step C u as := by simpa only [hu] using hC.2
    exact hfirst.trans (ih hCrest hrest)

theorem allowed_of_forall {as : List α} (h : ∀ a ∈ as, ∀ t, C t a) : Allowed step C s as := by
  induction as generalizing s with
  | nil => trivial
  | cons a as ih =>
    constructor
    · exact h a List.mem_cons_self s
    · split
      · exact ih fun b hb => h b (List.mem_cons_of_mem a hb)
      · trivial

theorem allowed_true (as : List α) : Allowed step (fun _ _ => True) s as := by
  induction as generalizing s with
  | nil => trivial
  | cons a as ih =>
    constructor
    · trivial
    · split
      · exact ih
      · trivial

instance decidableAllowed [∀ s a, Decidable (C s a)] :
    ∀ (s : σ) (as : List α), Decidable (Allowed step C s as)
  | _, [] => isTrue trivial
  | s, a :: as =>
    match hstep : step s a with
    | some t =>
      have : Decidable (Allowed step C t as) := decidableAllowed t as
      decidable_of_iff (C s a ∧ Allowed step C t as) (by simp only [Allowed, hstep])
    | none => decidable_of_iff (C s a) (by simp only [Allowed, hstep, and_true])

/-- The invariant holds in every state of the run. -/
def Throughout (step : σ → α → Option σ) (I : σ → Prop) (s : σ) (as : List α) : Prop :=
  ∀ before after t, as = before ++ after → exec step s before = some t → I t

theorem throughout_cons_iff {I : σ → Prop} {a : α} {as : List α} (hstep : step s a = some t) :
    Throughout step I s (a :: as) ↔ I s ∧ Throughout step I t as := by
  constructor
  · intro h
    refine ⟨h [] (a :: as) s rfl rfl, fun before after u has hexec => ?_⟩
    apply h (a :: before) after u
    · rw [has, List.cons_append]
    · rw [exec, hstep, Option.bind_some, hexec]
  · intro h before after u has hexec
    cases before with
    | nil =>
      obtain rfl := Option.some.inj hexec
      exact h.1
    | cons b before =>
      rw [List.cons_append] at has
      obtain ⟨rfl, hrest⟩ := List.cons.inj has
      rw [exec, hstep, Option.bind_some] at hexec
      exact h.2 before after u hrest hexec

/-- An invariant that a step keeps just if it meets `C` holds throughout a run just if every step
does. -/
theorem throughout_iff_allowed {I : σ → Prop} {as : List α} (hinit : I s)
    (hkeeps : ∀ t a u, I t → step t a = some u → (I u ↔ C t a)) (hexec : exec step s as = some t) :
    Throughout step I s as ↔ Allowed step C s as := by
  induction as generalizing s with
  | nil =>
    apply iff_of_true _ trivial
    intro before after u has hexec
    rw [(List.append_eq_nil_iff.mp has.symm).1] at hexec
    obtain rfl := Option.some.inj hexec
    exact hinit
  | cons a as ih =>
    obtain ⟨u, hstep, hrest⟩ := Option.bind_eq_some_iff.mp hexec
    have hfirst := hkeeps s a u hinit hstep
    rw [throughout_cons_iff hstep]
    simp only [Allowed, hstep]
    constructor
    · intro h
      have hu : I u := h.2 [] as u rfl rfl
      exact ⟨hfirst.mp hu, (ih hu hrest).mp h.2⟩
    · intro h
      exact ⟨hinit, (ih (hfirst.mpr h.1) hrest).mpr h.2⟩

end Concurrent
