import Vectorlink.Stepwise.Program

/-! Programs that tell somebody about their progress. The messages sent so far stand beside
the store, so that the rules for programs apply to both. -/
namespace Stepwise

namespace Program

variable {ℓ σ υ ε α β : Type}

/-- Run a program that sends nothing. -/
def beside (m : Program ℓ σ ε α) : Program ℓ (σ × List υ) ε α := fun s =>
  ⟨(m s.1).trace.map fun e => (e.1, (e.2, s.2)), ((m s.1).store, s.2), (m s.1).result⟩

def send (u : υ) : Program ℓ (σ × List υ) ε Unit := fun s => ⟨[], (s.1, s.2 ++ [u]), .ok ()⟩

section Specs

variable {P : σ × List υ → Prop} {Q : α → σ × List υ → Prop} {E : ε → σ × List υ → Prop}

theorem Spec.beside {m : Program ℓ σ ε α} {T : ℓ → σ × List υ → Prop}
    (h : ∀ us, Spec (fun s => P (s, us)) m (fun a s => Q a (s, us)) (fun e s => E e (s, us))
      (fun l s => T l (s, us))) : Spec P (beside m) Q E T := by
  rintro ⟨s, us⟩ hs
  obtain ⟨htr, hres⟩ := h us s hs
  refine ⟨fun e he => ?_, hres⟩
  obtain ⟨e', he', rfl⟩ := List.mem_map.mp he
  exact htr e' he'

theorem Spec.send {u : υ} {T : ℓ → σ × List υ → Prop} {Q : Unit → σ × List υ → Prop}
    (h : ∀ s us, P (s, us) → Q () (s, us ++ [u])) : Spec P (send u) Q E T := by
  rintro ⟨s, us⟩ hs
  exact ⟨by simp [Program.send], h s us hs⟩

end Specs

/-- Apart from its messages `m'` runs as `m`. -/
def Erases (m' : Program ℓ (σ × List υ) ε α) (m : Program ℓ σ ε α) : Prop :=
  ∀ s us, (m' (s, us)).store.1 = (m s).store ∧ (m' (s, us)).result = (m s).result

section Erases

variable {m : Program ℓ σ ε α} {m' : Program ℓ (σ × List υ) ε α}

theorem erases_beside (m : Program ℓ σ ε α) :
    Erases (beside m : Program ℓ (σ × List υ) ε α) m := fun _ _ => ⟨rfl, rfl⟩

theorem erases_send (u : υ) :
    Erases (send u : Program ℓ (σ × List υ) ε Unit) (pure ()) := fun _ _ => ⟨rfl, rfl⟩

theorem erases_pure (a : α) :
    Erases (pure a : Program ℓ (σ × List υ) ε α) (pure a) := fun _ _ => ⟨rfl, rfl⟩

theorem erases_fail (e : ε) :
    Erases (fail e : Program ℓ (σ × List υ) ε α) (fail e) := fun _ _ => ⟨rfl, rfl⟩

theorem Erases.bind {k : α → Program ℓ σ ε β} {k' : α → Program ℓ (σ × List υ) ε β}
    (hm : Erases m' m) (hk : ∀ a, Erases (k' a) (k a)) : Erases (m' >>= k') (m >>= k) := by
  intro s us
  obtain ⟨hstore, hresult⟩ := hm s us
  rcases hrun : m s with ⟨tr, t, r⟩
  rcases hrun' : m' (s, us) with ⟨tr', ⟨t', us'⟩, r'⟩
  rw [hrun, hrun'] at hstore hresult
  dsimp only at hstore hresult
  subst hstore hresult
  cases r' with
  | error e =>
    rw [bind_run_error hrun, bind_run_error hrun']
    exact ⟨rfl, rfl⟩
  | ok a =>
    rw [bind_run_ok hrun, bind_run_ok hrun']
    exact hk a t' us'

/-- Messages before the rest of a program. -/
theorem Erases.after {m₁ : Program ℓ (σ × List υ) ε β} {b : β} (h₁ : Erases m₁ (pure b))
    {k : β → Program ℓ (σ × List υ) ε α} (h₂ : Erases (k b) m) : Erases (m₁ >>= k) m := by
  intro s us
  obtain ⟨hstore, hresult⟩ := h₁ s us
  rcases hrun : m₁ (s, us) with ⟨tr, ⟨t, us'⟩, r⟩
  rw [hrun] at hstore hresult
  dsimp only [pure_run] at hstore hresult
  subst hstore hresult
  rw [bind_run_ok hrun]
  exact h₂ t us'

theorem Erases.stop {m₁ : Program ℓ (σ × List υ) ε β} {e : ε} (h₁ : Erases m₁ (fail e))
    (k : β → Program ℓ (σ × List υ) ε α) : Erases (m₁ >>= k) (fail e) := by
  intro s us
  obtain ⟨hstore, hresult⟩ := h₁ s us
  rcases hrun : m₁ (s, us) with ⟨tr, ⟨t, us'⟩, r⟩
  rw [hrun] at hstore hresult
  dsimp only [fail] at hstore hresult
  subst hstore hresult
  rw [bind_run_error hrun]
  exact ⟨rfl, rfl⟩

end Erases

end Program

end Stepwise
