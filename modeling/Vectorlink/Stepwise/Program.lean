import Mathlib.Data.List.Basic

/-! Programs that change a store one atomic step at a time and may fail at any of them.
A run keeps the store it reached also when it fails, and records each step with the
store after it, so that another party can be placed between any two steps. -/
namespace Stepwise

/-- What a run leaves behind. The trace is oldest first and omits the initial store. -/
structure Outcome (ℓ σ ε α : Type) where
  trace : List (ℓ × σ)
  store : σ
  result : Except ε α

def Program (ℓ σ ε α : Type) : Type := σ → Outcome ℓ σ ε α

namespace Program

variable {ℓ σ ε ε' α β γ : Type}

protected def pure (a : α) : Program ℓ σ ε α := fun s => ⟨[], s, .ok a⟩

protected def bind (m : Program ℓ σ ε α) (k : α → Program ℓ σ ε β) : Program ℓ σ ε β :=
  fun s =>
    match m s with
    | ⟨tr, t, .ok a⟩ => ⟨tr ++ (k a t).trace, (k a t).store, (k a t).result⟩
    | ⟨tr, t, .error e⟩ => ⟨tr, t, .error e⟩

instance : Monad (Program ℓ σ ε) where
  pure := Program.pure
  bind := Program.bind

def fail (e : ε) : Program ℓ σ ε α := fun s => ⟨[], s, .error e⟩

/-- Read the store without changing it. -/
def look (f : σ → Except ε α) : Program ℓ σ ε α := fun s => ⟨[], s, f s⟩

/-- One atomic change of the store; a refused change leaves it as it was. -/
def step (l : ℓ) (f : σ → Except ε σ) : Program ℓ σ ε Unit := fun s =>
  match f s with
  | .ok t => ⟨[(l, t)], t, .ok ()⟩
  | .error e => ⟨[], s, .error e⟩

/-- Run to the end and hand the failure, if any, to the caller. -/
def attempt (m : Program ℓ σ ε α) : Program ℓ σ ε' (Except ε α) := fun s =>
  ⟨(m s).trace, (m s).store, .ok (m s).result⟩

/-- Report a failure in other words. -/
def mapError (f : ε → ε') (m : Program ℓ σ ε α) : Program ℓ σ ε' α := fun s =>
  ⟨(m s).trace, (m s).store, (m s).result.mapError f⟩

def forEach (f : γ → Program ℓ σ ε β) : List γ → Program ℓ σ ε (List β)
  | [] => pure []
  | x :: xs => do
    let b ← f x
    let bs ← forEach f xs
    pure (b :: bs)

@[simp] theorem pure_run (a : α) (s : σ) :
    (pure a : Program ℓ σ ε α) s = ⟨[], s, .ok a⟩ := rfl

theorem bind_run_ok {m : Program ℓ σ ε α} {k : α → Program ℓ σ ε β} {s t : σ}
    {tr : List (ℓ × σ)} {a : α} (h : m s = ⟨tr, t, .ok a⟩) :
    (m >>= k) s = ⟨tr ++ (k a t).trace, (k a t).store, (k a t).result⟩ := by
  change Program.bind m k s = _
  simp only [Program.bind, h]

theorem bind_run_error {m : Program ℓ σ ε α} {k : α → Program ℓ σ ε β} {s t : σ}
    {tr : List (ℓ × σ)} {e : ε} (h : m s = ⟨tr, t, .error e⟩) :
    (m >>= k) s = ⟨tr, t, .error e⟩ := by
  change Program.bind m k s = _
  simp only [Program.bind, h]

theorem look_bind_ok {f : σ → Except ε α} {k : α → Program ℓ σ ε β} {s : σ} {a : α}
    (h : f s = .ok a) : (look f >>= k) s = k a s := by
  rw [bind_run_ok (show look f s = ⟨[], s, .ok a⟩ by rw [look, h])]
  rfl

theorem look_bind_error {f : σ → Except ε α} {k : α → Program ℓ σ ε β} {s : σ} {e : ε}
    (h : f s = .error e) : (look f >>= k) s = ⟨[], s, .error e⟩ :=
  bind_run_error (show look f s = ⟨[], s, .error e⟩ by rw [look, h])

theorem bind_assoc (m : Program ℓ σ ε α) (f : α → Program ℓ σ ε β) (g : β → Program ℓ σ ε γ) :
    (m >>= f) >>= g = m >>= fun a => f a >>= g := by
  funext s
  rcases hm : m s with ⟨tr, t, r⟩
  cases r with
  | error e => rw [bind_run_error hm, bind_run_error (bind_run_error hm)]
  | ok a =>
    rw [bind_run_ok hm]
    rcases hf : f a t with ⟨tr', u, r'⟩
    have hmf := bind_run_ok (k := f) hm
    rw [hf] at hmf
    cases r' with
    | error e => rw [bind_run_error hmf, bind_run_error hf]
    | ok b => rw [bind_run_ok hmf, bind_run_ok hf, List.append_assoc]

/-- From a store in `P` every step of `m` lands in `T`, a normal end is in `Q` and a
failure in `E`. -/
def Spec (P : σ → Prop) (m : Program ℓ σ ε α) (Q : α → σ → Prop) (E : ε → σ → Prop)
    (T : ℓ → σ → Prop) : Prop :=
  ∀ s, P s → (∀ e ∈ (m s).trace, T e.1 e.2) ∧
    match (m s).result with
    | .ok a => Q a (m s).store
    | .error e => E e (m s).store

variable {P : σ → Prop} {Q : α → σ → Prop} {E : ε → σ → Prop} {T : ℓ → σ → Prop}

theorem Spec.pure {a : α} (h : ∀ s, P s → Q a s) : Spec P (pure a) Q E T :=
  fun s hs => ⟨by simp, h s hs⟩

theorem Spec.fail {e : ε} (h : ∀ s, P s → E e s) : Spec P (fail e) Q E T :=
  fun s hs => ⟨by simp [Program.fail], h s hs⟩

theorem Spec.look {f : σ → Except ε α}
    (h : ∀ s, P s → match f s with | .ok a => Q a s | .error e => E e s) :
    Spec P (look f) Q E T :=
  fun s hs => ⟨by simp [Program.look], h s hs⟩

theorem Spec.step {l : ℓ} {f : σ → Except ε σ} {Q : Unit → σ → Prop}
    (h : ∀ s, P s → match f s with | .ok t => T l t ∧ Q () t | .error e => E e s) :
    Spec P (step l f) Q E T := by
  intro s hs
  have hf := h s hs
  cases he : f s with
  | error e =>
    rw [he] at hf
    simpa [Program.step, he] using hf
  | ok t =>
    rw [he] at hf
    simpa [Program.step, he] using hf

theorem Spec.bind {m : Program ℓ σ ε α} {k : α → Program ℓ σ ε β} {R : α → σ → Prop}
    {Q : β → σ → Prop} (hm : Spec P m R E T) (hk : ∀ a, Spec (R a) (k a) Q E T) :
    Spec P (m >>= k) Q E T := by
  intro s hs
  obtain ⟨htr, hres⟩ := hm s hs
  rcases ho : m s with ⟨tr, t, r⟩
  rw [ho] at htr hres
  cases r with
  | error e =>
    rw [bind_run_error ho]
    exact ⟨htr, hres⟩
  | ok a =>
    rw [bind_run_ok ho]
    obtain ⟨htr', hres'⟩ := hk a t hres
    refine ⟨fun x hx => ?_, hres'⟩
    rcases List.mem_append.mp hx with hx | hx
    · exact htr x hx
    · exact htr' x hx

theorem Spec.mapError {m : Program ℓ σ ε α} {f : ε → ε'} {E : ε' → σ → Prop}
    (hm : Spec P m Q (fun e s => E (f e) s) T) : Spec P (mapError f m) Q E T := by
  intro s hs
  obtain ⟨htr, hres⟩ := hm s hs
  refine ⟨htr, ?_⟩
  simp only [Program.mapError]
  cases hr : (m s).result with
  | ok a => rw [hr] at hres; exact hres
  | error e => rw [hr] at hres; exact hres

theorem Spec.attempt {m : Program ℓ σ ε α} {Q : Except ε α → σ → Prop} {E : ε' → σ → Prop}
    (hm : Spec P m (fun a s => Q (.ok a) s) (fun e s => Q (.error e) s) T) :
    Spec P (attempt m) Q E T := by
  intro s hs
  obtain ⟨htr, hres⟩ := hm s hs
  refine ⟨htr, ?_⟩
  simp only [Program.attempt]
  cases hr : (m s).result with
  | ok a => rw [hr] at hres; exact hres
  | error e => rw [hr] at hres; exact hres

theorem Spec.weaken {m : Program ℓ σ ε α} {P' : σ → Prop} {Q' : α → σ → Prop}
    {E' : ε → σ → Prop} {T' : ℓ → σ → Prop} (hm : Spec P' m Q' E' T')
    (hP : ∀ s, P s → P' s) (hQ : ∀ a s, Q' a s → Q a s) (hE : ∀ e s, E' e s → E e s)
    (hT : ∀ l s, T' l s → T l s) : Spec P m Q E T := by
  intro s hs
  obtain ⟨htr, hres⟩ := hm s (hP s hs)
  refine ⟨fun x hx => hT _ _ (htr x hx), ?_⟩
  cases hr : (m s).result with
  | ok a => rw [hr] at hres; exact hQ _ _ hres
  | error e => rw [hr] at hres; exact hE _ _ hres

theorem Spec.post {m : Program ℓ σ ε α} {Q' : α → σ → Prop} (hm : Spec P m Q' E T)
    (hQ : ∀ a s, Q' a s → Q a s) : Spec P m Q E T :=
  hm.weaken (fun _ h => h) hQ (fun _ _ h => h) (fun _ _ h => h)

theorem Spec.pre {m : Program ℓ σ ε α} {P' : σ → Prop} (hm : Spec P' m Q E T)
    (hP : ∀ s, P s → P' s) : Spec P m Q E T :=
  hm.weaken hP (fun _ _ h => h) (fun _ _ h => h) (fun _ _ h => h)

/-- What a precondition says apart from the store may be used in the proof. -/
theorem Spec.of_and {m : Program ℓ σ ε α} {p : Prop} (hm : p → Spec P m Q E T) :
    Spec (fun s => P s ∧ p) m Q E T := fun s hs => hm hs.2 s hs.1

/-- A specification may be proved one initial store at a time. -/
theorem Spec.of_forall {m : Program ℓ σ ε α}
    (hm : ∀ s₀, P s₀ → Spec (fun s => s = s₀) m Q E T) : Spec P m Q E T :=
  fun s hs => hm s hs s rfl

theorem Spec.of_exists {m : Program ℓ σ ε α} {P : β → σ → Prop} (hm : ∀ b, Spec (P b) m Q E T) :
    Spec (fun s => ∃ b, P b s) m Q E T := fun s hs => hs.elim fun b hb => hm b s hb

theorem Spec.and {m : Program ℓ σ ε α} {Q' : α → σ → Prop} {E' : ε → σ → Prop}
    {T' : ℓ → σ → Prop} (hm : Spec P m Q E T) (hm' : Spec P m Q' E' T') :
    Spec P m (fun a s => Q a s ∧ Q' a s) (fun e s => E e s ∧ E' e s)
      (fun l s => T l s ∧ T' l s) := by
  intro s hs
  obtain ⟨htr, hres⟩ := hm s hs
  obtain ⟨htr', hres'⟩ := hm' s hs
  refine ⟨fun e he => ⟨htr e he, htr' e he⟩, ?_⟩
  cases hr : (m s).result with
  | ok a =>
    rw [hr] at hres hres'
    exact ⟨hres, hres'⟩
  | error e =>
    rw [hr] at hres hres'
    exact ⟨hres, hres'⟩

theorem Spec.all {m : Program ℓ σ ε α} {Q : β → α → σ → Prop} {E : β → ε → σ → Prop}
    (hm : ∀ b, Spec P m (Q b) (E b) T) (hT : ∀ s, P s → ∀ e ∈ (m s).trace, T e.1 e.2) :
    Spec P m (fun a s => ∀ b, Q b a s) (fun e s => ∀ b, E b e s) T := by
  intro s hs
  refine ⟨hT s hs, ?_⟩
  cases hr : (m s).result with
  | ok a => exact fun b => (by simpa only [hr] using (hm b s hs).2)
  | error e => exact fun b => (by simpa only [hr] using (hm b s hs).2)

theorem Spec.ite {c : Prop} [Decidable c] {m n : Program ℓ σ ε α}
    (hm : c → Spec P m Q E T) (hn : ¬ c → Spec P n Q E T) :
    Spec P (if c then m else n) Q E T := by
  split
  · exact hm ‹_›
  · exact hn ‹_›

/-- A program that fails exactly when a flag is set. -/
theorem Spec.flag {m : Program ℓ σ ε α} {flag : Bool}
    (hoff : flag = false → Spec P m Q (fun _ _ => False) T)
    (hon : flag = true → Spec P m (fun _ _ => False) E T) :
    Spec P m (fun a s => Q a s ∧ flag = false) (fun e s => E e s ∧ flag = true) T := by
  cases hflag : flag with
  | false =>
    exact (hoff hflag).weaken (fun _ h => h) (fun _ _ h => ⟨h, rfl⟩) (fun _ _ h => h.elim)
      (fun _ _ h => h)
  | true =>
    exact (hon hflag).weaken (fun _ h => h) (fun _ _ h => h.elim) (fun _ _ h => ⟨h, rfl⟩)
      (fun _ _ h => h)

/-- A loop over a list, with an invariant on what is still to be done. -/
theorem Spec.forEach {f : γ → Program ℓ σ ε β} (I : List γ → σ → Prop)
    (h : ∀ x xs, Spec (I (x :: xs)) (f x) (fun _ => I xs) E T) (xs : List γ) :
    Spec (I xs) (forEach f xs) (fun _ => I []) E T := by
  induction xs with
  | nil => exact Spec.pure fun _ hs => hs
  | cons x xs ih =>
    exact Spec.bind (h x xs) fun _ => Spec.bind ih fun _ => Spec.pure fun _ hs => hs

/-- A failure that is caught is one more way to end normally. -/
theorem Spec.attempt_const {m : Program ℓ σ ε α} {R : σ → Prop} {E : ε' → σ → Prop}
    (hm : Spec P m (fun _ => R) (fun _ => R) T) : Spec P (Program.attempt m) (fun _ => R) E T :=
  Spec.attempt hm

/-- `I` holds after every step and at the end, whichever end it is. -/
def Preserves (I : σ → Prop) (m : Program ℓ σ ε α) : Prop :=
  Spec I m (fun _ => I) (fun _ => I) (fun _ => I)

section Preserves

variable {I : σ → Prop}

theorem Preserves.pure (a : α) : Preserves I (pure a : Program ℓ σ ε α) :=
  Spec.pure fun _ hs => hs

theorem Preserves.look (f : σ → Except ε α) : Preserves I (look f : Program ℓ σ ε α) :=
  Spec.look fun s hs => by cases f s <;> exact hs

theorem Preserves.step {l : ℓ} {f : σ → Except ε σ} (h : ∀ s t, I s → f s = .ok t → I t) :
    Preserves I (step l f) :=
  Spec.step fun s hs => by
    cases hf : f s with
    | error e => exact hs
    | ok t => exact ⟨h s t hs hf, h s t hs hf⟩

theorem Preserves.bind {m : Program ℓ σ ε α} {k : α → Program ℓ σ ε β} (hm : Preserves I m)
    (hk : ∀ a, Preserves I (k a)) : Preserves I (m >>= k) := Spec.bind hm hk

theorem Preserves.attempt {m : Program ℓ σ ε α} (hm : Preserves I m) :
    Preserves I (attempt m : Program ℓ σ ε' (Except ε α)) :=
  Spec.attempt_const hm

theorem Preserves.forEach {f : γ → Program ℓ σ ε β} (h : ∀ x, Preserves I (f x)) (xs : List γ) :
    Preserves I (forEach f xs) := Spec.forEach (fun _ => I) (fun x _ => h x) xs

theorem Preserves.forall {ι : Type} {I : ι → σ → Prop} {m : Program ℓ σ ε α}
    (h : ∀ i, Preserves (I i) m) : Preserves (fun s => ∀ i, I i s) m := by
  intro s hs
  refine ⟨fun e he i => (h i s (hs i)).1 e he, ?_⟩
  cases hr : (m s).result with
  | ok a => exact fun i => (by simpa only [hr] using (h i s (hs i)).2)
  | error e => exact fun i => (by simpa only [hr] using (h i s (hs i)).2)

end Preserves

theorem Spec.result_ok {m : Program ℓ σ ε α} (hm : Spec P m Q E T) {s : σ} (hs : P s)
    {a : α} (h : (m s).result = .ok a) : Q a (m s).store := by
  have := (hm s hs).2
  rwa [h] at this

/-- What holds at either end holds of the store that the run leaves. -/
theorem Spec.final {m : Program ℓ σ ε α} {R : σ → Prop}
    (hm : Spec P m (fun _ => R) (fun _ => R) T) {s : σ} (hs : P s) : R (m s).store := by
  have h := (hm s hs).2
  cases hr : (m s).result with
  | ok a => rwa [hr] at h
  | error e => rwa [hr] at h

theorem Spec.result_error {m : Program ℓ σ ε α} (hm : Spec P m Q E T) {s : σ} (hs : P s)
    {e : ε} (h : (m s).result = .error e) : E e (m s).store := by
  have := (hm s hs).2
  rwa [h] at this

/-- A program that cannot fail ends normally. -/
theorem Spec.completes {m : Program ℓ σ ε α} (hm : Spec P m Q (fun _ _ => False) T) {s : σ}
    (hs : P s) : ∃ a, (m s).result = .ok a ∧ Q a (m s).store := by
  have h := (hm s hs).2
  cases hr : (m s).result with
  | ok a =>
    rw [hr] at h
    exact ⟨a, rfl, h⟩
  | error e =>
    rw [hr] at h
    exact h.elim

/-- A program that cannot end normally fails. -/
theorem Spec.fails {m : Program ℓ σ ε α} (hm : Spec P m (fun _ _ => False) E T) {s : σ}
    (hs : P s) : ∃ e, (m s).result = .error e ∧ E e (m s).store := by
  have h := (hm s hs).2
  cases hr : (m s).result with
  | ok a =>
    rw [hr] at h
    exact h.elim
  | error e =>
    rw [hr] at h
    exact ⟨e, rfl, h⟩

/-! A run as a walk along a step relation. -/

/-- The recorded stores lead from the first to the last, one step of `R` at a time. -/
inductive Walk (R : σ → σ → Prop) : σ → List (ℓ × σ) → σ → Prop
  | nil (s : σ) : Walk R s [] s
  | cons {s t u : σ} {l : ℓ} {tr : List (ℓ × σ)} : R s t → Walk R t tr u → Walk R s ((l, t) :: tr) u

section Walk

variable {R : σ → σ → Prop}

theorem Walk.append {s t u : σ} {tr tr' : List (ℓ × σ)} (h : Walk R s tr t) (h' : Walk R t tr' u) :
    Walk R s (tr ++ tr') u := by
  induction h with
  | nil => exact h'
  | cons hR _ ih => exact .cons hR (ih h')

theorem Walk.mem_last {s u : σ} {tr : List (ℓ × σ)} (h : Walk R s tr u) :
    u ∈ s :: tr.map Prod.snd := by
  induction h with
  | nil => exact List.mem_cons_self
  | cons _ _ ih => exact List.mem_cons_of_mem _ ih

/-- What every step keeps holds along the whole walk. -/
theorem Walk.invariant {I : σ → Prop} (hI : ∀ s t, R s t → I s → I t) {s u : σ}
    {tr : List (ℓ × σ)} (h : Walk R s tr u) (hs : I s) : (∀ e ∈ tr, I e.2) ∧ I u := by
  induction h with
  | nil => exact ⟨by simp, hs⟩
  | cons hR _ ih =>
    have ht := hI _ _ hR hs
    exact ⟨List.forall_mem_cons.mpr ⟨ht, (ih ht).1⟩, (ih ht).2⟩

/-- Any two stores of a walk are related by what relates those around each step. -/
theorem Walk.pairwise {Q : σ → σ → Prop} (htrans : ∀ s t u, Q s t → Q t u → Q s u)
    (hQ : ∀ s t, R s t → Q s t) {s u : σ} {tr : List (ℓ × σ)} (h : Walk R s tr u) : (s :: tr.map Prod.snd).Pairwise Q := by
  induction h with
  | nil => simp
  | @cons s t u l tr hR _ ih =>
    have hfirst : ∀ x ∈ t :: tr.map Prod.snd, Q s x := by
      intro x hx
      rcases List.mem_cons.mp hx with rfl | hx
      · exact hQ _ _ hR
      · exact htrans _ _ _ (hQ _ _ hR) ((List.pairwise_cons.mp ih).1 x hx)
    exact List.pairwise_cons.mpr ⟨hfirst, ih⟩

/-- What no single step can replace is missing somewhere on the way to a replacement. -/
theorem Walk.exists_none {f : σ → Option α} (hf : ∀ s t, R s t → ∀ a b, f s = some a →
    f t = some b → a = b) {s u : σ} {tr : List (ℓ × σ)} (h : Walk R s tr u) {a b : α}
    (ha : f s = some a) (hb : f u = some b) (hne : a ≠ b) : ∃ e ∈ tr, f e.2 = none := by
  induction h generalizing a with
  | nil => exact absurd (Option.some.inj (ha.symm.trans hb)) hne
  | @cons s t u l tr hR _ ih =>
    cases ht : f t with
    | none => exact ⟨(l, t), List.mem_cons_self, ht⟩
    | some x =>
      obtain rfl := hf s t hR a x ha ht
      obtain ⟨e, he, hnone⟩ := ih ht hb hne
      exact ⟨e, List.mem_cons_of_mem _ he, hnone⟩

/-- Every run of `m` is a walk along `R`. -/
def Walks (R : σ → σ → Prop) (m : Program ℓ σ ε α) : Prop :=
  ∀ s, Walk R s (m s).trace (m s).store

theorem Walks.pure (a : α) : Walks R (pure a : Program ℓ σ ε α) := fun s => .nil s

theorem Walks.fail (e : ε) : Walks R (fail e : Program ℓ σ ε α) := fun s => .nil s

theorem Walks.look (f : σ → Except ε α) : Walks R (look f : Program ℓ σ ε α) := fun s => .nil s

theorem Walks.step {l : ℓ} {f : σ → Except ε σ} (h : ∀ s t, f s = .ok t → R s t) :
    Walks R (step l f) := by
  intro s
  unfold Program.step
  cases hf : f s with
  | error e => exact .nil s
  | ok t => exact .cons (h s t hf) (.nil t)

theorem Walks.bind {m : Program ℓ σ ε α} {k : α → Program ℓ σ ε β} (hm : Walks R m)
    (hk : ∀ a, Walks R (k a)) : Walks R (m >>= k) := by
  intro s
  have hwalk := hm s
  rcases ho : m s with ⟨tr, t, r⟩
  rw [ho] at hwalk
  cases r with
  | error e =>
    rw [bind_run_error ho]
    exact hwalk
  | ok a =>
    rw [bind_run_ok ho]
    exact hwalk.append (hk a t)

theorem Walks.attempt {m : Program ℓ σ ε α} (hm : Walks R m) :
    Walks R (attempt m : Program ℓ σ ε' (Except ε α)) := hm

theorem Walks.mapError {m : Program ℓ σ ε α} (f : ε → ε') (hm : Walks R m) :
    Walks R (mapError f m) := hm

theorem Walks.ite {c : Prop} [Decidable c] {m n : Program ℓ σ ε α} (hm : Walks R m)
    (hn : Walks R n) : Walks R (if c then m else n) := by
  split
  · exact hm
  · exact hn

theorem Walks.forEach {f : γ → Program ℓ σ ε β} (h : ∀ x, Walks R (f x)) (xs : List γ) :
    Walks R (forEach f xs) := by
  induction xs with
  | nil => exact Walks.pure []
  | cons x xs ih => exact Walks.bind (h x) fun _ => Walks.bind ih fun _ => Walks.pure _

end Walk

end Program

end Stepwise
