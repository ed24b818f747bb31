import Vectorlink.Stepwise.Program

/-! A party that only reads, placed among the steps of somebody else's run. Each read
sees one store of the run, and later reads never see earlier stores. -/
namespace Stepwise

inductive Observer (σ α : Type) where
  | done (a : α)
  | look (k : σ → Observer σ α)

namespace Observer

variable {σ α β : Type}

protected def bind : Observer σ α → (α → Observer σ β) → Observer σ β
  | .done a, f => f a
  | .look k, f => .look fun s => (k s).bind f

/-- All reads at one store. -/
def runAt (s : σ) : Observer σ α → α
  | .done a => a
  | .look k => (k s).runAt s

theorem runAt_bind (s : σ) (f : α → Observer σ β) :
    ∀ r : Observer σ α, (r.bind f).runAt s = (f (r.runAt s)).runAt s
  | .done _ => rfl
  | .look k => runAt_bind s f (k s)

/-- The answer when the reads see the listed stores, one after the other. -/
def runOn : Observer σ α → List σ → Option α
  | .done a, _ => some a
  | .look k, s :: seen => (k s).runOn seen
  | .look _, [] => none

/-- Whatever stores in `I` the reads see, the answer is in `Q`. -/
def Within (I : σ → Prop) (Q : α → Prop) : Observer σ α → Prop
  | .done a => Q a
  | .look k => ∀ s, I s → (k s).Within I Q

theorem Within.bind {I : σ → Prop} {Q : β → Prop} {R : α → Prop} (f : α → Observer σ β)
    (hf : ∀ a, R a → (f a).Within I Q) :
    ∀ r : Observer σ α, r.Within I R → (r.bind f).Within I Q
  | .done a, h => hf a h
  | .look k, h => fun s hs => Within.bind f hf (k s) (h s hs)

end Observer

/-- `a` is a possible answer of the observer when its reads fall on the listed stores. -/
inductive Observes {σ α : Type} : List σ → Observer σ α → α → Prop
  | done {tr : List σ} {a : α} : Observes tr (.done a) a
  | here {s : σ} {tr : List σ} {k : σ → Observer σ α} {a : α} :
      Observes (s :: tr) (k s) a → Observes (s :: tr) (.look k) a
  | later {s : σ} {tr : List σ} {r : Observer σ α} {a : α} :
      Observes tr r a → Observes (s :: tr) r a

variable {σ α β : Type}

theorem Observes.within {I : σ → Prop} {Q : α → Prop} {tr : List σ} {r : Observer σ α} {a : α}
    (h : Observes tr r a) (hI : ∀ s ∈ tr, I s) (hr : r.Within I Q) : Q a := by
  induction h with
  | done => exact hr
  | here _ ih => exact ih hI (hr _ (hI _ List.mem_cons_self))
  | later _ ih => exact ih (fun s hs => hI s (List.mem_cons_of_mem _ hs)) hr

theorem Observes.append_left {tr : List σ} {r : Observer σ α} {a : α} (h : Observes tr r a)
    (pre : List σ) : Observes (pre ++ tr) r a := by
  induction pre with
  | nil => exact h
  | cons s pre ih => exact ih.later

theorem observes_runAt (s : σ) (tr : List σ) : ∀ r : Observer σ α, Observes (s :: tr) r (r.runAt s)
  | .done _ => .done
  | .look k => .here (observes_runAt s tr (k s))

/-- All reads may fall on one store of the run. -/
theorem observes_runAt_of_mem {s : σ} {tr : List σ} (hs : s ∈ tr) (r : Observer σ α) :
    Observes tr r (r.runAt s) := by
  obtain ⟨pre, post, rfl⟩ := List.append_of_mem hs
  exact (observes_runAt s post r).append_left pre

/-- `seen` is read off a run in its order. Several reads may fall on one store. -/
inductive InOrder {σ : Type} : List σ → List σ → Prop
  | nil {tr : List σ} : InOrder tr []
  | here {s : σ} {tr seen : List σ} : InOrder (s :: tr) seen → InOrder (s :: tr) (s :: seen)
  | later {s : σ} {tr seen : List σ} : InOrder tr seen → InOrder (s :: tr) seen

theorem InOrder.mem {tr seen : List σ} (h : InOrder tr seen) : ∀ x ∈ seen, x ∈ tr := by
  induction h with
  | nil => simp
  | here _ ih => exact List.forall_mem_cons.mpr ⟨List.mem_cons_self, ih⟩
  | later _ ih => exact fun x hx => List.mem_cons_of_mem _ (ih x hx)

theorem InOrder.pairwise {Q : σ → σ → Prop} (hrefl : ∀ s, Q s s) {tr seen : List σ}
    (h : InOrder tr seen) (htr : tr.Pairwise Q) : seen.Pairwise Q := by
  induction h with
  | nil => exact List.Pairwise.nil
  | @here s tr seen hseen ih =>
    refine List.pairwise_cons.mpr ⟨fun x hx => ?_, ih htr⟩
    rcases List.mem_cons.mp (hseen.mem x hx) with rfl | hx
    · exact hrefl x
    · exact (List.pairwise_cons.mp htr).1 x hx
  | later _ ih => exact ih (List.pairwise_cons.mp htr).2

end Stepwise
