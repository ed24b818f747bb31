import Vectorlink.Versioned.Dataset

/-! What holds of every row of every version: it has to be checked for new rows only. -/
namespace Versioned

variable {β κ ρ : Type} {Q : ρ → Prop}

namespace Lineage

variable {l : Lineage ρ}

/-- Every row of every version that is kept meets `Q`. -/
def Within (Q : ρ → Prop) (l : Lineage ρ) : Prop := ∀ v r, l.rows v = some r → ∀ x ∈ r, Q x

theorem Within.headRows (h : l.Within Q) : ∀ x ∈ l.headRows, Q x := h l.head _ l.rows_head

theorem within_start (v : ℕ) {r : List ρ} (hr : ∀ x ∈ r, Q x) : (start v r).Within Q := by
  intro w r' hw
  simp only [start] at hw
  split at hw
  · obtain rfl := Option.some.inj hw
    exact hr
  · cases hw

theorem Within.advance (h : l.Within Q) {r : List ρ} (hr : ∀ x ∈ r, Q x) : (l.advance r).Within Q := by
  intro w r' hw
  simp only [Lineage.advance] at hw
  split at hw
  · obtain rfl := Option.some.inj hw
    exact hr
  · exact h w r' hw

theorem Within.touch (h : l.Within Q) (n : ℕ) : (l.touch n).Within Q := by
  induction n with
  | zero => exact h
  | succ n ih => exact ih.advance h.headRows

theorem Within.prune (h : l.Within Q) (keep : ℕ → Bool) : (l.prune keep).Within Q := by
  intro w r' hw
  simp only [Lineage.prune] at hw
  split at hw
  · exact h w r' hw
  · cases hw

end Lineage

namespace Dataset

set_option linter.unusedSectionVars false

variable [DecidableEq β] [DecidableEq κ] {ds ds' : Dataset β κ ρ}

/-- Every row of every version of every branch meets `Q`. -/
def Within (Q : ρ → Prop) (ds : Dataset β κ ρ) : Prop :=
  ∀ b l, ds.lineage? b = some l → l.Within Q

theorem within_create : (create : Dataset β κ ρ).Within Q := by
  intro b l hl
  cases b with
  | none =>
    obtain rfl := Option.some.inj hl
    exact Lineage.within_start 1 (by simp)
  | some b => cases hl

theorem Within.mono {Q' : ρ → Prop} (h : ds.Within Q) (hQ : ∀ x, Q x → Q' x) : ds.Within Q' :=
  fun b l hl v r hr x hx => hQ x (h b l hl v r hr x hx)

theorem Within.rowsAt (h : ds.Within Q) {b : Option β} {v : ℕ} {r : List ρ}
    (hr : ds.rowsAt b v = some r) : ∀ x ∈ r, Q x := by
  obtain ⟨l, hl, hrows⟩ := Option.bind_eq_some_iff.mp hr
  exact h b l hl v r hrows

theorem Within.setLineage (h : ds.Within Q) (b : Option β) {l : Lineage ρ} (hl : l.Within Q) :
    (ds.setLineage b l).Within Q := by
  intro b' l' hl'
  rw [lineage?_setLineage] at hl'
  split at hl'
  · obtain rfl := Option.some.inj hl'
    exact hl
  · exact h b' l' hl'

theorem Within.commit {b : Option β} {f : List ρ → List ρ} (h : ds.Within Q)
    (hf : ∀ r, (∀ x ∈ r, Q x) → ∀ x ∈ f r, Q x) (hok : ds.commit b f = .ok ds') : ds'.Within Q := by
  obtain ⟨l, hl, rfl⟩ := commit_ok.mp hok
  have hrows := h b l hl
  exact h.setLineage b (hrows.advance (hf _ hrows.headRows))

theorem Within.touch {b : Option β} {n : ℕ} (h : ds.Within Q) (hok : ds.touch b n = .ok ds') :
    ds'.Within Q := by
  obtain ⟨l, hl, rfl⟩ := touch_ok.mp hok
  exact h.setLineage b ((h b l hl).touch n)

theorem Within.createTag {c : κ} {b : Option β} {v : ℕ} (h : ds.Within Q)
    (hok : ds.createTag c b v = .ok ds') : ds'.Within Q := by
  obtain ⟨-, -, rfl⟩ := createTag_ok.mp hok
  intro b' l hl
  apply h b' l
  cases b' <;> exact hl

theorem Within.dropTag (h : ds.Within Q) (c : κ) : (ds.dropTag c).Within Q := by
  intro b' l hl
  apply h b' l
  cases b' <;> exact hl

theorem Within.deleteTag {c : κ} (h : ds.Within Q) (hok : ds.deleteTag c = .ok ds') :
    ds'.Within Q := by
  obtain ⟨-, rfl⟩ := deleteTag_ok.mp hok
  exact h.dropTag c

theorem Within.createBranch {b : β} {source : Option β} {v : ℕ} (h : ds.Within Q)
    (hok : ds.createBranch b source v = .ok ds') : ds'.Within Q := by
  obtain ⟨-, r, hr, rfl⟩ := createBranch_ok.mp hok
  exact h.setLineage (some b) (Lineage.within_start v (h.rowsAt hr))

theorem Within.dropBranch (h : ds.Within Q) (b : β) : (ds.dropBranch b).Within Q := by
  intro b' l hl
  cases b' with
  | none => exact h none l hl
  | some b' =>
    by_cases hb : b' = b
    · subst hb
      simp [Dataset.dropBranch] at hl
    · apply h (some b') l
      rw [lineage?_some, Dataset.dropBranch, AList.lookup_erase_ne hb] at hl
      exact hl

theorem Within.deleteBranch {b : β} (h : ds.Within Q) (hok : ds.deleteBranch b = .ok ds') :
    ds'.Within Q := by
  obtain ⟨-, rfl⟩ := deleteBranch_ok.mp hok
  exact h.dropBranch b

theorem Within.cleanup (h : ds.Within Q) : ds.cleanup.Within Q := by
  intro b l hl
  cases b with
  | none =>
    obtain rfl := Option.some.inj hl
    exact (h none _ rfl).prune _
  | some b => exact h (some b) l hl

end Dataset

end Versioned
