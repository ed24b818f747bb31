import Vectorlink.Versioned.Dataset

/-! How a dataset grows as long as nothing is taken away: no tag goes and none moves, the rows
behind a tag stay, and a new tag has rows. -/
namespace Versioned.Dataset

set_option linter.unusedSectionVars false

variable {β κ ρ : Type} [DecidableEq β] [DecidableEq κ] {ds ds' ds'' : Dataset β κ ρ}

structure Grows (ds ds' : Dataset β κ ρ) : Prop where
  tags : ∀ c t, ds.tags.lookup c = some t → ds'.tags.lookup c = some t
  homes : ∀ c t r, Home c t r ds → Home c t r ds'
  gained : ∀ c ∈ ds'.tags, c ∈ ds.tags ∨ ∃ t r, Home c t r ds'

theorem Grows.refl (ds : Dataset β κ ρ) : ds.Grows ds :=
  ⟨fun _ _ h => h, fun _ _ _ h => h, fun _ h => .inl h⟩

theorem Grows.trans (h : ds.Grows ds') (h' : ds'.Grows ds'') : ds.Grows ds'' where
  tags c t hc := h'.tags c t (h.tags c t hc)
  homes c t r hc := h'.homes c t r (h.homes c t r hc)
  gained c hc := by
    rcases h'.gained c hc with hc | hnew
    · rcases h.gained c hc with hc | ⟨t, r, hhome⟩
      · exact .inl hc
      · exact .inr ⟨t, r, h'.homes c t r hhome⟩
    · exact .inr hnew

theorem Grows.mem (h : ds.Grows ds') {c : κ} (hc : c ∈ ds.tags) : c ∈ ds'.tags := by
  obtain ⟨t, ht⟩ := Option.isSome_iff_exists.mp (AList.lookup_isSome.mpr hc)
  have hlookup := h.tags c t ht
  apply AList.lookup_isSome.mp
  rw [hlookup]
  rfl

theorem Grows.served (h : ds.Grows ds') {c : κ} {r : List ρ} (hc : ds.served c = some r) :
    ds'.served c = some r := by
  obtain ⟨t, ht⟩ := exists_home hc
  exact (h.homes c t r ht).served

/-- With the tags as they were only their rows are left to look at. -/
theorem grows_of_tags (htags : ds'.tags = ds.tags)
    (hhomes : ∀ c t r, Home c t r ds → Home c t r ds') : ds.Grows ds' where
  tags c t hc := by
    rw [htags]
    exact hc
  homes := hhomes
  gained c hc := by
    rw [htags] at hc
    exact .inl hc

theorem grows_commit {b : Option β} {f : List ρ → List ρ} (hok : ds.commit b f = .ok ds') :
    ds.Grows ds' := by
  apply grows_of_tags
  · obtain ⟨l, -, rfl⟩ := commit_ok.mp hok
    exact setLineage_tags ds b _
  · intro c t r h
    exact h.commit hok

theorem grows_touch {b : Option β} {n : ℕ} (hok : ds.touch b n = .ok ds') : ds.Grows ds' := by
  apply grows_of_tags
  · obtain ⟨l, -, rfl⟩ := touch_ok.mp hok
    exact setLineage_tags ds b _
  · intro c t r h
    exact h.touch hok

theorem grows_createBranch {b : β} {source : Option β} {v : ℕ}
    (hok : ds.createBranch b source v = .ok ds') : ds.Grows ds' := by
  apply grows_of_tags
  · obtain ⟨-, r, -, rfl⟩ := createBranch_ok.mp hok
    rfl
  · intro c t r h
    exact h.createBranch hok

theorem grows_cleanup (ds : Dataset β κ ρ) : ds.Grows ds.cleanup :=
  grows_of_tags rfl fun _ _ _ h => h.cleanup

/-- A tag is created at a version that exists. -/
theorem grows_createTag {c : κ} {b : Option β} {v : ℕ} (hok : ds.createTag c b v = .ok ds') :
    ds.Grows ds' := by
  obtain ⟨hnew, hrows, hds'⟩ := createTag_ok.mp hok
  refine ⟨fun c' t hc' => ?_, fun c' t r h => h.createTag hok, fun c' hc' => ?_⟩
  · have hne : c' ≠ c := by
      rintro rfl
      exact hnew (AList.lookup_isSome.mp (by simp [hc']))
    rw [hds', lookup_putTag, if_neg hne]
    exact hc'
  · by_cases hc : c' = c
    · obtain ⟨r, hr⟩ := Option.isSome_iff_exists.mp hrows
      refine .inr ⟨⟨b, v, ds.clock⟩, r, ?_, ?_⟩
      · rw [hds', lookup_putTag, if_pos hc]
      · rw [hds', putTag_rowsAt]
        exact hr
    · left
      have hlookup := AList.lookup_isSome.mpr hc'
      rw [hds', lookup_putTag, if_neg hc] at hlookup
      exact AList.lookup_isSome.mp hlookup

end Versioned.Dataset
