import Vectorlink.Store.Domain

/-! Which tag the durable last-indexed commit comes from. -/
namespace Vectorlink

open Versioned

variable {ρ V : Type}

theorem tagLater_asymm {a b : TagContents BranchName} (h : tagLater a b = true) :
    tagLater b a = false := by
  simp only [tagLater, Bool.or_eq_true, Bool.and_eq_true, decide_eq_true_eq, beq_iff_eq] at h
  simp only [tagLater, Bool.or_eq_false_iff, Bool.and_eq_false_iff, decide_eq_false_iff_not,
    beq_eq_false_iff_ne]
  omega

/-- Of two tags that are not ordered neither is ahead of a third one. -/
theorem not_tagLater_trans {a b c : TagContents BranchName} (h : tagLater a b = false)
    (h' : tagLater b c = false) : tagLater a c = false := by
  simp only [tagLater, Bool.or_eq_false_iff, Bool.and_eq_false_iff, decide_eq_false_iff_not,
    beq_eq_false_iff_ne] at h h' ⊢
  omega

section MaxTag

variable {tags : List (CommitId × TagContents BranchName)}
  {x : CommitId × TagContents BranchName}

/-- One round of the search for the maximum. -/
def keepLater (best : Option (CommitId × TagContents BranchName))
    (e : CommitId × TagContents BranchName) : Option (CommitId × TagContents BranchName) :=
  match best with
  | none => some e
  | some x => if tagLater x.2 e.2 then some x else some e

theorem foldl_keepLater_of_best (h : ∀ e ∈ tags, tagLater x.2 e.2 = true) :
    tags.foldl keepLater (some x) = some x := by
  induction tags with
  | nil => rfl
  | cons e tags ih =>
    have he := h e List.mem_cons_self
    have hkeep : keepLater (some x) e = some x := by simp [keepLater, he]
    rw [List.foldl_cons, hkeep]
    exact ih fun y hy => h y (List.mem_cons_of_mem _ hy)

/-- `x` is the last of the maxima. -/
def LastMax (tags : List (CommitId × TagContents BranchName))
    (x : CommitId × TagContents BranchName) : Prop :=
  ∃ before after, tags = before ++ x :: after ∧ (∀ y ∈ before, tagLater y.2 x.2 = false) ∧
    ∀ y ∈ after, tagLater x.2 y.2 = true

theorem foldl_keepLater_cases {best : Option (CommitId × TagContents BranchName)}
    (h : tags.foldl keepLater best = some x) :
    (best = some x ∧ ∀ y ∈ tags, tagLater x.2 y.2 = true) ∨
      LastMax tags x ∧ ∀ y, best = some y → tagLater y.2 x.2 = false := by
  induction tags generalizing best with
  | nil => exact .inl ⟨h, by simp⟩
  | cons e tags ih =>
    rw [List.foldl_cons] at h
    rcases ih h with ⟨hbest, hlater⟩ | ⟨⟨before, after, rfl, hbefore, hafter⟩, hbest⟩
    · cases best with
      | none =>
        obtain rfl := Option.some.inj hbest
        exact .inr ⟨⟨[], tags, rfl, by simp, hlater⟩, by simp⟩
      | some y =>
        by_cases hkeep : tagLater y.2 e.2 = true
        · rw [keepLater, if_pos hkeep] at hbest
          obtain rfl := Option.some.inj hbest
          refine .inl ⟨rfl, fun z hz => ?_⟩
          rcases List.mem_cons.mp hz with rfl | hz
          · exact hkeep
          · exact hlater z hz
        · rw [keepLater, if_neg hkeep] at hbest
          obtain rfl := Option.some.inj hbest
          refine .inr ⟨⟨[], tags, rfl, by simp, hlater⟩, fun z hz => ?_⟩
          obtain rfl := Option.some.inj hz
          exact eq_false_of_ne_true hkeep
    · -- the head and the best so far are not later than whichever of them is kept
      have hheads : tagLater e.2 x.2 = false ∧ ∀ y, best = some y → tagLater y.2 x.2 = false := by
        cases best with
        | none => exact ⟨hbest e rfl, by simp⟩
        | some y =>
          by_cases hkeep : tagLater y.2 e.2 = true
          · rw [keepLater, if_pos hkeep] at hbest
            have hy := hbest y rfl
            exact ⟨not_tagLater_trans (tagLater_asymm hkeep) hy, fun z hz => hbest z hz⟩
          · rw [keepLater, if_neg hkeep] at hbest
            have he := hbest e rfl
            refine ⟨he, fun z hz => ?_⟩
            obtain rfl := Option.some.inj hz
            exact not_tagLater_trans (eq_false_of_ne_true hkeep) he
      refine .inr ⟨⟨e :: before, after, rfl, fun y hy => ?_, hafter⟩, hheads.2⟩
      rcases List.mem_cons.mp hy with rfl | hy
      · exact hheads.1
      · exact hbefore y hy

theorem maxTag_iff : maxTag tags = some x ↔ LastMax tags x := by
  constructor
  · intro h
    rcases foldl_keepLater_cases h with ⟨hbest, -⟩ | ⟨hlast, -⟩
    · cases hbest
    · exact hlast
  · rintro ⟨before, after, rfl, hbefore, hafter⟩
    have hkeep : keepLater (before.foldl keepLater none) x = some x := by
      cases hbest : before.foldl keepLater none with
      | none => rfl
      | some y =>
        rcases foldl_keepLater_cases hbest with ⟨hnone, -⟩ | ⟨⟨pre, post, rfl, -, -⟩, -⟩
        · cases hnone
        · have hy := hbefore y (by simp)
          simp [keepLater, hy]
    have hfold : maxTag (before ++ x :: after) =
        after.foldl keepLater (keepLater (before.foldl keepLater none) x) := by
      rw [← List.foldl_cons, ← List.foldl_append]
      rfl
    rw [hfold, hkeep]
    exact foldl_keepLater_of_best hafter

theorem LastMax.mem (h : LastMax tags x) : x ∈ tags := by
  obtain ⟨before, after, rfl, -⟩ := h
  simp

/-- The last maximum stays the last one in a part of the list that has it. -/
theorem LastMax.sublist {tags' : List (CommitId × TagContents BranchName)} (h : LastMax tags x)
    (hsub : tags'.Sublist tags) (hnodup : tags.Nodup) (hx : x ∈ tags') : LastMax tags' x := by
  obtain ⟨before, after, rfl, hbefore, hafter⟩ := h
  obtain ⟨pre, rest, rfl, hpre, hrest⟩ := List.sublist_append_iff.mp hsub
  have hnot : x ∉ before ∧ x ∉ after := by
    rw [List.nodup_append] at hnodup
    have hcons := List.nodup_cons.mp hnodup.2.1
    exact ⟨fun hmem => hnodup.2.2 x hmem x (by simp) rfl, hcons.1⟩
  have hmem : x ∈ rest := by
    rcases List.mem_append.mp hx with hx | hx
    · exact absurd (hpre.subset hx) hnot.1
    · exact hx
  cases hrest with
  | cons _ hafter' => exact absurd (hafter'.subset hmem) hnot.2
  | cons_cons _ hafter' =>
    exact ⟨pre, _, rfl, fun y hy => hbefore y (hpre.subset hy),
      fun y hy => hafter y (hafter'.subset hy)⟩

/-- A tag that is later than all the others is found wherever it stands in the listing. -/
theorem maxTag_eq_some (hx : x ∈ tags) (hnodup : tags.Nodup)
    (h : ∀ e ∈ tags, e ≠ x → tagLater x.2 e.2 = true) : maxTag tags = some x := by
  obtain ⟨before, after, rfl⟩ := List.append_of_mem hx
  have hnot := List.nodup_middle.mp hnodup
  rw [List.nodup_cons, List.mem_append, not_or] at hnot
  refine maxTag_iff.mpr ⟨before, after, rfl, fun y hy => tagLater_asymm ?_, fun y hy => ?_⟩
  · apply h y (by simp [hy])
    rintro rfl
    exact hnot.1.1 hy
  · apply h y (by simp [hy])
    rintro rfl
    exact hnot.1.2 hy

theorem foldl_keepLater_isSome (y : CommitId × TagContents BranchName) :
    (tags.foldl keepLater (some y)).isSome := by
  induction tags generalizing y with
  | nil => rfl
  | cons e tags ih =>
    rw [List.foldl_cons, keepLater]
    split
    · exact ih y
    · exact ih e

theorem maxTag_cons (e : CommitId × TagContents BranchName)
    (tags : List (CommitId × TagContents BranchName)) :
    maxTag (e :: tags) = some e ∨ maxTag (e :: tags) = maxTag tags := by
  have hsome : (tags.foldl keepLater (some e)).isSome := foldl_keepLater_isSome e
  obtain ⟨x, hx⟩ := Option.isSome_iff_exists.mp hsome
  have hmax : maxTag (e :: tags) = some x := hx
  obtain ⟨before, after, htags, hbefore, hafter⟩ := maxTag_iff.mp hmax
  cases before with
  | nil =>
    obtain ⟨rfl, -⟩ := List.cons.inj htags
    exact .inl hmax
  | cons y before =>
    obtain ⟨rfl, rfl⟩ := List.cons.inj htags
    refine .inr (hmax.trans (maxTag_iff.mpr ⟨before, after, rfl, fun z hz => ?_, hafter⟩).symm)
    exact hbefore z (List.mem_cons_of_mem _ hz)

theorem maxTag_eq_none : maxTag tags = none ↔ tags = [] := by
  cases tags with
  | nil => simp [maxTag]
  | cons e tags =>
    have hsome : (tags.foldl keepLater (some e)).isSome := foldl_keepLater_isSome e
    have hfold : maxTag (e :: tags) = tags.foldl keepLater (some e) := rfl
    rw [hfold]
    constructor
    · intro hnone
      rw [hnone] at hsome
      cases hsome
    · intro hnil
      cases hnil

end MaxTag

section Derive

variable {ds ds' : LanceDataset ρ} {b : BranchName} {c : CommitId} {v : ℕ}

theorem nodup_branchTags (ds : LanceDataset ρ) (b : BranchName) : (branchTags ds b).Nodup := by
  unfold branchTags
  refine List.Nodup.filter _ (List.Nodup.of_map Prod.fst ?_)
  rw [List.map_map]
  exact ds.tags.nodupKeys

/-- `c` has the latest of the tags that count for `b`. -/
def IsLatest (ds : LanceDataset ρ) (b : BranchName) (c : CommitId) (t : TagContents BranchName) :
    Prop :=
  ds.tags.lookup c = some t ∧ belongsTo b t.branch = true ∧ ∀ c' t', ds.tags.lookup c' = some t' →
    belongsTo b t'.branch = true → c' ≠ c → tagLater t t' = true

theorem IsLatest.derive {c : CommitId} {t : TagContents BranchName} (h : IsLatest ds b c t) :
    ioDeriveLastIndexed ds b = some (c, t.version) := by
  have hmax : maxTag (branchTags ds b) = some (c, t) := by
    refine maxTag_eq_some (mem_branchTags.mpr ⟨h.1, h.2.1⟩) (nodup_branchTags ds b) ?_
    rintro ⟨c', t'⟩ he hne
    obtain ⟨hlookup, hbelongs⟩ := mem_branchTags.mp he
    refine h.2.2 c' t' hlookup hbelongs fun hc => hne ?_
    rw [hc, h.1] at hlookup
    exact Prod.ext hc (Option.some.inj hlookup).symm
  rw [ioDeriveLastIndexed, hmax]
  rfl

theorem IsLatest.congr {ds' : LanceDataset ρ} {c : CommitId} {t : TagContents BranchName}
    (h : IsLatest ds b c t) (htags : ds'.tags = ds.tags) : IsLatest ds' b c t := by
  unfold IsLatest
  rw [htags]
  exact h

/-- Removing other tags leaves the latest one the latest. -/
theorem IsLatest.of_sub {ds' : LanceDataset ρ} {c : CommitId} {t : TagContents BranchName}
    (h : IsLatest ds b c t) (hc : ds'.tags.lookup c = some t)
    (hsub : ∀ c' t', ds'.tags.lookup c' = some t' → ds.tags.lookup c' = some t') :
    IsLatest ds' b c t :=
  ⟨hc, h.2.1, fun c' t' hc' => h.2.2 c' t' (hsub c' t' hc')⟩

theorem ioDeriveLastIndexed_eq_none :
    ioDeriveLastIndexed ds b = none ↔
      ∀ c t, ds.tags.lookup c = some t → belongsTo b t.branch = false := by
  rw [ioDeriveLastIndexed, Option.map_eq_none_iff, maxTag_eq_none, List.eq_nil_iff_forall_not_mem]
  simp only [Prod.forall, mem_branchTags, not_and, Bool.not_eq_true]

theorem ioDeriveLastIndexed_eq_some :
    ioDeriveLastIndexed ds b = some (c, v) ↔ ∃ t, maxTag (branchTags ds b) = some (c, t) ∧
      t.version = v := by
  rw [ioDeriveLastIndexed, Option.map_eq_some_iff]
  constructor
  · rintro ⟨⟨c', t⟩, hmax, heq⟩
    obtain ⟨rfl, rfl⟩ := Prod.mk.inj heq
    exact ⟨t, hmax, rfl⟩
  · rintro ⟨t, hmax, rfl⟩
    exact ⟨(c, t), hmax, rfl⟩

/-- The last indexed commit is tagged, on a branch that counts. -/
theorem exists_tag_of_derive (h : ioDeriveLastIndexed ds b = some (c, v)) :
    ∃ t, ds.tags.lookup c = some t ∧ belongsTo b t.branch = true ∧ t.version = v := by
  obtain ⟨t, hmax, hversion⟩ := ioDeriveLastIndexed_eq_some.mp h
  obtain ⟨ht, hbelongs⟩ := mem_branchTags.mp (maxTag_iff.mp hmax).mem
  exact ⟨t, ht, hbelongs, hversion⟩

/-- Without other tags the last indexed commit stays the last one. -/
theorem ioDeriveLastIndexed_of_sublist (hsub : ds'.tags.entries.Sublist ds.tags.entries)
    (hkept : ∀ c v, ioDeriveLastIndexed ds b = some (c, v) → c ∈ ds'.tags) :
    ioDeriveLastIndexed ds' b = ioDeriveLastIndexed ds b := by
  have htags : (branchTags ds' b).Sublist (branchTags ds b) := (hsub.map _).filter _
  have hlookup : ∀ c t, ds'.tags.lookup c = some t → ds.tags.lookup c = some t := fun c t ht =>
    AList.mem_lookup_iff.mpr (hsub.subset (AList.mem_lookup_iff.mp ht))
  cases hderive : ioDeriveLastIndexed ds b with
  | none =>
    rw [ioDeriveLastIndexed_eq_none] at hderive ⊢
    exact fun c t ht => hderive c t (hlookup c t ht)
  | some e =>
    obtain ⟨c, v⟩ := e
    obtain ⟨t, hmax, hversion⟩ := ioDeriveLastIndexed_eq_some.mp hderive
    have hlast := maxTag_iff.mp hmax
    obtain ⟨t', ht'⟩ := Option.isSome_iff_exists.mp (AList.lookup_isSome.mpr (hkept c v hderive))
    obtain ⟨ht, hbelongs⟩ := mem_branchTags.mp hlast.mem
    obtain rfl := Option.some.inj (ht.symm.trans (hlookup c t' ht'))
    have hlast' := hlast.sublist htags (nodup_branchTags ds b) (mem_branchTags.mpr ⟨ht', hbelongs⟩)
    exact ioDeriveLastIndexed_eq_some.mpr ⟨t, maxTag_iff.mpr hlast', hversion⟩

/-- Only the tags count, not the branches. -/
theorem ioDeriveLastIndexed_congr {ds' : LanceDataset ρ} (h : ds'.tags = ds.tags)
    (b : BranchName) : ioDeriveLastIndexed ds' b = ioDeriveLastIndexed ds b := by
  simp only [ioDeriveLastIndexed, branchTags, h]

theorem branchTags_putTag_new {tagBranch : Option BranchName} (hnew : c ∉ ds.tags) :
    branchTags (ds.putTag c tagBranch v) b =
      if belongsTo b tagBranch then (c, ⟨tagBranch, v, ds.clock⟩) :: branchTags ds b
      else branchTags ds b := by
  simp only [branchTags, Dataset.putTag, AList.entries_insert_of_notMem hnew, List.map_cons]
  rw [List.filter_cons]

/-- A new tag that does not count for the branch changes nothing. -/
theorem ioDeriveLastIndexed_putTag_other {tagBranch : Option BranchName} (hnew : c ∉ ds.tags)
    (hother : belongsTo b tagBranch = false) :
    ioDeriveLastIndexed (ds.putTag c tagBranch v) b = ioDeriveLastIndexed ds b := by
  simp only [ioDeriveLastIndexed, branchTags_putTag_new hnew, hother, Bool.false_eq_true, if_false]

/-- A new tag is the last indexed commit, or it changes nothing. -/
theorem ioDeriveLastIndexed_putTag_cases {tagBranch : Option BranchName} (hnew : c ∉ ds.tags) :
    ioDeriveLastIndexed (ds.putTag c tagBranch v) b = some (c, v) ∨
      ioDeriveLastIndexed (ds.putTag c tagBranch v) b = ioDeriveLastIndexed ds b := by
  simp only [ioDeriveLastIndexed, branchTags_putTag_new hnew]
  split
  · rcases maxTag_cons (c, ⟨tagBranch, v, ds.clock⟩) (branchTags ds b) with hmax | hmax
    · exact .inl (by rw [hmax]; rfl)
    · exact .inr (by rw [hmax])
  · exact .inr rfl

/-- A new tag is the latest when no tag of the branch has a greater version. -/
theorem isLatest_putTag {c : CommitId} {v : ℕ}
    (hversions : ∀ c' t', ds.tags.lookup c' = some t' → belongsTo b t'.branch = true →
      t'.version ≤ v)
    (hstamps : ∀ c' t', ds.tags.lookup c' = some t' → t'.createdAt < ds.clock) :
    IsLatest (ds.putTag c (wantBranch b) v) b c ⟨wantBranch b, v, ds.clock⟩ := by
  refine ⟨by rw [Dataset.lookup_putTag, if_pos rfl], by simp [belongsTo], fun c' t' h hb hne => ?_⟩
  rw [Dataset.lookup_putTag, if_neg hne] at h
  have hv := hversions c' t' h hb
  have hs := hstamps c' t' h
  simp only [tagLater, Bool.or_eq_true, Bool.and_eq_true, decide_eq_true_eq, beq_iff_eq]
  omega

end Derive

/-- The commit that `last_indexed` reports. -/
def Domain.reported (d : Domain V) (b : BranchName) : Option CommitId := (lastIndexed d b).1.commit

theorem Domain.reported_eq (d : Domain V) (b : BranchName) :
    d.reported b = match d.branchIndexes.lookup b with
      | some bi => bi.commit
      | none => (ioDeriveLastIndexed d.opened b).map (·.1) := by
  unfold reported lastIndexed
  cases hb : d.branchIndexes.lookup b with
  | some bi => rfl
  | none =>
    cases hds : d.dataset with
    | none =>
      have hnone : ioDeriveLastIndexed d.opened b = none := by
        rw [ioDeriveLastIndexed_eq_none, Domain.opened, hds]
        intro c t h
        cases h
      rw [hnone]
      rfl
    | some ds =>
      simp only [Domain.opened, hds, Option.bind_some, Option.getD_some]
      cases ioDeriveLastIndexed ds b <;> rfl

end Vectorlink
