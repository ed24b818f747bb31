import Mathlib.Logic.Relation
import Vectorlink.Store.CompactionBranches
import Vectorlink.Store.CompactionReaders

/-! The cleanup at the start of a server, after a compaction that was cut off anywhere. -/
namespace Vectorlink

open Stepwise Stepwise.Program Versioned Dataset RetagEnv

variable {ρ : Type}

/-- What a cleanup may do to a dataset: it removes tags on missing branches, rebuild branches
without a tag, and versions of the default branch that are neither tagged nor the newest. -/
structure Swept (s t : LanceDataset ρ) : Prop where
  tags : ∀ c x, t.tags.lookup c = some x → s.tags.lookup c = some x
  orphans : ∀ c x, s.tags.lookup c = some x →
    t.tags.lookup c = some x ∨ ∃ b, x.branch = some b ∧ b ∉ s.branches
  branches : ∀ b, t.branches.lookup b = s.branches.lookup b ∨
    t.branches.lookup b = none ∧ isCompactRebuildBranch b ∧
      ∀ c x, t.tags.lookup c = some x → x.branch ≠ some b
  head : t.main.head = s.main.head ∧ t.main.headRows = s.main.headRows
  main : ∀ c x, t.tags.lookup c = some x → x.branch = none →
    t.main.rows x.version = s.main.rows x.version

/-- Every tag is on a branch that exists, and every rebuild branch has a tag. -/
structure Clean (s : LanceDataset ρ) : Prop where
  tags : ∀ c x b, s.tags.lookup c = some x → x.branch = some b → b ∈ s.branches
  branches : ∀ b ∈ s.branches, isCompactRebuildBranch b → b ∈ referencedBranches s

section Swept

variable {s t u : LanceDataset ρ}

theorem mem_branches_iff {b : BranchName} : b ∈ s.branches ↔ s.branches.lookup b ≠ none := by
  rw [← AList.lookup_isSome, Option.isSome_iff_ne_none]

theorem Swept.refl (s : LanceDataset ρ) : Swept s s where
  tags _ _ h := h
  orphans _ _ h := .inl h
  branches _ := .inl rfl
  head := ⟨rfl, rfl⟩
  main _ _ _ _ := rfl

/-- A branch that a tag is on has not been removed. -/
theorem Swept.branch_of_tag (h : Swept s t) {c : CommitId} {x : TagContents BranchName}
    {b : BranchName} (hx : t.tags.lookup c = some x) (hb : x.branch = some b) :
    t.branches.lookup b = s.branches.lookup b := by
  rcases h.branches b with hsame | ⟨-, -, hnone⟩
  · exact hsame
  · exact absurd hb (hnone c x hx)

theorem Swept.trans (h : Swept s t) (h' : Swept t u) : Swept s u where
  tags c x hx := h.tags c x (h'.tags c x hx)
  orphans c x hx := by
    rcases h.orphans c x hx with ht | horphan
    · rcases h'.orphans c x ht with hu | ⟨b, hb, hnot⟩
      · exact .inl hu
      · refine .inr ⟨b, hb, ?_⟩
        rwa [mem_branches_iff, ← h.branch_of_tag ht hb, ← mem_branches_iff]
    · exact .inr horphan
  branches b := by
    rcases h'.branches b with hsame | hgone
    · rcases h.branches b with hsame' | ⟨hnone, hrebuild, htags⟩
      · exact .inl (hsame.trans hsame')
      · exact .inr ⟨hsame.trans hnone, hrebuild, fun c x hx => htags c x (h'.tags c x hx)⟩
    · exact .inr hgone
  head := ⟨h'.head.1.trans h.head.1, h'.head.2.trans h.head.2⟩
  main c x hx hb := (h'.main c x hx hb).trans (h.main c x (h'.tags c x hx) hb)

/-- A cleanup changes the answer for no commit. -/
theorem Swept.served (h : Swept s t) (c : CommitId) : t.served c = s.served c := by
  have hkept : ∀ x, t.tags.lookup c = some x →
      t.rowsAt x.branch x.version = s.rowsAt x.branch x.version := by
    intro x hx
    cases hb : x.branch with
    | none => exact h.main c x hx hb
    | some b =>
      have hlookup := h.branch_of_tag hx hb
      simp only [rowsAt, lineage?_some, hlookup]
  unfold Dataset.served
  cases hs : s.tags.lookup c with
  | none =>
    cases ht : t.tags.lookup c with
    | none => rfl
    | some x =>
      rw [h.tags c x ht] at hs
      cases hs
  | some x =>
    rcases h.orphans c x hs with ht | ⟨b, hb, hnot⟩
    · rw [ht]
      exact hkept x ht
    · have hnone : s.rowsAt x.branch x.version = none := by
        rw [mem_branches_iff, not_not] at hnot
        simp only [rowsAt, hb, lineage?_some, hnot, Option.bind_none]
      cases ht : t.tags.lookup c with
      | none => exact hnone.symm
      | some y =>
        have hy := h.tags c y ht
        rw [hs] at hy
        obtain rfl := Option.some.inj hy
        exact hkept x ht

theorem Swept.userBranch (h : Swept s t) {b : BranchName} (hb : UserBranch b) :
    t.branches.lookup b = s.branches.lookup b := by
  rcases h.branches b with hsame | ⟨-, hrebuild, -⟩
  · exact hsame
  · rw [hb.2] at hrebuild
    cases hrebuild

end Swept

section Safety

variable {s t : LanceDataset ρ}

/-- A tag that may be purged, and a branch that may be. -/
def Orphan (s : LanceDataset ρ) (c : CommitId) : Prop :=
  ∃ x b, s.tags.lookup c = some x ∧ x.branch = some b ∧ b ∉ s.branches

def Untagged (s : LanceDataset ρ) (b : BranchName) : Prop :=
  isCompactRebuildBranch b ∧ ∀ c x, s.tags.lookup c = some x → x.branch = some b → b ∉ s.branches

theorem Swept.dropTag (h : Swept s t) {c : CommitId} (hc : Orphan s c) : Swept s (t.dropTag c) where
  tags c' x hx := by
    rw [lookup_dropTag] at hx
    split at hx
    · cases hx
    · exact h.tags c' x hx
  orphans c' x hx := by
    rw [lookup_dropTag]
    split
    · rename_i heq
      obtain ⟨y, b, hy, hb, hnot⟩ := hc
      rw [heq, hy] at hx
      obtain rfl := Option.some.inj hx
      exact .inr ⟨b, hb, hnot⟩
    · exact h.orphans c' x hx
  branches b := by
    rcases h.branches b with hsame | ⟨hnone, hrebuild, htags⟩
    · exact .inl hsame
    · refine .inr ⟨hnone, hrebuild, fun c' x hx => ?_⟩
      rw [lookup_dropTag] at hx
      split at hx
      · cases hx
      · exact htags c' x hx
  head := h.head
  main c' x hx hb := by
    rw [lookup_dropTag] at hx
    split at hx
    · cases hx
    · exact h.main c' x hx hb

theorem Swept.dropBranch (h : Swept s t) {b : BranchName} (hb : Untagged s b) :
    Swept s (t.dropBranch b) where
  tags := h.tags
  orphans := h.orphans
  branches b' := by
    by_cases hne : b' = b
    · subst hne
      have hnone : (t.dropBranch b').branches.lookup b' = none := AList.lookup_erase _ _
      by_cases hmem : b' ∈ s.branches
      · exact .inr ⟨hnone, hb.1, fun c x hx hx' => hb.2 c x (h.tags c x hx) hx' hmem⟩
      · rw [mem_branches_iff, not_not] at hmem
        exact .inl (hnone.trans hmem.symm)
    · have hother : (t.dropBranch b).branches.lookup b' = t.branches.lookup b' :=
        AList.lookup_erase_ne hne
      rw [hother]
      exact h.branches b'
  head := h.head
  main := h.main

theorem Swept.cleanup (h : Swept s t) : Swept s t.cleanup where
  tags := h.tags
  orphans := h.orphans
  branches := h.branches
  head := h.head
  main c x hx hb := by
    have htagged : t.mainTagged x.version := mainTagged_of_lookup hx hb
    have hkeep : t.cleanup.main.rows x.version = t.main.rows x.version :=
      Lineage.prune_rows_of_keep htagged
    rw [hkeep]
    exact h.main c x hx hb

end Safety

namespace RetagEnv

variable {env : RetagEnv ρ} {s t : LanceDataset ρ}

/-- Whichever calls fail, a cleanup does nothing else, up to each of its states. -/
theorem cleanupOrphaned_swept (s : LanceDataset ρ) :
    Preserves (Swept s) env.ioCleanupOrphanedTagsAndStaleBranches := by
  apply env.preserves_cleanupOrphaned (Orphan s) (Untagged s)
  · intro t c ht hc
    obtain ⟨x, b, hx, hb, hnot⟩ := lookup_of_mem_orphanedTags hc
    refine ⟨x, b, ht.tags c x hx, hb, ?_⟩
    rwa [mem_branches_iff, ← ht.branch_of_tag hx hb, ← mem_branches_iff]
  · intro t b ht hrebuild hb
    refine ⟨hrebuild, fun c x hx hxb => ?_⟩
    rcases ht.orphans c x hx with htag | ⟨b', hb', hnot⟩
    · exact absurd (mem_referencedBranches htag hxb) hb
    · rw [hxb] at hb'
      obtain rfl := Option.some.inj hb'
      exact hnot
  · intro t c hc ht
    exact ht.dropTag hc
  · intro t b hb ht
    exact ht.dropBranch hb
  · intro t ht
    exact ht.cleanup

theorem mem_orphanedTags {branches : List BranchName} {c : CommitId} :
    c ∈ orphanedTags s branches ↔
      ∃ x b, s.tags.lookup c = some x ∧ x.branch = some b ∧ b ∉ branches := by
  constructor
  · intro h
    obtain ⟨⟨c, x⟩, he, rfl⟩ := List.mem_map.mp h
    obtain ⟨he, hany⟩ := List.mem_filter.mp he
    obtain ⟨b, hb, hnot⟩ := (Option.any_eq_true _ _).mp hany
    exact ⟨x, b, AList.mem_lookup_iff.mpr he, hb, of_decide_eq_true hnot⟩
  · rintro ⟨x, b, hx, hb, hnot⟩
    apply List.mem_map.mpr
    refine ⟨⟨c, x⟩, List.mem_filter.mpr ⟨AList.mem_lookup_iff.mp hx, ?_⟩, rfl⟩
    exact (Option.any_eq_true _ _).mpr ⟨b, hb, decide_eq_true hnot⟩

theorem orphanedTags_eq_nil {branches : List BranchName} : orphanedTags s branches = [] ↔
    ∀ c x b, s.tags.lookup c = some x → x.branch = some b → b ∈ branches := by
  rw [List.eq_nil_iff_forall_not_mem]
  constructor
  · intro h c x b hx hb
    by_contra hnot
    exact h c (mem_orphanedTags.mpr ⟨x, b, hx, hb, hnot⟩)
  · intro h c hc
    obtain ⟨x, b, hx, hb, hnot⟩ := mem_orphanedTags.mp hc
    exact hnot (h c x b hx hb)

section Complete

variable (hfails : ∀ op, env.fails op = false)
include hfails

/-- The purge takes one orphaned tag after the other. -/
theorem purgeTag_complete (branches : List BranchName) (c : CommitId) (rest : List CommitId) :
    Spec (fun s => s.branches.keys = branches ∧ ∀ x ∈ orphanedTags s branches, x ∈ c :: rest)
      (env.purgeTag c)
      (fun _ s => s.branches.keys = branches ∧ ∀ x ∈ orphanedTags s branches, x ∈ rest)
      (fun _ _ => False) (fun _ _ => True) := by
  refine Spec.bind (R := fun _ s => s.branches.keys = branches ∧
    ∀ x ∈ orphanedTags s branches, x ∈ rest) (env.softWrites_spec ?_ ?_)
    fun _ => Spec.pure fun _ hs => hs
  · intro s t hs _ hdelete
    obtain ⟨-, rfl⟩ := deleteTag_ok.mp hdelete
    refine ⟨trivial, hs.1, fun x hx => ?_⟩
    obtain ⟨y, b, hy, hb, hnot⟩ := mem_orphanedTags.mp hx
    rw [lookup_dropTag] at hy
    split at hy
    · cases hy
    · rename_i hne
      have hmem := hs.2 x (mem_orphanedTags.mpr ⟨y, b, hy, hb, hnot⟩)
      exact (List.mem_cons.mp hmem).resolve_left hne
  · intro s hs herror
    refine ⟨hs.1, fun x hx => ?_⟩
    rcases herror with herror | ⟨e, herror⟩
    · rw [hfails] at herror
      cases herror
    · -- The tag is not there, so it is none of the orphaned ones.
      have hgone : c ∉ s.tags := by
        intro hmem
        rw [deleteTag_ok.mpr ⟨hmem, rfl⟩] at herror
        cases herror
      have hne : x ≠ c := by
        rintro rfl
        obtain ⟨y, b, hy, -⟩ := mem_orphanedTags.mp hx
        apply hgone
        rw [← AList.lookup_isSome, hy, Option.isSome_some]
      exact (List.mem_cons.mp (hs.2 x hx)).resolve_left hne

theorem purgeTags_complete (branches : List BranchName) (xs : List CommitId) :
    Spec (fun s => s.branches.keys = branches ∧ ∀ x ∈ orphanedTags s branches, x ∈ xs)
      (env.purgeTags xs) (fun _ s => s.branches.keys = branches ∧ orphanedTags s branches = [])
      (fun _ _ => False) (fun _ _ => True) := by
  have hdone : ∀ s : LanceDataset ρ, (∀ x ∈ orphanedTags s branches, x ∈ ([] : List CommitId)) →
      orphanedTags s branches = [] := by
    intro s h
    apply List.eq_nil_iff_forall_not_mem.mpr
    intro x hx
    cases h x hx
  refine Spec.ite (fun hxs => Spec.pure fun s hs => ?_) (fun _ => Spec.bind
    (R := fun _ s => s.branches.keys = branches ∧ ∀ x ∈ orphanedTags s branches, x ∈ xs)
    (env.opens_spec (fun s hs _ => hs) (fun s _ h => ?_)) fun _ => ?_)
  · rw [List.isEmpty_iff.mp hxs] at hs
    exact ⟨hs.1, hdone s hs.2⟩
  · rw [hfails] at h
    cases h
  · exact (Spec.forEach (fun rest s => s.branches.keys = branches ∧
      ∀ x ∈ orphanedTags s branches, x ∈ rest)
      (fun c rest => purgeTag_complete hfails branches c rest) xs).weaken (fun _ hs => hs)
      (fun _ s hs => ⟨hs.1, hdone s hs.2⟩) (fun _ _ h => h) (fun _ _ h => h)

/-- The rebuild branches without a tag are all to be purged, and nothing else is. -/
structure PurgingBranches (refs : List BranchName) (rest : List BranchName) (s : LanceDataset ρ) :
    Prop where
  refs_eq : referencedBranches s = refs
  tags : ∀ c x b, s.tags.lookup c = some x → x.branch = some b → b ∈ s.branches
  left : ∀ b ∈ s.branches, isCompactRebuildBranch b → b ∉ refs → b ∈ rest
  unreferenced : ∀ b ∈ rest, b ∉ refs

theorem purgeBranch_complete (refs : List BranchName) (b : BranchName) (rest : List BranchName) :
    Spec (PurgingBranches refs (b :: rest)) (env.purgeBranch b)
      (fun _ => PurgingBranches refs rest) (fun _ _ => False)
      (fun _ _ => True) := by
  refine Spec.bind (R := fun _ => PurgingBranches refs (b :: rest))
    (env.opens_spec (fun s hs _ => hs) (fun s _ h => ?_)) fun _ =>
      Spec.bind (R := fun _ => PurgingBranches refs rest) (env.softWrites_spec ?_ ?_)
        fun _ => Spec.pure fun _ hs => hs
  · rw [hfails] at h
    cases h
  · intro s t hs _ hdelete
    obtain ⟨-, rfl⟩ := deleteBranch_ok.mp hdelete
    refine ⟨trivial, hs.refs_eq, fun c x b' hx hb' => ?_, fun b' hb' hrebuild hnot => ?_,
      fun b' hb' => hs.unreferenced b' (List.mem_cons_of_mem b hb')⟩
    · have hne : b' ≠ b := by
        rintro rfl
        apply hs.unreferenced b' List.mem_cons_self
        rw [← hs.refs_eq]
        exact mem_referencedBranches hx hb'
      exact AList.mem_erase.mpr ⟨hne, hs.tags c x b' hx hb'⟩
    · obtain ⟨hne, hmem⟩ := AList.mem_erase.mp hb'
      exact (List.mem_cons.mp (hs.left b' hmem hrebuild hnot)).resolve_left hne
  · intro s hs herror
    rcases herror with herror | ⟨e, herror⟩
    · rw [hfails] at herror
      cases herror
    · have hgone : b ∉ s.branches := by
        intro hmem
        rw [deleteBranch_ok.mpr ⟨hmem, rfl⟩] at herror
        cases herror
      refine ⟨hs.refs_eq, hs.tags, fun b' hb' hrebuild hnot => ?_,
        fun b' hb' => hs.unreferenced b' (List.mem_cons_of_mem b hb')⟩
      have hne : b' ≠ b := by
        rintro rfl
        exact hgone hb'
      exact (List.mem_cons.mp (hs.left b' hb' hrebuild hnot)).resolve_left hne

theorem cleanupOrphaned_clean :
    Spec (fun _ => True) env.ioCleanupOrphanedTagsAndStaleBranches (fun _ => Clean)
      (fun _ _ => False) (fun _ _ => True) := by
  have hstop : ∀ {op} {f : Prop}, env.fails op = true → f := by
    intro op f h
    rw [hfails] at h
    cases h
  refine Spec.bind (R := fun all s => s.branches.keys = all)
    (env.reads_spec (fun s a _ _ hf => Except.ok.inj hf) (fun s _ h => ?_)) fun all => ?_
  · rcases h with h | ⟨e, h⟩
    · exact hstop h
    · cases h
  refine Spec.bind (R := fun xs s => s.branches.keys = all ∧ ∀ x ∈ orphanedTags s all, x ∈ xs)
    (env.reads_spec (fun s a hs _ hf => ?_) (fun s _ h => ?_)) fun xs => ?_
  · obtain rfl := Except.ok.inj hf
    exact ⟨hs, fun x hx => hx⟩
  · rcases h with h | ⟨e, h⟩
    · exact hstop h
    · cases h
  refine Spec.bind (purgeTags_complete hfails all xs) fun purgedTags => ?_
  refine Spec.bind (R := fun refs s => PurgingBranches refs
      (all.filter fun b => isCompactRebuildBranch b && b ∉ refs) s)
    (env.reads_spec (fun s refs hs _ hf => ?_) (fun s _ h => ?_)) fun refs => ?_
  · obtain rfl := Except.ok.inj hf
    obtain ⟨hall, hnone⟩ := hs
    refine ⟨rfl, fun c x b hx hb => ?_, fun b hb hrebuild hnot => ?_, fun b hb => ?_⟩
    · rw [AList.mem_keys, hall]
      exact orphanedTags_eq_nil.mp hnone c x b hx hb
    · rw [AList.mem_keys, hall] at hb
      exact List.mem_filter.mpr ⟨hb, by simp [hrebuild, hnot]⟩
    · have hb' := (List.mem_filter.mp hb).2
      rw [Bool.and_eq_true] at hb'
      exact of_decide_eq_true hb'.2
  · rcases h with h | ⟨e, h⟩
    · exact hstop h
    · cases h
  refine Spec.bind (Spec.forEach (PurgingBranches refs) (purgeBranch_complete hfails refs) _)
    fun purgedBranches => ?_
  have hclean : ∀ s : LanceDataset ρ, PurgingBranches refs [] s → Clean s := by
    intro s hs
    refine ⟨hs.tags, fun b hb hrebuild => ?_⟩
    by_contra hnot
    rw [hs.refs_eq] at hnot
    cases hs.left b hb hrebuild hnot
  refine Spec.ite (fun _ => Spec.bind (R := fun _ => Clean) (env.softWrites_spec ?_ ?_)
    fun _ => Spec.pure fun _ hs => hs) (fun _ => Spec.pure hclean)
  · intro s t hs _ hcleanup
    obtain rfl := Except.ok.inj hcleanup
    exact ⟨trivial, (hclean s hs).tags, (hclean s hs).branches⟩
  · intro s hs _
    exact hclean s hs

end Complete

/-- Nothing is written to a dataset that is clean, whichever calls fail. -/
theorem cleanupOrphaned_still (hclean : Clean s) :
    (env.ioCleanupOrphanedTagsAndStaleBranches s).trace = [] ∧
      (env.ioCleanupOrphanedTagsAndStaleBranches s).store = s := by
  have horphaned : orphanedTags s s.branches.keys = [] :=
    orphanedTags_eq_nil.mpr fun c x b hx hb => AList.mem_keys.mp (hclean.tags c x b hx hb)
  have hstale : (s.branches.keys.filter fun b =>
      isCompactRebuildBranch b && b ∉ referencedBranches s) = [] := by
    apply List.filter_eq_nil_iff.mpr
    intro b hb
    rw [Bool.and_eq_true, not_and]
    intro hrebuild hnot
    exact of_decide_eq_true hnot (hclean.branches b (AList.mem_keys.mpr hb) hrebuild)
  have hspec : Spec (fun t => t = s) env.ioCleanupOrphanedTagsAndStaleBranches (fun _ t => t = s)
      (fun _ t => t = s) (fun _ _ => False) := by
    refine Spec.bind (R := fun all t => t = s ∧ all = s.branches.keys)
      (env.reads_spec (fun t a ht _ hf => ?_) (fun t ht _ => ht)) fun all => Spec.of_and ?_
    · subst ht
      exact ⟨rfl, (Except.ok.inj hf).symm⟩
    rintro rfl
    refine Spec.bind (R := fun xs t => t = s ∧ xs = [])
      (env.reads_spec (fun t a ht _ hf => ?_) (fun t ht _ => ht)) fun xs => Spec.of_and ?_
    · subst ht
      exact ⟨rfl, (Except.ok.inj hf).symm.trans horphaned⟩
    rintro rfl
    refine Spec.bind (R := fun purged t => t = s ∧ purged = []) (Spec.pure fun t ht => ⟨ht, rfl⟩)
      fun purgedTags => Spec.of_and ?_
    rintro rfl
    refine Spec.bind (R := fun refs t => t = s ∧ refs = referencedBranches s)
      (env.reads_spec (fun t a ht _ hf => ?_) (fun t ht _ => ht)) fun refs => Spec.of_and ?_
    · subst ht
      exact ⟨rfl, (Except.ok.inj hf).symm⟩
    rintro rfl
    rw [hstale]
    exact Spec.pure fun t ht => ht
  constructor
  · apply List.eq_nil_iff_forall_not_mem.mpr
    intro e he
    exact (hspec s rfl).1 e he
  · exact hspec.final rfl

end RetagEnv

section Crash

variable {env : RetagEnv ρ} {ds s t : LanceDataset ρ}

/-- User branches and the newest rows of the default branch are as they were. -/
structure Unaffected (ds s : LanceDataset ρ) : Prop where
  branches : ∀ b, UserBranch b → s.branches.lookup b = ds.branches.lookup b
  head : s.main.head = ds.main.head ∧ s.main.headRows = ds.main.headRows

theorem Swept.unaffected (h : Swept s t) (hs : Unaffected ds s) : Unaffected ds t where
  branches b hb := (h.userBranch hb).trans (hs.branches b hb)
  head := ⟨h.head.1.trans hs.head.1, h.head.2.trans hs.head.2⟩

theorem RetagEnv.Replayed.unaffected (h : env.Replayed ds s) : Unaffected ds s where
  branches b hb := h.branches b (UserBranch.not_rebuild hb)
  head := by rw [h.main]; exact ⟨rfl, rfl⟩

theorem RetagEnv.sweep_unaffected (ds : LanceDataset ρ) : Preserves (Unaffected ds) env.sweep := by
  have hdrop : ∀ (s : LanceDataset ρ) (b : BranchName), isCompactRebuildBranch b →
      Unaffected ds s → Unaffected ds (s.dropBranch b) := by
    intro s b hrebuild hs
    refine ⟨fun b' hb' => ?_, hs.head⟩
    have hne : b' ≠ b := by
      rintro rfl
      rw [hb'.2] at hrebuild
      cases hrebuild
    have hother : (s.dropBranch b).branches.lookup b' = s.branches.lookup b' :=
      AList.lookup_erase_ne hne
    rw [hother]
    exact hs.branches b' hb'
  apply env.preserves_sweep (fun _ => True) (fun b => isCompactRebuildBranch b)
  · intro s b hold hs
    rw [onOlderRebuild, Option.any_some, Bool.and_eq_true] at hold
    exact hdrop s b hold.1 hs
  · intro s c _ _
    trivial
  · intro s b _ hrebuild _
    exact hrebuild
  · intro s c _ hs
    exact ⟨hs.branches, hs.head⟩
  · intro s b hrebuild hs
    exact hdrop s b hrebuild hs
  · intro s hs
    exact ⟨hs.branches, hs.head⟩

/-- All commits but one still resolve. -/
def AllButOne (ds s : LanceDataset ρ) : Prop :=
  ∃ lost, ∀ c, c ≠ lost → (ds.served c).isSome → (s.served c).isSome

theorem allButOne_of_noLoss (h : NoLoss ds s) : AllButOne ds s :=
  ⟨"", fun c _ hc => h c hc⟩

theorem allButOne_dropTag (h : NoLoss ds s) (lost : CommitId) : AllButOne ds (s.dropTag lost) := by
  refine ⟨lost, fun c hne hc => ?_⟩
  obtain ⟨r, hr⟩ := Option.isSome_iff_exists.mp (h c hc)
  obtain ⟨x, hhome⟩ := exists_home hr
  rw [(hhome.dropTag hne).served, Option.isSome_some]

namespace RetagEnv

variable {first : CommitId × ℕ} {rest : List (CommitId × ℕ)} {s₁ : LanceDataset ρ}
  {Rel : CommitId → List ρ → Prop}

theorem movedAll_main {es : List (CommitId × ℕ)} : (env.movedAll s es).main = s.main := by
  induction es generalizing s with
  | nil => rfl
  | cons e es ih => exact ih

theorem ReadyToMove.unaffected_movedAll (h : ReadyToMove env ds Rel first rest s₁)
    (es : List (CommitId × ℕ)) : Unaffected ds (env.movedAll s₁ es) := by
  have hs₁ := h.replayed.unaffected
  refine ⟨fun b hb => ?_, ?_⟩
  · rw [movedAll_branches]
    exact hs₁.branches b hb
  · rw [movedAll_main]
    exact hs₁.head

/-- While the tags move, one of them may be missing. -/
theorem ReadyToMove.midMove_allButOne (h : ReadyToMove env ds Rel first rest s₁)
    (hfresh : env.FreshEpoch ds) (hsort : sorted env.order ds = first :: rest)
    (hs : env.MidMove s₁ (env.plan ds first rest).1 (env.plan ds first rest).2 s) :
    AllButOne ds s ∧ Unaffected ds s := by
  obtain ⟨pre, e, hpre, hs⟩ := hs
  rw [h.moves_eq] at hpre
  rcases hs with rfl | rfl
  · have hkept : NoLoss ds (env.movedAll s₁ pre) :=
      h.noLoss_movedAll hfresh hsort ((List.prefix_append pre [e]).trans hpre)
    have hun := h.unaffected_movedAll pre
    exact ⟨allButOne_dropTag hkept e.1, hun.branches, hun.head⟩
  · exact ⟨allButOne_of_noLoss (h.noLoss_movedAll hfresh hsort hpre), h.unaffected_movedAll _⟩

/-- A commit at a place that the sweep leaves alone. -/
structure Settled (env : RetagEnv ρ) (s : LanceDataset ρ) where
  commit : CommitId
  tag : TagContents BranchName
  rows : List ρ
  home : Home commit tag rows s
  newer : env.onOlderRebuild tag.branch = false

/-- After the moves only the first commit may go, with an older rebuild branch. -/
theorem ReadyToMove.sweep_allButOne (h : ReadyToMove env ds Rel first rest s₁)
    (hfresh : env.FreshEpoch ds) (hsort : sorted env.order ds = first :: rest)
    (hlen : 1 < rest.length) :
    Spec (fun s => s = env.movedAll s₁ (env.movesOf ds first rest)) env.sweep (fun _ _ => True)
      (fun _ _ => True) (fun _ s => AllButOne ds s ∧ Unaffected ds s) := by
  have hhomes := Preserves.forall
    fun x : Settled env (env.movedAll s₁ (env.movesOf ds first rest)) =>
      env.sweep_home (c := x.commit) (r := x.rows) x.newer
  have hstart : ∀ s, s = env.movedAll s₁ (env.movesOf ds first rest) →
      (∀ x : Settled env (env.movedAll s₁ (env.movesOf ds first rest)),
        Home x.commit x.tag x.rows s) ∧ Unaffected ds s := by
    rintro s rfl
    exact ⟨fun x => x.home, h.unaffected_movedAll _⟩
  refine ((hhomes.pre fun s hs => (hstart s hs).1).and
    ((env.sweep_unaffected ds).pre fun s hs => (hstart s hs).2)).weaken (fun _ hs => hs)
    (fun _ _ _ => trivial) (fun _ _ _ => trivial)
    fun op s hs => ⟨⟨first.1, fun c hne hc => ?_⟩, hs.2⟩
  obtain ⟨r, hr⟩ := Option.isSome_iff_exists.mp hc
  obtain ⟨x, hhome⟩ := exists_home hr
  rcases home_movedAll_cases h hfresh hsort hlen hhome with ⟨y, r', hhome', hnewer⟩ | ⟨heq, -⟩
  · have hkept : Home c y r' s := hs.1 ⟨c, y, r', hhome', hnewer⟩
    rw [hkept.served, Option.isSome_some]
  · exact absurd heq hne

/-- Wherever a compaction is cut off, one commit at most has gone. -/
theorem states_allButOne (hfresh : env.FreshEpoch ds) :
    ∀ s ∈ env.states ds, AllButOne ds s ∧ Unaffected ds s := by
  have hspec : Spec (fun s => s = ds) env.retag (fun _ _ => True) (fun _ _ => True)
      (fun _ s => AllButOne ds s ∧ Unaffected ds s) := by
    refine retag_spec (fun _ => trivial) (fun _ _ => trivial) fun _ first rest hsort hlen => ?_
    have hrest : rest ≠ [] := by
      rintro rfl
      cases hlen
    refine retagSorted_spec hfresh (fun _ _ => True) (fun _ _ _ _ _ _ _ _ => trivial) hrest
      (fun _ _ => trivial) (fun _ _ _ => trivial)
      (fun _ s hs => ⟨allButOne_of_noLoss (hs.noLoss hfresh), hs.unaffected⟩) fun s₁ hready => ?_
    exact phase2_spec hready hsort (fun _ _ => trivial)
      (fun _ s hs => hready.midMove_allButOne hfresh hsort hs)
      (fun _ => hready.sweep_allButOne hfresh hsort hlen)
  intro s hs
  rcases List.mem_cons.mp hs with rfl | hs
  · exact ⟨allButOne_of_noLoss fun _ hc => hc, fun _ _ => rfl, rfl, rfl⟩
  · obtain ⟨e, he, rfl⟩ := List.mem_map.mp hs
    exact (hspec ds rfl).1 e he

end RetagEnv

/-- The cleanup of one start, cut off anywhere. -/
def Restarted (s t : LanceDataset ρ) : Prop := ∃ env : RetagEnv ρ,
  t ∈ s :: (env.ioCleanupOrphanedTagsAndStaleBranches s).trace.map Prod.snd

theorem Restarted.swept (h : Restarted s t) : Swept s t := by
  obtain ⟨env, ht⟩ := h
  rcases List.mem_cons.mp ht with rfl | ht
  · exact Swept.refl t
  · obtain ⟨e, he, rfl⟩ := List.mem_map.mp ht
    exact (env.cleanupOrphaned_swept s s (Swept.refl s)).1 e he

theorem swept_of_restarts (h : Relation.ReflTransGen Restarted s t) : Swept s t := by
  induction h with
  | refl => exact Swept.refl s
  | tail _ hlast ih => exact ih.trans hlast.swept

/-- A compaction is cut off anywhere, and so is any number of cleanups after it. One commit at most
is lost, by the compaction, and no user branch and no newest row. The first cleanup that goes
through leaves a clean dataset, to which later ones write nothing. -/
theorem startup_recovers (hfresh : env.FreshEpoch ds) (hs : s ∈ env.states ds)
    (ht : Relation.ReflTransGen Restarted s t) :
    AllButOne ds t ∧ (∀ c, t.served c = s.served c) ∧ Unaffected ds t ∧
      ∀ env' : RetagEnv ρ, (∀ op, env'.fails op = false) →
        ∃ u, (env'.ioCleanupOrphanedTagsAndStaleBranches t).result = .ok () ∧
          (env'.ioCleanupOrphanedTagsAndStaleBranches t).store = u ∧ Clean u ∧
          (∀ c, u.served c = s.served c) ∧ Unaffected ds u ∧
          ∀ env'' : RetagEnv ρ, (env''.ioCleanupOrphanedTagsAndStaleBranches u).trace = [] := by
  obtain ⟨⟨lost, hlost⟩, hun⟩ := env.states_allButOne hfresh s hs
  have hswept := swept_of_restarts ht
  refine ⟨⟨lost, fun c hne hc => ?_⟩, hswept.served, hswept.unaffected hun, fun env' hfails => ?_⟩
  · rw [hswept.served]
    exact hlost c hne hc
  · obtain ⟨⟨⟩, hok, hclean⟩ := (env'.cleanupOrphaned_clean hfails).completes (s := t) trivial
    have hlast : Swept s (env'.ioCleanupOrphanedTagsAndStaleBranches t).store :=
      hswept.trans ((env'.cleanupOrphaned_swept t).final (Swept.refl t))
    exact ⟨_, hok, rfl, hclean, hlast.served, hlast.unaffected hun,
      fun env'' => (env''.cleanupOrphaned_still hclean).1⟩

end Crash

/-- The compaction of three commits is cut off when it has deleted the tag of the second. -/
def untaggedHistory : LanceDataset (ChunkRow Unit) :=
  ((faultFree 7 (fun _ => 1) .listed).states linearHistory).get ⟨6, by decide⟩

/-- The first cleanup is cut off when it has deleted the rebuild branch. -/
def unbranchedHistory : LanceDataset (ChunkRow Unit) :=
  (((faultFree 8 (fun _ => 1) .listed).ioCleanupOrphanedTagsAndStaleBranches
    untaggedHistory).trace.map Prod.snd).get ⟨0, by decide⟩

theorem startup_recovers_untaggedHistory :
    untaggedHistory.served "c1" = none ∧ AllButOne linearHistory unbranchedHistory ∧
      (∀ c, unbranchedHistory.served c = untaggedHistory.served c) ∧
        Unaffected linearHistory unbranchedHistory := by
  have hrestart : Restarted untaggedHistory unbranchedHistory :=
    ⟨faultFree 8 (fun _ => 1) .listed, List.mem_cons_of_mem _ (List.get_mem _ _)⟩
  have hfresh : (faultFree 7 (fun _ => 1) .listed).FreshEpoch linearHistory :=
    RetagEnv.freshEpoch_of_entries (by decide)
  obtain ⟨hall, hserved, hun, -⟩ :=
    startup_recovers hfresh (List.get_mem _ _) (.tail .refl hrestart)
  exact ⟨by decide, hall, hserved, hun⟩

end Vectorlink
