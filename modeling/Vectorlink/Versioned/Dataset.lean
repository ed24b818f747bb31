import Mathlib.Data.List.AList
import Vectorlink.Versioned.Lineage

/-! A dataset whose branches are version histories and whose tags name versions. Tags
are global to the dataset, version numbers belong to the branch they were made on. -/
namespace Versioned

/-- Where a tag points. `branch = none` is the default branch. -/
structure TagContents (β : Type) where
  branch : Option β
  version : ℕ
  createdAt : ℕ
deriving DecidableEq, Repr

/-- The ways in which an operation on tags, branches or versions is refused. -/
inductive RefError where
  | tagNotFound
  | tagExists
  | branchNotFound
  | branchExists
  | versionNotFound
  | io
deriving DecidableEq, Repr

/-- `clock` stamps new tags; it only moves forward. -/
structure Dataset (β κ ρ : Type) where
  main : Lineage ρ
  branches : AList (fun _ : β => Lineage ρ)
  tags : AList (fun _ : κ => TagContents β)
  clock : ℕ

namespace Dataset

set_option linter.unusedSectionVars false

variable {β κ ρ : Type} [DecidableEq β] [DecidableEq κ]

/-- A new dataset: one empty version of the default branch. -/
def create : Dataset β κ ρ := ⟨.start 1 [], ∅, ∅, 0⟩

def lineage? (ds : Dataset β κ ρ) : Option β → Option (Lineage ρ)
  | none => some ds.main
  | some b => ds.branches.lookup b

def rowsAt (ds : Dataset β κ ρ) (b : Option β) (v : ℕ) : Option (List ρ) :=
  (ds.lineage? b).bind fun l => l.rows v

/-- The rows behind a tag, looked up on the branch the tag names. -/
def served (ds : Dataset β κ ρ) (c : κ) : Option (List ρ) :=
  (ds.tags.lookup c).bind fun t => ds.rowsAt t.branch t.version

def setLineage (ds : Dataset β κ ρ) : Option β → Lineage ρ → Dataset β κ ρ
  | none, l => { ds with main := l }
  | some b, l => { ds with branches := ds.branches.insert b l }

def createTag (ds : Dataset β κ ρ) (c : κ) (b : Option β) (v : ℕ) :
    Except RefError (Dataset β κ ρ) :=
  if c ∈ ds.tags then .error .tagExists
  else if (ds.rowsAt b v).isNone then .error .versionNotFound
  else .ok { ds with tags := ds.tags.insert c ⟨b, v, ds.clock⟩, clock := ds.clock + 1 }

def deleteTag (ds : Dataset β κ ρ) (c : κ) : Except RefError (Dataset β κ ρ) :=
  if c ∈ ds.tags then .ok { ds with tags := ds.tags.erase c } else .error .tagNotFound

/-- The new branch starts at the version it is forked from, under the same number. -/
def createBranch (ds : Dataset β κ ρ) (b : β) (source : Option β) (v : ℕ) :
    Except RefError (Dataset β κ ρ) :=
  if b ∈ ds.branches then .error .branchExists
  else match ds.rowsAt source v with
    | none => .error .versionNotFound
    | some r => .ok { ds with branches := ds.branches.insert b (.start v r) }

def deleteBranch (ds : Dataset β κ ρ) (b : β) : Except RefError (Dataset β κ ρ) :=
  if b ∈ ds.branches then .ok { ds with branches := ds.branches.erase b }
  else .error .branchNotFound

/-- Commit a new version of branch `b` made from its newest rows. -/
def commit (ds : Dataset β κ ρ) (b : Option β) (f : List ρ → List ρ) :
    Except RefError (Dataset β κ ρ) :=
  match ds.lineage? b with
  | none => .error .branchNotFound
  | some l => .ok (ds.setLineage b (l.advance (f l.headRows)))

/-- Commit `n` versions of branch `b` that keep the rows, as index maintenance does. -/
def touch (ds : Dataset β κ ρ) (b : Option β) (n : ℕ) : Except RefError (Dataset β κ ρ) :=
  match ds.lineage? b with
  | none => .error .branchNotFound
  | some l => .ok (ds.setLineage b (l.touch n))

def mainTagged (ds : Dataset β κ ρ) (v : ℕ) : Bool :=
  ds.tags.entries.any fun e => e.2.branch == none && e.2.version == v

/-- Prune the default branch down to its newest and its tagged versions. -/
def cleanup (ds : Dataset β κ ρ) : Dataset β κ ρ :=
  { ds with main := ds.main.prune ds.mainTagged }

@[simp] theorem lineage?_none (ds : Dataset β κ ρ) : ds.lineage? none = some ds.main := rfl

@[simp] theorem lineage?_some (ds : Dataset β κ ρ) (b : β) :
    ds.lineage? (some b) = ds.branches.lookup b := rfl

theorem lineage?_setLineage (ds : Dataset β κ ρ) (b b' : Option β) (l : Lineage ρ) :
    (ds.setLineage b l).lineage? b' = if b' = b then some l else ds.lineage? b' := by
  cases b with
  | none =>
    cases b' with
    | none => simp [setLineage]
    | some b' => simp [setLineage]
  | some b =>
    cases b' with
    | none => simp [setLineage]
    | some b' =>
      by_cases h : b' = b
      · subst h; simp [setLineage]
      · simp [setLineage, h, AList.lookup_insert_ne h]

@[simp] theorem setLineage_tags (ds : Dataset β κ ρ) (b : Option β) (l : Lineage ρ) :
    (ds.setLineage b l).tags = ds.tags := by cases b <;> rfl

@[simp] theorem setLineage_clock (ds : Dataset β κ ρ) (b : Option β) (l : Lineage ρ) :
    (ds.setLineage b l).clock = ds.clock := by cases b <;> rfl

theorem rowsAt_setLineage_ne {ds : Dataset β κ ρ} {b b' : Option β} {l : Lineage ρ} {v : ℕ}
    (h : b' ≠ b) : (ds.setLineage b l).rowsAt b' v = ds.rowsAt b' v := by
  simp [rowsAt, lineage?_setLineage, h]

@[simp] theorem rowsAt_setLineage_self (ds : Dataset β κ ρ) (b : Option β) (l : Lineage ρ)
    (v : ℕ) : (ds.setLineage b l).rowsAt b v = l.rows v := by
  simp [rowsAt, lineage?_setLineage]

/-- A dataset extends another when it has kept every version of every branch. -/
def Extends (ds ds' : Dataset β κ ρ) : Prop :=
  ∀ b v r, ds.rowsAt b v = some r → ds'.rowsAt b v = some r

theorem extends_setLineage {ds : Dataset β κ ρ} {b : Option β} {l l' : Lineage ρ}
    (hl : ds.lineage? b = some l) (h : ∀ v r, l.rows v = some r → l'.rows v = some r) :
    ds.Extends (ds.setLineage b l') := by
  intro b' v r hr
  by_cases hb : b' = b
  · subst hb
    rw [rowsAt_setLineage_self]
    exact h v r (by simpa [rowsAt, hl] using hr)
  · rwa [rowsAt_setLineage_ne hb]

/-- Point the tag `c` at a version, replacing an older tag of that name. -/
def putTag (ds : Dataset β κ ρ) (c : κ) (b : Option β) (v : ℕ) : Dataset β κ ρ :=
  { ds with tags := ds.tags.insert c ⟨b, v, ds.clock⟩, clock := ds.clock + 1 }

def dropTag (ds : Dataset β κ ρ) (c : κ) : Dataset β κ ρ :=
  { ds with tags := ds.tags.erase c }

def dropBranch (ds : Dataset β κ ρ) (b : β) : Dataset β κ ρ :=
  { ds with branches := ds.branches.erase b }

theorem lookup_putTag (ds : Dataset β κ ρ) (c : κ) (b : Option β) (v : ℕ) (c' : κ) :
    (ds.putTag c b v).tags.lookup c' =
      if c' = c then some ⟨b, v, ds.clock⟩ else ds.tags.lookup c' := by
  split
  · rename_i h
    subst h
    exact AList.lookup_insert _
  · rename_i h
    exact AList.lookup_insert_ne h

theorem lookup_dropTag (ds : Dataset β κ ρ) (c c' : κ) :
    (ds.dropTag c).tags.lookup c' = if c' = c then none else ds.tags.lookup c' := by
  split
  · rename_i h
    subst h
    exact AList.lookup_erase _ _
  · rename_i h
    exact AList.lookup_erase_ne h

theorem putTag_dropTag (ds : Dataset β κ ρ) (c : κ) (b : Option β) (v : ℕ) :
    (ds.dropTag c).putTag c b v = ds.putTag c b v := by
  have hnot : c ∉ ds.tags.erase c := by simp
  simp only [dropTag, putTag, Dataset.mk.injEq, and_true, true_and]
  apply AList.ext
  rw [AList.entries_insert_of_notMem hnot, AList.entries_insert]
  rfl

@[simp] theorem putTag_rowsAt (ds : Dataset β κ ρ) (c : κ) (b : Option β) (v : ℕ) (b' : Option β)
    (v' : ℕ) : (ds.putTag c b v).rowsAt b' v' = ds.rowsAt b' v' := by cases b' <;> rfl

@[simp] theorem dropTag_rowsAt (ds : Dataset β κ ρ) (c : κ) (b' : Option β) (v' : ℕ) :
    (ds.dropTag c).rowsAt b' v' = ds.rowsAt b' v' := by cases b' <;> rfl

theorem dropBranch_rowsAt_ne {ds : Dataset β κ ρ} {b : β} {b' : Option β} (h : b' ≠ some b)
    (v : ℕ) : (ds.dropBranch b).rowsAt b' v = ds.rowsAt b' v := by
  cases b' with
  | none => rfl
  | some b' =>
    have hne : b' ≠ b := fun e => h (by rw [e])
    simp [rowsAt, dropBranch, AList.lookup_erase_ne hne]

/-- The tag `c` is `t`, and `t` names a version with rows `r`. -/
def Home (c : κ) (t : TagContents β) (r : List ρ) (ds : Dataset β κ ρ) : Prop :=
  ds.tags.lookup c = some t ∧ ds.rowsAt t.branch t.version = some r

theorem Home.served {c : κ} {t : TagContents β} {r : List ρ} {ds : Dataset β κ ρ}
    (h : Home c t r ds) : ds.served c = some r := by
  simp [Dataset.served, h.1, h.2]

theorem exists_home {c : κ} {r : List ρ} {ds : Dataset β κ ρ} (h : ds.served c = some r) :
    ∃ t, Home c t r ds := Option.bind_eq_some_iff.mp h

theorem Home.mem_branches {c : κ} {t : TagContents β} {r : List ρ} {ds : Dataset β κ ρ}
    (h : Home c t r ds) {b : β} (hb : t.branch = some b) : b ∈ ds.branches := by
  have hr := h.2
  rw [hb, rowsAt, Option.bind_eq_some_iff] at hr
  obtain ⟨l, hl, -⟩ := hr
  exact AList.lookup_isSome.mp (by rw [lineage?_some] at hl; simp [hl])

theorem Home.dropTag {c c' : κ} {t : TagContents β} {r : List ρ} {ds : Dataset β κ ρ}
    (h : Home c t r ds) (hc : c ≠ c') : Home c t r (ds.dropTag c') := by
  refine ⟨?_, by simpa using h.2⟩
  rw [lookup_dropTag, if_neg hc, h.1]

theorem Home.putTag {c c' : κ} {t : TagContents β} {r : List ρ} {ds : Dataset β κ ρ}
    (h : Home c t r ds) (hc : c ≠ c') (b : Option β) (v : ℕ) : Home c t r (ds.putTag c' b v) := by
  refine ⟨?_, by simpa using h.2⟩
  rw [lookup_putTag, if_neg hc, h.1]

theorem Home.dropBranch {c : κ} {t : TagContents β} {r : List ρ} {ds : Dataset β κ ρ}
    (h : Home c t r ds) {b : β} (hb : t.branch ≠ some b) : Home c t r (ds.dropBranch b) :=
  ⟨h.1, (dropBranch_rowsAt_ne hb _).trans h.2⟩

/-! What each operation does, once and for all. -/

theorem createTag_ok {ds ds' : Dataset β κ ρ} {c : κ} {b : Option β} {v : ℕ} :
    ds.createTag c b v = .ok ds' ↔ c ∉ ds.tags ∧ (ds.rowsAt b v).isSome ∧
      ds' = ds.putTag c b v := by
  unfold createTag putTag
  split_ifs with h1 h2
  · simp [h1]
  · simp_all
  · simp only [Except.ok.injEq]
    rw [Option.isNone_iff_eq_none] at h2
    have h3 : (ds.rowsAt b v).isSome := by rwa [← Option.ne_none_iff_isSome]
    simp [h1, h3, eq_comm]

theorem deleteTag_ok {ds ds' : Dataset β κ ρ} {c : κ} :
    ds.deleteTag c = .ok ds' ↔ c ∈ ds.tags ∧ ds' = ds.dropTag c := by
  unfold deleteTag dropTag
  split_ifs with h <;> simp [h, eq_comm]

theorem createBranch_ok {ds ds' : Dataset β κ ρ} {b : β} {source : Option β} {v : ℕ} :
    ds.createBranch b source v = .ok ds' ↔ b ∉ ds.branches ∧ ∃ r, ds.rowsAt source v = some r ∧
      ds' = { ds with branches := ds.branches.insert b (.start v r) } := by
  unfold createBranch
  split_ifs with h
  · simp [h]
  · cases hr : ds.rowsAt source v <;> simp [h, eq_comm]

theorem deleteBranch_ok {ds ds' : Dataset β κ ρ} {b : β} :
    ds.deleteBranch b = .ok ds' ↔
      b ∈ ds.branches ∧ ds' = ds.dropBranch b := by
  unfold deleteBranch dropBranch
  split_ifs with h <;> simp [h, eq_comm]

theorem commit_ok {ds ds' : Dataset β κ ρ} {b : Option β} {f : List ρ → List ρ} :
    ds.commit b f = .ok ds' ↔
      ∃ l, ds.lineage? b = some l ∧ ds' = ds.setLineage b (l.advance (f l.headRows)) := by
  unfold commit
  cases hl : ds.lineage? b <;> simp [eq_comm]

theorem touch_ok {ds ds' : Dataset β κ ρ} {b : Option β} {n : ℕ} :
    ds.touch b n = .ok ds' ↔
      ∃ l, ds.lineage? b = some l ∧ ds' = ds.setLineage b (l.touch n) := by
  unfold touch
  cases hl : ds.lineage? b <;> simp [eq_comm]

@[simp] theorem cleanup_tags (ds : Dataset β κ ρ) : ds.cleanup.tags = ds.tags := rfl
@[simp] theorem cleanup_branches (ds : Dataset β κ ρ) : ds.cleanup.branches = ds.branches := rfl

theorem mainTagged_of_lookup {ds : Dataset β κ ρ} {c : κ} {t : TagContents β}
    (h : ds.tags.lookup c = some t) (ht : t.branch = none) : ds.mainTagged t.version := by
  have hm := AList.mem_lookup_iff.mp (Option.mem_def.mpr h)
  exact List.any_eq_true.mpr ⟨_, hm, by simp [ht]⟩

/-- Cleanup never takes away the rows behind a tag. -/
theorem Home.cleanup {c : κ} {t : TagContents β} {r : List ρ} {ds : Dataset β κ ρ}
    (h : Home c t r ds) : Home c t r ds.cleanup := by
  refine ⟨h.1, ?_⟩
  rw [← h.2]
  cases hb : t.branch with
  | some b => rfl
  | none => exact Lineage.prune_rows_of_keep (mainTagged_of_lookup h.1 hb)

/-- A tag keeps its rows while branches only grow. -/
theorem Home.extend {c : κ} {t : TagContents β} {r : List ρ} {ds ds' : Dataset β κ ρ}
    (h : Home c t r ds) (hext : ds.Extends ds') (htags : ds'.tags = ds.tags) : Home c t r ds' :=
  ⟨by rw [htags, h.1], hext _ _ _ h.2⟩

theorem Home.commit {c : κ} {t : TagContents β} {r : List ρ} {ds ds' : Dataset β κ ρ}
    {b : Option β} {f : List ρ → List ρ} (h : Home c t r ds) (hok : ds.commit b f = .ok ds') :
    Home c t r ds' := by
  obtain ⟨l, hl, rfl⟩ := commit_ok.mp hok
  refine h.extend (extends_setLineage hl fun v r' hr' => ?_) (setLineage_tags _ _ _)
  exact Lineage.advance_rows_of_some hr' _

theorem Home.touch {c : κ} {t : TagContents β} {r : List ρ} {ds ds' : Dataset β κ ρ}
    {b : Option β} {n : ℕ} (h : Home c t r ds) (hok : ds.touch b n = .ok ds') :
    Home c t r ds' := by
  obtain ⟨l, hl, rfl⟩ := touch_ok.mp hok
  refine h.extend (extends_setLineage hl fun v r' hr' => ?_) (setLineage_tags _ _ _)
  exact Lineage.touch_rows_of_some hr' _

theorem Home.createTag {c c' : κ} {t : TagContents β} {r : List ρ} {ds ds' : Dataset β κ ρ}
    {b : Option β} {v : ℕ} (h : Home c t r ds) (hok : ds.createTag c' b v = .ok ds') :
    Home c t r ds' := by
  obtain ⟨hnew, -, rfl⟩ := createTag_ok.mp hok
  refine h.putTag ?_ b v
  rintro rfl
  exact hnew (AList.lookup_isSome.mp (by simp [h.1]))

theorem Home.createBranch {c : κ} {t : TagContents β} {r : List ρ} {ds ds' : Dataset β κ ρ}
    {b : β} {source : Option β} {v : ℕ} (h : Home c t r ds)
    (hok : ds.createBranch b source v = .ok ds') : Home c t r ds' := by
  obtain ⟨hnew, r', -, rfl⟩ := createBranch_ok.mp hok
  refine ⟨h.1, ?_⟩
  rw [← h.2]
  cases hb : t.branch with
  | none => rfl
  | some b' =>
    have hne : b' ≠ b := by
      rintro rfl
      exact hnew (h.mem_branches hb)
    simp only [rowsAt, lineage?, AList.lookup_insert_ne hne]

/-- One operation on the dataset. -/
inductive Step : Dataset β κ ρ → Dataset β κ ρ → Prop
  | commit {ds ds' : Dataset β κ ρ} {b : Option β} {f : List ρ → List ρ} :
      ds.commit b f = .ok ds' → Step ds ds'
  | touch {ds ds' : Dataset β κ ρ} {b : Option β} {n : ℕ} : ds.touch b n = .ok ds' → Step ds ds'
  | createTag {ds ds' : Dataset β κ ρ} {c : κ} {b : Option β} {v : ℕ} :
      ds.createTag c b v = .ok ds' → Step ds ds'
  | deleteTag {ds ds' : Dataset β κ ρ} {c : κ} : ds.deleteTag c = .ok ds' → Step ds ds'
  | createBranch {ds ds' : Dataset β κ ρ} {b : β} {source : Option β} {v : ℕ} :
      ds.createBranch b source v = .ok ds' → Step ds ds'
  | deleteBranch {ds ds' : Dataset β κ ρ} {b : β} : ds.deleteBranch b = .ok ds' → Step ds ds'
  | cleanup {ds : Dataset β κ ρ} : Step ds ds.cleanup

/-- No operation replaces a tag: it takes a delete and then a create. -/
theorem Step.lookup_eq {ds ds' : Dataset β κ ρ} (h : Step ds ds') {c : κ} {t t' : TagContents β}
    (ht : ds.tags.lookup c = some t) (ht' : ds'.tags.lookup c = some t') : t = t' := by
  cases h with
  | commit h =>
    obtain ⟨l, -, rfl⟩ := commit_ok.mp h
    rw [setLineage_tags, ht] at ht'
    exact Option.some.inj ht'
  | touch h =>
    obtain ⟨l, -, rfl⟩ := touch_ok.mp h
    rw [setLineage_tags, ht] at ht'
    exact Option.some.inj ht'
  | createTag h =>
    obtain ⟨hnot, -, rfl⟩ := createTag_ok.mp h
    rw [lookup_putTag] at ht'
    split at ht'
    · rename_i hc
      subst hc
      exact absurd (AList.lookup_isSome.mp (by simp [ht])) hnot
    · exact Option.some.inj (ht.symm.trans ht')
  | deleteTag h =>
    obtain ⟨-, rfl⟩ := deleteTag_ok.mp h
    rw [lookup_dropTag] at ht'
    split at ht'
    · cases ht'
    · exact Option.some.inj (ht.symm.trans ht')
  | createBranch h =>
    obtain ⟨-, r, -, rfl⟩ := createBranch_ok.mp h
    exact Option.some.inj (ht.symm.trans ht')
  | deleteBranch h =>
    obtain ⟨-, rfl⟩ := deleteBranch_ok.mp h
    exact Option.some.inj (ht.symm.trans ht')
  | cleanup => exact Option.some.inj (ht.symm.trans ht')

end Dataset

end Versioned
