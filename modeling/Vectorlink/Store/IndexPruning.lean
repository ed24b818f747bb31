import Mathlib.Data.List.Dedup
import Vectorlink.Stepwise.Fallible
import Vectorlink.Store.IndexDirs

/-! Which index directories are referred to, and what a pruning leaves of the others. -/
namespace Vectorlink

open Stepwise Stepwise.Program Versioned

variable {ρ : Type}

section Reads

variable {κ ε α : Type} {strict : Bool} {read : κ → Except ε (List α)}

/-- What is collected is what some read gave. -/
theorem mem_collectReads {ks : List κ} {found : List α} (h : collectReads strict read ks = .ok found)
    {a : α} : a ∈ found ↔ ∃ k ∈ ks, ∃ l, read k = .ok l ∧ a ∈ l := by
  induction ks generalizing found with
  | nil =>
    cases h
    simp
  | cons k ks ih =>
    rw [collectReads] at h
    cases hk : read k with
    | ok l =>
      rw [hk] at h
      cases hrest : collectReads strict read ks with
      | error e =>
        rw [hrest] at h
        cases h
      | ok rest =>
        rw [hrest] at h
        cases h
        simp [hk, ih hrest]
    | error e =>
      rw [hk] at h
      cases strict with
      | true => cases h
      | false => simp [hk, ih h]

theorem collectReads_ok_iff {ks : List κ} : (∃ found, collectReads strict read ks = .ok found) ↔
    (strict = true → ∀ k ∈ ks, ∃ l, read k = .ok l) := by
  induction ks with
  | nil => simp [collectReads]
  | cons k ks ih =>
    rw [collectReads]
    cases hk : read k with
    | ok l =>
      have hmap : (∃ found, (collectReads strict read ks).map (l ++ ·) = .ok found) ↔
          ∃ found, collectReads strict read ks = .ok found := by
        cases collectReads strict read ks <;> simp [Except.map]
      simp only [hmap, ih, List.forall_mem_cons, hk, Except.ok.injEq, exists_eq', true_and]
    | error e =>
      cases strict with
      | true => simp [hk]
      | false => simpa using ih

end Reads

section References

/-- The head of a branch. -/
def HeadPoint (d : DatasetDir ρ) (b : BranchName) (v : ℕ) : Prop :=
  (b = mainBranch ∧ v = d.dataset.main.head) ∨
    ∃ l, d.dataset.branches.lookup b = some l ∧ v = l.head

/-- A tagged version. -/
def TagPoint (d : DatasetDir ρ) (b : BranchName) (v : ℕ) : Prop :=
  ∃ c t, d.dataset.tags.lookup c = some t ∧ t.branch.getD mainBranch = b ∧ t.version = v

/-- The index is named by the head of a branch or by a tagged version. -/
def Referenced (d : DatasetDir ρ) (uuid : String) : Prop :=
  ∃ b v, (HeadPoint d b v ∨ TagPoint d b v) ∧ uuid ∈ d.uuids b v

variable (unreadable : IndexRead → Bool)

def BranchReads (d : DatasetDir ρ) (b : BranchName) : Prop :=
  b = mainBranch ∨ b ∈ d.dataset.branches ∧ unreadable (.branch b) = false

def HeadReads (d : DatasetDir ρ) (b : BranchName) (v : ℕ) : Prop :=
  BranchReads unreadable d b ∧ unreadable (.indexList b v) = false

def TagReads (d : DatasetDir ρ) (b : BranchName) (v : ℕ) : Prop :=
  BranchReads unreadable d b ∧ (d.dataset.rowsAt (wantBranch b) v).isSome ∧
    unreadable (.version b v) = false ∧ unreadable (.indexList b v) = false

/-- The index is named by a head or a tagged version that can be read. -/
def ReadableRef (d : DatasetDir ρ) (uuid : String) : Prop :=
  ∃ b v, (HeadPoint d b v ∧ HeadReads unreadable d b v ∨
    TagPoint d b v ∧ TagReads unreadable d b v) ∧ uuid ∈ d.uuids b v

/-- The lists of branches and tags can be read. -/
structure ListsReadable : Prop where
  dataset : unreadable .dataset = false
  tags : unreadable .tags = false
  branches : unreadable .branches = false

/-- Every reference can be read. -/
structure AllReadable (d : DatasetDir ρ) : Prop extends ListsReadable unreadable where
  heads : ∀ b v, HeadPoint d b v → HeadReads unreadable d b v
  tagged : ∀ b v, TagPoint d b v → TagReads unreadable d b v

variable {unreadable}

theorem AllReadable.readableRef_iff {d : DatasetDir ρ} (h : AllReadable unreadable d)
    {uuid : String} : ReadableRef unreadable d uuid ↔ Referenced d uuid := by
  constructor
  · rintro ⟨b, v, hpoint | hpoint, hu⟩
    · exact ⟨b, v, .inl hpoint.1, hu⟩
    · exact ⟨b, v, .inr hpoint.1, hu⟩
  · rintro ⟨b, v, hpoint | hpoint, hu⟩
    · exact ⟨b, v, .inl ⟨hpoint, h.heads b v hpoint⟩, hu⟩
    · exact ⟨b, v, .inr ⟨hpoint, h.tagged b v hpoint⟩, hu⟩

variable {d : DatasetDir ρ} {b : BranchName} {v : ℕ}

theorem readOf_eq_ok {α : Type} {read : IndexRead} {context : String} {a x : α} :
    readOf unreadable read context a = .ok x ↔ unreadable read = false ∧ a = x := by
  unfold readOf
  cases unreadable read <;> simp

/-- The default branch is no entry of the branch list. -/
theorem HeadPoint.main (h : HeadPoint d mainBranch v) : v = d.dataset.main.head := by
  rcases h with ⟨-, hv⟩ | ⟨l, hl, -⟩
  · exact hv
  · exact absurd (AList.lookup_isSome.mp (by rw [hl]; rfl)) d.main_notMem

theorem HeadPoint.unique {w : ℕ} (hv : HeadPoint d b v) (hw : HeadPoint d b w) : v = w := by
  by_cases hb : b = mainBranch
  · subst hb
    rw [hv.main, hw.main]
  · obtain ⟨l, hl, rfl⟩ := hv.resolve_left fun h => hb h.1
    obtain ⟨l', hl', rfl⟩ := hw.resolve_left fun h => hb h.1
    rw [hl] at hl'
    rw [Option.some.inj hl']

theorem checkoutHead_eq_ok {context : String} : checkoutHead unreadable d b context = .ok v ↔
    HeadPoint d b v ∧ BranchReads unreadable d b := by
  unfold checkoutHead
  by_cases hb : b = mainBranch
  · subst hb
    rw [if_pos rfl, Except.ok.injEq]
    exact ⟨fun h => ⟨.inl ⟨rfl, h.symm⟩, .inl rfl⟩, fun h => h.1.main.symm⟩
  · rw [if_neg hb]
    have hmem : b ∈ d.dataset.branches ↔ (d.dataset.branches.lookup b).isSome :=
      AList.lookup_isSome.symm
    cases hl : d.dataset.branches.lookup b with
    | none => simp [HeadPoint, BranchReads, hb, hl, hmem]
    | some l =>
      simp only [readOf_eq_ok, HeadPoint, BranchReads, hb, hl, hmem, false_and, false_or,
        Option.some.injEq, exists_eq_left', Option.isSome_some, true_and]
      exact ⟨fun h => ⟨h.2.symm, h.1⟩, fun h => ⟨h.2, h.1.symm⟩⟩

theorem exists_checkoutHead {context : String} :
    (∃ v, checkoutHead unreadable d b context = .ok v) ↔ BranchReads unreadable d b := by
  simp only [checkoutHead_eq_ok]
  refine ⟨fun ⟨v, h⟩ => h.2, fun h => ?_⟩
  rcases h with rfl | ⟨hmem, hread⟩
  · exact ⟨_, .inl ⟨rfl, rfl⟩, .inl rfl⟩
  · obtain ⟨l, hl⟩ := Option.isSome_iff_exists.mp (AList.lookup_isSome.mpr hmem)
    exact ⟨l.head, .inr ⟨l, hl, rfl⟩, .inr ⟨hmem, hread⟩⟩

theorem headUuids_eq_ok {l : List String} : headUuids unreadable d b = .ok l ↔
    ∃ v, HeadPoint d b v ∧ HeadReads unreadable d b v ∧ d.uuids b v = l := by
  simp only [headUuids, exceptBind_eq_ok, checkoutHead_eq_ok, DatasetDir.loadIndices, readOf_eq_ok,
    HeadReads, and_assoc]

theorem versionUuids_eq_ok {l : List String} : versionUuids unreadable d b v = .ok l ↔
    ((d.dataset.rowsAt (wantBranch b) v).isSome ∧ unreadable (.version b v) = false ∧
      unreadable (.indexList b v) = false) ∧ d.uuids b v = l := by
  unfold versionUuids
  cases hrows : d.dataset.rowsAt (wantBranch b) v with
  | none => simp [exceptBind_eq_ok]
  | some r => simp [exceptBind_eq_ok, DatasetDir.loadIndices, readOf_eq_ok, and_assoc]

/-- One more tag puts its version into the group of its branch. -/
private theorem mem_pushTag {byBranch : AList (fun _ : BranchName => List ℕ)}
    {t : TagContents BranchName} :
    (∃ vs, (pushTag byBranch t).lookup b = some vs ∧ v ∈ vs) ↔
      (∃ vs, byBranch.lookup b = some vs ∧ v ∈ vs) ∨
        (t.branch.getD mainBranch = b ∧ t.version = v) := by
  unfold pushTag
  by_cases hb : t.branch.getD mainBranch = b
  · subst hb
    rw [AList.lookup_insert]
    cases byBranch.lookup (t.branch.getD mainBranch) <;> simp [eq_comm]
  · rw [AList.lookup_insert_ne (Ne.symm hb)]
    simp [hb]

private theorem pushTag_ne_nil {byBranch : AList (fun _ : BranchName => List ℕ)}
    {t : TagContents BranchName} (h : ∀ vs, byBranch.lookup b = some vs → vs ≠ []) :
    ∀ vs, (pushTag byBranch t).lookup b = some vs → vs ≠ [] := by
  intro vs hvs
  rw [pushTag] at hvs
  by_cases hb : b = t.branch.getD mainBranch
  · rw [← hb, AList.lookup_insert] at hvs
    cases hvs
    simp
  · rw [AList.lookup_insert_ne hb] at hvs
    exact h vs hvs

private theorem mem_groups (tags : List (Sigma fun _ : CommitId => TagContents BranchName))
    (byBranch : AList (fun _ : BranchName => List ℕ)) :
    (∃ vs, (tags.foldl (fun byBranch e => pushTag byBranch e.2) byBranch).lookup b = some vs ∧
        v ∈ vs) ↔
      (∃ vs, byBranch.lookup b = some vs ∧ v ∈ vs) ∨
        ∃ e ∈ tags, e.2.branch.getD mainBranch = b ∧ e.2.version = v := by
  induction tags generalizing byBranch with
  | nil => simp
  | cons e tags ih =>
    rw [List.foldl_cons, ih, mem_pushTag, List.exists_mem_cons_iff, or_assoc]

/-- The groups hold the tagged versions. -/
theorem mem_taggedByBranch :
    (∃ vs, (taggedByBranch d.dataset).lookup b = some vs ∧ v ∈ vs) ↔ TagPoint d b v := by
  unfold taggedByBranch TagPoint
  rw [mem_groups]
  simp only [AList.lookup_empty, reduceCtorEq, false_and, exists_false, false_or]
  constructor
  · rintro ⟨⟨c, t⟩, hmem, ht⟩
    exact ⟨c, t, AList.mem_lookup_iff.mpr hmem, ht⟩
  · rintro ⟨c, t, hmem, ht⟩
    exact ⟨⟨c, t⟩, AList.mem_lookup_iff.mp hmem, ht⟩

/-- A branch has a group only if a version of it is tagged. -/
theorem taggedByBranch_ne_nil {ds : LanceDataset ρ} {vs : List ℕ}
    (h : (taggedByBranch ds).lookup b = some vs) : vs ≠ [] := by
  have hfold (tags : List (Sigma fun _ : CommitId => TagContents BranchName)) :
      ∀ byBranch : AList (fun _ : BranchName => List ℕ),
      (∀ vs, byBranch.lookup b = some vs → vs ≠ []) →
      ∀ vs, (tags.foldl (fun byBranch e => pushTag byBranch e.2) byBranch).lookup b = some vs →
        vs ≠ [] := by
    induction tags with
    | nil => exact fun _ hacc => hacc
    | cons e tags ih => exact fun byBranch hacc => ih _ (pushTag_ne_nil hacc)
  exact hfold ds.tags.entries ∅ (by simp) vs h

/-- The groups as the collection walks them. -/
private theorem mem_tagGroups {e : BranchName × List ℕ} :
    e ∈ (taggedByBranch d.dataset).entries.map (fun e => (e.1, e.2)) ↔
      (taggedByBranch d.dataset).lookup e.1 = some e.2 := by
  rw [List.mem_map, ← Option.mem_def, AList.mem_lookup_iff]
  constructor
  · rintro ⟨x, hx, rfl⟩
    exact hx
  · intro h
    exact ⟨_, h, rfl⟩

variable {strict : Bool}

theorem taggedUuids_ok_iff {e : BranchName × List ℕ} :
    (∃ l, taggedUuids unreadable d strict e = .ok l) ↔ BranchReads unreadable d e.1 ∧
      (strict = true → ∀ v ∈ e.2, ∃ l, versionUuids unreadable d e.1 v = .ok l) := by
  rw [← collectReads_ok_iff, ← exists_checkoutHead]
  simp only [taggedUuids, exceptBind_eq_ok]
  constructor
  · rintro ⟨l, v, hv, hl⟩
    exact ⟨⟨v, hv⟩, l, hl⟩
  · rintro ⟨⟨v, hv⟩, l, hl⟩
    exact ⟨l, v, hv, hl⟩

theorem mem_taggedUuids {e : BranchName × List ℕ} {l : List String}
    (h : taggedUuids unreadable d strict e = .ok l) {uuid : String} :
    uuid ∈ l ↔ ∃ v ∈ e.2, TagReads unreadable d e.1 v ∧ uuid ∈ d.uuids e.1 v := by
  have hbranch := (taggedUuids_ok_iff.mp ⟨l, h⟩).1
  simp only [taggedUuids, exceptBind_eq_ok] at h
  obtain ⟨-, -, hl⟩ := h
  rw [mem_collectReads hl]
  simp only [versionUuids_eq_ok, TagReads]
  constructor
  · rintro ⟨v, hv, l, ⟨hreads, rfl⟩, hu⟩
    exact ⟨v, hv, ⟨hbranch, hreads⟩, hu⟩
  · rintro ⟨v, hv, ⟨-, hreads⟩, hu⟩
    exact ⟨v, hv, _, ⟨hreads, rfl⟩, hu⟩

private theorem collectLive_eq_ok {live : List String} :
    collectLiveIndexUuids unreadable d strict = .ok live ↔ ListsReadable unreadable ∧
      ∃ main, collectReads strict (fun _ : Unit => mainUuids unreadable d) [()] = .ok main ∧
      ∃ heads, collectReads strict (headUuids unreadable d) d.dataset.branches.keys = .ok heads ∧
      ∃ tagged, collectReads strict (taggedUuids unreadable d strict)
          ((taggedByBranch d.dataset).entries.map fun e => (e.1, e.2)) = .ok tagged ∧
        (main ++ heads ++ tagged).dedup = live := by
  simp only [collectLiveIndexUuids, exceptBind_eq_ok, ioOpenFresh, ioListBranches, readOf_eq_ok,
    Except.ok.injEq]
  constructor
  · rintro ⟨-, ⟨hds, -⟩, -, ⟨htags, -⟩, -, ⟨-, -, hbranches, rfl⟩, h⟩
    exact ⟨⟨hds, htags, hbranches⟩, h⟩
  · rintro ⟨⟨hds, htags, hbranches⟩, h⟩
    exact ⟨(), ⟨hds, trivial⟩, (), ⟨htags, trivial⟩, _, ⟨(), ⟨hds, trivial⟩, hbranches, rfl⟩, h⟩

private theorem mainUuids_eq_ok {l : List String} : mainUuids unreadable d = .ok l ↔
    HeadReads unreadable d mainBranch d.dataset.main.head ∧
      d.uuids mainBranch d.dataset.main.head = l := by
  rw [mainUuids, DatasetDir.loadIndices, readOf_eq_ok, HeadReads, BranchReads]
  simp

/-- Both collections find what can be read. -/
theorem mem_collectLive {live : List String}
    (h : collectLiveIndexUuids unreadable d strict = .ok live) {uuid : String} :
    uuid ∈ live ↔ ReadableRef unreadable d uuid := by
  obtain ⟨-, main, hmain, heads, hheads, tagged, htagged, rfl⟩ := collectLive_eq_ok.mp h
  rw [List.mem_dedup, List.mem_append, List.mem_append, mem_collectReads hmain,
    mem_collectReads hheads, mem_collectReads htagged]
  simp only [mainUuids_eq_ok, headUuids_eq_ok]
  constructor
  · rintro ((⟨-, -, l, ⟨hreads, rfl⟩, hu⟩ | ⟨b, -, l, ⟨v, hpoint, hreads, rfl⟩, hu⟩) |
      ⟨e, he, l, hl, hu⟩)
    · exact ⟨_, _, .inl ⟨.inl ⟨rfl, rfl⟩, hreads⟩, hu⟩
    · exact ⟨b, v, .inl ⟨hpoint, hreads⟩, hu⟩
    · obtain ⟨v, hv, hreads, hu⟩ := (mem_taggedUuids hl).mp hu
      exact ⟨e.1, v, .inr ⟨mem_taggedByBranch.mp ⟨e.2, mem_tagGroups.mp he, hv⟩, hreads⟩, hu⟩
  · rintro ⟨b, v, ⟨hpoint, hreads⟩ | ⟨hpoint, hreads⟩, hu⟩
    · rcases hpoint with ⟨rfl, rfl⟩ | ⟨l, hl, rfl⟩
      · exact .inl (.inl ⟨(), List.mem_singleton_self _, _, ⟨hreads, rfl⟩, hu⟩)
      · have hmem : b ∈ d.dataset.branches := AList.lookup_isSome.mp (by rw [hl]; rfl)
        exact .inl (.inr ⟨b, hmem, _, ⟨l.head, .inr ⟨l, hl, rfl⟩, hreads, rfl⟩, hu⟩)
    · obtain ⟨vs, hvs, hv⟩ := mem_taggedByBranch.mpr hpoint
      have hgroup : (b, vs) ∈ (taggedByBranch d.dataset).entries.map fun e => (e.1, e.2) :=
        mem_tagGroups.mpr hvs
      have hall := collectReads_ok_iff.mp ⟨tagged, htagged⟩
      obtain ⟨l, hl⟩ : ∃ l, taggedUuids unreadable d strict (b, vs) = .ok l := by
        cases strict with
        | true => exact hall rfl _ hgroup
        | false => exact taggedUuids_ok_iff.mpr ⟨hreads.1, nofun⟩
      exact .inr ⟨_, hgroup, l, hl, (mem_taggedUuids hl).mpr ⟨v, hv, hreads, hu⟩⟩

/-- A lenient collection needs the lists, a strict one every reference. -/
theorem collectLive_ok_iff : (∃ live, collectLiveIndexUuids unreadable d strict = .ok live) ↔
    ListsReadable unreadable ∧ (strict = true → AllReadable unreadable d) := by
  constructor
  · rintro ⟨live, h⟩
    obtain ⟨hlists, main, hmain, heads, hheads, tagged, htagged, rfl⟩ := collectLive_eq_ok.mp h
    refine ⟨hlists, fun hstrict => ⟨hlists, ?_, ?_⟩⟩
    · rintro b v (⟨rfl, rfl⟩ | ⟨l, hl, rfl⟩)
      · obtain ⟨l, hl⟩ := collectReads_ok_iff.mp ⟨main, hmain⟩ hstrict () (List.mem_singleton_self _)
        exact (mainUuids_eq_ok.mp hl).1
      · have hmem : b ∈ d.dataset.branches := AList.lookup_isSome.mp (by rw [hl]; rfl)
        obtain ⟨uuids, huuids⟩ := collectReads_ok_iff.mp ⟨heads, hheads⟩ hstrict b hmem
        obtain ⟨v, hpoint, hreads, -⟩ := headUuids_eq_ok.mp huuids
        exact hpoint.unique (.inr ⟨l, hl, rfl⟩) ▸ hreads
    · intro b v hpoint
      obtain ⟨vs, hvs, hv⟩ := mem_taggedByBranch.mpr hpoint
      have hgroup : (b, vs) ∈ (taggedByBranch d.dataset).entries.map fun e => (e.1, e.2) :=
        mem_tagGroups.mpr hvs
      have hok := collectReads_ok_iff.mp ⟨tagged, htagged⟩ hstrict _ hgroup
      obtain ⟨hbranch, hversions⟩ := taggedUuids_ok_iff.mp hok
      obtain ⟨l, hl⟩ := hversions hstrict v hv
      exact ⟨hbranch, (versionUuids_eq_ok.mp hl).1⟩
  · rintro ⟨hlists, hall⟩
    have hmain : ∃ main, collectReads strict (fun _ : Unit => mainUuids unreadable d) [()] =
        .ok main := by
      refine collectReads_ok_iff.mpr fun hstrict _ _ => ⟨_, mainUuids_eq_ok.mpr ⟨?_, rfl⟩⟩
      exact (hall hstrict).heads _ _ (.inl ⟨rfl, rfl⟩)
    have hheads : ∃ heads, collectReads strict (headUuids unreadable d) d.dataset.branches.keys =
        .ok heads := by
      refine collectReads_ok_iff.mpr fun hstrict b hb => ?_
      obtain ⟨l, hl⟩ := Option.isSome_iff_exists.mp (AList.lookup_isSome.mpr hb)
      have hpoint : HeadPoint d b l.head := .inr ⟨l, hl, rfl⟩
      exact ⟨_, headUuids_eq_ok.mpr ⟨_, hpoint, (hall hstrict).heads b _ hpoint, rfl⟩⟩
    have htagged : ∃ tagged, collectReads strict (taggedUuids unreadable d strict)
        ((taggedByBranch d.dataset).entries.map fun e => (e.1, e.2)) = .ok tagged := by
      refine collectReads_ok_iff.mpr fun hstrict e he => taggedUuids_ok_iff.mpr ?_
      have hgroup := mem_tagGroups.mp he
      have hreads : ∀ v ∈ e.2, TagReads unreadable d e.1 v := fun v hv =>
        (hall hstrict).tagged e.1 v (mem_taggedByBranch.mp ⟨e.2, hgroup, hv⟩)
      obtain ⟨v, hv⟩ := List.exists_mem_of_ne_nil _ (taggedByBranch_ne_nil hgroup)
      exact ⟨(hreads v hv).1, fun _ v hv => ⟨_, versionUuids_eq_ok.mpr ⟨(hreads v hv).2, rfl⟩⟩⟩
    obtain ⟨main, hmain⟩ := hmain
    obtain ⟨heads, hheads⟩ := hheads
    obtain ⟨tagged, htagged⟩ := htagged
    exact ⟨_, collectLive_eq_ok.mpr ⟨hlists, main, hmain, heads, hheads, tagged, htagged, rfl⟩⟩

end References

section Prune

variable {baseDir : String} {readOnly : Bool} {unreadable : IndexRead → Bool}
  {removeFails : DirEntry → Bool} {d : DatasetDir ρ} {live : List String}

/-- A directory that the pruning takes for stale. -/
def StaleEntry (live : List String) (e : DirEntry) : Prop := e.listed = true ∧ e.name ∉ live

/-- Of the stale directories only those in `todo` and those that resist are left. -/
def PrunedUpTo (d : DatasetDir ρ) (live : List String) (removeFails : DirEntry → Bool)
    (todo : List DirEntry) (s : Option (DatasetDir ρ)) : Prop :=
  ∃ entries, s = some { d with indices := some entries } ∧ entries ⊆ d.indices.getD [] ∧
    ∀ e ∈ entries, StaleEntry live e → removeFails e = false → e ∈ todo

theorem pruneEntry_spec (e : DirEntry) (todo : List DirEntry) :
    Spec (PrunedUpTo d live removeFails (e :: todo)) (pruneEntry removeFails live e)
      (fun _ => PrunedUpTo d live removeFails todo) (fun _ _ => False)
      (fun x _ => StaleEntry live x) := by
  have hkeep (hfresh : StaleEntry live e → removeFails e = true) (s : Option (DatasetDir ρ))
      (h : PrunedUpTo d live removeFails (e :: todo) s) : PrunedUpTo d live removeFails todo s := by
    obtain ⟨entries, rfl, hsub, hleft⟩ := h
    refine ⟨entries, rfl, hsub, fun x hx hstale hfails => ?_⟩
    rcases List.mem_cons.mp (hleft x hx hstale hfails) with rfl | hmem
    · rw [hfresh hstale] at hfails
      cases hfails
    · exact hmem
  unfold pruneEntry
  refine Spec.ite (fun hr => Spec.pure (hkeep fun h => ?_)) fun hr => ?_
  · simp [StaleEntry, DirEntry.listed, hr] at h
  refine Spec.ite (fun hd => Spec.pure (hkeep fun h => ?_)) fun hd => ?_
  · simp [StaleEntry, DirEntry.listed, hd] at h
  refine Spec.ite (fun hlive => Spec.pure (hkeep fun h => absurd hlive h.2)) fun hlive => ?_
  have hlisted : e.listed = true := by
    rw [DirEntry.listed, Bool.eq_true_of_not_eq_false hr, Bool.eq_true_of_not_eq_false hd]
    rfl
  have hstale : StaleEntry live e := ⟨hlisted, hlive⟩
  refine Spec.bind (R := fun _ => PrunedUpTo d live removeFails todo)
    (Spec.attempt_const (Spec.step fun s hs => ?_)) fun _ => Spec.pure fun _ hs => hs
  cases hfails : removeFails e with
  | true => exact hkeep (fun _ => hfails) s hs
  | false =>
    obtain ⟨entries, rfl, hsub, hleft⟩ := hs
    refine ⟨hstale, entries.filter (· ≠ e), rfl, fun x hx => hsub (List.mem_of_mem_filter hx), ?_⟩
    intro x hx hx' hxf
    obtain ⟨hmem, hne⟩ := List.mem_filter.mp hx
    exact (List.mem_cons.mp (hleft x hmem hx' hxf)).resolve_left (by simpa using hne)

theorem pruneEntries_spec {entries : List DirEntry} (h : d.indices = some entries) :
    Spec (fun s => s = some d)
      (forEach (pruneEntry removeFails live) entries >>= fun removed => pure (removed.count true))
      (fun _ => PrunedUpTo d live removeFails []) (fun _ _ => False)
      (fun x _ => StaleEntry live x) := by
  refine Spec.bind ((Spec.forEach (PrunedUpTo d live removeFails) pruneEntry_spec entries).pre ?_)
    fun _ => Spec.pure fun _ hs => hs
  rintro s rfl
  refine ⟨entries, by rw [← h], ?_, fun e he _ _ => he⟩
  rw [h]
  exact List.Subset.refl _

theorem ensureWritable_eq_ok {u : Unit} :
    ensureWritable baseDir readOnly = .ok u ↔ readOnly = false := by
  unfold ensureWritable
  cases readOnly <;> simp

theorem pruneScan_eq_none {s : Option (DatasetDir ρ)} :
    pruneScan baseDir readOnly unreadable s = .ok none ↔
      readOnly = false ∧ ∀ d, s = some d → d.indices = none := by
  cases s with
  | none => simp [pruneScan, exceptBind_eq_ok, ensureWritable_eq_ok]
  | some d =>
    cases hd : d.indices <;>
      simp [pruneScan, hd, exceptBind_eq_ok, ensureWritable_eq_ok, readOf_eq_ok]

theorem pruneScan_eq_some {entries : List DirEntry} :
    pruneScan baseDir readOnly unreadable (some d) = .ok (some (live, entries)) ↔
      readOnly = false ∧ unreadable .indicesDir = false ∧ d.indices = some entries ∧
        collectLiveIndexUuids unreadable d true = .ok live := by
  cases hd : d.indices with
  | none => simp [pruneScan, hd, exceptBind_eq_ok]
  | some entries' =>
    simp only [pruneScan, hd, exceptBind_eq_ok, ensureWritable_eq_ok, readOf_eq_ok,
      Option.some.injEq, Prod.mk.injEq]
    constructor
    · rintro ⟨-, hwrite, live', hlive, hdir, rfl, rfl⟩
      exact ⟨hwrite, hdir, rfl, hlive⟩
    · rintro ⟨hwrite, hdir, rfl, hlive⟩
      exact ⟨(), hwrite, live, hlive, hdir, rfl, rfl⟩

variable {s : Option (DatasetDir ρ)}

theorem prune_of_error {e : StoreError} (h : pruneScan baseDir readOnly unreadable s = .error e) :
    ioPruneStaleIndexDirs baseDir readOnly unreadable removeFails s = ⟨[], s, .error e⟩ :=
  look_bind_error h

theorem prune_of_none (h : pruneScan baseDir readOnly unreadable s = .ok none) :
    ioPruneStaleIndexDirs baseDir readOnly unreadable removeFails s = ⟨[], s, .ok 0⟩ :=
  look_bind_ok h

theorem prune_of_some {entries : List DirEntry}
    (h : pruneScan baseDir readOnly unreadable s = .ok (some (live, entries))) :
    ioPruneStaleIndexDirs baseDir readOnly unreadable removeFails s =
      (forEach (pruneEntry removeFails live) entries >>= fun removed =>
        pure (removed.count true)) s :=
  look_bind_ok h

end Prune

section Check

variable {unreadable : IndexRead → Bool} {d : DatasetDir ρ}

/-- What the report needs to be able to read. -/
structure ReportReadable (unreadable : IndexRead → Bool) (d : DatasetDir ρ) : Prop extends
    ListsReadable unreadable where
  indices : d.indices.isSome → unreadable .indicesDir = false
  data : d.data.isSome → unreadable .dataDir = false
  versions : d.versions.isSome → unreadable .versionsDir = false

theorem mainIndexDirs_eq_ok {names : List String} : mainIndexDirs unreadable d = .ok names ↔
    (d.indices.isSome → unreadable .indicesDir = false) ∧ dirNames (d.indices.getD []) = names := by
  unfold mainIndexDirs
  cases d.indices with
  | none => simp [dirNames]
  | some entries => simp [readOf_eq_ok]

theorem countFiles_ok_iff {read : IndexRead} {context ext : String} {dir : Option (List DirEntry)} :
    (∃ n, countFiles unreadable read context dir ext = .ok n) ↔
      (dir.isSome → unreadable read = false) := by
  unfold countFiles
  cases dir with
  | none => simp
  | some entries => simp [readOf_eq_ok]

theorem integrityCheck_ok_iff {domain : String} :
    (∃ report, ioIntegrityCheck unreadable domain (some d) = .ok report) ↔
      ReportReadable unreadable d := by
  have hcollect : (∃ live, collectLiveIndexUuids unreadable d false = .ok live) ↔
      ListsReadable unreadable := by simp [collectLive_ok_iff]
  simp only [ioIntegrityCheck, exceptBind_eq_ok, ioOpenFresh, ioListBranches, readOf_eq_ok]
  constructor
  · rintro ⟨_, _, _, _, _, live, hlive, _, hnames, _, hdata, _, hversions, _, _⟩
    exact ⟨hcollect.mp ⟨live, hlive⟩, (mainIndexDirs_eq_ok.mp hnames).1,
      countFiles_ok_iff.mp ⟨_, hdata⟩, countFiles_ok_iff.mp ⟨_, hversions⟩⟩
  · intro h
    obtain ⟨live, hlive⟩ := hcollect.mpr h.toListsReadable
    obtain ⟨n, hdata⟩ := countFiles_ok_iff.mpr h.data
    obtain ⟨m, hversions⟩ := countFiles_ok_iff.mpr h.versions
    exact ⟨_, (), ⟨h.dataset, trivial⟩, (), ⟨h.tags, trivial⟩, live, hlive, _,
      mainIndexDirs_eq_ok.mpr ⟨h.indices, rfl⟩, n, hdata, m, hversions, _,
      ⟨(), ⟨h.dataset, trivial⟩, h.branches, rfl⟩, rfl⟩

/-- No directory is reported stale if each that is listed is named by what can be read. -/
theorem integrityCheck_stale {domain : String} {report : IntegrityReport}
    (h : ioIntegrityCheck unreadable domain (some d) = .ok report) :
    report.staleIndexDirs = [] ↔ ∀ name ∈ dirNames (d.indices.getD []) ++
      branchIndexDirs unreadable d, ReadableRef unreadable d name := by
  simp only [ioIntegrityCheck, exceptBind_eq_ok] at h
  obtain ⟨_, -, _, -, live, hlive, names, hnames, _, -, _, -, _, -, hreport⟩ := h
  cases hreport
  obtain ⟨-, rfl⟩ := mainIndexDirs_eq_ok.mp hnames
  simp only [List.filter_eq_nil_iff, List.mem_dedup, List.mem_mergeSort, decide_not,
    Bool.not_eq_eq_eq_not, Bool.not_true, decide_eq_false_iff_not, not_not, mem_collectLive hlive]

end Check

section Sound

variable (baseDir : String) (readOnly : Bool) (unreadable : IndexRead → Bool)
  (removeFails : DirEntry → Bool)

/-- Each stale directory of `_indices` can be removed. -/
def NoRemovalFails (d : DatasetDir ρ) : Prop :=
  ∀ e ∈ d.indices.getD [], e.listed = true → ¬ Referenced d e.name → removeFails e = false

/-- Nothing that is referred to is removed, nothing at all while a reference cannot be read, and
what a completed pruning leaves is not reported stale. -/
structure PruneSound (s : Option (DatasetDir ρ)) : Prop where
  safe : ∀ d, s = some d →
    ∀ x ∈ (ioPruneStaleIndexDirs baseDir readOnly unreadable removeFails s).trace,
      ¬ Referenced d x.1.name
  closed : ∀ d, s = some d → ¬ AllReadable unreadable d →
    (ioPruneStaleIndexDirs baseDir readOnly unreadable removeFails s).trace = [] ∧
      (ioPruneStaleIndexDirs baseDir readOnly unreadable removeFails s).store = s
  complete : ∀ n,
    (ioPruneStaleIndexDirs baseDir readOnly unreadable removeFails s).result = .ok n →
      (∀ d, s = some d → NoRemovalFails removeFails d) → ∀ domain report,
      ioIntegrityCheck unreadable domain
        (ioPruneStaleIndexDirs baseDir readOnly unreadable removeFails s).store = .ok report →
      report.staleIndexDirs = []

/-- Pruning and report both complete, and no removal fails. -/
structure PruneCompletes (d : DatasetDir ρ) : Prop extends ReportReadable unreadable d where
  writable : readOnly = false
  references : d.indices.isSome → AllReadable unreadable d
  removals : NoRemovalFails removeFails d

variable {baseDir readOnly unreadable removeFails} {s : Option (DatasetDir ρ)}

theorem prune_safe (d : DatasetDir ρ) :
    ∀ x ∈ (ioPruneStaleIndexDirs baseDir readOnly unreadable removeFails (some d)).trace,
      ¬ Referenced d x.1.name := by
  cases hscan : pruneScan baseDir readOnly unreadable (some d) with
  | error e => simp [prune_of_error hscan]
  | ok scan =>
    match scan with
    | none => simp [prune_of_none hscan]
    | some (live, entries) =>
      obtain ⟨-, -, hentries, hlive⟩ := pruneScan_eq_some.mp hscan
      have hall := (collectLive_ok_iff.mp ⟨live, hlive⟩).2 rfl
      rw [prune_of_some hscan]
      intro x hx href
      refine ((pruneEntries_spec hentries _ rfl).1 x hx).2 ?_
      rw [mem_collectLive hlive, hall.readableRef_iff]
      exact href

theorem prune_closed {d : DatasetDir ρ} (h : ¬ AllReadable unreadable d) :
    (ioPruneStaleIndexDirs baseDir readOnly unreadable removeFails (some d)).trace = [] ∧
      (ioPruneStaleIndexDirs baseDir readOnly unreadable removeFails (some d)).store = some d := by
  cases hscan : pruneScan baseDir readOnly unreadable (some d) with
  | error e => simp [prune_of_error hscan]
  | ok scan =>
    match scan with
    | none => simp [prune_of_none hscan]
    | some (live, entries) =>
      obtain ⟨-, -, -, hlive⟩ := pruneScan_eq_some.mp hscan
      exact absurd ((collectLive_ok_iff.mp ⟨live, hlive⟩).2 rfl) h

/-- What is left of `_indices` when no removal fails: all that is listed is referred to. -/
def OnlyReferenced (d d' : DatasetDir ρ) : Prop :=
  ∃ indices, d' = { d with indices } ∧ indices.isSome = d.indices.isSome ∧
    ∀ name ∈ dirNames (indices.getD []), Referenced d name

/-- A run that returns has read every reference, unless there was no `_indices`. -/
theorem prune_returns {d : DatasetDir ρ} {n : ℕ}
    (h : (ioPruneStaleIndexDirs baseDir readOnly unreadable removeFails (some d)).result = .ok n)
    (hfails : NoRemovalFails removeFails d) :
    readOnly = false ∧ (d.indices.isSome → AllReadable unreadable d) ∧
      ∃ d', (ioPruneStaleIndexDirs baseDir readOnly unreadable removeFails (some d)).store =
        some d' ∧ OnlyReferenced d d' := by
  cases hscan : pruneScan baseDir readOnly unreadable (some d) with
  | error e =>
    rw [prune_of_error hscan] at h
    cases h
  | ok scan =>
    match scan with
    | none =>
      obtain ⟨hwrite, hnone⟩ := pruneScan_eq_none.mp hscan
      have hnone := hnone d rfl
      rw [prune_of_none hscan]
      refine ⟨hwrite, by simp [hnone], d, rfl, none, by rw [← hnone], by rw [hnone], ?_⟩
      simp [dirNames]
    | some (live, entries) =>
      obtain ⟨hwrite, -, hentries, hlive⟩ := pruneScan_eq_some.mp hscan
      have hall := (collectLive_ok_iff.mp ⟨live, hlive⟩).2 rfl
      rw [prune_of_some hscan] at h ⊢
      obtain ⟨left, hstore, hsub, hleft⟩ := (pruneEntries_spec hentries).result_ok rfl h
      refine ⟨hwrite, fun _ => hall, _, hstore, some left, rfl, by rw [hentries]; rfl, ?_⟩
      intro name hname
      obtain ⟨e, he, rfl⟩ := List.mem_map.mp hname
      obtain ⟨he, hlisted⟩ := List.mem_filter.mp he
      by_contra href
      have hnot : e.name ∉ live := by rwa [mem_collectLive hlive, hall.readableRef_iff]
      have hnil := hleft e he ⟨hlisted, hnot⟩ (hfails e (hsub he) hlisted href)
      simp at hnil

theorem prune_completes {d : DatasetDir ρ}
    (h : PruneCompletes readOnly unreadable removeFails d) :
    ∃ n, (ioPruneStaleIndexDirs baseDir readOnly unreadable removeFails (some d)).result =
      .ok n := by
  cases hd : d.indices with
  | none =>
    have hscan : pruneScan baseDir readOnly unreadable (some d) = .ok none :=
      pruneScan_eq_none.mpr ⟨h.writable, by rintro _ ⟨⟩; exact hd⟩
    exact ⟨0, by rw [prune_of_none hscan]⟩
  | some entries =>
    have hsome : d.indices.isSome := by rw [hd]; rfl
    have hall := h.references hsome
    obtain ⟨live, hlive⟩ := collectLive_ok_iff.mpr ⟨hall.toListsReadable, fun _ => hall⟩
    have hscan : pruneScan baseDir readOnly unreadable (some d) = .ok (some (live, entries)) :=
      pruneScan_eq_some.mpr ⟨h.writable, h.indices hsome, hd, hlive⟩
    rw [prune_of_some hscan]
    obtain ⟨n, hn, -⟩ := (pruneEntries_spec hd).completes rfl
    exact ⟨n, hn⟩

/-- Only what the branches have in directories of their own can be reported stale. -/
theorem stale_after_prune {d d' : DatasetDir ρ} (h : OnlyReferenced d d')
    (hall : d.indices.isSome → AllReadable unreadable d) {domain : String}
    {report : IntegrityReport}
    (hreport : ioIntegrityCheck unreadable domain (some d') = .ok report) :
    report.staleIndexDirs = [] ↔
      ∀ name ∈ branchIndexDirs unreadable d, ReadableRef unreadable d name := by
  obtain ⟨indices, rfl, hsome, hnames⟩ := h
  rw [integrityCheck_stale hreport]
  constructor
  · exact fun h name hname => h name (List.mem_append_right _ hname)
  · intro h name hname
    rcases List.mem_append.mp hname with hname | hname
    · have hdir : d.indices.isSome := by
        rw [← hsome]
        cases indices with
        | none => simp [dirNames] at hname
        | some entries => rfl
      exact (hall hdir).readableRef_iff.mpr (hnames name hname)
    · exact h name hname

theorem OnlyReferenced.reportReadable {d d' : DatasetDir ρ} (h : OnlyReferenced d d') :
    ReportReadable unreadable d' ↔ ReportReadable unreadable d := by
  obtain ⟨indices, rfl, hsome, -⟩ := h
  constructor
  · exact fun h => ⟨h.toListsReadable, fun hd => h.indices (hsome.trans hd), h.data, h.versions⟩
  · exact fun h => ⟨h.toListsReadable, fun hd => h.indices (hsome.symm.trans hd), h.data,
      h.versions⟩

/-- The pruning does not look into `tree/<branch>/_indices`, which the report lists as well: it is
sound unless it completes with a directory there that nothing readable refers to. -/
theorem pruneSound_iff (s : Option (DatasetDir ρ)) :
    PruneSound baseDir readOnly unreadable removeFails s ↔
      ∀ d, s = some d → PruneCompletes readOnly unreadable removeFails d →
        ∀ name ∈ branchIndexDirs unreadable d, ReadableRef unreadable d name := by
  constructor
  · rintro h d rfl hcompletes
    obtain ⟨n, hn⟩ : ∃ n,
        (ioPruneStaleIndexDirs baseDir readOnly unreadable removeFails (some d)).result = .ok n :=
      prune_completes hcompletes
    obtain ⟨-, hall, d', hstore, hleft⟩ := prune_returns hn hcompletes.removals
    obtain ⟨report, hreport⟩ := integrityCheck_ok_iff.mpr
      (hleft.reportReadable.mpr hcompletes.toReportReadable)
    have hnone := h.complete n hn (by rintro _ ⟨⟩; exact hcompletes.removals) "" report
      (by rw [hstore]; exact hreport)
    exact (stale_after_prune hleft hall hreport).mp hnone
  · intro h
    refine ⟨?_, ?_, ?_⟩
    · rintro d rfl
      exact prune_safe d
    · rintro d rfl
      exact prune_closed
    · intro n hn hfails domain report hreport
      cases s with
      | none =>
        have hstore : (ioPruneStaleIndexDirs baseDir readOnly unreadable removeFails
            (none : Option (DatasetDir ρ))).store = none := by cases readOnly <;> rfl
        rw [hstore] at hreport
        cases hreport
        rfl
      | some d =>
        obtain ⟨hwrite, hall, d', hstore, hleft⟩ := prune_returns hn (hfails d rfl)
        rw [hstore] at hreport
        have hreadable := hleft.reportReadable.mp (integrityCheck_ok_iff.mp ⟨report, hreport⟩)
        exact (stale_after_prune hleft hall hreport).mpr
          (h d rfl ⟨hreadable, hwrite, hall, hfails d rfl⟩)

/-- Branch `dev` has two index directories of its own; its head refers to `new`, nothing to `old`. -/
def oldIndexOnBranch : DatasetDir ℕ where
  dataset := ⟨.start 1 [], (∅ : AList _).insert "dev" (.start 1 []), ∅, 0⟩
  uuids b _ := if b = "dev" then ["new"] else []
  indices := some []
  tree := some [(⟨"dev", true, true⟩, some [⟨"old", true, true⟩, ⟨"new", true, true⟩])]
  data := none
  versions := none
  main_notMem := by decide

theorem old_not_readable :
    ¬ ReadableRef (fun _ => false) oldIndexOnBranch "old" := by
  rintro ⟨b, v, -, hu⟩
  simp only [oldIndexOnBranch] at hu
  split at hu <;> simp at hu

/-- The pruning succeeds and `old` is reported stale. -/
theorem old_index_on_branch_stays :
    ¬ PruneSound "" false (fun _ => false) (fun _ => false) (some oldIndexOnBranch) := by
  intro h
  have hn : (ioPruneStaleIndexDirs "" false (fun _ => false) (fun _ => false)
      (some oldIndexOnBranch)).result = .ok 0 := by rfl
  have hfails : NoRemovalFails (fun _ => false) oldIndexOnBranch := fun _ _ _ _ => rfl
  obtain ⟨-, hall, d', hstore, hleft⟩ := prune_returns hn hfails
  have hreadable : ReportReadable (fun _ => false) oldIndexOnBranch :=
    ⟨⟨rfl, rfl, rfl⟩, fun _ => rfl, fun _ => rfl, fun _ => rfl⟩
  obtain ⟨report, hreport⟩ := integrityCheck_ok_iff.mpr (hleft.reportReadable.mpr hreadable)
  have hnone := h.complete 0 hn (by rintro _ ⟨⟩; exact hfails) "" report
    (by rw [hstore]; exact hreport)
  exact old_not_readable ((stale_after_prune hleft hall hreport).mp hnone "old" (by decide))

end Sound

end Vectorlink
