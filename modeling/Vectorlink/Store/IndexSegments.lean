import Vectorlink.Config.Providers
import Vectorlink.Store.Rollup

/-! The indices of a branch: each is a list of segments, and a segment covers the fragments that
it was built from. -/
namespace Vectorlink

open Stepwise Stepwise.Program

/-- `content_fts`, `embedding_ann` and `clustering_embedding_ann`. -/
inductive IndexName where
  | contentFts
  | embeddingAnn
  | clusteringEmbeddingAnn
deriving DecidableEq, Repr

structure RowFragment where
  id : ℕ
  rows : ℕ
deriving DecidableEq, Repr

/-- The fragments of a branch and the segments of its indices, the newest first. Fragment ids are
not used again. -/
structure IndexedBranch where
  fragments : List RowFragment
  nextId : ℕ
  segments : IndexName → List (List ℕ)
  fragments_lt : ∀ f ∈ fragments, f.id < nextId
  covers_lt : ∀ name, ∀ covered ∈ segments name, ∀ i ∈ covered, i < nextId

/-- What `optimize_indices` makes of the segments of one index: the fragments that none of them
covers and the newest `merged` segments go into a new one. -/
def optimizeSegments (merged : ℕ) (unindexed : List ℕ) (own : List (List ℕ)) : List (List ℕ) :=
  if own = [] ∨ unindexed = [] ∧ (own.take merged).length ≤ 1 then own
  else (unindexed ++ (own.take merged).flatten) :: own.drop merged

namespace IndexedBranch

def empty : IndexedBranch where
  fragments := []
  nextId := 0
  segments _ := []
  fragments_lt f hf := by cases hf
  covers_lt name covered hcovered := by cases hcovered

variable (b : IndexedBranch)

def ids : List ℕ := b.fragments.map RowFragment.id

def countRows : ℕ := (b.fragments.map RowFragment.rows).sum

/-- The fragments that no segment of an index covers. -/
def unindexed (name : IndexName) : List ℕ :=
  b.ids.filter fun i => (b.segments name).all fun covered => i ∉ covered

/-- `load_indices().len()`: the segments of all indices. -/
def loadIndices : ℕ := (b.segments .contentFts).length + (b.segments .embeddingAnn).length +
  (b.segments .clusteringEmbeddingAnn).length

theorem lt_of_mem_ids {i : ℕ} (h : i ∈ b.ids) : i < b.nextId := by
  obtain ⟨f, hf, rfl⟩ := List.mem_map.mp h
  exact b.fragments_lt f hf

theorem lt_of_mem_unindexed {name : IndexName} {i : ℕ} (h : i ∈ b.unindexed name) : i < b.nextId :=
  b.lt_of_mem_ids (List.mem_filter.mp h).1

theorem mem_unindexed {name : IndexName} {i : ℕ} :
    i ∈ b.unindexed name ↔ i ∈ b.ids ∧ ∀ covered ∈ b.segments name, i ∉ covered := by
  rw [unindexed, List.mem_filter, List.all_eq_true]
  simp only [decide_eq_true_eq]

/-- An append makes one fragment. -/
def appendRows (rows : ℕ) : IndexedBranch where
  fragments := b.fragments ++ [⟨b.nextId, rows⟩]
  nextId := b.nextId + 1
  segments := b.segments
  fragments_lt f hf := by
    rcases List.mem_append.mp hf with hf | hf
    · have hlt := b.fragments_lt f hf
      omega
    · obtain rfl := List.mem_singleton.mp hf
      exact Nat.lt_succ_self b.nextId
  covers_lt name covered hcovered i hi := by
    have hlt := b.covers_lt name covered hcovered i hi
    omega

/-- A delete leaves some of the rows; a fragment without rows goes, the segments stay. -/
def deleteRows (left : ℕ → ℕ) : IndexedBranch where
  fragments := (b.fragments.map fun f => ⟨f.id, min f.rows (left f.id)⟩).filter fun f => 0 < f.rows
  nextId := b.nextId
  segments := b.segments
  fragments_lt f hf := by
    obtain ⟨f', hf', rfl⟩ := List.mem_map.mp (List.mem_filter.mp hf).1
    exact b.fragments_lt f' hf'
  covers_lt := b.covers_lt

/-- The first segment of an index covers all fragments. -/
def createIndex (name : IndexName) : IndexedBranch where
  fragments := b.fragments
  nextId := b.nextId
  segments name' := if name' = name then b.ids :: b.segments name else b.segments name'
  fragments_lt := b.fragments_lt
  covers_lt name' covered hcovered i hi := by
    split at hcovered
    · rcases List.mem_cons.mp hcovered with rfl | hcovered
      · exact b.lt_of_mem_ids hi
      · exact b.covers_lt name covered hcovered i hi
    · exact b.covers_lt name' covered hcovered i hi

/-- `optimize_indices` goes over all indices. -/
def optimizeIndices (merged : IndexName → ℕ) : IndexedBranch where
  fragments := b.fragments
  nextId := b.nextId
  segments name := optimizeSegments (merged name) (b.unindexed name) (b.segments name)
  fragments_lt := b.fragments_lt
  covers_lt name covered hcovered i hi := by
    unfold optimizeSegments at hcovered
    split at hcovered
    · exact b.covers_lt name covered hcovered i hi
    · rcases List.mem_cons.mp hcovered with rfl | hcovered
      · rcases List.mem_append.mp hi with hi | hi
        · exact b.lt_of_mem_unindexed hi
        · obtain ⟨own, hown, hi⟩ := List.mem_flatten.mp hi
          exact b.covers_lt name own (List.mem_of_mem_take hown) i hi
      · exact b.covers_lt name covered (List.mem_of_mem_drop hcovered) i hi

end IndexedBranch

/-- The smallest number of rows that an index can be trained on. `adaptive` is
`(sqrt(rows) * 0.75) as usize`. -/
def VectorIndexConfig.recommendedNumPartitions (config : VectorIndexConfig) (adaptive : ℕ → ℕ)
    (rowCount : ℕ) : ℕ := max config.numPartitions (adaptive rowCount)

def VectorIndexConfig.minRowsForIndex (config : VectorIndexConfig) (adaptive : ℕ → ℕ) (force : Bool)
    (rowCount : ℕ) : ℕ :=
  if force then config.recommendedNumPartitions adaptive rowCount
  else max (config.recommendedNumPartitions adaptive rowCount) 256

/-- The calls into Lance of one push, each of which may fail. -/
inductive IndexCall where
  | countCommits
  | deleteRows
  | appendRows
  | refreshWritten
  | openBoundary
  | openIndex
  | loadIndices (name : IndexName)
  | countRows (name : IndexName)
  | createIndex (name : IndexName)
  | optimizeIndices (name : IndexName)
  | cascade (call : RollupCall)
  | refreshIndexed
  | headVersion
  | tag
deriving DecidableEq, Repr

/-- The version that a commit tag names, and whether the push had anything to write. -/
structure IndexTag where
  snapshot : IndexedBranch
  worked : Bool

/-- A branch, the deltas counted in memory, and the commit tags on the branch, newest first. -/
structure BranchIndexes where
  head : IndexedBranch
  deltaCount : ℕ
  tags : List IndexTag

abbrev Indexing (ε α : Type) := Program IndexCall BranchIndexes ε α

/-- `merged size name` is how many segments of an index Lance merges when it is called with
`merge(size)`; `append()` is size 0. An index without deltas merges all that it has. -/
structure IndexEnv where
  fails : IndexCall → Bool
  merged : ℕ → IndexName → ℕ
  vectorIndexConfig : VectorIndexConfig
  clusteringIndexConfig : Option VectorIndexConfig
  storeClustering : Bool
  adaptive : ℕ → ℕ

namespace IndexEnv

variable (env : IndexEnv)

def reads {α : Type} (call : IndexCall) (context : String) (f : BranchIndexes → α) :
    Indexing StoreError α :=
  look fun s => if env.fails call then .error (.internal context (some .io)) else .ok (f s)

def writes (call : IndexCall) (context : String) (f : BranchIndexes → BranchIndexes) :
    Indexing StoreError Unit :=
  step call fun s => if env.fails call then .error (.internal context (some .io)) else .ok (f s)

def onHead (call : IndexCall) (context : String) (f : IndexedBranch → IndexedBranch) :
    Indexing StoreError Unit :=
  env.writes call context fun s => { s with head := f s.head }

/-- The text index can be made of any number of rows. -/
def enoughRows (name : IndexName) : Option (ℕ → ℕ) → Indexing StoreError Bool
  | none => pure true
  | some minRows => do
    let rowCount ← env.reads (.countRows name) "count rows failed" fun s => s.head.countRows
    pure (decide (minRows rowCount ≤ rowCount))

/-- Create the index when it is missing and there are rows enough, else bring it up to date. -/
def ensureIndex (name : IndexName) (label : String) (minRows : Option (ℕ → ℕ)) :
    Indexing StoreError Unit := do
  let indices ← env.reads (.loadIndices name) "load indices failed" fun s => s.head.segments name
  if indices.isEmpty then do
    let enough ← env.enoughRows name minRows
    if enough then
      env.onHead (.createIndex name) s!"{label} creation failed" fun b => b.createIndex name
    else pure ()
  else
    env.onHead (.optimizeIndices name) s!"{label} optimize failed" fun b =>
      b.optimizeIndices (env.merged 0)

def ioEnsureFtsIndexOnDataset : Indexing StoreError Unit :=
  env.ensureIndex .contentFts "FTS index" none

def ioEnsureVectorIndex (config : VectorIndexConfig) (force : Bool) : Indexing StoreError Unit :=
  env.ensureIndex .embeddingAnn "vector index" (some (config.minRowsForIndex env.adaptive force))

def ioEnsureClusteringVectorIndex (config : VectorIndexConfig) (force : Bool) :
    Indexing StoreError Unit :=
  env.ensureIndex .clusteringEmbeddingAnn "clustering vector index"
    (some (config.minRowsForIndex env.adaptive force))

/-- The rounds from `i` on, of which `left` are left. -/
def cascadeLoop (i : ℕ) : (left : ℕ) → Indexing StoreError Unit
  | 0 => pure ()
  | left + 1 => do
    let count ← env.reads (.cascade (.load i)) "load indices in cascade failed" fun s =>
      s.head.loadIndices
    if count < 3 then pure ()
    else do
      env.onHead (.cascade (.merge i)) "cascade merge(3) failed" fun b =>
        b.optimizeIndices (env.merged 3)
      cascadeLoop (i + 1) left

def ioIncrementalCascade (deltaCount : ℕ) : Indexing StoreError (ℕ × ℕ) := do
  let countBefore ← env.reads (.cascade .loadBefore) "load indices failed" fun s =>
    s.head.loadIndices
  if mergesNeeded deltaCount = 0 then pure (countBefore, countBefore)
  else do
    env.cascadeLoop 0 (mergesNeeded deltaCount)
    let countAfter ← env.reads (.cascade .loadAfter) "load indices after cascade failed" fun s =>
      s.head.loadIndices
    pure (countBefore, countAfter)

end IndexEnv

/-- The fragments that an index does not cover, counted for the statistics; none before the index
is there. -/
def countUnindexedFragments (b : IndexedBranch) : ℕ :=
  if (b.segments .embeddingAnn).isEmpty then 0 else (b.unindexed .embeddingAnn).dedup.length

section Coverage

/-- The text index covers the branch, and so does every other index that exists. -/
structure Searchable (b : IndexedBranch) : Prop where
  fts : b.unindexed .contentFts = []
  others : ∀ name, b.segments name ≠ [] → b.unindexed name = []

/-- No index exists before the text index does. -/
def FtsFirst (b : IndexedBranch) : Prop :=
  ∀ name, b.segments name ≠ [] → b.segments .contentFts ≠ []

variable {b : IndexedBranch} {name : IndexName} {own : List (List ℕ)} {unindexed : List ℕ} {size : ℕ}
  {merged : IndexName → ℕ}

theorem optimizeSegments_eq_nil : optimizeSegments size unindexed own = [] ↔ own = [] := by
  unfold optimizeSegments
  split
  · rfl
  · rename_i h
    exact iff_of_false (List.cons_ne_nil _ _) fun hown => h (.inl hown)

/-- What a segment covered is covered after the optimization. -/
theorem covered_optimizeSegments {i : ℕ} {covered : List ℕ} (hcovered : covered ∈ own)
    (hi : i ∈ covered) : ∃ c ∈ optimizeSegments size unindexed own, i ∈ c := by
  unfold optimizeSegments
  split
  · exact ⟨covered, hcovered, hi⟩
  · rw [← List.take_append_drop size own] at hcovered
    rcases List.mem_append.mp hcovered with hmerged | hkept
    · refine ⟨_, List.mem_cons_self, ?_⟩
      exact List.mem_append_right _ (List.mem_flatten.mpr ⟨covered, hmerged, hi⟩)
    · exact ⟨covered, List.mem_cons_of_mem _ hkept, hi⟩

theorem unindexed_covered {i : ℕ} (hown : own ≠ []) (hi : i ∈ unindexed) :
    ∃ c ∈ optimizeSegments size unindexed own, i ∈ c := by
  unfold optimizeSegments
  rw [if_neg]
  · exact ⟨_, List.mem_cons_self, List.mem_append_left _ hi⟩
  · rintro (hnil | ⟨hnil, -⟩)
    · exact hown hnil
    · rw [hnil] at hi
      cases hi

/-- An optimization leaves no fragment out of an index that exists. -/
theorem unindexed_optimizeIndices (h : b.segments name ≠ []) :
    (b.optimizeIndices merged).unindexed name = [] := by
  apply List.eq_nil_iff_forall_not_mem.mpr
  intro i hi
  obtain ⟨hids, hnot⟩ := IndexedBranch.mem_unindexed _ |>.mp hi
  have hcovered : ∃ c ∈ (b.optimizeIndices merged).segments name, i ∈ c := by
    by_cases hun : i ∈ b.unindexed name
    · exact unindexed_covered h hun
    · have hsome : ∃ covered ∈ b.segments name, i ∈ covered := by
        by_contra hnone
        apply hun
        rw [IndexedBranch.mem_unindexed]
        exact ⟨hids, fun covered hc hin => hnone ⟨covered, hc, hin⟩⟩
      obtain ⟨covered, hmem, hin⟩ := hsome
      exact covered_optimizeSegments hmem hin
  obtain ⟨c, hc, hin⟩ := hcovered
  exact hnot c hc hin

theorem segments_optimizeIndices_eq_nil :
    (b.optimizeIndices merged).segments name = [] ↔ b.segments name = [] := optimizeSegments_eq_nil

theorem searchable_optimizeIndices (hfirst : b.segments .contentFts ≠ []) :
    Searchable (b.optimizeIndices merged) where
  fts := unindexed_optimizeIndices hfirst
  others name hname := by
    apply unindexed_optimizeIndices
    rwa [Ne, segments_optimizeIndices_eq_nil] at hname

theorem segments_createIndex_self :
    (b.createIndex name).segments name = b.ids :: b.segments name := if_pos rfl

theorem unindexed_createIndex : (b.createIndex name).unindexed name = [] := by
  apply List.eq_nil_iff_forall_not_mem.mpr
  intro i hi
  obtain ⟨hids, hnot⟩ := IndexedBranch.mem_unindexed _ |>.mp hi
  rw [segments_createIndex_self] at hnot
  exact hnot b.ids List.mem_cons_self hids

theorem segments_createIndex_ne {name' : IndexName} (h : name' ≠ name) :
    (b.createIndex name).segments name' = b.segments name' := if_neg h

theorem unindexed_createIndex_ne {name' : IndexName} (h : name' ≠ name) :
    (b.createIndex name).unindexed name' = b.unindexed name' := by
  have hsegments := segments_createIndex_ne (b := b) h
  unfold IndexedBranch.unindexed
  rw [hsegments]
  rfl

/-- Where there was no index at all, the text index makes the branch searchable. -/
theorem searchable_createFts (h : ∀ name, b.segments name = []) :
    Searchable (b.createIndex .contentFts) where
  fts := unindexed_createIndex
  others name hname := by
    by_cases hfts : name = .contentFts
    · rw [hfts]
      exact unindexed_createIndex
    · rw [segments_createIndex_ne hfts] at hname
      exact absurd (h name) hname

/-- A further index leaves the branch as searchable as it was. -/
theorem Searchable.createIndex (h : Searchable b) (name : IndexName) :
    Searchable (b.createIndex name) := by
  have hall : ∀ name', b.unindexed name' = [] → (b.createIndex name).unindexed name' = [] := by
    intro name' hun
    by_cases hname : name' = name
    · rw [hname]
      exact unindexed_createIndex
    · rw [unindexed_createIndex_ne hname]
      exact hun
  constructor
  · exact hall .contentFts h.fts
  · intro name' hname'
    by_cases hname : name' = name
    · rw [hname]
      exact unindexed_createIndex
    · rw [segments_createIndex_ne hname] at hname'
      exact hall name' (h.others name' hname')

/-- Without a text index there is nothing to search. -/
theorem Searchable.fts_or_empty (h : Searchable b) :
    b.segments .contentFts ≠ [] ∨ b.fragments = [] := by
  by_cases hfts : b.segments .contentFts = []
  · right
    have hids : b.ids = [] := by
      have hun := h.fts
      unfold IndexedBranch.unindexed at hun
      rw [hfts] at hun
      simpa using hun
    exact List.map_eq_nil_iff.mp hids
  · exact .inl hfts

theorem Searchable.countUnindexedFragments (h : Searchable b) : countUnindexedFragments b = 0 := by
  unfold Vectorlink.countUnindexedFragments
  split
  · rfl
  · rename_i hname
    rw [List.isEmpty_iff] at hname
    rw [h.others .embeddingAnn hname]
    rfl

end Coverage

end Vectorlink
