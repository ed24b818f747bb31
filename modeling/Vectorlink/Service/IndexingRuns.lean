import Vectorlink.Concurrent.Runs
import Vectorlink.Service.Pipeline
import Vectorlink.Store.IndexSegments

/-! The indices of a branch along its pushes: what the tagged versions have indexed. -/
namespace Vectorlink

open Stepwise Stepwise.Program Concurrent

/-- What a push writes: the rows that its delete leaves, and the rows it appends. -/
structure PushWrites where
  deletes : Option (ℕ → ℕ)
  rows : ℕ

def PushWrites.hasWork (w : PushWrites) : Bool := w.deletes.isSome || 0 < w.rows

/-- `map_err(|e| format!("{message}: {}", e))`. -/
def inContext {α : Type} (message : String) (m : Indexing StoreError α) : Indexing String α :=
  mapError (fun e => s!"{message}: {e.text}") m

namespace IndexEnv

variable (env : IndexEnv)

/-- A failed count is taken for 0. -/
def countBranchCommits : Indexing String ℕ :=
  look fun s => .ok (if env.fails .countCommits then 0 else s.tags.length)

def deleteOn (context : String) (w : PushWrites) : Indexing StoreError Unit :=
  match w.deletes with
  | some left => env.onHead .deleteRows context fun b => b.deleteRows left
  | none => pure ()

def appendOn (context : String) (w : PushWrites) : Indexing StoreError Unit :=
  if 0 < w.rows then env.onHead .appendRows context fun b => b.appendRows w.rows else pure ()

def refresh (call : IndexCall) : Indexing StoreError Unit :=
  env.reads call "dataset open failed" fun _ => ()

def ioBatchDeleteAppend (w : PushWrites) : Indexing StoreError Unit := do
  env.deleteOn "batch delete failed" w
  env.appendOn "batch append failed" w
  env.refresh .refreshWritten

def ensureClustering : Indexing StoreError Unit :=
  match env.clusteringIndexConfig with
  | some config =>
    if env.storeClustering then env.ioEnsureClusteringVectorIndex config false else pure ()
  | none => pure ()

def ensureIndices : Indexing String Unit := do
  inContext "FTS index creation failed" env.ioEnsureFtsIndexOnDataset
  inContext "vector index creation failed" (env.ioEnsureVectorIndex env.vectorIndexConfig false)
  inContext "clustering vector index creation failed" env.ensureClustering

/-- `io_increment_delta_count`, then `io_get_delta_count`. -/
def countDelta : Indexing String ℕ := fun s =>
  ⟨[], { s with deltaCount := s.deltaCount + 1 }, .ok (s.deltaCount + 1)⟩

/-- Indices at a boundary. The tag goes to the version before the cascade. -/
def createIndices : Indexing String IndexedBranch := do
  env.ensureIndices
  let indexed ← look fun s => .ok s.head
  let deltaCount ← countDelta
  let _ ← attempt (env.ioIncrementalCascade deltaCount)
  inContext "cascade cache refresh failed" (env.refresh .refreshIndexed)
  pure indexed

/-- Off the boundaries only the text index is asked for. -/
def ensureFts : Indexing String IndexedBranch := do
  inContext "FTS index ensure failed" env.ioEnsureFtsIndexOnDataset
  look fun s => .ok s.head

def indexStream (position : ℕ) : Indexing String IndexedBranch :=
  if shouldIndexCommit position then env.createIndices
  else do
    let indexed ← env.ensureFts
    inContext "FTS cache refresh failed" (env.refresh .refreshIndexed)
    pure indexed

/-- At a boundary a handle that cannot be opened only leaves the commit without indices. -/
def indexBuffered : Indexing String IndexedBranch := do
  let written ← look fun s => .ok s.head
  let position ← env.countBranchCommits
  if shouldIndexCommit position then
    let opened ← attempt (env.refresh .openBoundary)
    if opened.isOk then env.createIndices else pure written
  else do
    inContext "FTS index: failed to open dataset" (env.refresh .openIndex)
    env.ensureFts

def tagCommit (worked : Bool) (snapshot : IndexedBranch) : Indexing String Unit :=
  inContext "failed to tag commit" (env.writes .tag "tag create failed" fun s =>
    { s with tags := ⟨snapshot, worked⟩ :: s.tags })

/-- A push without work is tagged at the newest version of the branch. -/
def tagNoop : Indexing String Unit := do
  let current ← inContext "no-op tag: failed to get branch head version"
    (env.reads .headVersion "dataset open failed" fun s => s.head)
  env.tagCommit false current

def pushBuffered (w : PushWrites) : Indexing String Unit :=
  if w.hasWork then do
    inContext "batch delete-append failed" (env.ioBatchDeleteAppend w)
    let indexed ← env.indexBuffered
    env.tagCommit true indexed
  else env.tagNoop

/-- The position is counted before the first operation arrives. -/
def pushStream (w : PushWrites) : Indexing String Unit := do
  let position ← env.countBranchCommits
  inContext "final delete failed" (env.deleteOn "microbatch delete failed" w)
  inContext "end-of-push append failed" (env.appendOn "microbatch append failed" w)
  inContext "cache refresh failed" (env.refresh .refreshWritten)
  if w.hasWork then do
    let indexed ← env.indexStream position
    env.tagCommit true indexed
  else env.tagNoop

def push (mode : PushMode) (w : PushWrites) : Indexing String Unit :=
  match mode with
  | .buffered => env.pushBuffered w
  | .streaming _ => env.pushStream w

end IndexEnv

inductive IndexAction where
  | push (env : IndexEnv) (mode : PushMode) (w : PushWrites)
  /-- The process ends in the middle of a push, after some of its writes. -/
  | crash (env : IndexEnv) (mode : PushMode) (w : PushWrites) (writes : ℕ)
  | restart
  /-- Another branch is forked from a tagged version and followed from there. -/
  | fork (tag : ℕ)

namespace BranchIndexes

def fresh : BranchIndexes := ⟨.empty, 0, []⟩

/-- The deltas are counted in memory only. -/
def restarted (s : BranchIndexes) : BranchIndexes := { s with deltaCount := 0 }

def step (s : BranchIndexes) : IndexAction → Option BranchIndexes
  | .push env mode w => some (env.push mode w s).store
  | .crash env mode w writes => ((env.push mode w s).trace[writes]?).map fun e => e.2.restarted
  | .restart => some s.restarted
  | .fork tag => (s.tags[tag]?).map fun t => ⟨t.snapshot, 0, []⟩

/-- A buffered push can open its handle for the indices. -/
def Opens (_ : BranchIndexes) : IndexAction → Prop
  | .push env mode _ | .crash env mode _ _ => mode = .buffered → env.fails .openBoundary = false
  | _ => True

/-- No call fails and no push is cut off. -/
def Succeeds (_ : BranchIndexes) : IndexAction → Prop
  | .push env _ _ => ∀ call, env.fails call = false
  | .crash _ _ _ _ => False
  | _ => True

/-- What the tags name is in `W` where the push had work, and in `P` where it had none. -/
def Tagged (W P : IndexedBranch → Prop) (s : BranchIndexes) : Prop :=
  ∀ t ∈ s.tags, FtsFirst t.snapshot ∧ (t.worked = true → W t.snapshot) ∧
    (t.worked = false → P t.snapshot)

def Inv (W P : IndexedBranch → Prop) (s : BranchIndexes) : Prop :=
  FtsFirst s.head ∧ s.Tagged W P

end BranchIndexes

section FtsFirst

variable {b : IndexedBranch}

/-- A branch whose text index is there and up to date. -/
def Ready (b : IndexedBranch) : Prop := Searchable b ∧ b.segments .contentFts ≠ []

theorem Ready.ftsFirst (h : Ready b) : FtsFirst b := fun _ _ => h.2

theorem Ready.createIndex (h : Ready b) (name : IndexName) : Ready (b.createIndex name) := by
  refine ⟨h.1.createIndex name, ?_⟩
  by_cases hname : .contentFts = name
  · subst hname
    rw [segments_createIndex_self]
    exact List.cons_ne_nil _ _
  · rw [segments_createIndex_ne hname]
    exact h.2

theorem ready_optimizeIndices (h : b.segments .contentFts ≠ []) (merged : IndexName → ℕ) :
    Ready (b.optimizeIndices merged) := by
  refine ⟨searchable_optimizeIndices h, ?_⟩
  rwa [Ne, segments_optimizeIndices_eq_nil]

theorem FtsFirst.ready_createFts (h : FtsFirst b) (hfts : b.segments .contentFts = []) :
    Ready (b.createIndex .contentFts) := by
  have hnone : ∀ name, b.segments name = [] := by
    intro name
    by_contra hname
    exact h name hname hfts
  refine ⟨searchable_createFts hnone, ?_⟩
  rw [segments_createIndex_self]
  exact List.cons_ne_nil _ _

end FtsFirst

namespace IndexEnv

open BranchIndexes

variable {env : IndexEnv} {W P : IndexedBranch → Prop}

/-- Some call has failed. -/
def Faulty (env : IndexEnv) : Prop := ∃ call, env.fails call = true

section Calls

variable {R R' : BranchIndexes → Prop} {E : StoreError → BranchIndexes → Prop}
  {T : IndexCall → BranchIndexes → Prop} {call : IndexCall} {context : String}

theorem reads_spec {α : Type} {f : BranchIndexes → α} {Q : α → BranchIndexes → Prop}
    (hok : ∀ s, R s → Q (f s) s) (herr : ∀ e s, R s → env.Faulty → E e s) :
    Spec R (env.reads call context f) Q E T := by
  apply Spec.look
  intro s hs
  cases hcall : env.fails call with
  | true => exact herr _ s hs ⟨call, hcall⟩
  | false => exact hok s hs

theorem writes_spec {f : BranchIndexes → BranchIndexes}
    (hok : ∀ s, R s → T call (f s) ∧ R' (f s)) (herr : ∀ e s, R s → env.Faulty → E e s) :
    Spec R (env.writes call context f) (fun _ => R') E T := by
  apply Spec.step
  intro s hs
  cases hcall : env.fails call with
  | true => exact herr _ s hs ⟨call, hcall⟩
  | false => exact hok s hs

end Calls

/-- From a branch as a push leaves it, the text index is brought up to date first. -/
theorem ioEnsureFtsIndexOnDataset_spec :
    Spec (Inv W P) env.ioEnsureFtsIndexOnDataset (fun _ s => Ready s.head ∧ s.Tagged W P)
      (fun _ s => Inv W P s ∧ env.Faulty) (fun _ => Inv W P) := by
  refine Spec.bind (R := fun indices s => Inv W P s ∧ indices = s.head.segments .contentFts)
    (reads_spec (fun s hs => ⟨hs, rfl⟩) (fun _ s hs h => ⟨hs, h⟩)) fun indices =>
      Spec.ite (fun hnil => ?_) fun hsome => ?_
  · refine Spec.bind (R := fun enough s => (Inv W P s ∧ indices = s.head.segments .contentFts) ∧
      enough = true) (Spec.pure fun s hs => ⟨hs, rfl⟩) fun enough => Spec.of_and ?_
    rintro rfl
    apply writes_spec
    · rintro s ⟨hs, rfl⟩
      have hready := hs.1.ready_createFts (List.isEmpty_iff.mp hnil)
      exact ⟨⟨hready.ftsFirst, hs.2⟩, hready, hs.2⟩
    · intro e s hs h
      exact ⟨hs.1, h⟩
  · apply writes_spec
    · rintro s ⟨hs, rfl⟩
      rw [List.isEmpty_iff] at hsome
      have hready := ready_optimizeIndices hsome (env.merged 0)
      exact ⟨⟨hready.ftsFirst, hs.2⟩, hready, hs.2⟩
    · intro e s hs h
      exact ⟨hs.1, h⟩

/-- What a push keeps from the moment the text index is up to date. -/
def Kept (env : IndexEnv) (W P : IndexedBranch → Prop) {ε α : Type} (m : Indexing ε α) : Prop :=
  Spec (fun s => Ready s.head ∧ s.Tagged W P) m (fun _ s => Ready s.head ∧ s.Tagged W P)
    (fun _ s => (Ready s.head ∧ s.Tagged W P) ∧ env.Faulty)
    (fun _ s => Ready s.head ∧ s.Tagged W P)

theorem Kept.pure {ε α : Type} (a : α) : Kept env W P (pure a : Indexing ε α) :=
  Spec.pure fun _ hs => hs

theorem Kept.bind {ε α β : Type} {m : Indexing ε α} {k : α → Indexing ε β} (hm : Kept env W P m)
    (hk : ∀ a, Kept env W P (k a)) : Kept env W P (m >>= k) := Spec.bind hm hk

theorem Kept.inContext {α : Type} {m : Indexing StoreError α} {message : String}
    (hm : Kept env W P m) : Kept env W P (inContext message m) := Spec.mapError hm

theorem kept_reads {α : Type} {call : IndexCall} {context : String} {f : BranchIndexes → α} :
    Kept env W P (env.reads call context f) :=
  reads_spec (fun _ hs => hs) fun _ _ hs h => ⟨hs, h⟩

theorem kept_onHead {call : IndexCall} {context : String} {f : IndexedBranch → IndexedBranch}
    (hf : ∀ b, Ready b → Ready (f b)) : Kept env W P (env.onHead call context f) :=
  writes_spec (fun _ hs => ⟨⟨hf _ hs.1, hs.2⟩, hf _ hs.1, hs.2⟩) fun _ _ hs h => ⟨hs, h⟩

theorem kept_enoughRows (name : IndexName) (minRows : Option (ℕ → ℕ)) :
    Kept env W P (env.enoughRows name minRows) := by
  cases minRows with
  | none => exact Kept.pure true
  | some minRows => exact Kept.bind kept_reads fun rowCount => Kept.pure _

theorem kept_ensureIndex (name : IndexName) (label : String) (minRows : Option (ℕ → ℕ)) :
    Kept env W P (env.ensureIndex name label minRows) := by
  apply Kept.bind kept_reads
  intro indices
  apply Spec.ite
  · intro _
    apply Kept.bind (kept_enoughRows name minRows)
    · intro enough
      apply Spec.ite
      · intro _
        exact kept_onHead fun b hb => hb.createIndex name
      · intro _
        exact Kept.pure ()
  · intro _
    exact kept_onHead fun b hb => ready_optimizeIndices hb.2 (env.merged 0)

theorem kept_ensureClustering : Kept env W P env.ensureClustering := by
  unfold ensureClustering
  cases env.clusteringIndexConfig with
  | none => exact Kept.pure ()
  | some config =>
    apply Spec.ite
    · intro _
      exact kept_ensureIndex _ _ _
    · intro _
      exact Kept.pure ()

theorem kept_cascadeLoop (i left : ℕ) : Kept env W P (env.cascadeLoop i left) := by
  induction left generalizing i with
  | zero => exact Kept.pure ()
  | succ left ih =>
    apply Kept.bind kept_reads
    intro count
    apply Spec.ite
    · intro _
      exact Kept.pure ()
    · intro _
      apply Kept.bind
      · exact kept_onHead fun b hb => ready_optimizeIndices hb.2 (env.merged 3)
      · intro _
        exact ih (i + 1)

theorem kept_ioIncrementalCascade (deltaCount : ℕ) :
    Kept env W P (env.ioIncrementalCascade deltaCount) := by
  apply Kept.bind kept_reads
  intro countBefore
  apply Spec.ite
  · intro _
    exact Kept.pure _
  · intro _
    apply Kept.bind (kept_cascadeLoop 0 _)
    intro _
    exact Kept.bind kept_reads fun countAfter => Kept.pure _

/-- Deletes and appends leave the segments alone. -/
theorem kept_writes {call : IndexCall} {context : String} {f : IndexedBranch → IndexedBranch}
    (hf : ∀ b, (f b).segments = b.segments) :
    Spec (Inv W P) (env.onHead call context f) (fun _ => Inv W P)
      (fun _ s => Inv W P s ∧ env.Faulty) (fun _ => Inv W P) := by
  apply writes_spec
  · intro s hs
    have hfirst : FtsFirst (f s.head) := by
      unfold FtsFirst
      rw [hf]
      exact hs.1
    exact ⟨⟨hfirst, hs.2⟩, hfirst, hs.2⟩
  · exact fun _ _ hs h => ⟨hs, h⟩

theorem deleteOn_spec (context : String) (w : PushWrites) :
    Spec (Inv W P) (env.deleteOn context w) (fun _ => Inv W P)
      (fun _ s => Inv W P s ∧ env.Faulty) (fun _ => Inv W P) := by
  unfold deleteOn
  cases w.deletes with
  | none => exact Spec.pure fun _ hs => hs
  | some left => exact kept_writes fun b => rfl

theorem appendOn_spec (context : String) (w : PushWrites) :
    Spec (Inv W P) (env.appendOn context w) (fun _ => Inv W P)
      (fun _ s => Inv W P s ∧ env.Faulty) (fun _ => Inv W P) := by
  apply Spec.ite
  · exact fun _ => kept_writes fun b => rfl
  · exact fun _ => Spec.pure fun _ hs => hs

theorem refresh_spec {R : BranchIndexes → Prop} {T : IndexCall → BranchIndexes → Prop}
    (call : IndexCall) : Spec R (env.refresh call) (fun _ => R) (fun _ s => R s ∧ env.Faulty) T :=
  reads_spec (fun _ hs => hs) fun _ _ hs h => ⟨hs, h⟩

/-- What the indexing of a push hands to the tag. -/
def Indexed (W P : IndexedBranch → Prop) (indexed : IndexedBranch) (s : BranchIndexes) : Prop :=
  (Ready s.head ∧ s.Tagged W P) ∧ Ready indexed

theorem Indexed.of_ready {indexed : IndexedBranch} {s : BranchIndexes}
    (hs : Ready s.head ∧ s.Tagged W P) (h : indexed = s.head) : Indexed W P indexed s :=
  ⟨hs, h ▸ hs.1⟩

theorem inv_of_kept {s : BranchIndexes} (h : Ready s.head ∧ s.Tagged W P) : Inv W P s :=
  ⟨h.1.ftsFirst, h.2⟩

theorem Kept.spec {ε α : Type} {m : Indexing ε α} (hm : Kept env W P m) :
    Spec (fun s => Ready s.head ∧ s.Tagged W P) m (fun _ s => Ready s.head ∧ s.Tagged W P)
      (fun _ s => Inv W P s ∧ env.Faulty) (fun _ => Inv W P) :=
  hm.weaken (fun _ h => h) (fun _ _ h => h) (fun _ _ h => ⟨inv_of_kept h.1, h.2⟩)
    (fun _ _ h => inv_of_kept h)

/-- A handle that is refreshed after the indexing changes nothing. -/
theorem refreshIndexed_spec (message : String) (indexed : IndexedBranch) :
    Spec (Indexed W P indexed) (inContext message (env.refresh .refreshIndexed))
      (fun _ => Indexed W P indexed) (fun _ s => Inv W P s ∧ env.Faulty) (fun _ => Inv W P) :=
  Spec.mapError (reads_spec (fun _ hs => hs) fun _ _ hs h => ⟨inv_of_kept hs.1, h⟩)

theorem kept_countDelta : Kept env W P countDelta := by
  intro s hs
  exact ⟨by simp [countDelta], hs⟩

theorem ensureIndices_spec :
    Spec (Inv W P) env.ensureIndices (fun _ s => Ready s.head ∧ s.Tagged W P)
      (fun _ s => Inv W P s ∧ env.Faulty) (fun _ => Inv W P) := by
  apply Spec.bind (Spec.mapError ioEnsureFtsIndexOnDataset_spec)
  intro _
  apply Kept.spec
  apply Kept.bind (Kept.inContext (kept_ensureIndex _ _ _))
  intro _
  exact Kept.inContext kept_ensureClustering

theorem createIndices_spec :
    Spec (Inv W P) env.createIndices (Indexed W P) (fun _ s => Inv W P s ∧ env.Faulty)
      (fun _ => Inv W P) := by
  apply Spec.bind ensureIndices_spec
  intro _
  refine Spec.bind (R := Indexed W P) (Spec.look fun s hs => Indexed.of_ready hs rfl) fun indexed =>
    ?_
  -- from here on the version to be tagged is fixed, whatever the cascade does to the head
  have hcascade : ∀ deltaCount, Spec (Indexed W P indexed)
      (attempt (env.ioIncrementalCascade deltaCount) : Indexing String _)
      (fun _ => Indexed W P indexed)
      (fun _ s => Inv W P s ∧ env.Faulty) (fun _ => Inv W P) := by
    intro deltaCount
    apply Spec.of_and
    intro hindexed
    apply Spec.attempt_const
    exact (kept_ioIncrementalCascade deltaCount).weaken (fun _ h => h) (fun _ _ h => ⟨h, hindexed⟩)
      (fun _ _ h => ⟨h.1, hindexed⟩) (fun _ _ h => inv_of_kept h)
  have hcount : Spec (Indexed W P indexed) countDelta (fun _ => Indexed W P indexed)
      (fun _ s => Inv W P s ∧ env.Faulty) (fun _ => Inv W P) := by
    apply Spec.of_and
    intro hindexed
    exact kept_countDelta.spec.post fun _ _ h => ⟨h, hindexed⟩
  apply Spec.bind hcount
  intro deltaCount
  apply Spec.bind (hcascade deltaCount)
  intro _
  apply Spec.bind (refreshIndexed_spec _ indexed)
  intro _
  exact Spec.pure fun _ hs => hs

theorem ensureFts_spec :
    Spec (Inv W P) env.ensureFts (Indexed W P) (fun _ s => Inv W P s ∧ env.Faulty)
      (fun _ => Inv W P) := by
  apply Spec.bind (Spec.mapError ioEnsureFtsIndexOnDataset_spec)
  intro _
  exact Spec.look fun s hs => Indexed.of_ready hs rfl

theorem indexStream_spec (position : ℕ) :
    Spec (Inv W P) (env.indexStream position) (Indexed W P) (fun _ s => Inv W P s ∧ env.Faulty)
      (fun _ => Inv W P) := by
  apply Spec.ite
  · exact fun _ => createIndices_spec
  · intro _
    apply Spec.bind ensureFts_spec
    intro indexed
    apply Spec.bind (refreshIndexed_spec _ indexed)
    intro _
    exact Spec.pure fun _ hs => hs

theorem tagCommit_spec {worked : Bool} {snapshot : IndexedBranch} (hfirst : FtsFirst snapshot)
    (hworked : worked = true → W snapshot) (hnoop : worked = false → P snapshot) :
    Spec (fun s => Inv W P s ∧ P s.head) (env.tagCommit worked snapshot)
      (fun _ s => Inv W P s ∧ P s.head) (fun _ s => Inv W P s ∧ env.Faulty) (fun _ => Inv W P) := by
  apply Spec.mapError
  apply writes_spec
  · intro s hs
    have htags : Tagged W P { s with tags := ⟨snapshot, worked⟩ :: s.tags } :=
      List.forall_mem_cons.mpr ⟨⟨hfirst, hworked, hnoop⟩, hs.1.2⟩
    exact ⟨⟨hs.1.1, htags⟩, ⟨hs.1.1, htags⟩, hs.2⟩
  · exact fun _ _ hs h => ⟨hs.1, h⟩

theorem tagNoop_spec :
    Spec (fun s => Inv W P s ∧ P s.head) env.tagNoop (fun _ s => Inv W P s ∧ P s.head)
      (fun _ s => Inv W P s ∧ env.Faulty) (fun _ => Inv W P) := by
  refine Spec.bind (R := fun current s => (Inv W P s ∧ P s.head) ∧ FtsFirst current ∧ P current)
    (Spec.mapError (reads_spec (fun s hs => ⟨hs, hs.1.1, hs.2⟩) fun _ _ hs h => ⟨hs.1, h⟩))
    fun current => Spec.of_and fun hcurrent => ?_
  exact tagCommit_spec hcurrent.1 (fun h => by cases h) fun _ => hcurrent.2

section Push

variable (hW : ∀ b, Ready b → W b) (hP : ∀ b, Ready b → P b)
include hW hP

/-- The versions a tag may name, and the branch it is made on. -/
theorem of_indexed {indexed : IndexedBranch} {s : BranchIndexes} (h : Indexed W P indexed s) :
    (Inv W P s ∧ P s.head) ∧ FtsFirst indexed ∧ W indexed :=
  ⟨⟨inv_of_kept h.1, hP _ h.1.1⟩, h.2.ftsFirst, hW _ h.2⟩

theorem indexBuffered_spec (hopens : env.fails .openBoundary = true → ∀ b, W b ∧ P b) :
    Spec (Inv W P) env.indexBuffered
      (fun indexed s => (Inv W P s ∧ P s.head) ∧ FtsFirst indexed ∧ W indexed)
      (fun _ s => Inv W P s ∧ env.Faulty) (fun _ => Inv W P) := by
  refine Spec.bind (R := fun written s => Inv W P s ∧ FtsFirst written)
    (Spec.look fun s hs => ⟨hs, hs.1⟩) fun written => Spec.of_and fun hwritten => ?_
  refine Spec.bind (R := fun _ => Inv W P) (Spec.look fun s hs => hs) fun position =>
    Spec.ite (fun _ => ?_) fun _ => ?_
  · have hopen : Spec (Inv W P) (attempt (env.refresh .openBoundary) : Indexing String _)
        (fun opened s => Inv W P s ∧ (opened.isOk = false → ∀ b, W b ∧ P b))
        (fun _ s => Inv W P s ∧ env.Faulty) (fun _ => Inv W P) := by
      apply Spec.attempt
      apply Spec.look
      intro s hs
      cases hcall : env.fails .openBoundary with
      | true => exact ⟨hs, fun _ => hopens hcall⟩
      | false => exact ⟨hs, fun h => by cases h⟩
    refine Spec.bind hopen fun opened => Spec.of_and fun hopened => Spec.ite (fun _ => ?_) fun h => ?_
    · exact createIndices_spec.post fun _ _ h => of_indexed hW hP h
    · rw [Bool.not_eq_true] at h
      apply Spec.pure
      intro s hs
      exact ⟨⟨hs, (hopened h s.head).2⟩, hwritten, (hopened h written).1⟩
  · apply Spec.bind (Spec.mapError (refresh_spec .openIndex))
    intro _
    exact ensureFts_spec.post fun _ _ h => of_indexed hW hP h

theorem pushBuffered_spec (hopens : env.fails .openBoundary = true → ∀ b, W b ∧ P b)
    (w : PushWrites) :
    Spec (fun s => Inv W P s ∧ P s.head) (env.pushBuffered w) (fun _ s => Inv W P s ∧ P s.head)
      (fun _ s => Inv W P s ∧ env.Faulty) (fun _ => Inv W P) := by
  apply Spec.ite
  · intro _
    have hwrites : Spec (Inv W P) (env.ioBatchDeleteAppend w) (fun _ => Inv W P)
        (fun _ s => Inv W P s ∧ env.Faulty) (fun _ => Inv W P) := by
      apply Spec.bind (deleteOn_spec _ w)
      intro _
      apply Spec.bind (appendOn_spec _ w)
      intro _
      exact refresh_spec .refreshWritten
    refine Spec.bind (Spec.mapError (hwrites.pre fun s hs => hs.1)) fun _ => ?_
    refine Spec.bind (indexBuffered_spec hW hP hopens) fun indexed => Spec.of_and fun hindexed => ?_
    exact tagCommit_spec hindexed.1 (fun _ => hindexed.2) fun h => by cases h
  · exact fun _ => tagNoop_spec

theorem pushStream_spec (w : PushWrites) :
    Spec (fun s => Inv W P s ∧ P s.head) (env.pushStream w) (fun _ s => Inv W P s ∧ P s.head)
      (fun _ s => Inv W P s ∧ env.Faulty) (fun _ => Inv W P) := by
  refine Spec.bind (R := fun _ s => Inv W P s ∧ P s.head) (Spec.look fun s hs => hs) fun position =>
    ?_
  cases hwork : w.hasWork with
  | true =>
    refine Spec.bind (Spec.mapError ((deleteOn_spec _ w).pre fun s hs => hs.1)) fun _ => ?_
    refine Spec.bind (Spec.mapError (appendOn_spec _ w)) fun _ => ?_
    refine Spec.bind (Spec.mapError (refresh_spec .refreshWritten)) fun _ => ?_
    refine Spec.bind ((indexStream_spec position).post fun _ _ h => of_indexed hW hP h) fun indexed =>
      Spec.of_and fun hindexed => ?_
    exact tagCommit_spec hindexed.1 (fun _ => hindexed.2) fun h => by cases h
  | false =>
    obtain ⟨hdeletes, hrows⟩ := Bool.or_eq_false_iff.mp hwork
    have hdelete : ∀ context, env.deleteOn context w = pure () := by
      intro context
      unfold deleteOn
      rw [Option.isSome_eq_false_iff, Option.isNone_iff_eq_none] at hdeletes
      rw [hdeletes]
    have happend : ∀ context, env.appendOn context w = pure () := by
      intro context
      exact if_neg (of_decide_eq_false hrows)
    rw [hdelete, happend]
    refine Spec.bind (R := fun _ s => Inv W P s ∧ P s.head)
      (Spec.mapError (Spec.pure fun _ hs => hs)) fun _ => ?_
    refine Spec.bind (R := fun _ s => Inv W P s ∧ P s.head)
      (Spec.mapError (Spec.pure fun _ hs => hs)) fun _ => ?_
    refine Spec.bind (R := fun _ s => Inv W P s ∧ P s.head)
      (Spec.mapError (reads_spec (fun _ hs => hs) fun _ _ hs h => ⟨hs.1, h⟩)) fun _ => ?_
    exact tagNoop_spec

theorem push_spec (mode : PushMode)
    (hopens : mode = .buffered → env.fails .openBoundary = true → ∀ b, W b ∧ P b) (w : PushWrites) :
    Spec (fun s => Inv W P s ∧ P s.head) (env.push mode w) (fun _ s => Inv W P s ∧ P s.head)
      (fun _ s => Inv W P s ∧ env.Faulty) (fun _ => Inv W P) := by
  cases mode with
  | buffered => exact pushBuffered_spec hW hP (hopens rfl) w
  | streaming expected => exact pushStream_spec hW hP w

end Push

end IndexEnv

namespace BranchIndexes

variable {W : IndexedBranch → Prop} {s t : BranchIndexes} {a : IndexAction}

theorem inv_fresh (W P : IndexedBranch → Prop) : Inv W P fresh :=
  ⟨fun _ h => absurd rfl h, fun _ ht => by cases ht⟩

/-- Whatever fails or is cut off, a tag that is made names a version with indices. -/
theorem inv_step (hW : ∀ b, Ready b → W b)
    (hopens : Opens s a ∨ ∀ b, W b) (hs : Inv W (fun _ => True) s) (hstep : step s a = some t) :
    Inv W (fun _ => True) t := by
  have hbuffered : ∀ (env : IndexEnv) (mode : PushMode), (mode = .buffered → env.fails .openBoundary = false) ∨
      (∀ b, W b) → mode = .buffered → env.fails .openBoundary = true → ∀ b, W b ∧ True := by
    intro env mode h hmode hfails b
    rcases h with h | h
    · rw [h hmode] at hfails
      cases hfails
    · exact ⟨h b, trivial⟩
  cases a with
  | push env mode w =>
    obtain rfl := Option.some.inj hstep
    have hspec := IndexEnv.push_spec hW (fun _ _ => trivial) mode (hbuffered env mode hopens) w
    have hboth := hspec.weaken (Q := fun _ => Inv W fun _ => True)
      (E := fun _ => Inv W fun _ => True) (fun _ h => h) (fun _ _ h => h.1) (fun _ _ h => h.1)
      (fun _ _ h => h)
    exact hboth.final ⟨hs, trivial⟩
  | crash env mode w writes =>
    obtain ⟨e, he, rfl⟩ := Option.map_eq_some_iff.mp hstep
    have hspec := IndexEnv.push_spec hW (fun _ _ => trivial) mode (hbuffered env mode hopens) w
    exact (hspec s ⟨hs, trivial⟩).1 e (List.mem_of_getElem? he)
  | restart =>
    obtain rfl := Option.some.inj hstep
    exact hs
  | fork tag =>
    obtain ⟨e, he, rfl⟩ := Option.map_eq_some_iff.mp hstep
    exact ⟨(hs.2 e (List.mem_of_getElem? he)).1, fun _ ht => by cases ht⟩

theorem succeeds_step (hC : Succeeds s a)
    (hs : Inv Searchable Searchable s ∧ Searchable s.head) (hstep : step s a = some t) :
    Inv Searchable Searchable t ∧ Searchable t.head := by
  cases a with
  | push env mode w =>
    obtain rfl := Option.some.inj hstep
    have hopens : mode = .buffered → env.fails .openBoundary = true →
        ∀ b, Searchable b ∧ Searchable b := by
      intro _ hfails
      rw [hC .openBoundary] at hfails
      cases hfails
    have hspec := IndexEnv.push_spec (fun _ h => h.1) (fun _ h => h.1) mode hopens w
    have hnever : ¬ env.Faulty := by
      rintro ⟨call, hcall⟩
      rw [hC call] at hcall
      cases hcall
    have hok := hspec.weaken (E := fun _ _ => False) (fun _ h => h) (fun _ _ h => h)
      (fun _ _ h => hnever h.2) (fun _ _ h => h)
    obtain ⟨_, _, hfinal⟩ := hok.completes hs
    exact hfinal
  | crash env mode w writes => exact hC.elim
  | restart =>
    obtain rfl := Option.some.inj hstep
    exact hs
  | fork tag =>
    obtain ⟨e, he, rfl⟩ := Option.map_eq_some_iff.mp hstep
    obtain ⟨hfirst, hworked, hnoop⟩ := hs.1.2 e (List.mem_of_getElem? he)
    have hsnapshot : Searchable e.snapshot := by
      cases hw : e.worked with
      | true => exact hworked hw
      | false => exact hnoop hw
    exact ⟨⟨hfirst, fun _ ht => by cases ht⟩, hsnapshot⟩

theorem searchable_empty : Searchable .empty := ⟨rfl, fun _ _ => rfl⟩

end BranchIndexes

open BranchIndexes in
/-- The commits that a search can be asked about have their indices over all their rows, and nothing
counts as unindexed. Those of pushes that had work have a text index, whatever calls failed before;
the others are covered where none did, and those without a text index are empty. -/
theorem tags_searchable :
    (∀ s, Reaches BranchIndexes.step Opens .fresh s → ∀ t ∈ s.tags, t.worked = true →
      t.snapshot.segments .contentFts ≠ [] ∧ Searchable t.snapshot ∧
        countUnindexedFragments t.snapshot = 0) ∧
    ∀ s, Reaches BranchIndexes.step Succeeds .fresh s → ∀ t ∈ s.tags,
      (t.snapshot.segments .contentFts ≠ [] ∨ t.snapshot.fragments = []) ∧ Searchable t.snapshot ∧
        countUnindexedFragments t.snapshot = 0 := by
  constructor
  · intro s hreach t ht hworked
    have hinv : Inv Ready (fun _ => True) s := by
      apply hreach.invariant (inv_fresh _ _)
      intro _ _ _ hs hC hstep
      exact inv_step (fun _ h => h) (.inl hC) hs hstep
    have hready : Ready t.snapshot := (hinv.2 t ht).2.1 hworked
    exact ⟨hready.2, hready.1, hready.1.countUnindexedFragments⟩
  · intro s hreach t ht
    have hinv : Inv Searchable Searchable s ∧ Searchable s.head := by
      apply hreach.invariant ⟨inv_fresh _ _, searchable_empty⟩
      intro _ _ _ hs hC hstep
      exact succeeds_step hC hs hstep
    obtain ⟨-, hwork, hnoop⟩ := hinv.1.2 t ht
    have hsearchable : Searchable t.snapshot := by
      cases hw : t.worked with
      | true => exact hwork hw
      | false => exact hnoop hw
    exact ⟨hsearchable.fts_or_empty, hsearchable, hsearchable.countUnindexedFragments⟩

section Run

/-- An environment in which only the calls in `fails` fail. -/
def failing (fails : IndexCall → Bool) : IndexEnv :=
  ⟨fails, fun size _ => size, ⟨16, 30, 200, 4, some 2⟩, none, false, id⟩

/-- The first push cannot be tagged and the second is cut off after its append. -/
def interrupted : List IndexAction :=
  [.push (failing fun call => call = .tag) .buffered ⟨none, 1⟩,
    .crash (failing fun _ => false) .buffered ⟨none, 1⟩ 0,
    .push (failing fun _ => false) (.streaming none) ⟨none, 1⟩]

theorem tags_searchable_interrupted : ∃ s, exec BranchIndexes.step .fresh interrupted = some s ∧
    s.head.ids = [0, 1, 2] ∧ ∃ t ∈ s.tags, t.worked = true ∧
      t.snapshot.segments .contentFts ≠ [] ∧ Searchable t.snapshot ∧
        countUnindexedFragments t.snapshot = 0 := by
  have hexec : (exec BranchIndexes.step .fresh interrupted).isSome = true := rfl
  have hsome := (Option.some_get hexec).symm
  have hopens : ∀ a ∈ interrupted, ∀ s, BranchIndexes.Opens s a := by
    simp [interrupted, BranchIndexes.Opens, failing]
  have hreach := Reaches.of_exec (allowed_of_forall hopens) hsome
  have htag : ∃ t ∈ ((exec BranchIndexes.step .fresh interrupted).get hexec).tags,
      t.worked = true := ⟨_, List.mem_cons_self, rfl⟩
  obtain ⟨t, ht, hworked⟩ := htag
  exact ⟨_, hsome, rfl, t, ht, hworked, tags_searchable.1 _ hreach t ht hworked⟩

end Run

end Vectorlink
