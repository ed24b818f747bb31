import Mathlib.Tactic.NormNum
import Vectorlink.Service.IndexingRuns

/-! How many segments the indices of a branch have after pushes that all succeed. -/
namespace Vectorlink

open Stepwise Stepwise.Program Concurrent

section Growth

/-- A place more leaves the sum of the digits, less what the carries take. -/
theorem sum_digits_succ (n : ℕ) :
    (Nat.digits 3 (n + 1)).sum + 2 * mergesNeeded (n + 1) = (Nat.digits 3 n).sum + 1 := by
  have hsum : ∀ n, (Nat.digits 3 n).sum = n % 3 + (Nat.digits 3 (n / 3)).sum := by
    intro n
    cases n with
    | zero => rfl
    | succ n => rw [Nat.digits_def' (by decide) n.succ_pos, List.sum_cons]
  induction n using Nat.strong_induction_on with
  | _ n ih =>
    rw [hsum n, hsum (n + 1)]
    rcases Nat.lt_or_eq_of_le (Nat.mod_lt n (by decide : 0 < 3)) with hlt | hcarry
    · have hdiv : (n + 1) / 3 = n / 3 := by omega
      rw [mergesNeeded_of_lt hlt, hdiv]
      omega
    · have hdiv : (n + 1) / 3 = n / 3 + 1 := by omega
      have hnext := ih (n / 3) (by omega)
      rw [mergesNeeded_of_carry hcarry, hdiv]
      omega

/-- No call fails, and the index grows by deltas as the options of Lance say. -/
structure Deltas (name : IndexName) (env : IndexEnv) : Prop where
  succeeds : ∀ call, env.fails call = false
  append : env.merged 0 name = 0
  merge : env.merged 3 name = 3

variable {name : IndexName} {n : ℕ} {b : IndexedBranch}

/-- The index has `n` segments, or is the text index, which the next push makes. -/
def Grown (name : IndexName) (n : ℕ) (b : IndexedBranch) : Prop :=
  FtsFirst b ∧ (name = .contentFts ∨ b.segments name ≠ []) ∧ (b.segments name).length = n

/-- The index has `n + 1` segments, and they cover the branch. -/
def UpToDate (name : IndexName) (n : ℕ) (b : IndexedBranch) : Prop :=
  Ready b ∧ (b.segments name).length = n + 1

theorem UpToDate.ne_nil (h : UpToDate name n b) : b.segments name ≠ [] := by
  intro hnil
  have hlength := h.2
  rw [hnil] at hlength
  cases hlength

theorem UpToDate.grown (h : UpToDate name n b) : Grown name (n + 1) b :=
  ⟨h.1.ftsFirst, .inr h.ne_nil, h.2⟩

theorem unindexed_appendRows (b : IndexedBranch) (name : IndexName) (rows : ℕ) :
    (b.appendRows rows).unindexed name ≠ [] := by
  have hmem : b.nextId ∈ (b.appendRows rows).unindexed name := by
    rw [IndexedBranch.mem_unindexed]
    constructor
    · simp [IndexedBranch.ids, IndexedBranch.appendRows]
    · intro covered hcovered hin
      exact absurd (b.covers_lt name covered hcovered _ hin) (Nat.lt_irrefl _)
  exact List.ne_nil_of_mem hmem

/-- What `append()` does to an index with new fragments. -/
theorem length_optimizeSegments_append {unindexed : List ℕ} {own : List (List ℕ)}
    (hown : own ≠ []) (hun : unindexed ≠ []) :
    (optimizeSegments 0 unindexed own).length = own.length + 1 := by
  unfold optimizeSegments
  rw [if_neg]
  · rfl
  · rintro (h | ⟨h, -⟩)
    · exact hown h
    · exact hun h

theorem Grown.upToDate_createFts (h : Grown name n b) (hfts : b.segments .contentFts = []) :
    UpToDate name n (b.createIndex .contentFts) := by
  refine ⟨h.1.ready_createFts hfts, ?_⟩
  rcases h.2.1 with rfl | hexists
  · rw [segments_createIndex_self, List.length_cons, h.2.2]
  · exact absurd hfts (h.1 name hexists)

theorem Grown.upToDate_optimizeIndices {merged : IndexName → ℕ} (h : Grown name n b)
    (hfts : b.segments .contentFts ≠ []) (hun : b.unindexed name ≠ []) (hmerged : merged name = 0) :
    UpToDate name n (b.optimizeIndices merged) := by
  refine ⟨ready_optimizeIndices hfts merged, ?_⟩
  have hexists : b.segments name ≠ [] := by
    rcases h.2.1 with rfl | hexists
    · exact hfts
    · exact hexists
  have hlength := length_optimizeSegments_append hexists hun
  rw [h.2.2] at hlength
  show (optimizeSegments (merged name) _ _).length = n + 1
  rw [hmerged]
  exact hlength

theorem UpToDate.optimizeIndices {merged : IndexName → ℕ} (h : UpToDate name n b)
    (hmerged : merged name = 0) : UpToDate name n (b.optimizeIndices merged) := by
  refine ⟨ready_optimizeIndices h.1.2 merged, ?_⟩
  show (optimizeSegments (merged name) (b.unindexed name) _).length = n + 1
  rw [h.1.1.others name h.ne_nil, hmerged, optimizeSegments, if_pos (by simp), h.2]

theorem UpToDate.createIndex {name' : IndexName} (h : UpToDate name n b)
    (hname : b.segments name' = []) : UpToDate name n (b.createIndex name') := by
  refine ⟨h.1.createIndex name', ?_⟩
  have hne : name ≠ name' := by
    rintro rfl
    exact h.ne_nil hname
  rw [segments_createIndex_ne hne, h.2]

theorem UpToDate.merge {merged : IndexName → ℕ} (h : UpToDate name (n + 2) b)
    (hmerged : merged name = 3) : UpToDate name n (b.optimizeIndices merged) := by
  refine ⟨ready_optimizeIndices h.1.2 merged, ?_⟩
  have hlength := h.2
  show (optimizeSegments (merged name) (b.unindexed name) _).length = n + 1
  rw [hmerged, optimizeSegments, if_neg]
  · rw [List.length_cons, List.length_drop, hlength]
    omega
  · rintro (hnil | ⟨-, hfew⟩)
    · exact h.ne_nil hnil
    · rw [List.length_take, hlength] at hfew
      omega

/-- A branch in `R`, with `d` deltas counted and `k` tags. -/
def BranchIndexes.At (R : IndexedBranch → Prop) (d k : ℕ) (s : BranchIndexes) : Prop :=
  R s.head ∧ s.deltaCount = d ∧ s.tags.length = k

/-- A program that cannot fail and leads from `R` to `R'`. -/
def Leads {ε α : Type} (R : BranchIndexes → Prop) (m : Indexing ε α)
    (R' : α → BranchIndexes → Prop) : Prop :=
  Spec R m R' (fun _ _ => False) (fun _ _ => True)

namespace IndexEnv

open BranchIndexes

variable {env : IndexEnv} {d k : ℕ}

section Leads

variable {R R' : BranchIndexes → Prop} {call : IndexCall} {context : String}

theorem leads_reads {α : Type} {f : BranchIndexes → α} (h : ∀ call, env.fails call = false) :
    Leads R (env.reads call context f) (fun a s => R s ∧ a = f s) := by
  apply reads_spec
  · exact fun s hs => ⟨hs, rfl⟩
  · rintro _ _ _ ⟨call, hcall⟩
    rw [h call] at hcall
    cases hcall

theorem leads_writes {f : BranchIndexes → BranchIndexes} (h : ∀ call, env.fails call = false)
    (hf : ∀ s, R s → R' (f s)) : Leads R (env.writes call context f) (fun _ => R') := by
  apply writes_spec
  · exact fun s hs => ⟨trivial, hf s hs⟩
  · rintro _ _ _ ⟨call, hcall⟩
    rw [h call] at hcall
    cases hcall

theorem leads_onHead {f : IndexedBranch → IndexedBranch} {R R' : IndexedBranch → Prop}
    (h : ∀ call, env.fails call = false) (hf : ∀ b, R b → R' (f b)) :
    Leads (At R d k) (env.onHead call context f) (fun _ => At R' d k) :=
  leads_writes h fun s hs => ⟨hf s.head hs.1, hs.2⟩

theorem leads_refresh (h : ∀ call, env.fails call = false) (call : IndexCall) :
    Leads R (env.refresh call) (fun _ => R) := (leads_reads h).post fun _ _ hs => hs.1

theorem Leads.inContext {α : Type} {m : Indexing StoreError α} {Q : α → BranchIndexes → Prop}
    {message : String} (h : Leads R m Q) : Leads R (inContext message m) Q := Spec.mapError h

end Leads

theorem leads_ensureFts (h : Deltas name env) :
    Leads (At (fun b => Grown name n b ∧ b.unindexed name ≠ []) d k) env.ioEnsureFtsIndexOnDataset
      (fun _ => At (UpToDate name n) d k) := by
  refine Spec.bind (leads_reads h.succeeds) fun indices => Spec.of_forall fun s₀ hs₀ => ?_
  obtain ⟨hs₀, rfl⟩ := hs₀
  refine Spec.ite (fun hnil => ?_) fun hsome => ?_
  · refine Spec.bind (R := fun enough s => s = s₀ ∧ enough = true) (Spec.pure fun s hs => ⟨hs, rfl⟩)
      fun enough => Spec.of_and ?_
    rintro rfl
    apply leads_writes h.succeeds
    rintro s rfl
    exact ⟨hs₀.1.1.upToDate_createFts (List.isEmpty_iff.mp hnil), hs₀.2⟩
  · apply leads_writes h.succeeds
    rintro s rfl
    rw [List.isEmpty_iff] at hsome
    exact ⟨hs₀.1.1.upToDate_optimizeIndices hsome hs₀.1.2 h.append, hs₀.2⟩

theorem leads_ensureIndex (h : Deltas name env) (name' : IndexName) (label : String)
    (minRows : Option (ℕ → ℕ)) :
    Leads (At (UpToDate name n) d k) (env.ensureIndex name' label minRows)
      (fun _ => At (UpToDate name n) d k) := by
  refine Spec.bind (leads_reads h.succeeds) fun indices => Spec.of_forall fun s₀ hs₀ => ?_
  obtain ⟨hs₀, rfl⟩ := hs₀
  refine Spec.ite (fun hnil => ?_) fun hsome => ?_
  · have henough : Leads (fun s => s = s₀) (env.enoughRows name' minRows)
        (fun _ s => s = s₀) := by
      cases minRows with
      | none => exact Spec.pure fun _ hs => hs
      | some minRows =>
        refine Spec.bind (leads_reads h.succeeds) fun rowCount => ?_
        exact Spec.pure fun _ hs => hs.1
    refine Spec.bind henough fun enough => Spec.ite (fun _ => ?_) fun _ => ?_
    · apply leads_writes h.succeeds
      rintro s rfl
      exact ⟨hs₀.1.createIndex (List.isEmpty_iff.mp hnil), hs₀.2⟩
    · apply Spec.pure
      rintro s rfl
      exact hs₀
  · apply leads_writes h.succeeds
    rintro s rfl
    exact ⟨hs₀.1.optimizeIndices h.append, hs₀.2⟩

theorem leads_ensureIndices (h : Deltas name env) :
    Leads (At (fun b => Grown name n b ∧ b.unindexed name ≠ []) d k) env.ensureIndices
      (fun _ => At (UpToDate name n) d k) := by
  refine Spec.bind (Leads.inContext (leads_ensureFts h)) fun _ => ?_
  refine Spec.bind (Leads.inContext (leads_ensureIndex h _ _ _)) fun _ => ?_
  apply Leads.inContext
  unfold ensureClustering
  cases env.clusteringIndexConfig with
  | none => exact Spec.pure fun _ hs => hs
  | some config =>
    apply Spec.ite
    · exact fun _ => leads_ensureIndex h _ _ _
    · exact fun _ => Spec.pure fun _ hs => hs

theorem loadIndices_ge (b : IndexedBranch) (name : IndexName) :
    (b.segments name).length ≤ b.loadIndices := by
  unfold IndexedBranch.loadIndices
  cases name <;> omega

/-- The index has segments enough that the guard stops none of the merges. -/
theorem leads_cascadeLoop (h : Deltas name env) (i left : ℕ) :
    Leads (At (UpToDate name (n + 2 * left)) d k) (env.cascadeLoop i left)
      (fun _ => At (UpToDate name n) d k) := by
  induction left generalizing i with
  | zero => exact Spec.pure fun _ hs => hs
  | succ left ih =>
    have hround : n + 2 * (left + 1) = n + 2 * left + 2 := by omega
    rw [hround]
    refine Spec.bind (leads_reads h.succeeds) fun count => Spec.ite (fun hfew => ?_) fun _ => ?_
    · rintro s ⟨hs, rfl⟩
      have hmany := loadIndices_ge s.head name
      rw [hs.1.2] at hmany
      omega
    · refine Spec.bind (R := fun _ => At (UpToDate name (n + 2 * left)) d k) ?_ fun _ => ih (i + 1)
      exact (leads_onHead h.succeeds fun b hb => hb.merge h.merge).pre fun s hs => hs.1

theorem leads_ioIncrementalCascade (h : Deltas name env) (deltaCount : ℕ) :
    Leads (At (UpToDate name (n + 2 * mergesNeeded deltaCount)) d k)
      (env.ioIncrementalCascade deltaCount) (fun _ => At (UpToDate name n) d k) := by
  refine Spec.bind (leads_reads h.succeeds) fun countBefore => Spec.ite (fun hzero => ?_) fun _ => ?_
  · apply Spec.pure
    intro s hs
    have hupToDate := hs.1
    rwa [hzero] at hupToDate
  · refine Spec.bind ((leads_cascadeLoop h 0 _).pre fun s hs => hs.1) fun _ => ?_
    refine Spec.bind (leads_reads h.succeeds) fun countAfter => ?_
    exact Spec.pure fun s hs => hs.1

theorem leads_createIndices (h : Deltas name env) :
    Leads (At (fun b => Grown name (n + 2 * mergesNeeded (d + 1)) b ∧ b.unindexed name ≠ []) d k)
      env.createIndices (fun _ => At (UpToDate name n) (d + 1) k) := by
  refine Spec.bind (leads_ensureIndices h) fun _ => ?_
  refine Spec.bind (R := fun _ => At (UpToDate name (n + 2 * mergesNeeded (d + 1))) d k)
    (Spec.look fun s hs => hs) fun indexed => ?_
  have hcount : Leads (At (UpToDate name (n + 2 * mergesNeeded (d + 1))) d k) countDelta
      (fun deltaCount s => At (UpToDate name (n + 2 * mergesNeeded (d + 1))) (d + 1) k s ∧
        deltaCount = d + 1) := by
    rintro s ⟨hhead, rfl, htags⟩
    exact ⟨fun _ _ => trivial, ⟨hhead, rfl, htags⟩, rfl⟩
  refine Spec.bind hcount fun deltaCount => Spec.of_and ?_
  rintro rfl
  have hcascade := leads_ioIncrementalCascade (n := n) (d := d + 1) (k := k) h (d + 1)
  refine Spec.bind (Spec.attempt (Q := fun _ => At (UpToDate name n) (d + 1) k) (hcascade.weaken
    (fun _ h => h) (fun _ _ h => h) (fun _ _ h => h.elim) (fun _ _ h => h))) fun _ => ?_
  refine Spec.bind (Leads.inContext (leads_refresh h.succeeds _)) fun _ => ?_
  exact Spec.pure fun s hs => hs

theorem leads_ensureFtsVersion (h : Deltas name env) :
    Leads (At (fun b => Grown name n b ∧ b.unindexed name ≠ []) d k) env.ensureFts
      (fun _ => At (UpToDate name n) d k) := by
  refine Spec.bind (Leads.inContext (leads_ensureFts h)) fun _ => ?_
  exact Spec.look fun s hs => hs

theorem leads_deleteOn (h : Deltas name env) (context : String) (w : PushWrites) :
    Leads (At (Grown name n) d k) (env.deleteOn context w) (fun _ => At (Grown name n) d k) := by
  unfold deleteOn
  cases w.deletes with
  | none => exact Spec.pure fun _ hs => hs
  | some left => exact leads_onHead h.succeeds fun b hb => hb

/-- The fragment of an append is one that no segment covers yet. -/
theorem leads_appendOn (h : Deltas name env) (context : String) {w : PushWrites}
    (hrows : 0 < w.rows) :
    Leads (At (Grown name n) d k) (env.appendOn context w)
      (fun _ => At (fun b => Grown name n b ∧ b.unindexed name ≠ []) d k) := by
  unfold appendOn
  rw [if_pos hrows]
  exact leads_onHead h.succeeds fun b hb => ⟨hb, unindexed_appendRows b name w.rows⟩

theorem leads_tagCommit {R : IndexedBranch → Prop} (h : ∀ call, env.fails call = false)
    (worked : Bool) (snapshot : IndexedBranch) :
    Leads (At R d k) (env.tagCommit worked snapshot) (fun _ => At R d (k + 1)) := by
  apply Leads.inContext
  apply leads_writes h
  rintro s ⟨hhead, hcount, rfl⟩
  exact ⟨hhead, hcount, rfl⟩

/-- The two modes write and index alike. -/
theorem leads_push {d' n' : ℕ} (h : Deltas name env) (mode : PushMode) {w : PushWrites}
    (hrows : 0 < w.rows)
    (hindex : shouldIndexCommit k = true →
      Leads (At (fun b => Grown name n b ∧ b.unindexed name ≠ []) d k) env.createIndices
        (fun _ => At (UpToDate name n') d' k))
    (hskip : shouldIndexCommit k = false →
      Leads (At (fun b => Grown name n b ∧ b.unindexed name ≠ []) d k) env.ensureFts
        (fun _ => At (UpToDate name n') d' k)) :
    Leads (At (Grown name n) d k) (env.push mode w) (fun _ => At (UpToDate name n') d' (k + 1)) := by
  have hwork : w.hasWork = true := by simp [PushWrites.hasWork, hrows]
  have hposition : ∀ R, Leads (At R d k) env.countBranchCommits (fun position s => At R d k s ∧
      position = k) := by
    intro R
    apply Spec.look
    rintro s ⟨hhead, hcount, rfl⟩
    rw [h.succeeds .countCommits]
    exact ⟨⟨hhead, hcount, rfl⟩, rfl⟩
  cases mode with
  | buffered =>
    show Leads _ (env.pushBuffered w) _
    unfold pushBuffered
    rw [if_pos hwork]
    refine Spec.bind (Leads.inContext (Spec.bind (leads_deleteOn h _ w) fun _ =>
      Spec.bind (leads_appendOn h _ hrows) fun _ => leads_refresh h.succeeds _)) fun _ => ?_
    refine Spec.bind (R := fun _ => At (UpToDate name n') d' k) ?_ fun indexed =>
      leads_tagCommit h.succeeds true indexed
    refine Spec.bind (R := fun _ => At (fun b => Grown name n b ∧ b.unindexed name ≠ []) d k)
      (Spec.look fun s hs => hs) fun written => ?_
    refine Spec.bind (hposition _) fun position => Spec.of_and ?_
    rintro rfl
    refine Spec.ite (fun hbound => ?_) fun hbound => ?_
    · have hopen : Leads (At (fun b => Grown name n b ∧ b.unindexed name ≠ []) d position)
          (attempt (env.refresh .openBoundary) : Indexing String _) (fun opened s =>
            At (fun b => Grown name n b ∧ b.unindexed name ≠ []) d position s ∧
            opened.isOk = true) := by
        apply Spec.attempt
        apply Spec.look
        intro s hs
        rw [h.succeeds .openBoundary]
        exact ⟨hs, rfl⟩
      refine Spec.bind hopen fun opened => Spec.of_and fun hopened => ?_
      rw [if_pos hopened]
      exact hindex hbound
    · refine Spec.bind (Leads.inContext (leads_refresh h.succeeds _)) fun _ => ?_
      exact hskip (Bool.not_eq_true _ ▸ hbound)
  | streaming expected =>
    refine Spec.bind (hposition _) fun position => Spec.of_and ?_
    rintro rfl
    refine Spec.bind (Leads.inContext (leads_deleteOn h _ w)) fun _ => ?_
    refine Spec.bind (Leads.inContext (leads_appendOn h _ hrows)) fun _ => ?_
    refine Spec.bind (Leads.inContext (leads_refresh h.succeeds _)) fun _ => ?_
    rw [if_pos hwork]
    refine Spec.bind (R := fun _ => At (UpToDate name n') d' position) ?_ fun indexed =>
      leads_tagCommit h.succeeds true indexed
    refine Spec.ite (fun hbound => hindex hbound) fun hbound => ?_
    refine Spec.bind (hskip (Bool.not_eq_true _ ▸ hbound)) fun indexed => ?_
    refine Spec.bind (Leads.inContext (leads_refresh h.succeeds _)) fun _ => ?_
    exact Spec.pure fun _ hs => hs

end IndexEnv

open BranchIndexes

/-- A push of the run: it appends rows and no call of it fails. -/
structure Appends (name : IndexName) (p : IndexEnv × PushMode × PushWrites) : Prop where
  deltas : Deltas name p.1
  rows : 0 < p.2.2.rows

def pushOf (p : IndexEnv × PushMode × PushWrites) : IndexAction := .push p.1 p.2.1 p.2.2

section Steps

variable {p q r : IndexEnv × PushMode × PushWrites} {d k : ℕ} {s : BranchIndexes}

theorem grown_skip (hp : Appends name p) (hskip : shouldIndexCommit k = false)
    (hs : At (Grown name n) d k s) :
    At (Grown name (n + 1)) d (k + 1) (p.1.push p.2.1 p.2.2 s).store := by
  have hleads : Leads (At (Grown name n) d k) (p.1.push p.2.1 p.2.2)
      (fun _ => At (UpToDate name n) d (k + 1)) := by
    apply IndexEnv.leads_push hp.deltas p.2.1 hp.rows
    · intro h
      rw [hskip] at h
      cases h
    · intro _
      exact IndexEnv.leads_ensureFtsVersion hp.deltas
  obtain ⟨_, _, hfinal⟩ := hleads.completes hs
  exact ⟨hfinal.1.grown, hfinal.2⟩

theorem grown_index (hp : Appends name p) (hindex : shouldIndexCommit k = true)
    (hs : At (Grown name (n + 2 * mergesNeeded (d + 1))) d k s) :
    At (Grown name (n + 1)) (d + 1) (k + 1) (p.1.push p.2.1 p.2.2 s).store := by
  have hleads : Leads (At (Grown name (n + 2 * mergesNeeded (d + 1))) d k)
      (p.1.push p.2.1 p.2.2) (fun _ => At (UpToDate name n) (d + 1) (k + 1)) := by
    apply IndexEnv.leads_push hp.deltas p.2.1 hp.rows
    · intro _
      exact IndexEnv.leads_createIndices hp.deltas
    · intro h
      rw [hindex] at h
      cases h
  obtain ⟨_, _, hfinal⟩ := hleads.completes hs
  exact ⟨hfinal.1.grown, hfinal.2⟩

/-- Of the three segments of three pushes only as many go as the new count has carries, twice. -/
theorem grown_three (hp : Appends name p) (hq : Appends name q) (hr : Appends name r)
    (hk : k % 3 = 0) (hd : (Nat.digits 3 d).sum ≤ n) (hs : At (Grown name n) d k s) :
    ∃ n', n' + (Nat.digits 3 d).sum = n + 2 + (Nat.digits 3 (d + 1)).sum ∧
      ∃ t, exec step s [pushOf p, pushOf q, pushOf r] = some t ∧
        At (Grown name n') (d + 1) (k + 3) t := by
  have hsum := sum_digits_succ d
  have hfirst : shouldIndexCommit k = false := decide_eq_false (by omega)
  have hsecond : shouldIndexCommit (k + 1) = false := decide_eq_false (by omega)
  have hthird : shouldIndexCommit (k + 2) = true := decide_eq_true (by omega)
  have hmerges : ∃ m, n + 2 = m + 2 * mergesNeeded (d + 1) := by
    have hle : 2 * mergesNeeded (d + 1) ≤ n + 2 := by omega
    exact ⟨n + 2 - 2 * mergesNeeded (d + 1), by omega⟩
  obtain ⟨m, hm⟩ := hmerges
  have htwo := grown_skip hq hsecond (grown_skip hp hfirst hs)
  rw [show n + 1 + 1 = m + 2 * mergesNeeded (d + 1) by omega] at htwo
  refine ⟨m + 1, by omega, _, rfl, grown_index hr hthird htwo⟩

end Steps

theorem grown_pushes {d k l : ℕ} (ps : List (IndexEnv × PushMode × PushWrites))
    (hps : ∀ p ∈ ps, Appends name p) (hlength : ps.length = 3 * l) (hk : k % 3 = 0)
    (hd : (Nat.digits 3 d).sum ≤ n) {s : BranchIndexes} (hs : At (Grown name n) d k s) :
    ∃ n', n' + (Nat.digits 3 d).sum = n + 2 * l + (Nat.digits 3 (d + l)).sum ∧
      ∃ t, exec BranchIndexes.step s (ps.map pushOf) = some t ∧
        At (Grown name n') (d + l) (k + 3 * l) t := by
  induction l generalizing ps n d k s with
  | zero =>
    obtain rfl := List.eq_nil_of_length_eq_zero hlength
    exact ⟨n, rfl, s, rfl, hs⟩
  | succ l ih =>
    match ps, hlength with
    | p :: q :: r :: ps, hlength =>
      have hp := hps p (by simp)
      have hq := hps q (by simp)
      have hr := hps r (by simp)
      obtain ⟨m, hm, u, hu, hgrown⟩ := grown_three hp hq hr hk hd hs
      have hrest : ps.length = 3 * l := by
        simp only [List.length_cons] at hlength
        omega
      obtain ⟨n', hn', t, ht, hfinal⟩ := ih ps (fun p' hp' => hps p' (by simp [hp'])) hrest
        (by omega) (by omega) hgrown
      rw [show d + 1 + l = d + (l + 1) by omega] at hn' hfinal
      rw [show k + 3 + 3 * l = k + 3 * (l + 1) by omega] at hfinal
      have hexec : exec BranchIndexes.step s ((p :: q :: r :: ps).map pushOf) = some t := by
        have happend : exec BranchIndexes.step s ([pushOf p, pushOf q, pushOf r] ++ ps.map pushOf) =
            some t := by rw [exec_append, hu, Option.bind_some, ht]
        exact happend
      exact ⟨n', by omega, t, hexec, hfinal⟩

/-- The pushes between the boundaries leave a segment each in every index, and only the boundaries
are counted for the merges: the segments grow with the pushes and not with their logarithm. -/
theorem segments_grow {l : ℕ} {s t : BranchIndexes} (ps : List (IndexEnv × PushMode × PushWrites))
    (hreach : Reaches BranchIndexes.step (fun _ _ => True) .fresh s)
    (hexists : name = .contentFts ∨ s.head.segments name ≠ []) (hposition : s.tags.length % 3 = 0)
    (hcount : (Nat.digits 3 s.deltaCount).sum ≤ (s.head.segments name).length)
    (hps : ∀ p ∈ ps, Appends name p) (hlength : ps.length = 3 * l)
    (hexec : exec BranchIndexes.step s (ps.map pushOf) = some t) :
    t.deltaCount = s.deltaCount + l ∧
    (t.head.segments name).length + (Nat.digits 3 s.deltaCount).sum =
      (s.head.segments name).length + 2 * l + (Nat.digits 3 (s.deltaCount + l)).sum := by
  have hinv : Inv (fun _ => True) (fun _ => True) s := by
    apply hreach.invariant (inv_fresh _ _)
    intro _ _ _ hs _ hstep
    exact inv_step (fun _ _ => trivial) (.inr fun _ => trivial) hs hstep
  have hs : At (Grown name (s.head.segments name).length) s.deltaCount s.tags.length s :=
    ⟨⟨hinv.1, hexists, rfl⟩, rfl, rfl⟩
  obtain ⟨n', hn', u, hu, hfinal⟩ := grown_pushes ps hps hlength hposition hcount hs
  obtain rfl := Option.some.inj (hexec.symm.trans hu)
  rw [hfinal.1.2.2]
  exact ⟨hfinal.2.1, hn'⟩

/-- After nine pushes into a new domain, of which three were counted and one merge was made. -/
theorem segments_grow_nine : ∃ t, exec BranchIndexes.step .fresh ((List.replicate 9
    (failing fun _ => false, PushMode.buffered, PushWrites.mk none 1)).map pushOf) = some t ∧
    t.deltaCount = 3 ∧ (t.head.segments .contentFts).length = 7 := by
  have happends : ∀ p ∈ List.replicate 9 (failing fun _ => false, PushMode.buffered,
      PushWrites.mk none 1), Appends .contentFts p := by
    intro p hp
    obtain rfl := List.eq_of_mem_replicate hp
    exact ⟨⟨fun _ => rfl, rfl, rfl⟩, Nat.one_pos⟩
  refine ⟨_, rfl, ?_⟩
  have hgrow := segments_grow (l := 3) _ .refl (.inl rfl) rfl (Nat.le_refl 0) happends rfl rfl
  norm_num [BranchIndexes.fresh, IndexedBranch.empty] at hgrow
  exact hgrow

end Growth

end Vectorlink
