import Vectorlink.IngestLooks
import Vectorlink.Service.OfflineLoad
import Vectorlink.Service.PipelinesAgree
import Vectorlink.Store.DocWrites

/-! What the offline loader leaves behind when no call fails: the writes of its operations on
the branch, and a tag at the version of the default branch's text index. -/
namespace Vectorlink

open Stepwise Stepwise.Program Versioned IngestEnv

variable {V : Type}

/-- The outcome for a text depends on the role and the text only, and a request succeeds
exactly if each of its texts does. -/
structure EachText (provider : Provider V) (vector : TextVectors V) : Prop
    extends OfText provider vector where
  whole : ∀ call texts, (∀ text ∈ texts, ∃ v, vector call.role text = .ok v) →
    ∃ vs, ioEmbed provider call texts = .ok vs

namespace IngestEnv

variable (env : IngestEnv V) (vector : TextVectors V)

/-- What an operation writes: a document that is deleted or embedded. -/
def write? (op : Operation) : Option (DocWrite V) :=
  match op with
  | .deleted id => some ⟨id, []⟩
  | .inserted id _ | .changed id _ =>
    match env.entry? vector op with
    | some (.ok rows) => some ⟨id, rows⟩
    | _ => none
  | _ => none

def writes (ops : List Operation) : List (DocWrite V) := ops.filterMap (env.write? vector)

/-- The documents that are reported as skipped, an operation that is an error under the name
that a push reports it by. -/
def skippedIds (ops : List Operation) : List String :=
  ((ops.filterMap (env.entry? vector)).filterMap Entry.report?).map (·.id)

end IngestEnv

def LoadSkip.docId : LoadSkip → String
  | .document _ id _ => id
  | .delete _ id _ => id
  | .operation _ _ => "unknown"

section Embed

variable {provider : Provider V} {vector : TextVectors V} {texts : List String}

/-- An answer is the results for its texts. -/
theorem OfText.map_textResult (h : OfText provider vector) {call : EmbedCall} {vs : List V}
    (hvs : ioEmbed provider call texts = .ok vs) :
    texts.map (textResult vector call.role) = vs.map .ok := by
  have hanswer := h.answer call texts vs hvs
  clear hvs
  induction hanswer with
  | nil => rfl
  | cons hv _ ih => rw [List.map_cons, List.map_cons, ih, textResult, hv]

theorem OfText.ioEmbed_error (h : OfText provider vector) (call : EmbedCall) {text e : String}
    (htext : text ∈ texts) (he : vector call.role text = .error e) :
    ∃ e', ioEmbed provider call texts = .error e' := by
  cases hcall : ioEmbed provider call texts with
  | error e' => exact ⟨e', rfl⟩
  | ok vs =>
    have hanswer := h.answer call texts vs hcall
    obtain ⟨i, hi, rfl⟩ := List.getElem_of_mem htext
    have hlen := hanswer.length_eq
    have hv := List.Forall₂.get hanswer hi (by omega)
    simp only [List.get_eq_getElem] at hv
    rw [he] at hv
    cases hv

theorem docRows_map_ok (env : IngestEnv V) (doc : DocToEmbed) (vs qs : List V) :
    env.docRows doc (vs.map .ok) (qs.map .ok) =
      .ok (chunkRows doc.id doc.chunks (vs.map env.l2Normalize) (qs.map env.l2Normalize)) := by
  have hnone : (vs.map EmbedResult.ok ++ qs.map EmbedResult.ok).findSome?
      EmbedResult.failure? = none := by
    rw [List.findSome?_eq_none_iff]
    intro result hmem
    rcases List.mem_append.mp hmem with hmem | hmem
    · obtain ⟨v, -, rfl⟩ := List.mem_map.mp hmem
      rfl
    · obtain ⟨v, -, rfl⟩ := List.mem_map.mp hmem
      rfl
  have hsome : ∀ xs : List V, (xs.map EmbedResult.ok).filterMap EmbedResult.embedding? = xs := by
    intro xs
    rw [List.filterMap_map]
    exact List.filterMap_some
  unfold IngestEnv.docRows
  rw [hnone]
  simp only [hsome]

end Embed

section Document

variable {env : PushEnv V} {vector : TextVectors V} {id : DocId} {string : String}
  {chunks : List Chunk}

theorem ioIndexOne_of_unchunked {report : SkippedDoc} (h : env.unchunked? id string = some report)
    (b : BranchName) (line : ℕ) :
    report.id = id ∧ ∃ e, env.ioIndexOne b line id string = fail e := by
  unfold unchunked? at h
  unfold PushEnv.ioIndexOne
  cases htext : env.chunkText string with
  | error e =>
    rw [htext] at h
    obtain rfl := Option.some.inj h
    exact ⟨rfl, _, rfl⟩
  | ok chunks =>
    rw [htext] at h
    dsimp only at h ⊢
    split at h
    · rename_i hempty
      obtain rfl := Option.some.inj h
      rw [if_pos hempty]
      exact ⟨rfl, _, rfl⟩
    · cases h

section Chunked

variable (hprovider : EachText env.provider vector) (b : BranchName) (line : ℕ)

/-- A document whose chunks all come back embedded is written with their rows. -/
theorem ioIndexOne_of_ok (htext : env.chunkText string = .ok chunks) (hne : chunks ≠ [])
    {vs qs : List V}
    (hdoc : ioEmbed env.provider ⟨.document, line, 0, none⟩ (chunks.map (·.text)) = .ok vs)
    (hquery : ioEmbed env.provider ⟨.clustering, line, 0, none⟩ (chunks.map (·.text)) = .ok qs) :
    env.ioIndexOne b line id string = withContext "upsert failed" (env.ioUpsertChunks b id
      (chunkRows id chunks (vs.map env.l2Normalize) (qs.map env.l2Normalize))) := by
  have hvs := length_of_ioEmbed hdoc
  have hqs := length_of_ioEmbed hquery
  rw [List.length_map] at hvs hqs
  unfold PushEnv.ioIndexOne
  simp [htext, hne, hdoc, hquery, hvs, hqs]

include hprovider

/-- One chunk without a vector in either role is enough to skip the document. -/
theorem ioIndexOne_of_error (htext : env.chunkText string = .ok chunks) (hne : chunks ≠ [])
    {chunk : Chunk} (hchunk : chunk ∈ chunks) {role : EmbeddingRole} (hrole : env.Embeds role)
    {e : String} (he : vector role chunk.text = .error e) (id : DocId) :
    ∃ e', env.ioIndexOne b line id string = fail e' := by
  have hmem : chunk.text ∈ chunks.map (·.text) := List.mem_map_of_mem hchunk
  unfold PushEnv.ioIndexOne
  rw [htext]
  dsimp only
  rw [if_neg (by simpa using hne)]
  cases hdoc : ioEmbed env.provider ⟨.document, line, 0, none⟩ (chunks.map (·.text)) with
  | error e' => exact ⟨_, rfl⟩
  | ok vs =>
    cases role with
    | document =>
      obtain ⟨e', he'⟩ := hprovider.ioEmbed_error ⟨.document, line, 0, none⟩ hmem he
      rw [hdoc] at he'
      cases he'
    | clustering =>
      obtain ⟨e', he'⟩ := hprovider.ioEmbed_error ⟨.clustering, line, 0, none⟩ hmem he
      dsimp only
      rw [he']
      exact ⟨_, rfl⟩
    | query => exact hrole.elim
    | classification => exact hrole.elim

/-- What a push makes of a document whose chunks all come back embedded. -/
theorem textOutcome_of_ok (hclustering : env.storeClustering = true) {doc : DocToEmbed}
    {vs qs : List V}
    (hdoc : ioEmbed env.provider ⟨.document, line, 0, none⟩ (doc.chunks.map (·.text)) = .ok vs)
    (hquery : ioEmbed env.provider ⟨.clustering, line, 0, none⟩ (doc.chunks.map (·.text)) = .ok qs) :
    env.textOutcome vector doc = (doc, .ok (chunkRows doc.id doc.chunks
      (vs.map env.l2Normalize) (qs.map env.l2Normalize))) := by
  have hvs := hprovider.map_textResult hdoc
  have hqs := hprovider.map_textResult hquery
  rw [List.map_map] at hvs hqs
  have hcl : (doc.chunks.map fun chunk => env.clusteringResult vector chunk.text) =
      qs.map EmbedResult.ok := by
    rw [← hqs]
    refine List.map_congr_left fun chunk _ => ?_
    rw [clusteringResult, if_pos hclustering]
    rfl
  unfold textOutcome
  rw [← docRows_map_ok env.toIngestEnv doc vs qs, ← hcl, ← hvs]
  rfl

end Chunked

theorem chunkRows_ne_nil {vs qs : List V} (hne : chunks ≠ []) (hvs : vs.length = chunks.length)
    (hqs : qs.length = chunks.length) : chunkRows id chunks vs qs ≠ [] := by
  rw [← List.length_pos_iff, chunkRows]
  have hpos := List.length_pos_iff.mpr hne
  simp only [List.length_map, List.length_zip]
  omega

/-- The loader indexes a document exactly if a push does, with the same rows. -/
theorem ioIndexOne_cases (hprovider : EachText env.provider vector)
    (hclustering : env.storeClustering = true) (b : BranchName) (line : ℕ) (id : DocId)
    (string : String) (isChanged : Bool) :
    (∃ report e, env.entry? vector (docOperation id isChanged string) = some (.error report) ∧
      report.id = id ∧ env.ioIndexOne b line id string = fail e) ∨
    ∃ rows, env.entry? vector (docOperation id isChanged string) = some (.ok rows) ∧ rows ≠ [] ∧
      (∀ r ∈ rows, r.docId = id) ∧ env.ioIndexOne b line id string =
        withContext "upsert failed" (env.ioUpsertChunks b id rows) := by
  unfold IngestEnv.entry?
  rw [readSkip?_docOperation, batchedDoc?_docOperation]
  rcases unchunked?_cases env.toIngestEnv id string isChanged with
    ⟨report, hreport, -⟩ | ⟨chunks, htext, hne, hreport, hbatch⟩
  · obtain ⟨hid, e, he⟩ := ioIndexOne_of_unchunked hreport b line
    rw [hreport]
    exact .inl ⟨report, e, rfl, hid, he⟩
  · rw [hreport, hbatch]
    dsimp only [Option.map_some]
    rcases textOutcome_cases env.toIngestEnv vector ⟨id, chunks, isChanged⟩ with
      ⟨rows, -, hrows⟩ | ⟨chunk, hchunk, role, e, hrole, he, hout⟩
    · have hvectors : ∀ text ∈ chunks.map (·.text),
          (∃ v, vector .document text = .ok v) ∧ ∃ q, vector .clustering text = .ok q := by
        intro text htext
        obtain ⟨chunk, hchunk, rfl⟩ := List.mem_map.mp htext
        obtain ⟨row, -, v, q, hv, hq, -⟩ := exists_rowOf hrows hchunk
        rw [if_pos hclustering] at hq
        exact ⟨⟨v, hv⟩, q, hq⟩
      obtain ⟨vs, hdoc⟩ := hprovider.whole ⟨.document, line, 0, none⟩ _
        fun text htext => (hvectors text htext).1
      obtain ⟨qs, hquery⟩ := hprovider.whole ⟨.clustering, line, 0, none⟩ _
        fun text htext => (hvectors text htext).2
      have hvs := length_of_ioEmbed hdoc
      have hqs := length_of_ioEmbed hquery
      rw [List.length_map] at hvs hqs
      rw [textOutcome_of_ok hprovider line hclustering hdoc hquery]
      refine .inr ⟨_, rfl, chunkRows_ne_nil hne ?_ ?_, fun r hr => docId_of_mem_chunkRows hr,
        ioIndexOne_of_ok b line htext hne hdoc hquery⟩
      · rw [List.length_map, hvs]
      · rw [List.length_map, hqs]
    · obtain ⟨e', he'⟩ := ioIndexOne_of_error hprovider b line htext hne hchunk hrole he id
      rw [hout]
      exact .inl ⟨_, e', rfl, rfl, he'⟩

end Document

theorem AtBranch.openReadonly {d s : Domain V} {b : BranchName} {l : Lineage (ChunkRow V)}
    (h : AtBranch d b l s) : AtBranch d b l s.openReadonly :=
  ⟨by simpa using h.dataset, by simpa using h.tags, by simpa using h.clock,
    by simpa using h.lineage, by simpa using h.others, by simpa using h.indexes⟩

/-- The cached handle stands at the newest version of the default branch. -/
def Domain.Current (s : Domain V) : Prop := s.cached = some s.opened.main.head

theorem Domain.refresh_current {s : Domain V} (h : s.dataset.isSome) : s.refresh.Current := by
  unfold Domain.Current
  rw [Domain.refresh_cached h, Domain.refresh_opened]

namespace PushEnv

variable {env : PushEnv V} {d : Domain V} {b : BranchName} {l : Lineage (ChunkRow V)}
  {P : Domain V → Prop}

section Calls

variable (hfails : ∀ op, env.fails op = false)

include hfails

/-- The end of both writes: the cached handle is refreshed, the version is that of the
branch. -/
theorem refreshed_version_completes :
    Spec (AtBranch d b l)
      (env.ioRefreshCachedDataset .refreshWritten >>= fun _ => StoreEnv.handleVersion b)
      (fun v s => v = l.head ∧ AtBranch d b l s ∧ s.Current) (fun _ _ => False)
      (fun _ _ => True) := by
  refine Spec.bind (R := fun _ s => AtBranch d b l s ∧ s.Current)
    (env.ioRefreshCachedDataset_spec (fun s hs => ⟨trivial, hs.refresh, ?_⟩)
      fun hop _ _ => absurd_fails hfails hop) fun _ => Spec.look fun s hs => ?_
  · exact Domain.refresh_current hs.dataset
  · have hbind : (s.dataset.bind fun ds => ds.lineage? (wantBranch b)) = some l := by
      rw [Domain.dataset_eq_opened hs.1.dataset]
      exact hs.1.lineage
    rw [hbind]
    exact ⟨rfl, hs⟩

theorem ioUpsertChunks_completes {w : DocWrite V} (hne : w.rows ≠ [])
    (hP : ∀ s, P s → AtBranch d b l s.openDataset) :
    Spec P (env.ioUpsertChunks b w.id w.rows)
      (fun v s => v = (writeDoc l w).head ∧ AtBranch d b (writeDoc l w) s ∧ s.Current)
      (fun _ _ => False) (fun _ _ => True) := by
  refine Spec.ite (fun hempty => absurd (List.isEmpty_iff.mp hempty) hne) fun hsome => ?_
  refine Spec.bind (R := fun _ => AtBranch d b l)
    (env.ioOpenDataset_spec (fun s hs => ⟨trivial, hP s hs⟩) fun hop _ _ => absurd_fails hfails hop)
    fun _ => Spec.bind (checkoutBranch_completes hfails (P := AtBranch d b l) fun _ hs => hs)
    fun _ => Spec.bind (delete_completes hfails (fun _ hs => hs) [w.id]) fun _ =>
    Spec.bind (append_completes hfails (fun _ hs => hs) w.rows) fun _ => ?_
  have hwrite : writeDoc l w = (l.advance (deleteDocs [w.id] l.headRows)).advance
      ((l.advance (deleteDocs [w.id] l.headRows)).headRows ++ w.rows) := by
    unfold writeDoc
    rw [if_neg hsome]
  rw [hwrite]
  exact refreshed_version_completes hfails

theorem ioDeleteDoc_completes (id : DocId) (hP : ∀ s, P s → AtBranch d b l s) :
    Spec P (env.ioDeleteDoc b id)
      (fun v s => v = (writeDoc l ⟨id, []⟩).head ∧ AtBranch d b (writeDoc l ⟨id, []⟩) s ∧ s.Current)
      (fun _ _ => False) (fun _ _ => True) := by
  have hopen : Spec P (env.ioOpenDatasetReadonly .ensureDataset)
      (fun existing s => existing = true ∧ AtBranch d b l s) (fun _ _ => False)
      (fun _ _ => True) := by
    refine Spec.bind (R := fun _ s => s.cached.isSome ∧ AtBranch d b l s)
      (Spec.step fun s hs => ?_) fun _ => Spec.look fun s hs => hs
    have hat := hP s hs
    obtain ⟨ds, hds⟩ := Option.isSome_iff_exists.mp hat.dataset
    have hcached : s.openReadonly.cached.isSome := by
      unfold Domain.openReadonly
      cases hc : s.cached with
      | none => simp [hds]
      | some v => simp [hc]
    rw [hfails, Bool.and_false, if_neg Bool.false_ne_true]
    exact ⟨trivial, hcached, hat.openReadonly⟩
  refine Spec.bind hopen fun existing => Spec.ite (fun _ => ?_)
    fun hno => Spec.pure fun s hs => absurd hs.1 hno
  refine Spec.bind ((checkoutBranch_completes hfails (P := AtBranch d b l) fun _ hs => hs).pre
    fun _ hs => hs.2) fun _ => Spec.bind (delete_completes hfails (fun _ hs => hs) [id]) fun _ => ?_
  exact refreshed_version_completes hfails

end Calls

end PushEnv

/-- The loader after the operations `past`: untouched while nothing is written, then with the
writes on the branch and the version of the last one at hand. -/
structure Loading (env : IngestEnv V) (vector : TextVectors V) (d : Domain V) (b : BranchName)
    (l : Lineage (ChunkRow V)) (past : List Operation) (st : LoadState) (s : Domain V) : Prop where
  skipped : st.skipped.map LoadSkip.docId = env.skippedIds vector past
  idle : env.writes vector past = [] → s = d ∧ st.lastVersion = 0
  busy : env.writes vector past ≠ [] → AtBranch d b (writeDocs l (env.writes vector past)) s ∧
    s.Current ∧ st.lastVersion = (writeDocs l (env.writes vector past)).head

section Loop

variable {env : PushEnv V} {vector : TextVectors V} {d s : Domain V} {b : BranchName}
  {l : Lineage (ChunkRow V)} {past : List Operation} {st : LoadState} {op : Operation}

namespace Loading

theorem start (env : IngestEnv V) (vector : TextVectors V) (d : Domain V) (b : BranchName)
    (l : Lineage (ChunkRow V)) : Loading env vector d b l [] .start d :=
  ⟨rfl, fun _ => ⟨rfl, rfl⟩, fun h => absurd rfl h⟩

/-- Where the branch stands once a handle is open. -/
theorem openDataset (h : Loading env.toIngestEnv vector d b l past st s)
    (hat : AtBranch d b l d.openDataset) :
    AtBranch d b (writeDocs l (env.writes vector past)) s.openDataset := by
  by_cases hnil : env.writes vector past = []
  · obtain ⟨rfl, -⟩ := h.idle hnil
    rw [hnil]
    exact hat
  · exact (h.busy hnil).1.openDataset

theorem atBranch (h : Loading env.toIngestEnv vector d b l past st s)
    (hat : AtBranch d b l d) : AtBranch d b (writeDocs l (env.writes vector past)) s := by
  by_cases hnil : env.writes vector past = []
  · obtain ⟨rfl, -⟩ := h.idle hnil
    rw [hnil]
    exact hat
  · exact (h.busy hnil).1

theorem written {w : DocWrite V} {st' : LoadState} (h : Loading env.toIngestEnv vector d b l past st s)
    (hwrite : env.write? vector op = some w) (hreport : (env.entry? vector op).bind Entry.report? = none)
    {s' : Domain V} (hat : AtBranch d b (writeDoc (writeDocs l (env.writes vector past)) w) s')
    (hcurrent : s'.Current) (hskipped : st'.skipped = st.skipped)
    (hversion : st'.lastVersion = (writeDoc (writeDocs l (env.writes vector past)) w).head) :
    Loading env.toIngestEnv vector d b l (past ++ [op]) st' s' := by
  have hwrites : env.writes vector (past ++ [op]) = env.writes vector past ++ [w] := by
    simp [IngestEnv.writes, hwrite]
  have hskips : env.skippedIds vector (past ++ [op]) = env.skippedIds vector past := by
    unfold skippedIds
    rw [List.filterMap_append, List.filterMap_append]
    cases hentry : env.entry? vector op with
    | none => simp [hentry]
    | some e =>
      rw [hentry] at hreport
      have hnone : Entry.report? e = none := hreport
      simp [hentry, hnone]
  have hlineage : writeDocs l (env.writes vector (past ++ [op])) =
      writeDoc (writeDocs l (env.writes vector past)) w := by
    rw [hwrites, writeDocs_append]
    rfl
  refine ⟨?_, fun hnil => ?_, fun _ => ?_⟩
  · rw [hskipped, hskips, h.skipped]
  · rw [hwrites] at hnil
    simp at hnil
  · rw [hlineage]
    exact ⟨hat, hcurrent, hversion⟩

theorem skip {report : SkippedDoc} {note : LoadSkip}
    (h : Loading env.toIngestEnv vector d b l past st s) (hwrite : env.write? vector op = none)
    (hentry : env.entry? vector op = some (.error report)) (hid : note.docId = report.id) :
    Loading env.toIngestEnv vector d b l (past ++ [op]) (st.skip note) s := by
  have hwrites : env.writes vector (past ++ [op]) = env.writes vector past := by
    simp [IngestEnv.writes, hwrite]
  have hskips : env.skippedIds vector (past ++ [op]) = env.skippedIds vector past ++ [note.docId] := by
    unfold skippedIds
    simp [hentry, hid, Entry.report?]
  refine ⟨?_, ?_, ?_⟩
  · rw [hskips, ← h.skipped]
    simp [LoadState.skip]
  · rw [hwrites]
    exact h.idle
  · rw [hwrites]
    exact h.busy

end Loading

theorem write?_docOperation (env : IngestEnv V) (vector : TextVectors V) (id : DocId)
    (isChanged : Bool) (string : String) : env.write? vector (docOperation id isChanged string) =
      match env.entry? vector (docOperation id isChanged string) with
      | some (.ok rows) => some ⟨id, rows⟩
      | _ => none := by
  cases isChanged <;> rfl

@[simp] theorem beforeAbort_abort (ops : List Operation) : beforeAbort (.abort :: ops) = [] := rfl

theorem beforeAbort_cons (hop : op ≠ .abort) (ops : List Operation) :
    beforeAbort (op :: ops) = op :: beforeAbort ops := by
  simp [beforeAbort, hop]

section Completes

variable (hfails : ∀ op, env.fails op = false)

include hfails

/-- One inserted or changed document. -/
theorem indexOne_step (hprovider : EachText env.provider vector)
    (hclustering : env.storeClustering = true) (hat : AtBranch d b l d.openDataset)
    (line : ℕ) (id : DocId) (string : String) (isChanged : Bool) :
    Spec (Loading env.toIngestEnv vector d b l past st)
      (attempt (env.ioIndexOne b line id string) : Push V (Except String ℕ))
      (fun result => Loading env.toIngestEnv vector d b l
        (past ++ [docOperation id isChanged string]) (st.addIndexed line id result))
      (fun _ _ => False) (fun _ _ => True) := by
  have hwrite := write?_docOperation env.toIngestEnv vector id isChanged string
  rcases ioIndexOne_cases hprovider hclustering b line id string isChanged with
    ⟨report, e, hentry, hid, hrun⟩ | ⟨rows, hentry, hne, -, hrun⟩
  · rw [hentry] at hwrite
    rw [hrun]
    exact Spec.attempt (Spec.fail fun s hs => hs.skip hwrite hentry hid.symm)
  · rw [hentry] at hwrite
    rw [hrun]
    refine Spec.of_forall fun s hs => Spec.attempt ?_
    refine (withContext_spec (PushEnv.ioUpsertChunks_completes hfails (w := ⟨id, rows⟩) hne
      fun s' hs' => hs' ▸ hs.openDataset hat)).weaken (fun _ hs' => hs') (fun v s' hs' => ?_)
      (fun _ _ hs' => hs'.elim) (fun _ _ h => h)
    obtain ⟨rfl, hat', hcurrent⟩ := hs'
    exact hs.written hwrite (by rw [hentry]; rfl) hat' hcurrent rfl rfl

/-- One deleted document. -/
theorem deleteDoc_step (hat : AtBranch d b l d) (line : ℕ) (id : DocId) :
    Spec (Loading env.toIngestEnv vector d b l past st)
      (attempt (env.ioDeleteDoc b id) : Push V (Except StoreError ℕ))
      (fun result => Loading env.toIngestEnv vector d b l (past ++ [.deleted id])
        (st.addDeleted line id result)) (fun _ _ => False) (fun _ _ => True) := by
  refine Spec.of_forall fun s hs => Spec.attempt ?_
  refine (PushEnv.ioDeleteDoc_completes hfails id fun s' hs' => hs' ▸ hs.atBranch hat).weaken
    (fun _ hs' => hs') (fun v s' hs' => ?_) (fun _ _ hs' => hs'.elim) (fun _ _ h => h)
  obtain ⟨rfl, hat', hcurrent⟩ := hs'
  exact hs.written rfl rfl hat' hcurrent rfl rfl

/-- The loop writes what the operations before the first abort ask for. -/
theorem loadOps_completes (hprovider : EachText env.provider vector)
    (hclustering : env.storeClustering = true) (hat : AtBranch d b l d.openDataset)
    (ops : List Operation) (hdelete : ∀ id, .deleted id ∈ ops → AtBranch d b l d) (line : ℕ) :
    Spec (Loading env.toIngestEnv vector d b l past st) (env.loadOps b line st ops)
      (fun st' => Loading env.toIngestEnv vector d b l (past ++ beforeAbort ops) st')
      (fun _ _ => False) (fun _ _ => True) := by
  induction ops generalizing past st line with
  | nil =>
    refine Spec.pure fun s hs => ?_
    rwa [beforeAbort, List.takeWhile_nil, List.append_nil]
  | cons op ops ih =>
    have hrest : ∀ {past' : List Operation} {st' : LoadState}, past' = past ++ [op] →
        op ≠ .abort → Spec (Loading env.toIngestEnv vector d b l past' st')
          (env.loadOps b (line + 1) st' ops)
          (fun st' => Loading env.toIngestEnv vector d b l (past ++ beforeAbort (op :: ops)) st')
          (fun _ _ => False) (fun _ _ => True) := by
      rintro past' st' rfl hop
      have h : Spec (Loading env.toIngestEnv vector d b l (past ++ [op]) st') _
          (fun st' => Loading env.toIngestEnv vector d b l (past ++ [op] ++ beforeAbort ops) st')
          (fun _ _ => False) (fun _ _ => True) :=
        ih (fun id hid => hdelete id (List.mem_cons_of_mem _ hid)) (line + 1)
      rwa [List.append_assoc, List.singleton_append, ← beforeAbort_cons hop] at h
    cases op with
    | inserted id string =>
      exact Spec.bind (indexOne_step hfails hprovider hclustering hat line id string false)
        fun _ => hrest rfl Operation.noConfusion
    | changed id string =>
      exact Spec.bind (indexOne_step hfails hprovider hclustering hat line id string true)
        fun _ => hrest rfl Operation.noConfusion
    | deleted id =>
      exact Spec.bind (deleteDoc_step hfails (hdelete id List.mem_cons_self) line id)
        fun _ => hrest rfl Operation.noConfusion
    | error message =>
      refine (hrest rfl Operation.noConfusion).pre fun s hs => ?_
      exact hs.skip rfl rfl rfl
    | abort =>
      refine Spec.pure fun s hs => ?_
      rwa [beforeAbort_abort, List.append_nil]

end Completes

end Loop

/-- `s` has branch `b` at `l` and the tags of `d`; the other branches may have moved. -/
structure StandsAt (d : Domain V) (b : BranchName) (l : Lineage (ChunkRow V)) (s : Domain V) :
    Prop where
  dataset : s.dataset.isSome
  tags : s.opened.tags = d.opened.tags
  lineage : s.opened.lineage? (wantBranch b) = some l

/-- The version that the default branch's text index ends at, after a load that has left
branch `b` at `l`. -/
def PushEnv.ftsVersion (env : PushEnv V) (d : Domain V) (b : BranchName)
    (l : Lineage (ChunkRow V)) : ℕ :=
  (if b = mainBranch then l.head else d.opened.main.head) + env.indexVersions .ftsIndex

/-- Branch `b` after the text index: it has moved only if it is the default branch. -/
def PushEnv.ftsLineage (env : PushEnv V) (b : BranchName) (l : Lineage (ChunkRow V)) :
    Lineage (ChunkRow V) :=
  if b = mainBranch then l.touch (env.indexVersions .ftsIndex) else l

namespace StandsAt

variable {d s : Domain V} {b : BranchName} {l : Lineage (ChunkRow V)} {commit : CommitId} {v : ℕ}

theorem openDataset (h : StandsAt d b l s) : StandsAt d b l s.openDataset :=
  ⟨Domain.openDataset_dataset_isSome h.dataset, by simpa using h.tags, by simpa using h.lineage⟩

theorem taggable_iff (h : StandsAt d b l s) (hnew : commit ∉ d.opened.tags) :
    s.Taggable b commit v ↔ (l.rows v).isSome := by
  unfold Domain.Taggable
  rw [h.tags, Dataset.rowsAt, h.lineage, Option.bind_some]
  exact ⟨fun ht => ht.2.2, fun hr => ⟨h.dataset, hnew, hr⟩⟩

theorem served_tagged (h : StandsAt d b l s) {r : List (ChunkRow V)} (hr : l.rows v = some r) :
    (s.tagged b commit v).opened.served commit = some r := by
  rw [Domain.tagged_opened h.dataset]
  exact served_putTag_self h.lineage hr

end StandsAt

namespace PushEnv

variable {env : PushEnv V} {d : Domain V} {b : BranchName} {l : Lineage (ChunkRow V)}
  {commit : CommitId} {v : ℕ}

theorem main_of_atBranch {s : Domain V} (h : AtBranch d b l s) :
    s.opened.main = if b = mainBranch then l else d.opened.main := by
  split
  · rename_i hb
    have hl := h.lineage
    rwa [hb, wantBranch, if_pos rfl, Dataset.lineage?_none, Option.some.injEq] at hl
  · rename_i hb
    have hothers := h.others none (by simp [wantBranch, hb])
    rwa [Dataset.lineage?_none, Dataset.lineage?_none, Option.some.injEq] at hothers

/-- The text index of the default branch, seen from branch `b`. -/
theorem standsAt_touched {s : Domain V} (h : AtBranch d b l s) :
    StandsAt d b (env.ftsLineage b l) { s with dataset := some (s.opened.setLineage none
      (s.opened.main.touch (env.indexVersions .ftsIndex))) } where
  dataset := rfl
  tags := by
    rw [Domain.opened_of_some rfl, Dataset.setLineage_tags, h.tags]
  lineage := by
    rw [Domain.opened_of_some rfl, Dataset.lineage?_setLineage, main_of_atBranch h, ftsLineage]
    by_cases hb : b = mainBranch
    · simp [wantBranch, hb]
    · rw [if_neg (by simp [wantBranch, hb]), if_neg hb, h.lineage]

section Tag

variable (hfails : ∀ op, env.fails op = false)

include hfails

/-- The text index moves the default branch, and its version is that of the default branch. -/
theorem ioEnsureFtsIndex_completes :
    Spec (fun s => AtBranch d b l s ∧ s.Current) (env.ioEnsureFtsIndex b)
      (fun v s => StandsAt d b (env.ftsLineage b l) s ∧ v = env.ftsVersion d b l)
      (fun _ _ => False) (fun _ _ => True) := by
  refine Spec.bind (R := fun _ s => AtBranch d b l s ∧ s.Current)
    (env.ioOpenDataset_spec (fun s hs => ?_) fun hop _ _ => absurd_fails hfails hop) fun _ =>
    Spec.bind (R := fun _ s => StandsAt d b (env.ftsLineage b l) s ∧
        s.opened.main.head = env.ftsVersion d b l ∧
        (env.indexVersions .ftsIndex = 0 → s.cached = some (env.ftsVersion d b l)))
      (env.onDataset_spec_of_ok (fun s hs => ?_) fun hop _ _ => absurd_fails hfails hop) fun _ =>
    Spec.bind (R := fun _ s => StandsAt d b (env.ftsLineage b l) s ∧
        s.cached = some (env.ftsVersion d b l))
      (Spec.step fun s hs => ⟨trivial, ?_⟩) fun _ => Spec.look fun s hs => ?_
  · have hcached : s.cached.isSome := by rw [hs.2]; rfl
    rw [Domain.openDataset_of_cached hcached]
    exact ⟨trivial, hs⟩
  · have hhead : s.opened.main.head + env.indexVersions .ftsIndex = env.ftsVersion d b l := by
      rw [main_of_atBranch hs.1, ftsVersion]
      split <;> rfl
    refine ⟨_, _, Domain.dataset_eq_opened hs.1.dataset, Dataset.touch_ok.mpr ⟨_, rfl, rfl⟩,
      trivial, standsAt_touched hs.1, ?_, fun hzero => ?_⟩
    · rw [Domain.opened_of_some rfl, ← hhead]
      exact Lineage.touch_head _ _
    · rw [hzero, Nat.add_zero] at hhead
      rw [← hhead]
      exact hs.2
  · obtain ⟨hon, hhead, hzero⟩ := hs
    split
    · rename_i hn
      exact ⟨hon, hzero hn⟩
    · refine ⟨⟨by simpa using hon.dataset, by simpa using hon.tags, by simpa using hon.lineage⟩, ?_⟩
      rw [Domain.refresh_cached hon.dataset, hhead]
  · refine ⟨hs.1, ?_⟩
    rw [hs.2]
    rfl

theorem ioTagCommit_completes (hnew : commit ∉ d.opened.tags) (hv : (l.rows v).isSome) :
    Spec (StandsAt d b l) (env.ioTagCommit b commit v)
      (fun _ s => ∃ s', StandsAt d b l s' ∧ s = s'.tagged b commit v) (fun _ _ => False)
      (fun _ _ => True) := by
  refine (ioTagCommit_spec (fun _ s hs => hs.openDataset) (fun _ _ _ => trivial)
    (fun _ _ _ => trivial) (fun s hs h => ?_)
    (fun hop _ _ _ => absurd_fails hfails hop)).post fun _ s hs => ?_
  · rcases h with hop | hop | hno
    · exact absurd_fails hfails hop
    · exact absurd_fails hfails hop
    · exact hno ((hs.taggable_iff hnew).mpr hv)
  · obtain ⟨s', hs', -, rfl⟩ := hs
    exact ⟨s', hs', rfl⟩

omit hfails in
/-- A version that the branch does not have cannot be tagged on it. -/
theorem ioTagCommit_fails (hnew : commit ∉ d.opened.tags) (hv : l.rows v = none) :
    Spec (StandsAt d b l) (env.ioTagCommit b commit v) (fun _ _ => False)
      (fun _ s => commit ∉ s.opened.tags) (fun _ _ => True) := by
  have hnot : ∀ s, StandsAt d b l s → ¬ s.Taggable b commit v := by
    intro s hs ht
    have hsome := (hs.taggable_iff hnew).mp ht
    rw [hv] at hsome
    cases hsome
  refine (ioTagCommit_spec (fun _ s hs => hs.openDataset) (fun _ _ _ => trivial)
    (fun _ _ _ => trivial) (fun s hs _ => ?_) (fun _ s hs ht => absurd ht (hnot s hs))).post
    fun _ s hs => ?_
  · rwa [hs.tags]
  · obtain ⟨s', hs', ht, -⟩ := hs
    exact hnot s' hs' ht

section Tagging

variable {st : LoadState} (hpos : 0 < env.ftsVersion d b l)

include hpos

theorem versionToTag_completes (lastVersion : ℕ) :
    Spec (fun s => AtBranch d b l s ∧ s.Current)
      (attempt (env.ioEnsureFtsIndex b) : Push V (Except StoreError ℕ))
      (fun fts s => StandsAt d b (env.ftsLineage b l) s ∧
        versionToTag lastVersion fts = env.ftsVersion d b l)
      (fun _ _ => False) (fun _ _ => True) := by
  refine Spec.attempt ((ioEnsureFtsIndex_completes hfails).weaken (fun _ hs => hs)
    (fun v s hs => ⟨hs.1, ?_⟩) (fun _ _ hs => hs.elim) (fun _ _ h => h))
  rw [hs.2, versionToTag, if_pos hpos]

theorem tagLoad_completes (hnew : commit ∉ d.opened.tags) (hlast : 0 < st.lastVersion)
    (hv : ((env.ftsLineage b l).rows (env.ftsVersion d b l)).isSome) :
    Spec (fun s => AtBranch d b l s ∧ s.Current) (env.tagLoad b commit st)
      (fun st' s => (∃ s', StandsAt d b (env.ftsLineage b l) s' ∧
        s = s'.tagged b commit (env.ftsVersion d b l)) ∧ st'.skipped = st.skipped)
      (fun _ _ => False) (fun _ _ => True) := by
  refine Spec.ite (fun _ => ?_) fun hno => absurd hlast hno
  refine Spec.bind (versionToTag_completes hfails hpos st.lastVersion) fun fts => Spec.of_and fun hversion => ?_
  dsimp only
  rw [hversion]
  refine Spec.bind (withContext_spec (ioTagCommit_completes hfails hnew hv)) fun _ =>
    Spec.bind (withContext_spec (cacheLastIndexed_spec fun s hs => ⟨trivial, ?_⟩)) fun _ =>
      Spec.pure fun s hs => ⟨hs, rfl⟩
  obtain ⟨s', hs', rfl⟩ := hs
  exact ⟨s', hs', Domain.cacheLastIndexed_tagged s' b commit _⟩

theorem tagLoad_fails (hnew : commit ∉ d.opened.tags) (hlast : 0 < st.lastVersion)
    (hv : (env.ftsLineage b l).rows (env.ftsVersion d b l) = none) :
    Spec (fun s => AtBranch d b l s ∧ s.Current) (env.tagLoad b commit st) (fun _ _ => False)
      (fun _ s => commit ∉ s.opened.tags) (fun _ _ => True) := by
  refine Spec.ite (fun _ => ?_) fun hno => absurd hlast hno
  refine Spec.bind ((versionToTag_completes hfails hpos st.lastVersion).weaken (fun _ hs => hs)
    (fun _ _ hs => hs) (fun _ _ hs => hs.elim) (fun _ _ h => h)) fun fts =>
      Spec.of_and fun hversion => ?_
  dsimp only
  rw [hversion]
  exact Spec.bind (R := fun _ _ => False) (withContext_spec (ioTagCommit_fails hnew hv)) fun _ =>
    fun s hs => hs.elim

end Tagging

end Tag

section Load

variable {vector : TextVectors V} {ops : List Operation} (hfails : ∀ op, env.fails op = false)
  (hprovider : EachText env.provider vector) (hclustering : env.storeClustering = true)
  (hat : AtBranch d b l d.openDataset) (hdelete : ∀ id, .deleted id ∈ ops → AtBranch d b l d)

include hfails hprovider hclustering hat hdelete

theorem loop_completes :
    Spec (fun s => s = d) (env.loadOps b 1 .start ops)
      (Loading env.toIngestEnv vector d b l (beforeAbort ops)) (fun _ _ => False)
      (fun _ _ => True) := by
  have hloop : Spec (Loading env.toIngestEnv vector d b l [] .start) (env.loadOps b 1 .start ops)
      (Loading env.toIngestEnv vector d b l ([] ++ beforeAbort ops)) (fun _ _ => False)
      (fun _ _ => True) := loadOps_completes hfails hprovider hclustering hat ops hdelete 1
  refine hloop.pre fun s hs => ?_
  subst hs
  exact .start env.toIngestEnv vector s b l

/-- A load that writes nothing leaves the domain alone. -/
theorem load_idle (hnone : env.writes vector (beforeAbort ops) = []) :
    (env.load b commit ops d).store = d := by
  have hspec : Spec (fun s => s = d) (env.load b commit ops) (fun _ s => s = d)
      (fun _ _ => False) (fun _ _ => True) := by
    refine Spec.bind (loop_completes hfails hprovider hclustering hat hdelete) fun st =>
      Spec.bind (R := fun _ s => s = d) ?_ fun _ => Spec.pure fun _ hs => hs
    refine Spec.ite (fun hlast s hs => ?_) fun _ => Spec.pure fun s hs => (hs.idle hnone).1
    have hzero := (hs.idle hnone).2
    omega
  obtain ⟨-, -, hstore⟩ := hspec.completes rfl
  exact hstore

variable (hnew : commit ∉ d.opened.tags) (hsome : env.writes vector (beforeAbort ops) ≠ [])
  (hpos : 0 < env.ftsVersion d b (writeDocs l (env.writes vector (beforeAbort ops))))

include hnew hsome hpos

/-- A load whose version exists on the branch serves the rows of that version. -/
theorem load_tags {r : List (ChunkRow V)}
    (hr : (env.ftsLineage b (writeDocs l (env.writes vector (beforeAbort ops)))).rows
      (env.ftsVersion d b (writeDocs l (env.writes vector (beforeAbort ops)))) = some r) :
    ∃ exit st, (env.load b commit ops d).result = .ok (exit, st) ∧
      (env.load b commit ops d).store.opened.served commit = some r ∧
      st.skipped.map LoadSkip.docId = env.skippedIds vector (beforeAbort ops) := by
  have hspec : Spec (fun s => s = d) (env.load b commit ops)
      (fun out s => s.opened.served commit = some r ∧
        out.2.skipped.map LoadSkip.docId = env.skippedIds vector (beforeAbort ops))
      (fun _ _ => False) (fun _ _ => True) := by
    refine Spec.bind (loop_completes hfails hprovider hclustering hat hdelete) fun st =>
      Spec.of_forall fun s₀ hs₀ => ?_
    obtain ⟨hat', hcurrent, hlast⟩ := hs₀.busy hsome
    have hlast' : 0 < st.lastVersion := hlast ▸ writeDocs_head_pos l hsome
    refine Spec.bind ((tagLoad_completes hfails hpos hnew hlast' (by rw [hr]; rfl)).pre
      fun s hs => hs ▸ ⟨hat', hcurrent⟩) fun st' => Spec.pure fun s hs => ?_
    obtain ⟨⟨s', hs', rfl⟩, hskipped⟩ := hs
    exact ⟨hs'.served_tagged hr, by rw [hskipped, hs₀.skipped]⟩
  obtain ⟨⟨exit, st⟩, hres, hserved, hskipped⟩ := hspec.completes rfl
  exact ⟨exit, st, hres, hserved, hskipped⟩

/-- A load whose version does not exist on the branch leaves the commit untagged. -/
theorem load_untagged
    (hr : (env.ftsLineage b (writeDocs l (env.writes vector (beforeAbort ops)))).rows
      (env.ftsVersion d b (writeDocs l (env.writes vector (beforeAbort ops)))) = none) :
    commit ∉ (env.load b commit ops d).store.opened.tags := by
  have hspec : Spec (fun s => s = d) (env.load b commit ops) (fun _ _ => False)
      (fun _ s => commit ∉ s.opened.tags) (fun _ _ => True) := by
    refine Spec.bind ((loop_completes hfails hprovider hclustering hat hdelete).weaken
      (fun _ hs => hs) (fun _ _ hs => hs) (fun _ _ hs => hs.elim) (fun _ _ h => h))
      fun st => Spec.of_forall fun s₀ hs₀ => ?_
    obtain ⟨hat', hcurrent, hlast⟩ := hs₀.busy hsome
    have hlast' : 0 < st.lastVersion := hlast ▸ writeDocs_head_pos l hsome
    exact Spec.bind (R := fun _ _ => False) ((tagLoad_fails hfails hpos hnew hlast' hr).pre
      fun s hs => hs ▸ ⟨hat', hcurrent⟩) fun _ => fun s hs => hs.elim
  obtain ⟨-, -, hstore⟩ := hspec.fails rfl
  exact hstore

end Load

end PushEnv

end Vectorlink
