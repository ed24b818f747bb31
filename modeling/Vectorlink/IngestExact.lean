import Vectorlink.Ingest

/-! What the collecting phases hand on: every document operation is either embedded once or
reported as skipped, and only embedded changes and deletions are deleted. -/
namespace Vectorlink

variable {V : Type}

/-- The document that an operation brings, and whether it replaces an older one. -/
def Operation.doc? : Operation → Option (DocId × Bool)
  | .inserted id _ => some (id, false)
  | .changed id _ => some (id, true)
  | _ => none

/-- The id under which an operation is counted as indexed or skipped. -/
def Operation.reported? : Operation → Option String
  | .inserted id _ => some id
  | .changed id _ => some id
  | .deleted _ => none
  | .error _ => some "unknown"
  | .abort => none

/-- The operation that brings the text of a document. -/
def docOperation (id : DocId) (isChanged : Bool) (string : String) : Operation :=
  if isChanged then .changed id string else .inserted id string

/-- A document that was embedded, with its new rows. -/
structure IndexedDoc (V : Type) where
  id : DocId
  isChanged : Bool
  rows : List (ChunkRow V)

/-- The rows are one for each chunk of the document's text, and there is one at least. -/
def IndexedDoc.OfText (env : IngestEnv V) (d : IndexedDoc V) (string : String) : Prop :=
  ∃ chunks vs qs, env.chunkText string = .ok chunks ∧ chunks ≠ [] ∧ vs.length = chunks.length ∧
    qs.length = chunks.length ∧ d.rows = chunkRows d.id chunks vs qs

/-- `docs` are the documents that a collecting phase embedded. -/
structure Collects (env : IngestEnv V) (ops : List Operation) (docs : List (IndexedDoc V))
    (c : Collected V) : Prop where
  once : (docs.map fun d => (d.id, d.isChanged)).Sublist (ops.filterMap Operation.doc?)
  text : ∀ d ∈ docs, ∃ string, docOperation d.id d.isChanged string ∈ ops ∧ d.OfText env string
  rows : c.rows = docs.flatMap (·.rows)
  deleteIds : ∀ id, id ∈ c.deleteIds ↔ .deleted id ∈ ops ∨ ∃ d ∈ docs, d.isChanged ∧ d.id = id
  indexed : c.indexed = docs.length
  report : (docs.map (·.id) ++ c.skipped.map (·.id)).Perm (ops.filterMap Operation.reported?)

section Scatter

variable (env : IngestEnv V)

theorem embedding?_of_no_failure {results : List (EmbedResult V)}
    (h : ∀ r ∈ results, r.failure? = none) :
    (results.filterMap EmbedResult.embedding?).length = results.length := by
  induction results with
  | nil => rfl
  | cons r results ih =>
    have hr := h r List.mem_cons_self
    have hrest := ih fun x hx => h x (List.mem_cons_of_mem _ hx)
    cases r with
    | failed message => cases hr
    | ok embedding =>
      have hsome : (EmbedResult.ok embedding).embedding? = some embedding := rfl
      rw [List.filterMap_cons_some hsome, List.length_cons, List.length_cons, hrest]

theorem docRows_ok {doc : DocToEmbed} {rd rq : List (EmbedResult V)} {rows : List (ChunkRow V)}
    (hd : rd.length = doc.chunks.length) (hq : rq.length = doc.chunks.length)
    (h : env.docRows doc rd rq = .ok rows) :
    ∃ vs qs, vs.length = doc.chunks.length ∧ qs.length = doc.chunks.length ∧
      rows = chunkRows doc.id doc.chunks vs qs := by
  unfold IngestEnv.docRows at h
  split at h
  · cases h
  · rename_i hnone
    have hno : ∀ r ∈ rd ++ rq, EmbedResult.failure? r = none := List.findSome?_eq_none_iff.mp hnone
    refine ⟨_, _, ?_, ?_, (Except.ok.inj h).symm⟩
    · rw [List.length_map, embedding?_of_no_failure fun r hr => hno r (List.mem_append_left _ hr), hd]
    · rw [List.length_map, embedding?_of_no_failure fun r hr => hno r (List.mem_append_right _ hr),
        hq]

theorem scatter_fst (docs : List DocToEmbed) (rd rq : List (EmbedResult V)) :
    (env.scatter docs rd rq).map Prod.fst = docs := by
  induction docs generalizing rd rq with
  | nil => rfl
  | cons doc docs ih => simp only [IngestEnv.scatter, List.map_cons, ih]

theorem scatter_ok {docs : List DocToEmbed} {rd rq : List (EmbedResult V)}
    (hd : rd.length = (IngestEnv.flatTexts docs).length)
    (hq : rq.length = (IngestEnv.flatTexts docs).length) {doc : DocToEmbed}
    {rows : List (ChunkRow V)} (h : (doc, .ok rows) ∈ env.scatter docs rd rq) :
    ∃ vs qs, vs.length = doc.chunks.length ∧ qs.length = doc.chunks.length ∧
      rows = chunkRows doc.id doc.chunks vs qs := by
  induction docs generalizing rd rq with
  | nil => cases h
  | cons x docs ih =>
    have hcons : (IngestEnv.flatTexts (x :: docs)).length =
        x.chunks.length + (IngestEnv.flatTexts docs).length := by
      simp [IngestEnv.flatTexts]
    rw [hcons] at hd hq
    rcases List.mem_cons.mp h with h | h
    · obtain ⟨rfl, hrows⟩ := Prod.mk.inj h
      apply docRows_ok env _ _ hrows.symm
      · rw [List.length_take]
        omega
      · rw [List.length_take]
        omega
    · apply ih _ _ h
      · rw [List.length_drop]
        omega
      · rw [List.length_drop]
        omega

theorem embedDocs_fst (n : ℕ) (docs : List DocToEmbed) : (env.embedDocs n docs).map Prod.fst = docs :=
  scatter_fst env _ _ _

theorem embedDocs_ok {n : ℕ} {docs : List DocToEmbed} {doc : DocToEmbed}
    {rows : List (ChunkRow V)} (h : (doc, .ok rows) ∈ env.embedDocs n docs) :
    ∃ vs qs, vs.length = doc.chunks.length ∧ qs.length = doc.chunks.length ∧
      rows = chunkRows doc.id doc.chunks vs qs := by
  have hlen : ∀ role texts,
      (ioEmbedBatched env.provider role n env.embedBatchSize texts).length = texts.length :=
    fun role texts => length_ioEmbedBatched env.provider role n env.batchSize_pos texts
  refine scatter_ok env (hlen _ _) ?_ h
  unfold IngestEnv.clusteringResults
  split
  · exact hlen _ _
  · rw [List.length_map]

end Scatter

section Reading

/-- The documents that came out of a sub-batch embedded. -/
def indexedOf (outs : List (DocToEmbed × Except String (List (ChunkRow V)))) :
    List (IndexedDoc V) :=
  outs.filterMap fun out =>
    match out.2 with
    | .ok rows => some ⟨out.1.id, out.1.isChanged, rows⟩
    | .error _ => none

theorem mem_indexedOf {outs : List (DocToEmbed × Except String (List (ChunkRow V)))}
    {d : IndexedDoc V} : d ∈ indexedOf outs ↔
      ∃ doc rows, (doc, .ok rows) ∈ outs ∧ d = ⟨doc.id, doc.isChanged, rows⟩ := by
  unfold indexedOf
  rw [List.mem_filterMap]
  constructor
  · rintro ⟨⟨doc, result⟩, hout, h⟩
    cases result with
    | error e => cases h
    | ok rows => exact ⟨doc, rows, hout, (Option.some.inj h).symm⟩
  · rintro ⟨doc, rows, hout, rfl⟩
    exact ⟨(doc, .ok rows), hout, rfl⟩

/-- What is known about the operations read so far, with `docs` embedded and the rest of the
documents waiting in the batch. -/
structure ReadsTo (env : IngestEnv V) (ops : List Operation) (docs : List (IndexedDoc V))
    (st : Reading V) : Prop where
  once : (docs.map (fun d => (d.id, d.isChanged)) ++
    st.batchDocs.map fun doc => (doc.id, doc.isChanged)).Sublist (ops.filterMap Operation.doc?)
  text : ∀ d ∈ docs, ∃ string, docOperation d.id d.isChanged string ∈ ops ∧ d.OfText env string
  batch : ∀ doc ∈ st.batchDocs, ∃ string, docOperation doc.id doc.isChanged string ∈ ops ∧
    env.chunkText string = .ok doc.chunks ∧ doc.chunks ≠ []
  rows : st.collected.rows = docs.flatMap (·.rows)
  deleteIds : ∀ id, id ∈ st.collected.deleteIds ↔
    .deleted id ∈ ops ∨ ∃ d ∈ docs, d.isChanged ∧ d.id = id
  indexed : st.collected.indexed = docs.length
  report : (docs.map (·.id) ++ (st.collected.skipped.map (·.id) ++
    st.batchDocs.map (·.id))).Perm (ops.filterMap Operation.reported?)

variable {env : IngestEnv V} {ops : List Operation} {docs : List (IndexedDoc V)} {st : Reading V}

theorem ReadsTo.collects (h : ReadsTo env ops docs st) (hbatch : st.batchDocs = []) :
    Collects env ops docs st.collected where
  once := by simpa [hbatch] using h.once
  text := h.text
  rows := h.rows
  deleteIds := h.deleteIds
  indexed := h.indexed
  report := by simpa [hbatch] using h.report

theorem doc?_docOperation (id : DocId) (isChanged : Bool) (string : String) :
    (docOperation id isChanged string).doc? = some (id, isChanged) := by
  cases isChanged <;> rfl

theorem reported?_docOperation (id : DocId) (isChanged : Bool) (string : String) :
    (docOperation id isChanged string).reported? = some id := by
  cases isChanged <;> rfl

theorem indexedOf_sublist (outs : List (DocToEmbed × Except String (List (ChunkRow V)))) :
    ((indexedOf outs).map fun d => (d.id, d.isChanged)).Sublist
      ((outs.map Prod.fst).map fun doc => (doc.id, doc.isChanged)) := by
  induction outs with
  | nil => exact .refl _
  | cons out outs ih =>
    obtain ⟨doc, result⟩ := out
    cases result with
    | error message => exact ih.cons _
    | ok rows => exact ih.cons_cons _

end Reading

section Exact

/-- The rows after the write phase: deletes first, then the new rows. -/
def Collected.apply (c : Collected V) (rows : List (ChunkRow V)) : List (ChunkRow V) :=
  deleteDocs c.deleteIds rows ++ c.rows

/-- The document that an operation is about. -/
def Operation.target? : Operation → Option DocId
  | .inserted id _ => some id
  | .changed id _ => some id
  | .deleted id => some id
  | _ => none

/-- One operation for each document, and documents are inserted only where they are absent. -/
structure WellFormed (ops : List Operation) (parent : List (ChunkRow V)) : Prop where
  once : (ops.filterMap Operation.target?).Nodup
  absent : ∀ id string, .inserted id string ∈ ops → docRows id parent = []

/-- The rows are those of the parent, without the deleted documents and with the embedded
documents in place of their older versions, each once. -/
def ExactlyPushed (env : IngestEnv V) (ops : List Operation) (c : Collected V)
    (parent rows : List (ChunkRow V)) : Prop :=
  ∃ docs, Collects env ops docs c ∧ ∀ id, (docRows id rows).Perm
    (match docs.find? (·.id = id) with
     | some d => d.rows
     | none => if .deleted id ∈ ops then [] else docRows id parent)

variable {env : IngestEnv V} {ops : List Operation} {docs : List (IndexedDoc V)} {c : Collected V}

theorem docId_of_mem_chunkRows {id : DocId} {chunks : List Chunk} {vs qs : List V}
    {r : ChunkRow V} (h : r ∈ chunkRows id chunks vs qs) : r.docId = id := by
  obtain ⟨x, -, rfl⟩ := List.mem_map.mp h
  rfl

theorem Collects.docId (h : Collects env ops docs c) {d : IndexedDoc V} (hd : d ∈ docs)
    {r : ChunkRow V} (hr : r ∈ d.rows) : r.docId = d.id := by
  obtain ⟨string, -, chunks, vs, qs, -, -, -, -, hrows⟩ := h.text d hd
  rw [hrows] at hr
  exact docId_of_mem_chunkRows hr

theorem Collects.rows_ne_nil (h : Collects env ops docs c) {d : IndexedDoc V} (hd : d ∈ docs) :
    d.rows ≠ [] := by
  obtain ⟨string, -, chunks, vs, qs, -, hne, hvs, hqs, hrows⟩ := h.text d hd
  rw [hrows, ← List.length_pos_iff, chunkRows]
  have hpos := List.length_pos_iff.mpr hne
  simp only [List.length_map, List.length_zip]
  omega

/-- Documents are counted as indexed exactly when there are rows to append. -/
theorem Collects.indexed_eq_zero (h : Collects env ops docs c) : c.indexed = 0 ↔ c.rows = [] := by
  rw [h.indexed, h.rows, List.length_eq_zero_iff, List.flatMap_eq_nil_iff]
  constructor
  · rintro rfl
    simp
  · intro hall
    rw [List.eq_nil_iff_forall_not_mem]
    exact fun d hd => h.rows_ne_nil hd (hall d hd)

theorem docRows_self {id : DocId} {rows : List (ChunkRow V)} (h : ∀ r ∈ rows, r.docId = id) :
    docRows id rows = rows := List.filter_eq_self.mpr fun r hr => by simpa using h r hr

theorem docRows_other {id : DocId} {rows : List (ChunkRow V)} (h : ∀ r ∈ rows, r.docId ≠ id) :
    docRows id rows = [] := List.filter_eq_nil_iff.mpr fun r hr => by simpa using h r hr

/-- Of documents with different ids, only one has rows of a given id. -/
theorem docRows_flatMap (hnodup : (docs.map (·.id)).Nodup)
    (hid : ∀ d ∈ docs, ∀ r ∈ d.rows, r.docId = d.id) (id : DocId) :
    docRows id (docs.flatMap (·.rows)) =
      match docs.find? (·.id = id) with
      | some d => d.rows
      | none => [] := by
  induction docs with
  | nil => rfl
  | cons d docs ih =>
    rw [List.map_cons, List.nodup_cons] at hnodup
    have hrest := ih hnodup.2 fun x hx => hid x (List.mem_cons_of_mem _ hx)
    rw [List.flatMap_cons, docRows_append, hrest]
    by_cases hd : d.id = id
    · have hnone : docs.find? (·.id = id) = none := by
        refine List.find?_eq_none.mpr fun x hx => ?_
        simp only [decide_eq_true_eq]
        rintro rfl
        exact hnodup.1 (List.mem_map.mpr ⟨x, hx, hd.symm⟩)
      rw [hnone, docRows_self fun r hr => (hid d List.mem_cons_self r hr).trans hd]
      simp [hd]
    · rw [docRows_other fun r hr => by rw [hid d List.mem_cons_self r hr]; exact hd]
      simp [hd]

theorem doc?_sublist_target? (ops : List Operation) :
    ((ops.filterMap Operation.doc?).map Prod.fst).Sublist (ops.filterMap Operation.target?) := by
  induction ops with
  | nil => exact .refl _
  | cons op ops ih =>
    cases op with
    | inserted id string => exact ih.cons_cons id
    | changed id string => exact ih.cons_cons id
    | deleted id => exact ih.cons id
    | error message => exact ih
    | abort => exact ih

theorem Collects.nodup (h : Collects env ops docs c)
    (honce : (ops.filterMap Operation.target?).Nodup) : (docs.map (·.id)).Nodup := by
  have hsub := (h.once.map Prod.fst).trans (doc?_sublist_target? ops)
  rw [List.map_map] at hsub
  exact honce.sublist hsub

/-- Writing what a collecting phase hands on makes exactly the rows that the operations ask
for. -/
theorem Collects.exactlyPushed (h : Collects env ops docs c) {parent base : List (ChunkRow V)}
    (hwf : WellFormed ops parent) (hbase : base.Perm parent) :
    ExactlyPushed env ops c parent (c.apply base) := by
  refine ⟨docs, h, fun id => ?_⟩
  have hold : (docRows id base).Perm (docRows id parent) := hbase.filter _
  have hnew := docRows_flatMap (h.nodup hwf.once) (fun d hd r hr => h.docId hd hr) id
  rw [Collected.apply, docRows_append, docRows_deleteDocs, h.rows, hnew]
  cases hfind : docs.find? (·.id = id) with
  | some d =>
    obtain rfl : d.id = id := by simpa using List.find?_some hfind
    have hmem := List.mem_of_find?_eq_some hfind
    -- an embedded change is deleted first, an embedded insertion has no older rows
    have hgone : (if d.id ∈ c.deleteIds then [] else docRows d.id base) = [] := by
      split
      · rfl
      · rename_i hnot
        have hfresh : d.isChanged = false := by
          refine Bool.eq_false_iff.mpr fun hchanged => hnot ?_
          exact (h.deleteIds d.id).mpr (.inr ⟨d, hmem, hchanged, rfl⟩)
        obtain ⟨string, hop, -⟩ := h.text d hmem
        rw [hfresh] at hop
        rw [hwf.absent d.id string hop] at hold
        exact hold.eq_nil
    rw [hgone, List.nil_append]
  | none =>
    have hdel : id ∈ c.deleteIds ↔ .deleted id ∈ ops := by
      rw [h.deleteIds id, or_iff_left]
      rintro ⟨d, hd, -, hid⟩
      have hno := List.find?_eq_none.mp hfind d hd
      exact hno (by simpa using hid)
    simp only [List.append_nil, hdel]
    split
    · exact .refl _
    · exact hold

end Exact

end Vectorlink
