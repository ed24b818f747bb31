import Vectorlink.IngestAccount

/-! The books read document by document: each document that joined the batch is indexed with its
rows or reported, so what both pipelines hand on comes from the operations. -/
namespace Vectorlink

open IngestEnv

variable {V : Type} {env : IngestEnv V} {ops : List Operation} {outs : List (Embedded V)}
  {st : Reading V}

theorem readSkip?_docOperation (env : IngestEnv V) (id : DocId) (isChanged : Bool)
    (string : String) :
    env.readSkip? (docOperation id isChanged string) = env.unchunked? id string := by
  cases isChanged <;> rfl

theorem batchedDoc?_docOperation (env : IngestEnv V) (id : DocId) (isChanged : Bool)
    (string : String) :
    env.batchedDoc? (docOperation id isChanged string) = env.toEmbed? id string isChanged := by
  cases isChanged <;> rfl

/-- What becomes of an operation that is read: its document joins the batch, it is reported, or
there is nothing to report. -/
theorem batchedDoc?_cases (env : IngestEnv V) (op : Operation) :
    (∃ doc string, op = docOperation doc.id doc.isChanged string ∧
      env.chunkText string = .ok doc.chunks ∧ doc.chunks ≠ [] ∧
      env.batchedDoc? op = some doc ∧ env.readSkip? op = none) ∨
    (∃ report, op.reported? = some report.id ∧ env.batchedDoc? op = none ∧
      env.readSkip? op = some report) ∨
    op.reported? = none ∧ env.batchedDoc? op = none ∧ env.readSkip? op = none := by
  have hdoc (id : DocId) (string : String) (isChanged : Bool)
      (hop : op = docOperation id isChanged string) :
      (∃ doc string, op = docOperation doc.id doc.isChanged string ∧
        env.chunkText string = .ok doc.chunks ∧ doc.chunks ≠ [] ∧
        env.batchedDoc? op = some doc ∧ env.readSkip? op = none) ∨
      ∃ report, op.reported? = some report.id ∧ env.batchedDoc? op = none ∧
        env.readSkip? op = some report := by
    subst hop
    rw [batchedDoc?_docOperation, readSkip?_docOperation, reported?_docOperation]
    unfold toEmbed? unchunked?
    cases htext : env.chunkText string with
    | error e => exact .inr ⟨_, rfl, rfl, rfl⟩
    | ok chunks =>
      cases chunks with
      | nil => exact .inr ⟨_, rfl, rfl, rfl⟩
      | cons chunk chunks =>
        exact .inl ⟨⟨id, chunk :: chunks, isChanged⟩, string, rfl, htext, List.cons_ne_nil _ _, rfl,
          rfl⟩
  cases op with
  | inserted id string => exact (hdoc id string false rfl).imp_right .inl
  | changed id string => exact (hdoc id string true rfl).imp_right .inl
  | deleted id => exact .inr (.inr ⟨rfl, rfl, rfl⟩)
  | error message => exact .inr (.inl ⟨_, rfl, rfl, rfl⟩)
  | abort => exact .inr (.inr ⟨rfl, rfl, rfl⟩)

/-- A document of the batch has the chunks of its operation's text. -/
theorem text_of_batchedDoc {op : Operation} {doc : DocToEmbed} (h : env.batchedDoc? op = some doc) :
    ∃ string, op = docOperation doc.id doc.isChanged string ∧
      env.chunkText string = .ok doc.chunks ∧ doc.chunks ≠ [] := by
  rcases batchedDoc?_cases env op with ⟨doc', string, hop, htext, hne, hdoc, -⟩ |
    ⟨report, -, hnone, -⟩ | ⟨-, hnone, -⟩
  · rw [hdoc] at h
    obtain rfl := Option.some.inj h
    exact ⟨string, hop, htext, hne⟩
  · rw [hnone] at h
    cases h
  · rw [hnone] at h
    cases h

theorem doc?_of_batchedDoc {op : Operation} {doc : DocToEmbed} (h : env.batchedDoc? op = some doc) :
    op.doc? = some (doc.id, doc.isChanged) := by
  obtain ⟨string, rfl, -, -⟩ := text_of_batchedDoc h
  exact doc?_docOperation _ _ _

/-- The documents of the batch are those of different operations, in their order. -/
theorem batchedDoc?_sublist (env : IngestEnv V) (ops : List Operation) :
    ((ops.filterMap env.batchedDoc?).map fun doc => (doc.id, doc.isChanged)).Sublist
      (ops.filterMap Operation.doc?) := by
  induction ops with
  | nil => exact .refl _
  | cons op ops ih =>
    cases hdoc : env.batchedDoc? op with
    | none =>
      rw [List.filterMap_cons_none hdoc]
      exact ih.trans ((List.sublist_cons_self op ops).filterMap _)
    | some doc =>
      rw [List.filterMap_cons_some hdoc, List.filterMap_cons_some (doc?_of_batchedDoc hdoc)]
      exact ih.cons_cons _

/-- Every operation with a report has it while it is read or with its document. -/
theorem reported_perm (env : IngestEnv V) (ops : List Operation) :
    ((ops.filterMap env.readSkip?).map (·.id) ++ (ops.filterMap env.batchedDoc?).map (·.id)).Perm
      (ops.filterMap Operation.reported?) := by
  induction ops with
  | nil => exact .refl _
  | cons op ops ih =>
    rcases batchedDoc?_cases env op with ⟨doc, string, hop, -, -, hdoc, hskip⟩ |
      ⟨report, hreported, hdoc, hskip⟩ | ⟨hreported, hdoc, hskip⟩
    · have hreported : op.reported? = some doc.id := by rw [hop, reported?_docOperation]
      rw [List.filterMap_cons_some hdoc, List.filterMap_cons_none hskip,
        List.filterMap_cons_some hreported, List.map_cons]
      exact List.perm_middle.trans (ih.cons _)
    · rw [List.filterMap_cons_none hdoc, List.filterMap_cons_some hskip,
        List.filterMap_cons_some hreported, List.map_cons, List.cons_append]
      exact ih.cons _
    · rw [List.filterMap_cons_none hdoc, List.filterMap_cons_none hskip,
        List.filterMap_cons_none hreported]
      exact ih

/-- The entries of embedded documents, read off those that are indexed. -/
theorem indexedOf_books (outs : List (Embedded V)) :
    outs.flatMap Embedded.rows = (indexedOf outs).flatMap (·.rows) ∧
    outs.filterMap Embedded.replaced? = ((indexedOf outs).filter (·.isChanged)).map (·.id) ∧
    outs.countP Embedded.isIndexed = (indexedOf outs).length ∧
    ((indexedOf outs).map (·.id) ++ (outs.filterMap Embedded.failed?).map (·.id)).Perm
      (outs.map (·.1.id)) := by
  induction outs with
  | nil => simp [indexedOf]
  | cons o outs ih =>
    obtain ⟨hrows, hreplaced, hindexed, hreport⟩ := ih
    obtain ⟨doc, result⟩ := o
    cases result with
    | error message =>
      have hout : indexedOf ((doc, .error message) :: outs) = indexedOf outs := rfl
      have hnone : Embedded.replaced? ((doc, .error message) : Embedded V) = none := rfl
      have hfailed : Embedded.failed? ((doc, .error message) : Embedded V) =
          some ⟨doc.id, message⟩ := rfl
      have hno : ¬Embedded.isIndexed ((doc, .error message) : Embedded V) = true :=
        Bool.false_ne_true
      rw [hout, List.filterMap_cons_none hnone, List.filterMap_cons_some hfailed,
        List.countP_cons_of_neg hno]
      exact ⟨hrows, hreplaced, hindexed, List.perm_middle.trans (hreport.cons _)⟩
    | ok rows =>
      have hout : indexedOf ((doc, .ok rows) :: outs) =
          ⟨doc.id, doc.isChanged, rows⟩ :: indexedOf outs := rfl
      have hfailed : Embedded.failed? (doc, .ok rows) = none := rfl
      have hyes : Embedded.isIndexed (doc, .ok rows) = true := rfl
      rw [hout, List.filterMap_cons_none hfailed, List.countP_cons_of_pos hyes, List.flatMap_cons,
        List.flatMap_cons, hrows, hindexed]
      refine ⟨rfl, ?_, rfl, hreport.cons _⟩
      cases hchanged : doc.isChanged with
      | true => simp [Embedded.replaced?, Embedded.isIndexed, Except.toOption, hchanged, hreplaced]
      | false => simp [Embedded.replaced?, hchanged, hreplaced]

/-- The rows of the embedded documents are one for each chunk. -/
def RowsOfChunks (outs : List (Embedded V)) : Prop :=
  ∀ doc rows, (doc, .ok rows) ∈ outs → ∃ vs qs, vs.length = doc.chunks.length ∧
    qs.length = doc.chunks.length ∧ rows = chunkRows doc.id doc.chunks vs qs

theorem rowsOfChunks_embedGroups (n : ℕ) (groups : List (List DocToEmbed)) :
    RowsOfChunks (env.embedGroups n groups) := by
  induction groups generalizing n with
  | nil =>
    intro doc rows hout
    cases hout
  | cons group groups ih =>
    intro doc rows hout
    rcases List.mem_append.mp hout with hout | hout
    · exact embedDocs_ok env hout
    · exact ih (n + 1) doc rows hout

theorem mem_filterMap_deletedId? {id : DocId} :
    id ∈ ops.filterMap Operation.deletedId? ↔ .deleted id ∈ ops := by
  rw [List.mem_filterMap]
  constructor
  · rintro ⟨op, hop, hid⟩
    cases op with
    | deleted x => exact Option.some.inj hid ▸ hop
    | _ => cases hid
  · intro hop
    exact ⟨_, hop, rfl⟩

/-- The books in terms of the documents that are indexed. -/
theorem Accounts.readsTo (h : Accounts env ops outs st) (hrows : RowsOfChunks outs) :
    ReadsTo env ops (indexedOf outs) st := by
  obtain ⟨hbooks, hreplaced, hcount, hreport⟩ := indexedOf_books outs
  have hbatched (doc : DocToEmbed) (hdoc : doc ∈ outs.map Prod.fst ++ st.batchDocs) :
      ∃ string, docOperation doc.id doc.isChanged string ∈ ops ∧
        env.chunkText string = .ok doc.chunks ∧ doc.chunks ≠ [] := by
    rw [← h.docs] at hdoc
    obtain ⟨op, hop, hop'⟩ := List.mem_filterMap.mp hdoc
    obtain ⟨string, rfl, htext, hne⟩ := text_of_batchedDoc hop'
    exact ⟨string, hop, htext, hne⟩
  refine ⟨?_, ?_, ?_, h.rows.trans hbooks, ?_, h.indexed.trans hcount, ?_⟩
  · have hsub := batchedDoc?_sublist env ops
    rw [h.docs, List.map_append] at hsub
    exact ((indexedOf_sublist outs).append (.refl _)).trans hsub
  · intro d hd
    obtain ⟨doc, rows, hout, rfl⟩ := mem_indexedOf.mp hd
    obtain ⟨string, hop, htext, hne⟩ := hbatched doc
      (List.mem_append_left _ (List.mem_map_of_mem (f := Prod.fst) hout))
    obtain ⟨vs, qs, hvs, hqs, hchunks⟩ := hrows doc rows hout
    exact ⟨string, hop, doc.chunks, vs, qs, htext, hne, hvs, hqs, hchunks⟩
  · exact fun doc hdoc => hbatched doc (List.mem_append_right _ hdoc)
  · intro id
    rw [h.deleteIds.mem_iff, List.mem_append, mem_filterMap_deletedId?, hreplaced]
    simp only [List.mem_map, List.mem_filter, and_assoc]
  · -- The reports while reading, those of failed documents and the documents still in the batch.
    have hskipped := h.skipped.map (·.id)
    rw [List.map_append] at hskipped
    have hall := reported_perm env ops
    rw [h.docs, List.map_append, List.map_map] at hall
    have hmove : ((indexedOf outs).map (·.id) ++ (((ops.filterMap env.readSkip?).map (·.id) ++
          (outs.filterMap Embedded.failed?).map (·.id)) ++ st.batchDocs.map (·.id))).Perm
        ((ops.filterMap env.readSkip?).map (·.id) ++ (((indexedOf outs).map (·.id) ++
          (outs.filterMap Embedded.failed?).map (·.id)) ++ st.batchDocs.map (·.id))) := by
      simp only [List.append_assoc]
      exact List.perm_append_comm_assoc _ _ _
    refine ((hskipped.append_right _).append_left _).trans (hmove.trans ?_)
    refine List.Perm.trans ?_ hall
    exact (hreport.append_right _).append_left _

theorem collectBuffered_collects {c : Collected V} (h : env.collectBuffered ops = .ok c) :
    ∃ docs, Collects env ops docs c := by
  obtain ⟨st, hst, hnil, rfl⟩ := collectBuffered_accounts h
  exact ⟨_, (hst.readsTo fun doc rows hout => embedDocs_ok env hout).collects hnil⟩

theorem collectStream_collects {expectedDocs : Option ℕ} {c : Collected V}
    (h : env.collectStream expectedDocs ops = .ok c) : ∃ docs, Collects env ops docs c := by
  obtain ⟨st, hst, hnil, rfl⟩ := collectStream_accounts h
  exact ⟨_, (hst.readsTo (rowsOfChunks_embedGroups 0 _)).collects hnil⟩

end Vectorlink
