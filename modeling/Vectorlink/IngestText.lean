import Vectorlink.IngestCollect

/-! A provider whose outcome for a text depends on the role and on the text only. How the
texts are cut into requests then makes no difference, and each operation of a push has an
entry of its own in the books. -/
namespace Vectorlink

open IngestEnv

variable {V : Type}

/-- The vector of a text in a role, or why it has none. -/
abbrev TextVectors (V : Type) := EmbeddingRole → String → Except String V

/-- A request that is answered carries the vector of each text, and a text on its own is
answered exactly if it has a vector. A longer request may fail for any reason. -/
structure OfText (provider : Provider V) (vector : TextVectors V) : Prop where
  answer : ∀ call texts vs, ioEmbed provider call texts = .ok vs →
    List.Forall₂ (fun text v => vector call.role text = .ok v) texts vs
  alone : ∀ call text, ioEmbed provider call [text] = (vector call.role text).map fun v => [v]

def retryFailed (e : String) : String := s!"embedding failed after individual retry: {e}"

def textResult (vector : TextVectors V) (role : EmbeddingRole) (text : String) : EmbedResult V :=
  match vector role text with
  | .ok v => .ok v
  | .error e => .failed (retryFailed e)

section Embed

variable {provider : Provider V} {vector : TextVectors V}

theorem OfText.retryText (h : OfText provider vector) (call : EmbedCall) (text : String) :
    retryText provider call text = textResult vector call.role text := by
  unfold Vectorlink.retryText textResult
  rw [h.alone]
  cases vector call.role text with
  | ok v => rfl
  | error e => rfl

theorem OfText.embedBatch (h : OfText provider vector) (call : EmbedCall) (batch : List String) :
    embedBatch provider call batch = batch.map (textResult vector call.role) := by
  unfold Vectorlink.embedBatch
  cases hcall : ioEmbed provider call batch with
  | ok vs =>
    have hvs := h.answer call batch vs hcall
    clear hcall
    dsimp only
    induction hvs with
    | nil => rfl
    | cons hv _ ih => rw [List.map_cons, List.map_cons, ih, textResult, hv]
  | error e =>
    dsimp only
    simp only [h.retryText]
    apply List.ext_getElem
    · simp
    · intro i _ _
      simp

/-- The batches of a request make no difference. -/
theorem OfText.ioEmbedBatched (h : OfText provider vector) (role : EmbeddingRole) (subBatch : ℕ)
    {batchSize : ℕ} (hsize : 0 < batchSize) (texts : List String) :
    ioEmbedBatched provider role subBatch batchSize texts = texts.map (textResult vector role) := by
  unfold Vectorlink.ioEmbedBatched
  simp only [h.embedBatch]
  have hflat := congrArg (List.map (textResult vector role)) (flatten_sliceChunks hsize texts)
  rw [List.map_flatten] at hflat
  rw [← hflat]
  congr 1
  apply List.ext_getElem
  · simp
  · intro i _ _
    simp

end Embed

namespace IngestEnv

variable (env : IngestEnv V) (vector : TextVectors V)

def clusteringResult (text : String) : EmbedResult V :=
  if env.storeClustering then textResult vector .clustering text else .ok env.zero

/-- What becomes of a document, whichever request its chunks are in. -/
def textOutcome (doc : DocToEmbed) : Embedded V :=
  (doc, env.docRows doc (doc.chunks.map fun chunk => textResult vector .document chunk.text)
    (doc.chunks.map fun chunk => env.clusteringResult vector chunk.text))

variable {env vector}

theorem scatter_map (f g : String → EmbedResult V) (docs : List DocToEmbed) :
    env.scatter docs ((flatTexts docs).map f) ((flatTexts docs).map g) =
      docs.map fun doc => (doc, env.docRows doc (doc.chunks.map fun chunk => f chunk.text)
        (doc.chunks.map fun chunk => g chunk.text)) := by
  induction docs with
  | nil => rfl
  | cons doc docs ih =>
    have hflat : flatTexts (doc :: docs) = doc.chunks.map (·.text) ++ flatTexts docs := rfl
    have htake : ∀ f : String → EmbedResult V, ((flatTexts (doc :: docs)).map f).take
        doc.chunks.length = doc.chunks.map fun chunk => f chunk.text := by
      intro f
      rw [hflat, List.map_append, List.map_map]
      exact List.take_left' (by simp)
    have hdrop : ∀ f : String → EmbedResult V, ((flatTexts (doc :: docs)).map f).drop
        doc.chunks.length = (flatTexts docs).map f := by
      intro f
      rw [hflat, List.map_append, List.map_map]
      exact List.drop_left' (by simp)
    rw [scatter, htake, htake, hdrop, hdrop, ih, List.map_cons]

theorem embedDocs_text (h : OfText env.provider vector) (n : ℕ) (docs : List DocToEmbed) :
    env.embedDocs n docs = docs.map (env.textOutcome vector) := by
  have hclustering : env.clusteringResults n (flatTexts docs) =
      (flatTexts docs).map (env.clusteringResult vector) := by
    unfold clusteringResults clusteringResult
    cases hstore : env.storeClustering with
    | true => simp [h.ioEmbedBatched _ _ env.batchSize_pos]
    | false => simp
  unfold embedDocs
  rw [h.ioEmbedBatched _ _ env.batchSize_pos, hclustering, scatter_map]
  rfl

theorem embedGroups_text (h : OfText env.provider vector) (n : ℕ) (groups : List (List DocToEmbed)) :
    env.embedGroups n groups = groups.flatten.map (env.textOutcome vector) := by
  induction groups generalizing n with
  | nil => rfl
  | cons group groups ih =>
    rw [embedGroups, embedDocs_text h, ih, List.flatten_cons, List.map_append]

end IngestEnv

/-- The row of a chunk: the vectors of its own text in both roles, or zeros where the domain
stores no clustering vectors. -/
def IngestEnv.RowOf (env : IngestEnv V) (vector : TextVectors V) (id : DocId) (chunk : Chunk)
    (row : ChunkRow V) : Prop :=
  ∃ v q, vector .document chunk.text = .ok v ∧
    (if env.storeClustering then vector .clustering chunk.text = .ok q else q = env.zero) ∧
    row = chunkRow id chunk (env.l2Normalize v) (env.l2Normalize q)

/-- A role in which the chunks of the domain are embedded. -/
def IngestEnv.Embeds (env : IngestEnv V) : EmbeddingRole → Prop
  | .document => True
  | .clustering => env.storeClustering = true
  | _ => False

/-- The entry of an operation: the rows of its document, or the report that it was skipped. -/
abbrev Entry (V : Type) := Except SkippedDoc (List (ChunkRow V))

/-- How an operation may end in the books. -/
inductive IngestEnv.Books (env : IngestEnv V) (vector : TextVectors V) :
    Operation → Entry V → Prop
  | indexed {id : DocId} {string : String} {isChanged : Bool} {chunks : List Chunk}
      {rows : List (ChunkRow V)} : env.chunkText string = .ok chunks → chunks ≠ [] →
      List.Forall₂ (env.RowOf vector id) chunks rows →
      Books env vector (docOperation id isChanged string) (.ok rows)
  | unchunked {id : DocId} {string : String} {isChanged : Bool} {report : SkippedDoc} :
      env.unchunked? id string = some report →
      Books env vector (docOperation id isChanged string) (.error report)
  | failed {id : DocId} {string : String} {isChanged : Bool} {chunks : List Chunk} {chunk : Chunk}
      {role : EmbeddingRole} {e : String} : env.chunkText string = .ok chunks → chunk ∈ chunks →
      env.Embeds role → vector role chunk.text = .error e →
      Books env vector (docOperation id isChanged string) (.error ⟨id, retryFailed e⟩)
  | error {message : String} :
      Books env vector (.error message) (.error ⟨"unknown", s!"operation error: {message}"⟩)

namespace IngestEnv

variable {env : IngestEnv V} {vector : TextVectors V}

theorem textResult_failure? {role : EmbeddingRole} {text message : String}
    (h : (textResult vector role text).failure? = some message) :
    ∃ e, vector role text = .error e ∧ message = retryFailed e := by
  unfold textResult at h
  cases hv : vector role text with
  | ok v =>
    rw [hv] at h
    cases h
  | error e =>
    rw [hv] at h
    exact ⟨e, rfl, (Option.some.inj h).symm⟩

theorem clusteringResult_failure? {text message : String}
    (h : (env.clusteringResult vector text).failure? = some message) :
    env.storeClustering = true ∧ ∃ e, vector .clustering text = .error e ∧ message = retryFailed e := by
  unfold clusteringResult at h
  split at h
  · rename_i hstore
    exact ⟨hstore, textResult_failure? h⟩
  · cases h

/-- A result that is no failure is the vector of the text. -/
theorem embedding_of_textResult {role : EmbeddingRole} {text : String}
    (h : (textResult vector role text).failure? = none) :
    ∃ v, vector role text = .ok v ∧ (textResult vector role text).embedding? = some v := by
  unfold textResult at h ⊢
  cases hv : vector role text with
  | ok v => exact ⟨v, rfl, rfl⟩
  | error e =>
    rw [hv] at h
    cases h

theorem embedding_of_clusteringResult {text : String}
    (h : (env.clusteringResult vector text).failure? = none) :
    ∃ q, (if env.storeClustering then vector .clustering text = .ok q else q = env.zero) ∧
      (env.clusteringResult vector text).embedding? = some q := by
  unfold clusteringResult at h ⊢
  split at h
  · rename_i hstore
    obtain ⟨q, hq, hresult⟩ := embedding_of_textResult h
    exact ⟨q, by rw [if_pos hstore]; exact hq, by rw [if_pos hstore]; exact hresult⟩
  · rename_i hstore
    exact ⟨env.zero, by rw [if_neg hstore], by rw [if_neg hstore]; rfl⟩

theorem rowOf_chunks {id : DocId} (chunks : List Chunk)
    (hd : ∀ chunk ∈ chunks, (textResult vector .document chunk.text).failure? = none)
    (hq : ∀ chunk ∈ chunks, (env.clusteringResult vector chunk.text).failure? = none) :
    List.Forall₂ (env.RowOf vector id) chunks (chunkRows id chunks
      (((chunks.map fun chunk => textResult vector .document chunk.text).filterMap
        EmbedResult.embedding?).map env.l2Normalize)
      (((chunks.map fun chunk => env.clusteringResult vector chunk.text).filterMap
        EmbedResult.embedding?).map env.l2Normalize)) := by
  induction chunks with
  | nil => exact .nil
  | cons chunk chunks ih =>
    obtain ⟨v, hv, hv'⟩ := embedding_of_textResult (hd chunk List.mem_cons_self)
    obtain ⟨q, hq₁, hq'⟩ := embedding_of_clusteringResult (hq chunk List.mem_cons_self)
    have hrest := ih (fun c hc => hd c (List.mem_cons_of_mem _ hc))
      fun c hc => hq c (List.mem_cons_of_mem _ hc)
    rw [List.map_cons, List.map_cons, List.filterMap_cons_some hv', List.filterMap_cons_some hq']
    exact .cons ⟨v, q, hv, hq₁, rfl⟩ hrest

/-- A document comes out with the rows of its chunks, or with the failure of one of them. -/
theorem textOutcome_cases (env : IngestEnv V) (vector : TextVectors V) (doc : DocToEmbed) :
    (∃ rows, env.textOutcome vector doc = (doc, .ok rows) ∧
      List.Forall₂ (env.RowOf vector doc.id) doc.chunks rows) ∨
    ∃ chunk ∈ doc.chunks, ∃ role e, env.Embeds role ∧ vector role chunk.text = .error e ∧
      env.textOutcome vector doc = (doc, .error (retryFailed e)) := by
  unfold textOutcome docRows
  split
  · rename_i message hfound
    right
    obtain ⟨result, hmem, hresult⟩ := List.exists_of_findSome?_eq_some hfound
    rcases List.mem_append.mp hmem with hmem | hmem
    · obtain ⟨chunk, hchunk, rfl⟩ := List.mem_map.mp hmem
      obtain ⟨e, he, rfl⟩ := textResult_failure? hresult
      exact ⟨chunk, hchunk, .document, e, trivial, he, rfl⟩
    · obtain ⟨chunk, hchunk, rfl⟩ := List.mem_map.mp hmem
      obtain ⟨hstore, e, he, rfl⟩ := clusteringResult_failure? hresult
      exact ⟨chunk, hchunk, .clustering, e, hstore, he, rfl⟩
  · rename_i hnone
    left
    rw [List.findSome?_eq_none_iff] at hnone
    refine ⟨_, rfl, rowOf_chunks doc.chunks (fun chunk hchunk => ?_) fun chunk hchunk => ?_⟩
    · exact hnone _ (List.mem_append_left _ (List.mem_map_of_mem hchunk))
    · exact hnone _ (List.mem_append_right _ (List.mem_map_of_mem hchunk))

end IngestEnv

/-- Inserted, changed and failed documents are reported, as indexed or as skipped. -/
def Operation.isReported (op : Operation) : Bool := op.reported?.isSome

namespace Entry

variable (e : Entry V)

def rows : List (ChunkRow V) := e.toOption.getD []

def isIndexed : Bool := e.toOption.isSome

def report? : Option SkippedDoc :=
  match e with
  | .ok _ => none
  | .error report => some report

end Entry

def Embedded.entry (o : Embedded V) : Entry V :=
  match o.2 with
  | .ok rows => .ok rows
  | .error message => .error ⟨o.1.id, message⟩

/-- The entry of an operation that has one: deletions and aborts have none. -/
def IngestEnv.entry? (env : IngestEnv V) (vector : TextVectors V) (op : Operation) :
    Option (Entry V) :=
  match env.readSkip? op with
  | some report => some (.error report)
  | none => (env.batchedDoc? op).map fun doc => (env.textOutcome vector doc).entry

section Entries

variable {env : IngestEnv V} {vector : TextVectors V}

/-- A document is reported while it is read or joins the batch, never both. -/
theorem unchunked?_cases (env : IngestEnv V) (id : DocId) (string : String) (isChanged : Bool) :
    (∃ report, env.unchunked? id string = some report ∧ env.toEmbed? id string isChanged = none) ∨
    ∃ chunks, env.chunkText string = .ok chunks ∧ chunks ≠ [] ∧ env.unchunked? id string = none ∧
      env.toEmbed? id string isChanged = some ⟨id, chunks, isChanged⟩ := by
  unfold unchunked? toEmbed?
  cases htext : env.chunkText string with
  | error e => exact .inl ⟨_, rfl, rfl⟩
  | ok chunks =>
    cases chunks with
    | nil => exact .inl ⟨_, rfl, rfl⟩
    | cons chunk chunks => exact .inr ⟨_, rfl, List.cons_ne_nil _ _, rfl, rfl⟩

theorem docOperation_cases (op : Operation) :
    (∃ id string isChanged, op = docOperation id isChanged string) ∨
      (∃ message, op = .error message) ∨ op.isReported = false := by
  cases op with
  | inserted id string => exact .inl ⟨id, string, false, rfl⟩
  | changed id string => exact .inl ⟨id, string, true, rfl⟩
  | deleted id => exact .inr (.inr rfl)
  | error message => exact .inr (.inl ⟨message, rfl⟩)
  | abort => exact .inr (.inr rfl)

/-- Exactly the operations that are reported have an entry, and it is one of the books. -/
theorem entry?_cases (env : IngestEnv V) (vector : TextVectors V) (op : Operation) :
    (op.isReported = false ∧ env.entry? vector op = none ∧ env.readSkip? op = none ∧
      env.batchedDoc? op = none) ∨
    (∃ report, op.isReported = true ∧ env.entry? vector op = some (.error report) ∧
      env.readSkip? op = some report ∧ env.batchedDoc? op = none ∧
      env.Books vector op (.error report)) ∨
    ∃ doc, op.isReported = true ∧ env.entry? vector op = some (env.textOutcome vector doc).entry ∧
      env.readSkip? op = none ∧ env.batchedDoc? op = some doc ∧
      env.Books vector op (env.textOutcome vector doc).entry := by
  rcases docOperation_cases op with ⟨id, string, isChanged, rfl⟩ | ⟨message, rfl⟩ | hnone
  · have hreported : (docOperation id isChanged string).isReported = true := by
      cases isChanged <;> rfl
    unfold entry?
    rw [readSkip?_docOperation, batchedDoc?_docOperation]
    rcases unchunked?_cases env id string isChanged with
      ⟨report, hreport, hbatch⟩ | ⟨chunks, htext, hne, hreport, hbatch⟩
    · rw [hreport, hbatch]
      exact .inr (.inl ⟨report, hreported, rfl, rfl, rfl, .unchunked hreport⟩)
    · rw [hreport, hbatch]
      refine .inr (.inr ⟨_, hreported, rfl, rfl, rfl, ?_⟩)
      rcases textOutcome_cases env vector ⟨id, chunks, isChanged⟩ with
        ⟨rows, hout, hrows⟩ | ⟨chunk, hchunk, role, e, hrole, he, hout⟩
      · rw [hout]
        exact .indexed htext hne hrows
      · rw [hout]
        exact .failed htext hchunk hrole he
  · exact .inr (.inl ⟨_, rfl, rfl, rfl, rfl, .error⟩)
  · refine .inl ⟨hnone, ?_⟩
    cases op with
    | inserted id string => cases hnone
    | changed id string => cases hnone
    | deleted id => exact ⟨rfl, rfl, rfl⟩
    | error message => cases hnone
    | abort => exact ⟨rfl, rfl, rfl⟩

theorem Embedded.entry_rows (o : Embedded V) : o.entry.rows = o.rows := by
  unfold Embedded.entry Entry.rows Embedded.rows
  cases o.2 <;> rfl

theorem Embedded.entry_isIndexed (o : Embedded V) : o.entry.isIndexed = o.isIndexed := by
  unfold Embedded.entry Entry.isIndexed Embedded.isIndexed
  cases o.2 <;> rfl

theorem Embedded.entry_report? (o : Embedded V) : o.entry.report? = o.failed? := by
  unfold Embedded.entry Entry.report? Embedded.failed?
  cases o.2 <;> rfl

theorem forall₂_entries (env : IngestEnv V) (vector : TextVectors V) (ops : List Operation) :
    List.Forall₂ (env.Books vector) (ops.filter Operation.isReported)
      (ops.filterMap (env.entry? vector)) := by
  induction ops with
  | nil => exact .nil
  | cons op ops ih =>
    rcases entry?_cases env vector op with ⟨hnone, hentry, -, -⟩ | ⟨report, hsome, hentry, -, -, hop⟩ |
      ⟨doc, hsome, hentry, -, -, hop⟩
    · rw [List.filterMap_cons_none hentry, List.filter_cons_of_neg (by simp [hnone])]
      exact ih
    · rw [List.filterMap_cons_some hentry, List.filter_cons_of_pos hsome]
      exact .cons hop ih
    · rw [List.filterMap_cons_some hentry, List.filter_cons_of_pos hsome]
      exact .cons hop ih

/-- The outcomes of the documents, read off the entries. -/
theorem entries_eq (env : IngestEnv V) (vector : TextVectors V) (ops : List Operation) :
    ((ops.filterMap env.batchedDoc?).map (env.textOutcome vector)).flatMap Embedded.rows =
        (ops.filterMap (env.entry? vector)).flatMap Entry.rows ∧
      ((ops.filterMap env.batchedDoc?).map (env.textOutcome vector)).countP Embedded.isIndexed =
        (ops.filterMap (env.entry? vector)).countP Entry.isIndexed ∧
      (ops.filterMap env.readSkip? ++ ((ops.filterMap env.batchedDoc?).map
        (env.textOutcome vector)).filterMap Embedded.failed?).Perm
        ((ops.filterMap (env.entry? vector)).filterMap Entry.report?) := by
  induction ops with
  | nil => exact ⟨rfl, rfl, .refl _⟩
  | cons op ops ih =>
    obtain ⟨hrows, hindexed, hskipped⟩ := ih
    rcases entry?_cases env vector op with ⟨-, hentry, hskip, hbatch⟩ |
      ⟨report, -, hentry, hskip, hbatch, -⟩ | ⟨doc, -, hentry, hskip, hbatch, -⟩
    · rw [List.filterMap_cons_none hentry, List.filterMap_cons_none hskip,
        List.filterMap_cons_none hbatch]
      exact ⟨hrows, hindexed, hskipped⟩
    · rw [List.filterMap_cons_some hentry, List.filterMap_cons_some hskip,
        List.filterMap_cons_none hbatch, List.flatMap_cons, List.countP_cons, List.cons_append,
        List.filterMap_cons_some (show Entry.report? (.error report : Entry V) = some report from rfl)]
      exact ⟨hrows, hindexed, hskipped.cons report⟩
    · rw [List.filterMap_cons_some hentry, List.filterMap_cons_none hskip,
        List.filterMap_cons_some hbatch, List.map_cons, List.flatMap_cons, List.flatMap_cons,
        List.countP_cons, List.countP_cons, hrows, hindexed, Embedded.entry_rows,
        Embedded.entry_isIndexed]
      refine ⟨rfl, rfl, ?_⟩
      cases hfailed : (env.textOutcome vector doc).failed? with
      | none =>
        rw [List.filterMap_cons_none hfailed,
          List.filterMap_cons_none (by rw [Embedded.entry_report?, hfailed])]
        exact hskipped
      | some report =>
        rw [List.filterMap_cons_some hfailed, List.filterMap_cons_some
          (show (env.textOutcome vector doc).entry.report? = some report by
            rw [Embedded.entry_report?, hfailed])]
        exact List.perm_middle.trans (hskipped.cons report)

theorem exists_rowOf {id : DocId} {chunks : List Chunk} {rows : List (ChunkRow V)}
    (h : List.Forall₂ (env.RowOf vector id) chunks rows) {chunk : Chunk} (hchunk : chunk ∈ chunks) :
    ∃ row ∈ rows, env.RowOf vector id chunk row := by
  induction h with
  | nil => cases hchunk
  | cons hrow _ ih =>
    rcases List.mem_cons.mp hchunk with rfl | hchunk
    · exact ⟨_, List.mem_cons_self, hrow⟩
    · obtain ⟨row, hmem, hrow'⟩ := ih hchunk
      exact ⟨row, List.mem_cons_of_mem _ hmem, hrow'⟩

theorem textOutcome_isIndexed (doc : DocToEmbed) {rows : List (ChunkRow V)}
    (h : List.Forall₂ (env.RowOf vector doc.id) doc.chunks rows) :
    (env.textOutcome vector doc).isIndexed = true := by
  rcases textOutcome_cases env vector doc with ⟨rows, hout, -⟩ |
    ⟨chunk, hchunk, role, e, hrole, he, -⟩
  · rw [hout]
    rfl
  · obtain ⟨row, -, v, q, hv, hq, -⟩ := exists_rowOf h hchunk
    cases role with
    | document =>
      rw [hv] at he
      cases he
    | clustering =>
      rw [if_pos (show env.storeClustering = true from hrole), he] at hq
      cases hq
    | query => exact hrole.elim
    | classification => exact hrole.elim

/-- Each entry is counted as indexed or reported as skipped. -/
theorem countP_add_reports (entries : List (Entry V)) :
    entries.countP Entry.isIndexed + (entries.filterMap Entry.report?).length = entries.length := by
  induction entries with
  | nil => rfl
  | cons e entries ih =>
    cases e with
    | ok rows =>
      rw [List.countP_cons_of_pos (show Entry.isIndexed (.ok rows : Entry V) = true from rfl),
        List.filterMap_cons_none (show Entry.report? (.ok rows : Entry V) = none from rfl),
        List.length_cons]
      omega
    | error report =>
      rw [List.countP_cons_of_neg
          (show ¬ Entry.isIndexed (.error report : Entry V) = true from Bool.false_ne_true),
        List.filterMap_cons_some (show Entry.report? (.error report : Entry V) = some report from rfl),
        List.length_cons, List.length_cons]
      omega

/-- The books of a push: an entry for each inserted, changed or failed document, in order. -/
structure IngestEnv.Booked (env : IngestEnv V) (vector : TextVectors V) (ops : List Operation)
    (entries : List (Entry V)) (c : Collected V) : Prop where
  books : List.Forall₂ (env.Books vector) (ops.filter Operation.isReported) entries
  rows : c.rows = entries.flatMap Entry.rows
  indexed : c.indexed = entries.countP Entry.isIndexed
  skipped : c.skipped.Perm (entries.filterMap Entry.report?)
  deleteIds : ∀ id, id ∈ c.deleteIds ↔ .deleted id ∈ ops ∨
    ∃ string rows, .changed id string ∈ ops ∧ env.Books vector (.changed id string) (.ok rows)

theorem IngestEnv.Booked.length {ops : List Operation} {entries : List (Entry V)} {c : Collected V}
    (h : env.Booked vector ops entries c) :
    c.indexed + c.skipped.length = ops.countP Operation.isReported := by
  rw [h.indexed, h.skipped.length_eq, countP_add_reports, ← h.books.length_eq,
    List.countP_eq_length_filter]

/-- A changed document that has its rows in the books is replaced. -/
theorem books_changed_ok {id : DocId} {string : String} :
    (∃ rows, env.Books vector (.changed id string) (.ok rows)) ↔
      ∃ doc, env.batchedDoc? (.changed id string) = some doc ∧ doc.id = id ∧ doc.isChanged = true ∧
        (env.textOutcome vector doc).isIndexed = true := by
  constructor
  · rintro ⟨rows, hbooks⟩
    generalize hop : Operation.changed id string = op at hbooks
    generalize hentry : (Except.ok rows : Entry V) = e at hbooks
    cases hbooks with
    | @indexed id' string' isChanged chunks rows' htext hne hrows =>
      cases isChanged with
      | false => cases hop
      | true =>
        obtain ⟨rfl, rfl⟩ := Operation.changed.inj hop
        refine ⟨⟨id, chunks, true⟩, ?_, rfl, rfl, ?_⟩
        · rcases unchunked?_cases env id string true with ⟨report, hreport, -⟩ |
            ⟨chunks', htext', -, -, hbatch⟩
          · unfold unchunked? at hreport
            rw [htext] at hreport
            simp [hne] at hreport
          · obtain rfl := Except.ok.inj (htext.symm.trans htext')
            exact hbatch
        · exact textOutcome_isIndexed ⟨id, chunks, true⟩ hrows
    | unchunked _ => cases hentry
    | failed _ _ _ _ => cases hentry
    | error => cases hentry
  · rintro ⟨doc, hbatch, rfl, -, hindexed⟩
    rcases entry?_cases env vector (.changed doc.id string) with ⟨-, -, -, hnone⟩ |
      ⟨report, -, -, -, hnone, -⟩ | ⟨doc', -, -, -, hbatch', hbooks⟩
    · rw [hnone] at hbatch
      cases hbatch
    · rw [hnone] at hbatch
      cases hbatch
    · obtain rfl := Option.some.inj (hbatch.symm.trans hbatch')
      rw [← Embedded.entry_isIndexed] at hindexed
      cases hentry : (env.textOutcome vector doc).entry with
      | ok rows =>
        rw [hentry] at hbooks
        exact ⟨rows, hbooks⟩
      | error report =>
        rw [hentry] at hindexed
        cases hindexed

theorem entry?_of_books {id : DocId} {string : String} {rows : List (ChunkRow V)}
    (h : env.Books vector (.changed id string) (.ok rows)) :
    ∃ rows', env.entry? vector (.changed id string) = some (.ok rows') := by
  obtain ⟨doc, hbatch, -, -, hindexed⟩ := books_changed_ok.mp ⟨rows, h⟩
  rcases entry?_cases env vector (.changed id string) with ⟨-, -, -, hnone⟩ |
    ⟨report, -, -, -, hnone, -⟩ | ⟨doc', -, hentry, -, hbatch', -⟩
  · rw [hnone] at hbatch
    cases hbatch
  · rw [hnone] at hbatch
    cases hbatch
  · obtain rfl := Option.some.inj (hbatch.symm.trans hbatch')
    rw [← Embedded.entry_isIndexed] at hindexed
    rw [hentry]
    cases he : (env.textOutcome vector doc).entry with
    | ok rows' => exact ⟨rows', rfl⟩
    | error report =>
      rw [he] at hindexed
      cases hindexed

theorem toEmbed?_some {id : DocId} {string : String} {isChanged : Bool} {doc : DocToEmbed}
    (h : env.toEmbed? id string isChanged = some doc) : doc.id = id ∧ doc.isChanged = isChanged := by
  rcases unchunked?_cases env id string isChanged with ⟨report, -, hnone⟩ | ⟨chunks, -, -, -, hsome⟩
  · rw [hnone] at h
    cases h
  · rw [hsome] at h
    obtain rfl := Option.some.inj h
    exact ⟨rfl, rfl⟩

theorem batchedDoc?_changed {op : Operation} {doc : DocToEmbed} (h : env.batchedDoc? op = some doc)
    (hchanged : doc.isChanged = true) : ∃ string, op = .changed doc.id string := by
  cases op with
  | inserted id string =>
    obtain ⟨-, hfalse⟩ := toEmbed?_some h
    rw [hchanged] at hfalse
    cases hfalse
  | changed id string =>
    obtain ⟨rfl, -⟩ := toEmbed?_some h
    exact ⟨string, rfl⟩
  | deleted id => cases h
  | error message => cases h
  | abort => cases h

/-- The ids that are replaced, in terms of the operations. -/
theorem mem_replaced {ops : List Operation} {id : DocId} :
    id ∈ ((ops.filterMap env.batchedDoc?).map (env.textOutcome vector)).filterMap
        Embedded.replaced? ↔
      ∃ string rows, .changed id string ∈ ops ∧
        env.Books vector (.changed id string) (.ok rows) := by
  have hreplaced : ∀ doc : DocToEmbed, (env.textOutcome vector doc).replaced? = some id ↔
      (env.textOutcome vector doc).isIndexed = true ∧ doc.isChanged = true ∧ doc.id = id := by
    intro doc
    unfold Embedded.replaced?
    rw [Option.ite_none_right_eq_some, Bool.and_eq_true, and_assoc, Option.some.injEq]
    rfl
  constructor
  · intro hmem
    obtain ⟨out, hout, hid⟩ := List.mem_filterMap.mp hmem
    obtain ⟨doc, hdoc, rfl⟩ := List.mem_map.mp hout
    obtain ⟨op, hop, hbatch⟩ := List.mem_filterMap.mp hdoc
    obtain ⟨hindexed, hchanged, rfl⟩ := (hreplaced doc).mp hid
    obtain ⟨string, rfl⟩ := batchedDoc?_changed hbatch hchanged
    obtain ⟨rows, hbooks⟩ := books_changed_ok.mpr ⟨doc, hbatch, rfl, hchanged, hindexed⟩
    exact ⟨string, rows, hop, hbooks⟩
  · rintro ⟨string, rows, hop, hbooks⟩
    obtain ⟨doc, hbatch, hid, hchanged, hindexed⟩ := books_changed_ok.mp ⟨rows, hbooks⟩
    refine List.mem_filterMap.mpr ⟨env.textOutcome vector doc, ?_, ?_⟩
    · exact List.mem_map_of_mem (List.mem_filterMap.mpr ⟨_, hop, hbatch⟩)
    · exact (hreplaced doc).mpr ⟨hindexed, hchanged, hid⟩

theorem mem_deletedIds {ops : List Operation} {id : DocId} :
    id ∈ ops.filterMap Operation.deletedId? ↔ .deleted id ∈ ops := by
  rw [List.mem_filterMap]
  constructor
  · rintro ⟨op, hop, hid⟩
    cases op with
    | deleted id' =>
      obtain rfl := Option.some.inj hid
      exact hop
    | _ => cases hid
  · exact fun h => ⟨_, h, rfl⟩

theorem ClosedBooks.booked {ops : List Operation} {c : Collected V}
    (h : ClosedBooks env ops ((ops.filterMap env.batchedDoc?).map (env.textOutcome vector)) c) :
    env.Booked vector ops (ops.filterMap (env.entry? vector)) c := by
  obtain ⟨hrows, hindexed, hskipped⟩ := entries_eq env vector ops
  refine ⟨forall₂_entries env vector ops, h.rows.trans hrows, h.indexed.trans hindexed,
    h.skipped.trans hskipped, fun id => ?_⟩
  rw [h.deleteIds.mem_iff, List.mem_append, mem_deletedIds, mem_replaced]

theorem collectBuffered_text (h : OfText env.provider vector) {ops : List Operation}
    {c : Collected V} (hc : env.collectBuffered ops = .ok c) :
    ClosedBooks env ops ((ops.filterMap env.batchedDoc?).map (env.textOutcome vector)) c := by
  have hclosed := collectBuffered_closed hc
  rwa [embedDocs_text h] at hclosed

theorem collectStream_text (h : OfText env.provider vector) {ops : List Operation}
    {expectedDocs : Option ℕ} {c : Collected V} (hc : env.collectStream expectedDocs ops = .ok c) :
    ClosedBooks env ops ((ops.filterMap env.batchedDoc?).map (env.textOutcome vector)) c := by
  have hclosed := collectStream_closed hc
  rwa [embedGroups_text h, flatten_subBatchesOf, allBatches,
    flatten_sliceChunks (by decide : 0 < microBatchDocs)] at hclosed

end Entries

end Vectorlink
