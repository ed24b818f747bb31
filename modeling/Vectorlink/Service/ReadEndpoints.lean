import Vectorlink.Service.Duplicates
import Vectorlink.Store.SearchDocuments
import Vectorlink.Store.Suggest

/-! The requests that read the snapshot of a commit: searches, suggestions, duplicates and
candidates. -/
namespace Vectorlink

open Stepwise

section Search

variable {V D : Type}

/-- What a search meets besides the store. The answer of the embedder may be without vectors. -/
structure ReadEnv (V D : Type) extends SearchEnv V D where
  searchReady : Bool
  ioEmbed : EmbeddingRole → List String → Except String (List V)
  l2Normalize : V → V

structure SearchRequest where
  text : String
  mode : SearchMode
  start : ℕ
  count : ℕ
  docTypeFilter : List String
  docIdFilter : List DocId
  snippet : Bool

structure SearchOutcome (D : Type) where
  hits : List (DocumentHit D)
  servedCommit : CommitId

def SearchRequest.query (req : SearchRequest) (mode : SearchMode) (embedding : V) :
    DocumentQuery V where
  queryEmbedding := embedding
  start := req.start
  count := req.count
  docTypeFilter := req.docTypeFilter
  docIdFilter := req.docIdFilter
  snippet := req.snippet
  queryText := req.text
  mode := mode

namespace ReadEnv

variable (env : ReadEnv V D)

/-- The first vector of the answer, normalised. -/
def embedText (role : EmbeddingRole) (text : String) : Except ServiceError V :=
  match env.ioEmbed role [text] with
  | .error e => .error (.internal s!"embedding failed: {e}")
  | .ok [] => .error (.internal "no embedding returned")
  | .ok (embedding :: _) => .ok (env.l2Normalize embedding)

variable (d : Domain V) (branch : BranchName) (commit : CommitId) (ancestors : List CommitId)
  (req : SearchRequest)

def search : Except ServiceError (SearchOutcome D) :=
  if !env.searchReady then
    .error (.unavailable "search capability not ready (embedding backend cold)")
  else
    match (resolveSearchableCommit branch commit ancestors
        (d.branchIndexes.lookup branch)).runAt d.opened with
    | .error e => .error e
    | .ok servedCommit =>
      match env.embedText .query req.text with
      | .error e => .error e
      | .ok queryEmbedding =>
        match env.searchWithOptions ((ioSnapshotFromCache servedCommit).runAt d.opened)
            (req.query req.mode queryEmbedding) with
        | .error e => .error (.internal e.text)
        | .ok hits => .ok ⟨hits, servedCommit⟩

/-- The text stands for a document, and the mode of the request does not count. -/
def similarWithText : Except ServiceError (SimilarOutcome D) :=
  if !env.searchReady then
    .error (.unavailable "search capability not ready (embedding backend cold)")
  else
    match (resolveSearchableCommit branch commit ancestors
        (d.branchIndexes.lookup branch)).runAt d.opened with
    | .error e => .error e
    | .ok servedCommit =>
      match env.embedText .document req.text with
      | .error e => .error e
      | .ok probeEmbedding =>
        match (ioSnapshotFromCache servedCommit).runAt d.opened with
        | .error e => .error (.internal e.text)
        | .ok rows =>
          match env.searchRows rows (req.query .vector probeEmbedding).toSearchQuery with
          | .error e => .error (.internal e.text)
          | .ok chunkHits =>
            let results := env.dedupChunksToDocuments chunkHits req.snippet
            .ok ⟨(results.drop req.start).take req.count, servedCommit⟩

end ReadEnv

end Search

section Suggestions

variable {V D : Type} [LinearOrder D] [Zero D]

/-- What a suggestion meets besides the store. -/
structure SuggestionEnv (V D : Type) [LinearOrder D] extends SuggestEnv D where
  searchReady : Bool
  fuel : ℕ
  fullTextSearch : List (ChunkRow V) → String → FtsSearch V D
  readError : Option StoreError

structure SuggestOutcome where
  servedCommit : CommitId
  result : SuggestResult

/-- Nothing is embedded. A suggestion may stop before it returns. -/
def SuggestionEnv.suggest (env : SuggestionEnv V D) (d : Domain V) (branch : BranchName)
    (commit : CommitId) (ancestors : List CommitId) (query : SuggestQuery) :
    Except Stop (Except ServiceError SuggestOutcome) :=
  if !env.searchReady then
    .ok (.error (.unavailable "search capability not ready (embedding backend cold)"))
  else
    match (resolveSearchableCommit branch commit ancestors
        (d.branchIndexes.lookup branch)).runAt d.opened with
    | .error e => .ok (.error e)
    | .ok servedCommit =>
      match (ioSnapshotFromCache servedCommit).runAt d.opened with
      | .error e => .ok (.error (.internal e.text))
      | .ok rows =>
        (env.ioSuggest env.fuel (env.fullTextSearch rows query.queryText) env.readError (.ok rows)
          query).map fun
          | .error e => .error (.internal e.text)
          | .ok result => .ok ⟨servedCommit, result⟩

end Suggestions

section Requests

variable {F R D : Type} [LinearOrder R] [LinearOrder D]

/-- A request for what the snapshot of a commit has, with what it meets besides the store. -/
inductive ReadRequest (F R D : Type) [LinearOrder R] [LinearOrder D] where
  | search (env : ReadEnv (List F) D) (req : SearchRequest)
  | similarText (env : ReadEnv (List F) D) (req : SearchRequest)
  | suggest (env : SuggestionEnv (List F) D) (query : SuggestQuery)
  | duplicates (env : DuplicatesEnv (List F) D) (order : HashOrder (CanonicalObservation D))
      (req : DuplicatesRequest D)
  | candidates (env : CandidatesEnv F R D) (req : CandidatesRequest D)

inductive ReadReply (F D : Type) where
  | search (result : Except ServiceError (SearchOutcome D))
  | similarText (result : Except ServiceError (SimilarOutcome D))
  | suggest (result : Except Stop (Except ServiceError SuggestOutcome))
  | duplicates (result : Except ServiceError (List (DuplicateGroup D)))
  | candidates (result : Except ServiceError (CandidatesResult F D))

variable [Zero D] [CommMagma F] [Add F] [Zero F] [One F] [Sub F] [Max F]

/-- The answer to a request at a commit, or at the nearest indexed one of its ancestors. -/
def ReadRequest.answer (d : Domain (List F)) (branch : BranchName) (commit : CommitId)
    (ancestors : List CommitId) : ReadRequest F R D → ReadReply F D
  | .search env req => .search (env.search d branch commit ancestors req)
  | .similarText env req => .similarText (env.similarWithText d branch commit ancestors req)
  | .suggest env query => .suggest (env.suggest d branch commit ancestors query)
  | .duplicates env order req => .duplicates
      (env.duplicatesWithOptions { req with ancestors := ancestors } order d branch commit)
  | .candidates env req => .candidates
      (env.candidatesGather { req with ancestors := ancestors } d branch commit)

end Requests

section Snapshot

variable {V : Type} {branch : BranchName} {commit served : CommitId} {ancestors : List CommitId}
  {cached : Option BranchIndex} {rows : List (ChunkRow V)} {ds : LanceDataset (ChunkRow V)}

/-- A request that is served has found a commit, and rows at it. -/
theorem serveRequest_ok :
    (serveRequest branch commit ancestors cached).runAt ds = .ok (served, rows) ↔
      (resolveSearchableCommit branch commit ancestors cached).runAt ds = .ok served ∧
        (ioSnapshotFromCache served).runAt ds = .ok rows := by
  unfold serveRequest
  rw [Observer.runAt_bind]
  cases hresolve : (resolveSearchableCommit branch commit ancestors cached).runAt ds with
  | error e => simp [Observer.runAt]
  | ok c =>
    simp only [Observer.runAt_bind, Except.ok.injEq]
    cases hsnapshot : (ioSnapshotFromCache c).runAt ds with
    | error e =>
      simp only [Observer.runAt, reduceCtorEq, false_iff, not_and]
      intro hc hrows
      rw [← hc, hsnapshot] at hrows
      cases hrows
    | ok rows' =>
      simp only [Observer.runAt, Except.ok.injEq, Prod.mk.injEq]
      constructor
      · rintro ⟨rfl, rfl⟩
        exact ⟨rfl, hsnapshot⟩
      · rintro ⟨rfl, hrows⟩
        exact ⟨rfl, Except.ok.inj (hsnapshot.symm.trans hrows)⟩

/-- How a request is served in a state of its domain. -/
def Domain.serves (d : Domain V) (branch : BranchName) (commit : CommitId)
    (ancestors : List CommitId) : Except ServiceError (CommitId × List (ChunkRow V)) :=
  (serveRequest branch commit ancestors (d.branchIndexes.lookup branch)).runAt d.opened

end Snapshot

section Congr

variable {F R D : Type} [LinearOrder R] [LinearOrder D] [Zero D] [CommMagma F] [Add F] [Zero F]
  [One F] [Sub F] [Max F]
variable {d d' : Domain (List F)} {branch : BranchName} {commit served : CommitId}
  {ancestors : List CommitId} {rows : List (ChunkRow (List F))}

/-- An answer depends on the domain by the commit that is served and its rows only. -/
theorem ReadRequest.answer_congr (h : d.serves branch commit ancestors = .ok (served, rows))
    (h' : d'.serves branch commit ancestors = .ok (served, rows)) (r : ReadRequest F R D) :
    r.answer d branch commit ancestors = r.answer d' branch commit ancestors := by
  obtain ⟨hresolve, hsnapshot⟩ := serveRequest_ok.mp h
  obtain ⟨hresolve', hsnapshot'⟩ := serveRequest_ok.mp h'
  cases r with
  | search env req =>
    simp only [answer, ReadEnv.search, hresolve, hresolve', hsnapshot, hsnapshot']
  | similarText env req =>
    simp only [answer, ReadEnv.similarWithText, hresolve, hresolve', hsnapshot, hsnapshot']
  | suggest env query =>
    simp only [answer, SuggestionEnv.suggest, hresolve, hresolve', hsnapshot, hsnapshot']
  | duplicates env order req =>
    simp only [answer, DuplicatesEnv.duplicatesWithOptions, hresolve, hresolve', hsnapshot,
      hsnapshot']
  | candidates env req =>
    simp only [answer, CandidatesEnv.candidatesGather, hresolve, hresolve', hsnapshot, hsnapshot']

end Congr

end Vectorlink
