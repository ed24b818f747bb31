import Vectorlink.IngestText
import Vectorlink.Service.Similar

/-! Every document of a push is accounted for: in the rows of the branch, or among the
skipped documents. -/
namespace Vectorlink

open Stepwise Stepwise.Program Versioned

variable {V : Type}

/-- A push that succeeded, from `d` to `s`: each reported operation has one entry, the
entries that are indexed are the appended rows and the others are the skipped documents. -/
structure PushAccounted (r : PushRequest V) (vector : TextVectors V) (b : BranchName)
    (d s : Domain V) (indexed : ℕ) (skipped : List SkippedDoc) (entries : List (Entry V))
    (deletes : List DocId) : Prop where
  books : List.Forall₂ (r.env.Books vector) (r.operations.filter Operation.isReported) entries
  rows : s.headRows b = deleteDocs deletes (d.headRows b) ++ entries.flatMap Entry.rows
  deleteIds : ∀ id, id ∈ deletes ↔ .deleted id ∈ r.operations ∨ ∃ string rows,
    .changed id string ∈ r.operations ∧ r.env.Books vector (.changed id string) (.ok rows)
  indexedDocuments : indexed = entries.countP Entry.isIndexed
  skippedDocs : skipped.Perm (entries.filterMap Entry.report?)
  total : indexed + skipped.length = r.operations.countP Operation.isReported

namespace PushRequest

variable {r : PushRequest V} {vector : TextVectors V} {d : Domain V} {b : BranchName}

theorem collect_booked (h : OfText r.env.provider vector) {c : Collected V}
    (hc : r.collect = .ok c) :
    r.env.Booked vector r.operations (r.operations.filterMap (r.env.entry? vector)) c := by
  unfold collect at hc
  split at hc
  · exact (collectBuffered_text h hc).booked
  · exact (collectStream_text h hc).booked

/-- A pipeline that succeeds has run to its end. -/
theorem pipeline_ends (hnew : r.commit ∉ d.opened.tags) {out : ℕ × List SkippedDoc}
    (h : (r.pipeline b d).result = .ok out) : r.Ends d b out (r.pipeline b d).store := by
  have hallowed : r.Allowed d b (fun _ => True) (fun _ _ => True) :=
    ⟨trivial, trivial, fun _ => trivial, fun _ _ => pushFails_true,
      fun _ _ => ⟨fun _ _ _ => trivial, fun _ => trivial, fun _ _ _ => trivial,
        fun _ _ _ => trivial⟩⟩
  exact (pipeline_spec hnew hallowed).result_ok rfl h

end PushRequest

/-- When either pipeline succeeds, each inserted or changed document is indexed, with a row
for each of its chunks in order, or skipped once, and the rows of a document stay unless an
operation deletes or replaces it. -/
theorem push_accounted (r : PushRequest V) (vector : TextVectors V) (b : BranchName)
    (d : Domain V) (hprovider : OfText r.env.provider vector) (hnew : r.commit ∉ d.opened.tags)
    {indexed : ℕ} {skipped : List SkippedDoc}
    (hok : (r.pipeline b d).result = .ok (indexed, skipped)) :
    ∃ entries deletes,
      PushAccounted r vector b d (r.pipeline b d).store indexed skipped entries deletes ∧
      ∀ id, id ∉ deletes → docRows id ((r.pipeline b d).store.headRows b) =
        docRows id (d.headRows b) ++ docRows id (entries.flatMap Entry.rows) := by
  obtain ⟨c, hc, hout, hdone⟩ := PushRequest.pipeline_ends hnew hok
  obtain ⟨rfl, rfl⟩ := Prod.mk.inj hout
  have hbooked := PushRequest.collect_booked hprovider hc
  have hrows := (hdone.shows (PushRequest.noopStart_opened d)).headRows
  rw [Collected.apply, hbooked.rows] at hrows
  refine ⟨_, c.deleteIds, ⟨hbooked.books, hrows, hbooked.deleteIds, hbooked.indexed,
    hbooked.skipped, hbooked.length⟩, fun id hid => ?_⟩
  rw [hrows, docRows_append, docRows_deleteDocs, if_neg hid]

section Samples

/-- Texts are embedded to `true` unless they are `bad`. -/
def boolVector : TextVectors Bool := fun _ text =>
  if text = "bad" then .error "rejected" else .ok true

/-- A provider that rejects a request with a bad text in it. -/
def pickyEnv (storeClustering : Bool) : PushEnv Bool where
  chunkText s := .ok [⟨0, 1, 0, 1, s⟩]
  provider _ texts := if "bad" ∈ texts then .error "rejected" else .ok (texts.map fun _ => true)
  embedBatchSize := 2
  batchSize_pos := Nat.two_pos
  storeClustering := storeClustering
  zero := false
  l2Normalize := id
  cancelled _ := false
  fails _ := false
  indexVersions _ := 1
  clusteringConfig := false

theorem pickyEnv_ofText (storeClustering : Bool) :
    OfText (pickyEnv storeClustering).provider boolVector where
  answer call texts vs h := by
    have hlen := length_of_ioEmbed h
    unfold ioEmbed at h
    split at h
    · rename_i hempty
      obtain rfl := Except.ok.inj h
      rw [List.isEmpty_iff.mp hempty]
      exact .nil
    · by_cases hbad : "bad" ∈ texts
      · simp [pickyEnv, hbad] at h
      · simp only [pickyEnv, hbad, if_false, List.length_map, ne_eq, not_true_eq_false] at h
        obtain rfl := Except.ok.inj h
        rw [List.forall₂_map_right_iff, List.forall₂_same]
        intro text htext
        have hne : text ≠ "bad" := by
          rintro rfl
          exact hbad htext
        exact if_neg hne
  alone call text := by
    unfold ioEmbed boolVector
    by_cases hbad : text = "bad"
    · simp [pickyEnv, hbad, Except.map]
    · simp [pickyEnv, hbad, Ne.symm hbad, Except.map]

/-- Document `a` as the only one of its domain. -/
def storedA (storeClustering : Bool) : Domain Bool :=
  (PushRequest.pipeline ⟨pickyEnv storeClustering, "c0", [.inserted "a" "old"], .buffered⟩
    mainBranch .fresh).store

def mixedPush (mode : PushMode) : PushRequest Bool :=
  ⟨pickyEnv true, "c1", [.inserted "b" "new", .changed "a" "bad", .error "render"], mode⟩

theorem push_accounted_mixedPush :
    ((mixedPush (.streaming none)).pipeline mainBranch (storedA true)).result =
        .ok (1, [⟨"unknown", "operation error: render"⟩,
          ⟨"a", "embedding failed after individual retry: rejected"⟩]) ∧
      ∃ entries deletes, PushAccounted (mixedPush (.streaming none)) boolVector mainBranch
        (storedA true) ((mixedPush (.streaming none)).pipeline mainBranch (storedA true)).store 1
        [⟨"unknown", "operation error: render"⟩,
          ⟨"a", "embedding failed after individual retry: rejected"⟩] entries deletes := by
  have hok : ((mixedPush (.streaming none)).pipeline mainBranch (storedA true)).result =
      .ok (1, [⟨"unknown", "operation error: render"⟩,
        ⟨"a", "embedding failed after individual retry: rejected"⟩]) := by decide +kernel
  obtain ⟨entries, deletes, h, -⟩ := push_accounted (mixedPush (.streaming none)) boolVector
    mainBranch (storedA true) (pickyEnv_ofText true) (by decide +kernel) hok
  exact ⟨hok, entries, deletes, h⟩

/-- A change of `a` that cannot be embedded, and its deletion in the same commit. -/
def failedThenDeleted : PushRequest Bool :=
  ⟨pickyEnv true, "c1", [.changed "a" "bad", .deleted "a"], .buffered⟩

/-- Without clustering the rows carry zeros in place of the clustering vectors, and a changed
document that is skipped loses its old rows to a deletion in the same push. -/
theorem push_not_accounted_plainly :
    (∃ row ∈ (storedA false).headRows mainBranch,
      boolVector .clustering row.content = .ok true ∧ row.clusteringEmbedding = false) ∧
    (failedThenDeleted.pipeline mainBranch (storedA true)).result =
      .ok (0, [⟨"a", "embedding failed after individual retry: rejected"⟩]) ∧
    (docRows "a" ((storedA true).headRows mainBranch)).length = 1 ∧
    docRows "a" ((failedThenDeleted.pipeline mainBranch (storedA true)).store.headRows
      mainBranch) = [] := by
  decide +kernel

end Samples

end Vectorlink
