import Mathlib.Algebra.Order.Field.Basic
import Mathlib.Algebra.Order.Field.Rat
import Mathlib.Tactic.FieldSimp
import Mathlib.Tactic.Linarith
import Mathlib.Tactic.Positivity
import Mathlib.Tactic.Ring
import Vectorlink.Store.SearchRanking

/-! The fusion of the two legs of a hybrid search over exact rational numbers. -/
namespace Vectorlink

open Ranking

variable {V : Type}

/-- `(d / 2.0).clamp(0.0, 1.0)`. -/
def normalizedCosineFromLance (d : ℚ) : ℚ := max 0 (min 1 (d / 2))

/-- `1.0 / (K + rank + 1.0)`. -/
def rrfTerm (rank : ℕ) : ℚ := 1 / (60 + rank + 1)

/-- One minus the part of the score that a document at the top of both legs has. -/
def fusedDistance (score : ℚ) : ℚ := max (1 - score / (2 / (60 + 1))) 0

/-- A search whose numbers are exact. -/
def SearchEnv.exactly (env : SearchEnv V ℚ) : SearchEnv V ℚ :=
  { env with
    zero := 0
    lt := fun a b => decide (a < b)
    compare := fun a b => Ord.compare a b
    normalizedCosineFromLance := Vectorlink.normalizedCosineFromLance
    quotient := fun a b => (a.toNat : ℚ) / b.toNat
    add := fun a b => a + b
    rrfTerm := Vectorlink.rrfTerm
    fusedDistance := Vectorlink.fusedDistance
    distanceOfScore := fun score => 1 / (1 + score) }

theorem SearchEnv.ordered_exactly (env : SearchEnv V ℚ) : env.exactly.Ordered where
  lt _ _ := rfl
  compare _ _ := rfl

section Numbers

theorem rrfTerm_pos (rank : ℕ) : 0 < rrfTerm rank := by
  unfold rrfTerm
  positivity

theorem rrfTerm_le (rank : ℕ) : rrfTerm rank ≤ 1 / 61 := by
  unfold rrfTerm
  have hrank : (0 : ℚ) ≤ rank := Nat.cast_nonneg rank
  exact one_div_le_one_div_of_le (by norm_num) (by linarith)

theorem rrfTerm_eq_iff {rank : ℕ} : rrfTerm rank = 1 / 61 ↔ rank = 0 := by
  constructor
  · intro h
    unfold rrfTerm at h
    rw [one_div, one_div, inv_inj] at h
    have hzero : (rank : ℚ) = 0 := by linarith
    exact_mod_cast hzero
  · rintro rfl
    unfold rrfTerm
    norm_num

theorem fusedDistance_nonneg (score : ℚ) : 0 ≤ fusedDistance score := le_max_right _ _

theorem fusedDistance_le_one {score : ℚ} (h : 0 ≤ score) : fusedDistance score ≤ 1 := by
  unfold fusedDistance
  have hpart : 0 ≤ score / (2 / (60 + 1)) := by positivity
  exact max_le (by linarith) zero_le_one

theorem fusedDistance_antitone {a b : ℚ} (h : a ≤ b) : fusedDistance b ≤ fusedDistance a := by
  unfold fusedDistance
  have hpart : a / (2 / (60 + 1)) ≤ b / (2 / (60 + 1)) := by gcongr
  exact max_le_max (by linarith) le_rfl

theorem fusedDistance_eq_zero_iff {score : ℚ} : fusedDistance score = 0 ↔ 2 / 61 ≤ score := by
  unfold fusedDistance
  rw [max_eq_right_iff, sub_nonpos, one_le_div (by norm_num)]
  norm_num

end Numbers

/-- What a leg adds to the score of a document, given its rank there. -/
def legTerm (rank : Option ℕ) : ℚ := rank.elim 0 fun rank => 1 / (61 + (rank : ℚ))

/-- The sum over the legs in which a document has a rank. -/
def scoreOfRanks (vector fts : Option ℕ) : ℚ := legTerm vector + legTerm fts

theorem rrfTerm_eq (rank : ℕ) : rrfTerm rank = 1 / (61 + rank) := by
  unfold rrfTerm
  congr 1
  ring

theorem legTerm_nonneg (leg : Option ℕ) : 0 ≤ legTerm leg := by
  cases leg with
  | none => exact le_rfl
  | some rank =>
    unfold legTerm
    rw [Option.elim_some, ← rrfTerm_eq]
    exact (rrfTerm_pos rank).le

theorem legTerm_le (leg : Option ℕ) : legTerm leg ≤ 1 / 61 := by
  cases leg with
  | none =>
    unfold legTerm
    norm_num
  | some rank =>
    unfold legTerm
    rw [Option.elim_some, ← rrfTerm_eq]
    exact rrfTerm_le rank

theorem top_of_legTerm {leg : Option ℕ} (h : legTerm leg = 1 / 61) : leg = some 0 := by
  cases leg with
  | none =>
    unfold legTerm at h
    norm_num at h
  | some rank =>
    unfold legTerm at h
    rw [Option.elim_some, ← rrfTerm_eq] at h
    rw [rrfTerm_eq_iff.mp h]

/-- Only at the top of both legs a document has the greatest score. -/
theorem top_of_scoreOfRanks {vector fts : Option ℕ} (h : 2 / 61 ≤ scoreOfRanks vector fts) :
    vector = some 0 ∧ fts = some 0 := by
  have hvector := legTerm_le vector
  have hfts := legTerm_le fts
  unfold scoreOfRanks at h
  exact ⟨top_of_legTerm (by linarith), top_of_legTerm (by linarith)⟩

namespace SearchEnv

theorem fusedScore_exactly (env : SearchEnv V ℚ) (vectorHits ftsHits : List (ChunkHit ℚ))
    (x : DocId) :
    env.exactly.fusedScore vectorHits ftsHits x =
      scoreOfRanks (legRank vectorHits x) (legRank ftsHits x) := by
  unfold fusedScore scoreOfRanks exactly legTerm
  cases legRank vectorHits x <;> cases legRank ftsHits x <;> simp [rrfTerm_eq]

section Legs

variable {W D : Type} {env : SearchEnv W D} {vectorHits ftsHits : List (ChunkHit D)}

/-- A fused document has its ranks in the two legs. -/
theorem ranks_fused {x : DocId} {doc : FusedDoc D}
    (h : (env.absorb false 0 (env.absorb true 0 ∅ vectorHits) ftsHits).lookup x = some doc) :
    doc.vector.map Prod.fst = legRank vectorHits x ∧ doc.fts.map Prod.fst = legRank ftsHits x := by
  rw [lookup_absorb, unseen_absorb_vector, if_neg Bool.false_ne_true] at h
  have hvector : ∀ doc, (env.absorb true 0 ∅ vectorHits).lookup x = some doc →
      doc.vector.map Prod.fst = legRank vectorHits x ∧ doc.fts = none := by
    intro doc hdoc
    rw [lookup_absorb_vector] at hdoc
    obtain ⟨hit, hhit, rfl⟩ := Option.map_eq_some_iff.mp hdoc
    rw [legRank_eq hhit]
    exact ⟨rfl, rfl⟩
  have hentry : (env.entryOf (env.absorb true 0 ∅ vectorHits) x).vector.map Prod.fst =
      legRank vectorHits x := by
    unfold entryOf
    cases hdoc : (env.absorb true 0 ∅ vectorHits).lookup x with
    | none =>
      rw [lookup_absorb_vector, Option.map_eq_none_iff] at hdoc
      rw [legRank_none hdoc]
      rfl
    | some doc => exact (hvector doc hdoc).1
  cases hf : firstHitOf ftsHits x with
  | none =>
    rw [hf] at h
    obtain ⟨hranks, hnone⟩ := hvector doc h
    rw [hranks, hnone, legRank_none hf]
    exact ⟨rfl, rfl⟩
  | some hit =>
    rw [hf] at h
    obtain rfl := Option.some.inj h
    simp only [unmetBefore_of_unmet (unseen_absorb_vector vectorHits), Nat.zero_add]
    rw [legRank_eq hf]
    exact ⟨hentry, rfl⟩

theorem of_mem_rrfFuseDocuments {snippet : Bool} {hit : DocumentHit D}
    (h : hit ∈ env.rrfFuseDocuments vectorHits ftsHits snippet) :
    hit.rrfScore = some (env.fusedScore vectorHits ftsHits hit.id) ∧
      hit.distance = env.fusedDistance (env.fusedScore vectorHits ftsHits hit.id) ∧
      hit.vector.map LegScore.rank = legRank vectorHits hit.id ∧
      hit.fts.map LegScore.rank = legRank ftsHits hit.id := by
  have hmem := (List.perm_insertionSort _ _).mem_iff.mp h
  obtain ⟨e, he, hhit⟩ := List.mem_filterMap.mp hmem
  have hlookup := AList.mem_lookup_iff.mpr he
  obtain ⟨hscore, -⟩ := lookup_fused hlookup
  obtain ⟨hvector, hfts⟩ := ranks_fused hlookup
  obtain ⟨rep, -, rfl⟩ := Option.map_eq_some_iff.mp hhit
  rw [← hscore, ← hvector, ← hfts, Option.map_map, Option.map_map]
  exact ⟨rfl, rfl, rfl, rfl⟩

end Legs

section FanOut

variable {D : Type}

/-- The same hits with further chunks of documents that have one before. -/
inductive FannedOut (hits : List (ChunkHit D)) : List (ChunkHit D) → Prop where
  | same : FannedOut hits hits
  | insert {before after : List (ChunkHit D)} {hit : ChunkHit D} :
      FannedOut hits (before ++ after) → hit.docId ∈ Found before →
      FannedOut hits (before ++ hit :: after)

theorem docsBefore_append_of_found {before after : List (ChunkHit D)} {x : DocId}
    (h : x ∈ Found before) : docsBefore (before ++ after) x = docsBefore before x := by
  induction before with
  | nil =>
    obtain ⟨hit, hmem, -⟩ := h
    cases hmem
  | cons hit before ih =>
    by_cases hx : hit.docId = x
    · simp [docsBefore, hx]
    · have hfound : x ∈ Found before := by
        obtain ⟨other, hmem, hother⟩ := h
        rcases List.mem_cons.mp hmem with rfl | hmem
        · exact absurd hother hx
        · exact ⟨other, hmem, hother⟩
      rw [List.cons_append, docsBefore_cons hx, docsBefore_cons hx, ih hfound]

theorem docsBefore_append_of_notFound {before after : List (ChunkHit D)} {x : DocId}
    (h : x ∉ Found before) :
    docsBefore (before ++ after) x = (before.map fun h => h.docId).toFinset ∪ docsBefore after x := by
  unfold docsBefore
  rw [List.takeWhile_append_of_pos fun hit hhit => ?_, List.map_append, List.toFinset_append]
  simp only [ne_eq, decide_eq_true_eq]
  exact fun hx => h ⟨hit, hhit, hx⟩

/-- A further chunk of a document moves no document. -/
theorem legRank_insert {before after : List (ChunkHit D)} {hit : ChunkHit D}
    (h : hit.docId ∈ Found before) (x : DocId) :
    legRank (before ++ hit :: after) x = legRank (before ++ after) x := by
  have hdocs : docsBefore (before ++ hit :: after) x = docsBefore (before ++ after) x := by
    by_cases hx : x ∈ Found before
    · rw [docsBefore_append_of_found hx, docsBefore_append_of_found hx]
    · have hne : hit.docId ≠ x := by
        rintro rfl
        exact hx h
      have hmem : hit.docId ∈ (before.map fun h => h.docId).toFinset := by
        rw [List.mem_toFinset, List.mem_map]
        exact h
      rw [docsBefore_append_of_notFound hx, docsBefore_append_of_notFound hx, docsBefore_cons hne,
        Finset.union_insert, Finset.insert_eq_of_mem (Finset.mem_union_left _ hmem)]
  have hfound : (firstHitOf (before ++ hit :: after) x).isSome =
      (firstHitOf (before ++ after) x).isSome := by
    rw [Bool.eq_iff_iff, firstHitOf_isSome, firstHitOf_isSome]
    obtain ⟨first, hfirst, hid⟩ := h
    constructor
    · rintro ⟨other, hmem, hx⟩
      rcases List.mem_append.mp hmem with hmem | hmem
      · exact ⟨other, List.mem_append_left _ hmem, hx⟩
      · rcases List.mem_cons.mp hmem with rfl | hmem
        · exact ⟨first, List.mem_append_left _ hfirst, hid.trans hx⟩
        · exact ⟨other, List.mem_append_right _ hmem, hx⟩
    · rintro ⟨other, hmem, hx⟩
      rcases List.mem_append.mp hmem with hmem | hmem
      · exact ⟨other, List.mem_append_left _ hmem, hx⟩
      · exact ⟨other, List.mem_append_right _ (List.mem_cons_of_mem _ hmem), hx⟩
  cases hnew : firstHitOf (before ++ hit :: after) x with
  | none =>
    rw [hnew] at hfound
    have hold : firstHitOf (before ++ after) x = none := by
      rw [← Option.not_isSome_iff_eq_none, ← hfound]
      exact Bool.false_ne_true
    rw [legRank_none hnew, legRank_none hold]
  | some first =>
    rw [hnew] at hfound
    obtain ⟨old, hold⟩ := Option.isSome_iff_exists.mp hfound.symm
    rw [legRank_eq hnew, legRank_eq hold, hdocs]

theorem mem_found_iff_legRank {hits : List (ChunkHit D)} {x : DocId} :
    x ∈ Found hits ↔ (legRank hits x).isSome := by
  rw [← firstHitOf_isSome]
  unfold legRank
  rw [Option.isSome_map]

theorem FannedOut.legRank_eq {hits hits' : List (ChunkHit D)} (h : FannedOut hits hits')
    (x : DocId) : legRank hits' x = legRank hits x := by
  induction h with
  | same => rfl
  | insert _ hfound ih => rw [legRank_insert hfound, ih]

theorem FannedOut.found_eq {hits hits' : List (ChunkHit D)} (h : FannedOut hits hits') :
    Found hits' = Found hits := by
  ext x
  rw [mem_found_iff_legRank, mem_found_iff_legRank, h.legRank_eq]

end FanOut

/-- What a fusion of two legs is to give. -/
structure FairlyFused (vectorHits ftsHits : List (ChunkHit ℚ)) (docs : List (DocumentHit ℚ)) :
    Prop where
  nodup : (docs.map fun d => d.id).Nodup
  mem : ∀ x, (∃ d ∈ docs, d.id = x) ↔ x ∈ Found vectorHits ∪ Found ftsHits
  ranks : ∀ d ∈ docs, d.vector.map LegScore.rank = legRank vectorHits d.id ∧
    d.fts.map LegScore.rank = legRank ftsHits d.id
  score : ∀ d ∈ docs,
    d.rrfScore = some (scoreOfRanks (legRank vectorHits d.id) (legRank ftsHits d.id))
  sorted : docs.Pairwise fun a b => b.rrfScore.getD 0 < a.rrfScore.getD 0 ∨
    a.rrfScore.getD 0 = b.rrfScore.getD 0 ∧ a.id < b.id
  bounded : ∀ d ∈ docs, 0 ≤ d.distance ∧ d.distance ≤ 1
  top : ∀ d ∈ docs, d.distance = 0 →
    d.vector.map LegScore.rank = some 0 ∧ d.fts.map LegScore.rank = some 0
  nearestFirst : docs.Pairwise fun a b => a.distance ≤ b.distance

section Fair

variable (env : SearchEnv V ℚ) (vectorHits ftsHits : List (ChunkHit ℚ)) (snippet : Bool)

theorem exactly_of_mem {d : DocumentHit ℚ}
    (h : d ∈ env.exactly.rrfFuseDocuments vectorHits ftsHits snippet) :
    d.rrfScore = some (scoreOfRanks (legRank vectorHits d.id) (legRank ftsHits d.id)) ∧
      d.distance = Vectorlink.fusedDistance
        (scoreOfRanks (legRank vectorHits d.id) (legRank ftsHits d.id)) ∧
      d.vector.map LegScore.rank = legRank vectorHits d.id ∧
      d.fts.map LegScore.rank = legRank ftsHits d.id := by
  have hfacts := of_mem_rrfFuseDocuments h
  rw [fusedScore_exactly] at hfacts
  exact hfacts

theorem fairlyFused_exactly :
    FairlyFused vectorHits ftsHits (env.exactly.rrfFuseDocuments vectorHits ftsHits snippet) := by
  have hranking := isRanking_rrfFuseDocuments env.ordered_exactly vectorHits ftsHits snippet
  have hfacts := fun d hd => exactly_of_mem env vectorHits ftsHits snippet (d := d) hd
  have hsorted : (env.exactly.rrfFuseDocuments vectorHits ftsHits snippet).Pairwise fun a b =>
      b.rrfScore.getD 0 < a.rrfScore.getD 0 ∨
        a.rrfScore.getD 0 = b.rrfScore.getD 0 ∧ a.id < b.id := by
    have hkeys := List.pairwise_map.mp hranking.sorted
    refine hkeys.imp_of_mem fun {a b} ha hb hab => ?_
    unfold Before at hab
    dsimp only at hab
    rw [fusedScore_exactly, fusedScore_exactly, OrderDual.toDual_lt_toDual,
      OrderDual.toDual_inj] at hab
    rw [(hfacts a ha).1, (hfacts b hb).1, Option.getD_some, Option.getD_some]
    exact hab
  refine ⟨hranking.nodup, fun x => ?_, fun d hd => (hfacts d hd).2.2, fun d hd => (hfacts d hd).1,
    hsorted, fun d hd => ?_, fun d hd hzero => ?_, ?_⟩
  · rw [← hranking.mem, List.mem_map]
  · rw [(hfacts d hd).2.1]
    have hnonneg : 0 ≤ scoreOfRanks (legRank vectorHits d.id) (legRank ftsHits d.id) :=
      add_nonneg (legTerm_nonneg _) (legTerm_nonneg _)
    exact ⟨fusedDistance_nonneg _, fusedDistance_le_one hnonneg⟩
  · obtain ⟨-, hdistance, hvector, hfts⟩ := hfacts d hd
    rw [hdistance, fusedDistance_eq_zero_iff] at hzero
    rw [hvector, hfts]
    exact top_of_scoreOfRanks hzero
  · refine hsorted.imp_of_mem fun {a b} ha hb hab => ?_
    rw [(hfacts a ha).1, (hfacts b hb).1, Option.getD_some, Option.getD_some] at hab
    rw [(hfacts a ha).2.1, (hfacts b hb).2.1]
    rcases hab with hlt | ⟨heq, -⟩
    · exact fusedDistance_antitone hlt.le
    · exact fusedDistance_antitone heq.ge

/-- What the fusion says of a document besides the chunk that it shows. -/
def standing (d : DocumentHit ℚ) : DocId × Option ℕ × Option ℕ × Option ℚ × ℚ :=
  (d.id, d.vector.map LegScore.rank, d.fts.map LegScore.rank, d.rrfScore, d.distance)

/-- The standing that the two legs give to a document. -/
def standingOf (vectorHits ftsHits : List (ChunkHit ℚ)) (x : DocId) :
    DocId × Option ℕ × Option ℕ × Option ℚ × ℚ :=
  (x, legRank vectorHits x, legRank ftsHits x,
    some (scoreOfRanks (legRank vectorHits x) (legRank ftsHits x)),
    Vectorlink.fusedDistance (scoreOfRanks (legRank vectorHits x) (legRank ftsHits x)))

theorem map_standing :
    (env.exactly.rrfFuseDocuments vectorHits ftsHits snippet).map standing =
      ((env.exactly.rrfFuseDocuments vectorHits ftsHits snippet).map fun d => d.id).map
        (standingOf vectorHits ftsHits) := by
  rw [List.map_map]
  refine List.map_congr_left fun d hd => ?_
  obtain ⟨hscore, hdistance, hvector, hfts⟩ := exactly_of_mem env vectorHits ftsHits snippet hd
  unfold standing
  rw [hscore, hdistance, hvector, hfts]
  rfl

/-- Hybrid search is fair: the documents of the two legs come by the sum of their reciprocal
ranks, and further chunks of a document move neither it nor another one. -/
theorem rrfFuseDocuments_fair :
    FairlyFused vectorHits ftsHits (env.exactly.rrfFuseDocuments vectorHits ftsHits snippet) ∧
      ∀ vectorHits' ftsHits', FannedOut vectorHits vectorHits' → FannedOut ftsHits ftsHits' →
        (env.exactly.rrfFuseDocuments vectorHits' ftsHits' snippet).map standing =
          (env.exactly.rrfFuseDocuments vectorHits ftsHits snippet).map standing := by
  refine ⟨fairlyFused_exactly env vectorHits ftsHits snippet,
    fun vectorHits' ftsHits' hvector hfts => ?_⟩
  have hranking := isRanking_rrfFuseDocuments env.ordered_exactly vectorHits ftsHits snippet
  have hranking' := isRanking_rrfFuseDocuments env.ordered_exactly vectorHits' ftsHits' snippet
  have hkey : (fun x => OrderDual.toDual (env.exactly.fusedScore vectorHits' ftsHits' x)) =
      fun x => OrderDual.toDual (env.exactly.fusedScore vectorHits ftsHits x) := by
    funext x
    rw [fusedScore_exactly, fusedScore_exactly, hvector.legRank_eq, hfts.legRank_eq]
  have hfound : Found vectorHits' ∪ Found ftsHits' = Found vectorHits ∪ Found ftsHits := by
    rw [hvector.found_eq, hfts.found_eq]
  rw [hkey, hfound] at hranking'
  have hsame : standingOf vectorHits' ftsHits' = standingOf vectorHits ftsHits := by
    funext x
    unfold standingOf
    rw [hvector.legRank_eq, hfts.legRank_eq]
  rw [map_standing, map_standing, hranking'.unique hranking, hsame]

end Fair

end SearchEnv

end Vectorlink
