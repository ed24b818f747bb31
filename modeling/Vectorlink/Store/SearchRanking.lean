import Mathlib.Data.Finset.Card
import Mathlib.Data.String.Basic
import Mathlib.Order.WithBot
import Vectorlink.Ranking.Least
import Vectorlink.Store.SearchDocuments

/-! The documents that a search lists are ranked: by the distance of their nearest chunk, or by
the fused score of their ranks in the two legs. -/
namespace Vectorlink

open Ranking

variable {V D : Type} [LinearOrder D]

/-- Comparisons are those of an order: no distance and no score is NaN. -/
structure SearchEnv.Ordered (env : SearchEnv V D) : Prop where
  lt : ∀ a b, env.lt a b = decide (a < b)
  compare : ∀ a b, env.compare a b = Ord.compare a b

/-- A document with a chunk among the hits. -/
def Found (hits : List (ChunkHit D)) : Set DocId := {x | ∃ h ∈ hits, h.docId = x}

/-- The first chunk of a document. -/
def firstHitOf (hits : List (ChunkHit D)) (x : DocId) : Option (ChunkHit D) :=
  hits.find? fun h => h.docId = x

omit [LinearOrder D] in
theorem firstHitOf_isSome {hits : List (ChunkHit D)} {x : DocId} :
    (firstHitOf hits x).isSome ↔ x ∈ Found hits := by
  simp [firstHitOf, Found]

omit [LinearOrder D] in
theorem docId_of_firstHitOf {hits : List (ChunkHit D)} {x : DocId} {h : ChunkHit D}
    (hx : firstHitOf hits x = some h) : h.docId = x := by
  have := List.find?_some hx
  simpa using this

omit [LinearOrder D] in
theorem firstHitOf_take {hits : List (ChunkHit D)} {x : DocId} {k : ℕ}
    (hx : x ∈ Found (hits.take k)) : firstHitOf (hits.take k) x = firstHitOf hits x := by
  obtain ⟨h, hh⟩ := Option.isSome_iff_exists.mp (firstHitOf_isSome.mpr hx)
  conv_rhs => rw [← List.take_append_drop k hits]
  unfold firstHitOf at hh ⊢
  rw [List.find?_append, hh, Option.some_or]

omit [LinearOrder D] in
theorem found_take_subset {hits : List (ChunkHit D)} {m n : ℕ} (h : m ≤ n) :
    Found (hits.take m) ⊆ Found (hits.take n) := by
  rintro x ⟨hit, hhit, hx⟩
  exact ⟨hit, (List.take_sublist_take_left h).subset hhit, hx⟩

omit [LinearOrder D] in
theorem found_of_take {hits : List (ChunkHit D)} {n : ℕ} : Found (hits.take n) ⊆ Found hits := by
  rintro x ⟨hit, hhit, hx⟩
  exact ⟨hit, List.mem_of_mem_take hhit, hx⟩

namespace SearchEnv

variable {env : SearchEnv V D}

section Dedup

theorem bestPerDoc_eq_leastPerKey (henv : env.Ordered) (hits : List (ChunkHit D)) :
    env.bestPerDoc hits = leastPerKey (fun h => h.docId) (fun h => h.distance) hits := by
  unfold RankEnv.bestPerDoc leastPerKey
  congr 1
  funext best hit
  unfold keepLeast
  dsimp only
  cases best.lookup hit.docId with
  | none => rfl
  | some kept => simp [henv.lt]

/-- Of chunks that come nearest first the first one of a document stays. -/
theorem lookup_bestPerDoc (henv : env.Ordered) {hits : List (ChunkHit D)}
    (hsorted : hits.Pairwise fun a b => a.distance ≤ b.distance) (x : DocId) :
    (env.bestPerDoc hits).lookup x = firstHitOf hits x := by
  have hown : (withKey (fun h : ChunkHit D => h.docId) x hits).Pairwise
      fun a b => a.distance ≤ b.distance := hsorted.filter _
  have hfirst : firstHitOf hits x = (withKey (fun h => h.docId) x hits).head? :=
    List.head?_filter.symm
  rw [bestPerDoc_eq_leastPerKey henv, lookup_leastPerKey, hfirst]
  cases hlist : withKey (fun h : ChunkHit D => h.docId) x hits with
  | nil => rfl
  | cons hit rest =>
    rw [hlist] at hown
    exact argmin_cons_of_le (List.pairwise_cons.mp hown).1

/-- The key by which a list of chunks ranks documents. -/
def hitKey (env : SearchEnv V D) (kind : DistanceKind) (hits : List (ChunkHit D)) (x : DocId) :
    WithTop D :=
  match firstHitOf hits x with
  | some h => env.displayDistance kind h
  | none => ⊤

theorem nearer_iff (henv : env.Ordered) {a b : SearchHit D} :
    env.nearer a b = true ↔ a.distance < b.distance ∨ a.distance = b.distance ∧ a.id ≤ b.id := by
  unfold RankEnv.nearer
  rw [henv.compare, bne_iff_ne, then_ne_gt_iff, compare_le_iff_le]

/-- Chunks that come nearest first give their documents in the order of their first chunks. -/
theorem isRanking_dedupDocuments (henv : env.Ordered) (kind : DistanceKind)
    {hits : List (ChunkHit D)} (hsorted : hits.Pairwise fun a b => a.distance ≤ b.distance)
    (snippet : Bool) :
    IsRanking (env.hitKey kind hits) (Found hits)
      ((env.dedupDocuments kind hits snippet).map fun h => h.id) := by
  let shown := fun hit : ChunkHit D =>
    (⟨⟨hit.docId, env.displayDistance kind hit, env.chunkInfo hit snippet⟩, none, none, none⟩ :
      DocumentHit D)
  have hentry : ∀ e ∈ (env.bestPerDoc hits).entries, firstHitOf hits e.1 = some e.2 := by
    intro e he
    rw [← lookup_bestPerDoc henv hsorted]
    exact AList.mem_lookup_iff.mpr he
  have hkey : ∀ h ∈ ((env.bestPerDoc hits).entries.map Sigma.snd).map shown,
      env.hitKey kind hits h.id = h.distance := by
    intro h hh
    obtain ⟨hit, hhit, rfl⟩ := List.mem_map.mp hh
    obtain ⟨e, he, rfl⟩ := List.mem_map.mp hhit
    have hid : e.2.docId = e.1 := docId_of_firstHitOf (hentry e he)
    unfold hitKey
    rw [show (shown e.2).id = e.1 from hid, hentry e he]
  have hranking : IsRanking (env.hitKey kind hits)
      {x | ∃ k c, (env.bestPerDoc hits).lookup k = some c ∧ k = x}
      ((env.dedupDocuments kind hits snippet).map fun h => h.id) := by
    have hlist : (env.bestPerDoc hits).entries.map (fun e => shown e.2) =
        ((env.bestPerDoc hits).entries.map Sigma.snd).map shown := by
      rw [List.map_map]
      rfl
    unfold dedupDocuments
    rw [show (env.bestPerDoc hits).entries.map _ = _ from hlist]
    refine isRanking_values (.refl _) Function.injective_id
      (fun e he => docId_of_firstHitOf (hentry e he)) fun a ha b hb => ?_
    rw [nearer_iff henv]
    unfold BeforeEq
    rw [hkey a ha, hkey b hb, WithTop.coe_lt_coe, WithTop.coe_inj]
  refine ⟨hranking.sorted, fun x => ?_⟩
  rw [hranking.mem, ← firstHitOf_isSome, ← lookup_bestPerDoc henv hsorted,
    Option.isSome_iff_exists]
  simp

omit [LinearOrder D] in
/-- The first chunks alone rank the documents they have as all chunks do. -/
theorem hitKey_take {kind : DistanceKind} {hits : List (ChunkHit D)} {k : ℕ} {x : DocId}
    (hx : x ∈ Found (hits.take k)) : env.hitKey kind (hits.take k) x = env.hitKey kind hits x := by
  unfold hitKey
  rw [firstHitOf_take hx]

end Dedup

section Fusion

/-- The documents before the first chunk of a document. -/
def docsBefore (hits : List (ChunkHit D)) (x : DocId) : Finset DocId :=
  ((hits.takeWhile fun h => h.docId ≠ x).map fun h => h.docId).toFinset

/-- A document has as many before it in a leg as there are before its first chunk. -/
def legRank (hits : List (ChunkHit D)) (x : DocId) : Option ℕ :=
  (firstHitOf hits x).map fun _ => (docsBefore hits x).card

def fusedScore (env : SearchEnv V D) (vectorHits ftsHits : List (ChunkHit D)) (x : DocId) : D :=
  let score := match legRank vectorHits x with
    | some rank => env.add env.zero (env.rrfTerm rank)
    | none => env.zero
  match legRank ftsHits x with
  | some rank => env.add score (env.rrfTerm rank)
  | none => score

omit [LinearOrder D]

def entryOf (env : SearchEnv V D) (docs : AList fun _ : DocId => FusedDoc D) (x : DocId) : FusedDoc D :=
  (docs.lookup x).getD ⟨env.zero, none, none⟩

/-- The leg has a chunk of the document already. -/
def seen (env : SearchEnv V D) (isVector : Bool) (docs : AList fun _ : DocId => FusedDoc D)
    (x : DocId) : Bool :=
  ((env.entryOf docs x).slot isVector).isSome

/-- A document that is met for the first time in a leg. -/
def absorbed (env : SearchEnv V D) (isVector : Bool) (docs : AList fun _ : DocId => FusedDoc D)
    (x : DocId) (found : ℕ × ChunkHit D) : FusedDoc D :=
  FusedDoc.setSlot isVector found
    { env.entryOf docs x with score := env.add (env.entryOf docs x).score (env.rrfTerm found.1) }

theorem slot_setSlot (isVector : Bool) (found : ℕ × ChunkHit D) (doc : FusedDoc D) :
    (doc.setSlot isVector found).slot isVector = some found := by
  cases isVector <;> rfl

theorem absorb_cons (isVector : Bool) (rank : ℕ) (docs : AList fun _ : DocId => FusedDoc D)
    (hit : ChunkHit D) (hits : List (ChunkHit D)) :
    env.absorb isVector rank docs (hit :: hits) =
      if env.seen isVector docs hit.docId then env.absorb isVector rank docs hits
      else env.absorb isVector (rank + 1)
        (docs.insert hit.docId (env.absorbed isVector docs hit.docId (rank, hit))) hits := rfl

theorem docsBefore_cons {hit : ChunkHit D} {hits : List (ChunkHit D)} {x : DocId}
    (h : hit.docId ≠ x) : docsBefore (hit :: hits) x = insert hit.docId (docsBefore hits x) := by
  simp [docsBefore, h]

theorem firstHit_cons_ne {hit : ChunkHit D} {hits : List (ChunkHit D)} {x : DocId}
    (h : hit.docId ≠ x) : firstHitOf (hit :: hits) x = firstHitOf hits x := by
  simp [firstHitOf, h]

section Meeting

variable {isVector : Bool} {docs : AList fun _ : DocId => FusedDoc D} {hit : ChunkHit D}
  {hits : List (ChunkHit D)} {x d : DocId}

theorem entryOf_insert_ne (doc : FusedDoc D) (h : d ≠ x) :
    env.entryOf (docs.insert x doc) d = env.entryOf docs d := by
  unfold entryOf
  rw [AList.lookup_insert_ne h]

theorem seen_insert_ne (doc : FusedDoc D) (h : d ≠ x) :
    env.seen isVector (docs.insert x doc) d = env.seen isVector docs d := by
  unfold seen
  rw [entryOf_insert_ne doc h]

theorem absorbed_insert_ne (doc : FusedDoc D) (h : d ≠ x) (found : ℕ × ChunkHit D) :
    env.absorbed isVector (docs.insert x doc) d found = env.absorbed isVector docs d found := by
  unfold absorbed
  rw [entryOf_insert_ne doc h]

theorem seen_insert_absorbed (found : ℕ × ChunkHit D) :
    env.seen isVector (docs.insert x (env.absorbed isVector docs x found)) x = true := by
  simp [seen, entryOf, absorbed, slot_setSlot]

/-- The documents before that the leg has not met yet. -/
def unmetBefore (env : SearchEnv V D) (isVector : Bool) (docs : AList fun _ : DocId => FusedDoc D)
    (hits : List (ChunkHit D)) (x : DocId) : Finset DocId :=
  (docsBefore hits x).filter fun d => env.seen isVector docs d = false

theorem unmetBefore_cons_of_seen (hx : hit.docId ≠ x)
    (hseen : env.seen isVector docs hit.docId = true) :
    env.unmetBefore isVector docs (hit :: hits) x = env.unmetBefore isVector docs hits x := by
  rw [unmetBefore, docsBefore_cons hx, Finset.filter_insert, if_neg (by simp [hseen]), unmetBefore]

theorem unmetBefore_of_unmet (h : ∀ d, env.seen isVector docs d = false) :
    env.unmetBefore isVector docs hits x = docsBefore hits x := by
  rw [unmetBefore, Finset.filter_true_of_mem fun d _ => h d]

/-- Of a document that is met now there is one less to meet. -/
theorem card_unmetBefore_cons (hx : hit.docId ≠ x)
    (hunmet : env.seen isVector docs hit.docId = false) (found : ℕ × ChunkHit D) :
    (env.unmetBefore isVector docs (hit :: hits) x).card =
      (env.unmetBefore isVector (docs.insert hit.docId
        (env.absorbed isVector docs hit.docId found)) hits x).card + 1 := by
  have hinsert : env.unmetBefore isVector docs (hit :: hits) x = insert hit.docId
      (env.unmetBefore isVector (docs.insert hit.docId
        (env.absorbed isVector docs hit.docId found)) hits x) := by
    ext d
    rw [unmetBefore, docsBefore_cons hx, Finset.mem_filter, Finset.mem_insert, Finset.mem_insert,
      unmetBefore, Finset.mem_filter]
    by_cases hd : d = hit.docId
    · subst hd
      simp [hunmet]
    · simp [hd, seen_insert_ne _ hd]
  rw [hinsert, Finset.card_insert_of_notMem]
  rw [unmetBefore, Finset.mem_filter, seen_insert_absorbed]
  simp

end Meeting

/-- What a leg leaves for a document: its first chunk, ranked by the documents met before. -/
theorem lookup_absorb (isVector : Bool) (rank : ℕ) (docs : AList fun _ : DocId => FusedDoc D)
    (hits : List (ChunkHit D)) (x : DocId) :
    (env.absorb isVector rank docs hits).lookup x =
      if env.seen isVector docs x then docs.lookup x
      else match firstHitOf hits x with
        | none => docs.lookup x
        | some hit => some (env.absorbed isVector docs x
            (rank + (env.unmetBefore isVector docs hits x).card, hit)) := by
  induction hits generalizing rank docs with
  | nil => simp [absorb, firstHitOf]
  | cons hit hits ih =>
    rw [absorb_cons]
    by_cases hseen : env.seen isVector docs hit.docId = true
    · rw [if_pos hseen, ih]
      by_cases hx : hit.docId = x
      · subst hx
        rw [if_pos hseen, if_pos hseen]
      · rw [firstHit_cons_ne hx, unmetBefore_cons_of_seen hx hseen]
    · rw [if_neg hseen, ih]
      by_cases hx : hit.docId = x
      · subst hx
        have hfirst : firstHitOf (hit :: hits) hit.docId = some hit := by simp [firstHitOf]
        have hnone : docsBefore (hit :: hits) hit.docId = ∅ := by simp [docsBefore]
        rw [if_pos (seen_insert_absorbed _), if_neg hseen, hfirst, unmetBefore, hnone,
          AList.lookup_insert]
        simp
      · have hne : x ≠ hit.docId := fun h => hx h.symm
        have hunmet : env.seen isVector docs hit.docId = false := by simpa using hseen
        rw [seen_insert_ne _ hne, AList.lookup_insert_ne hne, firstHit_cons_ne hx,
          card_unmetBefore_cons hx hunmet (rank, hit)]
        simp only [absorbed_insert_ne _ hne]
        rw [Nat.add_assoc, Nat.add_comm 1]

theorem legRank_eq {hits : List (ChunkHit D)} {x : DocId} {hit : ChunkHit D}
    (h : firstHitOf hits x = some hit) : legRank hits x = some (docsBefore hits x).card := by
  rw [legRank, h, Option.map_some]

theorem legRank_none {hits : List (ChunkHit D)} {x : DocId} (h : firstHitOf hits x = none) :
    legRank hits x = none := by
  rw [legRank, h, Option.map_none]

/-- The documents of the vector leg alone. -/
theorem lookup_absorb_vector (hits : List (ChunkHit D)) (x : DocId) :
    (env.absorb true 0 ∅ hits).lookup x = (firstHitOf hits x).map fun hit =>
      ⟨env.add env.zero (env.rrfTerm (docsBefore hits x).card),
        some ((docsBefore hits x).card, hit), none⟩ := by
  have hunseen : ∀ d, env.seen true ∅ d = false := fun _ => rfl
  rw [lookup_absorb, hunseen, if_neg Bool.false_ne_true]
  cases firstHitOf hits x with
  | none => rfl
  | some hit =>
    simp only [unmetBefore_of_unmet hunseen, Nat.zero_add, Option.map_some]
    rfl

theorem unseen_absorb_vector (hits : List (ChunkHit D)) (x : DocId) :
    env.seen false (env.absorb true 0 ∅ hits) x = false := by
  unfold seen entryOf
  rw [lookup_absorb_vector]
  cases firstHitOf hits x <;> rfl

/-- A fused document has its score and a chunk to show. -/
theorem lookup_fused {vectorHits ftsHits : List (ChunkHit D)} {x : DocId} {doc : FusedDoc D}
    (h : (env.absorb false 0 (env.absorb true 0 ∅ vectorHits) ftsHits).lookup x = some doc) :
    doc.score = env.fusedScore vectorHits ftsHits x ∧ (doc.vector.or doc.fts).isSome := by
  rw [lookup_absorb, unseen_absorb_vector, if_neg Bool.false_ne_true] at h
  unfold fusedScore
  cases hf : firstHitOf ftsHits x with
  | none =>
    rw [hf, lookup_absorb_vector] at h
    cases hv : firstHitOf vectorHits x with
    | none =>
      rw [hv] at h
      cases h
    | some hit =>
      rw [hv] at h
      obtain rfl := Option.some.inj h
      rw [legRank_eq hv, legRank_none hf]
      exact ⟨rfl, rfl⟩
  | some fhit =>
    rw [hf] at h
    obtain rfl := Option.some.inj h
    simp only [unmetBefore_of_unmet (unseen_absorb_vector vectorHits), Nat.zero_add]
    rw [legRank_eq hf]
    unfold absorbed entryOf
    rw [lookup_absorb_vector]
    cases hv : firstHitOf vectorHits x with
    | none =>
      rw [legRank_none hv]
      exact ⟨rfl, rfl⟩
    | some hit =>
      rw [legRank_eq hv]
      exact ⟨rfl, rfl⟩

theorem lookup_fused_isSome {vectorHits ftsHits : List (ChunkHit D)} {x : DocId} :
    ((env.absorb false 0 (env.absorb true 0 ∅ vectorHits) ftsHits).lookup x).isSome ↔
      x ∈ Found vectorHits ∪ Found ftsHits := by
  rw [lookup_absorb, unseen_absorb_vector, if_neg Bool.false_ne_true, lookup_absorb_vector,
    Set.mem_union, ← firstHitOf_isSome, ← firstHitOf_isSome]
  cases firstHitOf ftsHits x <;> cases firstHitOf vectorHits x <;> simp

end Fusion

section Fused

theorem better_iff (henv : env.Ordered) {a b : DocumentHit D} {sa sb : D}
    (ha : a.rrfScore = some sa) (hb : b.rrfScore = some sb) :
    env.better a b = true ↔ sb < sa ∨ sa = sb ∧ a.id ≤ b.id := by
  unfold better
  rw [ha, hb]
  dsimp only
  rw [henv.compare, bne_iff_ne, then_ne_gt_iff, compare_le_iff_le, eq_comm]

/-- The fused documents come by their scores, the higher one first. -/
theorem isRanking_rrfFuseDocuments (henv : env.Ordered) (vectorHits ftsHits : List (ChunkHit D))
    (snippet : Bool) :
    IsRanking (fun x => OrderDual.toDual (env.fusedScore vectorHits ftsHits x))
      (Found vectorHits ∪ Found ftsHits)
      ((env.rrfFuseDocuments vectorHits ftsHits snippet).map fun h => h.id) := by
  let fused := env.absorb false 0 (env.absorb true 0 ∅ vectorHits) ftsHits
  have hentry : ∀ e ∈ fused.entries, fused.lookup e.1 = some e.2 :=
    fun e he => AList.mem_lookup_iff.mpr he
  let docs := fused.entries.filterMap fun e => env.fusedHit snippet e.1 e.2
  have hhit : ∀ e ∈ fused.entries, ∃ h, env.fusedHit snippet e.1 e.2 = some h ∧ h.id = e.1 ∧
      h.rrfScore = some (env.fusedScore vectorHits ftsHits e.1) := by
    intro e he
    obtain ⟨hscore, hleg⟩ := lookup_fused (hentry e he)
    obtain ⟨rep, hrep⟩ := Option.isSome_iff_exists.mp hleg
    unfold fusedHit
    rw [hrep, Option.map_some]
    exact ⟨_, rfl, rfl, by rw [hscore]⟩
  have hids : docs.map (fun h => h.id) = fused.entries.map Sigma.fst := by
    rw [List.map_filterMap, ← List.filterMap_eq_map]
    refine List.filterMap_congr fun e he => ?_
    obtain ⟨h, hh, hid, -⟩ := hhit e he
    rw [hh, Option.map_some, hid]
    rfl
  have hscore : ∀ h ∈ docs, h.rrfScore = some (env.fusedScore vectorHits ftsHits h.id) := by
    intro h hh
    obtain ⟨e, he, hmap⟩ := List.mem_filterMap.mp hh
    obtain ⟨h', hh', hid, hs⟩ := hhit e he
    obtain rfl := Option.some.inj (hmap.symm.trans hh')
    rw [hs, hid]
  have hnodup : (docs.map fun h => h.id).Nodup := by
    rw [hids]
    exact fused.nodupKeys
  have hsort : (env.rrfFuseDocuments vectorHits ftsHits snippet).map (fun h => h.id) =
      (docs.map fun h => h.id).insertionSort
        (BeforeEq fun x => OrderDual.toDual (env.fusedScore vectorHits ftsHits x)) := by
    refine List.map_insertionSort _ _ _ _ fun a ha b hb => ?_
    rw [better_iff henv (hscore a ha) (hscore b hb)]
    unfold BeforeEq
    rw [OrderDual.toDual_lt_toDual, OrderDual.toDual_inj]
  have hranking := isRanking_insertionSort
    (fun x => OrderDual.toDual (env.fusedScore vectorHits ftsHits x)) hnodup
  rw [hsort]
  refine ⟨hranking.sorted, fun x => ?_⟩
  have hfound : (fused.lookup x).isSome ↔ x ∈ Found vectorHits ∪ Found ftsHits := lookup_fused_isSome
  rw [hranking.mem, hids, ← hfound, AList.lookup_isSome]
  exact Iff.rfl

end Fused

end SearchEnv

end Vectorlink
