import Vectorlink.Ranking.Least
import Vectorlink.Store.CrossNeighbours
import Vectorlink.Store.FairFusion

/-! Chunk hits of both scales in one list, as the hybrid chunk search gives them. -/
namespace Vectorlink

open Ranking

variable {V D : Type}

deriving instance DecidableEq for ChunkHit

/-- A chunk hit that says on which scale its distance is. -/
structure ScaledHit (D : Type) extends ChunkHit D where
  distanceKind : DistanceKind
deriving DecidableEq

namespace SearchEnv

section Model

variable (env : SearchEnv V D)

def displayScaled (hit : ScaledHit D) : D := env.displayDistance hit.distanceKind hit.toChunkHit

/-- The best chunk of each document by its distance, whatever the scale. -/
def bestScaled (hits : List (ScaledHit D)) : AList fun _ : DocId => ScaledHit D :=
  hits.foldl (fun best hit =>
    match best.lookup hit.docId with
    | none => best.insert hit.docId hit
    | some kept => if env.lt hit.distance kept.distance then best.insert hit.docId hit else best) ∅

def scaledDocument (snippet : Bool) (hit : ScaledHit D) : DocumentHit D :=
  ⟨⟨hit.docId, env.displayScaled hit, env.chunkInfo hit.toChunkHit snippet⟩, none, none, none⟩

/-- `dedup_chunks_to_documents`; `order` is the order in which the values of the map come. -/
def dedupScaledChunks (order : HashOrder (ScaledHit D)) (hits : List (ScaledHit D)) (snippet : Bool) :
    List (DocumentHit D) :=
  ((order.run ((env.bestScaled hits).entries.map Sigma.snd)).map
    (env.scaledDocument snippet)).insertionSort fun a b => env.nearer a.toSearchHit b.toSearchHit

/-- The vector leg of the merge: a later hit of a chunk replaces the one before. -/
def mergeVector : ℕ → AList (fun _ : DocId × Int32 => D × ScaledHit D) → List (ScaledHit D) →
    AList fun _ : DocId × Int32 => D × ScaledHit D
  | _, scores, [] => scores
  | rank, scores, hit :: hits =>
    let entry := (scores.lookup (hit.docId, hit.chunkIndex)).getD (env.zero, hit)
    mergeVector (rank + 1)
      (scores.insert (hit.docId, hit.chunkIndex) (env.add entry.1 (env.rrfTerm rank), hit)) hits

/-- The text leg of the merge: a raw cosine distance is not replaced. -/
def mergeFts : ℕ → AList (fun _ : DocId × Int32 => D × ScaledHit D) → List (ScaledHit D) →
    AList fun _ : DocId × Int32 => D × ScaledHit D
  | _, scores, [] => scores
  | rank, scores, hit :: hits =>
    let entry := (scores.lookup (hit.docId, hit.chunkIndex)).getD (env.zero, hit)
    let kept := if entry.2.distanceKind ≠ .rawCosine then hit else entry.2
    mergeFts (rank + 1)
      (scores.insert (hit.docId, hit.chunkIndex) (env.add entry.1 (env.rrfTerm rank), kept)) hits

/-- The higher score first, then by document and chunk. -/
def mergedBefore (a b : D × ScaledHit D) : Bool :=
  (((env.compare b.1 a.1).then (Ord.compare a.2.docId b.2.docId)).then
    (Ord.compare a.2.chunkIndex b.2.chunkIndex)) != .gt

def rrfMerge (order : HashOrder (D × ScaledHit D)) (vectorHits ftsHits : List (ScaledHit D)) :
    List (ScaledHit D) :=
  let scores := env.mergeFts 0 (env.mergeVector 0 ∅ vectorHits) ftsHits
  ((order.run (scores.entries.map Sigma.snd)).insertionSort fun a b => env.mergedBefore a b).map
    Prod.snd

end Model

section Spec

variable [LinearOrder D]

/-- The least distance shown for a chunk of a document. -/
def displayedDistance (env : SearchEnv V D) (hits : List (ScaledHit D)) (x : DocId) : WithTop D :=
  ((withKey (fun h => h.docId) x hits).map env.displayScaled).minimum

/-- The documents of the hits by their least displayed distance, each with a chunk at it. -/
structure ReducedTo (env : SearchEnv V D) (hits : List (ScaledHit D)) (snippet : Bool)
    (docs : List (DocumentHit D)) : Prop where
  ranking : IsRanking (env.displayedDistance hits) {x | ∃ h ∈ hits, h.docId = x}
    (docs.map fun d => d.id)
  distance : ∀ d ∈ docs, (d.distance : WithTop D) = env.displayedDistance hits d.id
  chunk : ∀ d ∈ docs, ∃ h ∈ hits, h.docId = d.id ∧ env.displayScaled h = d.distance ∧
    env.chunkInfo h.toChunkHit snippet = d.chunk

/-- The reduction gives the least displayed distance of each document, in any order of the hits. -/
def OneScale (env : SearchEnv V D) (hits : List (ScaledHit D)) : Prop :=
  ∀ order hits' snippet, hits'.Perm hits →
    ReducedTo env hits snippet (env.dedupScaledChunks order hits' snippet)

/-- A hit no farther than the others of its kind and document. -/
def NearestOfKind (hits : List (ScaledHit D)) (kind : DistanceKind) (hit : ScaledHit D) : Prop :=
  hit ∈ hits ∧ hit.distanceKind = kind ∧ ∀ other ∈ hits, other.docId = hit.docId →
    other.distanceKind = kind → hit.distance ≤ other.distance

/-- Wherever a document has chunks on both scales, the nearest ones of either scale compare as
they are shown. -/
def ScalesAgree (env : SearchEnv V D) (hits : List (ScaledHit D)) : Prop :=
  ∀ raw norm, NearestOfKind hits .rawCosine raw → NearestOfKind hits .normalised norm →
    raw.docId = norm.docId →
    (norm.distance ≤ raw.distance →
      norm.distance ≤ env.normalizedCosineFromLance raw.distance) ∧
    (raw.distance ≤ norm.distance →
      env.normalizedCosineFromLance raw.distance ≤ norm.distance)

end Spec

section Reduction

variable [LinearOrder D] {env : SearchEnv V D} {hits : List (ScaledHit D)}

theorem bestScaled_eq (henv : env.Ordered) (hits : List (ScaledHit D)) :
    env.bestScaled hits = leastPerKey (fun h => h.docId) (fun h => h.distance) hits := by
  unfold bestScaled leastPerKey
  congr 1
  funext best hit
  unfold keepLeast
  dsimp only
  cases best.lookup hit.docId with
  | none => rfl
  | some kept => simp [henv.lt]

/-- A hit that is nearest by its distance is also nearest as it is shown. -/
def ShownAsNear (env : SearchEnv V D) (hits : List (ScaledHit D)) : Prop :=
  ∀ hit ∈ hits, (∀ other ∈ hits, other.docId = hit.docId → hit.distance ≤ other.distance) →
    ∀ other ∈ hits, other.docId = hit.docId → env.displayScaled hit ≤ env.displayScaled other

theorem displayedDistance_eq_iff {x : DocId} {d : D} :
    env.displayedDistance hits x = d ↔
      (∃ h ∈ hits, h.docId = x ∧ env.displayScaled h = d) ∧
        ∀ h ∈ hits, h.docId = x → d ≤ env.displayScaled h := by
  unfold displayedDistance
  rw [List.minimum_eq_coe_iff]
  simp only [List.mem_map, mem_withKey, and_assoc]
  exact and_congr_right fun _ =>
    ⟨fun h hit hhit hx => h _ ⟨hit, hhit, hx, rfl⟩, by
      rintro h _ ⟨hit, hhit, hx, rfl⟩
      exact h hit hhit hx⟩

/-- The chunk that is kept for a document. -/
theorem of_lookup_bestScaled (henv : env.Ordered) {x : DocId} {kept : ScaledHit D}
    (h : (env.bestScaled hits).lookup x = some kept) :
    kept ∈ hits ∧ kept.docId = x ∧
      ∀ other ∈ hits, other.docId = x → kept.distance ≤ other.distance := by
  rw [bestScaled_eq henv] at h
  obtain ⟨hmem, hid⟩ := mem_of_lookup_leastPerKey h
  exact ⟨hmem, hid, fun other hother hx => least_of_lookup_leastPerKey h hother hx⟩

theorem ShownAsNear.reducedTo (henv : env.Ordered) (h : ShownAsNear env hits)
    (order : HashOrder (ScaledHit D)) {hits' : List (ScaledHit D)} (snippet : Bool)
    (hperm : hits'.Perm hits) :
    ReducedTo env hits snippet (env.dedupScaledChunks order hits' snippet) := by
  let best := env.bestScaled hits'
  let key := env.displayedDistance hits
  let found := order.run (best.entries.map Sigma.snd)
  have hfound : found.Perm (best.entries.map Sigma.snd) := order.perm _
  have hlookup : ∀ x kept, best.lookup x = some kept → kept ∈ hits ∧ kept.docId = x ∧
      key x = env.displayScaled kept := by
    intro x kept hkept
    obtain ⟨hmem, hid, hleast⟩ := of_lookup_bestScaled henv hkept
    rw [hperm.mem_iff] at hmem
    refine ⟨hmem, hid, displayedDistance_eq_iff.mpr ⟨⟨kept, hmem, hid, rfl⟩, ?_⟩⟩
    intro other hother hx
    refine h kept hmem (fun rival hrival hrx => ?_) other hother (hx.trans hid.symm)
    exact hleast rival (hperm.mem_iff.mpr hrival) (hrx.trans hid)
  have hdocs : ∀ d ∈ found.map (env.scaledDocument snippet), ∃ kept ∈ hits,
      env.scaledDocument snippet kept = d ∧ key d.id = d.distance := by
    intro d hd
    obtain ⟨kept, hkept, rfl⟩ := List.mem_map.mp hd
    obtain ⟨e, he, rfl⟩ := List.mem_map.mp (hfound.mem_iff.mp hkept)
    obtain ⟨hmem, hid, hkey⟩ := hlookup e.1 e.2 (AList.mem_lookup_iff.mpr he)
    rw [← hid] at hkey
    exact ⟨e.2, hmem, rfl, hkey⟩
  have hranking : IsRanking key {x | ∃ k c, best.lookup k = some c ∧ k = x}
      ((env.dedupScaledChunks order hits' snippet).map fun d => d.id) := by
    refine isRanking_values hfound Function.injective_id
      (fun e he => (hlookup e.1 e.2 (AList.mem_lookup_iff.mpr he)).2.1) fun a ha b hb => ?_
    obtain ⟨-, -, -, hkeya⟩ := hdocs a ha
    obtain ⟨-, -, -, hkeyb⟩ := hdocs b hb
    rw [nearer_iff henv]
    unfold BeforeEq
    rw [hkeya, hkeyb, WithTop.coe_lt_coe, WithTop.coe_inj]
  have hmem : ∀ d ∈ env.dedupScaledChunks order hits' snippet,
      d ∈ found.map (env.scaledDocument snippet) :=
    fun d hd => (List.perm_insertionSort _ _).mem_iff.mp hd
  refine ⟨⟨hranking.sorted, fun x => ?_⟩, fun d hd => ?_, fun d hd => ?_⟩
  · rw [hranking.mem]
    constructor
    · rintro ⟨k, kept, hkept, rfl⟩
      obtain ⟨hin, hid, -⟩ := hlookup k kept hkept
      exact ⟨kept, hin, hid⟩
    · rintro ⟨hit, hhit, hx⟩
      have hkept : ∃ kept, (leastPerKey (fun h : ScaledHit D => h.docId) (fun h => h.distance)
          hits').lookup x = some kept :=
        exists_lookup_leastPerKey (hperm.mem_iff.mpr hhit) hx
      obtain ⟨kept, hkept⟩ := hkept
      rw [← bestScaled_eq henv] at hkept
      exact ⟨x, kept, hkept, rfl⟩
  · obtain ⟨-, -, -, hkey⟩ := hdocs d (hmem d hd)
    exact hkey.symm
  · obtain ⟨kept, hin, rfl, -⟩ := hdocs d (hmem d hd)
    exact ⟨kept, hin, rfl, rfl, rfl⟩

/-- Put first, a hit that is nearest by its distance is the one that is kept. -/
theorem lookup_bestScaled_first (henv : env.Ordered) {hit : ScaledHit D} {rest : List (ScaledHit D)}
    (hleast : ∀ other ∈ rest, other.docId = hit.docId → hit.distance ≤ other.distance) :
    (env.bestScaled (hit :: rest)).lookup hit.docId = some hit := by
  rw [bestScaled_eq henv, lookup_leastPerKey]
  have hown : withKey (fun h : ScaledHit D => h.docId) hit.docId (hit :: rest) =
      hit :: withKey (fun h => h.docId) hit.docId rest := by
    simp [withKey]
  rw [hown]
  apply argmin_cons_of_le
  intro other hother
  obtain ⟨hmem, hid⟩ := mem_withKey.mp hother
  exact hleast other hmem hid

theorem OneScale.shownAsNear (henv : env.Ordered) (h : OneScale env hits) :
    ShownAsNear env hits := by
  intro hit hhit hleast other hother hid
  obtain ⟨before, after, rfl⟩ := List.append_of_mem hhit
  let rest := before ++ after
  have hperm : (hit :: rest).Perm (before ++ hit :: after) := List.perm_middle.symm
  have hreduced := h ⟨id, List.Perm.refl⟩ (hit :: rest) false hperm
  have hfirst : (env.bestScaled (hit :: rest)).lookup hit.docId = some hit :=
    lookup_bestScaled_first henv fun rival hrival hx =>
      hleast rival (hperm.mem_iff.mp (List.mem_cons_of_mem _ hrival)) hx
  have hdoc : env.scaledDocument false hit ∈
      env.dedupScaledChunks ⟨id, List.Perm.refl⟩ (hit :: rest) false := by
    refine (List.perm_insertionSort _ _).mem_iff.mpr (List.mem_map_of_mem ?_)
    exact List.mem_map.mpr ⟨⟨hit.docId, hit⟩, AList.mem_lookup_iff.mp hfirst, rfl⟩
  have hshown := hreduced.distance _ hdoc
  exact (displayedDistance_eq_iff.mp hshown.symm).2 other hother hid

/-- The reduction is right in any order of the hits exactly if nearness agrees with what is shown. -/
theorem oneScale_iff_shownAsNear (henv : env.Ordered) : OneScale env hits ↔ ShownAsNear env hits :=
  ⟨fun h => h.shownAsNear henv, fun h order _ snippet hperm => h.reducedTo henv order snippet hperm⟩

theorem exists_nearestOfKind {hit : ScaledHit D} (hhit : hit ∈ hits) :
    ∃ best, NearestOfKind hits hit.distanceKind best ∧ best.docId = hit.docId ∧
      best.distance ≤ hit.distance := by
  let own := hits.filter fun h => h.docId = hit.docId ∧ h.distanceKind = hit.distanceKind
  have hown : hit ∈ own := by simp [own, hhit]
  cases hbest : own.argmin fun h => h.distance with
  | none =>
    rw [List.argmin_eq_none.mp hbest] at hown
    cases hown
  | some best =>
    have hmem : best ∈ hits ∧ best.docId = hit.docId ∧ best.distanceKind = hit.distanceKind := by
      simpa [own] using List.argmin_mem hbest
    have hleast : ∀ other ∈ own, best.distance ≤ other.distance := fun other hother =>
      List.le_of_mem_argmin (f := fun h : ScaledHit D => h.distance) hother hbest
    obtain ⟨hin, hid, hkind⟩ := hmem
    refine ⟨best, ⟨hin, hkind, fun other hother hx hk => hleast other ?_⟩, hid, hleast hit hown⟩
    simp [own, hother, hx, hid, hk]

end Reduction

section Scales

variable (env : SearchEnv V ℚ) (hits : List (ScaledHit ℚ))

theorem normalizedCosineFromLance_mono {a b : ℚ} (h : a ≤ b) :
    Vectorlink.normalizedCosineFromLance a ≤ Vectorlink.normalizedCosineFromLance b := by
  unfold Vectorlink.normalizedCosineFromLance
  exact max_le_max le_rfl (min_le_min le_rfl (by linarith))

/-- On either scale a nearer chunk is not shown farther. -/
theorem displayScaled_mono {a b : ScaledHit ℚ} (hkind : a.distanceKind = b.distanceKind)
    (h : a.distance ≤ b.distance) : env.exactly.displayScaled a ≤ env.exactly.displayScaled b := by
  unfold displayScaled displayDistance
  rw [hkind]
  cases b.distanceKind with
  | rawCosine => exact normalizedCosineFromLance_mono h
  | normalised => exact h

theorem displayScaled_raw {hit : ScaledHit ℚ} (h : hit.distanceKind = .rawCosine) :
    env.exactly.displayScaled hit = env.exactly.normalizedCosineFromLance hit.distance := by
  unfold displayScaled displayDistance
  rw [h]

theorem displayScaled_normalised {hit : ScaledHit ℚ} (h : hit.distanceKind = .normalised) :
    env.exactly.displayScaled hit = hit.distance := by
  unfold displayScaled displayDistance
  rw [h]

variable {env hits}

theorem ScalesAgree.shownAsNear (h : ScalesAgree env.exactly hits) :
    ShownAsNear env.exactly hits := by
  intro hit hhit hleast other hother hid
  obtain ⟨best, hbest, hbid, hble⟩ := exists_nearestOfKind hother
  have hshown := displayScaled_mono env hbest.2.1 hble
  have hown : ∀ kind, hit.distanceKind = kind → NearestOfKind hits kind hit := fun kind hkind =>
    ⟨hhit, hkind, fun rival hrival hx _ => hleast rival hrival hx⟩
  have hnear : hit.distance ≤ best.distance := hleast best hbest.1 (hbid.trans hid)
  cases hkind : hit.distanceKind with
  | rawCosine =>
    cases hkind' : other.distanceKind with
    | rawCosine => exact displayScaled_mono env (hkind.trans hkind'.symm) (hleast other hother hid)
    | normalised =>
      rw [hkind'] at hbest
      have hagree := (h hit best (hown _ hkind) hbest (hbid.trans hid).symm).2 hnear
      rw [displayScaled_raw env hkind]
      rw [displayScaled_normalised env hbest.2.1] at hshown
      exact hagree.trans hshown
  | normalised =>
    cases hkind' : other.distanceKind with
    | rawCosine =>
      rw [hkind'] at hbest
      have hagree := (h best hit hbest (hown _ hkind) (hbid.trans hid)).1 hnear
      rw [displayScaled_normalised env hkind]
      rw [displayScaled_raw env hbest.2.1] at hshown
      exact hagree.trans hshown
    | normalised => exact displayScaled_mono env (hkind.trans hkind'.symm) (hleast other hother hid)

theorem ShownAsNear.scalesAgree (h : ShownAsNear env.exactly hits) :
    ScalesAgree env.exactly hits := by
  intro raw norm hraw hnorm hid
  have hboth : ∀ {a b : ScaledHit ℚ}, (∀ c ∈ hits, c.docId = a.docId → a.distance ≤ c.distance ∨
      b.distance ≤ c.distance) → a.distance ≤ b.distance →
      ∀ c ∈ hits, c.docId = a.docId → a.distance ≤ c.distance := by
    intro a b hkinds hle c hc hx
    rcases hkinds c hc hx with hac | hbc
    · exact hac
    · exact hle.trans hbc
  constructor
  · intro hle
    have hleast := hboth (a := norm) (b := raw) (fun c hc hx => by
      cases hkind : c.distanceKind with
      | rawCosine => exact .inr (hraw.2.2 c hc (hx.trans hid.symm) hkind)
      | normalised => exact .inl (hnorm.2.2 c hc hx hkind)) hle
    have hshown := h norm hnorm.1 hleast raw hraw.1 hid
    rwa [displayScaled_normalised env hnorm.2.1, displayScaled_raw env hraw.2.1] at hshown
  · intro hle
    have hleast := hboth (a := raw) (b := norm) (fun c hc hx => by
      cases hkind : c.distanceKind with
      | rawCosine => exact .inl (hraw.2.2 c hc hx hkind)
      | normalised => exact .inr (hnorm.2.2 c hc (hx.trans hid) hkind)) hle
    have hshown := h raw hraw.1 hleast norm hnorm.1 hid.symm
    rwa [displayScaled_raw env hraw.2.1, displayScaled_normalised env hnorm.2.1] at hshown

/-- Chunks are compared before their scales are made one: documents come out by their least
displayed distance, in any order of the hits, exactly if the nearest chunks on the two scales
compare as they are shown. -/
theorem dedupScaledChunks_oneScale_iff (env : SearchEnv V ℚ) (hits : List (ScaledHit ℚ)) :
    OneScale env.exactly hits ↔ ScalesAgree env.exactly hits := by
  rw [oneScale_iff_shownAsNear env.ordered_exactly]
  exact ⟨fun h => h.scalesAgree, fun h => h.shownAsNear⟩

end Scales

section Samples

/-- A search without rows: only its numbers are used. -/
def emptyEnv : SearchEnv Unit ℚ where
  zero := 0
  lt a b := decide (a < b)
  compare a b := Ord.compare a b
  normalizedCosineFromLance := Vectorlink.normalizedCosineFromLance
  quotient a b := (a.toNat : ℚ) / b.toNat
  vectorSearch _ _ _ _ _ := .ok []
  vectorsEqual _ _ := true
  add a b := a + b
  rrfTerm := Vectorlink.rrfTerm
  fusedDistance := Vectorlink.fusedDistance
  distanceOfScore score := 1 / (1 + score)
  fullTextSearch _ _ _ _ _ := .ok []

/-- An orthogonal chunk, found by its vector. -/
def vectorChunk : ScaledHit ℚ := ⟨⟨"doc/a", 1, 0, 2, 0, 20, "first"⟩, .rawCosine⟩

/-- A chunk that the text search found with a score of one third. -/
def textChunk : ScaledHit ℚ := ⟨⟨"doc/a", 3 / 4, 1, 2, 10, 20, "second"⟩, .normalised⟩

/-- The merge of a hybrid search has a document whose nearer chunk is not kept. -/
theorem merged_hits_two_scales :
    emptyEnv.exactly.rrfMerge ⟨id, List.Perm.refl⟩ [vectorChunk] [textChunk] =
        [vectorChunk, textChunk] ∧
      ((emptyEnv.exactly.dedupScaledChunks ⟨id, List.Perm.refl⟩ [vectorChunk, textChunk] false).map
        fun d => d.distance) = [3 / 4] ∧
      emptyEnv.exactly.displayScaled vectorChunk = 1 / 2 ∧
      ¬ OneScale emptyEnv.exactly [vectorChunk, textChunk] := by
  refine ⟨by decide +kernel, by decide +kernel, by decide +kernel, fun h => ?_⟩
  have hreduced := h ⟨id, List.Perm.refl⟩ _ false (List.Perm.refl _)
  have hdocs : emptyEnv.exactly.dedupScaledChunks ⟨id, List.Perm.refl⟩ [vectorChunk, textChunk]
      false = [emptyEnv.exactly.scaledDocument false textChunk] := by decide +kernel
  have hdistance := hreduced.distance (emptyEnv.exactly.scaledDocument false textChunk) (by
    rw [hdocs]
    exact List.mem_cons_self)
  have hleast := (displayedDistance_eq_iff.mp hdistance.symm).2 vectorChunk List.mem_cons_self rfl
  exact absurd hleast (by decide +kernel)

end Samples

end SearchEnv

end Vectorlink
