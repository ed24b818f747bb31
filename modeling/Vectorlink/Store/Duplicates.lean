import Mathlib.Data.Prod.Lex
import Mathlib.Data.String.Basic
import Vectorlink.Ranking.Least
import Vectorlink.Ranking.Pages
import Vectorlink.Store.CrossNeighbours

/-! Pairs of near-duplicate documents out of observations of neighbouring chunks. -/
namespace Vectorlink

open Ranking

variable {D : Type}

/-- Two neighbouring chunks by their documents, with the distance on the scale of `[0, 1]`. -/
structure NeighbourObservation (D : Type) where
  docA : DocId
  docB : DocId
  normalizedDistance : D
  contentA : Option String
  contentB : Option String
deriving DecidableEq

structure CanonicalObservation (D : Type) where
  pair : DocId × DocId
  distance : D
  snippetLo : Option String
  snippetHi : Option String

structure DuplicateMember where
  id : DocId
  snippet : Option String
deriving DecidableEq

structure DuplicateGroup (D : Type) where
  group : Vector DuplicateMember 2
  distance : D
deriving DecidableEq

section Model

def canonicalObservation (obs : NeighbourObservation D) : CanonicalObservation D :=
  if obs.docA ≤ obs.docB then
    ⟨(obs.docA, obs.docB), obs.normalizedDistance, obs.contentA, obs.contentB⟩
  else
    ⟨(obs.docB, obs.docA), obs.normalizedDistance, obs.contentB, obs.contentA⟩

def CanonicalObservation.toGroup (obs : CanonicalObservation D) : DuplicateGroup D :=
  ⟨#v[⟨obs.pair.1, obs.snippetLo⟩, ⟨obs.pair.2, obs.snippetHi⟩], obs.distance⟩

variable [LinearOrder D]

/-- The observations that count, lower id first. -/
def candidateObservations (observations : List (NeighbourObservation D)) (threshold : D) :
    List (CanonicalObservation D) :=
  ((observations.filter fun obs => obs.normalizedDistance ≤ threshold).filter
    fun obs => obs.docA ≠ obs.docB).map canonicalObservation

def bestPerPair (observations : List (NeighbourObservation D)) (threshold : D) :
    AList fun _ : DocId × DocId => CanonicalObservation D :=
  leastPerKey CanonicalObservation.pair CanonicalObservation.distance
    (candidateObservations observations threshold)

/-- Nearest first, then by the ids of the members. -/
def DuplicateGroup.nearer (a b : DuplicateGroup D) : Bool :=
  (((compare a.distance b.distance).then (compare a.group[0].id b.group[0].id)).then
    (compare a.group[1].id b.group[1].id)) != .gt

/-- `order` is the order in which the values of the map come. -/
def pairsFromNeighbours (order : HashOrder (CanonicalObservation D))
    (observations : List (NeighbourObservation D)) (threshold : D) (maxPairs : ℕ) :
    List (DuplicateGroup D) :=
  (((order.run ((bestPerPair observations threshold).entries.map Sigma.snd)).map
    CanonicalObservation.toGroup).insertionSort fun a b => a.nearer b).take maxPairs

end Model

section Spec

/-- The two documents of a group; pairs are compared by the first id and then by the second. -/
def DuplicateGroup.pair (g : DuplicateGroup D) : DocId ×ₗ DocId :=
  toLex (g.group[0].id, g.group[1].id)

/-- An observation between the two documents of a pair, from either side. -/
def NeighbourObservation.Joins (obs : NeighbourObservation D) (p : DocId ×ₗ DocId) : Prop :=
  obs.docA = (ofLex p).1 ∧ obs.docB = (ofLex p).2 ∨ obs.docA = (ofLex p).2 ∧ obs.docB = (ofLex p).1

instance (obs : NeighbourObservation D) (p : DocId ×ₗ DocId) : Decidable (obs.Joins p) :=
  inferInstanceAs (Decidable (_ ∨ _))

/-- The same observation seen from the other side. -/
def NeighbourObservation.mirror (obs : NeighbourObservation D) : NeighbourObservation D :=
  ⟨obs.docB, obs.docA, obs.normalizedDistance, obs.contentB, obs.contentA⟩

/-- The same observations in another order, some of them seen from the other side. -/
def Rearranged (observations observations' : List (NeighbourObservation D)) : Prop :=
  ∃ mid, observations.Perm mid ∧
    List.Forall₂ (fun obs obs' => obs' = obs ∨ obs' = obs.mirror) mid observations'

variable [LinearOrder D]

/-- The distances within the threshold at which a pair was observed. -/
def pairDistances (observations : List (NeighbourObservation D)) (threshold : D)
    (p : DocId ×ₗ DocId) : List D :=
  (observations.filter fun obs => obs.normalizedDistance ≤ threshold ∧ obs.Joins p).map
    NeighbourObservation.normalizedDistance

/-- The least of these distances. -/
def pairDistance (observations : List (NeighbourObservation D)) (threshold : D)
    (p : DocId ×ₗ DocId) : WithTop D :=
  (pairDistances observations threshold p).minimum

/-- The pairs of distinct documents, lower id first, that were observed within the threshold. -/
def duplicatePairs (observations : List (NeighbourObservation D)) (threshold : D) :
    Set (DocId ×ₗ DocId) :=
  {p | (ofLex p).1 < (ofLex p).2 ∧
    ∃ obs ∈ observations, obs.normalizedDistance ≤ threshold ∧ obs.Joins p}

end Spec

section Pairs

variable [LinearOrder D] {observations : List (NeighbourObservation D)} {threshold : D}

theorem mem_pairDistances {p : DocId ×ₗ DocId} {d : D} :
    d ∈ pairDistances observations threshold p ↔
      ∃ obs ∈ observations, obs.normalizedDistance ≤ threshold ∧ obs.Joins p ∧
        obs.normalizedDistance = d := by
  simp [pairDistances, and_assoc]

omit [LinearOrder D] in
theorem joins_canonicalObservation (obs : NeighbourObservation D) :
    obs.Joins (toLex (canonicalObservation obs).pair) := by
  unfold canonicalObservation
  split
  · exact .inl ⟨rfl, rfl⟩
  · exact .inr ⟨rfl, rfl⟩

omit [LinearOrder D] in
theorem distance_canonicalObservation (obs : NeighbourObservation D) :
    (canonicalObservation obs).distance = obs.normalizedDistance := by
  unfold canonicalObservation
  split <;> rfl

omit [LinearOrder D] in
theorem lt_of_canonicalObservation {obs : NeighbourObservation D} (h : obs.docA ≠ obs.docB) :
    (canonicalObservation obs).pair.1 < (canonicalObservation obs).pair.2 := by
  unfold canonicalObservation
  split
  · rename_i hle
    exact lt_of_le_of_ne hle h
  · rename_i hle
    exact not_le.mp hle

omit [LinearOrder D] in
/-- Of the two orders of a pair the observation takes the one with the lower id first. -/
theorem canonicalObservation_pair_eq {obs : NeighbourObservation D} {p : DocId ×ₗ DocId}
    (hlt : (ofLex p).1 < (ofLex p).2) (hjoins : obs.Joins p) :
    (canonicalObservation obs).pair = ofLex p := by
  unfold canonicalObservation
  rcases hjoins with ⟨ha, hb⟩ | ⟨ha, hb⟩
  · rw [if_pos (by rw [ha, hb]; exact hlt.le)]
    exact Prod.ext ha hb
  · rw [if_neg (by rw [ha, hb]; exact not_le.mpr hlt)]
    exact Prod.ext hb ha

theorem mem_candidateObservations {c : CanonicalObservation D} :
    c ∈ candidateObservations observations threshold ↔
      ∃ obs ∈ observations, obs.normalizedDistance ≤ threshold ∧ obs.docA ≠ obs.docB ∧
        canonicalObservation obs = c := by
  simp [candidateObservations, and_assoc, and_left_comm]

omit [LinearOrder D] in
theorem ne_of_joins {obs : NeighbourObservation D} {p : DocId ×ₗ DocId}
    (hlt : (ofLex p).1 < (ofLex p).2) (hjoins : obs.Joins p) : obs.docA ≠ obs.docB := by
  rcases hjoins with ⟨ha, hb⟩ | ⟨ha, hb⟩
  · rw [ha, hb]
    exact hlt.ne
  · rw [ha, hb]
    exact hlt.ne'

/-- What the map holds for a pair: the least distance at which it was observed. -/
theorem lookup_bestPerPair {c : CanonicalObservation D} {p : DocId × DocId}
    (h : (bestPerPair observations threshold).lookup p = some c) :
    c.pair = p ∧ toLex p ∈ duplicatePairs observations threshold ∧
      pairDistance observations threshold (toLex p) = c.distance := by
  obtain ⟨hmem, hpair⟩ := mem_of_lookup_leastPerKey h
  obtain ⟨obs, hobs, hthreshold, hne, hcanon⟩ := mem_candidateObservations.mp hmem
  subst hpair
  have hjoins : obs.Joins (toLex c.pair) := by
    rw [← hcanon]
    exact joins_canonicalObservation obs
  have hlt : (ofLex (toLex c.pair)).1 < (ofLex (toLex c.pair)).2 := by
    rw [ofLex_toLex, ← hcanon]
    exact lt_of_canonicalObservation hne
  have hdistance : obs.normalizedDistance = c.distance := by
    rw [← hcanon, distance_canonicalObservation]
  refine ⟨rfl, ⟨hlt, obs, hobs, hthreshold, hjoins⟩, ?_⟩
  unfold pairDistance
  rw [List.minimum_eq_coe_iff]
  constructor
  · exact mem_pairDistances.mpr ⟨obs, hobs, hthreshold, hjoins, hdistance⟩
  · intro d hd
    obtain ⟨obs', hobs', hthreshold', hjoins', rfl⟩ := mem_pairDistances.mp hd
    have hother : canonicalObservation obs' ∈ candidateObservations observations threshold :=
      mem_candidateObservations.mpr ⟨obs', hobs', hthreshold', ne_of_joins hlt hjoins', rfl⟩
    have hle : c.distance ≤ (canonicalObservation obs').distance :=
      least_of_lookup_leastPerKey h hother (canonicalObservation_pair_eq hlt hjoins')
    rwa [distance_canonicalObservation] at hle

theorem exists_lookup_bestPerPair {p : DocId ×ₗ DocId}
    (h : p ∈ duplicatePairs observations threshold) :
    ∃ c, (bestPerPair observations threshold).lookup (ofLex p) = some c := by
  obtain ⟨hlt, obs, hobs, hthreshold, hjoins⟩ := h
  have hmem : canonicalObservation obs ∈ candidateObservations observations threshold :=
    mem_candidateObservations.mpr ⟨obs, hobs, hthreshold, ne_of_joins hlt hjoins, rfl⟩
  exact exists_lookup_leastPerKey hmem (canonicalObservation_pair_eq hlt hjoins)

theorem nearer_iff_beforeEq {key : DocId ×ₗ DocId → WithTop D} {a b : DuplicateGroup D}
    (ha : key a.pair = a.distance) (hb : key b.pair = b.distance) :
    a.nearer b = true ↔ BeforeEq key a.pair b.pair := by
  unfold DuplicateGroup.nearer BeforeEq
  rw [ha, hb, WithTop.coe_lt_coe, WithTop.coe_inj, bne_iff_ne, DuplicateGroup.pair,
    DuplicateGroup.pair, Prod.Lex.toLex_le_toLex]
  rw [Ordering.then_assoc, then_ne_gt_iff, then_ne_gt_iff, compare_le_iff_le]

/-- The groups before the cut: a ranking of the pairs by their distances. -/
theorem isRanking_pairs (order : HashOrder (CanonicalObservation D))
    (observations : List (NeighbourObservation D)) (threshold : D) :
    ∃ all, IsRanking (pairDistance observations threshold)
        (duplicatePairs observations threshold) all ∧
      ∀ maxPairs, (pairsFromNeighbours order observations threshold maxPairs).map
          (fun g => (g.pair, (g.distance : WithTop D))) =
        (all.take maxPairs).map fun p => (p, pairDistance observations threshold p) := by
  let best := bestPerPair observations threshold
  let key := pairDistance observations threshold
  let found := order.run (best.entries.map Sigma.snd)
  let groups := found.map CanonicalObservation.toGroup
  let sorted := groups.insertionSort fun a b => a.nearer b
  have hperm : found.Perm (best.entries.map Sigma.snd) := order.perm _
  have hentry : ∀ e ∈ best.entries, e.2.pair = e.1 ∧
      toLex e.1 ∈ duplicatePairs observations threshold ∧ key (toLex e.1) = e.2.distance :=
    fun e he => lookup_bestPerPair (AList.mem_lookup_iff.mpr he)
  have hkey : ∀ g ∈ groups, key g.pair = g.distance := by
    intro g hg
    obtain ⟨c, hc, rfl⟩ := List.mem_map.mp hg
    obtain ⟨e, he, rfl⟩ := List.mem_map.mp (hperm.mem_iff.mp hc)
    obtain ⟨hpair, -, hdistance⟩ := hentry e he
    rw [← hpair] at hdistance
    exact hdistance
  have hranking : IsRanking key {p | ∃ k c, best.lookup k = some c ∧ toLex k = p}
      (sorted.map DuplicateGroup.pair) :=
    isRanking_values hperm toLex.injective (fun e he => congrArg toLex (hentry e he).1)
      fun a ha b hb => nearer_iff_beforeEq (hkey a ha) (hkey b hb)
  refine ⟨sorted.map DuplicateGroup.pair, ⟨hranking.sorted, fun p => ?_⟩, fun maxPairs => ?_⟩
  · rw [hranking.mem]
    constructor
    · rintro ⟨k, c, hc, rfl⟩
      exact (lookup_bestPerPair hc).2.1
    · intro hp
      obtain ⟨c, hc⟩ := exists_lookup_bestPerPair hp
      exact ⟨ofLex p, c, hc, toLex_ofLex p⟩
  · rw [← List.map_take, List.map_map]
    refine List.map_congr_left fun g hg => ?_
    have hmem : g ∈ groups := (List.perm_insertionSort _ groups).mem_iff.mp (List.mem_of_mem_take hg)
    exact congrArg (Prod.mk g.pair) (hkey g hmem).symm

omit [LinearOrder D] in
theorem joins_mirror {obs : NeighbourObservation D} {p : DocId ×ₗ DocId} :
    obs.mirror.Joins p ↔ obs.Joins p := by
  unfold NeighbourObservation.Joins NeighbourObservation.mirror
  constructor
  · rintro (⟨ha, hb⟩ | ⟨ha, hb⟩)
    · exact .inr ⟨hb, ha⟩
    · exact .inl ⟨hb, ha⟩
  · rintro (⟨ha, hb⟩ | ⟨ha, hb⟩)
    · exact .inr ⟨hb, ha⟩
    · exact .inl ⟨hb, ha⟩

omit [LinearOrder D] in
theorem joins_of_sameOrMirror {obs obs' : NeighbourObservation D} {p : DocId ×ₗ DocId}
    (h : obs' = obs ∨ obs' = obs.mirror) :
    obs'.normalizedDistance = obs.normalizedDistance ∧ (obs'.Joins p ↔ obs.Joins p) := by
  rcases h with rfl | rfl
  · exact ⟨rfl, Iff.rfl⟩
  · exact ⟨rfl, joins_mirror⟩

theorem pairDistances_mirrored {mid observations' : List (NeighbourObservation D)}
    (h : List.Forall₂ (fun obs obs' => obs' = obs ∨ obs' = obs.mirror) mid observations')
    (threshold : D) (p : DocId ×ₗ DocId) :
    pairDistances mid threshold p = pairDistances observations' threshold p := by
  induction h with
  | nil => rfl
  | @cons obs obs' mid observations' hside _ ih =>
    obtain ⟨hdistance, hjoins⟩ : obs'.normalizedDistance = obs.normalizedDistance ∧
      (obs'.Joins p ↔ obs.Joins p) := joins_of_sameOrMirror hside
    unfold pairDistances at ih ⊢
    by_cases hp : obs.normalizedDistance ≤ threshold ∧ obs.Joins p
    · have hp' : obs'.normalizedDistance ≤ threshold ∧ obs'.Joins p := by
        rw [hdistance, hjoins]
        exact hp
      rw [List.filter_cons_of_pos (by simpa using hp), List.filter_cons_of_pos (by simpa using hp'),
        List.map_cons, List.map_cons, ih, hdistance]
    · have hp' : ¬ (obs'.normalizedDistance ≤ threshold ∧ obs'.Joins p) := by
        rw [hdistance, hjoins]
        exact hp
      rw [List.filter_cons_of_neg (by simpa using hp), List.filter_cons_of_neg (by simpa using hp'), ih]

/-- Neither the order nor the sides of the observations change the distances of a pair. -/
theorem pairDistances_rearranged {observations' : List (NeighbourObservation D)}
    (h : Rearranged observations observations') (threshold : D) (p : DocId ×ₗ DocId) :
    (pairDistances observations threshold p).Perm (pairDistances observations' threshold p) := by
  obtain ⟨mid, hperm, hsides⟩ := h
  rw [← pairDistances_mirrored hsides]
  exact (hperm.filter _).map _

theorem mem_duplicatePairs {p : DocId ×ₗ DocId} :
    p ∈ duplicatePairs observations threshold ↔
      (ofLex p).1 < (ofLex p).2 ∧ ∃ d, d ∈ pairDistances observations threshold p := by
  unfold duplicatePairs
  simp only [mem_pairDistances, Set.mem_ofPred_eq]
  constructor
  · rintro ⟨hlt, obs, hobs, hthreshold, hjoins⟩
    exact ⟨hlt, _, obs, hobs, hthreshold, hjoins, rfl⟩
  · rintro ⟨hlt, _, obs, hobs, hthreshold, hjoins, -⟩
    exact ⟨hlt, obs, hobs, hthreshold, hjoins⟩

/-- The groups are the nearest pairs of distinct documents, each pair once with the lower id
first and at the least distance at which it was observed within the threshold; the order and
the sides of the observations do not matter. -/
theorem pairsFromNeighbours_canonical (order : HashOrder (CanonicalObservation D))
    (observations : List (NeighbourObservation D)) (threshold : D) (maxPairs : ℕ) :
    (∃ all, IsRanking (pairDistance observations threshold)
        (duplicatePairs observations threshold) all ∧
      (pairsFromNeighbours order observations threshold maxPairs).map
          (fun g => (g.pair, (g.distance : WithTop D))) =
        (all.take maxPairs).map fun p => (p, pairDistance observations threshold p)) ∧
    ∀ order' observations', Rearranged observations observations' →
      (pairsFromNeighbours order' observations' threshold maxPairs).map
          (fun g => (g.pair, g.distance)) =
        (pairsFromNeighbours order observations threshold maxPairs).map
          fun g => (g.pair, g.distance) := by
  obtain ⟨all, hranking, hall⟩ := isRanking_pairs order observations threshold
  refine ⟨⟨all, hranking, hall maxPairs⟩, fun order' observations' hsame => ?_⟩
  obtain ⟨all', hranking', hall'⟩ := isRanking_pairs order' observations' threshold
  have hdistances := pairDistances_rearranged hsame threshold
  have hkey : pairDistance observations' threshold = pairDistance observations threshold := by
    funext p
    exact (hdistances p).minimum_eq.symm
  have hset : duplicatePairs observations' threshold = duplicatePairs observations threshold := by
    ext p
    rw [mem_duplicatePairs, mem_duplicatePairs]
    exact and_congr_right fun _ => exists_congr fun d => (hdistances p).symm.mem_iff
  rw [hkey, hset] at hranking'
  have hlists : all' = all := hranking'.unique hranking
  have hcoe := hall' maxPairs
  rw [hlists, hkey, ← hall maxPairs] at hcoe
  have hinj : Function.Injective
      (Prod.map id (fun d => (d : WithTop D)) : (DocId ×ₗ DocId) × D → _) :=
    Function.injective_id.prodMap WithTop.coe_injective
  refine List.map_injective_iff.mpr hinj ?_
  rw [List.map_map, List.map_map]
  exact hcoe

end Pairs

end Vectorlink
