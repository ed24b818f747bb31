import Vectorlink.ResolveExact

/-! Entity resolution splits the records into matched ones and those left over on either side, and
what happens to a match when a threshold is widened. -/
namespace Vectorlink

open Ranking

variable {D : Type}

section Spec

variable [LinearOrder D]

/-- Each record of the two maps is matched or left over, and the stages count the matches. -/
structure Partitions (setToTarget targetToSet : Neighbours D) (result : ResolveResult D) :
    Prop where
  set : ∀ id ∈ setToTarget, id ∈ result.setOnly ↔ ¬∃ m ∈ result.matched, m.setId = id
  target : ∀ id ∈ targetToSet, id ∈ result.targetOnly ↔ ¬∃ m ∈ result.matched, m.targetId = id
  setOnly : result.setOnly.Nodup
  targetOnly : result.targetOnly.Nodup
  count : result.stats.matchedCount = result.matched.length ∧
    result.stats.coreCount + result.stats.setExtraCount + result.stats.targetExtraCount =
      result.stats.matchedCount
  core : ((result.matched.filter fun m => m.stage = .core).map fun m => m.setId).Nodup

/-- The same options with wider thresholds, or with more of them. -/
structure Widens (options options' : ResolveOptions D) : Prop where
  k : options'.k = options.k
  oneToOne : options.tauOneToOne ≤ options'.tauOneToOne
  oneToMany : ∀ tau, options.tauOneToMany = some tau →
    ∃ tau', options'.tauOneToMany = some tau' ∧ tau ≤ tau'
  manyToOne : ∀ tau, options.tauManyToOne = some tau →
    ∃ tau', options'.tauManyToOne = some tau' ∧ tau ≤ tau'

/-- With all thresholds the result is a partition, and wider ones keep every matched pair. -/
def ResolvesMonotonically (setToTarget targetToSet : Neighbours D) (k : ℕ) : Prop :=
  ∀ (options options' : ResolveOptions D) (order order' : ResolveOrder D) (elapsedMs elapsedMs' : ℕ),
    options.k = k → Widens options options' →
    Partitions setToTarget targetToSet
        (resolve order setToTarget targetToSet options elapsedMs) ∧
      ∀ m ∈ (resolve order setToTarget targetToSet options elapsedMs).matched,
        ∃ m' ∈ (resolve order' setToTarget targetToSet options' elapsedMs').matched,
          m'.setId = m.setId ∧ m'.targetId = m.targetId

/-- Of the links under one text, in the order of the iteration, none is nearer than all links
before it of the pair that is listed first. -/
def FirstStays (l : List (Edge D)) : Prop :=
  ∀ pre y post first, l = pre ++ y :: post →
    (pre ++ [y]).find? (fun e => e.key = y.key) = some first →
    ∃ x ∈ pre ++ [y], x.setId = first.setId ∧ x.targetId = first.targetId ∧
      x.distance ≤ y.distance

end Spec

section Widening

variable [LinearOrder D] {g : MatchGraph D} {options options' : ResolveOptions D}

theorem maxActiveTau_le {c : D} (hone : options.tauOneToOne ≤ c)
    (hset : ∀ tau, options.tauOneToMany = some tau → tau ≤ c)
    (htarget : ∀ tau, options.tauManyToOne = some tau → tau ≤ c) : maxActiveTau options ≤ c := by
  unfold maxActiveTau
  cases hm : options.tauOneToMany <;> cases hn : options.tauManyToOne <;> grind

theorem Widens.maxActiveTau_le (h : Widens options options') :
    maxActiveTau options ≤ maxActiveTau options' := by
  obtain ⟨hone, hset, htarget⟩ := maxActiveTau_spec options'
  refine Vectorlink.maxActiveTau_le (h.oneToOne.trans hone) ?_ ?_
  · intro tau htau
    obtain ⟨tau', htau', hle⟩ := h.oneToMany tau htau
    exact hle.trans (hset tau' htau')
  · intro tau htau
    obtain ⟨tau', htau', hle⟩ := h.manyToOne tau htau
    exact hle.trans (htarget tau' htau')

/-- The nearest mutual edge of a record stays so when farther ones are admitted. -/
theorem MatchGraph.IsCore.widen {e : Edge D} (hcore : g.IsCore options e)
    (h : Widens options options') : g.IsCore options' e := by
  obtain ⟨⟨hedge, hnear, htop⟩, hbefore⟩ := hcore
  refine ⟨⟨hedge, hnear.trans h.oneToOne, htop⟩, ?_⟩
  rintro e' ⟨hedge', _, htop'⟩ hset
  rcases le_or_gt e'.distance options.tauOneToOne with hle | hgt
  · exact hbefore e' ⟨hedge', hle, htop'⟩ hset
  · exact .inl (hnear.trans_lt hgt)

theorem MatchGraph.IsResolved.widen {m : ResolvedMatch D} (hm : g.IsResolved options m)
    (h : Widens options options') : ∃ stage, g.IsResolved options' ⟨m.toEdge, stage⟩ := by
  by_cases hcore : g.IsCore options' m.toEdge
  · exact ⟨.core, hcore⟩
  by_cases hextra : g.IsSetExtra options' m.toEdge
  · exact ⟨.setExtra, hextra⟩
  refine ⟨.targetExtra, ?_⟩
  unfold IsResolved at hm
  cases hstage : m.stage with
  | core =>
    rw [hstage] at hm
    exact absurd (hm.widen h) hcore
  | setExtra =>
    rw [hstage] at hm
    obtain ⟨hedge, _, htop, tau, htau, hnear⟩ := hm
    obtain ⟨tau', htau', hle⟩ := h.oneToMany tau htau
    exact absurd ⟨hedge, hcore, htop, tau', htau', hnear.trans hle⟩ hextra
  | targetExtra =>
    rw [hstage] at hm
    obtain ⟨hedge, _, _, htop, tau, htau, hnear⟩ := hm
    obtain ⟨tau', htau', hle⟩ := h.manyToOne tau htau
    exact ⟨hedge, hcore, hextra, htop, tau', htau', hnear.trans hle⟩

end Widening

section Partition

variable [LinearOrder D] (order : ResolveOrder D) (setToTarget targetToSet : Neighbours D)
  (options : ResolveOptions D) (elapsedMs : ℕ)

omit [LinearOrder D] in
theorem mem_leftOver_iff {keys : List DocId} {matched : List (ResolvedMatch D)}
    {side : ResolvedMatch D → DocId} {id : DocId} (h : id ∈ keys) :
    id ∈ keys.filter (fun id => ¬(matched.map side).contains id) ↔
      ¬∃ m ∈ matched, side m = id := by
  rw [List.mem_filter, decide_eq_true_iff, List.contains_iff_mem, List.mem_map]
  exact and_iff_right h

omit [LinearOrder D] in
theorem countStage_add (matched : List (ResolvedMatch D)) :
    countStage .core matched + countStage .setExtra matched + countStage .targetExtra matched =
      matched.length := by
  induction matched with
  | nil => rfl
  | cons m rest ih =>
    unfold countStage at ih ⊢
    rw [List.countP_cons, List.countP_cons, List.countP_cons, List.length_cons]
    cases hstage : m.stage <;> simp <;> omega

theorem nodup_core_setIds :
    (((resolve order setToTarget targetToSet options elapsedMs).matched.filter fun m =>
      m.stage = .core).map fun m => m.setId).Nodup := by
  have hpairs := nodup_pairs_resolve_matched order setToTarget targetToSet options elapsedMs
  refine List.Nodup.map_on ?_ (hpairs.of_map.filter _)
  intro m hm m' hm' hset
  rw [List.mem_filter, decide_eq_true_iff, mem_resolve_matched_iff] at hm hm'
  obtain ⟨hm, hstage⟩ := hm
  obtain ⟨hm', hstage'⟩ := hm'
  unfold MatchGraph.IsResolved at hm hm'
  rw [hstage] at hm
  rw [hstage'] at hm'
  have hedge : m.toEdge = m'.toEdge :=
    eq_of_beforeEq hset (hm.2 _ hm'.1 hset.symm) (hm'.2 _ hm.1 hset)
  cases m
  cases m'
  simp_all

/-- Whatever the ids, the result is a partition. -/
theorem resolve_partitions : Partitions setToTarget targetToSet
    (resolve order setToTarget targetToSet options elapsedMs) where
  set := fun _ h => mem_leftOver_iff h
  target := fun _ h => mem_leftOver_iff h
  setOnly := setToTarget.keys_nodup.filter _
  targetOnly := targetToSet.keys_nodup.filter _
  count := ⟨rfl, countStage_add _⟩
  core := nodup_core_setIds order setToTarget targetToSet options elapsedMs

end Partition

section FirstStays

variable [LinearOrder D] {l : List (Edge D)}

theorem head?_linksUnder (tau : D) (key : String) (l : List (Edge D)) :
    (linksUnder tau key l).head? = l.find? fun e => e.distance ≤ tau ∧ e.key = key :=
  List.head?_filter

omit [LinearOrder D] in
/-- What comes after a match does not change which one is found first. -/
theorem find?_of_split {p : Edge D → Bool} {pre post : List (Edge D)} {y : Edge D} (hy : p y = true) :
    (pre ++ y :: post).find? p = (pre ++ [y]).find? p := by
  simp only [List.find?_append, List.find?_cons, hy]

/-- The pair of the first link under a key is the same under every cap. -/
theorem FirstStays.head_eq (h : FirstStays l) {tau : D} {key : String} {y first : Edge D}
    (hy : (linksUnder tau key l).head? = some y)
    (hfirst : l.find? (fun e => e.key = key) = some first) :
    y.setId = first.setId ∧ y.targetId = first.targetId := by
  rw [head?_linksUnder, List.find?_eq_some_iff_append] at hy
  obtain ⟨hpasses, pre, post, rfl, hpre⟩ := hy
  obtain ⟨hnear, rfl⟩ := decide_eq_true_iff.mp hpasses
  rw [find?_of_split (decide_eq_true rfl)] at hfirst
  obtain ⟨x, hx, hset, htarget, hle⟩ := h pre y post first rfl hfirst
  rcases List.mem_append.mp hx with hx | hx
  · -- A nearer link of the first pair before this one would have been found instead.
    have hkey : x.key = y.key := by
      have hfound : first.key = y.key := by simpa using List.find?_some hfirst
      unfold Edge.key at hfound ⊢
      rw [hset, htarget, hfound]
    have hnot := hpre x hx
    simp [hkey, hle.trans hnear] at hnot
  · rw [List.mem_singleton.mp hx] at hset htarget
    exact ⟨hset, htarget⟩

theorem FirstStays.heads_eq (h : FirstStays l) {tau tau' : D} {key : String} {y y' : Edge D}
    (hy : (linksUnder tau key l).head? = some y) (hy' : (linksUnder tau' key l).head? = some y') :
    y.setId = y'.setId ∧ y.targetId = y'.targetId := by
  obtain ⟨first, hfirst⟩ : ∃ first, l.find? (fun e => e.key = key) = some first := by
    obtain ⟨hlink, _, hkey⟩ := mem_linksUnder.mp (List.mem_of_head? hy)
    rw [← Option.isSome_iff_exists, List.find?_isSome]
    exact ⟨y, hlink, decide_eq_true hkey⟩
  obtain ⟨hset, htarget⟩ := h.head_eq hy hfirst
  obtain ⟨hset', htarget'⟩ := h.head_eq hy' hfirst
  exact ⟨hset.trans hset'.symm, htarget.trans htarget'.symm⟩

theorem exists_head?_linksUnder {tau : D} {key : String} {x : Edge D}
    (hx : x ∈ linksUnder tau key l) : ∃ y, (linksUnder tau key l).head? = some y :=
  Option.isSome_iff_exists.mp (List.isSome_head?.mpr (List.ne_nil_of_mem hx))

theorem mem_linksUnder_of_le {tau tau' : D} {key : String} {x : Edge D} (hle : tau ≤ tau')
    (hx : x ∈ linksUnder tau key l) : x ∈ linksUnder tau' key l := by
  obtain ⟨hlink, hnear, hkey⟩ := mem_linksUnder.mp hx
  exact mem_linksUnder.mpr ⟨hlink, hnear.trans hle, hkey⟩

theorem firstStays_of_head_eq
    (h : ∀ (tau tau' : D) (key : String) (y first : Edge D), tau ≤ tau' →
      (linksUnder tau key l).head? = some y → (linksUnder tau' key l).head? = some first →
      y.setId = first.setId ∧ y.targetId = first.targetId) : FirstStays l := by
  rintro pre y post first rfl hfirst
  have hself : decide (y.distance ≤ y.distance ∧ y.key = y.key) = true := by simp
  have hunder : (linksUnder y.distance y.key (pre ++ y :: post)).head? = _ := head?_linksUnder _ _ _
  rw [find?_of_split hself] at hunder
  obtain ⟨z, hz⟩ : ∃ z, (pre ++ [y]).find? (fun e => e.distance ≤ y.distance ∧ e.key = y.key) =
      some z := by
    rw [← Option.isSome_iff_exists, List.find?_isSome]
    exact ⟨y, by simp, hself⟩
  rw [hz] at hunder
  have hwide : (linksUnder (max y.distance first.distance) y.key (pre ++ y :: post)).head? =
      some first := by
    rw [head?_linksUnder, find?_of_split (by simp)]
    rw [List.find?_eq_some_iff_append] at hfirst ⊢
    obtain ⟨hkey, as, bs, hsplit, has⟩ := hfirst
    refine ⟨by simpa using hkey, as, bs, hsplit, ?_⟩
    intro a ha
    have hnot := has a ha
    simp_all
  obtain ⟨hset, htarget⟩ := h _ _ _ z first (le_max_left _ _) hunder hwide
  have hnear : z.distance ≤ y.distance ∧ z.key = y.key := by simpa using List.find?_some hz
  exact ⟨z, List.mem_of_find?_eq_some hz, hset, htarget, hnear.1⟩

end FirstStays

section Monotone

variable [LinearOrder D] {setToTarget targetToSet : Neighbours D} {k : ℕ}

/-- Where the first pair stays, a lower cap only removes edges. -/
theorem linkGraph_eq_capped (h : FirstStays (links setToTarget targetToSet k)) {tau tau' : D}
    (hle : tau ≤ tau') : linkGraph setToTarget targetToSet k tau =
      (linkGraph setToTarget targetToSet k tau').capped tau := by
  have hedges (e : Edge D) : e ∈ (linkGraph setToTarget targetToSet k tau).edges ↔
      e ∈ ((linkGraph setToTarget targetToSet k tau').capped tau).edges := by
    unfold linkGraph MatchGraph.capped
    dsimp only
    rw [Set.mem_ofPred_eq, Set.mem_ofPred_eq, Set.mem_ofPred_eq, joined_eq_some_iff,
      joined_eq_some_iff]
    constructor
    · rintro ⟨⟨y, hy, hset, htarget⟩, ⟨x, hx, hdistance⟩, hleast⟩
      have hnear : e.distance ≤ tau := hdistance ▸ (mem_linksUnder.mp hx).2.1
      have hx' := mem_linksUnder_of_le hle hx
      obtain ⟨y', hy'⟩ := exists_head?_linksUnder hx'
      obtain ⟨hset', htarget'⟩ := h.heads_eq hy' hy
      refine ⟨⟨⟨y', hy', hset'.trans hset, htarget'.trans htarget⟩, ⟨x, hx', hdistance⟩, ?_⟩, hnear⟩
      rintro d ⟨z, hz, rfl⟩
      obtain ⟨hlink, _, hkey⟩ := mem_linksUnder.mp hz
      rcases le_total z.distance tau with hz | hz
      · exact hleast ⟨z, mem_linksUnder.mpr ⟨hlink, hz, hkey⟩, rfl⟩
      · exact hnear.trans hz
    · rintro ⟨⟨⟨y', hy', hset', htarget'⟩, ⟨x, hx', hdistance⟩, hleast⟩, hnear⟩
      obtain ⟨hlink, _, hkey⟩ := mem_linksUnder.mp hx'
      have hx := mem_linksUnder.mpr ⟨hlink, hdistance.le.trans hnear, hkey⟩
      obtain ⟨y, hy⟩ := exists_head?_linksUnder hx
      obtain ⟨hset, htarget⟩ := h.heads_eq hy hy'
      refine ⟨⟨y, hy, hset.trans hset', htarget.trans htarget'⟩, ⟨x, hx, hdistance⟩, ?_⟩
      rintro d ⟨z, hz, rfl⟩
      exact hleast ⟨z, mem_linksUnder_of_le hle hz, rfl⟩
  exact MatchGraph.ext (Set.ext hedges) rfl rfl

theorem maxActiveTau_all (k : ℕ) (tau : D) :
    maxActiveTau ⟨k, tau, tau, some tau, some tau⟩ = tau := by
  simp [maxActiveTau]

/-- With all thresholds at the cap, the first pair under each key is matched and no other one. -/
theorem exists_match_iff {tau : D} {y : Edge D} {key : String}
    (hy : (linksUnder tau key (links setToTarget targetToSet k)).head? = some y)
    (order : ResolveOrder D) {e : Edge D} (hkey : e.key = key) :
    (∃ m ∈ (resolve order setToTarget targetToSet ⟨k, tau, tau, some tau, some tau⟩ 0).matched,
      m.setId = e.setId ∧ m.targetId = e.targetId) ↔
      y.setId = e.setId ∧ y.targetId = e.targetId := by
  have hjoined (x : Edge D) (hx : x.key = key) :
      x ∈ (linkGraph setToTarget targetToSet k tau).edges ↔
        joined (linksUnder tau key (links setToTarget targetToSet k)) = some x := by
    rw [← hx]
    rfl
  simp only [mem_resolve_matched_iff, maxActiveTau_all]
  constructor
  · rintro ⟨m, hm, hset, htarget⟩
    have hmkey : m.key = key := by
      rw [← hkey]
      unfold Edge.key
      rw [hset, htarget]
    obtain ⟨⟨first, hfirst, hfset, hftarget⟩, _⟩ :=
      joined_eq_some_iff.mp ((hjoined _ hmkey).mp hm.edge)
    obtain rfl : y = first := Option.some.inj (hy.symm.trans hfirst)
    exact ⟨hfset.trans hset, hftarget.trans htarget⟩
  · rintro ⟨hset, htarget⟩
    have hmem := List.mem_of_head? hy
    obtain ⟨x, hx⟩ := exists_joined (List.ne_nil_of_mem hmem)
    obtain ⟨⟨first, hfirst, hfset, hftarget⟩, _, hleast⟩ := joined_eq_some_iff.mp hx
    obtain rfl : y = first := Option.some.inj (hy.symm.trans hfirst)
    have hnear := (hleast ⟨y, hmem, rfl⟩).trans (mem_linksUnder.mp hmem).2.1
    have htop : (linkGraph setToTarget targetToSet k tau).inSetTopK x ∨
        (linkGraph setToTarget targetToSet k tau).inTargetTopK x := by
      have hlisted := (mem_links_iff y).mp (mem_linksUnder.mp hmem).1
      rw [hfset, hftarget] at hlisted
      rcases hlisted with hlists | hlists
      · exact .inl (exists_topKIds_iff.mpr ⟨_, hlists⟩)
      · exact .inr (exists_topKIds_iff.mpr ⟨_, hlists⟩)
    obtain ⟨stage, hstage⟩ := (linkGraph setToTarget targetToSet k tau).exists_isResolved
      ⟨k, tau, tau, some tau, some tau⟩ x rfl rfl ((hjoined x (key_of_joined hx)).mpr hx) hnear htop
    exact ⟨⟨x, stage⟩, hstage, hfset.symm.trans hset, hftarget.symm.trans htarget⟩

/-- Wider thresholds keep every match if and only if the first pair under each text stays first. -/
theorem resolvesMonotonically_iff (setToTarget targetToSet : Neighbours D) (k : ℕ) :
    ResolvesMonotonically setToTarget targetToSet k ↔
      FirstStays (links setToTarget targetToSet k) := by
  constructor
  · intro hmono
    apply firstStays_of_head_eq
    intro tau tau' key y first hle hy hfirst
    have hwidens : Widens ⟨k, tau, tau, some tau, some tau⟩ ⟨k, tau', tau', some tau', some tau'⟩ :=
      ⟨rfl, hle, by simpa using hle, by simpa using hle⟩
    have hkey : y.key = key := (mem_linksUnder.mp (List.mem_of_head? hy)).2.2
    obtain ⟨m, hm, hset, htarget⟩ := (exists_match_iff hy .asBuilt hkey).mpr ⟨rfl, rfl⟩
    obtain ⟨m', hm', hset', htarget'⟩ := (hmono _ _ .asBuilt .asBuilt 0 0 rfl hwidens).2 m hm
    obtain ⟨hfset, hftarget⟩ := (exists_match_iff hfirst .asBuilt hkey).mp
      ⟨m', hm', hset'.trans hset, htarget'.trans htarget⟩
    exact ⟨hfset.symm, hftarget.symm⟩
  · rintro hfirst options options' order order' elapsedMs elapsedMs' rfl hwidens
    refine ⟨resolve_partitions order setToTarget targetToSet options elapsedMs, ?_⟩
    intro m hm
    rw [mem_resolve_matched_iff, linkGraph_eq_capped hfirst hwidens.maxActiveTau_le] at hm
    obtain ⟨hone, hset, htarget⟩ := maxActiveTau_spec options
    obtain ⟨stage, hstage⟩ :=
      ((MatchGraph.isResolved_capped_iff hone hset htarget m).mp hm).widen hwidens
    rw [← hwidens.k] at hstage
    exact ⟨⟨m.toEdge, stage⟩, (mem_resolve_matched_iff elapsedMs').mpr hstage, rfl, rfl⟩

/-- The pairs of `sharedTexts` iterated the other way, the farther one first. -/
def fartherFirst : Neighbours ℕ :=
  ⟨[⟨"a::b", [⟨"c", 20⟩]⟩, ⟨"a", [⟨"b::c", 10⟩]⟩], by unfold List.NodupKeys; decide +kernel⟩

def tenthAll : ResolveOptions ℕ := ⟨5, 50, 10, some 10, some 10⟩

theorem widening_drops_match : Widens tenthAll halfAll ∧
    ∃ m ∈ (resolve .asBuilt fartherFirst ∅ tenthAll 0).matched,
      ¬∃ m' ∈ (resolve .asBuilt fartherFirst ∅ halfAll 0).matched,
        m'.setId = m.setId ∧ m'.targetId = m.targetId := by
  constructor
  · exact ⟨rfl, by decide, by simp [tenthAll, halfAll], by simp [tenthAll, halfAll]⟩
  · decide +kernel

end Monotone

end Vectorlink
