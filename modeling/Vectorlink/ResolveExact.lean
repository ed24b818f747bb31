import Vectorlink.ResolveStages

/-! When entity resolution matches exactly the pairs it should. An edge is known by the text of its
two ids, which two pairs can share. -/
namespace Vectorlink

open Ranking

variable {D : Type}

section Spec

variable [LinearOrder D]

/-- A map lists a record within the top-K of another. -/
def ListsAt (neighbours : Neighbours D) (k : ℕ) (id x : DocId) (d : D) : Prop :=
  ∃ ns, neighbours.lookup id = some ns ∧ ⟨x, d⟩ ∈ ns.take k

/-- The distances at which the two directions list a pair. -/
def listedDistances (setToTarget targetToSet : Neighbours D) (k : ℕ) (setId targetId : DocId) :
    Set D :=
  {d | ListsAt setToTarget k setId targetId d ∨ ListsAt targetToSet k targetId setId d}

/-- Every listed pair, at its least distance. -/
def pairGraph (setToTarget targetToSet : Neighbours D) (k : ℕ) : MatchGraph D where
  edges := {e | IsLeast (listedDistances setToTarget targetToSet k e.setId e.targetId) e.distance}
  inSetTopK e := ∃ d, ListsAt setToTarget k e.setId e.targetId d
  inTargetTopK e := ∃ d, ListsAt targetToSet k e.targetId e.setId d

structure MeetsSpec (setToTarget targetToSet : Neighbours D) (options : ResolveOptions D)
    (result : ResolveResult D) : Prop where
  resolved : ∀ m, m ∈ result.matched ↔
    (pairGraph setToTarget targetToSet options.k).IsResolved options m
  once : (result.matched.map fun m => (m.setId, m.targetId)).Nodup

/-- The specification is met for all thresholds and in every order of iteration, of the two maps
as well as of those made on the way. -/
def ResolvesExactly (setToTarget targetToSet : Neighbours D) (k : ℕ) : Prop :=
  ∀ (options : ResolveOptions D), options.k = k →
    ∀ (order : ResolveOrder D) (setToTarget' targetToSet' : Neighbours D) (elapsedMs : ℕ),
      setToTarget'.entries.Perm setToTarget.entries → targetToSet'.entries.Perm targetToSet.entries →
      MeetsSpec setToTarget targetToSet options
        (resolve order setToTarget' targetToSet' options elapsedMs)

/-- Two pairs listed within the top-K do not share the text of an edge. -/
def KeysDistinct (setToTarget targetToSet : Neighbours D) (k : ℕ) : Prop :=
  ∀ e e' : Edge D, e.distance ∈ listedDistances setToTarget targetToSet k e.setId e.targetId →
    e'.distance ∈ listedDistances setToTarget targetToSet k e'.setId e'.targetId →
    e.key = e'.key → e.setId = e'.setId ∧ e.targetId = e'.targetId

/-- A graph without its edges beyond a distance. -/
def MatchGraph.capped (g : MatchGraph D) (c : D) : MatchGraph D :=
  { g with edges := {e | e ∈ g.edges ∧ e.distance ≤ c} }

end Spec

section Cap

variable [LinearOrder D] {g : MatchGraph D} {options : ResolveOptions D} {c : D}

theorem maxActiveTau_spec (options : ResolveOptions D) :
    options.tauOneToOne ≤ maxActiveTau options ∧
    (∀ tau, options.tauOneToMany = some tau → tau ≤ maxActiveTau options) ∧
    ∀ tau, options.tauManyToOne = some tau → tau ≤ maxActiveTau options := by
  unfold maxActiveTau
  cases options.tauOneToMany <;> cases options.tauManyToOne <;> grind

/-- The stages do not see what lies beyond every threshold. -/
theorem MatchGraph.isResolved_capped_iff (hone : options.tauOneToOne ≤ c)
    (hset : ∀ tau, options.tauOneToMany = some tau → tau ≤ c)
    (htarget : ∀ tau, options.tauManyToOne = some tau → tau ≤ c) (m : ResolvedMatch D) :
    (g.capped c).IsResolved options m ↔ g.IsResolved options m := by
  have hmutual (e : Edge D) : (g.capped c).IsMutual e options.tauOneToOne ↔
      g.IsMutual e options.tauOneToOne := by
    unfold IsMutual capped
    constructor
    · rintro ⟨⟨hedge, _⟩, hrest⟩
      exact ⟨hedge, hrest⟩
    · rintro ⟨hedge, hnear, hrest⟩
      exact ⟨⟨hedge, hnear.trans hone⟩, hnear, hrest⟩
  have hcore (e : Edge D) : (g.capped c).IsCore options e ↔ g.IsCore options e := by
    unfold IsCore
    simp only [hmutual]
  have hsetExtra (e : Edge D) : (g.capped c).IsSetExtra options e ↔ g.IsSetExtra options e := by
    unfold IsSetExtra
    rw [hcore]
    constructor
    · rintro ⟨⟨hedge, _⟩, hrest⟩
      exact ⟨hedge, hrest⟩
    · rintro ⟨hedge, hnot, htop, tau, htau, hnear⟩
      exact ⟨⟨hedge, hnear.trans (hset tau htau)⟩, hnot, htop, tau, htau, hnear⟩
  have htargetExtra (e : Edge D) :
      (g.capped c).IsTargetExtra options e ↔ g.IsTargetExtra options e := by
    unfold IsTargetExtra
    rw [hcore, hsetExtra]
    constructor
    · rintro ⟨⟨hedge, _⟩, hrest⟩
      exact ⟨hedge, hrest⟩
    · rintro ⟨hedge, hnot, hextra, htop, tau, htau, hnear⟩
      exact ⟨⟨hedge, hnear.trans (htarget tau htau)⟩, hnot, hextra, htop, tau, htau, hnear⟩
  unfold IsResolved
  cases m.stage with
  | core => exact hcore _
  | setExtra => exact hsetExtra _
  | targetExtra => exact htargetExtra _

end Cap

section Listed

variable [LinearOrder D] {setToTarget targetToSet : Neighbours D} {k : ℕ}

omit [LinearOrder D] in
theorem mem_links_iff (e : Edge D) : e ∈ links setToTarget targetToSet k ↔
    e.distance ∈ listedDistances setToTarget targetToSet k e.setId e.targetId := by
  unfold links listedDistances ListsAt setEdges targetEdges
  simp only [List.mem_append, List.mem_flatMap, List.mem_map, Set.mem_ofPred_eq]
  constructor
  · rintro (⟨s, hs, n, hn, rfl⟩ | ⟨t, ht, n, hn, rfl⟩)
    · exact .inl ⟨s.2, AList.mem_lookup_iff.mpr hs, hn⟩
    · exact .inr ⟨t.2, AList.mem_lookup_iff.mpr ht, hn⟩
  · rintro (⟨ns, hs, hn⟩ | ⟨ns, ht, hn⟩)
    · exact .inl ⟨⟨e.setId, ns⟩, AList.mem_lookup_iff.mp hs, _, hn, rfl⟩
    · exact .inr ⟨⟨e.targetId, ns⟩, AList.mem_lookup_iff.mp ht, _, hn, rfl⟩

omit [LinearOrder D] in
theorem exists_topKIds_iff {neighbours : Neighbours D} {id x : DocId} :
    (∃ ids, topKIds neighbours k id = some ids ∧ x ∈ ids) ↔ ∃ d, ListsAt neighbours k id x d := by
  unfold topKIds ListsAt
  constructor
  · rintro ⟨ids, hids, hx⟩
    obtain ⟨ns, hns, rfl⟩ := Option.map_eq_some_iff.mp hids
    obtain ⟨n, hn, rfl⟩ := List.mem_map.mp hx
    exact ⟨n.distance, ns, hns, hn⟩
  · rintro ⟨d, ns, hns, hn⟩
    exact ⟨_, Option.map_eq_some_iff.mpr ⟨ns, hns, rfl⟩, List.mem_map.mpr ⟨_, hn, rfl⟩⟩

theorem ids_eq_of_keysDistinct (h : KeysDistinct setToTarget targetToSet k) {tau : D}
    {key : String} {x y : Edge D} (hx : x ∈ linksUnder tau key (links setToTarget targetToSet k))
    (hy : y ∈ linksUnder tau key (links setToTarget targetToSet k)) :
    x.setId = y.setId ∧ x.targetId = y.targetId := by
  obtain ⟨hxlink, _, hxkey⟩ := mem_linksUnder.mp hx
  obtain ⟨hylink, _, hykey⟩ := mem_linksUnder.mp hy
  exact h x y ((mem_links_iff x).mp hxlink) ((mem_links_iff y).mp hylink) (hxkey.trans hykey.symm)

theorem edges_linkGraph_iff (h : KeysDistinct setToTarget targetToSet k) {tau : D} {e : Edge D} :
    e ∈ (linkGraph setToTarget targetToSet k tau).edges ↔
      e ∈ (pairGraph setToTarget targetToSet k).edges ∧ e.distance ≤ tau := by
  have hlinked (d : D) : d ∈ listedDistances setToTarget targetToSet k e.setId e.targetId ↔
      ⟨e.setId, e.targetId, d⟩ ∈ links setToTarget targetToSet k :=
    (mem_links_iff ⟨e.setId, e.targetId, d⟩).symm
  unfold linkGraph pairGraph
  dsimp only
  rw [Set.mem_ofPred_eq, Set.mem_ofPred_eq, joined_eq_some_iff]
  constructor
  · rintro ⟨⟨first, hfirst, hset, htarget⟩, ⟨x, hx, hdistance⟩, hleast⟩
    have hids := ids_eq_of_keysDistinct h hx (List.mem_of_head? hfirst)
    have hxe : x = e := by
      cases x
      cases e
      simp_all
    subst hxe
    obtain ⟨hlink, hnear, _⟩ := mem_linksUnder.mp hx
    refine ⟨⟨(mem_links_iff x).mp hlink, ?_⟩, hnear⟩
    intro d hd
    rcases le_total d tau with hle | hge
    · exact hleast ⟨_, mem_linksUnder.mpr ⟨(hlinked d).mp hd, hle, rfl⟩, rfl⟩
    · exact hnear.trans hge
  · rintro ⟨⟨hmem, hleast⟩, hnear⟩
    have hunder : e ∈ linksUnder tau e.key (links setToTarget targetToSet k) :=
      mem_linksUnder.mpr ⟨(mem_links_iff e).mpr hmem, hnear, rfl⟩
    refine ⟨?_, ⟨e, hunder, rfl⟩, ?_⟩
    · obtain ⟨first, hfirst⟩ := Option.isSome_iff_exists.mp
        (List.isSome_head?.mpr (List.ne_nil_of_mem hunder))
      exact ⟨first, hfirst, ids_eq_of_keysDistinct h (List.mem_of_head? hfirst) hunder⟩
    · rintro d ⟨x, hx, rfl⟩
      obtain ⟨hset, htarget⟩ := ids_eq_of_keysDistinct h hx hunder
      have hxlink := (mem_links_iff x).mp (mem_linksUnder.mp hx).1
      rw [hset, htarget] at hxlink
      exact hleast hxlink

/-- With distinct keys the graph that is built is the one it should be, up to its cap. -/
theorem linkGraph_eq_of_keysDistinct (h : KeysDistinct setToTarget targetToSet k) (tau : D) :
    linkGraph setToTarget targetToSet k tau = (pairGraph setToTarget targetToSet k).capped tau := by
  have hedges : (linkGraph setToTarget targetToSet k tau).edges =
      ((pairGraph setToTarget targetToSet k).capped tau).edges :=
    Set.ext fun e => edges_linkGraph_iff h
  have hset : (linkGraph setToTarget targetToSet k tau).inSetTopK =
      (pairGraph setToTarget targetToSet k).inSetTopK :=
    funext fun e => propext exists_topKIds_iff
  have htarget : (linkGraph setToTarget targetToSet k tau).inTargetTopK =
      (pairGraph setToTarget targetToSet k).inTargetTopK :=
    funext fun e => propext exists_topKIds_iff
  exact MatchGraph.ext hedges hset htarget

end Listed

section Exact

variable [LinearOrder D] {setToTarget targetToSet : Neighbours D} {k : ℕ}

theorem meetsSpec_of_keysDistinct {options : ResolveOptions D}
    (h : KeysDistinct setToTarget targetToSet options.k) (order : ResolveOrder D) (elapsedMs : ℕ) :
    MeetsSpec setToTarget targetToSet options
      (resolve order setToTarget targetToSet options elapsedMs) := by
  obtain ⟨hone, hset, htarget⟩ := maxActiveTau_spec options
  constructor
  · intro m
    rw [mem_resolve_matched_iff, linkGraph_eq_of_keysDistinct h]
    exact MatchGraph.isResolved_capped_iff hone hset htarget m
  · exact nodup_pairs_resolve_matched order setToTarget targetToSet options elapsedMs

/-- A listed pair has an edge. -/
theorem exists_pairEdge {e : Edge D} (he : e ∈ links setToTarget targetToSet k) :
    ∃ e' ∈ (pairGraph setToTarget targetToSet k).edges,
      e'.setId = e.setId ∧ e'.targetId = e.targetId ∧ e'.distance ≤ e.distance := by
  have hown (x : Edge D) : x ∈ (links setToTarget targetToSet k).filter (fun x =>
      x.setId = e.setId ∧ x.targetId = e.targetId) ↔
      x ∈ links setToTarget targetToSet k ∧ x.setId = e.setId ∧ x.targetId = e.targetId := by
    rw [List.mem_filter, decide_eq_true_iff]
  have hself := (hown e).mpr ⟨he, rfl, rfl⟩
  obtain ⟨e', he'⟩ := exists_joined (List.ne_nil_of_mem hself)
  obtain ⟨⟨first, hfirst, hset, htarget⟩, ⟨x, hx, hdistance⟩, hleast⟩ := joined_eq_some_iff.mp he'
  have hfirstIds := ((hown first).mp (List.mem_of_head? hfirst)).2
  have hset' : e'.setId = e.setId := hset.symm.trans hfirstIds.1
  have htarget' : e'.targetId = e.targetId := htarget.symm.trans hfirstIds.2
  refine ⟨e', ⟨?_, ?_⟩, hset', htarget', hleast ⟨e, hself, rfl⟩⟩
  · obtain ⟨hlink, hxset, hxtarget⟩ := (hown x).mp hx
    have hlisted := (mem_links_iff x).mp hlink
    rwa [hxset, hxtarget, hdistance, ← hset', ← htarget'] at hlisted
  · intro d hd
    have hlink := (mem_links_iff ⟨e'.setId, e'.targetId, d⟩).mpr hd
    exact hleast ⟨_, (hown _).mpr ⟨hlink, hset', htarget'⟩, rfl⟩

/-- Where both thresholds of the extras admit a listed pair, it is matched. -/
theorem exists_resolved_pair {options : ResolveOptions D} {c : D}
    (hset : options.tauOneToMany = some c) (htarget : options.tauManyToOne = some c) {e : Edge D}
    (he : e ∈ links setToTarget targetToSet options.k) (hc : e.distance ≤ c) :
    ∃ m, (pairGraph setToTarget targetToSet options.k).IsResolved options m ∧
      m.setId = e.setId ∧ m.targetId = e.targetId := by
  obtain ⟨e', hedge, hset', htarget', hle⟩ := exists_pairEdge he
  have htop : (pairGraph setToTarget targetToSet options.k).inSetTopK e' ∨
      (pairGraph setToTarget targetToSet options.k).inTargetTopK e' := by
    rcases hedge.1 with hlists | hlists
    · exact .inl ⟨_, hlists⟩
    · exact .inr ⟨_, hlists⟩
  obtain ⟨stage, hstage⟩ := (pairGraph setToTarget targetToSet options.k).exists_isResolved
    options e' hset htarget hedge (hle.trans hc) htop
  exact ⟨⟨e', stage⟩, hstage, hset', htarget'⟩

/-- Of two listed pairs that share a key, only one can be matched. -/
theorem not_meetsSpec_of_shared_key {options : ResolveOptions D} {c : D}
    (hset : options.tauOneToMany = some c) (htarget : options.tauManyToOne = some c)
    {e e' : Edge D} (he : e ∈ links setToTarget targetToSet options.k)
    (he' : e' ∈ links setToTarget targetToSet options.k) (hc : e.distance ≤ c)
    (hc' : e'.distance ≤ c) (hkey : e.key = e'.key)
    (hne : ¬(e.setId = e'.setId ∧ e.targetId = e'.targetId)) (order : ResolveOrder D)
    (elapsedMs : ℕ) :
    ¬MeetsSpec setToTarget targetToSet options
      (resolve order setToTarget targetToSet options elapsedMs) := by
  intro hmeets
  obtain ⟨m, hm, hmset, hmtarget⟩ := exists_resolved_pair hset htarget he hc
  obtain ⟨m', hm', hmset', hmtarget'⟩ := exists_resolved_pair hset htarget he' hc'
  have hsame : m.key = m'.key := by
    unfold Edge.key at hkey ⊢
    rw [hmset, hmtarget, hmset', hmtarget']
    exact hkey
  have heq := List.inj_on_of_nodup_map
    (nodup_keys_resolve_matched order setToTarget targetToSet options elapsedMs)
    ((hmeets.resolved m).mpr hm) ((hmeets.resolved m').mpr hm') hsame
  subst heq
  exact hne ⟨hmset.symm.trans hmset', hmtarget.symm.trans hmtarget'⟩

omit [LinearOrder D] in
theorem listsAt_of_perm {neighbours neighbours' : Neighbours D}
    (h : neighbours'.entries.Perm neighbours.entries) :
    ListsAt neighbours' k = ListsAt neighbours k := by
  funext id x d
  unfold ListsAt
  rw [AList.perm_lookup h]

/-- The order in which the maps came to be filled. -/
def ResolveOrder.asBuilt : ResolveOrder D where
  edges := ⟨id, List.Perm.refl⟩
  bestBySet := ⟨id, List.Perm.refl⟩
  matched := ⟨id, List.Perm.refl⟩

/-- Entity resolution is exact if and only if no two listed pairs share the text of an edge. -/
theorem resolvesExactly_iff (setToTarget targetToSet : Neighbours D) (k : ℕ) :
    ResolvesExactly setToTarget targetToSet k ↔ KeysDistinct setToTarget targetToSet k := by
  constructor
  · intro hexact e e' he he' hkey
    by_contra hne
    let c := max e.distance e'.distance
    let options : ResolveOptions D := ⟨k, c, c, some c, some c⟩
    have hmeets := hexact options rfl .asBuilt setToTarget targetToSet 0 (.refl _) (.refl _)
    exact not_meetsSpec_of_shared_key rfl rfl ((mem_links_iff e).mpr he) ((mem_links_iff e').mpr he')
      (le_max_left _ _) (le_max_right _ _) hkey hne .asBuilt 0 hmeets
  · rintro hdistinct options rfl order setToTarget' targetToSet' elapsedMs hset htarget
    have hset' : ListsAt setToTarget' options.k = ListsAt setToTarget options.k :=
      listsAt_of_perm hset
    have htarget' : ListsAt targetToSet' options.k = ListsAt targetToSet options.k :=
      listsAt_of_perm htarget
    have hgraph : pairGraph setToTarget' targetToSet' options.k =
        pairGraph setToTarget targetToSet options.k := by
      unfold pairGraph listedDistances
      rw [hset', htarget']
    have hdistinct' : KeysDistinct setToTarget' targetToSet' options.k := by
      unfold KeysDistinct listedDistances at hdistinct ⊢
      rwa [hset', htarget']
    have hmeets := meetsSpec_of_keysDistinct hdistinct' order elapsedMs
    constructor
    · rw [← hgraph]
      exact hmeets.resolved
    · exact hmeets.once

/-- Two pairs of one text, `a` with `b::c` and `a::b` with `c`, and distances in hundredths. -/
def sharedTexts : Neighbours ℕ :=
  ⟨[⟨"a", [⟨"b::c", 10⟩]⟩, ⟨"a::b", [⟨"c", 20⟩]⟩], by unfold List.NodupKeys; decide +kernel⟩

def halfAll : ResolveOptions ℕ := ⟨5, 50, 50, some 50, some 50⟩

theorem resolve_drops_pair :
    ¬MeetsSpec sharedTexts ∅ halfAll (resolve .asBuilt sharedTexts ∅ halfAll 0) := by
  have hfirst : ⟨"a", "b::c", 10⟩ ∈ links sharedTexts ∅ 5 := by decide +kernel
  have hsecond : ⟨"a::b", "c", 20⟩ ∈ links sharedTexts ∅ 5 := by decide +kernel
  exact not_meetsSpec_of_shared_key rfl rfl hfirst hsecond (by decide) (by decide) (by decide +kernel)
    (by decide +kernel) .asBuilt 0

end Exact

end Vectorlink
