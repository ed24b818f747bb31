import Mathlib.Order.Bounds.Basic
import Vectorlink.Resolve

/-! The stages of entity resolution over a graph of edges, and that the matches of `resolve` are
those of its own graph in every order of iteration. -/
namespace Vectorlink

open Ranking

variable {D : Type}

/-- What the stages read of a graph. -/
@[ext] structure MatchGraph (D : Type) where
  edges : Set (Edge D)
  inSetTopK : Edge D → Prop
  inTargetTopK : Edge D → Prop

section Spec

variable [LinearOrder D]

/-- Nearer, and of equally near ones with the smaller target. -/
def Edge.BeforeEq (e e' : Edge D) : Prop :=
  e.distance < e'.distance ∨ e.distance = e'.distance ∧ e.targetId ≤ e'.targetId

namespace MatchGraph

variable (g : MatchGraph D) (options : ResolveOptions D) (e : Edge D)

def IsMutual (tau : D) : Prop :=
  e ∈ g.edges ∧ e.distance ≤ tau ∧ g.inSetTopK e ∧ g.inTargetTopK e

def IsCore : Prop :=
  g.IsMutual e options.tauOneToOne ∧
    ∀ e', g.IsMutual e' options.tauOneToOne → e'.setId = e.setId → e.BeforeEq e'

def IsSetExtra : Prop :=
  e ∈ g.edges ∧ ¬g.IsCore options e ∧ g.inSetTopK e ∧
    ∃ tau, options.tauOneToMany = some tau ∧ e.distance ≤ tau

def IsTargetExtra : Prop :=
  e ∈ g.edges ∧ ¬g.IsCore options e ∧ ¬g.IsSetExtra options e ∧ g.inTargetTopK e ∧
    ∃ tau, options.tauManyToOne = some tau ∧ e.distance ≤ tau

def IsResolved (m : ResolvedMatch D) : Prop :=
  match m.stage with
  | .core => g.IsCore options m.toEdge
  | .setExtra => g.IsSetExtra options m.toEdge
  | .targetExtra => g.IsTargetExtra options m.toEdge

theorem IsResolved.edge {g : MatchGraph D} {options : ResolveOptions D} {m : ResolvedMatch D}
    (h : g.IsResolved options m) : m.toEdge ∈ g.edges := by
  unfold IsResolved at h
  cases hstage : m.stage with
  | core =>
    rw [hstage] at h
    exact h.1.1
  | setExtra =>
    rw [hstage] at h
    exact h.1
  | targetExtra =>
    rw [hstage] at h
    exact h.1

/-- An edge within both thresholds of the extras is matched in some stage. -/
theorem exists_isResolved {c : D} (hset : options.tauOneToMany = some c)
    (htarget : options.tauManyToOne = some c) (hedge : e ∈ g.edges) (hnear : e.distance ≤ c)
    (htop : g.inSetTopK e ∨ g.inTargetTopK e) : ∃ stage, g.IsResolved options ⟨e, stage⟩ := by
  by_cases hcore : g.IsCore options e
  · exact ⟨.core, hcore⟩
  by_cases hextra : g.IsSetExtra options e
  · exact ⟨.setExtra, hextra⟩
  refine ⟨.targetExtra, hedge, hcore, hextra, ?_, c, htarget, hnear⟩
  rcases htop with htop | htop
  · exact absurd ⟨hedge, hcore, htop, c, hset, hnear⟩ hextra
  · exact htop

end MatchGraph

end Spec

section Links

variable [LinearOrder D]

/-- The edges that the two maps list within their top-K, in the order of the iteration. -/
def links (setToTarget targetToSet : Neighbours D) (k : ℕ) : List (Edge D) :=
  setToTarget.entries.flatMap (fun s => setEdges k s.1 s.2) ++
    targetToSet.entries.flatMap fun t => targetEdges k t.1 t.2

/-- The links under a key that the cap lets through. -/
def linksUnder (tau : D) (key : String) (l : List (Edge D)) : List (Edge D) :=
  l.filter fun e => e.distance ≤ tau ∧ e.key = key

def lowerTo (e x : Edge D) : Edge D :=
  if x.distance < e.distance then { e with distance := x.distance } else e

/-- What becomes of the links under one key. -/
def joined : List (Edge D) → Option (Edge D)
  | [] => none
  | e :: rest => some (rest.foldl lowerTo e)

/-- The graph that `resolve` builds, as far as its stages read it. -/
def linkGraph (setToTarget targetToSet : Neighbours D) (k : ℕ) (tau : D) : MatchGraph D where
  edges := {e | joined (linksUnder tau e.key (links setToTarget targetToSet k)) = some e}
  inSetTopK e := ∃ ids, topKIds setToTarget k e.setId = some ids ∧ e.targetId ∈ ids
  inTargetTopK e := ∃ ids, topKIds targetToSet k e.targetId = some ids ∧ e.setId ∈ ids

theorem buildCandidateGraph_edges (setToTarget targetToSet : Neighbours D) (k : ℕ) (tau : D) :
    (buildCandidateGraph setToTarget targetToSet k tau).edges =
      (links setToTarget targetToSet k).foldl (addEdge tau) ∅ := by
  unfold buildCandidateGraph links
  rw [List.foldl_append, List.foldl_flatMap, List.foldl_flatMap]

@[simp] theorem mem_linksUnder {tau : D} {key : String} {l : List (Edge D)}
    {e : Edge D} : e ∈ linksUnder tau key l ↔ e ∈ l ∧ e.distance ≤ tau ∧ e.key = key := by
  simp [linksUnder]

theorem joined_concat (l : List (Edge D)) (x : Edge D) :
    joined (l ++ [x]) = some ((joined l).elim x fun e => lowerTo e x) := by
  cases l with
  | nil => rfl
  | cons e rest => simp [joined]

theorem lookup_addEdge_of_key (tau : D) (m : AList fun _ : String => Edge D) {x : Edge D}
    (h : x.distance ≤ tau) :
    (addEdge tau m x).lookup x.key = some ((m.lookup x.key).elim x fun e => lowerTo e x) := by
  unfold addEdge
  rw [if_neg (not_lt.mpr h)]
  cases hentry : m.lookup x.key with
  | none => simp
  | some entry =>
    unfold lowerTo
    dsimp only [Option.elim]
    split
    · simp
    · exact hentry

theorem lookup_addEdge_of_not (tau : D) (m : AList fun _ : String => Edge D) {x : Edge D}
    {key : String} (h : ¬(x.distance ≤ tau ∧ x.key = key)) :
    (addEdge tau m x).lookup key = m.lookup key := by
  unfold addEdge
  split
  · rfl
  · rename_i hnear
    have hne : key ≠ x.key := fun hkey => h ⟨not_lt.mp hnear, hkey.symm⟩
    split
    · exact AList.lookup_insert_ne hne
    · split
      · exact AList.lookup_insert_ne hne
      · rfl

/-- The map of edges has under each key the links under it, joined. -/
theorem lookup_foldl_addEdge (tau : D) (l : List (Edge D)) (key : String) :
    (l.foldl (addEdge tau) ∅).lookup key = joined (linksUnder tau key l) := by
  induction l using List.reverseRecOn with
  | nil => rfl
  | append_singleton l x ih =>
    rw [List.foldl_append, List.foldl_cons, List.foldl_nil]
    by_cases hin : x.distance ≤ tau ∧ x.key = key
    · have hunder : linksUnder tau key (l ++ [x]) = linksUnder tau key l ++ [x] := by
        simp [linksUnder, hin]
      rw [hunder, joined_concat, ← ih]
      obtain ⟨hnear, rfl⟩ := hin
      exact lookup_addEdge_of_key tau _ hnear
    · have hunder : linksUnder tau key (l ++ [x]) = linksUnder tau key l := by
        simp [linksUnder, hin]
      rw [hunder, ← ih]
      exact lookup_addEdge_of_not tau _ hin

theorem foldl_lowerTo_ids (e : Edge D) (l : List (Edge D)) :
    (l.foldl lowerTo e).setId = e.setId ∧ (l.foldl lowerTo e).targetId = e.targetId := by
  induction l generalizing e with
  | nil => exact ⟨rfl, rfl⟩
  | cons x l ih =>
    have hids : (lowerTo e x).setId = e.setId ∧ (lowerTo e x).targetId = e.targetId := by
      unfold lowerTo
      split <;> exact ⟨rfl, rfl⟩
    rw [List.foldl_cons, (ih _).1, (ih _).2]
    exact hids

theorem foldl_lowerTo_distance (e : Edge D) (l : List (Edge D)) :
    IsLeast {d | ∃ x ∈ e :: l, x.distance = d} (l.foldl lowerTo e).distance := by
  induction l generalizing e with
  | nil => simp
  | cons x l ih =>
    have hstep : (lowerTo e x).distance = min e.distance x.distance := by
      unfold lowerTo
      split
      · rename_i hlt
        exact (min_eq_right hlt.le).symm
      · rename_i hge
        exact (min_eq_left (not_lt.mp hge)).symm
    have hleast := ih (lowerTo e x)
    rw [List.foldl_cons]
    constructor
    · obtain ⟨y, hy, hd⟩ := hleast.1
      rcases List.mem_cons.mp hy with rfl | hy
      · rw [hstep] at hd
        rcases min_choice e.distance x.distance with h | h
        · exact ⟨e, by simp, h ▸ hd⟩
        · exact ⟨x, by simp, h ▸ hd⟩
      · exact ⟨y, by simp [hy], hd⟩
    · rintro d ⟨y, hy, rfl⟩
      have hfirst := hleast.2 ⟨lowerTo e x, List.mem_cons_self, rfl⟩
      rw [hstep] at hfirst
      rcases List.mem_cons.mp hy with rfl | hy
      · exact hfirst.trans (min_le_left _ _)
      rcases List.mem_cons.mp hy with rfl | hy
      · exact hfirst.trans (min_le_right _ _)
      · exact hleast.2 ⟨y, List.mem_cons_of_mem _ hy, rfl⟩

/-- The first link gives the ids, the nearest one the distance. -/
theorem joined_eq_some_iff {l : List (Edge D)} {e : Edge D} :
    joined l = some e ↔
      (∃ first, l.head? = some first ∧ first.setId = e.setId ∧ first.targetId = e.targetId) ∧
        IsLeast {d | ∃ x ∈ l, x.distance = d} e.distance := by
  cases l with
  | nil => simp [joined]
  | cons first rest =>
    have hids := foldl_lowerTo_ids first rest
    have hleast := foldl_lowerTo_distance first rest
    unfold joined
    rw [Option.some.injEq]
    constructor
    · rintro rfl
      exact ⟨⟨first, rfl, hids.1.symm, hids.2.symm⟩, hleast⟩
    · rintro ⟨⟨x, hx, hset, htarget⟩, hmin⟩
      obtain rfl : first = x := Option.some.inj hx
      have hdistance := hleast.unique hmin
      cases e
      cases hjoined : rest.foldl lowerTo first
      simp_all

theorem exists_joined {l : List (Edge D)} (h : l ≠ []) : ∃ e, joined l = some e := by
  cases l with
  | nil => exact absurd rfl h
  | cons first rest => exact ⟨_, rfl⟩

theorem key_of_joined {tau : D} {key : String} {l : List (Edge D)} {e : Edge D}
    (h : joined (linksUnder tau key l) = some e) : e.key = key := by
  obtain ⟨⟨first, hfirst, hset, htarget⟩, _⟩ := joined_eq_some_iff.mp h
  have hmem := mem_linksUnder.mp (List.mem_of_head? hfirst)
  unfold Edge.key at hmem ⊢
  rw [← hset, ← htarget]
  exact hmem.2.2

end Links

section Stages

variable [LinearOrder D] {order : ResolveOrder D} {setToTarget targetToSet : Neighbours D} {k : ℕ}
  {tau : D} {options : ResolveOptions D}

theorem mem_values_iff_linkGraph (e : Edge D) :
    e ∈ (buildCandidateGraph setToTarget targetToSet k tau).values order.edges ↔
      e ∈ (linkGraph setToTarget targetToSet k tau).edges := by
  have hlookup (key : String) := lookup_foldl_addEdge tau (links setToTarget targetToSet k) key
  rw [← buildCandidateGraph_edges] at hlookup
  have hkey (key : String) (x : Edge D)
      (h : (buildCandidateGraph setToTarget targetToSet k tau).edges.lookup key = some x) :
      x.key = key := by
    rw [hlookup] at h
    exact key_of_joined h
  unfold CandidateGraph.values
  rw [(order.edges.perm _).mem_iff, mem_values_iff hkey, hlookup]
  rfl

theorem inSetTopK_iff (e : Edge D) :
    (buildCandidateGraph setToTarget targetToSet k tau).inSetTopK e = true ↔
      (linkGraph setToTarget targetToSet k tau).inSetTopK e := by
  unfold CandidateGraph.inSetTopK linkGraph buildCandidateGraph
  dsimp only
  split
  · rename_i ids hids
    simp [hids]
  · rename_i hids
    simp [hids]

theorem inTargetTopK_iff (e : Edge D) :
    (buildCandidateGraph setToTarget targetToSet k tau).inTargetTopK e = true ↔
      (linkGraph setToTarget targetToSet k tau).inTargetTopK e := by
  unfold CandidateGraph.inTargetTopK linkGraph buildCandidateGraph
  dsimp only
  split
  · rename_i ids hids
    simp [hids]
  · rename_i hids
    simp [hids]

/-- Two edges of a graph do not share a key. -/
theorem eq_of_key_eq {e e' : Edge D} (he : e ∈ (linkGraph setToTarget targetToSet k tau).edges)
    (he' : e' ∈ (linkGraph setToTarget targetToSet k tau).edges) (hkey : e.key = e'.key) :
    e = e' := by
  have hjoined : joined (linksUnder tau e.key (links setToTarget targetToSet k)) = some e := he
  have hjoined' : joined (linksUnder tau e'.key (links setToTarget targetToSet k)) = some e' := he'
  rw [hkey, hjoined'] at hjoined
  exact (Option.some.inj hjoined).symm

/-- The order in which the edges of a set record compete for the core. -/
def Edge.coreRank (e : Edge D) : D ×ₗ DocId := toLex (e.distance, e.targetId)

theorem coreRank_le_iff {e e' : Edge D} : e.coreRank ≤ e'.coreRank ↔ e.BeforeEq e' :=
  Prod.Lex.toLex_le_toLex

theorem keepNearest_eq_keepLeast :
    (keepNearest : AList (fun _ : DocId => Edge D) → _) = keepLeast Edge.setId Edge.coreRank := by
  funext best e
  unfold keepNearest keepLeast
  cases best.lookup e.setId with
  | none => rfl
  | some existing =>
    have hlt : e.coreRank < existing.coreRank ↔ e.distance < existing.distance ∨
        e.distance = existing.distance ∧ e.targetId < existing.targetId := Prod.Lex.toLex_lt_toLex
    simp only [hlt]

theorem eq_of_beforeEq {e e' : Edge D} (hset : e.setId = e'.setId) (h : e.BeforeEq e')
    (h' : e'.BeforeEq e) : e = e' := by
  have hrank := le_antisymm (coreRank_le_iff.mpr h) (coreRank_le_iff.mpr h')
  have hpair := Prod.mk.inj (toLex_inj.mp hrank)
  cases e
  cases e'
  simp_all

theorem mem_groundCore_iff {m : ResolvedMatch D} :
    m ∈ groundCore order (buildCandidateGraph setToTarget targetToSet k tau) options.tauOneToOne ↔
      m.stage = .core ∧ (linkGraph setToTarget targetToSet k tau).IsCore options m.toEdge := by
  have hpassing (e : Edge D) :
      e ∈ ((buildCandidateGraph setToTarget targetToSet k tau).values order.edges).filter (fun e =>
        ¬options.tauOneToOne < e.distance ∧
          (buildCandidateGraph setToTarget targetToSet k tau).inSetTopK e ∧
          (buildCandidateGraph setToTarget targetToSet k tau).inTargetTopK e) ↔
      (linkGraph setToTarget targetToSet k tau).IsMutual e options.tauOneToOne := by
    unfold MatchGraph.IsMutual
    rw [List.mem_filter, mem_values_iff_linkGraph, decide_eq_true_iff, inSetTopK_iff,
      inTargetTopK_iff, not_lt]
  unfold groundCore
  rw [keepNearest_eq_keepLeast]
  generalize ((buildCandidateGraph setToTarget targetToSet k tau).values order.edges).filter _ =
    passing at hpassing
  have hinj : ∀ e ∈ passing, ∀ e' ∈ passing, e.setId = e'.setId → e.coreRank = e'.coreRank →
      e = e' := by
    intro e _ e' _ hset hrank
    exact eq_of_beforeEq hset (coreRank_le_iff.mp hrank.le) (coreRank_le_iff.mp hrank.ge)
  change m ∈ (order.bestBySet.run ((leastPerKey Edge.setId Edge.coreRank passing).entries.map
    Sigma.snd)).map (fun e => ⟨e, MatchStage.core⟩) ↔ _
  unfold MatchGraph.IsCore
  simp only [← hpassing, ← coreRank_le_iff]
  rw [List.mem_map]
  constructor
  · rintro ⟨e, he, rfl⟩
    rw [(order.bestBySet.perm _).mem_iff, mem_values_leastPerKey_iff hinj] at he
    exact ⟨rfl, he⟩
  · rintro ⟨hstage, hcore⟩
    refine ⟨m.toEdge, ?_, ?_⟩
    · rw [(order.bestBySet.perm _).mem_iff, mem_values_leastPerKey_iff hinj]
      exact hcore
    · rw [← hstage]

theorem exists_core_key_iff {e : Edge D}
    (he : e ∈ (linkGraph setToTarget targetToSet k tau).edges) :
    (∃ p ∈ groundCore order (buildCandidateGraph setToTarget targetToSet k tau)
        options.tauOneToOne, p.key = e.key) ↔
      (linkGraph setToTarget targetToSet k tau).IsCore options e := by
  constructor
  · rintro ⟨p, hp, hkey⟩
    have hcore := (mem_groundCore_iff.mp hp).2
    have hsame := eq_of_key_eq hcore.1.1 he hkey
    rwa [hsame] at hcore
  · intro h
    exact ⟨⟨e, .core⟩, mem_groundCore_iff.mpr ⟨rfl, h⟩, rfl⟩

theorem mem_extras_iff {inTopK : Edge D → Bool} {stage : MatchStage} {active : Option D}
    {m : ResolvedMatch D} :
    m ∈ extras order (buildCandidateGraph setToTarget targetToSet k tau)
        (groundCore order (buildCandidateGraph setToTarget targetToSet k tau) options.tauOneToOne)
        inTopK stage active ↔
      m.stage = stage ∧ m.toEdge ∈ (linkGraph setToTarget targetToSet k tau).edges ∧
        ¬(linkGraph setToTarget targetToSet k tau).IsCore options m.toEdge ∧
        inTopK m.toEdge = true ∧ ∃ tau, active = some tau ∧ m.distance ≤ tau := by
  unfold extras
  cases active with
  | none => simp
  | some bound =>
    simp only [List.mem_map, List.mem_filter, decide_eq_true_iff, mem_values_iff_linkGraph,
      List.contains_iff_mem, not_lt]
    constructor
    · rintro ⟨e, ⟨he, hnear, hcore, htop⟩, rfl⟩
      rw [exists_core_key_iff he] at hcore
      exact ⟨rfl, he, hcore, htop, bound, rfl, hnear⟩
    · rintro ⟨hstage, he, hcore, htop, _, ⟨rfl⟩, hnear⟩
      refine ⟨m.toEdge, ⟨he, hnear, ?_, htop⟩, ?_⟩
      · rwa [exists_core_key_iff he]
      · rw [← hstage]

/-- The order in which the matches of a pair compete. -/
def ResolvedMatch.rank (m : ResolvedMatch D) : ℕ ×ₗ D := toLex (stageRank m.stage, m.distance)

theorem addMatch_eq_keepLeast :
    (addMatch : AList (fun _ : String => ResolvedMatch D) → _) =
      keepLeast (fun m => m.key) ResolvedMatch.rank := by
  funext map m
  unfold addMatch keepLeast
  cases map.lookup m.key with
  | none => rfl
  | some existing =>
    have hlt : m.rank < existing.rank ↔ stageRank m.stage < stageRank existing.stage ∨
        stageRank m.stage = stageRank existing.stage ∧ m.distance < existing.distance :=
      Prod.Lex.toLex_lt_toLex
    simp only [hlt]

theorem stageRank_injective : Function.Injective stageRank := by
  intro s s'
  cases s <;> cases s' <;> simp [stageRank]

/-- The matches of all stages before they are deduplicated. -/
def stageMatches (order : ResolveOrder D) (setToTarget targetToSet : Neighbours D) (tau : D)
    (options : ResolveOptions D) : List (ResolvedMatch D) :=
  let graph := buildCandidateGraph setToTarget targetToSet options.k tau
  let corePairs := groundCore order graph options.tauOneToOne
  corePairs ++ (setExtras order graph corePairs options.tauOneToMany ++
    targetExtras order graph corePairs options.tauManyToOne)

theorem resolve_matched (order : ResolveOrder D) (setToTarget targetToSet : Neighbours D)
    (options : ResolveOptions D) (elapsedMs : ℕ) :
    (resolve order setToTarget targetToSet options elapsedMs).matched =
      order.matched.run ((leastPerKey (fun m : ResolvedMatch D => m.key) ResolvedMatch.rank
        (stageMatches order setToTarget targetToSet (maxActiveTau options) options)).entries.map
          Sigma.snd) := by
  unfold resolve dedupMatches leastPerKey stageMatches
  rw [addMatch_eq_keepLeast]
  simp only [List.foldl_append]

/-- Before the dedup an edge can be both an extra of the set and of the target. -/
theorem mem_stageMatches_iff {m : ResolvedMatch D} :
    m ∈ stageMatches order setToTarget targetToSet tau options ↔
      m.stage = .core ∧ (linkGraph setToTarget targetToSet options.k tau).IsCore options m.toEdge ∨
      m.stage = .setExtra ∧
        (linkGraph setToTarget targetToSet options.k tau).IsSetExtra options m.toEdge ∨
      m.stage = .targetExtra ∧ m.toEdge ∈ (linkGraph setToTarget targetToSet options.k tau).edges ∧
        ¬(linkGraph setToTarget targetToSet options.k tau).IsCore options m.toEdge ∧
        (linkGraph setToTarget targetToSet options.k tau).inTargetTopK m.toEdge ∧
        ∃ tau, options.tauManyToOne = some tau ∧ m.distance ≤ tau := by
  unfold stageMatches setExtras targetExtras MatchGraph.IsSetExtra
  simp only [List.mem_append, mem_groundCore_iff, mem_extras_iff, inSetTopK_iff, inTargetTopK_iff]

theorem edge_of_mem_stageMatches {m : ResolvedMatch D}
    (h : m ∈ stageMatches order setToTarget targetToSet tau options) :
    m.toEdge ∈ (linkGraph setToTarget targetToSet options.k tau).edges := by
  rcases mem_stageMatches_iff.mp h with ⟨_, hcore⟩ | ⟨_, hextra⟩ | ⟨_, hedge, _⟩
  · exact hcore.1.1
  · exact hextra.1
  · exact hedge

theorem mem_stageMatches_of_isResolved {m : ResolvedMatch D}
    (h : (linkGraph setToTarget targetToSet options.k tau).IsResolved options m) :
    m ∈ stageMatches order setToTarget targetToSet tau options := by
  rw [mem_stageMatches_iff]
  unfold MatchGraph.IsResolved at h
  cases hstage : m.stage with
  | core =>
    rw [hstage] at h
    exact .inl ⟨rfl, h⟩
  | setExtra =>
    rw [hstage] at h
    exact .inr (.inl ⟨rfl, h⟩)
  | targetExtra =>
    rw [hstage] at h
    exact .inr (.inr ⟨rfl, h.1, h.2.1, h.2.2.2⟩)

theorem rank_le_iff_of_toEdge_eq {m m' : ResolvedMatch D} (h : m.toEdge = m'.toEdge) :
    m.rank ≤ m'.rank ↔ stageRank m.stage ≤ stageRank m'.stage := by
  have hle : m.rank ≤ m'.rank ↔ stageRank m.stage < stageRank m'.stage ∨
      stageRank m.stage = stageRank m'.stage ∧ m.distance ≤ m'.distance := Prod.Lex.toLex_le_toLex
  rw [hle, h]
  simp [Nat.le_iff_lt_or_eq]

theorem stageMatches_toEdge_eq {m m' : ResolvedMatch D}
    (hm : m ∈ stageMatches order setToTarget targetToSet tau options)
    (hm' : m' ∈ stageMatches order setToTarget targetToSet tau options) (hkey : m.key = m'.key) :
    m.toEdge = m'.toEdge :=
  eq_of_key_eq (edge_of_mem_stageMatches hm) (edge_of_mem_stageMatches hm') hkey

theorem eq_of_rank_eq {m m' : ResolvedMatch D} (hedge : m.toEdge = m'.toEdge)
    (hrank : m.rank = m'.rank) : m = m' := by
  have hle := (rank_le_iff_of_toEdge_eq hedge).mp hrank.le
  have hge := (rank_le_iff_of_toEdge_eq hedge.symm).mp hrank.ge
  have hstage := stageRank_injective (Nat.le_antisymm hle hge)
  cases m
  cases m'
  simp_all

/-- The stage of an edge is the earliest one that takes it. -/
theorem stageRank_le_of_isResolved {m m' : ResolvedMatch D}
    (hm : (linkGraph setToTarget targetToSet options.k tau).IsResolved options m)
    (hm' : m' ∈ stageMatches order setToTarget targetToSet tau options)
    (hedge : m.toEdge = m'.toEdge) : stageRank m.stage ≤ stageRank m'.stage := by
  unfold MatchGraph.IsResolved at hm
  rw [mem_stageMatches_iff, ← hedge] at hm'
  cases hstage : m.stage with
  | core => exact Nat.zero_le _
  | setExtra =>
    rw [hstage] at hm
    rcases hm' with ⟨_, hcore⟩ | ⟨hstage', _⟩ | ⟨hstage', _⟩
    · exact absurd hcore hm.2.1
    · rw [hstage']
    · rw [hstage']
      decide
  | targetExtra =>
    rw [hstage] at hm
    rcases hm' with ⟨_, hcore⟩ | ⟨_, hextra⟩ | ⟨hstage', _⟩
    · exact absurd hcore hm.2.1
    · exact absurd hextra hm.2.2.1
    · rw [hstage']

/-- In every order of iteration the matches are those of the stages over the graph that is built. -/
theorem mem_resolve_matched_iff (elapsedMs : ℕ) {m : ResolvedMatch D} :
    m ∈ (resolve order setToTarget targetToSet options elapsedMs).matched ↔
      (linkGraph setToTarget targetToSet options.k (maxActiveTau options)).IsResolved options m := by
  rw [resolve_matched, (order.matched.perm _).mem_iff, mem_values_leastPerKey_iff]
  · constructor
    · rintro ⟨hmem, hleast⟩
      unfold MatchGraph.IsResolved
      rcases mem_stageMatches_iff.mp hmem with ⟨hstage, hcore⟩ | ⟨hstage, hextra⟩ |
        ⟨hstage, hedge, hcore, htop⟩
      · rw [hstage]
        exact hcore
      · rw [hstage]
        exact hextra
      · rw [hstage]
        refine ⟨hedge, hcore, ?_, htop⟩
        intro hextra
        have hboth : ⟨m.toEdge, .setExtra⟩ ∈
            stageMatches order setToTarget targetToSet (maxActiveTau options) options :=
          mem_stageMatches_iff.mpr (.inr (.inl ⟨rfl, hextra⟩))
        have hle := hleast _ hboth rfl
        have hedges : m.toEdge = (⟨m.toEdge, .setExtra⟩ : ResolvedMatch D).toEdge := rfl
        rw [rank_le_iff_of_toEdge_eq hedges, hstage] at hle
        have hrank : stageRank .targetExtra ≤ stageRank .setExtra := hle
        exact absurd hrank (by decide)
    · intro hresolved
      have hmem : m ∈ stageMatches order setToTarget targetToSet (maxActiveTau options) options :=
        mem_stageMatches_of_isResolved hresolved
      refine ⟨hmem, fun b hb hkey => ?_⟩
      have hedge := stageMatches_toEdge_eq hmem hb hkey.symm
      rw [rank_le_iff_of_toEdge_eq hedge]
      exact stageRank_le_of_isResolved hresolved hb hedge
  · intro a ha b hb hkey hrank
    exact eq_of_rank_eq (stageMatches_toEdge_eq ha hb hkey) hrank

/-- No two matches share a key. -/
theorem nodup_keys_resolve_matched (order : ResolveOrder D) (setToTarget targetToSet : Neighbours D)
    (options : ResolveOptions D) (elapsedMs : ℕ) :
    ((resolve order setToTarget targetToSet options elapsedMs).matched.map fun m => m.key).Nodup := by
  rw [resolve_matched, ((order.matched.perm _).map _).nodup_iff]
  exact nodup_map_key_values fun k a h => (mem_of_lookup_leastPerKey h).2

theorem nodup_pairs_resolve_matched (order : ResolveOrder D)
    (setToTarget targetToSet : Neighbours D) (options : ResolveOptions D) (elapsedMs : ℕ) :
    ((resolve order setToTarget targetToSet options elapsedMs).matched.map fun m =>
      (m.setId, m.targetId)).Nodup := by
  have hkeys := nodup_keys_resolve_matched order setToTarget targetToSet options elapsedMs
  have hfun : (fun m : ResolvedMatch D => m.key) =
      (fun p : DocId × DocId => edgeKey p.1 p.2) ∘ fun m => (m.setId, m.targetId) := rfl
  rw [hfun, ← List.map_map] at hkeys
  exact hkeys.of_map

end Stages

end Vectorlink
