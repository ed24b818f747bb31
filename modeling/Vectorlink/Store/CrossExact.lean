import Mathlib.Algebra.Order.Ring.Unbundled.Rat
import Mathlib.Data.Finset.Card
import Vectorlink.Store.CrossNeighbours

/-! When the merged neighbour lists of a document are its nearest documents. -/
namespace Vectorlink

open Ranking

variable {V D : Type} [LinearOrder D]

/-- The chunks of a document, each with a list of neighbours. -/
abbrev ChunkLists (V D : Type) := List (IndexedPoint V × List (Neighbour DocId D))

namespace ChunkLists

/-- The documents that the lists name. -/
def named (lists : ChunkLists V D) : List DocId := lists.flatMap fun x => ids x.2

/-- The lists merged in their order. -/
def merged (lists : ChunkLists V D) : List (Neighbour DocId D) :=
  keepAll (lists.flatMap Prod.snd) []

omit [LinearOrder D] in
theorem mem_named {lists : ChunkLists V D} {x : DocId} :
    x ∈ lists.named ↔ ∃ y ∈ lists, x ∈ ids y.2 := List.mem_flatMap

omit [LinearOrder D] in
theorem named_eq_ids (lists : ChunkLists V D) : lists.named = ids (lists.flatMap Prod.snd) := by
  induction lists with
  | nil => rfl
  | cons x lists ih =>
    unfold named at ih ⊢
    rw [List.flatMap_cons, List.flatMap_cons, ids_append, ih]

theorem nodup_merged (lists : ChunkLists V D) : (ids lists.merged).Nodup :=
  nodup_keepAll nodup_ids_nil

theorem mem_ids_merged {lists : ChunkLists V D} {x : DocId} :
    x ∈ ids lists.merged ↔ x ∈ lists.named := by
  rw [named_eq_ids, merged, mem_ids_keepAll]
  simp

theorem length_merged (lists : ChunkLists V D) :
    lists.merged.length = lists.named.toFinset.card := by
  have hset : (ids lists.merged).toFinset = lists.named.toFinset := by
    ext x
    rw [List.mem_toFinset, List.mem_toFinset, mem_ids_merged]
  rw [← hset, List.toFinset_card_of_nodup lists.nodup_merged, ids, List.length_map]

theorem mem_of_mem_merged {lists : ChunkLists V D} {n : Neighbour DocId D} (h : n ∈ lists.merged) :
    ∃ x ∈ lists, n ∈ x.2 :=
  List.mem_flatMap.mp ((mem_of_mem_keepAll h).resolve_left List.not_mem_nil)

theorem merged_le {lists : ChunkLists V D} {n m : Neighbour DocId D} {x : IndexedPoint V ×
    List (Neighbour DocId D)} (hn : n ∈ lists.merged) (hx : x ∈ lists) (hm : m ∈ x.2)
    (hid : n.id = m.id) : n.distance ≤ m.distance :=
  keepAll_le nodup_ids_nil hn (.inr (List.mem_flatMap.mpr ⟨x, hx, hm⟩)) hid

theorem merged_concat (lists : ChunkLists V D) (x : IndexedPoint V × List (Neighbour DocId D)) :
    merged (lists ++ [x]) = keepAll x.2 lists.merged := by
  unfold merged
  rw [List.flatMap_append, keepAll_append]
  simp

theorem merged_cons (x : IndexedPoint V × List (Neighbour DocId D)) (lists : ChunkLists V D)
    (h : (ids x.2).Nodup) : merged (x :: lists) = keepAll (lists.flatMap Prod.snd) x.2 := by
  unfold merged
  rw [List.flatMap_cons, keepAll_append, keepAll_of_nodup h]

end ChunkLists

section Distances

variable {q : CrossQuery V D} {candidates points : List (IndexedPoint V)} {doc x : DocId} {d : D}

namespace CrossQuery

theorem chunkDistance_eq_iff {probe : V} :
    q.chunkDistance candidates probe x = d ↔
      d ∈ q.distances candidates probe x ∧ ∀ e ∈ q.distances candidates probe x, d ≤ e :=
  List.minimum_eq_coe_iff

/-- The distance of two documents is the least distance of a chunk to the other document. -/
theorem docDistance_eq_iff :
    q.docDistance candidates points doc x = d ↔
      (∃ p ∈ points, p.docId = doc ∧ q.chunkDistance candidates p.embedding x = d) ∧
        ∀ p ∈ points, p.docId = doc → (d : WithTop D) ≤ q.chunkDistance candidates p.embedding x := by
  unfold docDistance
  rw [List.minimum_eq_coe_iff]
  have hmem : ∀ e, (e ∈ (points.filter fun p => p.docId = doc).flatMap
      fun p => q.distances candidates p.embedding x) ↔
      ∃ p ∈ points, p.docId = doc ∧ e ∈ q.distances candidates p.embedding x := by
    intro e
    simp [List.mem_flatMap, and_assoc]
  constructor
  · rintro ⟨hd, hleast⟩
    obtain ⟨p, hp, hself, hd⟩ := (hmem d).mp hd
    refine ⟨⟨p, hp, hself, chunkDistance_eq_iff.mpr ⟨hd, fun e he => ?_⟩⟩, fun p' hp' hself' => ?_⟩
    · exact hleast e ((hmem e).mpr ⟨p, hp, hself, he⟩)
    · refine List.le_minimum_of_forall_le fun e he => ?_
      exact WithTop.coe_le_coe.mpr (hleast e ((hmem e).mpr ⟨p', hp', hself', he⟩))
  · rintro ⟨⟨p, hp, hself, hd⟩, hleast⟩
    refine ⟨(hmem d).mpr ⟨p, hp, hself, (chunkDistance_eq_iff.mp hd).1⟩, fun e he => ?_⟩
    obtain ⟨p', hp', hself', he⟩ := (hmem e).mp he
    have hle := hleast p' hp' hself'
    exact WithTop.coe_le_coe.mp (hle.trans (List.minimum_le_of_mem' he))

theorem chunkPool_inj {p : IndexedPoint V} {n m : Neighbour DocId D}
    (hn : n ∈ q.chunkPool candidates p) (hm : m ∈ q.chunkPool candidates p) (hid : n.id = m.id) :
    n = m := by
  obtain ⟨x, d⟩ := n
  obtain ⟨y, e⟩ := m
  obtain rfl : x = y := hid
  have heq : (d : WithTop D) = e := hn.2.1.symm.trans hm.2.1
  rw [WithTop.coe_inj.mp heq]

end CrossQuery

end Distances

/-- Lists of the nearest documents for the chunks of a document, one for each. -/
structure CrossQuery.NearestLists (q : CrossQuery V D) (candidates points : List (IndexedPoint V))
    (doc : DocId) (lists : ChunkLists V D) : Prop where
  chunks : (lists.map Prod.fst).Perm (points.filter fun p => p.docId = doc)
  nearest : ∀ x ∈ lists, IsNearest q.k (q.chunkPool candidates x.1) x.2

/-- However ties are broken, the nearest documents of the single chunks are together no more
than asked for, and no chunk ranks two of them against the distances of the documents. -/
structure CrossQuery.ChunksAgree (q : CrossQuery V D) (candidates points : List (IndexedPoint V))
    (doc : DocId) : Prop where
  capped : ∀ lists, q.NearestLists candidates points doc lists →
    lists.named.toFinset.card ≤ q.k
  ranked : ∀ lists, q.NearestLists candidates points doc lists →
    ∀ x ∈ lists, ∀ y ∈ ids x.2, ∀ z ∈ lists.named,
      q.chunkDistance candidates x.1.embedding y ≤ q.chunkDistance candidates x.1.embedding z →
      q.docDistance candidates points doc y ≤ q.docDistance candidates points doc z

namespace CrossQuery.NearestLists

variable {q : CrossQuery V D} {candidates points : List (IndexedPoint V)} {doc : DocId}
  {lists : ChunkLists V D}

theorem point (h : q.NearestLists candidates points doc lists)
    {x : IndexedPoint V × List (Neighbour DocId D)} (hx : x ∈ lists) :
    x.1 ∈ points ∧ x.1.docId = doc := by
  have hmem := h.chunks.mem_iff.mp (List.mem_map_of_mem hx)
  simpa using hmem

theorem list (h : q.NearestLists candidates points doc lists) {p : IndexedPoint V}
    (hp : p ∈ points) (hself : p.docId = doc) : ∃ l, (p, l) ∈ lists := by
  have hmem : p ∈ lists.map Prod.fst := h.chunks.mem_iff.mpr (by simpa using ⟨hp, hself⟩)
  obtain ⟨x, hx, rfl⟩ := List.mem_map.mp hmem
  exact ⟨x.2, hx⟩

/-- A list that is cut off and a document that another list names are too many. -/
theorem mem_of_named (h : q.NearestLists candidates points doc lists)
    (hcap : lists.named.toFinset.card ≤ q.k) {x : IndexedPoint V × List (Neighbour DocId D)}
    (hx : x ∈ lists) {n : Neighbour DocId D} (hn : n ∈ q.chunkPool candidates x.1)
    (hnamed : n.id ∈ lists.named) : n ∈ x.2 := by
  by_contra hnot
  have hnear := h.nearest x hx
  have hid : n.id ∉ ids x.2 := by
    intro hmem
    obtain ⟨d, hd⟩ := mem_ids.mp hmem
    rw [q.chunkPool_inj hn (hnear.sub _ hd) rfl] at hnot
    exact hnot hd
  have hnodup : (n.id :: ids x.2).Nodup := List.nodup_cons.mpr ⟨hid, hnear.nodup⟩
  have hsub : (n.id :: ids x.2).toFinset ⊆ lists.named.toFinset := by
    intro y hy
    rw [List.mem_toFinset] at hy ⊢
    rcases List.mem_cons.mp hy with rfl | hy
    · exact hnamed
    · exact ChunkLists.mem_named.mpr ⟨x, hx, hy⟩
  have hcard := Finset.card_le_card hsub
  rw [List.toFinset_card_of_nodup hnodup, List.length_cons, ids, List.length_map,
    (hnear.rest n hn hnot).1] at hcard
  omega

/-- The merged distances are those of the documents. -/
theorem merged_sub (h : q.NearestLists candidates points doc lists)
    (hcap : lists.named.toFinset.card ≤ q.k) {n : Neighbour DocId D} (hn : n ∈ lists.merged) :
    n ∈ q.docPool candidates points doc := by
  obtain ⟨x, hx, hnx⟩ := ChunkLists.mem_of_mem_merged hn
  obtain ⟨hne, hdist, hthreshold⟩ := (h.nearest x hx).sub n hnx
  obtain ⟨hpoint, hself⟩ := h.point hx
  rw [hself] at hne
  refine ⟨hne, CrossQuery.docDistance_eq_iff.mpr ⟨⟨x.1, hpoint, hself, hdist⟩, ?_⟩, hthreshold⟩
  intro p hp hp'
  obtain ⟨l, hl⟩ := h.list hp hp'
  -- Beyond the threshold there is nothing to compare with, within it the list has the document.
  cases he : q.chunkDistance candidates p.embedding n.id with
  | top => exact le_top
  | coe e =>
    refine WithTop.coe_le_coe.mpr ?_
    rcases le_or_gt e q.threshold with hle | hgt
    · have hpool : (⟨n.id, e⟩ : Neighbour DocId D) ∈ q.chunkPool candidates p :=
        ⟨by rw [hp']; exact hne, he, hle⟩
      have hnamed : n.id ∈ lists.named := ChunkLists.mem_ids_merged.mp (id_mem_ids hn)
      have hmem : (⟨n.id, e⟩ : Neighbour DocId D) ∈ l := h.mem_of_named hcap hl hpool hnamed
      exact ChunkLists.merged_le hn hl hmem rfl
    · exact hthreshold.trans hgt.le

/-- What is not merged is no nearer. -/
theorem merged_rest (h : q.NearestLists candidates points doc lists)
    (hcap : lists.named.toFinset.card ≤ q.k) {n : Neighbour DocId D}
    (hn : n ∈ q.docPool candidates points doc) (hnot : n ∉ lists.merged) :
    lists.merged.length = q.k ∧ ∀ m ∈ lists.merged, m.distance ≤ n.distance := by
  obtain ⟨hne, hdist, hthreshold⟩ := hn
  obtain ⟨⟨p, hp, hself, hpdist⟩, -⟩ := CrossQuery.docDistance_eq_iff.mp hdist
  obtain ⟨l, hl⟩ := h.list hp hself
  have hpool : n ∈ q.chunkPool candidates p := ⟨by rw [hself]; exact hne, hpdist, hthreshold⟩
  have hunnamed : n.id ∉ lists.named := by
    intro hnamed
    obtain ⟨d, hd⟩ := mem_ids.mp (ChunkLists.mem_ids_merged.mpr hnamed)
    have heq : (d : WithTop D) = n.distance := (h.merged_sub hcap hd).2.1.symm.trans hdist
    rw [WithTop.coe_inj.mp heq] at hd
    exact hnot hd
  have hnl : n ∉ l := fun hmem => hunnamed (ChunkLists.mem_named.mpr ⟨_, hl, id_mem_ids hmem⟩)
  obtain ⟨hlen, hle⟩ := (h.nearest _ hl).rest n hpool hnl
  have hsub : (ids l).toFinset ⊆ lists.named.toFinset := by
    intro y hy
    rw [List.mem_toFinset] at hy ⊢
    exact ChunkLists.mem_named.mpr ⟨_, hl, hy⟩
  have hcard : (ids l).toFinset.card = q.k := by
    rw [List.toFinset_card_of_nodup (h.nearest _ hl).nodup, ids, List.length_map]
    exact hlen
  have hsame := Finset.eq_of_subset_of_card_le hsub (by rw [hcard]; exact hcap)
  refine ⟨by rw [ChunkLists.length_merged, ← hsame, hcard], fun m hm => ?_⟩
  have hml : m.id ∈ ids l := by
    rw [← List.mem_toFinset, hsame, List.mem_toFinset]
    exact ChunkLists.mem_ids_merged.mp (id_mem_ids hm)
  obtain ⟨d, hd⟩ := mem_ids.mp hml
  exact (ChunkLists.merged_le hm hl hd rfl).trans (hle _ hd)

/-- A document that a list leaves out is no nearer to its chunk than one that it names. -/
theorem chunkDistance_le_of_notMem (h : q.NearestLists candidates points doc lists)
    {x : IndexedPoint V × List (Neighbour DocId D)} (hx : x ∈ lists) {y z : DocId}
    (hy : y ∈ ids x.2) (hz : z ∉ ids x.2) (hne : z ≠ doc) :
    q.chunkDistance candidates x.1.embedding y ≤ q.chunkDistance candidates x.1.embedding z := by
  obtain ⟨d, hd⟩ := mem_ids.mp hy
  have hnear := h.nearest x hx
  obtain ⟨-, hdist, hthreshold⟩ := hnear.sub _ hd
  rw [hdist]
  cases he : q.chunkDistance candidates x.1.embedding z with
  | top => exact le_top
  | coe e =>
    refine WithTop.coe_le_coe.mpr ?_
    rcases le_or_gt e q.threshold with hle | hgt
    · have hpool : (⟨z, e⟩ : Neighbour DocId D) ∈ q.chunkPool candidates x.1 :=
        ⟨by rw [(h.point hx).2]; exact hne, he, hle⟩
      exact (hnear.rest _ hpool fun hmem => hz (id_mem_ids hmem)).2 _ hd
    · exact hthreshold.trans hgt.le

/-- Of two documents that one list names, the earlier one is no farther from its chunk. -/
theorem ids_pairwise (h : q.NearestLists candidates points doc lists)
    {x : IndexedPoint V × List (Neighbour DocId D)} (hx : x ∈ lists) :
    (ids x.2).Pairwise fun y z =>
      q.chunkDistance candidates x.1.embedding y ≤ q.chunkDistance candidates x.1.embedding z := by
  have hnear := h.nearest x hx
  refine List.pairwise_map.mpr (hnear.sorted.imp_of_mem fun {n m} hn hm hle => ?_)
  rw [(hnear.sub n hn).2.1, (hnear.sub m hm).2.1]
  exact WithTop.coe_le_coe.mpr hle

/-- Each list that is merged goes on where the lists before it ended. -/
theorem ids_merged_pairwise (h : q.NearestLists candidates points doc lists)
    (hranked : ∀ x ∈ lists, ∀ y ∈ ids x.2, ∀ z ∈ lists.named,
      q.chunkDistance candidates x.1.embedding y ≤ q.chunkDistance candidates x.1.embedding z →
      q.docDistance candidates points doc y ≤ q.docDistance candidates points doc z) :
    (ids lists.merged).Pairwise fun y z =>
      q.docDistance candidates points doc y ≤ q.docDistance candidates points doc z := by
  have hnamed : ∀ {x y}, x ∈ lists → y ∈ ids x.2 → y ∈ lists.named :=
    fun hx hy => ChunkLists.mem_named.mpr ⟨_, hx, hy⟩
  have hpart : ∀ part : ChunkLists V D, (∀ x ∈ part, x ∈ lists) →
      (ids part.merged).Pairwise fun y z =>
        q.docDistance candidates points doc y ≤ q.docDistance candidates points doc z := by
    intro part
    induction part using List.reverseRecOn with
    | nil => exact fun _ => List.Pairwise.nil
    | append_singleton part x ih =>
      intro hpart
      have hx : x ∈ lists := hpart x (by simp)
      rw [ChunkLists.merged_concat, ids_keepAll (h.nearest x hx).nodup]
      refine List.pairwise_append.mpr ⟨ih fun y hy => hpart y (by simp [hy]), ?_, ?_⟩
      · refine List.Pairwise.sublist List.filter_sublist ((h.ids_pairwise hx).imp_of_mem ?_)
        intro y z hy hz hle
        exact hranked x hx y hy z (hnamed hx hz) hle
      · intro y hy z hz
        obtain ⟨hz, hznot⟩ := List.mem_filter.mp hz
        obtain ⟨w, hw, hyw⟩ := ChunkLists.mem_named.mp (ChunkLists.mem_ids_merged.mp hy)
        have hwl : w ∈ lists := hpart w (by simp [hw])
        have hzw : z ∉ ids w.2 := by
          intro hmem
          have : z ∈ ids (ChunkLists.merged part) :=
            ChunkLists.mem_ids_merged.mpr (ChunkLists.mem_named.mpr ⟨w, hw, hmem⟩)
          simp [this] at hznot
        have hne : z ≠ doc := by
          obtain ⟨d, hd⟩ := mem_ids.mp hz
          have hpool := ((h.nearest x hx).sub _ hd).1
          rwa [(h.point hx).2] at hpool
        exact hranked w hwl y hyw z (hnamed hx hz) (h.chunkDistance_le_of_notMem hwl hyw hzw hne)
  exact hpart lists fun _ hx => hx

theorem merged_isNearest (h : q.NearestLists candidates points doc lists)
    (hagree : q.ChunksAgree candidates points doc) :
    IsNearest q.k (q.docPool candidates points doc) lists.merged := by
  have hcap := hagree.capped lists h
  have hpairwise := List.pairwise_map.mp (h.ids_merged_pairwise (hagree.ranked lists h))
  refine ⟨lists.nodup_merged, hpairwise.imp_of_mem fun {n m} hn hm hle => ?_, ?_,
    fun n hn => h.merged_sub hcap hn, fun n hn hnot => h.merged_rest hcap hn hnot⟩
  · rw [(h.merged_sub hcap hn).2.1, (h.merged_sub hcap hm).2.1] at hle
    exact WithTop.coe_le_coe.mp hle
  · rw [ChunkLists.length_merged]
    exact hcap

/-- One chunk first, and among those at its distance one document first. -/
theorem exists_first (h : q.NearestLists candidates points doc lists)
    {x : IndexedPoint V × List (Neighbour DocId D)} (hx : x ∈ lists) {n : Neighbour DocId D}
    (hn : n ∈ x.2) :
    ∃ l rest, q.NearestLists candidates points doc ((x.1, l) :: rest) ∧ l.Perm x.2 ∧
      (∀ m ∈ x.2, m ≠ n → n.distance ≤ m.distance → [n, m].Sublist l) ∧
      ∀ z ∈ lists.named, z ∈ ChunkLists.named ((x.1, l) :: rest) := by
  obtain ⟨before, after, rfl⟩ := List.append_of_mem hx
  have hperm : ((n :: x.2.erase n).insertionSort Nearer).Perm x.2 :=
    (List.perm_insertionSort _ _).trans (List.perm_cons_erase hn).symm
  refine ⟨(n :: x.2.erase n).insertionSort Nearer, before ++ after, ⟨?_, ?_⟩, hperm, ?_, ?_⟩
  · refine List.Perm.trans ?_ h.chunks
    rw [List.map_cons, List.map_append, List.map_append, List.map_cons]
    exact List.perm_middle.symm
  · intro y hy
    rcases List.mem_cons.mp hy with rfl | hy
    · exact (h.nearest x hx).of_perm hperm (List.pairwise_insertionSort _ _)
    · refine h.nearest y ?_
      rcases List.mem_append.mp hy with hy | hy
      · exact List.mem_append_left _ hy
      · exact List.mem_append_right _ (List.mem_cons_of_mem _ hy)
  · intro m hm hne hle
    refine List.pair_sublist_insertionSort hle ?_
    exact List.Sublist.cons_cons _ (List.singleton_sublist.mpr ((List.mem_erase_of_ne hne).mpr hm))
  · intro z hz
    obtain ⟨y, hy, hzy⟩ := ChunkLists.mem_named.mp hz
    rw [ChunkLists.mem_named]
    rcases List.mem_append.mp hy with hy | hy
    · exact ⟨y, List.mem_cons_of_mem _ (List.mem_append_left _ hy), hzy⟩
    · rcases List.mem_cons.mp hy with rfl | hy
      · exact ⟨_, List.mem_cons_self, ((hperm.map _).mem_iff).mpr hzy⟩
      · exact ⟨y, List.mem_cons_of_mem _ (List.mem_append_right _ hy), hzy⟩

end CrossQuery.NearestLists

section Agree

variable {q : CrossQuery V D} {candidates points : List (IndexedPoint V)} {doc : DocId}

theorem CrossQuery.chunksAgree_of_nearest
    (h : ∀ lists, q.NearestLists candidates points doc lists →
      IsNearest q.k (q.docPool candidates points doc) lists.merged) :
    q.ChunksAgree candidates points doc := by
  refine ⟨fun lists hlists => ?_, fun lists hlists x hx y hy z hz hle => ?_⟩
  · rw [← ChunkLists.length_merged]
    exact (h lists hlists).capped
  · obtain ⟨d, hd⟩ := mem_ids.mp hy
    obtain ⟨l, rest, hlists', hperm, hpairs, hnamed⟩ := hlists.exists_first hx hd
    have hnear := h _ hlists'
    have hsorted : (ids (ChunkLists.merged ((x.1, l) :: rest))).Pairwise fun y z =>
        q.docDistance candidates points doc y ≤ q.docDistance candidates points doc z := by
      refine List.pairwise_map.mpr (hnear.sorted.imp_of_mem fun {n m} hn hm hle => ?_)
      rw [(hnear.sub n hn).2.1, (hnear.sub m hm).2.1]
      exact WithTop.coe_le_coe.mpr hle
    have hfront : ids l <+: ids (ChunkLists.merged ((x.1, l) :: rest)) := by
      rw [ChunkLists.merged_cons _ _ (hlists'.nearest _ List.mem_cons_self).nodup]
      exact ids_prefix_keepAll _ _
    by_cases hyz : y = z
    · rw [hyz]
    · have hsub : [y, z].Sublist (ids (ChunkLists.merged ((x.1, l) :: rest))) := by
        by_cases hzx : z ∈ ids x.2
        · obtain ⟨e, he⟩ := mem_ids.mp hzx
          have hnearx := hlists.nearest x hx
          rw [(hnearx.sub _ hd).2.1, (hnearx.sub _ he).2.1] at hle
          have hpair : [(⟨y, d⟩ : Neighbour DocId D), ⟨z, e⟩].Sublist l := by
            refine hpairs _ he (fun heq => ?_) (WithTop.coe_le_coe.mp hle)
            exact hyz (Neighbour.mk.inj heq).1.symm
          exact (hpair.map Neighbour.id).trans hfront.sublist
        · obtain ⟨after, hafter⟩ := hfront
          have hyl : y ∈ ids l := (hperm.map _).mem_iff.mpr hy
          have hzl : z ∉ ids l := fun hmem => hzx ((hperm.map _).mem_iff.mp hmem)
          have hzmerged := ChunkLists.mem_ids_merged.mpr (hnamed z hz)
          rw [← hafter] at hzmerged ⊢
          exact (List.singleton_sublist.mpr hyl).append
            (List.singleton_sublist.mpr ((List.mem_append.mp hzmerged).resolve_left hzl))
      exact (List.pairwise_cons.mp (hsorted.sublist hsub)).1 z (List.mem_singleton_self z)

end Agree

section Runs

variable {q : CrossQuery V D} {candidates points : List (IndexedPoint V)} {doc : DocId}

namespace CrossQuery

/-- The points of a run with the lists that their probes gave. -/
def probed (q : CrossQuery V D) (candidates : List (IndexedPoint V)) :
    (ℕ → HashOrder (Neighbour DocId D)) → List (IndexedPoint V) → ChunkLists V D
  | _, [] => []
  | order, p :: points =>
    (p, q.flatKnnTopK (order 0) p.embedding p.docId candidates) ::
      q.probed candidates (fun n => order (n + 1)) points

theorem listed_add {result : NeighbourMap D} {id : DocId} {l : List (Neighbour DocId D)}
    (h : (ids l).Nodup) :
    (result.add id l).listed doc =
      if id = doc then keepAll l (result.listed doc) else result.listed doc := by
  unfold NeighbourMap.add NeighbourMap.listed
  cases l with
  | nil => simp
  | cons n l =>
    by_cases hid : id = doc
    · subst hid
      cases hr : result id with
      | none => simp [keepAll_of_nodup h]
      | some existing => simp [mergeNeighbours]
    · simp [hid, Ne.symm hid]

theorem listed_probeAll (order : ℕ → HashOrder (Neighbour DocId D)) (result : NeighbourMap D)
    (points : List (IndexedPoint V)) :
    (q.probeAll candidates order result points).listed doc =
      keepAll (((q.probed candidates order points).filter fun x => x.1.docId = doc).flatMap Prod.snd)
        (result.listed doc) := by
  induction points generalizing order result with
  | nil => rfl
  | cons p points ih =>
    rw [probeAll, ih, listed_add (q.flatKnnTopK_isNearest (order 0) p).nodup, probed]
    by_cases hp : p.docId = doc
    · rw [if_pos hp, List.filter_cons_of_pos (by simpa using hp), List.flatMap_cons, keepAll_append]
    · rw [if_neg hp, List.filter_cons_of_neg (by simpa using hp)]

theorem map_fst_probed (q : CrossQuery V D) (candidates : List (IndexedPoint V))
    (order : ℕ → HashOrder (Neighbour DocId D)) (points : List (IndexedPoint V)) :
    (q.probed candidates order points).map Prod.fst = points := by
  induction points generalizing order with
  | nil => rfl
  | cons p points ih => rw [probed, List.map_cons, ih]

theorem probed_nearest {order : ℕ → HashOrder (Neighbour DocId D)}
    {x : IndexedPoint V × List (Neighbour DocId D)} (hx : x ∈ q.probed candidates order points) :
    IsNearest q.k (q.chunkPool candidates x.1) x.2 := by
  induction points generalizing order with
  | nil => cases hx
  | cons p points ih =>
    rcases List.mem_cons.mp hx with rfl | hx
    · exact q.flatKnnTopK_isNearest (order 0) p
    · exact ih hx

/-- Every run gives lists of the nearest for the chunks of a document. -/
theorem nearestLists_probed {order : ℕ → HashOrder (Neighbour DocId D)}
    {points' : List (IndexedPoint V)} (hperm : points'.Perm points) :
    q.NearestLists candidates points doc
      ((q.probed candidates order points').filter fun x => x.1.docId = doc) where
  chunks := by
    have hmap : ((q.probed candidates order points').filter fun x => x.1.docId = doc).map Prod.fst =
        points'.filter fun p => p.docId = doc := by
      conv_rhs => rw [← map_fst_probed q candidates order points', List.filter_map]
      rfl
    rw [hmap]
    exact hperm.filter _
  nearest x hx := probed_nearest (List.mem_of_mem_filter hx)

/-- And any lists come out of some run. -/
theorem exists_probed {lists : ChunkLists V D}
    (h : ∀ x ∈ lists, IsNearest q.k (q.chunkPool candidates x.1) x.2)
    (others : List (IndexedPoint V)) :
    ∃ order order', q.probed candidates order (lists.map Prod.fst ++ others) =
      lists ++ q.probed candidates order' others := by
  induction lists with
  | nil => exact ⟨fun _ => ⟨id, List.Perm.refl⟩, fun _ => ⟨id, List.Perm.refl⟩, rfl⟩
  | cons x lists ih =>
    obtain ⟨order, order', heq⟩ := ih fun y hy => h y (List.mem_cons_of_mem _ hy)
    obtain ⟨first, hfirst⟩ := q.exists_order (h x List.mem_cons_self)
    refine ⟨fun n => n.casesOn first order, order', ?_⟩
    rw [List.map_cons, List.cons_append, probed, List.cons_append]
    exact congrArg₂ List.cons (Prod.ext rfl hfirst) heq

/-- The chunks of the candidate documents at the snapshot. -/
def candidateChunks (rows : List (ChunkRow V)) (candidateDocIds : List DocId) :
    List (IndexedPoint V) :=
  (rows.filter fun r => r.docId ∈ candidateDocIds).map fun r => ⟨r.docId, r.embedding⟩

theorem probeAll_nil (order : ℕ → HashOrder (Neighbour DocId D)) (result : NeighbourMap D)
    (points : List (IndexedPoint V)) : q.probeAll [] order result points = result := by
  induction points generalizing order with
  | nil => rfl
  | cons p points ih =>
    have hempty : q.flatKnnTopK (order 0) p.embedding p.docId [] = [] := by
      have hnear : IsNearest q.k (q.chunkPool [] p) _ := flatKnnTopK_isNearest (order 0) p
      refine List.eq_nil_iff_forall_not_mem.mpr fun n hn => ?_
      have hdist := (hnear.sub n hn).2.1
      rw [chunkDistance_eq_iff, mem_distances] at hdist
      obtain ⟨⟨c, hc, -⟩, -⟩ := hdist
      cases hc
    rw [probeAll, hempty]
    exact ih _

/-- On a snapshot that can be read the map is built. -/
theorem ioCollectTopKCrossFlat_ok (order : ℕ → HashOrder (Neighbour DocId D))
    (rows : List (ChunkRow V)) (points : List (IndexedPoint V)) (candidateDocIds : List DocId) :
    q.ioCollectTopKCrossFlat order (.ok rows) points candidateDocIds =
      .ok (q.probeAll (candidateChunks rows candidateDocIds) order (fun _ => none) points) := by
  have hchunks : ioMaterialiseCandidateEmbeddings (.ok rows) candidateDocIds =
      .ok (candidateChunks rows candidateDocIds) := by
    unfold ioMaterialiseCandidateEmbeddings candidateChunks
    cases candidateDocIds with
    | nil => simp
    | cons id rest => rfl
  unfold ioCollectTopKCrossFlat
  rw [hchunks]
  cases hc : candidateChunks rows candidateDocIds with
  | nil =>
    rw [probeAll_nil]
    rfl
  | cons c rest => rfl

/-- The list of a document is that of its nearest documents, whatever the orders of its chunks
and of the hash maps, and these change it by ties at most. -/
structure ExactNeighbours (q : CrossQuery V D) (rows : List (ChunkRow V))
    (candidateDocIds : List DocId) (points : List (IndexedPoint V)) (doc : DocId) : Prop where
  nearest : ∀ points', points'.Perm points → ∀ order, ∃ result,
    q.ioCollectTopKCrossFlat order (.ok rows) points' candidateDocIds = .ok result ∧
      IsNearest q.k (q.docPool (candidateChunks rows candidateDocIds) points doc)
        (result.listed doc)
  same : ∀ points' points'', points'.Perm points → points''.Perm points →
    ∀ order order' result result',
      q.ioCollectTopKCrossFlat order (.ok rows) points' candidateDocIds = .ok result →
      q.ioCollectTopKCrossFlat order' (.ok rows) points'' candidateDocIds = .ok result' →
      SameUpToTies (result.listed doc) (result'.listed doc)

theorem listed_eq_merged (order : ℕ → HashOrder (Neighbour DocId D)) (points : List (IndexedPoint V)) :
    (q.probeAll candidates order (fun _ => none) points).listed doc =
      ChunkLists.merged ((q.probed candidates order points).filter fun x => x.1.docId = doc) :=
  listed_probeAll order _ points

/-- The merged lists are the nearest documents exactly if the chunks of the document agree on
them. -/
theorem cross_neighbours_exact_iff (q : CrossQuery V D) (rows : List (ChunkRow V))
    (candidateDocIds : List DocId) (points : List (IndexedPoint V)) (doc : DocId) :
    q.ExactNeighbours rows candidateDocIds points doc ↔
      q.ChunksAgree (candidateChunks rows candidateDocIds) points doc := by
  constructor
  · intro h
    refine chunksAgree_of_nearest fun lists hlists => ?_
    let others := points.filter fun p => !decide (p.docId = doc)
    have hperm : (lists.map Prod.fst ++ others).Perm points :=
      (hlists.chunks.append_right _).trans (List.filter_append_perm _ points)
    obtain ⟨order, order', hprobed⟩ := q.exists_probed hlists.nearest others
    obtain ⟨result, hresult, hnear⟩ := h.nearest _ hperm order
    obtain rfl := Except.ok.inj ((ioCollectTopKCrossFlat_ok order rows _ _).symm.trans hresult)
    rw [listed_eq_merged, hprobed, List.filter_append] at hnear
    have hlists' : lists.filter (fun x => x.1.docId = doc) = lists :=
      List.filter_eq_self.mpr fun x hx => by simpa using (hlists.point hx).2
    have hothers : (q.probed (candidateChunks rows candidateDocIds) order' others).filter
        (fun x => x.1.docId = doc) = [] := by
      refine List.filter_eq_nil_iff.mpr fun x hx => ?_
      have hmem := List.mem_map_of_mem (f := Prod.fst) hx
      rw [map_fst_probed] at hmem
      simpa using List.of_mem_filter hmem
    rw [hlists', hothers, List.append_nil] at hnear
    exact hnear
  · intro h
    have hnear : ∀ points', points'.Perm points → ∀ order result,
        q.ioCollectTopKCrossFlat order (.ok rows) points' candidateDocIds = .ok result →
        IsNearest q.k (q.docPool (candidateChunks rows candidateDocIds) points doc)
          (result.listed doc) := by
      intro points' hperm order result hresult
      obtain rfl := Except.ok.inj ((ioCollectTopKCrossFlat_ok order rows _ _).symm.trans hresult)
      rw [listed_eq_merged]
      exact (nearestLists_probed hperm).merged_isNearest h
    refine ⟨fun points' hperm order => ?_, fun points' points'' hperm' hperm'' order order' result
      result' hresult hresult' => ?_⟩
    · exact ⟨_, ioCollectTopKCrossFlat_ok order rows points' candidateDocIds,
        hnear points' hperm order _ (ioCollectTopKCrossFlat_ok order rows points' candidateDocIds)⟩
    · exact (hnear points' hperm' order result hresult).same
        (hnear points'' hperm'' order' result' hresult')

end CrossQuery

end Runs

section Samples

/-- Unit vectors of the plane, one neighbour within a quarter of the scale. -/
def planeQuery : CrossQuery (ℚ × ℚ) ℚ where
  cosineDistanceNormalized u v := (1 - (u.1 * v.1 + u.2 * v.2)) / 2
  k := 1
  threshold := 1 / 4

def planeRow (docId : DocId) (embedding : ℚ × ℚ) : ChunkRow (ℚ × ℚ) :=
  ⟨docId, "Doc", 0, 1, 0, 1, embedding, embedding, "text"⟩

/-- Each chunk of `a` is a chunk of another document. -/
def planePoints : List (IndexedPoint (ℚ × ℚ)) := [⟨"a", (1, 0)⟩, ⟨"a", (0, 1)⟩]

/-- One neighbour is asked for, and one for each chunk comes back. -/
theorem cross_neighbours_not_exact :
    (planeQuery.ioCollectTopKCrossFlat (fun _ => ⟨id, List.Perm.refl⟩)
        (.ok [planeRow "b" (1, 0), planeRow "c" (0, 1)]) planePoints ["b", "c"]).map
          (fun result => result.listed "a") = .ok [⟨"b", 0⟩, ⟨"c", 0⟩] ∧
      ¬ planeQuery.ExactNeighbours [planeRow "b" (1, 0), planeRow "c" (0, 1)] ["b", "c"]
        planePoints "a" := by
  have hlisted : (planeQuery.ioCollectTopKCrossFlat (fun _ => ⟨id, List.Perm.refl⟩)
      (.ok [planeRow "b" (1, 0), planeRow "c" (0, 1)]) planePoints ["b", "c"]).map
        (fun result => result.listed "a") = .ok [⟨"b", 0⟩, ⟨"c", 0⟩] := by decide +kernel
  refine ⟨hlisted, fun h => ?_⟩
  obtain ⟨result, hresult, hnear⟩ := h.nearest planePoints (List.Perm.refl _)
    fun _ => ⟨id, List.Perm.refl⟩
  rw [hresult] at hlisted
  have htwo : result.listed "a" = [⟨"b", 0⟩, ⟨"c", 0⟩] := Except.ok.inj hlisted
  have hcapped := hnear.capped
  rw [htwo] at hcapped
  exact absurd hcapped (by decide)

end Samples

end Vectorlink
