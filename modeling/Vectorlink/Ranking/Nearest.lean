import Mathlib.Data.List.Sort
import Mathlib.Data.List.Perm.Subperm
import Mathlib.Order.Bounds.Basic

/-! Neighbours by distance: lists that keep the best distance of each id, and the nearest of a
pool up to ties. -/
namespace Vectorlink.Ranking

variable {ι D : Type*}

structure Neighbour (ι D : Type*) where
  id : ι
  distance : D
deriving DecidableEq

/-- The ids of a list, in its order. -/
def ids (l : List (Neighbour ι D)) : List ι := l.map Neighbour.id

@[simp] theorem ids_nil : ids ([] : List (Neighbour ι D)) = [] := rfl

theorem nodup_ids_nil : (ids ([] : List (Neighbour ι D))).Nodup := List.nodup_nil

@[simp] theorem ids_cons (n : Neighbour ι D) (l : List (Neighbour ι D)) :
    ids (n :: l) = n.id :: ids l := rfl

@[simp] theorem ids_append (l l' : List (Neighbour ι D)) : ids (l ++ l') = ids l ++ ids l' :=
  List.map_append

theorem mem_ids {l : List (Neighbour ι D)} {x : ι} : x ∈ ids l ↔ ∃ d, ⟨x, d⟩ ∈ l := by
  constructor
  · intro h
    obtain ⟨n, hn, rfl⟩ := List.mem_map.mp h
    exact ⟨n.distance, hn⟩
  · rintro ⟨d, h⟩
    exact List.mem_map.mpr ⟨_, h, rfl⟩

theorem id_mem_ids {l : List (Neighbour ι D)} {n : Neighbour ι D} (h : n ∈ l) : n.id ∈ ids l :=
  mem_ids.mpr ⟨n.distance, h⟩

theorem nodup_of_ids {l : List (Neighbour ι D)} (h : (ids l).Nodup) : l.Nodup := h.of_map

section Best

variable [DecidableEq ι] [LinearOrder D]

/-- Put a neighbour into a list: of two distances of one id the smaller stays, a new id comes
last. -/
def keepBest (n : Neighbour ι D) : List (Neighbour ι D) → List (Neighbour ι D)
  | [] => [n]
  | e :: es =>
    if e.id = n.id then (if n.distance < e.distance then ⟨e.id, n.distance⟩ else e) :: es
    else e :: keepBest n es

def keepAll (ns es : List (Neighbour ι D)) : List (Neighbour ι D) :=
  ns.foldl (fun es n => keepBest n es) es

@[simp] theorem keepAll_nil (es : List (Neighbour ι D)) : keepAll [] es = es := rfl

@[simp] theorem keepAll_cons (n : Neighbour ι D) (ns es : List (Neighbour ι D)) :
    keepAll (n :: ns) es = keepAll ns (keepBest n es) := rfl

theorem keepAll_append (ns ns' es : List (Neighbour ι D)) :
    keepAll (ns ++ ns') es = keepAll ns' (keepAll ns es) := List.foldl_append

theorem ids_keepBest (n : Neighbour ι D) (es : List (Neighbour ι D)) :
    ids (keepBest n es) = if n.id ∈ ids es then ids es else ids es ++ [n.id] := by
  induction es with
  | nil => simp [keepBest]
  | cons e es ih =>
    by_cases he : e.id = n.id
    · have hid : (if n.distance < e.distance then ⟨e.id, n.distance⟩ else e).id = e.id := by
        split <;> rfl
      simp [keepBest, he]
      rw [← he, hid]
    · have hne : ¬ n.id = e.id := fun h => he h.symm
      simp only [keepBest, he, if_false, ids_cons, ih, List.mem_cons, hne, false_or]
      split <;> simp

theorem nodup_keepBest {n : Neighbour ι D} {es : List (Neighbour ι D)} (h : (ids es).Nodup) :
    (ids (keepBest n es)).Nodup := by
  rw [ids_keepBest]
  split
  · exact h
  · rename_i hn
    exact List.nodup_append.mpr ⟨h, List.nodup_singleton _, by
      intro x hx y hy
      rw [List.mem_singleton.mp hy]
      rintro rfl
      exact hn hx⟩

theorem nodup_keepAll {ns es : List (Neighbour ι D)} (h : (ids es).Nodup) :
    (ids (keepAll ns es)).Nodup := by
  induction ns generalizing es with
  | nil => exact h
  | cons n ns ih => exact ih (nodup_keepBest h)

/-- Ids that are new come after the others, in their own order. -/
theorem ids_keepAll {ns : List (Neighbour ι D)} (hns : (ids ns).Nodup) (es : List (Neighbour ι D)) :
    ids (keepAll ns es) = ids es ++ (ids ns).filter (· ∉ ids es) := by
  induction ns generalizing es with
  | nil => simp
  | cons n ns ih =>
    obtain ⟨hn, hns⟩ := List.nodup_cons.mp hns
    rw [keepAll_cons, ih hns, ids_keepBest, ids_cons]
    by_cases hmem : n.id ∈ ids es
    · simp [hmem]
    · have hfilter : (ids ns).filter (· ∉ ids es ++ [n.id]) = (ids ns).filter (· ∉ ids es) := by
        refine List.filter_congr fun x hx => ?_
        have hne : x ≠ n.id := by
          rintro rfl
          exact hn hx
        simp [hne]
      rw [if_neg hmem, hfilter, List.filter_cons_of_pos (by simpa using hmem)]
      simp

theorem keepBest_of_notMem {n : Neighbour ι D} {es : List (Neighbour ι D)} (h : n.id ∉ ids es) :
    keepBest n es = es ++ [n] := by
  induction es with
  | nil => rfl
  | cons e es ih =>
    rw [ids_cons, List.mem_cons, not_or] at h
    rw [keepBest, if_neg fun he => h.1 he.symm, ih h.2, List.cons_append]

/-- Without repeated ids there is nothing to choose. -/
theorem keepAll_of_nodup {ns : List (Neighbour ι D)} (h : (ids ns).Nodup) : keepAll ns [] = ns := by
  have hgo : ∀ ns es : List (Neighbour ι D), (ids (es ++ ns)).Nodup → keepAll ns es = es ++ ns := by
    intro ns
    induction ns with
    | nil => simp
    | cons n ns ih =>
      intro es hes
      have hn : n.id ∉ ids es := by
        rw [ids_append, ids_cons, List.nodup_append] at hes
        intro hmem
        exact hes.2.2 _ hmem _ List.mem_cons_self rfl
      rw [keepAll_cons, keepBest_of_notMem hn, ih _ (by simpa using hes)]
      simp
  simpa using hgo ns [] (by simpa using h)

/-- The ids that are there stay in front. -/
theorem ids_prefix_keepAll (ns es : List (Neighbour ι D)) : ids es <+: ids (keepAll ns es) := by
  induction ns generalizing es with
  | nil => exact List.prefix_refl _
  | cons n ns ih =>
    have hbest : ids es <+: ids (keepBest n es) := by
      rw [ids_keepBest]
      split
      · exact List.prefix_refl _
      · exact List.prefix_append _ _
    exact hbest.trans (ih _)

theorem mem_ids_keepAll {ns es : List (Neighbour ι D)} {x : ι} :
    x ∈ ids (keepAll ns es) ↔ x ∈ ids es ∨ x ∈ ids ns := by
  induction ns generalizing es with
  | nil => simp
  | cons n ns ih =>
    rw [keepAll_cons, ih, ids_keepBest, ids_cons, List.mem_cons]
    split
    · rename_i hn
      constructor
      · rintro (h | h)
        · exact .inl h
        · exact .inr (.inr h)
      · rintro (h | rfl | h)
        · exact .inl h
        · exact .inl hn
        · exact .inr h
    · rw [List.mem_append, List.mem_singleton, or_assoc]

/-- Nothing is made up. -/
theorem mem_of_mem_keepBest {n m : Neighbour ι D} {es : List (Neighbour ι D)}
    (h : m ∈ keepBest n es) : m ∈ es ∨ m = n := by
  induction es with
  | nil => exact .inr (List.mem_singleton.mp h)
  | cons e es ih =>
    unfold keepBest at h
    split at h
    · rename_i he
      rcases List.mem_cons.mp h with rfl | h
      · split
        · exact .inr (by rw [he])
        · exact .inl List.mem_cons_self
      · exact .inl (List.mem_cons_of_mem _ h)
    · rcases List.mem_cons.mp h with rfl | h
      · exact .inl List.mem_cons_self
      · rcases ih h with h | h
        · exact .inl (List.mem_cons_of_mem _ h)
        · exact .inr h

theorem mem_of_mem_keepAll {m : Neighbour ι D} {ns es : List (Neighbour ι D)}
    (h : m ∈ keepAll ns es) : m ∈ es ∨ m ∈ ns := by
  induction ns generalizing es with
  | nil => exact .inl h
  | cons n ns ih =>
    rcases ih h with h | h
    · rcases mem_of_mem_keepBest h with h | rfl
      · exact .inl h
      · exact .inr List.mem_cons_self
    · exact .inr (List.mem_cons_of_mem _ h)

omit [DecidableEq ι] in
/-- The one that is kept of two is not farther than either. -/
theorem better_le (n e : Neighbour ι D) :
    (if n.distance < e.distance then (⟨e.id, n.distance⟩ : Neighbour ι D) else e).distance ≤
      min n.distance e.distance := by
  split
  · next hlt => exact le_min le_rfl hlt.le
  · next hlt => exact le_min (not_lt.mp hlt) le_rfl

/-- A member was there under another id, or is as near as all that came under its id. -/
theorem mem_keepBest_cases {n m : Neighbour ι D} {es : List (Neighbour ι D)}
    (hes : (ids es).Nodup) (h : m ∈ keepBest n es) :
    m ∈ es ∧ m.id ≠ n.id ∨
      m.id = n.id ∧ m.distance ≤ n.distance ∧
        ∀ e ∈ es, e.id = n.id → m.distance ≤ e.distance := by
  induction es with
  | nil =>
    obtain rfl := List.mem_singleton.mp h
    exact .inr ⟨rfl, le_rfl, by simp⟩
  | cons e es ih =>
    obtain ⟨he, hes⟩ := List.nodup_cons.mp hes
    by_cases hn : e.id = n.id
    · rw [keepBest, if_pos hn] at h
      have hothers {e' : Neighbour ι D} (he' : e' ∈ es) : e'.id ≠ n.id := by
        intro hid
        rw [hn, ← hid] at he
        exact he (id_mem_ids he')
      cases List.mem_cons.mp h with
      | inl hm =>
        have hle := better_le n e
        rw [← hm] at hle
        have hid : m.id = n.id := by
          rw [hm, ← hn]
          split <;> rfl
        refine .inr ⟨hid, hle.trans (min_le_left _ _), fun e' he' hid => ?_⟩
        cases List.mem_cons.mp he' with
        | inl heq =>
          rw [heq]
          exact hle.trans (min_le_right _ _)
        | inr he' => exact absurd hid (hothers he')
      | inr hm => exact .inl ⟨List.mem_cons_of_mem e hm, hothers hm⟩
    · rw [keepBest, if_neg hn] at h
      cases List.mem_cons.mp h with
      | inl hm =>
        rw [hm]
        exact .inl ⟨List.mem_cons_self, hn⟩
      | inr hm =>
        refine (ih hes hm).imp (fun hm => ⟨List.mem_cons_of_mem e hm.1, hm.2⟩) fun hm => ?_
        refine ⟨hm.1, hm.2.1, fun e' he' hid => ?_⟩
        cases List.mem_cons.mp he' with
        | inl heq =>
          rw [heq] at hid
          exact absurd hid hn
        | inr he' => exact hm.2.2 e' he' hid

/-- What stays is at least as near as what came in under the same id. -/
theorem keepBest_le {n m m' : Neighbour ι D} {es : List (Neighbour ι D)} (hes : (ids es).Nodup)
    (h : m ∈ keepBest n es) (h' : m' ∈ es ∨ m' = n) (hid : m.id = m'.id) :
    m.distance ≤ m'.distance := by
  cases mem_keepBest_cases hes h with
  | inl hold =>
    cases h' with
    | inl h' => rw [List.inj_on_of_nodup_map hes hold.1 h' hid]
    | inr h' =>
      rw [h'] at hid
      exact absurd hid hold.2
  | inr hbest =>
    cases h' with
    | inl h' => exact hbest.2.2 m' h' (hid.symm.trans hbest.1)
    | inr h' =>
      rw [h']
      exact hbest.2.1

theorem keepAll_le {m m' : Neighbour ι D} {ns es : List (Neighbour ι D)} (hes : (ids es).Nodup)
    (h : m ∈ keepAll ns es) (h' : m' ∈ es ∨ m' ∈ ns) (hid : m.id = m'.id) :
    m.distance ≤ m'.distance := by
  induction ns generalizing es m' with
  | nil =>
    rcases h' with h' | h'
    · rw [List.inj_on_of_nodup_map hes h h' hid]
    · cases h'
  | cons n ns ih =>
    have hfirst : m' ∈ es ∨ m' = n → m.distance ≤ m'.distance := by
      intro h'
      have hmem : m'.id ∈ ids (keepBest n es) := by
        rw [ids_keepBest]
        rcases h' with h' | rfl
        · split
          · exact id_mem_ids h'
          · exact List.mem_append_left _ (id_mem_ids h')
        · split
          · assumption
          · exact List.mem_append_right _ (List.mem_singleton_self _)
      obtain ⟨d, hd⟩ := mem_ids.mp hmem
      exact (ih (nodup_keepBest hes) h (.inl hd) hid).trans (keepBest_le hes hd h' rfl)
    rcases h' with h' | h'
    · exact hfirst (.inl h')
    · rcases List.mem_cons.mp h' with rfl | h'
      · exact hfirst (.inr rfl)
      · exact ih (nodup_keepBest hes) h (.inr h') hid

end Best

section Nearest

variable [LinearOrder D]

/-- Nearest first. -/
def Nearer (m n : Neighbour ι D) : Prop := m.distance ≤ n.distance

instance : DecidableRel (Nearer : Neighbour ι D → Neighbour ι D → Prop) :=
  fun m n => inferInstanceAs (Decidable (m.distance ≤ n.distance))

instance : Std.Total (Nearer : Neighbour ι D → Neighbour ι D → Prop) :=
  ⟨fun m n => le_total m.distance n.distance⟩

instance : IsTrans (Neighbour ι D) Nearer := ⟨fun _ _ _ h h' => le_trans h h'⟩

/-- A list of the `k` nearest of a pool. Which of equally distant ones it names, and in which
order, is left open. -/
structure IsNearest (k : ℕ) (pool : Set (Neighbour ι D)) (l : List (Neighbour ι D)) : Prop where
  nodup : (ids l).Nodup
  sorted : l.Pairwise Nearer
  capped : l.length ≤ k
  sub : ∀ n ∈ l, n ∈ pool
  rest : ∀ n ∈ pool, n ∉ l → l.length = k ∧ ∀ m ∈ l, m.distance ≤ n.distance

/-- Two lists that differ at most in what they name at the same distances. -/
structure SameUpToTies (l l' : List (Neighbour ι D)) : Prop where
  distances : l.map Neighbour.distance = l'.map Neighbour.distance
  nearer : ∀ n ∈ l, (∃ m ∈ l, n.distance < m.distance) → n ∈ l'
  nearer' : ∀ n ∈ l', (∃ m ∈ l', n.distance < m.distance) → n ∈ l

variable {k : ℕ} {pool : Set (Neighbour ι D)} {l l' p : List (Neighbour ι D)}

/-- To sort a list and cut it gives the nearest of the list. -/
theorem isNearest_take_insertionSort (k : ℕ) (hp : (ids p).Nodup) :
    IsNearest k {n | n ∈ p} ((p.insertionSort Nearer).take k) := by
  have hperm := List.perm_insertionSort Nearer p
  have hsorted := List.pairwise_insertionSort Nearer p
  refine ⟨?_, hsorted.sublist (List.take_sublist _ _), ?_, ?_, ?_⟩
  · have hids : (ids (p.insertionSort Nearer)).Nodup := (hperm.map _).nodup_iff.mpr hp
    exact hids.sublist ((List.take_sublist _ _).map _)
  · rw [List.length_take]
    exact min_le_left _ _
  · intro n hn
    exact hperm.mem_iff.mp (List.mem_of_mem_take hn)
  · intro n hn hnot
    have hdrop : n ∈ (p.insertionSort Nearer).drop k := by
      have hmem := hperm.mem_iff.mpr hn
      rw [← List.take_append_drop k (p.insertionSort Nearer)] at hmem
      exact (List.mem_append.mp hmem).resolve_left hnot
    constructor
    · have hlt := List.length_pos_of_mem hdrop
      rw [List.length_drop] at hlt
      rw [List.length_take]
      omega
    · intro m hm
      rw [← List.take_append_drop k (p.insertionSort Nearer)] at hsorted
      exact (List.pairwise_append.mp hsorted).2.2 m hm n hdrop

/-- Every list of the nearest comes out of some order of the pool. -/
theorem IsNearest.exists_perm (h : IsNearest k {n | n ∈ p} l) (hp : (ids p).Nodup) :
    ∃ q : List (Neighbour ι D), q.Perm p ∧ (q.insertionSort Nearer).take k = l := by
  classical
  let others := (p.filter (· ∉ l)).insertionSort Nearer
  have hmem : ∀ n, n ∈ others ↔ n ∈ p ∧ n ∉ l := by
    intro n
    simp [others]
  refine ⟨l ++ others, ?_, ?_⟩
  · have hnodup : (l ++ others).Nodup := by
      refine List.nodup_append.mpr ⟨nodup_of_ids h.nodup, ?_, ?_⟩
      · exact (List.perm_insertionSort _ _).nodup_iff.mpr ((nodup_of_ids hp).filter _)
      · rintro n hn m hm rfl
        exact ((hmem n).mp hm).2 hn
    refine (List.perm_ext_iff_of_nodup hnodup (nodup_of_ids hp)).mpr fun n => ?_
    rw [List.mem_append, hmem]
    constructor
    · rintro (hn | hn)
      · exact h.sub n hn
      · exact hn.1
    · intro hn
      by_cases hl : n ∈ l
      · exact .inl hl
      · exact .inr ⟨hn, hl⟩
  · have hsorted : (l ++ others).Pairwise Nearer := by
      refine List.pairwise_append.mpr ⟨h.sorted, List.pairwise_insertionSort _ _, ?_⟩
      intro m hm n hn
      obtain ⟨hn, hnot⟩ := (hmem n).mp hn
      exact (h.rest n hn hnot).2 m hm
    rw [hsorted.insertionSort_eq]
    cases hothers : others with
    | nil =>
      rw [List.append_nil]
      exact List.take_of_length_le h.capped
    | cons n ns =>
      obtain ⟨hn, hnot⟩ := (hmem n).mp (by rw [hothers]; exact List.mem_cons_self)
      rw [← (h.rest n hn hnot).1]
      exact List.take_left

/-- A list of the nearest may order those at one distance as it likes. -/
theorem IsNearest.of_perm (h : IsNearest k pool l) (hperm : l'.Perm l)
    (hsorted : l'.Pairwise Nearer) : IsNearest k pool l' where
  nodup := (hperm.map _).nodup_iff.mpr h.nodup
  sorted := hsorted
  capped := by
    rw [hperm.length_eq]
    exact h.capped
  sub n hn := h.sub n (hperm.mem_iff.mp hn)
  rest n hn hnot := by
    obtain ⟨hlen, hle⟩ := h.rest n hn fun hmem => hnot (hperm.mem_iff.mpr hmem)
    exact ⟨hperm.length_eq.trans hlen, fun m hm => hle m (hperm.mem_iff.mp hm)⟩

theorem IsNearest.length_le (h : IsNearest k pool l) (h' : IsNearest k pool l') :
    l.length ≤ l'.length := by
  by_cases hsub : l ⊆ l'
  · exact (List.subperm_of_subset (nodup_of_ids h.nodup) hsub).length_le
  · obtain ⟨n, hn, hnot⟩ : ∃ n ∈ l, n ∉ l' := by
      by_contra hno
      push Not at hno
      exact hsub hno
    rw [(h'.rest n (h.sub n hn) hnot).1]
    exact h.capped

/-- The distances at one place: whatever comes up to there in one list is in the other. -/
theorem IsNearest.distance_le (h : IsNearest k pool l) (h' : IsNearest k pool l') {i : ℕ}
    (hi : i < l.length) (hi' : i < l'.length) : (l.get ⟨i, hi⟩).distance ≤ (l'.get ⟨i, hi'⟩).distance := by
  by_contra hlt
  rw [not_le] at hlt
  have hearlier : l'.take (i + 1) ⊆ l.take i := by
    intro n hn
    obtain ⟨j, hj, rfl⟩ := List.mem_iff_getElem.mp hn
    rw [List.length_take] at hj
    rw [List.getElem_take]
    have hji : j ≤ i := by omega
    have hle : (l'.get ⟨j, by omega⟩).distance ≤ (l'.get ⟨i, hi'⟩).distance := by
      rcases Nat.lt_or_eq_of_le hji with hji | rfl
      · exact List.pairwise_iff_get.mp h'.sorted ⟨j, by omega⟩ ⟨i, hi'⟩ hji
      · exact le_rfl
    have hmem : l'.get ⟨j, by omega⟩ ∈ l := by
      by_contra hnot
      have := (h.rest _ (h'.sub _ (List.get_mem _ _)) hnot).2 _ (List.get_mem l ⟨i, hi⟩)
      exact absurd (this.trans hle) (not_le.mpr hlt)
    obtain ⟨j', hj', heq⟩ := List.mem_iff_getElem.mp hmem
    have hbefore : j' < i := by
      by_contra hno
      have hge : (l.get ⟨i, hi⟩).distance ≤ (l.get ⟨j', hj'⟩).distance := by
        rcases Nat.lt_or_eq_of_le (Nat.le_of_not_lt hno) with hlt' | rfl
        · exact List.pairwise_iff_get.mp h.sorted ⟨i, hi⟩ ⟨j', hj'⟩ hlt'
        · exact le_rfl
      have heq' : l.get ⟨j', hj'⟩ = l'.get ⟨j, by omega⟩ := heq
      rw [heq'] at hge
      exact absurd (hge.trans hle) (not_le.mpr hlt)
    refine List.mem_iff_getElem.mpr ⟨j', by rw [List.length_take]; omega, ?_⟩
    rw [List.getElem_take]
    exact heq
  have hnodup : (l'.take (i + 1)).Nodup := (nodup_of_ids h'.nodup).sublist (List.take_sublist _ _)
  have hlen := (List.subperm_of_subset hnodup hearlier).length_le
  rw [List.length_take, List.length_take] at hlen
  omega

theorem IsNearest.same (h : IsNearest k pool l) (h' : IsNearest k pool l') : SameUpToTies l l' := by
  have hlen : l.length = l'.length := le_antisymm (h.length_le h') (h'.length_le h)
  have hdistances : l.map Neighbour.distance = l'.map Neighbour.distance := by
    refine List.ext_getElem (by rw [List.length_map, List.length_map, hlen]) fun i hi hi' => ?_
    rw [List.length_map] at hi hi'
    rw [List.getElem_map, List.getElem_map]
    exact le_antisymm (h.distance_le h' hi hi') (h'.distance_le h hi' hi)
  have hnearer : ∀ {l l' : List (Neighbour ι D)}, IsNearest k pool l → IsNearest k pool l' →
      l.map Neighbour.distance = l'.map Neighbour.distance →
      ∀ n ∈ l, (∃ m ∈ l, n.distance < m.distance) → n ∈ l' := by
    intro l l' h h' heq n hn ⟨m, hm, hlt⟩
    by_contra hnot
    have hle := (h'.rest n (h.sub n hn) hnot).2
    have hmem : m.distance ∈ l'.map Neighbour.distance := by
      rw [← heq]
      exact List.mem_map_of_mem hm
    obtain ⟨m', hm', heq'⟩ := List.mem_map.mp hmem
    exact absurd (hle m' hm') (by rw [heq']; exact not_le.mpr hlt)
  exact ⟨hdistances, hnearer h h' hdistances, hnearer h' h hdistances.symm⟩

/-- Without ties in the pool there is one list of its nearest. -/
theorem IsNearest.eq_of_distinct (h : IsNearest k pool l) (h' : IsNearest k pool l')
    (hpool : ∀ n ∈ pool, ∀ m ∈ pool, n.distance = m.distance → n = m) : l = l' := by
  have hdistances := (h.same h').distances
  have hlength : l.length = l'.length := by simpa using congrArg List.length hdistances
  refine List.ext_getElem hlength fun i hi hi' => ?_
  apply hpool _ (h.sub _ (List.getElem_mem hi)) _ (h'.sub _ (List.getElem_mem hi'))
  have hat := congrArg (fun ds => ds[i]?) hdistances
  simpa [hi, hi'] using hat

end Nearest

end Vectorlink.Ranking
