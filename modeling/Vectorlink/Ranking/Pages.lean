import Mathlib.Data.List.NodupEquivFin
import Mathlib.Data.List.Sort
import Mathlib.Data.Set.Card
import Mathlib.Order.Lattice

/-! Rankings by a key and the pages cut out of them. -/
namespace Vectorlink.Ranking

variable {α K : Type*} [LinearOrder α] [LinearOrder K]

/-- The smaller key first, ties in the order of the things themselves. -/
def Before (key : α → K) (x y : α) : Prop := key x < key y ∨ key x = key y ∧ x < y

instance (key : α → K) : Std.Irrefl (Before key) where
  irrefl x h := by
    rcases h with h | h
    · exact lt_irrefl _ h
    · exact lt_irrefl _ h.2

instance (key : α → K) : IsTrans α (Before key) where
  trans x y z hxy hyz := by
    rcases hxy with hxy | ⟨hxy, hlt⟩
    · rcases hyz with hyz | ⟨hyz, -⟩
      · exact .inl (hxy.trans hyz)
      · exact .inl (hyz ▸ hxy)
    · rcases hyz with hyz | ⟨hyz, hlt'⟩
      · exact .inl (hxy ▸ hyz)
      · exact .inr ⟨hxy.trans hyz, hlt.trans hlt'⟩

instance (key : α → K) : Std.Antisymm (Before key) where
  antisymm x y hxy hyx := absurd (IsTrans.trans x y x hxy hyx) (irrefl x)

omit [LinearOrder α] in
theorem rel_or_of_pairwise {R : α → α → Prop} {l : List α} (h : l.Pairwise R) {x y : α}
    (hx : x ∈ l) (hy : y ∈ l) (hne : x ≠ y) : R x y ∨ R y x := by
  obtain ⟨i, hi, rfl⟩ := List.mem_iff_getElem.mp hx
  obtain ⟨j, hj, rfl⟩ := List.mem_iff_getElem.mp hy
  rcases Nat.lt_trichotomy i j with hij | rfl | hij
  · exact .inl (List.pairwise_iff_getElem.mp h i j hi hj hij)
  · exact absurd rfl hne
  · exact .inr (List.pairwise_iff_getElem.mp h j i hj hi hij)

/-- A list of the members of a set in the order of a key. -/
structure IsRanking (key : α → K) (S : Set α) (l : List α) : Prop where
  sorted : l.Pairwise (Before key)
  mem : ∀ x, x ∈ l ↔ x ∈ S

/-- As `Before`, or the same. -/
def BeforeEq (key : α → K) (x y : α) : Prop := key x < key y ∨ key x = key y ∧ x ≤ y

/-- A comparison that is followed by another one where it is undecided. -/
theorem then_ne_gt_iff {a b : K} {o : Ordering} :
    (compare a b).then o ≠ .gt ↔ a < b ∨ a = b ∧ o ≠ .gt := by
  rcases lt_trichotomy a b with h | h | h
  · rw [compare_lt_iff_lt.mpr h]
    simp [h]
  · rw [compare_eq_iff_eq.mpr h]
    simp [h]
  · rw [compare_gt_iff_gt.mpr h]
    simp [h.le, h.ne']

instance (key : α → K) : DecidableRel (BeforeEq key) :=
  fun x y => inferInstanceAs (Decidable (key x < key y ∨ key x = key y ∧ x ≤ y))

instance (key : α → K) : Std.Total (BeforeEq key) where
  total x y := by
    rcases lt_trichotomy (key x) (key y) with h | h | h
    · exact .inl (.inl h)
    · rcases le_total x y with hle | hle
      · exact .inl (.inr ⟨h, hle⟩)
      · exact .inr (.inr ⟨h.symm, hle⟩)
    · exact .inr (.inl h)

instance (key : α → K) : IsTrans α (BeforeEq key) where
  trans x y z hxy hyz := by
    rcases hxy with hxy | ⟨hxy, hle⟩
    · rcases hyz with hyz | ⟨hyz, -⟩
      · exact .inl (hxy.trans hyz)
      · exact .inl (hyz ▸ hxy)
    · rcases hyz with hyz | ⟨hyz, hle'⟩
      · exact .inl (hxy ▸ hyz)
      · exact .inr ⟨hxy.trans hyz, hle.trans hle'⟩

/-- To sort the members is to rank them. -/
theorem isRanking_insertionSort (key : α → K) {l : List α} (h : l.Nodup) :
    IsRanking key {x | x ∈ l} (l.insertionSort (BeforeEq key)) := by
  have hperm := List.perm_insertionSort (BeforeEq key) l
  refine ⟨?_, fun x => hperm.mem_iff⟩
  have hsorted := List.pairwise_insertionSort (BeforeEq key) l
  refine (hsorted.and (hperm.nodup_iff.mpr h)).imp fun {x y} hxy => ?_
  rcases hxy with ⟨hlt | ⟨heq, hle⟩, hne⟩
  · exact .inl hlt
  · exact .inr ⟨heq, lt_of_le_of_ne hle hne⟩

section Rankings

variable {key key' : α → K} {S S' : Set α} {l l' : List α}

namespace IsRanking

theorem nodup (h : IsRanking key S l) : l.Nodup := h.sorted.nodup

theorem unique (h : IsRanking key S l) (h' : IsRanking key S l') : l = l' :=
  h.sorted.eq_of_mem_iff h'.sorted fun x => (h.mem x).trans (h'.mem x).symm

/-- A ranking of fewer things by the same keys leaves the others out. -/
theorem sublist (h : IsRanking key S l) (h' : IsRanking key' S' l') (hsub : S ⊆ S')
    (hkey : ∀ x ∈ S, key x = key' x) : l.Sublist l' := by
  classical
  have hfilter : IsRanking key S (l'.filter (· ∈ S)) := by
    refine ⟨(h'.sorted.sublist List.filter_sublist).imp_of_mem ?_, fun x => ?_⟩
    · intro x y hx hy hxy
      have hxS := hkey x (of_decide_eq_true (List.mem_filter.mp hx).2)
      have hyS := hkey y (of_decide_eq_true (List.mem_filter.mp hy).2)
      unfold Before
      rw [hxS, hyS]
      exact hxy
    · rw [List.mem_filter, h'.mem, decide_eq_true_iff]
      exact ⟨fun hx => hx.2, fun hx => ⟨hsub hx, hx⟩⟩
  rw [h.unique hfilter]
  exact List.filter_sublist

/-- Of two places in a ranking the earlier one is before the later one. -/
theorem before_of_mem_drop (h : IsRanking key S l) {n : ℕ} {x y : α} (hx : x ∈ l.take n)
    (hy : y ∈ l.drop n) : Before key x y := by
  have hsorted := h.sorted
  rw [← List.take_append_drop n l] at hsorted
  exact (List.pairwise_append.mp hsorted).2.2 x hx y hy

/-- The members before the one at a place are those listed before it. -/
theorem before_getElem (h : IsRanking key S l) {i : ℕ} (hi : i < l.length) :
    {y | y ∈ S ∧ Before key y l[i]} = {y | y ∈ l.take i} := by
  ext y
  rw [Set.mem_ofPred_eq, Set.mem_ofPred_eq, ← h.mem]
  have hx : l[i] ∈ l.drop i := by
    rw [List.drop_eq_getElem_cons hi]
    exact List.mem_cons_self
  constructor
  · rintro ⟨hy, hbefore⟩
    rw [← List.take_append_drop i l, List.mem_append] at hy
    rcases hy with hy | hy
    · exact hy
    · rw [List.drop_eq_getElem_cons hi, List.mem_cons] at hy
      rcases hy with rfl | hy
      · exact absurd hbefore (irrefl _)
      · have hlast := h.sorted.sublist (List.drop_sublist i l)
        rw [List.drop_eq_getElem_cons hi] at hlast
        have hafter : Before key l[i] y := (List.pairwise_cons.mp hlast).1 y hy
        exact absurd (IsTrans.trans _ _ _ hbefore hafter) (irrefl _)
  · intro hy
    exact ⟨List.mem_of_mem_take hy, h.before_of_mem_drop hy hx⟩

/-- A member is among the first `n` of a ranking if fewer than `n` members are before it. -/
theorem mem_take_iff (h : IsRanking key S l) {x : α} (hx : x ∈ S) (n : ℕ) :
    x ∈ l.take n ↔ {y | y ∈ S ∧ Before key y x}.ncard < n := by
  obtain ⟨i, hi, rfl⟩ := List.mem_iff_getElem.mp ((h.mem x).mpr hx)
  have hcard : {y | y ∈ S ∧ Before key y l[i]}.ncard = i := by
    have hset : {y | y ∈ l.take i} = ((l.take i).toFinset : Set α) := by
      ext y
      simp
    rw [h.before_getElem hi, hset, Set.ncard_coe_finset,
      List.toFinset_card_of_nodup (h.nodup.sublist (List.take_sublist i l)), List.length_take]
    omega
  rw [hcard, List.mem_take_iff_getElem]
  constructor
  · rintro ⟨j, hj, heq⟩
    have hji : j = i := (h.nodup.getElem_inj_iff).mp heq
    omega
  · intro hin
    exact ⟨i, by omega, rfl⟩

/-- In a front that two rankings share, both orders are that of the list. -/
theorem before_of_take_eq (h : IsRanking key S l) (h' : IsRanking key' S' l') {n : ℕ}
    (heq : l.take n = l'.take n) {x y : α} (hx : x ∈ l.take n) (hy : y ∈ S)
    (hxy : Before key' x y) : Before key x y := by
  have hyl := (h.mem y).mpr hy
  rw [← List.take_append_drop n l, List.mem_append] at hyl
  cases hyl with
  | inr hyl => exact h.before_of_mem_drop hx hyl
  | inl hyl =>
    have hboth : (l.take n).Pairwise fun a b => Before key a b ∧ Before key' a b := by
      have hfront := h'.sorted.sublist (List.take_sublist n l')
      rw [← heq] at hfront
      exact (h.sorted.sublist (List.take_sublist n l)).and hfront
    have hne : x ≠ y := by
      intro hsame
      rw [hsame] at hxy
      exact irrefl y hxy
    cases rel_or_of_pairwise hboth hx hyl hne with
    | inl hlt => exact hlt.1
    | inr hgt => exact absurd (IsTrans.trans x y x hxy hgt.2) (irrefl x)

/-- What is not in the front comes later. -/
theorem before_of_notMem_take (h : IsRanking key S l) {n : ℕ} {x y : α} (hx : x ∈ l.take n)
    (hy : y ∈ S) (hnot : y ∉ l.take n) : Before key x y := by
  have hyl := (h.mem y).mpr hy
  rw [← List.take_append_drop n l, List.mem_append] at hyl
  exact h.before_of_mem_drop hx (hyl.resolve_left hnot)

open Classical in
/-- A ranking that has the front of another one before all others starts with it. -/
theorem eq_take_append_filter (h : IsRanking key S l) (h' : IsRanking key' S' l') (hsub : S ⊆ S')
    {n : ℕ} (hfront : ∀ x ∈ l'.take n, x ∈ S ∧ ∀ y ∈ S, Before key' x y → Before key x y) :
    l = l'.take n ++ l.filter (· ∉ l'.take n) := by
  apply h.unique
  constructor
  · apply List.pairwise_append.mpr
    refine ⟨?_, h.sorted.sublist List.filter_sublist, fun x hx y hy => ?_⟩
    · apply (h'.sorted.sublist (List.take_sublist n l')).imp_of_mem
      intro x y hx hy hxy
      exact (hfront x hx).2 y (hfront y hy).1 hxy
    · obtain ⟨hy, hnot⟩ := List.mem_filter.mp hy
      have hyS := (h.mem y).mp hy
      have hlater := h'.before_of_notMem_take hx (hsub hyS) (of_decide_eq_true hnot)
      exact (hfront x hx).2 y hyS hlater
  · intro x
    rw [List.mem_append, List.mem_filter, h.mem, decide_eq_true_iff]
    constructor
    · intro hx
      cases hx with
      | inl hx => exact (hfront x hx).1
      | inr hx => exact hx.1
    · intro hx
      by_cases hmem : x ∈ l'.take n
      · exact .inl hmem
      · exact .inr ⟨hx, hmem⟩

/-- What two rankings have in front is the same if the one already has the front of the other,
before everything that comes later there. -/
theorem take_eq_iff (h : IsRanking key S l) (h' : IsRanking key' S' l') (hsub : S ⊆ S') (n : ℕ) :
    l.take n = l'.take n ↔
      ∀ x ∈ l'.take n, x ∈ S ∧ ∀ y ∈ S, Before key' x y → Before key x y := by
  classical
  constructor
  · intro heq x hx
    rw [← heq] at hx
    have hxS := (h.mem x).mp (List.mem_of_mem_take hx)
    exact ⟨hxS, fun y hy hxy => h.before_of_take_eq h' heq hx hy hxy⟩
  · intro hfront
    have hsplit := h.eq_take_append_filter h' hsub hfront
    rcases Nat.lt_or_ge l'.length n with hshort | hlong
    · -- the other ranking ends in the front, and there is nothing else
      have hnil : l.filter (· ∉ l'.take n) = [] := by
        apply List.filter_eq_nil_iff.mpr
        intro x hx
        have hmem := (h'.mem x).mpr (hsub ((h.mem x).mp hx))
        rw [List.take_of_length_le hshort.le]
        simpa using hmem
      rw [hsplit, hnil, List.append_nil]
      exact List.take_take.trans (by rw [min_self])
    · have hlen : (l'.take n).length = n := List.length_take_of_le hlong
      conv_lhs => rw [hsplit]
      rw [List.take_append_of_le_length hlen.ge, List.take_take, min_self]

end IsRanking

end Rankings

section Pages

omit [LinearOrder α]

variable {c : ℕ} {l l' : List α}

/-- Page `p` of a list, by pages of `c`. -/
def page (c p : ℕ) (l : List α) : List α := (l.drop (p * c)).take c

theorem page_eq_drop_take (c p : ℕ) (l : List α) :
    page c p l = (l.take ((p + 1) * c)).drop (p * c) := by
  rw [page, List.take_drop, Nat.add_one_mul]

theorem take_succ_page (c p : ℕ) (l : List α) :
    l.take ((p + 1) * c) = l.take (p * c) ++ page c p l := by
  rw [page, Nat.add_one_mul, List.take_add]

/-- The place of a member does not grow when others are left out. -/
theorem index_le_of_sublist (h : l.Sublist l') (hnodup : l'.Nodup) {i j : ℕ} (hi : i < l.length)
    (hj : j < l'.length) (heq : l.get ⟨i, hi⟩ = l'.get ⟨j, hj⟩) : i ≤ j := by
  obtain ⟨f, hf⟩ := List.sublist_iff_exists_fin_orderEmbedding_get_eq.mp h
  have hfi : f ⟨i, hi⟩ = ⟨j, hj⟩ :=
    List.nodup_iff_injective_get.mp hnodup ((hf ⟨i, hi⟩).symm.trans heq)
  have hmono : ∀ n (hn : n < l.length), n ≤ (f ⟨n, hn⟩).val := by
    intro n hn
    induction n with
    | zero => exact Nat.zero_le _
    | succ n ih =>
      have hlt : f ⟨n, Nat.lt_of_succ_lt hn⟩ < f ⟨n + 1, hn⟩ :=
        f.lt_iff_lt.mpr (Fin.mk_lt_mk.mpr (Nat.lt_succ_self n))
      exact Nat.lt_of_le_of_lt (ih _) hlt
  have hle := hmono i hi
  rw [hfi] at hle
  exact hle

theorem mem_page_iff {p : ℕ} {x : α} :
    x ∈ page c p l ↔ ∃ i, ∃ hi : i < l.length, p * c ≤ i ∧ i < (p + 1) * c ∧ l.get ⟨i, hi⟩ = x := by
  unfold page
  rw [List.mem_iff_getElem]
  constructor
  · rintro ⟨i, hi, rfl⟩
    rw [List.length_take, List.length_drop] at hi
    refine ⟨p * c + i, by omega, Nat.le_add_right _ _, ?_, ?_⟩
    · rw [Nat.add_one_mul]
      omega
    · rw [List.getElem_take, List.getElem_drop]
      rfl
  · rintro ⟨i, hi, hge, hlt, rfl⟩
    rw [Nat.add_one_mul] at hlt
    refine ⟨i - p * c, by rw [List.length_take, List.length_drop]; omega, ?_⟩
    rw [List.getElem_take, List.getElem_drop]
    simp only [Nat.add_sub_cancel' hge, List.get_eq_getElem]

section Front

variable {lists : ℕ → List α} {full r : List α} (hc : 0 < c) (hfull : full.Nodup)
  (hsub : ∀ n, (lists n).Sublist full) (hr : r.Perm full)
  (hpages : ∀ p, page c p (lists ((p + 1) * c)) = page c p r)

include hc hfull hsub hr hpages

/-- A member of page `p` cannot come later: there it would be too far back. -/
theorem page_subset {p : ℕ} (hbefore : (r.take (p * c)).Perm (full.take (p * c))) :
    page c p full ⊆ page c p r := by
  intro x hx
  obtain ⟨j, hj, hge, hlt, hxj⟩ := mem_page_iff.mp hx
  have hxr : x ∈ r := hr.mem_iff.mpr (by rw [← hxj]; exact List.get_mem _ _)
  obtain ⟨i, hi, hxi⟩ := List.mem_iff_getElem.mp hxr
  have hip : p * c ≤ i := by
    by_contra hno
    have htake : x ∈ r.take (p * c) := by
      refine List.mem_iff_getElem.mpr ⟨i, by rw [List.length_take]; omega, ?_⟩
      rw [List.getElem_take]
      exact hxi
    obtain ⟨i', hi', hxi'⟩ := List.mem_iff_getElem.mp (hbefore.mem_iff.mp htake)
    rw [List.getElem_take] at hxi'
    rw [List.length_take] at hi'
    have heq : i' = j := (List.Nodup.getElem_inj_iff hfull).mp (hxi'.trans hxj.symm)
    omega
  have hpage : x ∈ page c (i / c) (lists ((i / c + 1) * c)) := by
    rw [hpages]
    refine mem_page_iff.mpr ⟨i, hi, Nat.div_mul_le_self i c, ?_, hxi⟩
    exact Nat.lt_mul_of_div_lt (Nat.lt_succ_self _) hc
  obtain ⟨k, hk, hkge, hklt, hxk⟩ := mem_page_iff.mp hpage
  have hkj : k ≤ j := index_le_of_sublist (hsub _) hfull hk hj (hxk.trans hxj.symm)
  have hdiv : i / c ≤ p := by
    by_contra hno
    have : (p + 1) * c ≤ i / c * c := Nat.mul_le_mul_right c (by omega)
    omega
  refine mem_page_iff.mpr ⟨i, hi, hip, ?_, hxi⟩
  exact Nat.lt_of_lt_of_le (Nat.lt_mul_of_div_lt (Nat.lt_succ_self _) hc)
    (Nat.mul_le_mul_right c (Nat.succ_le_succ hdiv))

theorem take_perm (p : ℕ) : (r.take (p * c)).Perm (full.take (p * c)) := by
  induction p with
  | zero => simp
  | succ p ih =>
    have hsubset := page_subset hc hfull hsub hr hpages ih
    have hnodup : (page c p full).Nodup :=
      hfull.sublist ((List.take_sublist _ _).trans (List.drop_sublist _ _))
    have hlen : (page c p r).length ≤ (page c p full).length := by
      unfold page
      rw [List.length_take, List.length_drop, List.length_take, List.length_drop, hr.length_eq]
    rw [take_succ_page, take_succ_page]
    exact ih.append ((List.subperm_of_subset hnodup hsubset).perm_of_length_le hlen).symm

/-- If pages of ever longer lists, each of which leaves out some members of one ranking, are
the pages of any ranking of the same members, then every list has the members of the pages up
to its own. -/
theorem front_of_pages (hmono : ∀ m n, m ≤ n → lists m ⊆ lists n) (p : ℕ) :
    ∀ x ∈ full.take ((p + 1) * c), x ∈ lists ((p + 1) * c) := by
  have hpage : ∀ q, ∀ x ∈ page c q full, x ∈ lists ((q + 1) * c) := by
    intro q x hx
    have hmem := page_subset hc hfull hsub hr hpages (take_perm hc hfull hsub hr hpages q) hx
    rw [← hpages] at hmem
    exact List.mem_of_mem_drop (List.mem_of_mem_take hmem)
  induction p with
  | zero =>
    intro x hx
    rw [take_succ_page, Nat.zero_mul, List.take_zero, List.nil_append] at hx
    exact hpage 0 x hx
  | succ p ih =>
    intro x hx
    rw [take_succ_page] at hx
    rcases List.mem_append.mp hx with hx | hx
    · exact hmono _ _ (Nat.mul_le_mul_right c (Nat.le_succ _)) (ih x hx)
    · exact hpage (p + 1) x hx

end Front

end Pages

section Arrangements

variable {α : Type*} {l f b : List α} {p q : α → Bool} {k c : ℕ} {r : α}

/-- A first part that is long enough decides what stands in front. -/
theorem forall_mem_take_append (hf : ∀ x ∈ f, p x = true)
    (hlen : min k (f ++ b).length ≤ f.length) : ∀ x ∈ (f ++ b).take k, p x = true := by
  intro x hx
  have htake : (f ++ b).take k = f.take k := by
    by_cases hle : k ≤ f.length
    · exact List.take_append_of_le_length hle
    · have hnone : b.length = 0 := by
        rw [List.length_append] at hlen
        omega
      rw [List.length_eq_zero_iff.mp hnone, List.append_nil]
  rw [htake] at hx
  exact hf x (List.mem_of_mem_take hx)

theorem min_le_countP_of_take {l' : List α} (h : l'.Perm l) (htake : ∀ x ∈ l'.take k, p x = true) :
    min k l.length ≤ l.countP p := by
  rw [← h.countP_eq, ← h.length_eq, ← List.length_take, ← List.countP_eq_length.mpr htake]
  exact (List.take_sublist k l').countP_le

theorem mem_take_append_cons {n : ℕ} (h : f.length < n) : r ∈ (f ++ r :: b).take n := by
  rw [List.take_append]
  obtain ⟨m, hm⟩ : ∃ m, n - f.length = m + 1 := ⟨n - f.length - 1, by omega⟩
  rw [hm, List.take_succ_cons]
  simp

/-- As many as are asked for of those with `p` can come first, a given member before all others of
its kind. -/
theorem exists_front (p : α → Bool) (hk : 0 < k) (hr : r ∈ l) (hcount : min k l.length ≤ l.countP p) :
    ∃ f b, (f ++ b).Perm l ∧ (∀ x ∈ f, p x = true) ∧ min k l.length ≤ f.length ∧ f.length ≤ k ∧
      (p r = true → ∃ f', f = r :: f') ∧ (p r = false → ∃ b', b = r :: b') := by
  obtain ⟨rest, hrest⟩ : ∃ rest, (r :: rest).Perm l := by
    obtain ⟨s, t, rfl⟩ := List.append_of_mem hr
    exact ⟨s ++ t, List.perm_middle.symm⟩
  rw [← hrest.countP_eq, List.countP_eq_length_filter] at hcount
  refine ⟨((r :: rest).filter p).take k,
    ((r :: rest).filter fun x => !p x) ++ ((r :: rest).filter p).drop k, ?_, ?_, ?_, ?_, ?_, ?_⟩
  · refine (List.perm_append_comm.append_left _).trans ?_
    rw [← List.append_assoc, List.take_append_drop]
    exact (List.filter_append_perm p _).trans hrest
  · exact fun x hx => (List.mem_filter.mp (List.mem_of_mem_take hx)).2
  · rw [List.length_take]
    omega
  · exact List.length_take_le _ _
  · intro hp
    obtain ⟨m, rfl⟩ : ∃ m, k = m + 1 := ⟨k - 1, by omega⟩
    rw [List.filter_cons_of_pos hp, List.take_succ_cons]
    exact ⟨_, rfl⟩
  · intro hp
    rw [List.filter_cons_of_pos (by simpa using hp), List.cons_append]
    exact ⟨_, rfl⟩

/-- Behind a front with `p` come those with `q`. -/
theorem exists_perm_take (hk : 0 < k) (hpq : ∀ x, p x = true → q x = true) (hr : r ∈ l)
    (hq : q r = true) (hc : 0 < c) (hrank : p r = true ∨ k < c)
    (hcountp : min k l.length ≤ l.countP p) (hcountq : min c l.length ≤ l.countP q) :
    ∃ l' : List α, l'.Perm l ∧ (∀ x ∈ l'.take k, p x = true) ∧ (∀ x ∈ l'.take c, q x = true) ∧
      r ∈ l'.take c := by
  obtain ⟨f, b, hfb, hfp, hlong, hshort, hfirst, hsecond⟩ := exists_front p hk hr hcountp
  have harr : (f ++ b.filter q ++ b.filter fun x => !q x).Perm l := by
    rw [List.append_assoc]
    exact ((List.filter_append_perm q b).append_left f).trans hfb
  have hfq : f.countP q = f.length := List.countP_eq_length.mpr fun x hx => hpq x (hfp x hx)
  have hqlong : min c l.length ≤ (f ++ b.filter q).length := by
    rw [List.length_append, ← List.countP_eq_length_filter, ← hfq, ← List.countP_append,
      hfb.countP_eq]
    exact hcountq
  refine ⟨f ++ b.filter q ++ b.filter fun x => !q x, harr, ?_, ?_, ?_⟩
  · rw [List.append_assoc]
    refine forall_mem_take_append hfp ?_
    rw [← List.append_assoc, harr.length_eq]
    exact hlong
  · refine forall_mem_take_append (fun x hx => ?_) ?_
    · rcases List.mem_append.mp hx with hx | hx
      · exact hpq x (hfp x hx)
      · exact (List.mem_filter.mp hx).2
    · rw [harr.length_eq]
      exact hqlong
  · cases hp : p r with
    | true =>
      obtain ⟨f', hf'⟩ := hfirst hp
      rw [hf', List.append_assoc]
      exact mem_take_append_cons (f := []) hc
    | false =>
      obtain ⟨b', hb'⟩ := hsecond hp
      rw [hb', List.filter_cons_of_pos hq, List.append_assoc]
      exact mem_take_append_cons (hshort.trans_lt (hrank.resolve_left (by simp [hp])))

/-- When a list can be arranged so that what stands in front satisfies one thing up to `k` and
another up to `c`, with a given member among the latter. -/
theorem exists_perm_take_iff (hk : 0 < k) (hpq : ∀ x, p x = true → q x = true) :
    (∃ l' : List α, l'.Perm l ∧ (∀ x ∈ l'.take k, p x = true) ∧ (∀ x ∈ l'.take c, q x = true) ∧
      r ∈ l'.take c) ↔
    (r ∈ l ∧ q r = true ∧ 0 < c ∧ (p r = true ∨ k < c)) ∧
      min k l.length ≤ l.countP p ∧ min c l.length ≤ l.countP q := by
  constructor
  · rintro ⟨l', hperm, hfirst, hsecond, hr⟩
    have hc : 0 < c := by
      rcases Nat.eq_zero_or_pos c with rfl | hc
      · cases hr
      · exact hc
    have hrank : p r = true ∨ k < c := by
      rcases Nat.lt_or_ge k c with hkc | hkc
      · exact .inr hkc
      · exact .inl (hfirst r ((List.take_prefix_take_left hkc).subset hr))
    exact ⟨⟨hperm.subset (List.mem_of_mem_take hr), hsecond r hr, hc, hrank⟩,
      min_le_countP_of_take hperm hfirst, min_le_countP_of_take hperm hsecond⟩
  · rintro ⟨⟨hr, hq, hc, hrank⟩, hcountp, hcountq⟩
    exact exists_perm_take hk hpq hr hq hc hrank hcountp hcountq

end Arrangements

end Vectorlink.Ranking
