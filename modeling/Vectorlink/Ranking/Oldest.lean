import Mathlib.Data.List.AList
import Mathlib.Data.List.Sort

/-! Maps that give up the oldest entries of a class. -/
namespace Vectorlink.Ranking

variable {κ β T : Type*} [DecidableEq κ] [LinearOrder T]

/-- Remove the keys of a list, one after the other. -/
def eraseAll (m : AList fun _ : κ => β) : List κ → AList fun _ : κ => β
  | [] => m
  | k :: ks => eraseAll (m.erase k) ks

/-- The keys and times of the entries of a class, sorted by time. -/
def oldestFirst (time : β → T) (p : β → Bool) (iterated : List (Sigma fun _ : κ => β)) :
    List (κ × T) :=
  ((iterated.filter fun e => p e.2).map fun e => (e.1, time e.2)).insertionSort fun x y => x.2 ≤ y.2

/-- The keys of the `n` oldest entries of a class. -/
def oldestKeys (time : β → T) (p : β → Bool) (iterated : List (Sigma fun _ : κ => β)) (n : ℕ) :
    List κ :=
  ((oldestFirst time p iterated).take n).map Prod.fst

/-- What is left without them. -/
def giveUpOldest (time : β → T) (p : β → Bool) (iterated : List (Sigma fun _ : κ => β)) (n : ℕ)
    (m : AList fun _ : κ => β) : AList fun _ : κ => β :=
  eraseAll m (oldestKeys time p iterated n)

/-- The entries that meet a condition. -/
def retain (p : β → Bool) (m : AList fun _ : κ => β) : AList fun _ : κ => β where
  entries := m.entries.filter fun e => p e.2
  nodupKeys := m.nodupKeys.sublist List.filter_sublist

/-- The number of entries of a class. -/
def countClass (p : β → Bool) (m : AList fun _ : κ => β) : ℕ := m.entries.countP fun e => p e.2

section Erase

variable {m : AList fun _ : κ => β} {k : κ} {ks : List κ}

theorem lookup_eraseAll : (eraseAll m ks).lookup k = if k ∈ ks then none else m.lookup k := by
  induction ks generalizing m with
  | nil => rfl
  | cons k' ks ih =>
    rw [eraseAll, ih]
    by_cases hk : k = k'
    · subst hk
      simp
    · simp [hk]

theorem length_erase_entries (hk : k ∈ m) :
    (m.erase k).entries.length + 1 = m.entries.length := by
  have hkeys : (m.erase k).keys.length + 1 = m.keys.length := by
    rw [AList.keys_erase]
    have hmem : k ∈ m.keys := AList.mem_keys.mp hk
    rw [List.length_erase_of_mem hmem]
    have hpos := List.length_pos_of_mem hmem
    omega
  unfold AList.keys List.keys at hkeys
  rwa [List.length_map, List.length_map] at hkeys

theorem length_eraseAll (hnodup : ks.Nodup) (hks : ∀ k ∈ ks, k ∈ m) :
    (eraseAll m ks).entries.length + ks.length = m.entries.length := by
  induction ks generalizing m with
  | nil => rfl
  | cons k ks ih =>
    obtain ⟨hk, hnodup⟩ := List.nodup_cons.mp hnodup
    have hrest : ∀ k' ∈ ks, k' ∈ m.erase k := by
      intro k' hk'
      apply AList.mem_erase.mpr
      constructor
      · intro heq
        rw [heq] at hk'
        exact hk hk'
      · exact hks k' (List.mem_cons_of_mem k hk')
    have hlength := ih hnodup hrest
    have hone := length_erase_entries (hks k List.mem_cons_self)
    rw [eraseAll, List.length_cons]
    omega

end Erase

section Oldest

variable {time : β → T} {p : β → Bool} {m : AList fun _ : κ => β}
  {iterated : List (Sigma fun _ : κ => β)} {n : ℕ} {k k' : κ} {b b' : β}

omit [DecidableEq κ] in
theorem length_oldestKeys (h : iterated.Perm m.entries) :
    (oldestKeys time p iterated n).length = min n (countClass p m) := by
  rw [oldestKeys, List.length_map, List.length_take, oldestFirst, List.length_insertionSort,
    List.length_map, ← List.countP_eq_length_filter, h.countP_eq, countClass]

theorem mem_oldestFirst (h : iterated.Perm m.entries) {x : κ × T} :
    x ∈ oldestFirst time p iterated ↔ ∃ b, m.lookup x.1 = some b ∧ p b = true ∧ time b = x.2 := by
  rw [oldestFirst, List.mem_insertionSort, List.mem_map]
  constructor
  · intro hx
    obtain ⟨e, he, rfl⟩ := hx
    rw [List.mem_filter, h.mem_iff] at he
    exact ⟨e.2, AList.mem_lookup_iff.mpr he.1, he.2, rfl⟩
  · intro hx
    obtain ⟨b, hb, hp, htime⟩ := hx
    refine ⟨⟨x.1, b⟩, ?_, ?_⟩
    · rw [List.mem_filter, h.mem_iff]
      exact ⟨AList.mem_lookup_iff.mp hb, hp⟩
    · rw [htime]

omit [DecidableEq κ] in
theorem nodup_oldestKeys (h : iterated.Perm m.entries) :
    (oldestKeys time p iterated n).Nodup := by
  have hkeys : (m.entries.map Sigma.fst).Nodup := m.keys_nodup
  have hfilter : ((iterated.filter fun e => p e.2).map Sigma.fst).Nodup := by
    have hsub := (List.filter_sublist (p := fun e => p e.2) (l := iterated)).map Sigma.fst
    exact ((h.map Sigma.fst).nodup_iff.mpr hkeys).sublist hsub
  have hsorted : ((oldestFirst time p iterated).map Prod.fst).Nodup := by
    have hperm := (List.perm_insertionSort (fun x y : κ × T => x.2 ≤ y.2)
      ((iterated.filter fun e => p e.2).map fun e => (e.1, time e.2))).map Prod.fst
    rw [List.map_map] at hperm
    exact hperm.nodup_iff.mpr hfilter
  exact hsorted.sublist ((List.take_sublist n _).map Prod.fst)

/-- Those that are given up are of the class, and none of the class that stays is older. -/
theorem of_mem_oldestKeys (h : iterated.Perm m.entries) (hk : k ∈ oldestKeys time p iterated n)
    (hb : m.lookup k = some b) :
    p b = true ∧ ∀ k' b', m.lookup k' = some b' → p b' = true →
      k' ∉ oldestKeys time p iterated n → time b ≤ time b' := by
  obtain ⟨⟨_, t⟩, hx, rfl⟩ := List.mem_map.mp hk
  obtain ⟨b₁, hb₁, hp, rfl⟩ := (mem_oldestFirst h).mp (List.mem_of_mem_take hx)
  obtain rfl := Option.some.inj (hb.symm.trans hb₁)
  refine ⟨hp, fun k' b' hb' hp' hstays => ?_⟩
  have hsorted := List.pairwise_insertionSort (fun x y : κ × T => x.2 ≤ y.2)
    ((iterated.filter fun e => p e.2).map fun e => (e.1, time e.2))
  have hy : (k', time b') ∈ oldestFirst time p iterated := (mem_oldestFirst h).mpr ⟨b', hb', hp', rfl⟩
  rw [← List.take_append_drop n (oldestFirst time p iterated), List.mem_append] at hy
  have hdrop := hy.resolve_left fun htake => hstays (List.mem_map.mpr ⟨_, htake, rfl⟩)
  change (oldestFirst time p iterated).Pairwise _ at hsorted
  rw [← List.take_append_drop n (oldestFirst time p iterated)] at hsorted
  exact (List.pairwise_append.mp hsorted).2.2 _ hx _ hdrop

theorem lookup_giveUpOldest
    (hb : (giveUpOldest time p iterated n m).lookup k = some b) : m.lookup k = some b := by
  rw [giveUpOldest, lookup_eraseAll] at hb
  split at hb
  · cases hb
  · exact hb

theorem mem_oldestKeys_of_givenUp (hb : m.lookup k = some b)
    (hnone : (giveUpOldest time p iterated n m).lookup k = none) :
    k ∈ oldestKeys time p iterated n := by
  rw [giveUpOldest, lookup_eraseAll] at hnone
  by_contra hk
  rw [if_neg hk, hb] at hnone
  cases hnone

theorem class_of_givenUp (h : iterated.Perm m.entries) (hb : m.lookup k = some b)
    (hnone : (giveUpOldest time p iterated n m).lookup k = none) : p b = true :=
  (of_mem_oldestKeys h (mem_oldestKeys_of_givenUp hb hnone) hb).1

/-- What is not of the class stays. -/
theorem lookup_giveUpOldest_of_class (h : iterated.Perm m.entries) (hb : m.lookup k = some b)
    (hp : p b = false) : (giveUpOldest time p iterated n m).lookup k = some b := by
  cases hlookup : (giveUpOldest time p iterated n m).lookup k with
  | some b₁ => rw [← hb, lookup_giveUpOldest hlookup]
  | none =>
    have hclass := class_of_givenUp h hb hlookup
    rw [hp] at hclass
    cases hclass

theorem time_le_of_givenUp (h : iterated.Perm m.entries) (hb : m.lookup k = some b)
    (hnone : (giveUpOldest time p iterated n m).lookup k = none)
    (hb' : (giveUpOldest time p iterated n m).lookup k' = some b') (hp : p b' = true) :
    time b ≤ time b' := by
  have hall := (of_mem_oldestKeys h (mem_oldestKeys_of_givenUp hb hnone) hb).2
  apply hall k' b' (lookup_giveUpOldest hb') hp
  intro hk'
  rw [giveUpOldest, lookup_eraseAll, if_pos hk'] at hb'
  cases hb'

theorem length_giveUpOldest (h : iterated.Perm m.entries) :
    (giveUpOldest time p iterated n m).entries.length + min n (countClass p m) =
      m.entries.length := by
  have hcount : (oldestKeys time p iterated n).length = min n (countClass p m) :=
    length_oldestKeys h
  rw [← hcount]
  apply length_eraseAll (nodup_oldestKeys h)
  intro k hk
  obtain ⟨x, hx, rfl⟩ := List.mem_map.mp hk
  obtain ⟨b, hb, _⟩ := (mem_oldestFirst h).mp (List.mem_of_mem_take hx)
  apply AList.lookup_isSome.mp
  rw [hb, Option.isSome_some]

/-- Nothing of the class stays if there was room to give up all of it. -/
theorem class_giveUpOldest (h : iterated.Perm m.entries) (hn : countClass p m ≤ n)
    (hb : (giveUpOldest time p iterated n m).lookup k = some b) : p b = false := by
  by_contra hp
  rw [Bool.not_eq_false] at hp
  have hlength : (oldestFirst time p iterated).length ≤ n := by
    rw [oldestFirst, List.length_insertionSort, List.length_map, ← List.countP_eq_length_filter,
      h.countP_eq]
    exact hn
  have hk : k ∈ oldestKeys time p iterated n := by
    rw [oldestKeys, List.take_of_length_le hlength]
    have hfirst : (k, time b) ∈ oldestFirst time p iterated :=
      (mem_oldestFirst h).mpr ⟨b, lookup_giveUpOldest hb, hp, rfl⟩
    exact List.mem_map.mpr ⟨(k, time b), hfirst, rfl⟩
  rw [giveUpOldest, lookup_eraseAll, if_pos hk] at hb
  cases hb

theorem lookup_retain : (retain p m).lookup k = some b ↔ m.lookup k = some b ∧ p b = true := by
  have hentries : (⟨k, b⟩ : Sigma fun _ : κ => β) ∈ (retain p m).entries ↔
      ⟨k, b⟩ ∈ m.entries ∧ p b = true := List.mem_filter
  rw [← Option.mem_def, ← Option.mem_def, AList.mem_lookup_iff, AList.mem_lookup_iff, hentries]

end Oldest

end Vectorlink.Ranking
