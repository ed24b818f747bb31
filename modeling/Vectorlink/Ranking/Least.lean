import Mathlib.Data.List.AList
import Mathlib.Data.List.MinMax
import Vectorlink.Ranking.Pages

/-! The least of the things that share a key, in one pass over a list. -/
namespace Vectorlink.Ranking

variable {α κ D : Type*} [DecidableEq κ] [LinearOrder D]

/-- Put a thing into the map of the least ones: it has to be strictly less than the one there. -/
def keepLeast (key : α → κ) (dist : α → D) (best : AList fun _ : κ => α) (a : α) :
    AList fun _ : κ => α :=
  match best.lookup (key a) with
  | none => best.insert (key a) a
  | some kept => if dist a < dist kept then best.insert (key a) a else best

def leastPerKey (key : α → κ) (dist : α → D) (l : List α) : AList fun _ : κ => α :=
  l.foldl (keepLeast key dist) ∅

/-- The things of a list that have a key. -/
def withKey (key : α → κ) (k : κ) (l : List α) : List α := l.filter fun a => key a = k

section

variable {key : α → κ} {dist : α → D} {l : List α} {k : κ} {a : α}

omit [LinearOrder D] in
@[simp] theorem mem_withKey : a ∈ withKey key k l ↔ a ∈ l ∧ key a = k := by
  simp [withKey]

theorem argmin_cons_of_le (h : ∀ b ∈ l, dist a ≤ dist b) : (a :: l).argmin dist = some a := by
  rw [List.argmin_cons]
  cases hrest : l.argmin dist with
  | none => rfl
  | some b => exact if_neg (not_lt.mpr (h b (List.argmin_mem hrest)))

theorem lookup_keepLeast_of_ne {best : AList fun _ : κ => α} (h : key a ≠ k) :
    (keepLeast key dist best a).lookup k = best.lookup k := by
  have hne : k ≠ key a := fun hk => h hk.symm
  unfold keepLeast
  split
  · exact AList.lookup_insert_ne hne
  · split
    · exact AList.lookup_insert_ne hne
    · rfl

/-- The map has under each key what `argmin` finds among its things. -/
theorem lookup_leastPerKey (key : α → κ) (dist : α → D) (l : List α) (k : κ) :
    (leastPerKey key dist l).lookup k = (withKey key k l).argmin dist := by
  induction l using List.reverseRecOn with
  | nil => rfl
  | append_singleton l a ih =>
    have hstep : leastPerKey key dist (l ++ [a]) = keepLeast key dist (leastPerKey key dist l) a := by
      unfold leastPerKey
      rw [List.foldl_append, List.foldl_cons, List.foldl_nil]
    rw [hstep]
    by_cases hk : key a = k
    · have hown : withKey key k (l ++ [a]) = withKey key k l ++ [a] := by
        simp [withKey, hk]
      rw [hown, List.argmin_concat, ← ih]
      subst hk
      unfold keepLeast
      cases hkept : (leastPerKey key dist l).lookup (key a) with
      | none => simp
      | some kept =>
        dsimp only
        split
        · simp
        · exact hkept
    · have hown : withKey key k (l ++ [a]) = withKey key k l := by
        simp [withKey, hk]
      rw [hown, ← ih, lookup_keepLeast_of_ne hk]

theorem mem_of_lookup_leastPerKey (h : (leastPerKey key dist l).lookup k = some a) :
    a ∈ l ∧ key a = k := by
  rw [lookup_leastPerKey] at h
  exact mem_withKey.mp (List.argmin_mem h)

theorem least_of_lookup_leastPerKey (h : (leastPerKey key dist l).lookup k = some a) {b : α}
    (hb : b ∈ l) (hkey : key b = k) : dist a ≤ dist b := by
  rw [lookup_leastPerKey] at h
  exact List.le_of_mem_argmin (mem_withKey.mpr ⟨hb, hkey⟩) h

theorem exists_lookup_leastPerKey (hb : a ∈ l) (hkey : key a = k) :
    ∃ b, (leastPerKey key dist l).lookup k = some b := by
  rw [lookup_leastPerKey, ← Option.ne_none_iff_exists']
  intro hnone
  have hempty := List.argmin_eq_none.mp hnone
  have hmem : a ∈ withKey key k l := mem_withKey.mpr ⟨hb, hkey⟩
  rw [hempty] at hmem
  cases hmem

end

section Entries

omit [LinearOrder D]

/-- The values of a map whose keys are read off them. -/
theorem mem_values_iff {m : AList fun _ : κ => α} {key : α → κ}
    (hkey : ∀ (k : κ) (a : α), m.lookup k = some a → key a = k) (a : α) :
    a ∈ m.entries.map Sigma.snd ↔ m.lookup (key a) = some a := by
  constructor
  · intro h
    obtain ⟨⟨k, b⟩, he, rfl⟩ := List.mem_map.mp h
    have hlookup : m.lookup k = some b := AList.mem_lookup_iff.mpr he
    rw [hkey k b hlookup]
    exact hlookup
  · intro h
    exact List.mem_map.mpr ⟨⟨key a, a⟩, AList.mem_lookup_iff.mp h, rfl⟩

theorem nodup_map_key_values {m : AList fun _ : κ => α} {key : α → κ}
    (hkey : ∀ (k : κ) (a : α), m.lookup k = some a → key a = k) :
    ((m.entries.map Sigma.snd).map key).Nodup := by
  have hkeys : (m.entries.map Sigma.snd).map key = m.keys := by
    unfold AList.keys List.keys
    rw [List.map_map]
    exact List.map_congr_left fun e he => hkey e.1 e.2 (AList.mem_lookup_iff.mpr he)
  rw [hkeys]
  exact m.keys_nodup

end Entries

/-- Where no two things of a key are equally far, the map has the nearest one of each key. -/
theorem mem_values_leastPerKey_iff {key : α → κ} {dist : α → D} {l : List α}
    (hinj : ∀ a ∈ l, ∀ b ∈ l, key a = key b → dist a = dist b → a = b) (a : α) :
    a ∈ (leastPerKey key dist l).entries.map Sigma.snd ↔
      a ∈ l ∧ ∀ b ∈ l, key b = key a → dist a ≤ dist b := by
  rw [mem_values_iff (fun k b h => (mem_of_lookup_leastPerKey h).2)]
  constructor
  · intro h
    exact ⟨(mem_of_lookup_leastPerKey h).1, fun b hb hkey => least_of_lookup_leastPerKey h hb hkey⟩
  · rintro ⟨ha, hleast⟩
    have hsome : ∃ b, (leastPerKey key dist l).lookup (key a) = some b :=
      exists_lookup_leastPerKey ha rfl
    obtain ⟨b, hb⟩ := hsome
    obtain ⟨hmem, hkey⟩ := mem_of_lookup_leastPerKey hb
    have hle := least_of_lookup_leastPerKey hb ha rfl
    have hsame := hinj b hmem a ha hkey (le_antisymm hle (hleast b hmem hkey))
    rw [hb, hsame]

section Values

variable {β γ α K : Type*} [LinearOrder α] [LinearOrder K] {key : α → K}
  {best : AList fun _ : κ => β} {vals : List β} {name : κ → α} {thing : γ → α} {shown : β → γ}
  {le : γ → γ → Bool}

/-- The values of a map, in any order, each made into what is shown and sorted by a key: a ranking
of the keys of the map. -/
theorem isRanking_values (hvals : vals.Perm (best.entries.map Sigma.snd))
    (hname : Function.Injective name) (hthing : ∀ e ∈ best.entries, thing (shown e.2) = name e.1)
    (hle : ∀ a ∈ vals.map shown, ∀ b ∈ vals.map shown,
      le a b = true ↔ BeforeEq key (thing a) (thing b)) :
    IsRanking key {x | ∃ k c, best.lookup k = some c ∧ name k = x}
      (((vals.map shown).insertionSort fun a b => le a b).map thing) := by
  have hnames : ((vals.map shown).map thing).Perm (best.entries.map fun e => name e.1) := by
    have hkeys : (best.entries.map Sigma.snd).map (fun c => thing (shown c)) =
        best.entries.map fun e => name e.1 := by
      rw [List.map_map]
      exact List.map_congr_left hthing
    rw [List.map_map, ← hkeys]
    exact hvals.map _
  have hnodup : ((vals.map shown).map thing).Nodup := by
    rw [hnames.nodup_iff]
    have hnamed : best.entries.map (fun e => name e.1) = best.keys.map name := by
      unfold AList.keys List.keys
      rw [List.map_map]
      rfl
    rw [hnamed]
    exact best.keys_nodup.map hname
  have hsort : ((vals.map shown).insertionSort fun a b => le a b).map thing =
      ((vals.map shown).map thing).insertionSort (BeforeEq key) :=
    List.map_insertionSort _ _ _ _ hle
  have hranking := isRanking_insertionSort key hnodup
  rw [← hsort] at hranking
  refine ⟨hranking.sorted, fun x => ?_⟩
  rw [hranking.mem, Set.mem_ofPred_eq, hnames.mem_iff, List.mem_map, Set.mem_ofPred_eq]
  constructor
  · rintro ⟨e, he, rfl⟩
    exact ⟨e.1, e.2, AList.mem_lookup_iff.mpr he, rfl⟩
  · rintro ⟨k, c, hc, rfl⟩
    exact ⟨⟨k, c⟩, AList.mem_lookup_iff.mp hc, rfl⟩

end Values

end Vectorlink.Ranking
