import Vectorlink.Store.SuggestHighlight

/-! The completions of a query: when their extraction ends, and what it gives then. -/
namespace Vectorlink

open Stepwise Text

section Count

variable {t : CaseTable} {found : List (List Char)}

/-- How often a completion was found, in whatever case. -/
def timesFound (t : CaseTable) (found : List (List Char)) (completion : List Char) : ℕ :=
  found.countP fun other => t.toLowercase other = t.toLowercase completion

/-- Each key of the map is the lowercase of its text, counted as often as it was found. -/
theorem lookup_countCompletion (found : List (List Char)) (k : List Char) :
    match (found.foldl (countCompletion t) ∅).lookup k with
    | some (n, text) => t.toLowercase text = k ∧
        n = found.countP fun other => t.toLowercase other = k
    | none => (found.countP fun other => t.toLowercase other = k) = 0 := by
  induction found using List.reverseRecOn with
  | nil => rfl
  | append_singleton found c ih =>
    rw [List.foldl_append, List.foldl_cons, List.foldl_nil]
    generalize found.foldl (countCompletion t) ∅ = freq at ih ⊢
    by_cases hk : t.toLowercase c = k
    · subst hk
      have hone : ((found ++ [c]).countP fun other => t.toLowercase other = t.toLowercase c) =
          (found.countP fun other => t.toLowercase other = t.toLowercase c) + 1 := by
        simp [List.countP_append]
      unfold countCompletion
      cases hlookup : freq.lookup (t.toLowercase c) with
      | some e =>
        rw [hlookup] at ih
        simp only [AList.lookup_insert]
        exact ⟨ih.1, by rw [hone, ← ih.2]⟩
      | none =>
        rw [hlookup] at ih
        simp only [AList.lookup_insert]
        exact ⟨trivial, by rw [hone, ih]⟩
    · have hother : (countCompletion t freq c).lookup k = freq.lookup k := by
        unfold countCompletion
        split
        · exact AList.lookup_insert_ne (Ne.symm hk)
        · exact AList.lookup_insert_ne (Ne.symm hk)
      have hsame : ((found ++ [c]).countP fun other => t.toLowercase other = k) =
          found.countP fun other => t.toLowercase other = k := by
        simp [List.countP_append, hk]
      rw [hother, hsame]
      exact ih

variable (t found) in
theorem entry_countCompletion {e : Sigma fun _ : List Char => ℕ × List Char}
    (he : e ∈ (found.foldl (countCompletion t) ∅).entries) :
    t.toLowercase e.2.2 = e.1 ∧ e.2.1 = timesFound t found e.2.2 := by
  have hspec := lookup_countCompletion (t := t) found e.1
  rw [AList.mem_lookup_iff.mpr he] at hspec
  refine ⟨hspec.1, ?_⟩
  rw [timesFound, hspec.1]
  exact hspec.2

end Count

section Rank

theorem count_le_of_rankKey_le {a b : ℕ × List Char} (h : rankKey a ≤ rankKey b) : b.1 ≤ a.1 := by
  rcases Prod.Lex.toLex_le_toLex.mp h with hlt | ⟨heq, _⟩
  · exact Nat.le_of_lt hlt
  · exact OrderDual.toDual_le_toDual.mp heq.le

variable {t : CaseTable} {found : List (List Char)} (order : HashOrder (ℕ × List Char))

/-- The ranked completions: all different, the more frequent ones first. -/
theorem rankCompletions_spec (t : CaseTable) (found : List (List Char)) :
    (rankCompletions t order found).length ≤ 8 ∧
      ((rankCompletions t order found).map t.toLowercase).Nodup ∧
      (rankCompletions t order found).Pairwise fun a b =>
        timesFound t found b ≤ timesFound t found a := by
  unfold rankCompletions
  dsimp only
  have hentry := fun e he => entry_countCompletion t found (e := e) he
  have hnodup := (found.foldl (countCompletion t) ∅).nodupKeys
  generalize (found.foldl (countCompletion t) ∅).entries = entries at hentry hnodup ⊢
  have : Std.Total fun a b : ℕ × List Char => rankKey a ≤ rankKey b := ⟨fun a b => le_total _ _⟩
  have : IsTrans (ℕ × List Char) fun a b => rankKey a ≤ rankKey b := ⟨fun _ _ _ => le_trans⟩
  have hperm : ((order.run (entries.map Sigma.snd)).insertionSort
      fun a b => rankKey a ≤ rankKey b).Perm (entries.map Sigma.snd) :=
    (List.perm_insertionSort _ _).trans (order.perm _)
  have hsub := List.take_sublist 8 ((order.run (entries.map Sigma.snd)).insertionSort
    fun a b => rankKey a ≤ rankKey b)
  refine ⟨?_, ?_, ?_⟩
  · rw [List.length_map]
    exact List.length_take_le _ _
  · have hkeys : (entries.map Sigma.snd).map (fun e => t.toLowercase e.2) = entries.map Sigma.fst := by
      rw [List.map_map]
      exact List.map_congr_left fun e he => (hentry e he).1
    have hall : ((entries.map Sigma.snd).map fun e => t.toLowercase e.2).Nodup := by
      rw [hkeys]
      exact hnodup
    rw [List.map_map]
    exact ((hperm.map _).nodup_iff.mpr hall).sublist (hsub.map _)
  · rw [List.pairwise_map]
    refine List.Pairwise.imp_of_mem ?_ ((List.pairwise_insertionSort _ _).sublist hsub)
    intro a b ha hb hab
    obtain ⟨e, he, rfl⟩ := List.mem_map.mp (hperm.subset (hsub.subset ha))
    obtain ⟨e', he', rfl⟩ := List.mem_map.mp (hperm.subset (hsub.subset hb))
    rw [← (hentry e he).2, ← (hentry e' he').2]
    exact count_le_of_rankKey_le hab

end Rank

section Completes

variable {t : CaseTable} {query snippet : List Char} {snippets : List (List Char)}

/-- More fuel does not change a run that has ended. -/
theorem occurrenceLoop_mono {fuel fuel' searchFrom : ℕ} {visits : List Visit} (hle : fuel ≤ fuel')
    (h : occurrenceLoop t query snippet fuel searchFrom = .ok visits) :
    occurrenceLoop t query snippet fuel' searchFrom = .ok visits := by
  induction fuel generalizing fuel' searchFrom visits with
  | zero => cases h
  | succ fuel ih =>
    obtain ⟨fuel', rfl⟩ : ∃ n, fuel' = n + 1 := ⟨fuel' - 1, by omega⟩
    unfold occurrenceLoop at h ⊢
    cases hslice : sliceFrom searchFrom (t.toLowercase snippet) with
    | none =>
      rw [hslice] at h
      cases h
    | some tail =>
      simp only [hslice] at h ⊢
      cases hfind : find (t.toLowercase query) tail with
      | none =>
        simp only [hfind] at h ⊢
        exact h
      | some pos =>
        simp only [hfind] at h ⊢
        cases hvisit : visit t query snippet (searchFrom + pos) with
        | none =>
          simp only [hvisit] at h
          cases h
        | some v =>
          simp only [hvisit] at h ⊢
          cases hrest : occurrenceLoop t query snippet fuel
              (searchFrom + pos + byteLen (t.toLowercase query)) with
          | error e =>
            rw [hrest] at h
            cases h
          | ok rest =>
            rw [hrest] at h
            rw [ih (by omega) hrest]
            exact h

/-- The extraction ends, having visited each occurrence once, with at most eight completions, all
different and the more frequent ones first. -/
def Completes (t : CaseTable) (query : List Char) (snippets : List (List Char)) : Prop :=
  ∃ visits : List (List Visit), ∃ enough,
    List.Forall₂ (fun snippet vs => VisitsOnce (t.toLowercase query) (t.toLowercase snippet)
      (vs.map Visit.absPos)) snippets visits ∧
    ∀ fuel, enough ≤ fuel →
      (snippets.mapM fun snippet => occurrenceLoop t query snippet fuel 0) = .ok visits ∧
      ∀ order, ∃ completions, extractCompletions t order fuel query snippets = .ok completions ∧
        completions.length ≤ 8 ∧ (completions.map t.toLowercase).Nodup ∧
        completions.Pairwise fun a b =>
          timesFound t (visits.flatten.flatMap Visit.completions) b ≤
            timesFound t (visits.flatten.flatMap Visit.completions) a

/-- The occurrences in the lowercased copies are at boundaries of the snippets. -/
def AllLand (t : CaseTable) (query : List Char) (snippets : List (List Char)) : Prop :=
  ∀ snippet ∈ snippets, ∀ p ∈ occurrences (t.toLowercase query) (t.toLowercase snippet),
    LandsAt t query snippet p

/-- What the loop over a snippet gives with any fuel that is enough. -/
theorem exists_visits (hquery : query ≠ []) (hmem : snippet ∈ snippets)
    (h : AllLand t query snippets) :
    ∃ vs, VisitsOnce (t.toLowercase query) (t.toLowercase snippet) (vs.map Visit.absPos) ∧
      ∀ fuel, enoughFuel t snippets ≤ fuel → occurrenceLoop t query snippet fuel 0 = .ok vs := by
  have hpat : t.toLowercase query ≠ [] := fun hnil => hquery (t.toLowercase_eq_nil_iff.mp hnil)
  obtain ⟨vs, hloop, hpos⟩ := occurrenceLoop_of_lands hquery (h snippet hmem)
    (length_lt_enoughFuel (t := t) hmem)
  refine ⟨vs, ?_, fun fuel hfuel => occurrenceLoop_mono hfuel hloop⟩
  rw [hpos]
  exact occurrences_visitsOnce hpat _

theorem completes_of_allLand (hquery : snippets = [] ∨ query ≠ [])
    (h : AllLand t query snippets) : Completes t query snippets := by
  have hrun : ∃ visits : List (List Visit), List.Forall₂ (fun snippet vs =>
      VisitsOnce (t.toLowercase query) (t.toLowercase snippet) (vs.map Visit.absPos) ∧
        ∀ fuel, enoughFuel t snippets ≤ fuel →
          occurrenceLoop t query snippet fuel 0 = .ok vs) snippets visits := by
    rcases hquery with rfl | hquery
    · exact ⟨[], .nil⟩
    · have hvisits (snippet : List Char) (hmem : snippet ∈ snippets) := exists_visits hquery hmem h
      generalize enoughFuel t snippets = enough at hvisits
      clear h
      induction snippets with
      | nil => exact ⟨[], .nil⟩
      | cons snippet rest ih =>
        obtain ⟨visits, hrest⟩ := ih fun s hs => hvisits s (List.mem_cons_of_mem _ hs)
        obtain ⟨vs, hvs⟩ := hvisits snippet List.mem_cons_self
        exact ⟨vs :: visits, .cons hvs hrest⟩
  obtain ⟨visits, hvisits⟩ := hrun
  refine ⟨visits, enoughFuel t snippets, hvisits.imp fun _ _ hv => hv.1, fun fuel hfuel => ?_⟩
  have hok : (snippets.mapM fun snippet => occurrenceLoop t query snippet fuel 0) = .ok visits :=
    mapM_ok_iff.mpr (hvisits.imp fun _ _ hv => hv.2 fuel hfuel)
  refine ⟨hok, fun order => ⟨_, ?_, rankCompletions_spec order t _⟩⟩
  rw [extractCompletions, hok]
  rfl

theorem Completes.nonempty (h : Completes t query snippets) : snippets = [] ∨ query ≠ [] := by
  by_contra hno
  rw [not_or, not_not] at hno
  obtain ⟨hne, rfl⟩ := hno
  obtain ⟨snippet, rest, rfl⟩ := List.exists_cons_of_ne_nil hne
  obtain ⟨visits, enough, _, hfuel⟩ := h
  obtain ⟨vs, hvs⟩ := exists_ok_of_mapM (hfuel enough le_rfl).1 snippet List.mem_cons_self
  rw [occurrenceLoop_nil] at hvs
  cases hvs

theorem Completes.allLand (h : Completes t query snippets) : AllLand t query snippets := by
  intro snippet hmem
  rcases h.nonempty with rfl | hquery
  · cases hmem
  · by_contra hlands
    obtain ⟨visits, enough, _, hfuel⟩ := h
    obtain ⟨completions, hok, _⟩ :=
      (hfuel (max enough (enoughFuel t snippets)) (le_max_left _ _)).2 ⟨id, List.Perm.refl⟩
    rw [extractCompletions_panics hquery hmem hlands _ (le_max_right _ _)] at hok
    cases hok

/-- The loop ends unless the query is empty, or a match is not at a boundary of the snippet. -/
theorem completes_iff (t : CaseTable) (query : List Char) (snippets : List (List Char)) :
    Completes t query snippets ↔
      (snippets = [] ∨ query ≠ []) ∧ AllLand t query snippets :=
  ⟨fun h => ⟨h.nonempty, h.allLand⟩, fun h => completes_of_allLand h.1 h.2⟩

end Completes

section Build

variable {D : Type} [LinearOrder D] {env : SuggestEnv D} {fuel : ℕ} {chunkHits : List (ChunkHit D)}
  {query : SuggestQuery} {hits : List SuggestHit}

/-- Once the hits are highlighted, what is left is the completions. -/
theorem buildSuggestResult_of_hits
    (h : ((env.sortedHits chunkHits).take query.count).mapM (env.suggestHit query) = .ok hits) :
    env.buildSuggestResult fuel chunkHits query =
      (extractCompletions env.table env.completionOrder fuel query.queryText.toList
        (((env.sortedHits chunkHits).take 5).map fun hit => hit.content.toList)).map
          fun completions => ⟨(env.sortedHits chunkHits).length, completions, hits⟩ := by
  unfold SuggestEnv.buildSuggestResult
  dsimp only
  rw [h]
  cases extractCompletions env.table env.completionOrder fuel query.queryText.toList
    (((env.sortedHits chunkHits).take 5).map fun hit => hit.content.toList) <;> rfl

end Build

section Samples

def plainSuggest : SuggestEnv ℕ where
  table := dottedTable
  docOrder := ⟨id, List.Perm.refl⟩
  completionOrder := ⟨id, List.Perm.refl⟩

/-- There is no full-text index yet. -/
def noIndex : FtsRun ℕ where
  setup := .ok ()
  limit := .ok ()
  stream := .error "Cannot perform full text search unless an INVERTED index has been created"
  collect := .ok []

def suggestRow (docId : DocId) (docType content : String) : ChunkRow Unit :=
  ⟨docId, docType, 0, 1, 0, 1, (), (), content⟩

/-- Without an index, a suggestion for the empty query never returns. -/
theorem empty_query_loops :
    (∀ fuel, plainSuggest.ioSuggest fuel (fun _ _ => noIndex) none (.ok [suggestRow "a" "Doc" "abc"])
      ⟨"", 1, [], []⟩ = .error .fuel) ∧
    (∀ order fuel, extractCompletions dottedTable order fuel [] ["abc".toList] = .error .fuel) ∧
    ¬ Completes dottedTable [] ["abc".toList] := by
  have hextract (order : HashOrder (ℕ × List Char)) (fuel : ℕ) :
      extractCompletions dottedTable order fuel [] ["abc".toList] = .error .fuel := by
    rw [extractCompletions_error, List.mapM_cons, occurrenceLoop_nil]
    rfl
  refine ⟨fun fuel => ?_, hextract, fun h => ?_⟩
  · have hhits : plainSuggest.suggestHits noIndex none ⟨"", 1, [], []⟩
        [suggestRow "a" "Doc" "abc"] = .ok [⟨"a", 0, 0, 1, 0, 1, "abc"⟩] := rfl
    have hbuild : plainSuggest.buildSuggestResult fuel [⟨"a", 0, 0, 1, 0, 1, "abc"⟩]
        ⟨"", 1, [], []⟩ = .error .fuel := by
      rw [buildSuggestResult_of_hits rfl]
      exact congrArg (Except.map _) (hextract _ fuel)
    unfold SuggestEnv.ioSuggest
    simp only [hhits, hbuild]
    rfl
  · rcases h.nonempty with h | h
    · cases h
    · exact h rfl

end Samples

end Vectorlink
