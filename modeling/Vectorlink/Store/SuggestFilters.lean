import Vectorlink.Store.SuggestCompletions

/-! Which suggestions pass the filters of the query, and when a match is found at all. -/
namespace Vectorlink

open Stepwise Text Ranking

section Extract

variable {t : CaseTable} {query : List Char} {snippets : List (List Char)}

/-- The extraction returns only for a query, and where the matches land. -/
theorem allLand_of_ok {order : HashOrder (ℕ × List Char)} {fuel : ℕ}
    {completions : List (List Char)}
    (h : extractCompletions t order fuel query snippets = .ok completions) :
    (snippets = [] ∨ query ≠ []) ∧ AllLand t query snippets := by
  obtain ⟨visits, hvisits, _⟩ := exceptBind_eq_ok.mp h
  have hloop := exists_ok_of_mapM hvisits
  refine ⟨?_, fun snippet hmem => ?_⟩
  · by_contra hno
    rw [not_or, not_not] at hno
    obtain ⟨snippet, rest, rfl⟩ := List.exists_cons_of_ne_nil hno.1
    obtain ⟨vs, hvs⟩ := hloop snippet List.mem_cons_self
    rw [hno.2, occurrenceLoop_nil] at hvs
    cases hvs
  · by_contra hlands
    obtain ⟨vs, hvs⟩ := hloop snippet hmem
    by_cases hquery : query = []
    · rw [hquery, occurrenceLoop_nil] at hvs
      cases hvs
    · have hmore := occurrenceLoop_mono
        (Nat.le_max_left fuel ((t.toLowercase snippet).length + 1)) hvs
      rw [occurrenceLoop_of_not_lands hquery hlands
        (Nat.lt_of_lt_of_le (Nat.lt_succ_self _) (Nat.le_max_right _ _))] at hmore
      cases hmore

theorem findMatch_isSome_of_lands {content : List Char} (hquery : query ≠ [])
    (h : ∀ p ∈ occurrences (t.toLowercase query) (t.toLowercase content),
      LandsAt t query content p) :
    (findMatchAndNextWords t content (t.toLowercase query)).isSome := by
  have hpat : t.toLowercase query ≠ [] := fun hnil => hquery (t.toLowercase_eq_nil_iff.mp hnil)
  cases hfind : find (t.toLowercase query) (t.toLowercase content) with
  | none =>
    unfold findMatchAndNextWords
    rw [hfind]
    rfl
  | some p =>
    obtain ⟨after, hafter⟩ :=
      Option.isSome_iff_exists.mp (h p (mem_occurrences_of_find hpat hfind)).2
    obtain ⟨words, hwords⟩ := findMatch_of_slice hfind hafter
    rw [hwords]
    rfl

end Extract

section Build

variable {D : Type} [LinearOrder D] {env : SuggestEnv D} {query : SuggestQuery}
  {chunkHits : List (ChunkHit D)}

/-- The texts of the hits can be highlighted as far as they are shown, and completions extracted
from the first of them. -/
def Renders (table : CaseTable) (query : SuggestQuery) (contents : List (List Char)) : Prop :=
  (∀ content ∈ contents.take query.count, (findMatchAndNextWords table content
    (table.toLowercase query.queryText.toList)).isSome) ∧
  (contents.take 5 = [] ∨ query.queryText.toList ≠ []) ∧
  AllLand table query.queryText.toList (contents.take 5)

def contentsOf (hits : List (ChunkHit D)) : List (List Char) :=
  hits.map fun hit => hit.content.toList

omit [LinearOrder D] in
theorem suggestHit_ok_iff {hit : ChunkHit D} : (∃ shown, env.suggestHit query hit = .ok shown) ↔
    (findMatchAndNextWords env.table hit.content.toList
      (env.table.toLowercase query.queryText.toList)).isSome := by
  unfold SuggestEnv.suggestHit
  cases findMatchAndNextWords env.table hit.content.toList
    (env.table.toLowercase query.queryText.toList) with
  | none => simp
  | some highlight => simp

omit [LinearOrder D] in
theorem suggestHits_ok_iff {hits : List (ChunkHit D)} :
    (∃ shown, hits.mapM (env.suggestHit query) = .ok shown) ↔
      ∀ content ∈ contentsOf hits, (findMatchAndNextWords env.table content
        (env.table.toLowercase query.queryText.toList)).isSome := by
  rw [contentsOf, List.forall_mem_map]
  constructor
  · rintro ⟨shown, h⟩ hit hhit
    exact suggestHit_ok_iff.mp (exists_ok_of_mapM h hit hhit)
  · intro h
    exact exists_mapM_ok fun hit hhit => suggestHit_ok_iff.mpr (h hit hhit)

omit [LinearOrder D] in
theorem map_id_of_suggestHits {hits : List (ChunkHit D)} {shown : List SuggestHit}
    (h : hits.mapM (env.suggestHit query) = .ok shown) :
    shown.map SuggestHit.id = hits.map fun hit => hit.docId := by
  have hall := mapM_ok_iff.mp h
  clear h
  induction hall with
  | nil => rfl
  | cons hhit _ ih =>
    rw [List.map_cons, List.map_cons, ih]
    unfold SuggestEnv.suggestHit at hhit
    split at hhit
    · obtain rfl := Except.ok.inj hhit
      rfl
    · cases hhit

/-- A result is built only of hits that render, and shows the nearest of them. -/
theorem renders_of_build {fuel : ℕ} {result : SuggestResult}
    (h : env.buildSuggestResult fuel chunkHits query = .ok result) :
    Renders env.table query (contentsOf (env.sortedHits chunkHits)) ∧
      result.hits.map SuggestHit.id =
        ((env.sortedHits chunkHits).take query.count).map fun hit => hit.docId := by
  unfold SuggestEnv.buildSuggestResult at h
  obtain ⟨shown, hshown, h⟩ := exceptBind_eq_ok.mp h
  obtain ⟨completions, hextract, h⟩ := exceptBind_eq_ok.mp h
  obtain rfl := Except.ok.inj h
  refine ⟨⟨?_, ?_⟩, map_id_of_suggestHits hshown⟩
  · have hall := suggestHits_ok_iff.mp ⟨shown, hshown⟩
    rwa [contentsOf, List.map_take] at hall
  · rw [contentsOf, ← List.map_take]
    exact allLand_of_ok hextract

theorem build_of_renders (h : Renders env.table query (contentsOf (env.sortedHits chunkHits))) :
    ∃ enough, ∀ fuel, enough ≤ fuel → ∃ result,
      env.buildSuggestResult fuel chunkHits query = .ok result := by
  obtain ⟨hmatch, hquery, hlands⟩ := h
  obtain ⟨visits, enough, _, hextract⟩ := completes_of_allLand hquery hlands
  rw [contentsOf, ← List.map_take] at hmatch hextract
  obtain ⟨shown, hshown⟩ := suggestHits_ok_iff.mpr hmatch
  refine ⟨enough, fun fuel hfuel => ?_⟩
  obtain ⟨completions, hok, _⟩ := (hextract fuel hfuel).2 env.completionOrder
  refine ⟨⟨(env.sortedHits chunkHits).length, completions, shown⟩, ?_⟩
  rw [buildSuggestResult_of_hits hshown, hok]
  rfl

end Build

section Best

variable {D : Type} [LinearOrder D]

/-- The chunk that stands for each document. -/
def bestHits (chunkHits : List (ChunkHit D)) : List (ChunkHit D) :=
  (leastPerKey (fun hit => hit.docId) (fun hit : ChunkHit D => hit.distance) chunkHits).entries.map
    Sigma.snd

variable {chunkHits : List (ChunkHit D)} {hit : ChunkHit D}

theorem mem_bestHits : hit ∈ bestHits chunkHits ↔
    (withKey (fun hit => hit.docId) hit.docId chunkHits).argmin (fun hit => hit.distance) =
      some hit := by
  rw [bestHits, mem_values_iff (fun _ _ h => (mem_of_lookup_leastPerKey h).2), lookup_leastPerKey]

theorem nodup_bestHits (chunkHits : List (ChunkHit D)) :
    ((bestHits chunkHits).map fun hit => hit.docId).Nodup :=
  nodup_map_key_values fun _ _ h => (mem_of_lookup_leastPerKey h).2

theorem mem_of_mem_bestHits (h : hit ∈ bestHits chunkHits) : hit ∈ chunkHits := by
  rw [mem_bestHits] at h
  exact (mem_withKey.mp (List.argmin_mem h)).1

theorem sortedHits_perm (env : SuggestEnv D) (chunkHits : List (ChunkHit D)) :
    (env.sortedHits chunkHits).Perm (bestHits chunkHits) :=
  (List.perm_insertionSort _ _).trans (env.docOrder.perm _)

end Best

section Matches

variable {V D : Type} [LinearOrder D] [Zero D] {table : CaseTable} {query : SuggestQuery}
  {rows : List (ChunkRow V)}

/-- The documents with a match among the rows that the scan delivers first, each by its first
such row. -/
def firstMatches (table : CaseTable) (query : SuggestQuery) (rows : List (ChunkRow V)) :
    List (ChunkRow V) :=
  ((matchingRows table query rows).map fun r => r.docId).dedup.filterMap fun id =>
    (matchingRows table query rows).find? fun r => r.docId = id

theorem mem_firstMatches {r : ChunkRow V} : r ∈ firstMatches table query rows ↔
    ((matchingRows table query rows).find? fun r' => r'.docId = r.docId) = some r := by
  rw [firstMatches, List.mem_filterMap]
  constructor
  · rintro ⟨id, _, hfind⟩
    have hid : r.docId = id := by simpa using List.find?_some hfind
    rw [hid]
    exact hfind
  · intro hfind
    refine ⟨r.docId, List.mem_dedup.mpr (List.mem_map_of_mem ?_), hfind⟩
    exact List.mem_of_find?_eq_some hfind

theorem exists_firstMatch {r : ChunkRow V} (h : r ∈ matchingRows table query rows) :
    ∃ r', r' ∈ firstMatches table query rows := by
  have hsome : ((matchingRows table query rows).find? fun r' => r'.docId = r.docId).isSome := by
    rw [List.find?_isSome]
    exact ⟨r, h, by simp⟩
  obtain ⟨r', hr'⟩ := Option.isSome_iff_exists.mp hsome
  have hid : r'.docId = r.docId := by simpa using List.find?_some hr'
  refine ⟨r', mem_firstMatches.mpr ?_⟩
  rw [hid]
  exact hr'

omit [LinearOrder D] in
theorem withKey_matchHit (l : List (ChunkRow V)) (id : DocId) :
    withKey (fun hit : ChunkHit D => hit.docId) id (l.map matchHit) =
      (l.filter fun r => r.docId = id).map matchHit := by
  rw [withKey, List.filter_map]
  rfl

omit [LinearOrder D] in
theorem contentsOf_matchHit (p : List (ChunkRow V)) :
    contentsOf (p.map (matchHit (D := D))) = p.map fun r => r.content.toList := by
  rw [contentsOf, List.map_map]
  rfl

theorem argmin_matchHit (l : List (ChunkRow V)) :
    (l.map matchHit).argmin (fun hit : ChunkHit D => hit.distance) = (l.map matchHit).head? := by
  cases l with
  | nil => rfl
  | cons r l =>
    refine argmin_cons_of_le fun hit hhit => ?_
    obtain ⟨r', _, rfl⟩ := List.mem_map.mp hhit
    exact le_rfl

theorem mem_bestHits_matches {hit : ChunkHit D} :
    hit ∈ bestHits ((matchingRows table query rows).map matchHit) ↔
      ∃ r ∈ firstMatches table query rows, matchHit r = hit := by
  rw [mem_bestHits, withKey_matchHit, argmin_matchHit, List.head?_map, List.head?_filter,
    Option.map_eq_some_iff]
  constructor
  · rintro ⟨r, hfind, rfl⟩
    exact ⟨r, mem_firstMatches.mpr hfind, rfl⟩
  · rintro ⟨r, hr, rfl⟩
    exact ⟨r, mem_firstMatches.mp hr, rfl⟩

theorem nodup_firstMatches (table : CaseTable) (query : SuggestQuery) (rows : List (ChunkRow V)) :
    ((firstMatches table query rows).map fun r => r.docId).Nodup := by
  rw [firstMatches, List.Nodup, List.pairwise_map, List.pairwise_filterMap]
  refine (List.nodup_dedup _).imp fun {id id'} hne r hr r' hr' heq => hne ?_
  have hid : r.docId = id := by simpa using List.find?_some hr
  have hid' : r'.docId = id' := by simpa using List.find?_some hr'
  rw [← hid, ← hid', heq]

/-- The hits of the fallback are those of the first matches. -/
theorem bestHits_perm : (bestHits ((matchingRows table query rows).map matchHit) :
    List (ChunkHit D)).Perm ((firstMatches table query rows).map matchHit) := by
  have hnodup : ((firstMatches table query rows).map (matchHit (D := D))).Nodup := by
    have hids := nodup_firstMatches table query rows
    refine List.Nodup.of_map (fun hit => hit.docId) ?_
    rw [List.map_map]
    exact hids
  rw [List.perm_ext_iff_of_nodup (List.Nodup.of_map _ (nodup_bestHits _)) hnodup]
  intro hit
  rw [mem_bestHits_matches, List.mem_map]

omit [LinearOrder D] in
/-- Every order of the hits of the fallback is one of the first matches. -/
theorem exists_rows_of_perm {l : List (ChunkHit D)}
    (h : l.Perm ((firstMatches table query rows).map matchHit)) :
    ∃ p : List (ChunkRow V), p.Perm (firstMatches table query rows) ∧ p.map matchHit = l := by
  let row (hit : ChunkHit D) : Option (ChunkRow V) :=
    (matchingRows table query rows).find? fun r => r.docId = hit.docId
  have hrow (r : ChunkRow V) (hr : r ∈ firstMatches table query rows) :
      row (matchHit r) = some r := mem_firstMatches.mp hr
  refine ⟨l.filterMap row, ?_, ?_⟩
  · have hback : ((firstMatches table query rows).map matchHit).filterMap row =
        firstMatches table query rows := by
      rw [List.filterMap_map]
      exact (List.filterMap_congr hrow).trans List.filterMap_some
    rw [← hback]
    exact h.filterMap row
  · have hself (hit : ChunkHit D) (hhit : hit ∈ l) : (row hit).map matchHit = some hit := by
      obtain ⟨r, hr, rfl⟩ := List.mem_map.mp (h.subset hhit)
      rw [hrow r hr]
      rfl
    rw [List.map_filterMap, List.filterMap_congr hself, List.filterMap_some]

/-- Every order of the first matches is one in which the map may be iterated. -/
theorem exists_order_of_perm {p : List (ChunkRow V)} (h : p.Perm (firstMatches table query rows)) :
    ∃ order : HashOrder (ChunkHit D), ∀ completionOrder,
      (SuggestEnv.mk table order completionOrder).sortedHits
        ((matchingRows table query rows).map matchHit) = p.map matchHit := by
  classical
  let best : List (ChunkHit D) := bestHits ((matchingRows table query rows).map matchHit)
  have hperm : (p.map matchHit).Perm best := (h.map matchHit).trans bestHits_perm.symm
  have hrun (l : List (ChunkHit D)) : (if l = best then p.map matchHit else l).Perm l := by
    split
    · next hl =>
      rw [hl]
      exact hperm
    · exact List.Perm.refl l
  have hsorted : ((p.map matchHit).insertionSort fun a b : ChunkHit D => a.distance ≤ b.distance) =
      p.map matchHit := by
    refine List.Pairwise.insertionSort_eq ?_
    rw [List.pairwise_map]
    exact List.pairwise_of_forall fun _ _ => le_rfl
  refine ⟨⟨fun l => if l = best then p.map matchHit else l, hrun⟩, fun completionOrder => ?_⟩
  change ((if best = best then p.map matchHit else best).insertionSort
    fun a b : ChunkHit D => a.distance ≤ b.distance) = p.map matchHit
  rw [if_pos rfl, hsorted]

end Matches

section Fts

variable {V D : Type}

def FtsRun.yieldsNothing (run : FtsRun D) : Bool :=
  match run.setup, run.limit, run.stream, run.collect with
  | .ok _, .ok _, .error msg, _ => missingIndex msg
  | .ok _, .ok _, .ok _, .error msg => missingIndex msg
  | .ok _, .ok _, .ok _, .ok hits => hits.isEmpty
  | _, _, _, _ => false

/-- The substring scan takes over. -/
def FtsRun.fallsBack (run : FtsRun D) (query : SuggestQuery) : Bool :=
  match run.setup, run.limit, run.stream, run.collect with
  | .ok _, .ok _, .error msg, _ => missingIndex msg
  | .ok _, .ok _, .ok _, .error msg => missingIndex msg
  | .ok _, .ok _, .ok _, .ok hits => hits.isEmpty && query.queryText ≠ ""
  | _, _, _, _ => false

variable {run : FtsRun D} {query : SuggestQuery}

theorem FtsRun.fallsBack_of_yieldsNothing (h : run.yieldsNothing = true)
    (hquery : query.queryText ≠ "") : run.fallsBack query = true := by
  obtain ⟨setup, limit, stream, collect⟩ := run
  unfold FtsRun.yieldsNothing at h
  unfold FtsRun.fallsBack
  cases setup <;> cases limit <;> cases stream <;> cases collect <;> simp_all

variable [Zero D] (env : SuggestEnv D) (readError : Option StoreError) (rows : List (ChunkRow V))

theorem suggestHits_of_fallsBack (h : run.fallsBack query = true) :
    env.suggestHits run readError query rows =
      .ok (fallbackHits env.table query rows readError) := by
  obtain ⟨setup, limit, stream, collect⟩ := run
  unfold FtsRun.fallsBack at h
  unfold SuggestEnv.suggestHits
  cases setup <;> cases limit <;> cases stream <;> cases collect <;> simp_all

theorem suggestHits_of_scan (h : run.fallsBack query = true) :
    env.suggestHits run none query rows =
      .ok ((matchingRows env.table query rows).map matchHit) :=
  suggestHits_of_fallsBack env none rows h

theorem suggestHits_of_not_fallsBack (h : run.fallsBack query = false) :
    (∃ e, env.suggestHits run readError query rows = .error e ∧ run.yieldsNothing = false) ∨
      ∃ hits, run.collect = .ok hits ∧ env.suggestHits run readError query rows = .ok hits ∧
        (run.yieldsNothing = true → hits = [] ∧ query.queryText = "") := by
  obtain ⟨setup, limit, stream, collect⟩ := run
  unfold FtsRun.fallsBack at h
  unfold SuggestEnv.suggestHits FtsRun.yieldsNothing
  cases setup <;> cases limit <;> cases stream <;> cases collect <;> simp_all

end Fts

section Shown

variable {V : Type} {table : CaseTable} {query : SuggestQuery} {rows : List (ChunkRow V)}

instance (t : CaseTable) (query snippet : List Char) (p : ℕ) :
    Decidable (LandsAt t query snippet p) :=
  inferInstanceAs (Decidable (_ ∧ _))

def rowHighlights (table : CaseTable) (query : SuggestQuery) (r : ChunkRow V) : Bool :=
  (findMatchAndNextWords table r.content.toList (table.toLowercase query.queryText.toList)).isSome

/-- The occurrences in the lowercased text of a row are at boundaries of the text. -/
def rowLands (table : CaseTable) (query : SuggestQuery) (r : ChunkRow V) : Bool :=
  decide (∀ p ∈ occurrences (table.toLowercase query.queryText.toList)
    (table.toLowercase r.content.toList), LandsAt table query.queryText.toList r.content.toList p)

theorem rowHighlights_of_rowLands (hquery : query.queryText ≠ "") {r : ChunkRow V}
    (h : rowLands table query r = true) : rowHighlights table query r = true :=
  findMatch_isSome_of_lands (fun hnil => hquery (String.toList_eq_nil_iff.mp hnil))
    (of_decide_eq_true h)

theorem renders_rows_iff {p : List (ChunkRow V)} :
    Renders table query (p.map fun r => r.content.toList) ↔
      (p = [] ∨ query.queryText ≠ "") ∧ (∀ r ∈ p.take 5, rowLands table query r = true) ∧
        ∀ r ∈ p.take query.count, rowHighlights table query r = true := by
  have hempty : (p.map fun r => r.content.toList).take 5 = [] ↔ p = [] := by simp
  have hquery : query.queryText.toList ≠ [] ↔ query.queryText ≠ "" := by simp
  unfold Renders AllLand
  rw [hempty, hquery, ← List.map_take, ← List.map_take, List.forall_mem_map, List.forall_mem_map]
  simp only [rowLands, rowHighlights, decide_eq_true_eq]
  tauto

/-- A match that some order of the map shows: the texts that come before it render. -/
structure MayShow (table : CaseTable) (query : SuggestQuery) (rows : List (ChunkRow V))
    (r : ChunkRow V) : Prop where
  nonempty : query.queryText ≠ ""
  ranked : r ∈ firstMatches table query rows ∧ rowHighlights table query r = true ∧
    0 < query.count ∧ (rowLands table query r = true ∨ 5 < query.count)
  completed : min 5 (firstMatches table query rows).length ≤
    (firstMatches table query rows).countP (rowLands table query)
  highlighted : min query.count (firstMatches table query rows).length ≤
    (firstMatches table query rows).countP (rowHighlights table query)

theorem mayShow_iff {r : ChunkRow V} : MayShow table query rows r ↔
    ∃ p : List (ChunkRow V), p.Perm (firstMatches table query rows) ∧
      Renders table query (p.map fun r => r.content.toList) ∧ r ∈ p.take query.count := by
  by_cases hquery : query.queryText = ""
  · refine iff_of_false (fun h => h.nonempty hquery) ?_
    rintro ⟨p, _, hrenders, hr⟩
    rcases (renders_rows_iff.mp hrenders).1 with rfl | hne
    · rw [List.take_nil] at hr
      cases hr
    · exact hne hquery
  · have hlanding (r' : ChunkRow V) (h : rowLands table query r' = true) :
        rowHighlights table query r' = true := rowHighlights_of_rowLands hquery h
    have hranked := exists_perm_take_iff (k := 5) (c := query.count) (r := r)
      (l := firstMatches table query rows) (by decide) hlanding
    constructor
    · intro h
      obtain ⟨p, hperm, hlands, hhigh, hr⟩ := hranked.mpr ⟨h.ranked, h.completed, h.highlighted⟩
      exact ⟨p, hperm, renders_rows_iff.mpr ⟨.inr hquery, hlands, hhigh⟩, hr⟩
    · rintro ⟨p, hperm, hrenders, hr⟩
      obtain ⟨_, hlands, hhigh⟩ := renders_rows_iff.mp hrenders
      obtain ⟨hrank, hfive, hcount⟩ := hranked.mp ⟨p, hperm, hlands, hhigh, hr⟩
      exact ⟨hquery, hrank, hfive, hcount⟩

end Shown

section Filters

variable {V D : Type}

/-- The row satisfies the filters of the query. -/
def SuggestQuery.passes (query : SuggestQuery) (r : ChunkRow V) : Bool :=
  ((buildFilterExpr query.docTypeFilter query.docIdFilter).map fun filter => filter r).getD true

/-- The document has a row that satisfies the filters. -/
def DocPasses (query : SuggestQuery) (rows : List (ChunkRow V)) (id : DocId) : Prop :=
  ∃ r ∈ rows, r.docId = id ∧ query.passes r = true

/-- What is read from the full-text search are rows of the snapshot that satisfy its filter. -/
def FtsSearch.Honours (fts : FtsSearch V D) (rows : List (ChunkRow V)) : Prop :=
  ∀ filter limit hits, (fts filter limit).collect = .ok hits → ∀ hit ∈ hits,
    ∃ r ∈ rows, r.docId = hit.docId ∧ ∀ f, filter = some f → f r = true

/-- The full-text search that the suggestions begin with. -/
def ftsRun (fts : FtsSearch V D) (query : SuggestQuery) : FtsRun D :=
  fts (buildFilterExpr query.docTypeFilter query.docIdFilter) (scanLimit query.count)

def HasMatch (table : CaseTable) (query : SuggestQuery) (rows : List (ChunkRow V)) : Prop :=
  ∃ r ∈ rows, query.passes r = true ∧ hasQuery table query r = true

variable [LinearOrder D] [Zero D]

/-- Every hit is of a document that passes the filters, and where the full-text search finds
nothing, a match that passes them leads to a hit. -/
structure SuggestsSoundly (table : CaseTable) (fts : FtsSearch V D) (readError : Option StoreError)
    (query : SuggestQuery) (rows : List (ChunkRow V)) : Prop where
  filtered : ∀ docOrder completionOrder fuel result,
    (SuggestEnv.mk table docOrder completionOrder).ioSuggest fuel fts readError (.ok rows) query =
      .ok (.ok result) → ∀ hit ∈ result.hits, DocPasses query rows hit.id
  finds : (ftsRun fts query).yieldsNothing = true → HasMatch table query rows →
    ∀ docOrder completionOrder, ∃ enough, ∀ fuel, enough ≤ fuel → ∃ result,
      (SuggestEnv.mk table docOrder completionOrder).ioSuggest fuel fts readError (.ok rows) query =
        .ok (.ok result) ∧ result.hits ≠ []

/-- What the scan, which looks at the first rows only and at no filter, can be used for. -/
structure FallbackFits (table : CaseTable) (run : FtsRun D) (readError : Option StoreError)
    (query : SuggestQuery) (rows : List (ChunkRow V)) : Prop where
  shown : run.fallsBack query = true → readError = none →
    ∀ r, MayShow table query rows r → DocPasses query rows r.docId
  reached : run.yieldsNothing = true → HasMatch table query rows →
    query.queryText ≠ "" ∧ readError = none ∧ query.count ≠ 0 ∧
      (∃ r ∈ rows.take (scanLimit query.count), hasQuery table query r = true) ∧
      ∀ r ∈ firstMatches table query rows, rowLands table query r = true

variable {env : SuggestEnv D} {fts : FtsSearch V D} {query : SuggestQuery}
  {readError : Option StoreError} {rows : List (ChunkRow V)} {fuel : ℕ} {result : SuggestResult}

theorem ioSuggest_of_hits {hits : List (ChunkHit D)}
    (h : env.suggestHits (ftsRun fts query) readError query rows = .ok hits) :
    env.ioSuggest fuel fts readError (.ok rows) query =
      (env.buildSuggestResult fuel hits query).map .ok := by
  unfold ftsRun at h
  unfold SuggestEnv.ioSuggest
  simp only [h]

theorem ioSuggest_eq_ok {hits : List (ChunkHit D)}
    (h : env.suggestHits (ftsRun fts query) readError query rows = .ok hits) :
    env.ioSuggest fuel fts readError (.ok rows) query = .ok (.ok result) ↔
      env.buildSuggestResult fuel hits query = .ok result := by
  rw [ioSuggest_of_hits h]
  cases env.buildSuggestResult fuel hits query with
  | error e => exact iff_of_false (fun h => by cases h) (fun h => by cases h)
  | ok result' =>
    constructor
    · intro h
      rw [Except.ok.inj (Except.ok.inj h)]
    · intro h
      rw [Except.ok.inj h]
      rfl

omit [Zero D] in
/-- A result with hits is one for a query, with room for them, of hits. -/
theorem of_hits_ne_nil {chunkHits : List (ChunkHit D)}
    (h : env.buildSuggestResult fuel chunkHits query = .ok result) (hne : result.hits ≠ []) :
    query.queryText ≠ "" ∧ query.count ≠ 0 ∧ chunkHits ≠ [] := by
  obtain ⟨⟨_, hquery, _⟩, hids⟩ := renders_of_build h
  have hshown : (env.sortedHits chunkHits).take query.count ≠ [] := by
    intro hnil
    rw [hnil, List.map_nil, List.map_eq_nil_iff] at hids
    exact hne hids
  rw [Ne, List.take_eq_nil_iff, not_or] at hshown
  refine ⟨?_, hshown.1, ?_⟩
  · rintro hempty
    rcases hquery with hnil | hquery
    · rw [List.take_eq_nil_iff, contentsOf, List.map_eq_nil_iff] at hnil
      exact hshown.2 (hnil.resolve_left (by decide))
    · exact hquery (String.toList_eq_nil_iff.mpr hempty)
  · rintro rfl
    exact hshown.2 (List.perm_nil.mp (sortedHits_perm env []))

/-- The hits of the fallback come in some order of the first matches. -/
theorem exists_sortedHits_eq (env : SuggestEnv D) (query : SuggestQuery) (rows : List (ChunkRow V)) :
    ∃ p : List (ChunkRow V), p.Perm (firstMatches env.table query rows) ∧
      env.sortedHits ((matchingRows env.table query rows).map matchHit) = p.map matchHit := by
  obtain ⟨p, hperm, heq⟩ := exists_rows_of_perm
    ((sortedHits_perm env ((matchingRows env.table query rows).map matchHit)).trans bestHits_perm)
  exact ⟨p, hperm, heq.symm⟩

omit [LinearOrder D] [Zero D] in
theorem docPasses_of_honours (hfts : fts.Honours rows) {hits : List (ChunkHit D)}
    (hcollect : (ftsRun fts query).collect = .ok hits) {hit : ChunkHit D} (hhit : hit ∈ hits) :
    DocPasses query rows hit.docId := by
  obtain ⟨r, hr, hid, hfilter⟩ := hfts _ _ hits hcollect hit hhit
  refine ⟨r, hr, hid, ?_⟩
  unfold SuggestQuery.passes
  cases hf : buildFilterExpr query.docTypeFilter query.docIdFilter with
  | none => rfl
  | some f => exact hfilter f hf

theorem filtered_of_fits (hfts : fts.Honours rows)
    (h : FallbackFits env.table (ftsRun fts query) readError query rows)
    (hrun : env.ioSuggest fuel fts readError (.ok rows) query = .ok (.ok result)) :
    ∀ hit ∈ result.hits, DocPasses query rows hit.id := by
  intro hit hhit
  have hid := List.mem_map_of_mem (f := SuggestHit.id) hhit
  cases hfall : (ftsRun fts query).fallsBack query with
  | true =>
    cases readError with
    | some e =>
      have hbuild := (ioSuggest_eq_ok (suggestHits_of_fallsBack env (some e) rows hfall)).mp hrun
      exact absurd rfl (of_hits_ne_nil hbuild (List.ne_nil_of_mem hhit)).2.2
    | none =>
      have hbuild := (ioSuggest_eq_ok (suggestHits_of_scan env rows hfall)).mp hrun
      obtain ⟨p, hperm, hsorted⟩ := exists_sortedHits_eq env query rows
      obtain ⟨hrenders, hids⟩ := renders_of_build hbuild
      rw [hsorted, contentsOf_matchHit] at hrenders
      rw [hids, hsorted, ← List.map_take, List.map_map] at hid
      obtain ⟨r, hr, hdoc⟩ := List.mem_map.mp hid
      rw [← hdoc]
      exact h.shown hfall rfl r (mayShow_iff.mpr ⟨p, hperm, hrenders, hr⟩)
  | false =>
    rcases suggestHits_of_not_fallsBack env readError rows hfall with
      ⟨e, herror, _⟩ | ⟨hits, hcollect, hhits, _⟩
    · unfold SuggestEnv.ioSuggest at hrun
      unfold ftsRun at herror
      simp only [herror] at hrun
      cases hrun
    · have hbuild := (ioSuggest_eq_ok hhits).mp hrun
      rw [(renders_of_build hbuild).2] at hid
      obtain ⟨best, hbest, hdoc⟩ := List.mem_map.mp hid
      rw [← hdoc]
      have hmem := (sortedHits_perm env hits).subset (List.mem_of_mem_take hbest)
      exact docPasses_of_honours hfts hcollect (mem_of_mem_bestHits hmem)

theorem finds_of_fits (h : FallbackFits env.table (ftsRun fts query) readError query rows)
    (hnothing : (ftsRun fts query).yieldsNothing = true) (hmatch : HasMatch env.table query rows) :
    ∃ enough, ∀ fuel, enough ≤ fuel → ∃ result,
      env.ioSuggest fuel fts readError (.ok rows) query = .ok (.ok result) ∧ result.hits ≠ [] := by
  obtain ⟨hquery, rfl, hcount, ⟨r, hr, hhas⟩, hlands⟩ := h.reached hnothing hmatch
  have hfall := FtsRun.fallsBack_of_yieldsNothing hnothing hquery
  obtain ⟨p, hperm, hsorted⟩ := exists_sortedHits_eq env query rows
  have hall (r : ChunkRow V) (hmem : r ∈ p) : rowLands env.table query r = true :=
    hlands r (hperm.subset hmem)
  have hrenders : Renders env.table query (contentsOf (env.sortedHits
      ((matchingRows env.table query rows).map matchHit))) := by
    rw [hsorted, contentsOf_matchHit, renders_rows_iff]
    exact ⟨.inr hquery, fun r hmem => hall r (List.mem_of_mem_take hmem),
      fun r hmem => rowHighlights_of_rowLands hquery (hall r (List.mem_of_mem_take hmem))⟩
  obtain ⟨enough, hbuild⟩ := build_of_renders hrenders
  refine ⟨enough, fun fuel hfuel => ?_⟩
  obtain ⟨result, hresult⟩ := hbuild fuel hfuel
  have hrun := (ioSuggest_eq_ok (suggestHits_of_scan env rows hfall)).mpr hresult
  refine ⟨result, hrun, fun hnil => ?_⟩
  have hids := (renders_of_build hresult).2
  rw [hnil, hsorted, List.map_nil, ← List.map_take, List.map_map, eq_comm, List.map_eq_nil_iff,
    List.take_eq_nil_iff] at hids
  obtain ⟨r', hr'⟩ := exists_firstMatch (List.mem_filter.mpr ⟨hr, hhas⟩)
  have hmem := hperm.symm.subset hr'
  rw [hids.resolve_left hcount] at hmem
  cases hmem

theorem shown_of_sound {table : CaseTable} (h : SuggestsSoundly table fts none query rows)
    (hfall : (ftsRun fts query).fallsBack query = true) {r : ChunkRow V}
    (hr : MayShow table query rows r) : DocPasses query rows r.docId := by
  obtain ⟨p, hperm, hrenders, hmem⟩ := mayShow_iff.mp hr
  obtain ⟨order, hsorted⟩ := exists_order_of_perm (D := D) hperm
  let completionOrder : HashOrder (ℕ × List Char) := ⟨id, List.Perm.refl⟩
  rw [← contentsOf_matchHit (D := D), ← hsorted completionOrder] at hrenders
  obtain ⟨enough, hbuild⟩ : ∃ enough, ∀ fuel, enough ≤ fuel → ∃ result,
      (SuggestEnv.mk table order completionOrder).buildSuggestResult fuel
        ((matchingRows table query rows).map matchHit) query = .ok result :=
    build_of_renders hrenders
  obtain ⟨result, hresult⟩ := hbuild enough le_rfl
  have hids := (renders_of_build hresult).2
  rw [hsorted, ← List.map_take, List.map_map] at hids
  have hid : r.docId ∈ result.hits.map SuggestHit.id := by
    rw [hids]
    exact List.mem_map_of_mem (f := (fun hit : ChunkHit D => hit.docId) ∘ matchHit) hmem
  obtain ⟨hit, hhit, hdoc⟩ := List.mem_map.mp hid
  rw [← hdoc]
  exact h.filtered order completionOrder enough result
    ((ioSuggest_eq_ok (suggestHits_of_scan _ rows hfall)).mpr hresult) hit hhit

/-- The suggestions for a match are made of the rows that the scan found. -/
theorem scan_of_found (hnothing : (ftsRun fts query).yieldsNothing = true)
    (hrun : env.ioSuggest fuel fts readError (.ok rows) query = .ok (.ok result))
    (hne : result.hits ≠ []) :
    readError = none ∧ env.buildSuggestResult fuel ((matchingRows env.table query rows).map matchHit)
      query = .ok result := by
  cases hfall : (ftsRun fts query).fallsBack query with
  | false =>
    rcases suggestHits_of_not_fallsBack env readError rows hfall with
      ⟨e, _, hsome⟩ | ⟨hits, _, hhits, hempty⟩
    · rw [hnothing] at hsome
      cases hsome
    · have hbuild := (ioSuggest_eq_ok hhits).mp hrun
      exact absurd (hempty hnothing).1 (of_hits_ne_nil hbuild hne).2.2
  | true =>
    cases readError with
    | some e =>
      have hbuild := (ioSuggest_eq_ok (suggestHits_of_fallsBack env (some e) rows hfall)).mp hrun
      exact absurd rfl (of_hits_ne_nil hbuild hne).2.2
    | none => exact ⟨rfl, (ioSuggest_eq_ok (suggestHits_of_scan env rows hfall)).mp hrun⟩

theorem reached_of_sound {table : CaseTable} (h : SuggestsSoundly table fts readError query rows)
    (hnothing : (ftsRun fts query).yieldsNothing = true) (hmatch : HasMatch table query rows) :
    query.queryText ≠ "" ∧ readError = none ∧ query.count ≠ 0 ∧
      (∃ r ∈ rows.take (scanLimit query.count), hasQuery table query r = true) ∧
      ∀ r ∈ firstMatches table query rows, rowLands table query r = true := by
  let completionOrder : HashOrder (ℕ × List Char) := ⟨id, List.Perm.refl⟩
  have hscan (docOrder : HashOrder (ChunkHit D)) : ∃ fuel result, result.hits ≠ [] ∧
      readError = none ∧ (SuggestEnv.mk table docOrder completionOrder).buildSuggestResult fuel
        ((matchingRows table query rows).map matchHit) query = .ok result := by
    obtain ⟨enough, hfuel⟩ := h.finds hnothing hmatch docOrder completionOrder
    obtain ⟨result, hrun, hne⟩ := hfuel enough le_rfl
    exact ⟨enough, result, hne, scan_of_found hnothing hrun hne⟩
  obtain ⟨fuel, result, hne, hread, hbuild⟩ := hscan ⟨id, List.Perm.refl⟩
  obtain ⟨hquery, hcount, hhits⟩ := of_hits_ne_nil hbuild hne
  obtain ⟨r, hr⟩ := List.exists_mem_of_ne_nil _ (fun hnil => hhits (List.map_eq_nil_iff.mpr hnil))
  refine ⟨hquery, hread, hcount, ⟨r, List.mem_filter.mp hr⟩, fun r hr => ?_⟩
  -- some order of the map has the row first
  obtain ⟨rest, hrest⟩ : ∃ rest, (r :: rest).Perm (firstMatches table query rows) := by
    obtain ⟨s, t, hst⟩ := List.append_of_mem hr
    exact ⟨s ++ t, by rw [hst]; exact List.perm_middle.symm⟩
  obtain ⟨order, hsorted⟩ := exists_order_of_perm (D := D) hrest
  obtain ⟨fuel, result, _, _, hbuild⟩ := hscan order
  have hrenders := (renders_of_build hbuild).1
  rw [hsorted, contentsOf_matchHit] at hrenders
  exact (renders_rows_iff.mp hrenders).2.1 r List.mem_cons_self

/-- The suggestions honour the filters and find the matches where the scan is not used, or is good
for the rows: its first matches pass the filters or cannot be shown, and it comes to a match. -/
theorem suggestsSoundly_iff (table : CaseTable) (hfts : fts.Honours rows) :
    SuggestsSoundly table fts readError query rows ↔
      FallbackFits table (ftsRun fts query) readError query rows := by
  constructor
  · intro h
    refine ⟨fun hfall hread r hr => ?_, reached_of_sound h⟩
    subst hread
    exact shown_of_sound h hfall hr
  · intro h
    exact ⟨fun _ _ _ _ hrun => filtered_of_fits hfts h hrun,
      fun hnothing hmatch _ _ => finds_of_fits h hnothing hmatch⟩

end Filters

section Samples

/-- A full-text search that knows whole words, for a word and texts of one word. -/
def wordSearch (word : String) (rows : List (ChunkRow Unit)) : FtsSearch Unit ℕ :=
  fun filter limit => ⟨.ok (), .ok (), .ok (),
    .ok ((((scanRows filter rows).filter fun r => r.content = word).take limit).map matchHit)⟩

theorem wordSearch_honours (word : String) (rows : List (ChunkRow Unit)) :
    (wordSearch word rows).Honours rows := by
  intro filter limit hits hcollect hit hhit
  obtain rfl := Except.ok.inj hcollect
  obtain ⟨r, hr, rfl⟩ := List.mem_map.mp hhit
  have hscan := (List.mem_filter.mp (List.mem_of_mem_take hr)).1
  cases filter with
  | none => exact ⟨r, hscan, rfl, fun f hf => by cases hf⟩
  | some f' =>
    obtain ⟨hmem, hpass⟩ := List.mem_filter.mp hscan
    refine ⟨r, hmem, rfl, fun f hf => ?_⟩
    rw [← Option.some.inj hf]
    exact hpass

def boardRows : List (ChunkRow Unit) :=
  [suggestRow "a" "Board" "electrical", suggestRow "b" "Pump" "hydraulic"]

/-- A part of a word, asked for among the boards. -/
theorem board_suggested : (wordSearch "elect" boardRows).Honours boardRows ∧
    SuggestsSoundly dottedTable (wordSearch "elect" boardRows) none ⟨"elect", 1, ["Board"], []⟩
      boardRows := by
  have hfirst : firstMatches dottedTable ⟨"elect", 1, ["Board"], []⟩ boardRows =
      [suggestRow "a" "Board" "electrical"] := by decide
  have hlands : rowLands dottedTable ⟨"elect", 1, ["Board"], []⟩
      (suggestRow "a" "Board" "electrical") = true := by decide
  refine ⟨wordSearch_honours _ _, (suggestsSoundly_iff _ (wordSearch_honours _ _)).mpr ⟨?_, ?_⟩⟩
  · intro _ _ r hr
    have hmem := hr.ranked.1
    rw [hfirst, List.mem_singleton] at hmem
    exact ⟨suggestRow "a" "Board" "electrical", List.mem_cons_self, by rw [hmem], by decide⟩
  · intro _ _
    refine ⟨by decide, rfl, by decide, ⟨suggestRow "a" "Board" "electrical", ?_, by decide⟩, ?_⟩
    · exact List.mem_cons_self
    · rw [hfirst]
      exact fun r hr => by rw [List.mem_singleton.mp hr, hlands]

/-- The board comes eleventh. -/
def manyRows : List (ChunkRow Unit) :=
  List.replicate 10 (suggestRow "b" "Pump" "hydraulic") ++ [suggestRow "a" "Board" "electrical"]

/-- Asked for among the pumps the board is suggested, and behind ten pumps it is not found. -/
theorem board_among_pumps :
    (∃ result, plainSuggest.ioSuggest 20 (wordSearch "elect" boardRows) none (.ok boardRows)
      ⟨"elect", 1, ["Pump"], []⟩ = .ok (.ok result) ∧ result.hits.map SuggestHit.id = ["a"]) ∧
    ¬ SuggestsSoundly dottedTable (wordSearch "elect" boardRows) none ⟨"elect", 1, ["Pump"], []⟩
      boardRows ∧
    (∀ fuel, plainSuggest.ioSuggest fuel (wordSearch "elect" manyRows) none (.ok manyRows)
      ⟨"elect", 1, [], []⟩ = .ok (.ok ⟨0, [], []⟩)) ∧
    ¬ SuggestsSoundly dottedTable (wordSearch "elect" manyRows) none ⟨"elect", 1, [], []⟩
      manyRows := by
  have hrun : ∃ result, plainSuggest.ioSuggest 20 (wordSearch "elect" boardRows) none (.ok boardRows)
      ⟨"elect", 1, ["Pump"], []⟩ = .ok (.ok result) ∧ result.hits.map SuggestHit.id = ["a"] :=
    ⟨_, rfl, rfl⟩
  have hnone (fuel : ℕ) : plainSuggest.ioSuggest fuel (wordSearch "elect" manyRows) none
      (.ok manyRows) ⟨"elect", 1, [], []⟩ = .ok (.ok ⟨0, [], []⟩) := rfl
  refine ⟨hrun, fun h => ?_, hnone, fun h => ?_⟩
  · obtain ⟨result, hok, hids⟩ := hrun
    obtain ⟨hit, hhit, hid⟩ := List.mem_map.mp (hids ▸ List.mem_singleton_self "a")
    obtain ⟨r, hr, hdoc, hpass⟩ := h.filtered _ _ 20 result hok hit hhit
    rw [hid] at hdoc
    revert r
    decide
  · obtain ⟨enough, hfuel⟩ := h.finds rfl
      ⟨suggestRow "a" "Board" "electrical", by decide, rfl, rfl⟩ ⟨id, List.Perm.refl⟩
        ⟨id, List.Perm.refl⟩
    obtain ⟨result, hok, hne⟩ := hfuel enough le_rfl
    rw [← Except.ok.inj (Except.ok.inj ((hnone enough).symm.trans hok))] at hne
    exact hne rfl

end Samples

end Vectorlink
