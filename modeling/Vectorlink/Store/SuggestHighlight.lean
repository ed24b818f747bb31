import Mathlib.Algebra.Order.BigOperators.Group.List
import Vectorlink.Stepwise.Fallible
import Vectorlink.Store.Suggest

/-! Which slices of a text the offsets of its lowercased copy are good for. -/
namespace Vectorlink

open Stepwise Text

section Words

variable {a s rest : List Char}

theorem restOfWord_eq (s : List Char) :
    restOfWord s = byteLen (s.takeWhile fun c => !isSeparator c) :=
  findChar_getD isSeparator s

/-- The end of a word is a boundary, and a separator or nothing follows. -/
theorem sliceFrom_restOfWord (a s : List Char) :
    sliceFrom (byteLen a + restOfWord s) (a ++ s) = some (s.dropWhile fun c => !isSeparator c) := by
  refine sliceFrom_eq_some_iff.mpr ⟨a ++ s.takeWhile fun c => !isSeparator c, ?_, ?_⟩
  · rw [List.append_assoc, List.takeWhile_append_dropWhile]
  · rw [byteLen_append, restOfWord_eq]

theorem slice_restOfWord (a s : List Char) :
    slice (byteLen a) (byteLen a + restOfWord s) (a ++ s) =
      some (s.takeWhile fun c => !isSeparator c) := by
  have hs : s = (s.takeWhile fun c => !isSeparator c) ++ s.dropWhile fun c => !isSeparator c :=
    List.takeWhile_append_dropWhile.symm
  rw [restOfWord_eq]
  nth_rewrite 2 [hs]
  exact slice_append _ _ _

/-- From a boundary on the words are cut at boundaries. -/
theorem nextWords_isSome (passes : ℕ) (a remaining : List Char) :
    (nextWords (a ++ remaining) passes (byteLen a)).isSome := by
  induction passes generalizing a remaining with
  | zero => rfl
  | succ passes ih =>
    have hsplit : remaining = remaining.takeWhile isSeparator ++ remaining.dropWhile isSeparator :=
      List.takeWhile_append_dropWhile.symm
    generalize hsep : remaining.takeWhile isSeparator = sep at hsplit
    generalize htrimmed : remaining.dropWhile isSeparator = trimmed at hsplit
    have hword : trimmed = (trimmed.takeWhile fun c => !isSeparator c) ++
        trimmed.dropWhile fun c => !isSeparator c := List.takeWhile_append_dropWhile.symm
    have hskipped : byteLen a + (byteLen remaining - byteLen trimmed) = byteLen (a ++ sep) := by
      rw [hsplit, byteLen_append, byteLen_append, Nat.add_sub_cancel]
    have htext : a ++ remaining = a ++ sep ++ trimmed := by rw [hsplit, List.append_assoc]
    have hnext : a ++ remaining = (a ++ sep ++ trimmed.takeWhile fun c => !isSeparator c) ++
        trimmed.dropWhile fun c => !isSeparator c := by
      rw [htext, List.append_assoc _ (trimmed.takeWhile _), ← hword]
    have hcursor : byteLen (a ++ sep) + restOfWord trimmed =
        byteLen (a ++ sep ++ trimmed.takeWhile fun c => !isSeparator c) := by
      rw [restOfWord_eq, byteLen_append (a ++ sep)]
    have hslice : slice (byteLen (a ++ sep)) (byteLen (a ++ sep) + restOfWord trimmed)
        (a ++ remaining) = some (trimmed.takeWhile fun c => !isSeparator c) := by
      rw [htext]
      exact slice_restOfWord _ _
    have hfrom : sliceFrom (byteLen (a ++ sep)) (a ++ remaining) = some trimmed := by
      rw [htext]
      exact sliceFrom_append _ _
    have hih := ih (a ++ sep ++ trimmed.takeWhile fun c => !isSeparator c)
      (trimmed.dropWhile fun c => !isSeparator c)
    rw [← hnext, ← hcursor] at hih
    unfold nextWords
    simp only [sliceFrom_append, Option.bind_eq_bind, Option.bind_some, htrimmed, hskipped, hfrom,
      hslice]
    split
    · rfl
    · split
      · rfl
      · split
        · rfl
        · rw [Option.isSome_map]
          exact hih

end Words

section Match

variable {t : CaseTable} {content query queryLower after : List Char} {pos : ℕ}

/-- The text is cut where the lowercased copy says, if there is a boundary. -/
theorem findMatch_of_slice (hfind : find queryLower (t.toLowercase content) = some pos)
    (hafter : sliceFrom (pos + byteLen queryLower) content = some after) :
    ∃ words, findMatchAndNextWords t content queryLower =
      some ⟨some pos, some (pos + byteLen queryLower + restOfWord after), words⟩ := by
  obtain ⟨a, rfl, ha⟩ := sliceFrom_eq_some_iff.mp hafter
  have hrest := sliceFrom_restOfWord a after
  rw [ha] at hrest
  obtain ⟨words, hwords⟩ := Option.isSome_iff_exists.mp
    (nextWords_isSome 5 [] (after.dropWhile fun c => !isSeparator c))
  refine ⟨words, ?_⟩
  unfold findMatchAndNextWords
  simp only [hfind, hafter, hrest, Option.bind_eq_bind, Option.bind_some]
  rw [List.nil_append, byteLen_nil] at hwords
  rw [hwords]
  rfl

theorem findMatch_of_not_slice (hfind : find queryLower (t.toLowercase content) = some pos)
    (hafter : sliceFrom (pos + byteLen queryLower) content = none) :
    findMatchAndNextWords t content queryLower = none := by
  unfold findMatchAndNextWords
  simp only [hfind, hafter, Option.bind_eq_bind, Option.bind_none]

end Match

section Visits

variable {t : CaseTable} {query snippet : List Char} {p : ℕ}

/-- Both ends of an occurrence are boundaries of the text itself. -/
def LandsAt (t : CaseTable) (query snippet : List Char) (p : ℕ) : Prop :=
  (sliceFrom p snippet).isSome ∧ (sliceFrom (p + byteLen (t.toLowercase query)) snippet).isSome

theorem visit_of_lands (h : LandsAt t query snippet p) :
    ∃ completions, visit t query snippet p = some ⟨p, completions⟩ := by
  obtain ⟨hstart, hend⟩ := h
  obtain ⟨tail, htail⟩ := Option.isSome_iff_exists.mp hstart
  obtain ⟨after, hafter⟩ := Option.isSome_iff_exists.mp hend
  obtain ⟨a, rfl, ha⟩ := sliceFrom_eq_some_iff.mp hafter
  obtain ⟨a', heq, rfl⟩ := sliceFrom_eq_some_iff.mp htail
  have hrest := sliceFrom_restOfWord a after
  -- the start comes before the end of the word
  obtain ⟨m, hm, _⟩ := exists_append_of_byteLen_le
    (heq.trans (show a ++ after = (a ++ after.takeWhile fun c => !isSeparator c) ++
      after.dropWhile fun c => !isSeparator c by
        rw [List.append_assoc, List.takeWhile_append_dropWhile]))
    (by rw [byteLen_append, ha]; omega)
  have hword : slice (byteLen a') (byteLen a + restOfWord after) (a ++ after) = some m := by
    have htext : a ++ after = a' ++ (m ++ after.dropWhile fun c => !isSeparator c) := by
      rw [← List.append_assoc, ← hm, List.append_assoc, List.takeWhile_append_dropWhile]
    have hlen : byteLen a + restOfWord after = byteLen a' + byteLen m := by
      rw [restOfWord_eq, ← byteLen_append, hm, byteLen_append]
    rw [hlen, htext]
    exact slice_append _ _ _
  rw [ha] at hrest hword
  unfold visit
  simp only [hafter, hrest, hword, Option.bind_eq_bind, Option.bind_some]
  exact ⟨_, rfl⟩

theorem visit_of_not_lands (h : ¬ LandsAt t query snippet p) : visit t query snippet p = none := by
  unfold visit
  cases hafter : sliceFrom (p + byteLen (t.toLowercase query)) snippet with
  | none => simp only [hafter, Option.bind_eq_bind, Option.bind_none]
  | some after =>
    have hstart : sliceFrom p snippet = none := by
      by_contra hsome
      exact h ⟨Option.isSome_iff_ne_none.mpr hsome, by rw [hafter]; rfl⟩
    obtain ⟨a, rfl, ha⟩ := sliceFrom_eq_some_iff.mp hafter
    have hrest := sliceFrom_restOfWord a after
    have hword (n : ℕ) : slice p n (a ++ after) = none := by
      unfold slice
      split
      · rw [hstart, Option.bind_none]
      · rfl
    rw [ha] at hrest
    simp only [hafter, hrest, hword, Option.bind_eq_bind, Option.bind_some, Option.bind_none]

end Visits

section Loop

variable {t : CaseTable} {query snippet : List Char} {fuel : ℕ}

/-- The loop stands at a boundary of the lowercased copy, with the rest of it to search. -/
theorem occurrenceLoop_succ {a tail : List Char} (hlower : t.toLowercase snippet = a ++ tail) :
    occurrenceLoop t query snippet (fuel + 1) (byteLen a) =
      match find (t.toLowercase query) tail with
      | none => .ok []
      | some pos =>
        match visit t query snippet (byteLen a + pos) with
        | none => .error .panic
        | some v => (occurrenceLoop t query snippet fuel
            (byteLen a + pos + byteLen (t.toLowercase query))).map (v :: ·) := by
  have hslice : sliceFrom (byteLen a) (t.toLowercase snippet) = some tail := by
    rw [hlower]
    exact sliceFrom_append a tail
  cases hfind : find (t.toLowercase query) tail with
  | none => simp only [occurrenceLoop, hslice, hfind]
  | some pos =>
    cases hvisit : visit t query snippet (byteLen a + pos) with
    | none => simp only [occurrenceLoop, hslice, hfind, hvisit]
    | some v => simp only [occurrenceLoop, hslice, hfind, hvisit]

section

variable (hquery : query ≠ []) {a tail : List Char} (hlower : t.toLowercase snippet = a ++ tail)

include hquery hlower

/-- With an occurrence at the front of the search, the rest of the loop begins behind it. -/
theorem exists_behind {pos : ℕ} (hfind : find (t.toLowercase query) tail = some pos) :
    ∃ a' tail', t.toLowercase snippet = a' ++ tail' ∧
      byteLen a' = byteLen a + pos + byteLen (t.toLowercase query) ∧ tail'.length < tail.length ∧
      occurrencesAt (t.toLowercase query) 0 (byteLen a) tail =
        (byteLen a + pos) :: occurrencesAt (t.toLowercase query) 0 (byteLen a') tail' := by
  have hpat : t.toLowercase query ≠ [] := fun h => hquery (t.toLowercase_eq_nil_iff.mp h)
  obtain ⟨x, b, rfl, rfl, hocc⟩ := occurrencesAt_of_find hpat hfind (byteLen a)
  refine ⟨a ++ x ++ t.toLowercase query, b, by rw [hlower]; simp, by simp only [byteLen_append],
    ?_, ?_⟩
  · have hpos := List.length_pos_iff.mpr hpat
    rw [List.length_append, List.length_append]
    omega
  · rw [hocc]
    simp only [byteLen_append]

/-- With enough fuel the loop visits the occurrences and ends, if they land on boundaries. -/
theorem occurrenceLoop_ok (hfuel : tail.length < fuel)
    (hlands : ∀ p ∈ occurrencesAt (t.toLowercase query) 0 (byteLen a) tail,
      LandsAt t query snippet p) :
    ∃ visits, occurrenceLoop t query snippet fuel (byteLen a) = .ok visits ∧
      visits.map Visit.absPos = occurrencesAt (t.toLowercase query) 0 (byteLen a) tail := by
  induction fuel generalizing a tail with
  | zero => exact absurd hfuel (Nat.not_lt_zero _)
  | succ fuel ih =>
    rw [occurrenceLoop_succ hlower]
    cases hfind : find (t.toLowercase query) tail with
    | none => exact ⟨[], rfl, (occurrencesAt_of_find_none hfind _).symm⟩
    | some pos =>
      obtain ⟨a', tail', hlower', ha', hshorter, hocc⟩ := exists_behind hquery hlower hfind
      rw [hocc, List.forall_mem_cons] at hlands
      obtain ⟨completions, hvisit⟩ := visit_of_lands hlands.1
      obtain ⟨visits, hloop, hvisits⟩ := ih hlower' (by omega) hlands.2
      rw [ha'] at hloop
      refine ⟨⟨byteLen a + pos, completions⟩ :: visits, ?_, ?_⟩
      · simp only [hvisit, hloop]
        rfl
      · rw [List.map_cons, hvisits, hocc]

theorem occurrenceLoop_panics (hfuel : tail.length < fuel)
    (hlands : ¬ ∀ p ∈ occurrencesAt (t.toLowercase query) 0 (byteLen a) tail,
      LandsAt t query snippet p) :
    occurrenceLoop t query snippet fuel (byteLen a) = .error .panic := by
  induction fuel generalizing a tail with
  | zero => exact absurd hfuel (Nat.not_lt_zero _)
  | succ fuel ih =>
    rw [occurrenceLoop_succ hlower]
    cases hfind : find (t.toLowercase query) tail with
    | none =>
      rw [occurrencesAt_of_find_none hfind] at hlands
      exact absurd (fun p hp => absurd hp List.not_mem_nil) hlands
    | some pos =>
      obtain ⟨a', tail', hlower', ha', hshorter, hocc⟩ := exists_behind hquery hlower hfind
      rw [hocc, List.forall_mem_cons, not_and_or] at hlands
      by_cases hfirst : LandsAt t query snippet (byteLen a + pos)
      · obtain ⟨completions, hvisit⟩ := visit_of_lands hfirst
        have hloop := ih hlower' (by omega) (hlands.resolve_left (not_not.mpr hfirst))
        rw [ha'] at hloop
        simp only [hvisit, hloop]
        rfl
      · simp only [visit_of_not_lands hfirst]

theorem occurrenceLoop_ne_panic
    (hlands : ∀ p ∈ occurrencesAt (t.toLowercase query) 0 (byteLen a) tail,
      LandsAt t query snippet p) :
    occurrenceLoop t query snippet fuel (byteLen a) ≠ .error .panic := by
  induction fuel generalizing a tail with
  | zero => simp [occurrenceLoop]
  | succ fuel ih =>
    rw [occurrenceLoop_succ hlower]
    cases hfind : find (t.toLowercase query) tail with
    | none => simp
    | some pos =>
      obtain ⟨a', tail', hlower', ha', hshorter, hocc⟩ := exists_behind hquery hlower hfind
      rw [hocc, List.forall_mem_cons] at hlands
      obtain ⟨completions, hvisit⟩ := visit_of_lands hlands.1
      have hloop := ih hlower' hlands.2
      rw [ha'] at hloop
      simp only [hvisit]
      cases hrun : occurrenceLoop t query snippet fuel
          (byteLen a + pos + byteLen (t.toLowercase query)) with
      | error e =>
        rw [hrun] at hloop
        intro h
        exact hloop (congrArg Except.error (Except.error.inj h))
      | ok visits => simp [Except.map]

end

/-- An empty query is found at the start again and again. -/
theorem occurrenceLoop_nil (t : CaseTable) (snippet : List Char) (fuel : ℕ) :
    occurrenceLoop t [] snippet fuel 0 = .error .fuel := by
  induction fuel with
  | zero => rfl
  | succ fuel ih =>
    have hlower : t.toLowercase snippet = [] ++ t.toLowercase snippet := rfl
    have hfind : find (t.toLowercase []) (t.toLowercase snippet) = some 0 := find_nil _
    have hlands : LandsAt t [] snippet (0 + 0) :=
      ⟨by cases snippet <;> rfl, by cases snippet <;> rfl⟩
    obtain ⟨completions, hvisit⟩ := visit_of_lands hlands
    have hagain : occurrenceLoop t [] snippet fuel (0 + 0 + byteLen (t.toLowercase [])) =
        .error .fuel := ih
    have hstep : occurrenceLoop t [] snippet (fuel + 1) 0 = _ := occurrenceLoop_succ hlower
    rw [hstep, hfind, byteLen_nil]
    simp only [hvisit, hagain]
    rfl

end Loop

section Safe

variable {t : CaseTable} {query content : List Char} {snippets : List (List Char)}

/-- A reported match begins with the query and ends at the end of a word. -/
structure MatchAt (t : CaseTable) (query content : List Char) (s e : ℕ) : Prop where
  ordered : s ≤ e
  within : e ≤ byteLen content
  begins : ∃ r, sliceFrom s content = some r ∧ t.toLowercase query <+: t.toLowercase r
  ends : ∃ r, sliceFrom e content = some r ∧ ∀ c ∈ r.head?, isSeparator c = true

/-- No slice is off a boundary, and what is reported as a match is one. -/
structure HighlightsSafely (t : CaseTable) (query : List Char) (snippets : List (List Char)) :
    Prop where
  matched : ∀ content ∈ snippets, ∃ h,
    findMatchAndNextWords t content (t.toLowercase query) = some h ∧
      (h.matchStart = none ∧ h.matchEnd = none ∨
        ∃ s e, h.matchStart = some s ∧ h.matchEnd = some e ∧ MatchAt t query content s e)
  completed : ∀ order fuel, extractCompletions t order fuel query snippets ≠ .error .panic

/-- The occurrences in the lowercased copy are at boundaries of the text, and at the first one the
text has the query. -/
structure Lands (t : CaseTable) (query content : List Char) : Prop where
  boundaries : ∀ p ∈ occurrences (t.toLowercase query) (t.toLowercase content),
    LandsAt t query content p
  first : ∀ p r, find (t.toLowercase query) (t.toLowercase content) = some p →
    sliceFrom p content = some r → t.toLowercase query <+: t.toLowercase r

theorem matchAt_iff {pos : ℕ} {after : List Char}
    (hafter : sliceFrom (pos + byteLen (t.toLowercase query)) content = some after) :
    MatchAt t query content pos (pos + byteLen (t.toLowercase query) + restOfWord after) ↔
      ∃ r, sliceFrom pos content = some r ∧ t.toLowercase query <+: t.toLowercase r := by
  obtain ⟨a, rfl, ha⟩ := sliceFrom_eq_some_iff.mp hafter
  have hend := sliceFrom_restOfWord a after
  rw [ha] at hend
  constructor
  · exact fun h => h.begins
  · intro hbegins
    refine ⟨by omega, ?_, hbegins, _, hend, ?_⟩
    · obtain ⟨b, hb, hlen⟩ := sliceFrom_eq_some_iff.mp hend
      rw [← hb, byteLen_append]
      omega
    · intro c hc
      have hnot := List.head?_dropWhile_not (fun c => !isSeparator c) after
      rw [hc] at hnot
      simpa using hnot

/-- Nothing is lost of an empty query: it is at the start of every text. -/
theorem matched_nil (t : CaseTable) (content : List Char) : ∃ h,
    findMatchAndNextWords t content (t.toLowercase []) = some h ∧
      ∃ s e, h.matchStart = some s ∧ h.matchEnd = some e ∧ MatchAt t [] content s e := by
  have hfind : find (t.toLowercase []) (t.toLowercase content) = some 0 := find_nil _
  have hafter : sliceFrom (0 + byteLen (t.toLowercase [])) content = some content := by
    cases content <;> rfl
  obtain ⟨words, hwords⟩ := findMatch_of_slice hfind hafter
  refine ⟨_, hwords, _, _, rfl, rfl, (matchAt_iff hafter).mpr ⟨content, ?_, List.nil_prefix⟩⟩
  cases content <;> rfl

theorem occurrenceLoop_of_lands (hquery : query ≠ [])
    (hlands : ∀ p ∈ occurrences (t.toLowercase query) (t.toLowercase content),
      LandsAt t query content p) {fuel : ℕ} (hfuel : (t.toLowercase content).length < fuel) :
    ∃ visits, occurrenceLoop t query content fuel 0 = .ok visits ∧
      visits.map Visit.absPos = occurrences (t.toLowercase query) (t.toLowercase content) :=
  occurrenceLoop_ok hquery (List.nil_append _).symm hfuel hlands

theorem occurrenceLoop_of_not_lands (hquery : query ≠ [])
    (hlands : ¬ ∀ p ∈ occurrences (t.toLowercase query) (t.toLowercase content),
      LandsAt t query content p) {fuel : ℕ} (hfuel : (t.toLowercase content).length < fuel) :
    occurrenceLoop t query content fuel 0 = .error .panic :=
  occurrenceLoop_panics hquery (List.nil_append _).symm hfuel hlands

/-- Fuel that is enough for the loops over all snippets. -/
def enoughFuel (t : CaseTable) (snippets : List (List Char)) : ℕ :=
  (snippets.map fun snippet => (t.toLowercase snippet).length).sum + 1

theorem length_lt_enoughFuel (h : content ∈ snippets) :
    (t.toLowercase content).length < enoughFuel t snippets :=
  Nat.lt_succ_of_le (List.le_sum_of_mem (List.mem_map_of_mem h))

theorem extractCompletions_error {order : HashOrder (ℕ × List Char)} {fuel : ℕ} {e : Stop} :
    extractCompletions t order fuel query snippets = .error e ↔
      (snippets.mapM fun snippet => occurrenceLoop t query snippet fuel 0) = .error e := by
  unfold extractCompletions
  rw [exceptBind_eq_error]
  constructor
  · rintro (h | ⟨_, _, h⟩)
    · exact h
    · cases h
  · exact .inl

/-- A snippet that does not land makes the whole extraction panic. -/
theorem extractCompletions_panics (hquery : query ≠ []) (hmem : content ∈ snippets)
    (hlands : ¬ ∀ p ∈ occurrences (t.toLowercase query) (t.toLowercase content),
      LandsAt t query content p) (order : HashOrder (ℕ × List Char)) {fuel : ℕ}
    (hfuel : enoughFuel t snippets ≤ fuel) :
    extractCompletions t order fuel query snippets = .error .panic := by
  rw [extractCompletions_error]
  have hlength {snippet : List Char} (h : snippet ∈ snippets) :
      (t.toLowercase snippet).length < fuel := (length_lt_enoughFuel h).trans_le hfuel
  cases hrun : snippets.mapM fun snippet => occurrenceLoop t query snippet fuel 0 with
  | ok visits =>
    obtain ⟨ys, hys⟩ := exists_ok_of_mapM hrun content hmem
    rw [occurrenceLoop_of_not_lands hquery hlands (hlength hmem)] at hys
    cases hys
  | error e =>
    obtain ⟨snippet, hsnippet, herror⟩ := exists_error_of_mapM hrun
    by_cases hl : ∀ p ∈ occurrences (t.toLowercase query) (t.toLowercase snippet),
        LandsAt t query snippet p
    · obtain ⟨visits, hok, _⟩ := occurrenceLoop_of_lands hquery hl (hlength hsnippet)
      rw [hok] at herror
      cases herror
    · rw [occurrenceLoop_of_not_lands hquery hl (hlength hsnippet)] at herror
      rw [Except.error.inj herror]

theorem HighlightsSafely.lands (h : HighlightsSafely t query snippets) (hquery : query ≠ [])
    (hmem : content ∈ snippets) : Lands t query content where
  boundaries := by
    by_contra hlands
    exact h.completed ⟨id, List.Perm.refl⟩ _
      (extractCompletions_panics hquery hmem hlands _ le_rfl)
  first := by
    intro p r hfind hr
    obtain ⟨found, hfound, hreport⟩ := h.matched content hmem
    cases hafter : sliceFrom (p + byteLen (t.toLowercase query)) content with
    | none =>
      rw [findMatch_of_not_slice hfind hafter] at hfound
      cases hfound
    | some after =>
      obtain ⟨words, hwords⟩ := findMatch_of_slice hfind hafter
      rw [hwords] at hfound
      obtain rfl := Option.some.inj hfound
      rcases hreport with ⟨hnone, _⟩ | ⟨s, e, hs, he, hat⟩
      · cases hnone
      · obtain rfl := Option.some.inj hs
        obtain ⟨r', hr', hprefix⟩ := hat.begins
        rw [hr] at hr'
        rwa [Option.some.inj hr']

theorem highlightsSafely_of_lands (hquery : query ≠ [])
    (h : ∀ content ∈ snippets, Lands t query content) : HighlightsSafely t query snippets where
  matched := by
    intro content hmem
    cases hfind : find (t.toLowercase query) (t.toLowercase content) with
    | none =>
      refine ⟨⟨none, none, []⟩, ?_, .inl ⟨rfl, rfl⟩⟩
      simp only [findMatchAndNextWords, hfind]
    | some p =>
      have hpat : t.toLowercase query ≠ [] := fun hnil => hquery (t.toLowercase_eq_nil_iff.mp hnil)
      obtain ⟨hstart, hend⟩ :=
        (h content hmem).boundaries p (mem_occurrences_of_find hpat hfind)
      obtain ⟨r, hr⟩ := Option.isSome_iff_exists.mp hstart
      obtain ⟨after, hafter⟩ := Option.isSome_iff_exists.mp hend
      obtain ⟨words, hwords⟩ := findMatch_of_slice hfind hafter
      refine ⟨_, hwords, .inr ⟨_, _, rfl, rfl, (matchAt_iff hafter).mpr ⟨r, hr, ?_⟩⟩⟩
      exact (h content hmem).first p r hfind hr
  completed := by
    intro order fuel hpanic
    obtain ⟨content, hmem, hloop⟩ := exists_error_of_mapM (extractCompletions_error.mp hpanic)
    exact occurrenceLoop_ne_panic hquery (List.nil_append _).symm (h content hmem).boundaries hloop

theorem highlightsSafely_nil (t : CaseTable) (snippets : List (List Char)) :
    HighlightsSafely t [] snippets where
  matched := by
    intro content _
    obtain ⟨h, hfound, hat⟩ := matched_nil t content
    exact ⟨h, hfound, .inr hat⟩
  completed := by
    intro order fuel hpanic
    obtain ⟨content, _, hloop⟩ := exists_error_of_mapM (extractCompletions_error.mp hpanic)
    rw [occurrenceLoop_nil] at hloop
    cases hloop

end Safe

section Lengths

variable {t : CaseTable}

/-- The lowercase of a character is one character, as long in bytes, wherever it stands. -/
def KeepsLength (t : CaseTable) (c : Char) : Prop :=
  c ≠ 'Σ' ∧ ∃ c', t.lower c = [c'] ∧ c'.utf8Size = c.utf8Size

theorem toLowercaseAfter_keeps {s : List Char} (h : ∀ c ∈ s, KeepsLength t c)
    (before : List Char) : t.toLowercaseAfter before s = s.flatMap t.lower := by
  induction s generalizing before with
  | nil => rfl
  | cons c s ih =>
    rw [List.forall_mem_cons] at h
    rw [CaseTable.toLowercaseAfter, CaseTable.lowerChar, if_neg h.1.1, ih h.2, List.flatMap_cons]

/-- Then the copy has the boundaries of the text, with the lowercase of the rest behind them. -/
theorem exists_of_lower_eq_append {s a b : List Char} (h : ∀ c ∈ s, KeepsLength t c)
    (hab : s.flatMap t.lower = a ++ b) :
    ∃ x y, s = x ++ y ∧ byteLen x = byteLen a ∧ y.flatMap t.lower = b := by
  induction s generalizing a with
  | nil =>
    obtain ⟨rfl, rfl⟩ := List.append_eq_nil_iff.mp hab.symm
    exact ⟨[], [], rfl, rfl, rfl⟩
  | cons c s ih =>
    cases a with
    | nil => exact ⟨[], c :: s, rfl, rfl, hab⟩
    | cons c₀ a =>
      rw [List.forall_mem_cons] at h
      obtain ⟨c', hc', hlen⟩ := h.1.2
      rw [List.flatMap_cons, hc', List.singleton_append, List.cons_append] at hab
      obtain ⟨rfl, htail⟩ := List.cons.inj hab
      obtain ⟨x, y, rfl, hx, hy⟩ := ih h.2 htail
      exact ⟨c :: x, y, rfl, by rw [byteLen_cons, byteLen_cons, hx, hlen], hy⟩

theorem lands_of_keepsLength {query content : List Char} (hquery : query ≠ [])
    (h : ∀ c ∈ content, KeepsLength t c) : Lands t query content := by
  have hlower : t.toLowercase content = content.flatMap t.lower := toLowercaseAfter_keeps h []
  have hslice {a b : List Char} (hab : t.toLowercase content = a ++ b) :
      ∃ y, sliceFrom (byteLen a) content = some y ∧ t.toLowercase y = b := by
    obtain ⟨x, y, hxy, hx, hy⟩ := exists_of_lower_eq_append h (hlower.symm.trans hab)
    refine ⟨y, sliceFrom_eq_some_iff.mpr ⟨x, hxy.symm, hx⟩, ?_⟩
    rw [← hy]
    exact toLowercaseAfter_keeps (fun c hc => h c (by rw [hxy]; exact List.mem_append_right _ hc)) []
  have hpat : t.toLowercase query ≠ [] := fun hnil => hquery (t.toLowercase_eq_nil_iff.mp hnil)
  constructor
  · intro p hp
    obtain ⟨a, b, hab, rfl⟩ := (occurrences_visitsOnce hpat _).occur p hp
    obtain ⟨y, hy, _⟩ := hslice hab
    obtain ⟨z, hz, _⟩ := hslice (hab.trans (List.append_assoc _ _ _).symm)
    rw [byteLen_append] at hz
    exact ⟨by rw [hy]; rfl, by rw [hz]; rfl⟩
  · intro p r hfind hr
    obtain ⟨⟨a, b, hab, rfl⟩, _⟩ := find_eq_some hfind
    obtain ⟨y, hy, hlowered⟩ := hslice hab
    obtain rfl := Option.some.inj (hy.symm.trans hr)
    rw [hlowered]
    exact List.prefix_append _ _

end Lengths

/-- The offsets of the lowercased copy are good for the text itself exactly where they land on its
boundaries and on the query, as they do where every character keeps its length. -/
theorem highlightsSafely_iff (t : CaseTable) (query : List Char) (snippets : List (List Char)) :
    (HighlightsSafely t query snippets ↔
      query = [] ∨ ∀ content ∈ snippets, Lands t query content) ∧
    ∀ content, query ≠ [] → (∀ c ∈ content, KeepsLength t c) → Lands t query content := by
  refine ⟨⟨fun h => ?_, fun h => ?_⟩, fun content hquery h => lands_of_keepsLength hquery h⟩
  · by_cases hquery : query = []
    · exact .inl hquery
    · exact .inr fun content hmem => h.lands hquery hmem
  · by_cases hquery : query = []
    · rw [hquery]
      exact highlightsSafely_nil t snippets
    · exact highlightsSafely_of_lands hquery (h.resolve_left hquery)

section Samples

/-- The lowercase of a dotted capital I is two characters. -/
def dottedTable : CaseTable where
  lower c := if c = 'İ' then ['i', Char.ofNat 0x307] else [c.toLower]
  lower_ne_nil := by
    intro c
    split <;> simp
  cased := Char.isAlpha
  caseIgnorable c := c == Char.ofNat 0x307

/-- The copy is a byte longer than the text, so its last word ends beyond the text. -/
theorem istanbul_panics :
    findMatchAndNextWords dottedTable "İstanbul".toList
        (dottedTable.toLowercase "stanbul".toList) = none ∧
      ¬ HighlightsSafely dottedTable "stanbul".toList ["İstanbul".toList] := by
  have hnone : findMatchAndNextWords dottedTable "İstanbul".toList
      (dottedTable.toLowercase "stanbul".toList) = none := by decide
  refine ⟨hnone, fun h => ?_⟩
  obtain ⟨found, hfound, _⟩ := h.matched "İstanbul".toList (List.mem_singleton_self _)
  rw [hnone] at hfound
  cases hfound

end Samples

end Vectorlink
