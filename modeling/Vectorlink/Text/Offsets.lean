import Mathlib.Algebra.BigOperators.Group.List.Basic
import Mathlib.Algebra.GroupWithZero.Nat
import Mathlib.Data.List.Infix

/-! Texts by their bytes: slices at offsets, searches, and the lower case of Unicode. -/
namespace Text

section Model

def byteLen (s : List Char) : ℕ := (s.map Char.utf8Size).sum

/-- `s[n..]`, where the offset is on the boundary of a character. -/
def sliceFrom : ℕ → List Char → Option (List Char)
  | 0, s => some s
  | _ + 1, [] => none
  | n + 1, c :: s => if c.utf8Size ≤ n + 1 then sliceFrom (n + 1 - c.utf8Size) s else none

/-- `s[..n]`. -/
def sliceTo : ℕ → List Char → Option (List Char)
  | 0, _ => some []
  | _ + 1, [] => none
  | n + 1, c :: s =>
    if c.utf8Size ≤ n + 1 then (sliceTo (n + 1 - c.utf8Size) s).map (c :: ·) else none

/-- `s[a..b]`. -/
def slice (a b : ℕ) (s : List Char) : Option (List Char) :=
  if a ≤ b then (sliceFrom a s).bind (sliceTo (b - a)) else none

/-- `str::find` of a text. -/
def find (pat : List Char) : List Char → Option ℕ
  | [] => if pat = [] then some 0 else none
  | c :: s => if pat <+: c :: s then some 0 else (find pat s).map (c.utf8Size + ·)

/-- The occurrences of a text from the left, each beyond the end of the one before. -/
def occurrencesAt (pat : List Char) : (skip : ℕ) → (offset : ℕ) → List Char → List ℕ
  | _, _, [] => []
  | skip + 1, offset, c :: s => occurrencesAt pat skip (offset + c.utf8Size) s
  | 0, offset, c :: s =>
    if pat <+: c :: s then
      offset :: occurrencesAt pat (pat.length - 1) (offset + c.utf8Size) s
    else occurrencesAt pat 0 (offset + c.utf8Size) s

def occurrences (pat s : List Char) : List ℕ := occurrencesAt pat 0 0 s

/-- `str::find` of a character. -/
def findChar (p : Char → Bool) : List Char → Option ℕ
  | [] => none
  | c :: s => if p c then some 0 else (findChar p s).map (c.utf8Size + ·)

/-- `str::split` at the characters that satisfy `p`. -/
def splitChars (p : Char → Bool) : List Char → List (List Char)
  | [] => [[]]
  | c :: s => if p c then [] :: splitChars p s else (splitChars p s).modifyHead (c :: ·)

def trimMatches (p : Char → Bool) (s : List Char) : List Char :=
  ((s.dropWhile p).reverse.dropWhile p).reverse

/-- The tables of Unicode that lower case depends on. -/
structure CaseTable where
  lower : Char → List Char
  lower_ne_nil : ∀ c, lower c ≠ []
  cased : Char → Bool
  caseIgnorable : Char → Bool

namespace CaseTable

variable (t : CaseTable)

def caseIgnorableThenCased (s : List Char) : Bool :=
  match s.dropWhile t.caseIgnorable with
  | c :: _ => t.cased c
  | [] => false

/-- A sigma is written another way at the end of a word. -/
def mapUppercaseSigma (before after : List Char) : Char :=
  if t.caseIgnorableThenCased before && !t.caseIgnorableThenCased after then 'ς' else 'σ'

def lowerChar (before : List Char) (c : Char) (after : List Char) : List Char :=
  if c = 'Σ' then [t.mapUppercaseSigma before after] else t.lower c

/-- The characters before come last first. -/
def toLowercaseAfter : (before : List Char) → List Char → List Char
  | _, [] => []
  | before, c :: s => t.lowerChar before c s ++ toLowercaseAfter (c :: before) s

def toLowercase (s : List Char) : List Char := t.toLowercaseAfter [] s

theorem lowerChar_ne_nil (before after : List Char) (c : Char) : t.lowerChar before c after ≠ [] := by
  unfold lowerChar
  split
  · exact List.cons_ne_nil _ _
  · exact t.lower_ne_nil c

theorem toLowercase_eq_nil_iff {s : List Char} : t.toLowercase s = [] ↔ s = [] := by
  cases s with
  | nil => exact iff_of_true rfl rfl
  | cons c s =>
    refine iff_of_false (fun h => ?_) (List.cons_ne_nil _ _)
    exact t.lowerChar_ne_nil [] s c (List.append_eq_nil_iff.mp h).1

end CaseTable

end Model

section Lengths

variable {a b s r pat : List Char} {n : ℕ} {c : Char}

@[simp] theorem byteLen_nil : byteLen [] = 0 := rfl

@[simp] theorem byteLen_cons (c : Char) (s : List Char) :
    byteLen (c :: s) = c.utf8Size + byteLen s := by
  rw [byteLen, List.map_cons, List.sum_cons, byteLen]

@[simp] theorem byteLen_append (a b : List Char) : byteLen (a ++ b) = byteLen a + byteLen b := by
  rw [byteLen, List.map_append, List.sum_append, byteLen, byteLen]

theorem byteLen_eq_zero_iff : byteLen s = 0 ↔ s = [] := by
  cases s with
  | nil => exact iff_of_true rfl rfl
  | cons c s =>
    have hpos := c.utf8Size_pos
    refine iff_of_false ?_ (List.cons_ne_nil _ _)
    rw [byteLen_cons]
    omega

/-- An offset is on a boundary if some first part of the text is as long. -/
theorem sliceFrom_eq_some_iff : sliceFrom n s = some r ↔ ∃ a, a ++ r = s ∧ byteLen a = n := by
  induction s generalizing n with
  | nil =>
    cases n with
    | zero => simp [sliceFrom, eq_comm]
    | succ n =>
      refine iff_of_false (fun h => by cases h) ?_
      rintro ⟨a, ha, hlen⟩
      rw [(List.append_eq_nil_iff.mp ha).1] at hlen
      cases hlen
  | cons c s ih =>
    cases n with
    | zero =>
      constructor
      · intro h
        cases h
        exact ⟨[], rfl, rfl⟩
      · rintro ⟨a, ha, hlen⟩
        rw [byteLen_eq_zero_iff.mp hlen, List.nil_append] at ha
        rw [sliceFrom, ha]
    | succ n =>
      have hpos := c.utf8Size_pos
      unfold sliceFrom
      constructor
      · intro h
        split at h
        · obtain ⟨a, ha, hlen⟩ := ih.mp h
          refine ⟨c :: a, by rw [List.cons_append, ha], ?_⟩
          rw [byteLen_cons]
          omega
        · cases h
      · rintro ⟨a, ha, hlen⟩
        cases a with
        | nil => cases hlen
        | cons c' a =>
          obtain ⟨rfl, rfl⟩ := List.cons.inj ha
          rw [byteLen_cons] at hlen
          rw [if_pos (by omega)]
          exact ih.mpr ⟨a, rfl, by omega⟩

theorem sliceFrom_append (a b : List Char) : sliceFrom (byteLen a) (a ++ b) = some b :=
  sliceFrom_eq_some_iff.mpr ⟨a, rfl, rfl⟩

theorem sliceTo_append (a b : List Char) : sliceTo (byteLen a) (a ++ b) = some a := by
  induction a with
  | nil => cases b <;> rfl
  | cons c a ih =>
    have hpos := c.utf8Size_pos
    obtain ⟨n, hn⟩ : ∃ n, byteLen (c :: a) = n + 1 :=
      ⟨byteLen (c :: a) - 1, by rw [byteLen_cons]; omega⟩
    rw [hn, List.cons_append, sliceTo, ← hn, byteLen_cons, if_pos (Nat.le_add_right _ _),
      Nat.add_sub_cancel_left, ih]
    rfl

theorem slice_append (a b r : List Char) :
    slice (byteLen a) (byteLen a + byteLen b) (a ++ (b ++ r)) = some b := by
  rw [slice, if_pos (Nat.le_add_right _ _), sliceFrom_append, Option.bind_some,
    Nat.add_sub_cancel_left, sliceTo_append]

end Lengths

section Search

variable {a b s r pat : List Char} {n : ℕ} {p : Char → Bool}

/-- The pattern stands at an offset of the text. -/
def OccursAt (pat s : List Char) (n : ℕ) : Prop := ∃ a b, s = a ++ (pat ++ b) ∧ byteLen a = n

theorem occursAt_zero_iff : OccursAt pat s 0 ↔ pat <+: s := by
  constructor
  · rintro ⟨a, b, rfl, ha⟩
    rw [byteLen_eq_zero_iff.mp ha]
    exact ⟨b, rfl⟩
  · rintro ⟨b, rfl⟩
    exact ⟨[], b, rfl, rfl⟩

theorem occursAt_cons_iff {c : Char} : OccursAt pat (c :: s) n ↔
    (n = 0 ∧ pat <+: c :: s) ∨ ∃ m, n = c.utf8Size + m ∧ OccursAt pat s m := by
  constructor
  · rintro ⟨a, b, hs, rfl⟩
    cases a with
    | nil => exact .inl ⟨rfl, b, hs.symm⟩
    | cons c' a =>
      obtain ⟨rfl, rfl⟩ := List.cons.inj hs
      exact .inr ⟨byteLen a, byteLen_cons c a, a, b, rfl, rfl⟩
  · rintro (⟨rfl, h⟩ | ⟨m, rfl, a, b, rfl, rfl⟩)
    · exact occursAt_zero_iff.mpr h
    · exact ⟨c :: a, b, rfl, byteLen_cons c a⟩

/-- Where a text is found it stands, and nowhere before. -/
theorem find_spec (pat s : List Char) :
    match find pat s with
    | some n => OccursAt pat s n ∧ ∀ m, OccursAt pat s m → n ≤ m
    | none => ∀ m, ¬ OccursAt pat s m := by
  induction s with
  | nil =>
    unfold find
    by_cases hpat : pat = []
    · rw [if_pos hpat]
      exact ⟨⟨[], [], by rw [hpat]; rfl, rfl⟩, fun m _ => Nat.zero_le m⟩
    · rw [if_neg hpat]
      rintro m ⟨a, b, hs, _⟩
      exact hpat (List.append_eq_nil_iff.mp (List.append_eq_nil_iff.mp hs.symm).2).1
  | cons c s ih =>
    unfold find
    by_cases hpat : pat <+: c :: s
    · rw [if_pos hpat]
      exact ⟨occursAt_zero_iff.mpr hpat, fun m _ => Nat.zero_le m⟩
    · rw [if_neg hpat]
      cases hfind : find pat s with
      | none =>
        rw [hfind] at ih
        intro m hm
        rcases occursAt_cons_iff.mp hm with ⟨_, h⟩ | ⟨m', _, h⟩
        · exact hpat h
        · exact ih m' h
      | some n =>
        rw [hfind] at ih
        refine ⟨occursAt_cons_iff.mpr (.inr ⟨n, rfl, ih.1⟩), fun m hm => ?_⟩
        rcases occursAt_cons_iff.mp hm with ⟨_, h⟩ | ⟨m', rfl, h⟩
        · exact absurd h hpat
        · exact Nat.add_le_add_left (ih.2 m' h) _

theorem find_eq_some (h : find pat s = some n) :
    OccursAt pat s n ∧ ∀ m, OccursAt pat s m → n ≤ m := by
  have hspec := find_spec pat s
  rwa [h] at hspec

theorem find_eq_none (h : find pat s = none) : ∀ m, ¬ OccursAt pat s m := by
  have hspec := find_spec pat s
  rwa [h] at hspec

theorem find_nil (s : List Char) : find [] s = some 0 := by
  cases s with
  | nil => rfl
  | cons c s => exact if_pos List.nil_prefix

theorem occurrencesAt_skip (pat x b : List Char) (n : ℕ) :
    occurrencesAt pat x.length n (x ++ b) = occurrencesAt pat 0 (n + byteLen x) b := by
  induction x generalizing n with
  | nil => rfl
  | cons c x ih =>
    rw [List.length_cons, List.cons_append, occurrencesAt, ih, byteLen_cons, Nat.add_assoc]

theorem occurrencesAt_of_find_none (h : find pat s = none) (n : ℕ) :
    occurrencesAt pat 0 n s = [] := by
  induction s generalizing n with
  | nil => rfl
  | cons c s ih =>
    unfold find at h
    split at h
    · cases h
    · next hpat =>
      rw [occurrencesAt, if_neg hpat]
      exact ih (Option.map_eq_none_iff.mp h) _

/-- The first occurrence is the one that is found, and the search goes on behind it. -/
theorem occurrencesAt_of_find (hpat : pat ≠ []) {m : ℕ} (h : find pat s = some m) (n : ℕ) :
    ∃ a b, s = a ++ (pat ++ b) ∧ byteLen a = m ∧
      occurrencesAt pat 0 n s = (n + m) :: occurrencesAt pat 0 (n + m + byteLen pat) b := by
  induction s generalizing m n with
  | nil =>
    rw [find, if_neg hpat] at h
    cases h
  | cons c s ih =>
    unfold find at h
    split at h
    · next hprefix =>
      obtain rfl := Option.some.inj h
      obtain ⟨b, hb⟩ := hprefix
      refine ⟨[], b, hb.symm, rfl, ?_⟩
      rw [occurrencesAt, if_pos ⟨b, hb⟩]
      cases pat with
      | nil => exact absurd rfl hpat
      | cons c' pat =>
        rw [List.cons_append] at hb
        obtain ⟨rfl, rfl⟩ := List.cons.inj hb
        have hlength : (c' :: pat).length - 1 = pat.length := rfl
        rw [hlength, occurrencesAt_skip, byteLen_cons, Nat.add_zero, Nat.add_assoc]
    · next hprefix =>
      obtain ⟨m', hm', rfl⟩ := Option.map_eq_some_iff.mp h
      obtain ⟨a, b, rfl, rfl, hocc⟩ := ih hm' (n + c.utf8Size)
      refine ⟨c :: a, b, rfl, byteLen_cons c a, ?_⟩
      rw [occurrencesAt, if_neg hprefix, hocc, Nat.add_assoc]

/-- The longer of two first parts of one text goes on from the shorter. -/
theorem exists_append_of_byteLen_le {a' b' : List Char} (h : a ++ b = a' ++ b')
    (hlen : byteLen a ≤ byteLen a') : ∃ m, a' = a ++ m ∧ b = m ++ b' := by
  rcases List.append_eq_append_iff.mp h with ⟨m, rfl, rfl⟩ | ⟨m, rfl, rfl⟩
  · exact ⟨m, rfl, rfl⟩
  · have hm : m = [] := by
      rw [byteLen_append] at hlen
      exact byteLen_eq_zero_iff.mp (by omega)
    rw [hm]
    exact ⟨[], by simp, rfl⟩

/-- What stands beyond an occurrence stands in the rest of the text. -/
theorem OccursAt.beyond {m : ℕ} (h : OccursAt pat (a ++ b) m) (hm : byteLen a ≤ m) :
    OccursAt pat b (m - byteLen a) := by
  obtain ⟨a', b', hs, rfl⟩ := h
  obtain ⟨x, rfl, rfl⟩ := exists_append_of_byteLen_le hs hm
  exact ⟨x, b', rfl, by rw [byteLen_append, Nat.add_sub_cancel_left]⟩

/-- The occurrences that a search from the left comes upon: none overlaps another, and every
occurrence is one of them or overlapped by one. -/
structure VisitsOnce (pat s : List Char) (offsets : List ℕ) : Prop where
  occur : ∀ p ∈ offsets, OccursAt pat s p
  apart : offsets.Pairwise fun p p' => p + byteLen pat ≤ p'
  complete : ∀ p, OccursAt pat s p → ∃ p' ∈ offsets, p' ≤ p ∧ p < p' + byteLen pat

theorem occurrencesAt_visitsOnce (hpat : pat ≠ []) (a s : List Char) :
    (∀ p ∈ occurrencesAt pat 0 (byteLen a) s, byteLen a ≤ p ∧ OccursAt pat (a ++ s) p) ∧
      (occurrencesAt pat 0 (byteLen a) s).Pairwise (fun p p' => p + byteLen pat ≤ p') ∧
      ∀ p, byteLen a ≤ p → OccursAt pat (a ++ s) p →
        ∃ p' ∈ occurrencesAt pat 0 (byteLen a) s, p' ≤ p ∧ p < p' + byteLen pat := by
  -- by induction on the text that is left, which gets shorter by the pattern each time
  induction hn : s.length using Nat.strong_induction_on generalizing a s with
  | _ n ih =>
    cases hfind : find pat s with
    | none =>
      rw [occurrencesAt_of_find_none hfind]
      refine ⟨by simp, List.Pairwise.nil, fun p hp h => ?_⟩
      exact absurd (h.beyond hp) (find_eq_none hfind _)
    | some m =>
      obtain ⟨x, b, rfl, rfl, hocc⟩ := occurrencesAt_of_find hpat hfind (byteLen a)
      have hshorter : b.length < n := by
        have hpos := List.length_pos_iff.mpr hpat
        rw [← hn, List.length_append, List.length_append]
        omega
      have hoffset : byteLen (a ++ x ++ pat) = byteLen a + byteLen x + byteLen pat := by
        simp only [byteLen_append]
      have htext : a ++ (x ++ (pat ++ b)) = a ++ x ++ pat ++ b := by simp
      obtain ⟨hoccur, hapart, hcomplete⟩ := ih b.length hshorter (a ++ x ++ pat) b rfl
      rw [hoffset] at hoccur hapart hcomplete
      rw [hocc, htext]
      refine ⟨?_, ?_, fun p hp h => ?_⟩
      · rw [List.forall_mem_cons]
        refine ⟨⟨Nat.le_add_right _ _, a ++ x, b, by simp, byteLen_append a x⟩, fun p hp => ?_⟩
        have hle := (hoccur p hp).1
        exact ⟨by omega, (hoccur p hp).2⟩
      · rw [List.pairwise_cons]
        exact ⟨fun p hp => (hoccur p hp).1, hapart⟩
      · have hfirst : byteLen x ≤ p - byteLen a := by
          rw [← htext] at h
          exact (find_eq_some hfind).2 _ (h.beyond hp)
        by_cases hover : p < byteLen a + byteLen x + byteLen pat
        · exact ⟨_, List.mem_cons_self, by omega, hover⟩
        · obtain ⟨p', hp', hle⟩ := hcomplete p (by omega) h
          exact ⟨p', List.mem_cons_of_mem _ hp', hle⟩

theorem occurrences_visitsOnce (hpat : pat ≠ []) (s : List Char) :
    VisitsOnce pat s (occurrences pat s) := by
  obtain ⟨hoccur, hapart, hcomplete⟩ := occurrencesAt_visitsOnce hpat [] s
  exact ⟨fun p hp => (hoccur p hp).2, hapart, fun p hp => hcomplete p (Nat.zero_le p) hp⟩

theorem mem_occurrences_of_find (hpat : pat ≠ []) (h : find pat s = some n) :
    n ∈ occurrences pat s := by
  obtain ⟨a, b, _, _, hocc⟩ := occurrencesAt_of_find hpat h 0
  rw [occurrences, hocc, Nat.zero_add]
  exact List.mem_cons_self

/-- The characters before the one that is found. -/
theorem findChar_getD (p : Char → Bool) (s : List Char) :
    (findChar p s).getD (byteLen s) = byteLen (s.takeWhile fun c => !p c) := by
  induction s with
  | nil => rfl
  | cons c s ih =>
    unfold findChar
    by_cases hc : p c = true
    · simp [hc]
    · rw [if_neg hc, List.takeWhile_cons_of_pos (by simpa using hc), byteLen_cons, byteLen_cons, ← ih]
      cases findChar p s <;> rfl

end Search

end Text
