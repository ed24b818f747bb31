import Mathlib.Data.List.Basic

/-! A file that several writers overwrite with one text, each from its own position. A writer
truncates the file when it opens it, while the others go on where they are. -/
namespace Files

variable {α : Type} {pad : α} {text file block : List α} {k n j : ℕ} {b : α}

/-- The file after a write at a position. A gap before the position is filled. -/
def overwrite (pad : α) (file : List α) (k : ℕ) (block : List α) : List α :=
  file.take k ++ (List.replicate (k - file.length) pad ++ (block ++ file.drop (k + block.length)))

section Overwrite

theorem length_before (pad : α) (file : List α) (k : ℕ) :
    (file.take k ++ List.replicate (k - file.length) pad).length = k := by
  rw [List.length_append, List.length_take, List.length_replicate]
  omega

theorem overwrite_eq (pad : α) (file : List α) (k : ℕ) (block : List α) :
    overwrite pad file k block = file.take k ++ List.replicate (k - file.length) pad ++
      (block ++ file.drop (k + block.length)) := by
  rw [overwrite, List.append_assoc]

theorem length_overwrite (pad : α) (file : List α) (k : ℕ) (block : List α) :
    (overwrite pad file k block).length = max file.length (k + block.length) := by
  rw [overwrite_eq, List.length_append, length_before, List.length_append, List.length_drop]
  omega

theorem getElem?_overwrite_before (hj : j < k) :
    (overwrite pad file k block)[j]? = if j < file.length then file[j]? else some pad := by
  have hlength := length_before pad file k
  rw [overwrite_eq, List.getElem?_append_left (by omega)]
  split
  · rename_i hfile
    have htake : j < (file.take k).length := by
      rw [List.length_take]
      omega
    rw [List.getElem?_append_left htake, List.getElem?_take_of_lt hj]
  · rename_i hfile
    have htake : (file.take k).length ≤ j := by
      rw [List.length_take]
      omega
    have hpad : j - (file.take k).length < k - file.length := by
      rw [List.length_take] at htake ⊢
      omega
    rw [List.getElem?_append_right htake, List.getElem?_replicate_of_lt hpad]

theorem getElem?_overwrite_block (hk : k ≤ j) (hj : j < k + block.length) :
    (overwrite pad file k block)[j]? = block[j - k]? := by
  have hlength := length_before pad file k
  rw [overwrite_eq, List.getElem?_append_right (by omega), hlength,
    List.getElem?_append_left (by omega)]

theorem getElem?_overwrite_after (hj : k + block.length ≤ j) :
    (overwrite pad file k block)[j]? = file[j]? := by
  have hlength := length_before pad file k
  rw [overwrite_eq, List.getElem?_append_right (by omega), hlength,
    List.getElem?_append_right (by omega), List.getElem?_drop]
  congr 1
  omega

end Overwrite

/-- A file on the way to a text: it is not longer, and where it is not the text it is filling. -/
structure PartOf (pad : α) (text file : List α) : Prop where
  length : file.length ≤ text.length
  get : ∀ (j : ℕ) (b : α), file[j]? = some b → b = pad ∨ text[j]? = some b

/-- The next symbols of the text from a position. -/
def blockAt (text : List α) (k n : ℕ) : List α := (text.drop k).take n

theorem length_blockAt (text : List α) (k n : ℕ) :
    (blockAt text k n).length = min n (text.length - k) := by
  rw [blockAt, List.length_take, List.length_drop]

theorem getElem?_blockAt (hk : k ≤ j) (hj : j < k + n) : (blockAt text k n)[j - k]? = text[j]? := by
  rw [blockAt, List.getElem?_take_of_lt (by omega), List.getElem?_drop]
  congr 1
  omega

theorem partOf_nil : PartOf pad text [] where
  length := Nat.zero_le _
  get _ _ h := by cases h

/-- Any writer of the text leaves a part of it. -/
theorem PartOf.write (h : PartOf pad text file) (hk : k ≤ text.length) :
    PartOf pad text (overwrite pad file k (blockAt text k n)) := by
  have hblock := length_blockAt text k n
  constructor
  · have hfile := h.length
    rw [length_overwrite, hblock]
    omega
  · intro j b hb
    by_cases hbefore : j < k
    · rw [getElem?_overwrite_before hbefore] at hb
      split at hb
      · exact h.get j b hb
      · exact .inl (Option.some.inj hb).symm
    · by_cases hin : j < k + (blockAt text k n).length
      · rw [getElem?_overwrite_block (by omega) hin, getElem?_blockAt (by omega) (by omega)] at hb
        exact .inr hb
      · rw [getElem?_overwrite_after (by omega)] at hb
        exact h.get j b hb

/-- What is right stays right under a write of the same text, and what is written is right. -/
theorem getElem?_overwrite_blockAt (h : file[j]? = text[j]? ∨ k ≤ j ∧ j < k + n)
    (hj : j < text.length) :
    (overwrite pad file k (blockAt text k n))[j]? = text[j]? := by
  have hblock := length_blockAt text k n
  by_cases hin : k ≤ j ∧ j < k + n
  · rw [getElem?_overwrite_block hin.1 (by omega), getElem?_blockAt hin.1 hin.2]
  · have hright : file[j]? = text[j]? := h.resolve_right hin
    by_cases hbefore : j < k
    · have hfile : j < file.length := by
        rw [List.getElem?_eq_getElem hj] at hright
        exact (List.getElem?_eq_some_iff.mp hright).1
      rw [getElem?_overwrite_before hbefore, if_pos hfile, hright]
    · have hafter : k + (blockAt text k n).length ≤ j := by omega
      rw [getElem?_overwrite_after hafter, hright]

/-- A file that is right at every place of the text and not longer is the text. -/
theorem PartOf.eq_text (h : PartOf pad text file) (hright : ∀ j < text.length, file[j]? = text[j]?) :
    file = text := by
  refine List.ext_getElem? fun j => ?_
  by_cases hj : j < text.length
  · exact hright j hj
  · have hfile : file.length ≤ j := Nat.le_trans h.length (Nat.le_of_not_lt hj)
    rw [List.getElem?_eq_none hfile, List.getElem?_eq_none (Nat.le_of_not_lt hj)]

end Files
