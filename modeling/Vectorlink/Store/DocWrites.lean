import Vectorlink.IngestExact
import Vectorlink.Versioned.Lineage

/-! Documents written to a branch one at a time. Each write makes a version without the
document and, unless the document is deleted, one more with its new rows. -/
namespace Vectorlink

open Versioned

variable {V : Type}

/-- The new rows of a document, none when it is deleted. -/
structure DocWrite (V : Type) where
  id : DocId
  rows : List (ChunkRow V)

namespace DocWrite

variable (w : DocWrite V)

/-- Every row is one of the document. -/
def Own : Prop := ∀ r ∈ w.rows, r.docId = w.id

/-- The number of versions that the write commits. -/
def versions : ℕ := if w.rows.isEmpty then 1 else 2

end DocWrite

def versionsOf (ws : List (DocWrite V)) : ℕ := ws.foldr (fun w n => w.versions + n) 0

def writeDoc (l : Lineage (ChunkRow V)) (w : DocWrite V) : Lineage (ChunkRow V) :=
  let gone := l.advance (deleteDocs [w.id] l.headRows)
  if w.rows.isEmpty then gone else gone.advance (gone.headRows ++ w.rows)

def writeDocs (l : Lineage (ChunkRow V)) (ws : List (DocWrite V)) : Lineage (ChunkRow V) :=
  ws.foldl writeDoc l

/-- The rows that the writes make of `rows` when they are done all at once. -/
def applyWrites (ws : List (DocWrite V)) (rows : List (ChunkRow V)) : List (ChunkRow V) :=
  deleteDocs (ws.map (·.id)) rows ++ ws.flatMap (·.rows)

section Write

variable (l : Lineage (ChunkRow V)) (w : DocWrite V) {v : ℕ}

@[simp] theorem writeDoc_head : (writeDoc l w).head = l.head + w.versions := by
  unfold writeDoc DocWrite.versions
  split
  · rfl
  · rfl

@[simp] theorem writeDoc_headRows :
    (writeDoc l w).headRows = deleteDocs [w.id] l.headRows ++ w.rows := by
  unfold writeDoc
  split
  · rename_i hempty
    rw [List.isEmpty_iff.mp hempty, List.append_nil]
    rfl
  · rfl

theorem writeDoc_rows_of_le (h : v ≤ l.head) : (writeDoc l w).rows v = l.rows v := by
  unfold writeDoc
  split
  · exact if_neg (by omega)
  · have hsecond : v ≠ l.head + 1 + 1 := by omega
    have hfirst : v ≠ l.head + 1 := by omega
    simp [Lineage.advance, hsecond, hfirst]

/-- Between the two versions of a write the document has no rows. -/
theorem writeDoc_rows_between (hlow : l.head < v) (hhigh : v < (writeDoc l w).head) :
    w.rows ≠ [] ∧ (writeDoc l w).rows v = some (deleteDocs [w.id] l.headRows) := by
  rw [writeDoc_head, DocWrite.versions] at hhigh
  unfold writeDoc
  split at hhigh
  · omega
  · rename_i hempty
    obtain rfl : v = l.head + 1 := by omega
    rw [if_neg hempty]
    refine ⟨by simpa using hempty, ?_⟩
    simp [Lineage.advance]

end Write

section Writes

variable {l : Lineage (ChunkRow V)} {ws : List (DocWrite V)} {v : ℕ}

theorem writeDocs_append (l : Lineage (ChunkRow V)) (ws ws' : List (DocWrite V)) :
    writeDocs l (ws ++ ws') = writeDocs (writeDocs l ws) ws' := List.foldl_append

@[simp] theorem versionsOf_cons (w : DocWrite V) (ws : List (DocWrite V)) :
    versionsOf (w :: ws) = w.versions + versionsOf ws := rfl

theorem writeDocs_head (l : Lineage (ChunkRow V)) (ws : List (DocWrite V)) :
    (writeDocs l ws).head = l.head + versionsOf ws := by
  induction ws generalizing l with
  | nil => rfl
  | cons w ws ih =>
    have hrest := ih (writeDoc l w)
    rw [writeDoc_head] at hrest
    rw [versionsOf_cons, ← Nat.add_assoc]
    exact hrest

theorem writeDocs_head_pos (l : Lineage (ChunkRow V)) (hne : ws ≠ []) :
    0 < (writeDocs l ws).head := by
  obtain ⟨w, ws, rfl⟩ := List.exists_cons_of_ne_nil hne
  have hone : 0 < w.versions := by
    unfold DocWrite.versions
    split <;> omega
  rw [writeDocs_head, versionsOf_cons]
  omega

theorem writeDocs_rows_of_le (h : v ≤ l.head) (ws : List (DocWrite V)) :
    (writeDocs l ws).rows v = l.rows v := by
  induction ws generalizing l with
  | nil => rfl
  | cons w ws ih =>
    have hrest := ih (l := writeDoc l w) (by rw [writeDoc_head]; omega)
    exact hrest.trans (writeDoc_rows_of_le l w h)

/-- Every version from the start on is the last one of some writes, or lies between the two
versions of one write. -/
theorem writeDocs_rows_cases (hlow : l.head ≤ v) (hhigh : v ≤ (writeDocs l ws).head) :
    (∃ done rest, ws = done ++ rest ∧ v = (writeDocs l done).head ∧
      (writeDocs l ws).rows v = some (writeDocs l done).headRows) ∨
    ∃ done w rest, ws = done ++ w :: rest ∧ w.rows ≠ [] ∧
      (writeDocs l ws).rows v = some (deleteDocs [w.id] (writeDocs l done).headRows) := by
  induction ws generalizing l with
  | nil =>
    obtain rfl : v = l.head := Nat.le_antisymm hhigh hlow
    exact .inl ⟨[], [], rfl, rfl, l.rows_head⟩
  | cons w ws ih =>
    by_cases hstart : v = l.head
    · subst hstart
      exact .inl ⟨[], _, rfl, rfl, (writeDocs_rows_of_le le_rfl _).trans l.rows_head⟩
    · by_cases hfirst : v < (writeDoc l w).head
      · obtain ⟨hne, hrows⟩ := writeDoc_rows_between l w (by omega) hfirst
        refine .inr ⟨[], w, ws, rfl, hne, ?_⟩
        exact (writeDocs_rows_of_le (by omega) ws).trans hrows
      · rcases ih (Nat.le_of_not_lt hfirst) hhigh with
          ⟨done, rest, rfl, hv, hrows⟩ | ⟨done, w', rest, rfl, hne, hrows⟩
        · exact .inl ⟨w :: done, rest, rfl, hv, hrows⟩
        · exact .inr ⟨w :: done, w', rest, rfl, hne, hrows⟩

/-- The versions that a branch does not have after the writes. -/
theorem writeDocs_rows_eq_none_iff :
    (writeDocs l ws).rows v = none ↔
      l.head + versionsOf ws < v ∨ v < l.head ∧ l.rows v = none := by
  rw [← writeDocs_head]
  constructor
  · intro hnone
    by_cases hlow : v < l.head
    · rw [writeDocs_rows_of_le (Nat.le_of_lt hlow)] at hnone
      exact .inr ⟨hlow, hnone⟩
    · left
      by_contra hhigh
      rcases writeDocs_rows_cases (Nat.le_of_not_lt hlow) (Nat.le_of_not_lt hhigh) with
        ⟨done, rest, -, -, hrows⟩ | ⟨done, w, rest, -, -, hrows⟩
      · rw [hrows] at hnone
        cases hnone
      · rw [hrows] at hnone
        cases hnone
  · rintro (hhigh | ⟨hlow, hnone⟩)
    · exact (writeDocs l ws).rows_above v hhigh
    · rw [writeDocs_rows_of_le (Nat.le_of_lt hlow), hnone]

end Writes

section Rows

variable {l : Lineage (ChunkRow V)} {ws : List (DocWrite V)} {v : ℕ}

theorem deleteDocs_cons (id : DocId) (ids : List DocId) (rows : List (ChunkRow V)) :
    deleteDocs ids (deleteDocs [id] rows) = deleteDocs (id :: ids) rows := by
  unfold deleteDocs
  rw [List.filter_filter]
  refine List.filter_congr fun r _ => ?_
  simp [Bool.and_comm]

theorem deleteDocs_append (ids : List DocId) (xs ys : List (ChunkRow V)) :
    deleteDocs ids (xs ++ ys) = deleteDocs ids xs ++ deleteDocs ids ys := by
  simp [deleteDocs]

theorem DocWrite.Own.deleteDocs {w : DocWrite V} (h : w.Own) {ids : List DocId}
    (hid : w.id ∉ ids) : Vectorlink.deleteDocs ids w.rows = w.rows := by
  refine List.filter_eq_self.mpr fun r hr => ?_
  rw [h r hr]
  simpa using hid

variable (hnodup : (ws.map (·.id)).Nodup) (hown : ∀ w ∈ ws, w.Own)

include hnodup hown

/-- One at a time or all at once, the rows are the same. -/
theorem writeDocs_headRows : (writeDocs l ws).headRows = applyWrites ws l.headRows := by
  induction ws generalizing l with
  | nil => simp [writeDocs, applyWrites]
  | cons w ws ih =>
    rw [List.map_cons, List.nodup_cons] at hnodup
    have hfirst := hown w List.mem_cons_self
    have hrest := ih (l := writeDoc l w) hnodup.2 fun x hx => hown x (List.mem_cons_of_mem _ hx)
    have hstep : writeDocs l (w :: ws) = writeDocs (writeDoc l w) ws := rfl
    rw [hstep, hrest, applyWrites, writeDoc_headRows, deleteDocs_append, deleteDocs_cons,
      hfirst.deleteDocs hnodup.1, applyWrites, List.map_cons, List.flatMap_cons, List.append_assoc]

/-- A document that is written has its new rows. -/
theorem docRows_applyWrites_of_mem {w : DocWrite V} (hw : w ∈ ws) (rows : List (ChunkRow V)) :
    docRows w.id (applyWrites ws rows) = w.rows := by
  have hid : w.id ∈ ws.map (·.id) := List.mem_map_of_mem hw
  rw [applyWrites, docRows_append, docRows_deleteDocs, if_pos hid, List.nil_append]
  clear hid
  induction ws with
  | nil => cases hw
  | cons x ws ih =>
    rw [List.map_cons, List.nodup_cons] at hnodup
    have hfirst := hown x List.mem_cons_self
    have hothers : ∀ y ∈ ws, y.Own := fun y hy => hown y (List.mem_cons_of_mem _ hy)
    rw [List.flatMap_cons, docRows_append]
    rcases List.mem_cons.mp hw with rfl | hw
    · have hnone : docRows w.id (ws.flatMap (·.rows)) = [] := by
        refine docRows_other fun r hr heq => ?_
        obtain ⟨y, hy, hry⟩ := List.mem_flatMap.mp hr
        rw [hothers y hy r hry] at heq
        exact hnodup.1 (heq ▸ List.mem_map_of_mem hy)
      rw [hnone, docRows_self hfirst, List.append_nil]
    · have hne : x.id ≠ w.id := by
        intro heq
        exact hnodup.1 (heq ▸ List.mem_map_of_mem hw)
      rw [docRows_other fun r hr => by rw [hfirst r hr]; exact hne, List.nil_append,
        ih hnodup.2 hothers hw]

omit hnodup in
/-- A document that is not written keeps its rows. -/
theorem docRows_applyWrites_of_notMem {id : DocId} (hid : id ∉ ws.map (·.id))
    (rows : List (ChunkRow V)) : docRows id (applyWrites ws rows) = docRows id rows := by
  have hnone : docRows id (ws.flatMap (·.rows)) = [] := by
    refine docRows_other fun r hr heq => ?_
    obtain ⟨w, hw, hrw⟩ := List.mem_flatMap.mp hr
    rw [hown w hw r hrw] at heq
    exact hid (heq ▸ List.mem_map_of_mem hw)
  rw [applyWrites, docRows_append, docRows_deleteDocs, if_neg hid, hnone, List.append_nil]

end Rows

section Shows

variable {l : Lineage (ChunkRow V)} {ws done rest : List (DocWrite V)} {v : ℕ}

/-- The first writes already show what all of them show, exactly if the others bring back the
rows that are there. -/
theorem applyWrites_perm_iff (hnodup : ((done ++ rest).map (·.id)).Nodup)
    (hown : ∀ w ∈ done ++ rest, w.Own) (rows : List (ChunkRow V)) :
    (applyWrites done rows).Perm (applyWrites (done ++ rest) rows) ↔
      ∀ w ∈ rest, (docRows w.id rows).Perm w.rows := by
  have hdone : (done.map (·.id)).Nodup := by
    rw [List.map_append] at hnodup
    exact hnodup.of_append_left
  have hown' : ∀ w ∈ done, w.Own := fun w hw => hown w (List.mem_append_left _ hw)
  have hlate : ∀ w ∈ rest, w.id ∉ done.map (·.id) := by
    intro w hw hmem
    rw [List.map_append, List.nodup_append] at hnodup
    exact hnodup.2.2 w.id hmem w.id (List.mem_map_of_mem hw) rfl
  have hold : ∀ w ∈ rest, docRows w.id (applyWrites done rows) = docRows w.id rows := fun w hw =>
    docRows_applyWrites_of_notMem hown' (hlate w hw) rows
  have hnew : ∀ w ∈ rest, docRows w.id (applyWrites (done ++ rest) rows) = w.rows := fun w hw =>
    docRows_applyWrites_of_mem hnodup hown (List.mem_append_right _ hw) rows
  classical
  rw [perm_iff_docRows]
  constructor
  · intro h w hw
    rw [← hold w hw, ← hnew w hw]
    exact h w.id
  · intro h id
    by_cases hrest : ∃ w ∈ rest, w.id = id
    · obtain ⟨w, hw, rfl⟩ := hrest
      rw [hold w hw, hnew w hw]
      exact h w hw
    · by_cases hfirst : ∃ w ∈ done, w.id = id
      · obtain ⟨w, hw, rfl⟩ := hfirst
        rw [docRows_applyWrites_of_mem hdone hown' hw,
          docRows_applyWrites_of_mem hnodup hown (List.mem_append_left _ hw)]
      · have hnone : id ∉ done.map (·.id) := fun hmem => hfirst (by simpa using hmem)
        have hnone' : id ∉ (done ++ rest).map (·.id) := by
          rw [List.map_append, List.mem_append]
          rintro (hmem | hmem)
          · exact hnone hmem
          · exact hrest (by simpa using hmem)
        rw [docRows_applyWrites_of_notMem hown' hnone, docRows_applyWrites_of_notMem hown hnone']

/-- The versions from the start of the writes on that show the same rows as the last one. -/
theorem writeDocs_shows_last_iff (hnodup : (ws.map (·.id)).Nodup) (hown : ∀ w ∈ ws, w.Own)
    (hlow : l.head ≤ v) :
    (∃ r, (writeDocs l ws).rows v = some r ∧ r.Perm (writeDocs l ws).headRows) ↔
      ∃ done rest, ws = done ++ rest ∧ v = l.head + versionsOf done ∧
        ∀ w ∈ rest, (docRows w.id l.headRows).Perm w.rows := by
  have hprior : ∀ {done rest : List (DocWrite V)}, ws = done ++ rest →
      (writeDocs l done).headRows = applyWrites done l.headRows := by
    rintro done rest rfl
    rw [List.map_append] at hnodup
    exact writeDocs_headRows hnodup.of_append_left fun w hw => hown w (List.mem_append_left _ hw)
  rw [writeDocs_headRows hnodup hown]
  constructor
  · rintro ⟨r, hr, hperm⟩
    rcases writeDocs_rows_cases hlow (Lineage.le_head hr) with
      ⟨done, rest, hws, hv, hrows⟩ | ⟨done, w, rest, hws, hne, hrows⟩
    · obtain rfl := Option.some.inj (hr.symm.trans hrows)
      rw [hprior hws] at hperm
      subst hws
      exact ⟨done, rest, rfl, hv.trans (writeDocs_head l done),
        (applyWrites_perm_iff hnodup hown _).mp hperm⟩
    · -- the document of the write is missing from the version between
      obtain rfl := Option.some.inj (hr.symm.trans hrows)
      have hw : w ∈ ws := by simp [hws]
      have hdoc : (docRows w.id (deleteDocs [w.id] (writeDocs l done).headRows)).Perm
          (docRows w.id (applyWrites ws l.headRows)) := hperm.filter _
      rw [docRows_deleteDocs, if_pos (List.mem_singleton.mpr rfl),
        docRows_applyWrites_of_mem hnodup hown hw] at hdoc
      exact absurd hdoc.nil_eq.symm hne
  · rintro ⟨done, rest, rfl, rfl, hsame⟩
    refine ⟨(writeDocs l done).headRows, ?_, ?_⟩
    · rw [← writeDocs_head, writeDocs_append, writeDocs_rows_of_le le_rfl, Lineage.rows_head]
    · rw [hprior rfl]
      exact (applyWrites_perm_iff hnodup hown _).mpr hsame

end Shows

end Vectorlink
