import Mathlib.Data.List.AList

/-! Directories as finite maps from names to nodes, and what renaming an entry or a whole
directory may replace. -/
namespace Files

/-- A file, or a directory with what it holds. -/
inductive Node (κ : Type) where
  | file
  | dir (content : List κ)
deriving DecidableEq, Repr

abbrev Dir (κ : Type) := AList (fun _ : String => Node κ)

variable {κ : Type}

/-- `rename` puts a file in the place of nothing or of a file, a directory in the place of nothing
or of an empty directory. -/
def replaces : Node κ → Option (Node κ) → Bool
  | _, none => true
  | .file, some .file => true
  | .dir _, some (.dir []) => true
  | _, some _ => false

/-- Rename an entry into another directory under its name. -/
def renameEntry (name : String) (src dest : Dir κ) : Option (Dir κ × Dir κ) :=
  match src.lookup name with
  | none => none
  | some node =>
    if replaces node (dest.lookup name) then some (src.erase name, dest.insert name node) else none

/-- Rename a whole directory: what it replaces is missing or empty. -/
def renameDir (src dest : Option (Dir κ)) : Option (Option (Dir κ) × Option (Dir κ)) :=
  match src, dest with
  | some d, none => some (none, some d)
  | some d, some e => if e.entries.isEmpty then some (none, some d) else none
  | none, _ => none

/-- One rename that may be kept from happening; what fails leaves both directories as they were. -/
def moveOne (may : String → Bool) (dirs : Dir κ × Dir κ) (name : String) : Dir κ × Dir κ :=
  if may name then (renameEntry name dirs.1 dirs.2).getD dirs else dirs

def moveAll (may : String → Bool) (dirs : Dir κ × Dir κ) (names : List String) : Dir κ × Dir κ :=
  names.foldl (moveOne may) dirs

/-- The entry is there, nothing keeps it and its place is free. -/
def Movable (may : String → Bool) (dirs : Dir κ × Dir κ) (name : String) : Prop :=
  may name = true ∧ ∃ node, dirs.1.lookup name = some node ∧
    replaces node (dirs.2.lookup name) = true

def DirAt (d : Dir κ) (name : String) (content : List κ) : Prop :=
  d.lookup name = some (.dir content)

def HasDir (d : Dir κ) : Prop := ∃ name content, DirAt d name content

variable {may : String → Bool} {dirs : Dir κ × Dir κ} {name : String} {names : List String}

theorem renameDir_some {src dest : Option (Dir κ)} {dirs : Option (Dir κ) × Option (Dir κ)}
    (h : renameDir src dest = some dirs) : dirs = (none, src) := by
  unfold renameDir at h
  match src, dest with
  | none, _ => cases h
  | some d, none => exact (Option.some.inj h).symm
  | some d, some e =>
    simp only at h
    split at h
    · exact (Option.some.inj h).symm
    · cases h

theorem moveOne_of_movable (h : Movable may dirs name) :
    ∃ node, dirs.1.lookup name = some node ∧ replaces node (dirs.2.lookup name) = true ∧
      moveOne may dirs name = (dirs.1.erase name, dirs.2.insert name node) := by
  obtain ⟨hmay, node, hnode, hfree⟩ := h
  exact ⟨node, hnode, hfree, by simp [moveOne, renameEntry, hmay, hnode, hfree]⟩

theorem moveOne_of_not_movable (h : ¬ Movable may dirs name) : moveOne may dirs name = dirs := by
  unfold moveOne
  cases hmay : may name with
  | false => rfl
  | true =>
    rw [if_pos rfl, renameEntry]
    cases hnode : dirs.1.lookup name with
    | none => rfl
    | some node =>
      have hfree : ¬ replaces node (dirs.2.lookup name) = true :=
        fun hfree => h ⟨hmay, node, hnode, hfree⟩
      simp [hfree]

theorem moveOne_lookup_ne (may : String → Bool) (dirs : Dir κ × Dir κ) {name other : String}
    (h : other ≠ name) : (moveOne may dirs name).1.lookup other = dirs.1.lookup other ∧
      (moveOne may dirs name).2.lookup other = dirs.2.lookup other := by
  by_cases hm : Movable may dirs name
  · obtain ⟨node, -, -, hmove⟩ := moveOne_of_movable hm
    rw [hmove]
    exact ⟨AList.lookup_erase_ne h, AList.lookup_insert_ne h⟩
  · rw [moveOne_of_not_movable hm]
    exact ⟨rfl, rfl⟩

/-- Moving some entries does not touch the others. -/
theorem moveAll_lookup_notMem (may : String → Bool) (dirs : Dir κ × Dir κ) (h : name ∉ names) :
    (moveAll may dirs names).1.lookup name = dirs.1.lookup name ∧
      (moveAll may dirs names).2.lookup name = dirs.2.lookup name := by
  induction names generalizing dirs with
  | nil => exact ⟨rfl, rfl⟩
  | cons first names ih =>
    obtain ⟨hne, hnot⟩ := not_or.mp (fun hmem => h (List.mem_cons.mpr hmem))
    obtain ⟨h₁, h₂⟩ := ih (moveOne may dirs first) hnot
    obtain ⟨h₁', h₂'⟩ := moveOne_lookup_ne may dirs hne
    exact ⟨h₁.trans h₁', h₂.trans h₂'⟩

private theorem moveAll_split (may : String → Bool) (dirs : Dir κ × Dir κ) (hnodup : names.Nodup)
    (h : name ∈ names) : ∃ dirs' : Dir κ × Dir κ,
      dirs'.1.lookup name = dirs.1.lookup name ∧ dirs'.2.lookup name = dirs.2.lookup name ∧
      (moveAll may dirs names).1.lookup name = (moveOne may dirs' name).1.lookup name ∧
      (moveAll may dirs names).2.lookup name = (moveOne may dirs' name).2.lookup name := by
  induction names generalizing dirs with
  | nil => cases h
  | cons first names ih =>
    obtain ⟨hfirst, hnodup⟩ := List.nodup_cons.mp hnodup
    rcases List.mem_cons.mp h with rfl | hmem
    · obtain ⟨h₁, h₂⟩ := moveAll_lookup_notMem may (moveOne may dirs name) hfirst
      exact ⟨dirs, rfl, rfl, h₁, h₂⟩
    · have hne : name ≠ first := fun h => hfirst (h ▸ hmem)
      obtain ⟨dirs', h₁, h₂, h₃, h₄⟩ := ih (moveOne may dirs first) hnodup hmem
      obtain ⟨h₁', h₂'⟩ := moveOne_lookup_ne may dirs hne
      exact ⟨dirs', h₁.trans h₁', h₂.trans h₂', h₃, h₄⟩

/-- A movable entry is where it was moved to, and nowhere else. -/
theorem moveAll_lookup_of_movable (hnodup : names.Nodup) (h : name ∈ names)
    (hm : Movable may dirs name) :
    (moveAll may dirs names).1.lookup name = none ∧
      (moveAll may dirs names).2.lookup name = dirs.1.lookup name := by
  obtain ⟨dirs', h₁, h₂, h₃, h₄⟩ := moveAll_split may dirs hnodup h
  have hm' : Movable may dirs' name := by rwa [Movable, h₁, h₂]
  obtain ⟨node, hnode, -, hmove⟩ := moveOne_of_movable hm'
  rw [h₃, h₄, hmove, ← h₁, hnode]
  exact ⟨AList.lookup_erase _ _, AList.lookup_insert _⟩

/-- Any other entry stays. -/
theorem moveAll_lookup_of_not_movable (hnodup : names.Nodup) (hm : ¬ Movable may dirs name) :
    (moveAll may dirs names).1.lookup name = dirs.1.lookup name ∧
      (moveAll may dirs names).2.lookup name = dirs.2.lookup name := by
  by_cases h : name ∈ names
  · obtain ⟨dirs', h₁, h₂, h₃, h₄⟩ := moveAll_split may dirs hnodup h
    have hm' : ¬ Movable may dirs' name := by rwa [Movable, h₁, h₂]
    rw [h₃, h₄, moveOne_of_not_movable hm']
    exact ⟨h₁, h₂⟩
  · exact moveAll_lookup_notMem may dirs h

/-- A directory gives way only when it is empty, and to another directory. -/
theorem replaces_dir {node : Node κ} {content : List κ}
    (h : replaces node (some (.dir content)) = true) : content = [] ∧ ∃ c, node = .dir c := by
  cases node with
  | file => simp [replaces] at h
  | dir c =>
    cases content with
    | nil => exact ⟨rfl, c, rfl⟩
    | cons x xs => simp [replaces] at h

/-- Moves into a directory keep the directories that it has, with all that they hold. -/
theorem moveAll_dirAt (hnodup : names.Nodup) {content : List κ} (h : DirAt dirs.2 name content) :
    ∃ content', DirAt (moveAll may dirs names).2 name content' ∧ content ⊆ content' := by
  by_cases hm : Movable may dirs name
  · obtain ⟨-, node, hnode, hfree⟩ := id hm
    rw [DirAt] at h
    rw [h] at hfree
    obtain ⟨rfl, c, rfl⟩ := replaces_dir hfree
    by_cases hmem : name ∈ names
    · refine ⟨c, ?_, List.nil_subset _⟩
      rw [DirAt, (moveAll_lookup_of_movable hnodup hmem hm).2, hnode]
    · refine ⟨[], ?_, List.Subset.refl _⟩
      rw [DirAt, (moveAll_lookup_notMem may dirs hmem).2, h]
  · refine ⟨content, ?_, List.Subset.refl _⟩
    rw [DirAt, (moveAll_lookup_of_not_movable hnodup hm).2]
    exact h

/-- The directories that are left behind are those that could not be moved. -/
theorem dirAt_moveAll_fst (hnodup : names.Nodup) (hall : ∀ n, n ∈ dirs.1 → n ∈ names)
    {content : List κ} : DirAt (moveAll may dirs names).1 name content ↔
      DirAt dirs.1 name content ∧ ¬ Movable may dirs name := by
  by_cases hm : Movable may dirs name
  · obtain ⟨-, node, hnode, -⟩ := id hm
    have hmem : name ∈ names := hall name (AList.lookup_isSome.mp (by rw [hnode]; rfl))
    rw [DirAt, (moveAll_lookup_of_movable hnodup hmem hm).1]
    simp [hm]
  · rw [DirAt, (moveAll_lookup_of_not_movable hnodup hm).1, DirAt]
    simp [hm]

theorem dirAt_moveAll_of_movable (hnodup : names.Nodup) (hall : ∀ n, n ∈ dirs.1 → n ∈ names)
    {content : List κ} (h : DirAt dirs.1 name content) (hm : Movable may dirs name) :
    DirAt (moveAll may dirs names).2 name content := by
  have hmem : name ∈ names := hall name (AList.lookup_isSome.mp (by rw [h]; rfl))
  rw [DirAt, (moveAll_lookup_of_movable hnodup hmem hm).2]
  exact h

end Files
