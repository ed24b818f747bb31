import Mathlib.Data.List.Basic
import Mathlib.Data.List.Induction

/-! Columns of values and batches of columns of one length. A column of lists of a fixed size keeps
the items of all its lists in one column. -/
namespace Columnar

variable {F α β : Type}

inductive Column (F : Type) where
  | utf8 (values : List String)
  | int32 (values : List Int32)
  | float32 (values : List F)
  | fixedSizeList (size : ℕ) (items : Column F) (valid : Option (List Bool))

/-- The values at some positions. -/
def pick (values : List α) (positions : List ℕ) : List α := positions.filterMap fun i => values[i]?

/-- The positions of the items of some lists. -/
def spread (size : ℕ) (positions : List ℕ) : List ℕ :=
  positions.flatMap fun i => List.range' (i * size) size

namespace Column

/-- Items that do not make up a whole list are not counted. -/
def length : Column F → ℕ
  | .utf8 values => values.length
  | .int32 values => values.length
  | .float32 values => values.length
  | .fixedSizeList size items none => items.length / size
  | .fixedSizeList _ _ (some valid) => valid.length

def gather (positions : List ℕ) : Column F → Column F
  | .utf8 values => .utf8 (pick values positions)
  | .int32 values => .int32 (pick values positions)
  | .float32 values => .float32 (pick values positions)
  | .fixedSizeList size items valid =>
    .fixedSizeList size (items.gather (spread size positions)) (valid.map fun v => pick v positions)

end Column

structure FixedSizeLists (F : Type) where
  size : ℕ
  items : Column F
  valid : Option (List Bool)

/-- The items of a list, also where the list is null. -/
def FixedSizeLists.value (lists : FixedSizeLists F) (i : ℕ) : Column F :=
  lists.items.gather (spread lists.size [i])

def FixedSizeLists.isNull (lists : FixedSizeLists F) (i : ℕ) : Bool :=
  (lists.valid.map fun v => !v.getD i false).getD false

namespace Column

def asUtf8 : Column F → Option (List String)
  | .utf8 values => some values
  | _ => none

def asInt32 : Column F → Option (List Int32)
  | .int32 values => some values
  | _ => none

def asFloat32 : Column F → Option (List F)
  | .float32 values => some values
  | _ => none

def asFixedSizeList : Column F → Option (FixedSizeLists F)
  | .fixedSizeList size items valid => some ⟨size, items, valid⟩
  | _ => none

/-- A column of lists without nulls, if the items make up whole lists or the rest is let go. -/
def newFixedSizeList (strict : Bool) (size : Int32) (items : Column F) : Option (Column F) :=
  if size < 0 then none
  else if strict ∧ 0 < size ∧ items.length % size.toNatClampNeg ≠ 0 then none
  else some (.fixedSizeList size.toNatClampNeg items none)

end Column

section Pick

variable {values : List α} {positions : List ℕ} {size : ℕ}

theorem pick_cons (values : List α) (i : ℕ) (positions : List ℕ) :
    pick values (i :: positions) = values[i]?.toList ++ pick values positions := by
  unfold pick
  rw [List.filterMap_cons]
  cases values[i]? <;> rfl

theorem pick_append (values : List α) (is js : List ℕ) :
    pick values (is ++ js) = pick values is ++ pick values js := List.filterMap_append

theorem length_pick (h : ∀ i ∈ positions, i < values.length) :
    (pick values positions).length = positions.length := by
  induction positions with
  | nil => rfl
  | cons i is ih =>
    have hi : i < values.length := h i List.mem_cons_self
    rw [pick_cons, List.getElem?_eq_getElem hi, List.length_append,
      ih fun j hj => h j (List.mem_cons_of_mem i hj)]
    simp only [Option.toList_some, List.length_cons, List.length_nil]
    omega

theorem pick_map (f : α → β) (values : List α) (positions : List ℕ) :
    pick (values.map f) positions = (pick values positions).map f := by
  unfold pick
  rw [List.map_filterMap]
  congr 1
  funext i
  exact List.getElem?_map

theorem pick_range' (values : List α) (start size : ℕ) :
    pick values (List.range' start size) = (values.drop start).take size := by
  induction size generalizing start with
  | zero => rfl
  | succ size ih =>
    rw [List.range'_succ, pick_cons, ih]
    by_cases hstart : start < values.length
    · rw [List.getElem?_eq_getElem hstart, List.drop_eq_getElem_cons hstart, List.take_succ_cons]
      rfl
    · have hle : values.length ≤ start := Nat.le_of_not_lt hstart
      rw [List.getElem?_eq_none hle, List.drop_eq_nil_of_le hle,
        List.drop_eq_nil_of_le (Nat.le_succ_of_le hle)]
      simp

/-- The lists of one size are found again in the items of all of them. -/
theorem drop_take_flatMap {f : β → List α} {xs : List β} (h : ∀ x ∈ xs, (f x).length = size)
    (i : ℕ) : ((xs.flatMap f).drop (i * size)).take size = (xs[i]?.toList).flatMap f := by
  induction xs generalizing i with
  | nil => simp
  | cons x xs ih =>
    have hx : (f x).length = size := h x List.mem_cons_self
    rw [List.flatMap_cons]
    cases i with
    | zero => simp [← hx]
    | succ i =>
      have hskip : (i + 1) * size = (f x).length + i * size := by rw [hx, Nat.succ_mul, Nat.add_comm]
      rw [hskip, List.drop_append, List.drop_eq_nil_of_le (Nat.le_add_right _ _), List.nil_append,
        Nat.add_sub_cancel_left, ih (fun y hy => h y (List.mem_cons_of_mem x hy)) i]
      rfl

theorem pick_spread {f : β → List α} {xs : List β} (h : ∀ x ∈ xs, (f x).length = size)
    (positions : List ℕ) :
    pick (xs.flatMap f) (spread size positions) = (pick xs positions).flatMap f := by
  induction positions with
  | nil => rfl
  | cons i is ih =>
    have hspread : spread size (i :: is) = List.range' (i * size) size ++ spread size is := rfl
    rw [hspread, pick_append, pick_range', drop_take_flatMap h, ih, pick_cons, List.flatMap_append]

theorem spread_lt {n : ℕ} (h : ∀ i ∈ positions, i < n / size) :
    ∀ j ∈ spread size positions, j < n := by
  intro j hj
  obtain ⟨i, hi, hij⟩ := List.mem_flatMap.mp hj
  obtain ⟨hle, hlt⟩ := List.mem_range'_1.mp hij
  have hwhole : (i + 1) * size ≤ n := (Nat.le_div_iff_mul_le (by omega)).mp (h i hi)
  rw [Nat.succ_mul] at hwhole
  omega

theorem length_spread (size : ℕ) (positions : List ℕ) :
    (spread size positions).length = positions.length * size := by
  induction positions with
  | nil => simp [spread]
  | cons i is ih =>
    have hspread : spread size (i :: is) = List.range' (i * size) size ++ spread size is := rfl
    rw [hspread, List.length_append, ih, List.length_range', List.length_cons, Nat.succ_mul,
      Nat.add_comm]

theorem Column.length_gather {c : Column F} (h : ∀ i ∈ positions, i < c.length) :
    (c.gather positions).length = positions.length := by
  induction c generalizing positions with
  | utf8 values => exact length_pick h
  | int32 values => exact length_pick h
  | float32 values => exact length_pick h
  | fixedSizeList size items valid ih =>
    cases valid with
    | some valid => exact length_pick h
    | none =>
      show (items.gather (spread size positions)).length / size = positions.length
      rw [ih (spread_lt h), length_spread]
      cases positions with
      | nil => rw [List.length_nil, Nat.zero_mul, Nat.zero_div]
      | cons i is =>
        have hpos : 0 < size := by
          by_contra hzero
          have hi : i < items.length / size := h i List.mem_cons_self
          rw [Nat.eq_zero_of_not_pos hzero, Nat.div_zero] at hi
          omega
        exact Nat.mul_div_cancel _ hpos

end Pick

/-- Named columns of one length. -/
@[ext] structure RecordBatch (F : Type) where
  columns : List (String × Column F)
  numRows : ℕ
  lengths : ∀ c ∈ columns, c.2.length = numRows

/-- The first column of a name. -/
def findColumn (columns : List (String × Column F)) (name : String) : Option (Column F) :=
  (columns.find? fun c => c.1 = name).map Prod.snd

namespace RecordBatch

/-- The columns make a batch if they have the length of the first. -/
def tryNew (columns : List (String × Column F)) : Option (RecordBatch F) :=
  let numRows := (columns.head?.map fun c => c.2.length).getD 0
  if h : ∀ c ∈ columns, c.2.length = numRows then some ⟨columns, numRows, h⟩ else none

variable (b : RecordBatch F)

def columnByName (name : String) : Option (Column F) := findColumn b.columns name

def gather (positions : List (Fin b.numRows)) : RecordBatch F where
  columns := b.columns.map fun c => (c.1, c.2.gather (positions.map Fin.val))
  numRows := positions.length
  lengths c hc := by
    obtain ⟨c', hc', rfl⟩ := List.mem_map.mp hc
    have hrange : ∀ i ∈ positions.map Fin.val, i < c'.2.length := by
      intro i hi
      obtain ⟨j, -, rfl⟩ := List.mem_map.mp hi
      rw [b.lengths c' hc']
      exact j.isLt
    rw [Column.length_gather hrange, List.length_map]

def utf8 (name : String) : Option (List String) := (b.columnByName name).bind Column.asUtf8

def int32 (name : String) : Option (List Int32) := (b.columnByName name).bind Column.asInt32

def float32 (name : String) : Option (List F) := (b.columnByName name).bind Column.asFloat32

def fixedSizeList (name : String) : Option (FixedSizeLists F) :=
  (b.columnByName name).bind Column.asFixedSizeList

/-- The columns of some names. -/
def project (names : List String) : RecordBatch F where
  columns := names.filterMap fun name => (b.columnByName name).map fun c => (name, c)
  numRows := b.numRows
  lengths c hc := by
    obtain ⟨name, -, hname⟩ := List.mem_filterMap.mp hc
    obtain ⟨column, hcolumn, rfl⟩ := Option.map_eq_some_iff.mp hname
    obtain ⟨c', hc', rfl⟩ := Option.map_eq_some_iff.mp hcolumn
    exact b.lengths c' (List.mem_of_find?_eq_some hc')

@[simp] theorem numRows_project (names : List String) : (b.project names).numRows = b.numRows := rfl

@[simp] theorem numRows_gather (positions : List (Fin b.numRows)) :
    (b.gather positions).numRows = positions.length := rfl

end RecordBatch

theorem findColumn_of_notMem {columns : List (String × Column F)} {name : String}
    (h : name ∉ columns.map Prod.fst) : findColumn columns name = none := by
  have hnone : columns.find? (fun c => c.1 = name) = none := by
    rw [List.find?_eq_none]
    intro c hc hname
    apply h
    rw [← of_decide_eq_true hname]
    exact List.mem_map_of_mem hc
  rw [findColumn, hnone]
  rfl

theorem findColumn_filterMap (look : String → Option (Column F)) (names : List String)
    (name : String) :
    findColumn (names.filterMap fun n => (look n).map fun c => (n, c)) name =
      if name ∈ names then look name else none := by
  induction names with
  | nil => rfl
  | cons first names ih =>
    rw [List.filterMap_cons]
    by_cases hfirst : first = name
    · subst hfirst
      rw [if_pos List.mem_cons_self]
      cases hlook : look first with
      | some c => simp [findColumn]
      | none =>
        dsimp only [Option.map_none]
        rw [ih, hlook, ite_self]
    · have hmem : name ∈ first :: names ↔ name ∈ names := by simp [Ne.symm hfirst]
      rw [if_congr hmem rfl rfl, ← ih]
      cases look first with
      | none => rfl
      | some c => simp [findColumn, hfirst]

namespace RecordBatch

variable (b : RecordBatch F)

theorem columnByName_project {names : List String} {name : String} (h : name ∈ names) :
    (b.project names).columnByName name = b.columnByName name := by
  unfold columnByName project
  rw [findColumn_filterMap, if_pos h]
  rfl

theorem columnByName_project_of_notMem {names : List String} {name : String} (h : name ∉ names) :
    (b.project names).columnByName name = none := by
  unfold columnByName project
  rw [findColumn_filterMap, if_neg h]

end RecordBatch

section Scan

/-- A row of a batch. -/
abbrev BatchRow (F : Type) := (b : RecordBatch F) × Fin b.numRows

/-- The rows that pass a filter, in the order in which they are stored. -/
def keptRows (keep : BatchRow F → Bool) (stored : List (RecordBatch F)) : List (BatchRow F) :=
  stored.flatMap fun b => ((List.finRange b.numRows).map fun i => ⟨b, i⟩).filter keep

/-- What a scan gives: the kept rows in their order, cut into batches anywhere, with the columns
that were asked for or with all. -/
def Scans (keep : BatchRow F → Bool) (names : Option (List String))
    (stored out : List (RecordBatch F)) : Prop :=
  ∃ parts : List ((b : RecordBatch F) × List (Fin b.numRows)), (∀ p ∈ parts, p.1 ∈ stored) ∧
    (parts.flatMap fun p => p.2.map fun i => (⟨p.1, i⟩ : BatchRow F)) = keptRows keep stored ∧
    out = parts.map fun p =>
      let part := p.1.gather p.2
      (names.map part.project).getD part

end Scan

section Loops

variable {ε σ : Type}

/-- A loop over the positions of a list that handles each of its members. -/
theorem foldlM_range {xs : List α} {body : σ → ℕ → Except ε σ} {h : σ → α → σ}
    (hbody : ∀ s i x, xs[i]? = some x → body s i = .ok (h s x)) (s : σ) :
    (List.range xs.length).foldlM body s = .ok (xs.foldl h s) := by
  induction xs using List.reverseRecOn generalizing s with
  | nil => rfl
  | append_singleton xs x ih =>
    have hprefix : ∀ s i y, xs[i]? = some y → body s i = .ok (h s y) := by
      intro s i y hy
      apply hbody
      rw [List.getElem?_append_left (List.getElem?_eq_some_iff.mp hy).1]
      exact hy
    rw [List.length_append, List.length_singleton, List.range_succ, List.foldlM_append,
      ih hprefix, List.foldl_append]
    have hlast := hbody (xs.foldl h s) xs.length x (by simp)
    show [xs.length].foldlM body (xs.foldl h s) = _
    rw [List.foldlM_cons, hlast]
    rfl

theorem foldl_push (f : α → β) (acc : List β) (xs : List α) :
    xs.foldl (fun acc x => acc ++ [f x]) acc = acc ++ xs.map f := by
  induction xs generalizing acc with
  | nil => simp
  | cons x xs ih => rw [List.foldl_cons, ih, List.append_assoc, List.map_cons, List.singleton_append]

/-- A loop over batches, each of which stands for some rows. -/
theorem foldlM_forall₂ {R : List α → β → Prop} {parts : List (List α)} {out : List β}
    {g : σ → β → Except ε σ} {h : σ → α → σ} (hg : ∀ s rows b, R rows b → g s b = .ok (rows.foldl h s))
    (hparts : List.Forall₂ R parts out) (s : σ) :
    out.foldlM g s = .ok (parts.flatten.foldl h s) := by
  induction hparts generalizing s with
  | nil => rfl
  | @cons rows b parts out hb _ ih =>
    rw [List.foldlM_cons, hg s rows b hb, List.flatten_cons, List.foldl_append]
    exact ih _

end Loops

end Columnar
