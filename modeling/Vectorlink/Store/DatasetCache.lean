import Mathlib.Algebra.Group.Nat.Defs
import Mathlib.Data.List.AList
import Mathlib.Data.List.MinMax

/-! The cache of open dataset handles, which gives up the handle used least recently. -/
namespace Vectorlink

/-- A handle with the stamp of its last use, a `u64` that wraps. -/
structure DatasetCacheEntry (H : Type) where
  ds : H
  lastAccess : ℕ
deriving DecidableEq, Repr

/-- The handles by domain, and the source of their stamps. -/
structure DatasetCache (H : Type) where
  datasets : AList fun _ : String => DatasetCacheEntry H
  accessSeq : ℕ

namespace DatasetCache

variable {H : Type}

def empty : DatasetCache H := ⟨∅, 0⟩

def nextSeq (c : DatasetCache H) : ℕ := (c.accessSeq + 1) % 2 ^ 64

def size (c : DatasetCache H) : ℕ := c.datasets.entries.length

def get (c : DatasetCache H) (domain : String) : Option H :=
  (c.datasets.lookup domain).map DatasetCacheEntry.ds

/-- Bump the stamp on a hit. -/
def touchEntry (c : DatasetCache H) (domain : String) (entry : DatasetCacheEntry H) :
    DatasetCache H :=
  ⟨c.datasets.insert domain { entry with lastAccess := c.accessSeq }, c.nextSeq⟩

def upsertEntry (c : DatasetCache H) (domain : String) (ds : H) : DatasetCache H :=
  ⟨c.datasets.insert domain ⟨ds, c.accessSeq⟩, c.nextSeq⟩

/-- The domain with the smallest stamp. -/
def oldest (c : DatasetCache H) : Option String :=
  (c.datasets.entries.argmin fun e => e.2.lastAccess).map Sigma.fst

def removeOldest (c : DatasetCache H) : DatasetCache H :=
  match c.oldest with
  | some domain => { c with datasets := c.datasets.erase domain }
  | none => c

/-- The loop goes on while the cache is over the bound, and one handle goes in each pass. -/
def evictLruIfOver (max : ℕ) (c : DatasetCache H) : DatasetCache H :=
  removeOldest^[c.size - max] c

/-- A handle that is there already is kept. -/
def insertCachedDataset (max : ℕ) (c : DatasetCache H) (domain : String) (ds : H) :
    H × DatasetCache H :=
  match c.datasets.lookup domain with
  | some existing => (existing.ds, c.touchEntry domain existing)
  | none => (ds, (c.upsertEntry domain ds).evictLruIfOver max)

/-- The handle that was there is given up. -/
def replaceCachedDataset (max : ℕ) (c : DatasetCache H) (domain : String) (ds : H) :
    DatasetCache H :=
  (c.upsertEntry domain ds).evictLruIfOver max

/-- The handle of a deleted domain goes with it. -/
def removeDataset (c : DatasetCache H) (domain : String) : DatasetCache H :=
  { c with datasets := c.datasets.erase domain }

section Lookup

variable {c : DatasetCache H} {domain d : String} {entry : DatasetCacheEntry H} {ds h : H}

theorem get_removeOldest (hget : c.removeOldest.get d = some h) : c.get d = some h := by
  unfold removeOldest at hget
  split at hget
  · next domain _ =>
    unfold get at hget
    by_cases hd : d = domain
    · rw [hd, AList.lookup_erase] at hget
      cases hget
    · rw [AList.lookup_erase_ne hd] at hget
      exact hget
  · exact hget

theorem get_iterate_removeOldest (n : ℕ) (hget : (removeOldest^[n] c).get d = some h) :
    c.get d = some h := by
  induction n with
  | zero => exact hget
  | succ n ih =>
    rw [Function.iterate_succ_apply'] at hget
    exact ih (get_removeOldest hget)

/-- Nothing is left in the cache that was not there. -/
theorem get_evictLruIfOver {max : ℕ} (hget : (c.evictLruIfOver max).get d = some h) :
    c.get d = some h :=
  get_iterate_removeOldest _ hget

theorem get_touchEntry (hentry : c.datasets.lookup domain = some entry) :
    (c.touchEntry domain entry).get d = c.get d := by
  unfold get touchEntry
  by_cases hd : d = domain
  · rw [hd, AList.lookup_insert, hentry]
    rfl
  · rw [AList.lookup_insert_ne hd]

theorem get_upsertEntry : (c.upsertEntry domain ds).get d = if d = domain then some ds else c.get d := by
  unfold get upsertEntry
  split
  · next hd =>
    rw [hd, AList.lookup_insert]
    rfl
  · next hd => rw [AList.lookup_insert_ne hd]

/-- What is in the cache after an insert was there before, or is the handle that was given. -/
theorem get_insertCachedDataset {max : ℕ}
    (hget : (c.insertCachedDataset max domain ds).2.get d = some h) :
    c.get d = some h ∨ (d = domain ∧ h = ds) := by
  unfold insertCachedDataset at hget
  split at hget
  · next entry hentry =>
    rw [get_touchEntry hentry] at hget
    exact .inl hget
  · have hup := get_evictLruIfOver hget
    rw [get_upsertEntry] at hup
    split at hup
    · next hd => exact .inr ⟨hd, (Option.some.inj hup).symm⟩
    · exact .inl hup

end Lookup

end DatasetCache

end Vectorlink
