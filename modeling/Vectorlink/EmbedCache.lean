import Mathlib.Data.List.AList
import Vectorlink.Concurrent.Runs
import Vectorlink.Text.Bytes

/-! The embedding cache: vectors under the hash of their text in a sled tree, with a counter of
the entries that all clones of a cache share. -/
namespace Vectorlink

/-- A float of 32 bits by its bits. -/
abbrev F32 := UInt32

abbrev CacheKey := Vector UInt8 32

def toLeBytes (x : F32) : List UInt8 :=
  [UInt8.ofNat x.toNat, UInt8.ofNat (x.toNat / 256), UInt8.ofNat (x.toNat / 65536),
    UInt8.ofNat (x.toNat / 16777216)]

def fromLeBytes (a b c d : UInt8) : F32 :=
  UInt32.ofNat (a.toNat + 256 * b.toNat + 65536 * c.toNat + 16777216 * d.toNat)

/-- Whole floats; bytes that are left over are dropped. -/
def floatsOf : List UInt8 → List F32
  | a :: b :: c :: d :: rest => fromLeBytes a b c d :: floatsOf rest
  | _ => []

/-- The digest and the compression that the cache is built on. -/
structure CacheEnv where
  sha256 : List UInt8 → CacheKey
  compressToVec : List UInt8 → List UInt8
  decompressZstd : List UInt8 → Option (List UInt8)

def CacheEnv.cacheKey (env : CacheEnv) (model prefixedText : String) : CacheKey :=
  env.sha256 (Text.bytes model ++ Text.bytes "\n" ++ Text.bytes prefixedText)

/-- What all clones of a cache share: the sled tree and the counter. -/
structure CacheStore where
  tree : AList fun _ : CacheKey => List UInt8
  entryCount : UInt64

/-- One clone of a cache. `db` says whether it has a sled database. -/
structure CacheHandle where
  db : Bool
  enabled : Bool
  lockedElsewhere : Bool
deriving DecidableEq

/-- How sled comes up: with the database, with the lock held by another process, or not. -/
inductive SledOpen where
  | db
  | locked
  | failed
deriving DecidableEq

/-- The counter value for "not yet initialized". -/
def usizeMax : UInt64 := 18446744073709551615

namespace CacheHandle

def disabled : CacheHandle := ⟨false, false, false⟩

/-- The handle and the counter that `EmbedCache::open` makes; other errors of sled panic. -/
def openCache (maxEntries : Option ℕ) (result : SledOpen) : Option (CacheHandle × UInt64) :=
  match maxEntries with
  | none => some (disabled, 0)
  | some _ =>
    match result with
    | .db => some (⟨true, true, false⟩, usizeMax)
    | .locked => some ({ disabled with lockedElsewhere := true }, 0)
    | .failed => none

variable (env : CacheEnv) (handle : CacheHandle) (store : CacheStore)

/-- `readable` says whether sled's read succeeds. -/
def get (key : CacheKey) (expectedDim : ℕ) (readable : Bool) : Option (List F32) :=
  if handle.enabled && handle.db && readable then do
    let compressed ← store.tree.lookup key
    let decompressed ← env.decompressZstd compressed
    if decompressed.length ≠ expectedDim * 4 then none else some (floatsOf decompressed)
  else none

/-- `stored` says whether sled's insert succeeds; one that fails counts as new. -/
def put (key : CacheKey) (embedding : List F32) (stored : Bool) : CacheStore :=
  if handle.enabled && handle.db then
    let compressed := env.compressToVec (embedding.flatMap toLeBytes)
    let wasNew := !stored || (store.tree.lookup key).isNone
    { tree := if stored then store.tree.insert key compressed else store.tree
      entryCount := if wasNew then store.entryCount + 1 else store.entryCount }
  else store

/-- The number that is returned, and the counter set by the first call. -/
def len : UInt64 × CacheStore :=
  if !handle.enabled then (0, store)
  else if store.entryCount ≠ usizeMax then (store.entryCount, store)
  else if handle.db then
    let count := UInt64.ofNat store.tree.entries.length
    (count, { store with entryCount := count })
  else (0, store)

end CacheHandle

section Runs

/-- A cache with its clones. -/
structure CacheSystem where
  handles : List CacheHandle
  store : CacheStore

inductive CacheOp where
  | put (handle : ℕ) (key : CacheKey) (embedding : List F32) (stored : Bool)
  | get (handle : ℕ) (key : CacheKey) (expectedDim : ℕ) (readable : Bool)
  | len (handle : ℕ)
  | clone (handle : ℕ)
deriving DecidableEq

/-- An operation on one of the clones. -/
def CacheSystem.step (env : CacheEnv) (s : CacheSystem) : CacheOp → Option CacheSystem
  | .put i key embedding stored =>
    s.handles[i]?.map fun handle =>
      { s with store := handle.put env s.store key embedding stored }
  | .get i _ _ _ => s.handles[i]?.map fun _ => s
  | .len i => s.handles[i]?.map fun handle => { s with store := (handle.len s.store).2 }
  | .clone i => s.handles[i]?.map fun handle => { s with handles := s.handles ++ [handle] }

/-- Sled stores what is put, and the entries were counted before a new one comes. -/
def CountedFirst (s : CacheSystem) : CacheOp → Prop
  | .put _ key _ stored =>
    stored = true ∧ ((s.store.tree.lookup key).isSome ∨ s.store.entryCount ≠ usizeMax)
  | _ => True

/-- The number of keys, as the counter has it. -/
def CacheStore.keyCount (store : CacheStore) : UInt64 := UInt64.ofNat store.tree.entries.length

/-- The counter is not initialized, or it is right. -/
def CacheStore.Counted (store : CacheStore) : Prop :=
  store.entryCount = usizeMax ∨ store.entryCount = store.keyCount

theorem len_eq_of_counted {handle : CacheHandle} {store : CacheStore} (hdb : handle.db = true)
    (henabled : handle.enabled = true) (h : store.Counted) :
    (handle.len store).1 = store.keyCount := by
  unfold CacheHandle.len
  rw [henabled, hdb]
  by_cases hcount : store.entryCount = usizeMax
  · simp only [hcount, ne_eq, not_true, Bool.not_true]
    rfl
  · have hright : store.entryCount = store.keyCount := h.resolve_left hcount
    simpa only [hcount, ne_eq, not_false_eq_true, if_true, Bool.not_true, Bool.false_eq_true,
      if_false] using hright

theorem counted_len (handle : CacheHandle) {store : CacheStore} (h : store.Counted) :
    (handle.len store).2.Counted := by
  unfold CacheHandle.len
  split
  · exact h
  · split
    · exact h
    · split
      · exact .inr rfl
      · exact h

theorem length_entries_insert {κ : Type} [DecidableEq κ] {β : Type} (tree : AList fun _ : κ => β)
    (key : κ) (value : β) : (tree.insert key value).entries.length =
      if (tree.lookup key).isSome then tree.entries.length else tree.entries.length + 1 := by
  rw [AList.entries_insert, List.length_cons]
  split
  · rename_i hkey
    have hmem : key ∈ tree.entries.keys := AList.lookup_isSome.mp hkey
    obtain ⟨_, before, after, -, hentries, hkept⟩ := List.exists_of_kerase hmem
    rw [hkept, hentries, List.length_append, List.length_append, List.length_cons]
    omega
  · rename_i hkey
    have hmem : key ∉ tree.entries.keys := fun h => hkey (AList.lookup_isSome.mpr h)
    rw [List.kerase_of_notMem_keys hmem]

/-- A put keeps the counter right if it meets the condition. -/
theorem counted_put (env : CacheEnv) (handle : CacheHandle) {store : CacheStore}
    {key : CacheKey} (embedding : List F32) (h : store.Counted)
    (hkey : (store.tree.lookup key).isSome ∨ store.entryCount ≠ usizeMax) :
    (handle.put env store key embedding true).Counted := by
  unfold CacheHandle.put
  split
  · cases hlookup : store.tree.lookup key with
    | some old =>
      have hlength : (store.tree.insert key (env.compressToVec
          (embedding.flatMap toLeBytes))).entries.length = store.tree.entries.length := by
        rw [length_entries_insert, hlookup, if_pos Option.isSome_some]
      unfold CacheStore.Counted CacheStore.keyCount
      simp only [Bool.not_true, Bool.false_or, Option.isNone_some, Bool.false_eq_true, if_false,
        if_true, hlength]
      exact h
    | none =>
      have hlength : (store.tree.insert key (env.compressToVec
          (embedding.flatMap toLeBytes))).entries.length = store.tree.entries.length + 1 := by
        rw [length_entries_insert, hlookup, if_neg (by simp)]
      have hinit : store.entryCount ≠ usizeMax := by
        rw [hlookup] at hkey
        exact hkey.resolve_left (by simp)
      have hright : store.entryCount = store.keyCount := h.resolve_left hinit
      refine .inr ?_
      unfold CacheStore.keyCount at hright ⊢
      simp only [Bool.not_true, Bool.false_or, Option.isNone_none, if_true, hlength, hright]
      exact (UInt64.ofNat_add _ _).symm
  · exact h

section

variable {env : CacheEnv} {s s' : CacheSystem} {op : CacheOp}

/-- The clones of an enabled cache are enabled, and their counter is right. -/
structure CacheSystem.Sound (s : CacheSystem) : Prop where
  handles : ∀ handle ∈ s.handles, handle.db = true ∧ handle.enabled = true
  counted : s.store.Counted

theorem CacheSystem.Sound.step (h : s.Sound) (hop : CountedFirst s op)
    (hstep : s.step env op = some s') : s'.Sound := by
  cases op with
  | put i key embedding stored =>
    obtain ⟨handle, hhandle, rfl⟩ := Option.map_eq_some_iff.mp hstep
    obtain ⟨rfl, hkey⟩ := hop
    exact ⟨h.handles, counted_put env handle embedding h.counted hkey⟩
  | get i key expectedDim readable =>
    obtain ⟨handle, hhandle, rfl⟩ := Option.map_eq_some_iff.mp hstep
    exact h
  | len i =>
    obtain ⟨handle, hhandle, rfl⟩ := Option.map_eq_some_iff.mp hstep
    exact ⟨h.handles, counted_len handle h.counted⟩
  | clone i =>
    obtain ⟨handle, hhandle, rfl⟩ := Option.map_eq_some_iff.mp hstep
    refine ⟨fun other hother => ?_, h.counted⟩
    rcases List.mem_append.mp hother with hother | hother
    · exact h.handles other hother
    · rw [List.mem_singleton.mp hother]
      exact h.handles handle (List.mem_of_getElem? hhandle)

theorem CacheHandle.openCache_enabled {maxEntries : Option ℕ} {result : SledOpen}
    {handle : CacheHandle} {count : UInt64} (h : openCache maxEntries result = some (handle, count))
    (henabled : handle.enabled = true) : handle.db = true ∧ count = usizeMax := by
  cases maxEntries with
  | none =>
    obtain ⟨rfl, rfl⟩ := Prod.mk.inj (Option.some.inj h)
    cases henabled
  | some n =>
    cases result with
    | db =>
      obtain ⟨rfl, rfl⟩ := Prod.mk.inj (Option.some.inj h)
      exact ⟨rfl, rfl⟩
    | locked =>
      obtain ⟨rfl, rfl⟩ := Prod.mk.inj (Option.some.inj h)
      cases henabled
    | failed => cases h

/-- In every run of an enabled cache in which the entries are counted before new ones come and
no insert fails, each clone gives the number of keys. -/
theorem cache_len_exact {maxEntries : Option ℕ} {result : SledOpen} {handle : CacheHandle}
    {count : UInt64} (tree : AList fun _ : CacheKey => List UInt8)
    (hopen : CacheHandle.openCache maxEntries result = some (handle, count))
    (henabled : handle.enabled = true)
    (hrun : Concurrent.Reaches (CacheSystem.step env) CountedFirst ⟨[handle], ⟨tree, count⟩⟩ s) :
    ∀ clone ∈ s.handles, (clone.len s.store).1 = s.store.keyCount := by
  obtain ⟨hdb, rfl⟩ := CacheHandle.openCache_enabled hopen henabled
  have hstart : CacheSystem.Sound ⟨[handle], ⟨tree, usizeMax⟩⟩ := by
    refine ⟨fun clone hclone => ?_, .inl rfl⟩
    rw [List.mem_singleton.mp hclone]
    exact ⟨hdb, henabled⟩
  have hsound : s.Sound := hrun.invariant hstart fun t op u ht hop hstep => ht.step hop hstep
  intro clone hclone
  obtain ⟨hdb', henabled'⟩ := hsound.handles clone hclone
  exact len_eq_of_counted hdb' henabled' hsound.counted

end

end Runs

section Samples

def plainCache : CacheEnv := ⟨fun _ => Vector.replicate 32 0, id, some⟩

def firstKey : CacheKey := Vector.replicate 32 1

def secondKey : CacheKey := Vector.replicate 32 2

/-- An empty cache that has just been opened. -/
def freshCache : CacheSystem := ⟨[⟨true, true, false⟩], ⟨∅, usizeMax⟩⟩

/-- The entries are counted first; then a clone and the cache itself put two keys. -/
def countedRun : List CacheOp :=
  [.len 0, .clone 0, .put 1 firstKey [7] true, .put 0 secondKey [8] true,
    .put 1 firstKey [9] true, .get 0 secondKey 1 true]

theorem cache_len_exact_counted :
    ∃ s, Concurrent.exec (CacheSystem.step plainCache) freshCache countedRun = some s ∧
      s.store.tree.entries.length = 2 ∧
      ∀ clone ∈ s.handles, (clone.len s.store).1 = s.store.keyCount := by
  have hrun : ∀ s, Concurrent.exec (CacheSystem.step plainCache) freshCache countedRun = some s →
      Concurrent.Reaches (CacheSystem.step plainCache) CountedFirst freshCache s := fun s h =>
    Concurrent.Reaches.of_exec (by
      refine ⟨trivial, trivial, ⟨rfl, .inr (by decide)⟩, ⟨rfl, .inr (by decide)⟩,
        ⟨rfl, .inl (by decide)⟩, trivial, trivial⟩) h
  have hopen : CacheHandle.openCache (some 1000) .db = some (⟨true, true, false⟩, usizeMax) := rfl
  obtain ⟨s, hs⟩ : ∃ s, Concurrent.exec (CacheSystem.step plainCache) freshCache countedRun =
      some s := ⟨_, rfl⟩
  have hlength : (Concurrent.exec (CacheSystem.step plainCache) freshCache countedRun).map
      (fun s => s.store.tree.entries.length) = some 2 := by decide
  rw [hs] at hlength
  exact ⟨s, hs, Option.some.inj hlength, cache_len_exact ∅ hopen rfl (hrun s hs)⟩

/-- A key that is put before the entries were counted is not counted. -/
theorem cache_len_not_exact :
    (Concurrent.exec (CacheSystem.step plainCache) freshCache [.put 0 firstKey [7] true]).map
      (fun s => (s.handles.map fun clone => (clone.len s.store).1, s.store.tree.entries.length)) =
        some ([0], 1) := by
  decide

end Samples

end Vectorlink
