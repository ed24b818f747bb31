import Vectorlink.Concurrent.Runs
import Vectorlink.Ranking.Recency
import Vectorlink.Store.Statistics

/-! The cache of dataset handles keeps the handles used last. -/
namespace Vectorlink

open Ranking

variable {H : Type}

/-- What is done to the cache. -/
inductive DatasetCacheOp (H : Type) where
  | hit (domain : String)
  | insert (domain : String) (ds : H)
  | replace (domain : String) (ds : H)
  | remove (domain : String)

/-- A replaced handle is used, and so is one that an insert finds. -/
def DatasetCacheOp.event : DatasetCacheOp H → UseEvent String
  | .hit domain => .use domain
  | .insert domain _ => .use domain
  | .replace domain _ => .use domain
  | .remove domain => .drop domain

/-- The uses and removals, the latest first. -/
def history (ops : List (DatasetCacheOp H)) : List (UseEvent String) :=
  (ops.map DatasetCacheOp.event).reverse

theorem history_append (ops ops' : List (DatasetCacheOp H)) :
    history (ops ++ ops') = history ops' ++ history ops := by
  rw [history, List.map_append, List.reverse_append]
  rfl

namespace DatasetCache

variable {max n : ℕ} {c c' : DatasetCache H} {l m : List String} {d e : String}

/-- A hit needs a handle. -/
def step (max : ℕ) (c : DatasetCache H) : DatasetCacheOp H → Option (DatasetCache H)
  | .hit domain => (c.datasets.lookup domain).map (c.touchEntry domain)
  | .insert domain ds => some (c.insertCachedDataset max domain ds).2
  | .replace domain ds => some (c.replaceCachedDataset max domain ds)
  | .remove domain => some (c.removeDataset domain)

def stamp (c : DatasetCache H) (domain : String) : ℕ :=
  ((c.datasets.lookup domain).map DatasetCacheEntry.lastAccess).getD 0

/-- The handles after `n` stamps are those of `l`, in the order of their stamps, latest first. -/
structure Tracks (n : ℕ) (c : DatasetCache H) (l : List String) : Prop where
  keys : c.datasets.keys.Perm l
  seq : c.accessSeq = n % 2 ^ 64
  ordered : l.Pairwise fun d e => c.stamp e < c.stamp d
  below : ∀ d ∈ l, c.stamp d < n

section Stamps

theorem touchEntry_eq (entry : DatasetCacheEntry H) :
    c.touchEntry d entry = c.upsertEntry d entry.ds :=
  rfl

theorem stamp_upsertEntry_self (ds : H) : (c.upsertEntry d ds).stamp d = c.accessSeq := by
  rw [stamp, upsertEntry, AList.lookup_insert]
  rfl

theorem stamp_upsertEntry_ne (ds : H) (hne : e ≠ d) :
    (c.upsertEntry d ds).stamp e = c.stamp e := by
  rw [stamp, upsertEntry, AList.lookup_insert_ne hne, stamp]

theorem stamp_removeDataset_ne (hne : e ≠ d) : (c.removeDataset d).stamp e = c.stamp e := by
  rw [stamp, removeDataset, AList.lookup_erase_ne hne, stamp]

theorem stamp_of_mem_entries {entry : Sigma fun _ : String => DatasetCacheEntry H}
    (h : entry ∈ c.datasets.entries) : c.stamp entry.1 = entry.2.lastAccess := by
  have hlookup : c.datasets.lookup entry.1 = some entry.2 := AList.mem_lookup_iff.mpr h
  rw [stamp, hlookup]
  rfl

theorem mem_keys_of_lookup {entry : DatasetCacheEntry H}
    (hentry : c.datasets.lookup d = some entry) : d ∈ c.datasets.keys := by
  apply AList.mem_keys.mp
  apply AList.lookup_isSome.mp
  rw [hentry, Option.isSome_some]

theorem isSome_get : (c.get d).isSome ↔ d ∈ c.datasets.keys := by
  rw [get, Option.isSome_map, AList.lookup_isSome, AList.mem_keys]

end Stamps

namespace Tracks

theorem empty : Tracks 0 (DatasetCache.empty : DatasetCache H) [] where
  keys := .nil
  seq := rfl
  ordered := .nil
  below := by simp

theorem nodup (h : Tracks n c l) : l.Nodup := h.keys.nodup_iff.mp c.datasets.keys_nodup

theorem size_eq (h : Tracks n c l) : c.size = l.length := by
  have hlength := h.keys.length_eq
  rwa [AList.keys, List.keys, List.length_map] at hlength

theorem ne_of_mem_erase (h : Tracks n c l) (he : e ∈ l.erase d) : e ≠ d :=
  (h.nodup.mem_erase_iff.mp he).1

/-- Without `d` the rest is in order, also in a cache that has stamped or lost `d`. -/
theorem erase (h : Tracks n c l) (hsame : ∀ e ≠ d, c'.stamp e = c.stamp e) :
    ((l.erase d).Pairwise fun e e' => c'.stamp e' < c'.stamp e) ∧
      ∀ e ∈ l.erase d, c'.stamp e < n := by
  constructor
  · have hordered := h.ordered.sublist (List.erase_sublist (a := d))
    apply hordered.imp_of_mem
    intro e e' he he' hlt
    rwa [hsame e (h.ne_of_mem_erase he), hsame e' (h.ne_of_mem_erase he')]
  · intro e he
    rw [hsame e (h.ne_of_mem_erase he)]
    exact h.below e (List.mem_of_mem_erase he)

/-- A stamped handle comes to the front. -/
theorem upsert (h : Tracks n c l) (hn : n < 2 ^ 64) (ds : H) :
    Tracks (n + 1) (c.upsertEntry d ds) (d :: l.erase d) := by
  have hseq : c.accessSeq = n := by rw [h.seq, Nat.mod_eq_of_lt hn]
  have hself : (c.upsertEntry d ds).stamp d = n := by rw [stamp_upsertEntry_self, hseq]
  obtain ⟨hordered, hbelow⟩ := h.erase (d := d) fun e => stamp_upsertEntry_ne ds
  constructor
  · show (c.datasets.insert d _).keys.Perm _
    rw [AList.keys_insert]
    exact (h.keys.erase d).cons d
  · show (c.accessSeq + 1) % 2 ^ 64 = (n + 1) % 2 ^ 64
    rw [hseq]
  · apply List.pairwise_cons.mpr
    refine ⟨fun e he => ?_, hordered⟩
    rw [hself]
    exact hbelow e he
  · intro e he
    rw [List.mem_cons] at he
    cases he with
    | inl heq =>
      rw [heq, hself]
      omega
    | inr he =>
      have hlt := hbelow e he
      omega

theorem remove (h : Tracks n c l) (d : String) : Tracks n (c.removeDataset d) (l.erase d) := by
  obtain ⟨hordered, hbelow⟩ := h.erase (d := d) fun e => stamp_removeDataset_ne
  constructor
  · show (c.datasets.erase d).keys.Perm _
    rw [AList.keys_erase]
    exact h.keys.erase d
  · exact h.seq
  · exact hordered
  · exact hbelow

/-- The smallest stamp is that of the handle used least recently. -/
theorem oldest_eq (h : Tracks n c (l ++ [d])) : c.oldest = some d := by
  have hkeys (e : String) : e ∈ c.datasets.keys ↔ e ∈ l ++ [d] := h.keys.mem_iff
  have hd : d ∈ c.datasets.keys := by simp [hkeys]
  obtain ⟨entry, hentry, hfst⟩ := List.mem_map.mp hd
  cases hmin : c.datasets.entries.argmin fun e => e.2.lastAccess with
  | none =>
    rw [List.argmin_eq_none] at hmin
    rw [hmin] at hentry
    cases hentry
  | some least =>
    have hleast := List.argmin_mem hmin
    have hle := List.le_of_mem_argmin hentry hmin
    rw [← stamp_of_mem_entries hleast, ← stamp_of_mem_entries hentry, hfst] at hle
    have hmem : least.1 ∈ l ++ [d] := (hkeys _).mp (List.mem_map_of_mem hleast)
    rw [List.mem_append, List.mem_singleton] at hmem
    have heq : least.1 = d := by
      apply hmem.resolve_left
      intro hl
      have hlt := (List.pairwise_append.mp h.ordered).2.2 least.1 hl d (List.mem_singleton_self d)
      omega
    rw [oldest, hmin, Option.map_some, heq]

theorem removeOldest (h : Tracks n c (l ++ [d])) : Tracks n c.removeOldest l := by
  have hnot : d ∉ l := by
    intro hd
    exact (List.nodup_append.mp h.nodup).2.2 d hd d (List.mem_singleton_self d) rfl
  have herase : (l ++ [d]).erase d = l := by
    rw [List.erase_append_right _ hnot, List.erase_cons_head, List.append_nil]
  have hremove := h.remove d
  rw [herase] at hremove
  rw [DatasetCache.removeOldest, h.oldest_eq]
  exact hremove

theorem iterate_removeOldest (h : Tracks n c (l ++ m)) :
    Tracks n (DatasetCache.removeOldest^[m.length] c) l := by
  induction m using List.reverseRecOn generalizing c with
  | nil => rwa [List.append_nil] at h
  | append_singleton m d ih =>
    rw [← List.append_assoc] at h
    rw [List.length_append, List.length_singleton, Function.iterate_succ_apply]
    exact ih h.removeOldest

/-- The loop leaves the handles used last. -/
theorem evict (h : Tracks n c l) : Tracks n (c.evictLruIfOver max) (l.take max) := by
  have hsplit : Tracks n c (l.take max ++ l.drop max) := by rwa [List.take_append_drop]
  rw [evictLruIfOver, h.size_eq, ← List.length_drop]
  exact hsplit.iterate_removeOldest

end Tracks

section Steps

variable {es : List (UseEvent String)} {op : DatasetCacheOp H} {ops : List (DatasetCacheOp H)}

/-- The handle is there, and nothing is given up for it. -/
theorem Tracks.use_of_mem (h : Tracks n c (kept max es)) (hn : n < 2 ^ 64)
    (hd : d ∈ c.datasets.keys) (ds : H) :
    Tracks (n + 1) (c.upsertEntry d ds) (kept max (.use d :: es)) := by
  rw [kept_use_of_mem (h.keys.mem_iff.mp hd)]
  exact h.upsert hn ds

theorem Tracks.use (h : Tracks n c (kept max es)) (hn : n < 2 ^ 64) (ds : H) :
    Tracks (n + 1) ((c.upsertEntry d ds).evictLruIfOver max) (kept max (.use d :: es)) :=
  (h.upsert hn ds).evict

/-- Each operation stamps once at most. -/
theorem Tracks.after_step (h : Tracks n c (kept max es)) (hn : n < 2 ^ 64)
    (hstep : c.step max op = some c') :
    ∃ n' ≤ n + 1, Tracks n' c' (kept max (op.event :: es)) := by
  cases op with
  | hit d =>
    obtain ⟨entry, hentry, rfl⟩ := Option.map_eq_some_iff.mp hstep
    exact ⟨n + 1, Nat.le_refl _, h.use_of_mem hn (mem_keys_of_lookup hentry) entry.ds⟩
  | insert d ds =>
    obtain rfl := Option.some.inj hstep
    refine ⟨n + 1, Nat.le_refl _, ?_⟩
    cases hentry : c.datasets.lookup d with
    | some entry =>
      simp only [insertCachedDataset, hentry]
      exact h.use_of_mem hn (mem_keys_of_lookup hentry) entry.ds
    | none =>
      simp only [insertCachedDataset, hentry]
      exact h.use hn ds
  | replace d ds =>
    obtain rfl := Option.some.inj hstep
    exact ⟨n + 1, Nat.le_refl _, h.use hn ds⟩
  | remove d =>
    obtain rfl := Option.some.inj hstep
    exact ⟨n, Nat.le_succ n, h.remove d⟩

theorem Tracks.after_exec (h : Tracks n c (kept max es)) (hn : n + ops.length ≤ 2 ^ 64)
    (hexec : Concurrent.exec (step max) c ops = some c') :
    ∃ n' ≤ n + ops.length, Tracks n' c' (kept max (history ops ++ es)) := by
  induction ops generalizing n c es with
  | nil =>
    obtain rfl := Option.some.inj hexec
    exact ⟨n, Nat.le_refl _, h⟩
  | cons op ops ih =>
    obtain ⟨c₁, hstep, hrest⟩ := Option.bind_eq_some_iff.mp hexec
    rw [List.length_cons] at hn
    obtain ⟨n₁, hn₁, h₁⟩ := h.after_step (by omega) hstep
    obtain ⟨n', hn', h'⟩ := ih h₁ (by omega) hrest
    rw [← List.singleton_append, history_append, List.append_assoc]
    refine ⟨n', ?_, h'⟩
    rw [List.length_append, List.length_singleton]
    omega

/-- As long as the stamps have not wrapped. -/
theorem exists_tracks (hops : ops.length ≤ 2 ^ 64)
    (hexec : Concurrent.exec (step max) DatasetCache.empty ops = some c) :
    ∃ n, Tracks n c (kept max (history ops)) := by
  have hstart : Tracks 0 (DatasetCache.empty : DatasetCache H) (kept max []) := .empty
  obtain ⟨n, _, h⟩ := hstart.after_exec (by omega) hexec
  rw [List.append_nil] at h
  exact ⟨n, h⟩

end Steps

/-- What holds of the cache after the operations. -/
structure ExactLru (max : ℕ) (ops : List (DatasetCacheOp H)) (c : DatasetCache H) : Prop where
  bounded : c.size ≤ max
  /-- An insert leaves a handle of the domain, and does not put it in the place of another. -/
  inserted : ∀ before domain ds c', ops = before ++ [.insert domain ds] →
    Concurrent.exec (step max) DatasetCache.empty before = some c' →
    c.get domain = some ((c'.get domain).getD ds)
  /-- Nor does it touch the handles of the other domains that stay. -/
  untouched : ∀ before domain ds c' d h, ops = before ++ [.insert domain ds] →
    Concurrent.exec (step max) DatasetCache.empty before = some c' →
    d ≠ domain → c.get d = some h → c'.get d = some h
  replaced : ∀ before domain ds, ops = before ++ [.replace domain ds] → c.get domain = some ds
  /-- The domains present are the ones used last of those not removed since, -/
  usedLast : ∀ d, (c.get d).isSome ↔ d ∈ (recent (history ops)).take c.size
  /-- and those that were among the `max` used last at all times from their last use on. -/
  keptSince : ∀ d, (c.get d).isSome ↔ ∀ before after, ops = before ++ after →
    .use d ∉ history after → d ∈ (recent (history before)).take max

section Lru

variable {ds : H} {ops : List (DatasetCacheOp H)} {es : List (UseEvent String)}

/-- A handle that is kept is the one that the step left. -/
theorem get_evictLruIfOver_of_mem (hd : d ∈ (c.evictLruIfOver max).datasets.keys) :
    (c.evictLruIfOver max).get d = c.get d := by
  obtain ⟨h, hget⟩ := Option.isSome_iff_exists.mp (isSome_get.mpr hd)
  rw [hget, get_evictLruIfOver hget]

theorem mem_keys_of_kept (h : Tracks n c (kept max (.use d :: es))) (hmax : 1 ≤ max) :
    d ∈ c.datasets.keys := by
  apply h.keys.mem_iff.mpr
  obtain ⟨m, rfl⟩ := Nat.exists_eq_add_of_le' hmax
  rw [kept, List.take_succ_cons]
  exact List.mem_cons_self

/-- The last operation of a run. -/
theorem step_of_exec {op : DatasetCacheOp H}
    (hexec : Concurrent.exec (step max) DatasetCache.empty (ops ++ [op]) = some c) :
    ∃ c', Concurrent.exec (step max) DatasetCache.empty ops = some c' ∧
      c'.step max op = some c := by
  rw [Concurrent.exec_append] at hexec
  obtain ⟨c', hbefore, hlast⟩ := Option.bind_eq_some_iff.mp hexec
  obtain ⟨c'', hstep, hsame⟩ := Option.bind_eq_some_iff.mp hlast
  obtain rfl := Option.some.inj hsame
  exact ⟨c', hbefore, hstep⟩

theorem step_of_exec_before {op : DatasetCacheOp H}
    (hexec : Concurrent.exec (step max) DatasetCache.empty (ops ++ [op]) = some c)
    (hbefore : Concurrent.exec (step max) DatasetCache.empty ops = some c') :
    c'.step max op = some c := by
  obtain ⟨c'', hexec', hstep⟩ := step_of_exec hexec
  obtain rfl := Option.some.inj (hbefore.symm.trans hexec')
  exact hstep

theorem history_eq_append {later earlier : List (UseEvent String)}
    (h : history ops = later ++ earlier) :
    ∃ before after, ops = before ++ after ∧ history before = earlier ∧ history after = later := by
  have hmap : ops.map DatasetCacheOp.event = earlier.reverse ++ later.reverse := by
    rw [← List.reverse_append, ← h, history, List.reverse_reverse]
  obtain ⟨before, after, hops, hbefore, hafter⟩ := List.map_eq_append_iff.mp hmap
  refine ⟨before, after, hops, ?_, ?_⟩
  · rw [history, hbefore, List.reverse_reverse]
  · rw [history, hafter, List.reverse_reverse]

theorem mem_kept_history_iff : d ∈ kept max (history ops) ↔
    ∀ before after, ops = before ++ after → .use d ∉ history after →
      d ∈ (recent (history before)).take max := by
  rw [mem_kept_iff]
  constructor
  · intro h before after hops huse
    apply h (history after) (history before)
    · rw [hops, history_append]
    · exact huse
  · intro h later earlier hes huse
    obtain ⟨before, after, hops, rfl, rfl⟩ := history_eq_append hes
    exact h before after hops huse

theorem get_insert_self (hd : d ∈ (c.insertCachedDataset max d ds).2.datasets.keys) :
    (c.insertCachedDataset max d ds).2.get d = some ((c.get d).getD ds) := by
  cases hentry : c.datasets.lookup d with
  | some entry =>
    have hget : c.get d = some entry.ds := by rw [get, hentry, Option.map_some]
    simp only [insertCachedDataset, hentry]
    rw [get_touchEntry hentry, hget, Option.getD_some]
  | none =>
    have hget : c.get d = none := by rw [get, hentry, Option.map_none]
    simp only [insertCachedDataset, hentry] at hd ⊢
    rw [get_evictLruIfOver_of_mem hd, get_upsertEntry, if_pos rfl, hget, Option.getD_none]

/-- The cache gives up the handle used least recently, until the stamps wrap. -/
theorem exactLru_of_exec (hmax : 1 ≤ max) (hops : ops.length ≤ 2 ^ 64)
    (hexec : Concurrent.exec (step max) DatasetCache.empty ops = some c) : ExactLru max ops c := by
  obtain ⟨n, h⟩ := exists_tracks hops hexec
  have hpresent (d : String) : (c.get d).isSome ↔ d ∈ kept max (history ops) := by
    rw [isSome_get, h.keys.mem_iff]
  -- what was used by the last operation is there
  have hused {before : List (DatasetCacheOp H)} {op : DatasetCacheOp H} {d : String}
      (heq : ops = before ++ [op]) (hop : op.event = .use d) : d ∈ c.datasets.keys := by
    rw [heq, history_append] at h
    simp only [history, List.map_cons, List.map_nil, List.reverse_singleton, hop] at h
    exact mem_keys_of_kept h hmax
  constructor
  case bounded =>
    rw [h.size_eq]
    exact length_kept_le max (history ops)
  case inserted =>
    intro before d ds c' heq hbefore
    have hd := hused heq rfl
    rw [heq] at hexec
    obtain rfl := Option.some.inj (step_of_exec_before hexec hbefore)
    exact get_insert_self hd
  case untouched =>
    intro before domain ds c' d ds' heq hbefore hne hget
    rw [heq] at hexec
    obtain rfl := Option.some.inj (step_of_exec_before hexec hbefore)
    apply (get_insertCachedDataset hget).resolve_right
    intro hsame
    exact hne hsame.1
  case replaced =>
    intro before d ds heq
    have hd := hused heq rfl
    rw [heq] at hexec
    obtain ⟨c', _, hstep⟩ := step_of_exec hexec
    obtain rfl := Option.some.inj hstep
    show ((c'.upsertEntry d ds).evictLruIfOver max).get d = some ds
    rw [get_evictLruIfOver_of_mem hd, get_upsertEntry, if_pos rfl]
  case usedLast =>
    intro d
    have hstart := List.prefix_iff_eq_take.mp (kept_isPrefix max (history ops))
    rw [hpresent, h.size_eq, ← hstart]
  case keptSince =>
    intro d
    rw [hpresent]
    exact mem_kept_history_iff

/-- The handle of `a` is hit after that of `b`, which makes room for the third. -/
theorem exactLru_three :
    let ops : List (DatasetCacheOp ℕ) := [.insert "a" 1, .insert "b" 2, .hit "a", .insert "c" 3]
    ∃ c, Concurrent.exec (step 2) DatasetCache.empty ops = some c ∧
      (c.get "a").isSome ∧ c.get "b" = none ∧ c.get "c" = some 3 ∧ ExactLru 2 ops c :=
  ⟨_, rfl, by decide, by decide, by decide, exactLru_of_exec (by decide) (by decide) rfl⟩

end Lru

section Wrap

/-- A cache of one handle, stamped last. -/
def single (domain : String) (ds : H) (stamp : ℕ) : DatasetCache H :=
  upsertEntry ⟨∅, stamp⟩ domain ds

theorem hits_single (ds : H) {k n : ℕ} (hk : k + n < 2 ^ 64) :
    Concurrent.exec (step 1) (single d ds k) (List.replicate n (.hit d)) =
      some (single d ds (k + n)) := by
  induction n generalizing k with
  | zero => rfl
  | succ n ih =>
    have hlookup : (single d ds k).datasets.lookup d = some ⟨ds, k⟩ := AList.lookup_insert _
    have hseq : (k + 1) % 2 ^ 64 = k + 1 := Nat.mod_eq_of_lt (by omega)
    have hhit : (single d ds k).step 1 (.hit d) = some (single d ds (k + 1)) := by
      simp only [step, hlookup, Option.map_some, touchEntry_eq]
      simp only [single, upsertEntry, nextSeq, AList.insert_insert, hseq]
    rw [List.replicate_succ, Concurrent.exec, hhit, Option.bind_some, ih (by omega)]
    congr 2
    omega

/-- The operations that use up the stamps. -/
def untilWrap : List (DatasetCacheOp Unit) :=
  .insert "a" () :: List.replicate (2 ^ 64 - 1) (.hit "a")

theorem exec_untilWrap : Concurrent.exec (step 1) DatasetCache.empty untilWrap =
    some (single "a" () (2 ^ 64 - 1)) := by
  have hfirst : step 1 DatasetCache.empty (.insert "a" ()) = some (single "a" () 0) := by
    have hsize : (single "a" () 0).size = 1 := rfl
    show some ((single "a" () 0).evictLruIfOver 1) = some (single "a" () 0)
    rw [evictLruIfOver, hsize, Nat.sub_self, Function.iterate_zero, id_eq]
  rw [untilWrap, Concurrent.exec, hfirst, Option.bind_some, hits_single () (by omega), Nat.zero_add]

/-- The handle that gets the first stamp after the counter has wrapped is given up at once. -/
theorem not_exactLru : ¬ ∀ (max : ℕ) (ops : List (DatasetCacheOp Unit)) (c : DatasetCache Unit),
    1 ≤ max → Concurrent.exec (step max) DatasetCache.empty ops = some c → ExactLru max ops c := by
  intro h
  have hlast : ((single "a" () (2 ^ 64 - 1)).insertCachedDataset 1 "b" ()).2.get "b" = none := by
    decide +kernel
  have hexec : Concurrent.exec (step 1) DatasetCache.empty (untilWrap ++ [.insert "b" ()]) =
      some ((single "a" () (2 ^ 64 - 1)).insertCachedDataset 1 "b" ()).2 := by
    rw [Concurrent.exec_append, exec_untilWrap]
    rfl
  have hlru := h 1 _ _ (Nat.le_refl 1) hexec
  have hget := hlru.inserted untilWrap "b" () _ rfl exec_untilWrap
  rw [hlast] at hget
  cases hget

end Wrap

end DatasetCache

namespace BaseDir

variable (max : ℕ) (disk : BaseDir) (c : DatasetCache DatasetHandle) (domain : String)

/-- A dataset that is not there is created, which gives `created`. -/
def ioOpenDataset (baseDir : String) (readOnly : Bool) (created : Except String DatasetHandle) :
    Except StoreError DatasetHandle × DatasetCache DatasetHandle :=
  match c.datasets.lookup domain with
  | some entry => (.ok entry.ds, c.touchEntry domain entry)
  | none =>
    let opened : Except StoreError DatasetHandle :=
      if disk.pathExists domain then disk.ioOpenFresh domain
      else do
        ensureWritable baseDir readOnly
        created.mapError fun e => .internal s!"failed to create dataset: {e}" none
    match opened with
    | .error e => (.error e, c)
    | .ok ds => (c.insertCachedDataset max domain ds).map .ok id

def ioRefreshCachedDataset : Except StoreError Unit × DatasetCache DatasetHandle :=
  if disk.pathExists domain then
    match disk.ioOpenFresh domain with
    | .error e => (.error e, c)
    | .ok ds => (.ok (), c.replaceCachedDataset max domain ds)
  else (.ok (), c)

/-- A request leaves the cache as it is, or takes one step on it. -/
def OneStep (c c' : DatasetCache DatasetHandle) : Prop :=
  c' = c ∨ ∃ op, c.step max op = some c'

variable {max disk c domain}

theorem oneStep_hit {entry : DatasetCacheEntry DatasetHandle}
    (hentry : c.datasets.lookup domain = some entry) : OneStep max c (c.touchEntry domain entry) := by
  apply Or.inr
  refine ⟨.hit domain, ?_⟩
  rw [DatasetCache.step, hentry, Option.map_some]

theorem oneStep_insert (ds : DatasetHandle) :
    OneStep max c (c.insertCachedDataset max domain ds).2 :=
  .inr ⟨.insert domain ds, rfl⟩

theorem ioOpenDataset_oneStep (baseDir : String) (readOnly : Bool)
    (created : Except String DatasetHandle) :
    OneStep max c (disk.ioOpenDataset max c domain baseDir readOnly created).2 := by
  unfold ioOpenDataset
  split
  · next entry hentry => exact oneStep_hit hentry
  · dsimp only
    split
    · exact .inl rfl
    · next ds _ => exact oneStep_insert ds

theorem ioOpenDatasetReadonly_oneStep :
    OneStep max c (disk.ioOpenDatasetReadonly max c domain).2 := by
  unfold ioOpenDatasetReadonly
  split
  · next entry hentry => exact oneStep_hit hentry
  · split
    · split
      · exact .inl rfl
      · next ds _ => exact oneStep_insert ds
    · exact .inl rfl

theorem ioRefreshCachedDataset_oneStep :
    OneStep max c (disk.ioRefreshCachedDataset max c domain).2 := by
  unfold ioRefreshCachedDataset
  split
  · split
    · exact .inl rfl
    · next ds _ => exact .inr ⟨.replace domain ds, rfl⟩
  · exact .inl rfl

end BaseDir

end Vectorlink
