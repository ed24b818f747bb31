import Mathlib.Algebra.Order.BigOperators.Group.List
import Vectorlink.Store.Statistics

/-! When the statistics do not depend on what is cached. -/
namespace Vectorlink

namespace BaseDir

variable (disk : BaseDir)

/-- What a domain's directory opens as. -/
def opens (d : String) : Option DatasetHandle := (disk.ioOpenFresh d).toOption

/-- The domains that a handle is asked for: those of requests and those found on disk. -/
def Known (d : String) : Prop := IsDomain d ∨ d ∈ disk.discovered

/-- The cached handles are those that the disk gives. -/
def Consistent (c : DatasetCache DatasetHandle) : Prop :=
  ∀ d h, c.get d = some h → disk.Known d ∧ disk.opens d = some h

/-- A count of the dataset of a domain, if it opens. -/
def tally (f : DatasetHandle → ℕ) (d : String) : ℕ := (disk.opens d).elim 0 f

section Names

variable {disk} {d d' : String}

theorem mem_discovered (h : d ∈ disk.discovered) :
    decodeDomainPath (encodeDomainPath d) = some d ∧ disk.pathExists d = true := by
  obtain ⟨name, hname, hdecode⟩ := List.mem_filterMap.mp h
  obtain ⟨d₀, hd₀, rfl⟩ := disk.made name hname
  rw [decode_datasetDir] at hdecode
  have hsame := encodeDomainPath_of_decode hd₀ hdecode
  rw [hsame, pathExists, decide_eq_true_eq, datasetDir_inj.mpr hsame]
  exact ⟨hdecode, hname⟩

theorem discovered_inj (h : d ∈ disk.discovered) (h' : d' ∈ disk.discovered)
    (hsame : encodeDomainPath d = encodeDomainPath d') : d = d' := by
  have hd := (mem_discovered h).1
  rw [hsame, (mem_discovered h').1] at hd
  exact (Option.some.inj hd).symm

variable (disk) in
theorem nodup_discovered : disk.discovered.Nodup := by
  rw [discovered, discoverOnDiskDatasets, List.Nodup, List.pairwise_filterMap]
  refine disk.nodup.imp_of_mem fun {name name'} hname hname' hne d hd d' hd' heq => hne ?_
  obtain ⟨d₀, hd₀, rfl⟩ := disk.made name hname
  obtain ⟨d₁, hd₁, rfl⟩ := disk.made name' hname'
  rw [decode_datasetDir] at hd hd'
  rw [datasetDir_inj, ← encodeDomainPath_of_decode hd₀ hd, heq, encodeDomainPath_of_decode hd₁ hd']

theorem discovered_of_separated (hd : IsDomain d) (hsep : Separated d)
    (hexists : disk.pathExists d = true) : d ∈ disk.discovered := by
  refine List.mem_filterMap.mpr ⟨datasetDir d, of_decide_eq_true hexists, ?_⟩
  rw [decode_datasetDir]
  exact decodeDomainPath_encodeDomainPath hd hsep

theorem opens_congr (h : encodeDomainPath d = encodeDomainPath d') : disk.opens d = disk.opens d' := by
  rw [opens, ioOpenFresh, pathExists, datasetDir_inj.mpr h]
  rfl

theorem pathExists_of_opens {h : DatasetHandle} (hopens : disk.opens d = some h) :
    disk.pathExists d = true := by
  unfold opens ioOpenFresh at hopens
  split at hopens
  · assumption
  · cases hopens

end Names

section Open

variable {disk} {max : ℕ} {c : DatasetCache DatasetHandle} {d : String}

variable (disk) in
theorem consistent_empty : disk.Consistent .empty := by
  intro d h hget
  cases hget

theorem Consistent.touch {entry : DatasetCacheEntry DatasetHandle} (hc : disk.Consistent c)
    (hentry : c.datasets.lookup d = some entry) : disk.Consistent (c.touchEntry d entry) := by
  intro d' h hget
  rw [DatasetCache.get_touchEntry hentry] at hget
  exact hc d' h hget

theorem Consistent.insert {h : DatasetHandle} (hc : disk.Consistent c) (hd : disk.Known d)
    (hopens : disk.opens d = some h) : disk.Consistent (c.insertCachedDataset max d h).2 := by
  intro d' h' hget
  rcases DatasetCache.get_insertCachedDataset hget with hget | ⟨rfl, rfl⟩
  · exact hc d' h' hget
  · exact ⟨hd, hopens⟩

variable (max) in
theorem open_of_opens {h : DatasetHandle} (hc : disk.Consistent c) (hd : disk.Known d)
    (hopens : disk.opens d = some h) :
    ∃ c', disk.ioOpenDatasetReadonly max c d = (.ok (some h), c') ∧ disk.Consistent c' := by
  unfold ioOpenDatasetReadonly
  cases hlookup : c.datasets.lookup d with
  | some entry =>
    have hentry : disk.opens d = some entry.ds := (hc d entry.ds (by simp [DatasetCache.get, hlookup])).2
    obtain rfl := Option.some.inj (hopens.symm.trans hentry)
    exact ⟨_, rfl, hc.touch hlookup⟩
  | none =>
    have hfresh : disk.ioOpenFresh d = .ok h := by
      cases hf : disk.ioOpenFresh d with
      | error e => simp [opens, hf, Except.toOption] at hopens
      | ok h' =>
        rw [opens, hf] at hopens
        rw [Option.some.inj hopens]
    refine ⟨(c.insertCachedDataset max d h).2, ?_, hc.insert hd hopens⟩
    simp only [if_pos (pathExists_of_opens hopens), hfresh]
    simp [DatasetCache.insertCachedDataset, hlookup, Prod.map]

variable (max) in
theorem open_of_not_opens (hc : disk.Consistent c) (hopens : disk.opens d = none) :
    ∃ r, disk.ioOpenDatasetReadonly max c d = (r, c) ∧ ∀ h, r ≠ .ok (some h) := by
  unfold ioOpenDatasetReadonly
  cases hlookup : c.datasets.lookup d with
  | some entry =>
    have hentry := (hc d entry.ds (by simp [DatasetCache.get, hlookup])).2
    rw [hopens] at hentry
    cases hentry
  | none =>
    cases hf : disk.ioOpenFresh d with
    | ok h => simp [opens, hf, Except.toOption] at hopens
    | error e =>
      by_cases hexists : disk.pathExists d = true
      · exact ⟨.error e, by simp [hexists], fun h => by simp⟩
      · exact ⟨.ok none, by simp [hexists], fun h => by simp⟩

end Open

section Totals

variable {disk} {max : ℕ} {c : DatasetCache DatasetHandle} {d : String} {h : DatasetHandle}

theorem tally_of_opens (f : DatasetHandle → ℕ) (hopens : disk.opens d = some h) :
    disk.tally f d = f h := by
  rw [tally, hopens]
  rfl

theorem tally_of_not_opens (f : DatasetHandle → ℕ) (hopens : disk.opens d = none) :
    disk.tally f d = 0 := by
  rw [tally, hopens]
  rfl

theorem ioOpenFresh_of_not_opens (hopens : disk.opens d = none) :
    ∃ e, disk.ioOpenFresh d = .error e := by
  cases hfresh : disk.ioOpenFresh d with
  | ok h => simp [opens, hfresh, Except.toOption] at hopens
  | error e => exact ⟨e, rfl⟩

theorem Consistent.get_of_not_opens (hc : disk.Consistent c) (hopens : disk.opens d = none) :
    c.get d = none := by
  by_contra hget
  obtain ⟨h, hget⟩ := Option.ne_none_iff_exists'.mp hget
  have hsome := (hc d h hget).2
  rw [hopens] at hsome
  cases hsome

theorem countDatasetRows_of_not_opens (hopens : disk.opens d = none) :
    disk.countDatasetRows d = 0 := by
  obtain ⟨e, hfresh⟩ := ioOpenFresh_of_not_opens hopens
  rw [countDatasetRows, hfresh]

/-- A count over a list of domains. -/
def tallies (disk : BaseDir) (f : DatasetHandle → ℕ) (l : List String) : ℕ :=
  (l.map (disk.tally f)).sum

theorem tallies_cons (f : DatasetHandle → ℕ) (l : List String) :
    disk.tallies f (d :: l) = disk.tally f d + disk.tallies f l := by
  rw [tallies, List.map_cons, List.sum_cons, tallies]

theorem tallies_append (f : DatasetHandle → ℕ) (l l' : List String) :
    disk.tallies f (l ++ l') = disk.tallies f l + disk.tallies f l' := by
  rw [tallies, List.map_append, List.sum_append, tallies, tallies]

variable (max) in
/-- The loop adds the datasets that were not cached, and keeps the cache consistent. -/
theorem countUncached_spec (cachedDomains : List String) {onDisk : List String} (n : Totals)
    (hknown : ∀ d ∈ onDisk, disk.Known d) (hc : disk.Consistent c) :
    ∃ c', disk.Consistent c' ∧ disk.countUncached max cachedDomains onDisk (n, c) =
      ({ indexedCommits := n.indexedCommits +
          disk.tallies DatasetHandle.taggedCommits (onDisk.filter (· ∉ cachedDomains))
         chunks := n.chunks
         physical := n.physical +
          disk.tallies DatasetHandle.physicalRows (onDisk.filter (· ∉ cachedDomains))
         deleted := n.deleted +
          disk.tallies DatasetHandle.deletions (onDisk.filter (· ∉ cachedDomains)) }, c') := by
  induction onDisk generalizing n c with
  | nil => exact ⟨c, hc, rfl⟩
  | cons d onDisk ih =>
    have hrest := fun d' hd' => hknown d' (List.mem_cons_of_mem _ hd')
    unfold countUncached
    by_cases hd : d ∈ cachedDomains
    · rw [if_pos hd, List.filter_cons_of_neg (by simpa using hd)]
      exact ih n hrest hc
    · rw [if_neg hd, List.filter_cons_of_pos (by simpa using hd)]
      simp only [tallies_cons]
      cases hopens : disk.opens d with
      | some h =>
        obtain ⟨c₁, hopen, hc₁⟩ := open_of_opens max hc (hknown d List.mem_cons_self) hopens
        obtain ⟨c', hc', heq⟩ := ih { n with
          physical := n.physical + h.physicalRows
          deleted := n.deleted + h.deletions
          indexedCommits := n.indexedCommits + h.taggedCommits } hrest hc₁
        refine ⟨c', hc', ?_⟩
        simp only [hopen, heq, tally_of_opens _ hopens, Nat.add_assoc]
      | none =>
        obtain ⟨r, hopen, hr⟩ := open_of_not_opens max hc hopens
        obtain ⟨c', hc', heq⟩ := ih n hrest hc
        refine ⟨c', hc', ?_⟩
        rw [hopen, countDatasetRows_of_not_opens hopens]
        simp only [tally_of_not_opens _ hopens, Nat.zero_add, Nat.add_zero]
        exact heq

theorem Consistent.get_key (hc : disk.Consistent c) (hd : d ∈ c.datasets.keys) :
    disk.Known d ∧ ∃ h, c.get d = some h ∧ disk.opens d = some h := by
  obtain ⟨entry, hentry⟩ := Option.isSome_iff_exists.mp (AList.lookup_isSome.mpr hd)
  have hget : c.get d = some entry.ds := by rw [DatasetCache.get, hentry]; rfl
  obtain ⟨hknown, hopens⟩ := hc d _ hget
  exact ⟨hknown, entry.ds, hget, hopens⟩

/-- The handles in the cache count as their datasets on disk do. -/
theorem Consistent.sum_handles (hc : disk.Consistent c) (f : DatasetHandle → ℕ) :
    (c.datasets.entries.map fun e => f e.2.ds).sum = disk.tallies f c.datasets.keys := by
  rw [tallies, AList.keys, List.keys, List.map_map]
  congr 1
  refine List.map_congr_left fun e he => ?_
  have hget : c.get e.1 = some e.2.ds := by
    rw [DatasetCache.get, AList.mem_lookup_iff.mpr he]
    rfl
  exact (tally_of_opens f (hc _ _ hget).2).symm

end Totals

section Answers

variable {disk} {max : ℕ} {m : StoreMemory} {storeClustering : String → Bool} {d : String}

/-- The commits that the branch map counts. -/
def mapCommits (entries : List (Sigma fun _ : String × BranchName => BranchIndex)) : ℕ :=
  (entries.filter fun e => e.2.commit.isSome).length

variable (max) in
theorem statistics_spec (hc : disk.Consistent m.datasets) :
    ∃ c' s, disk.Consistent c' ∧ disk.statistics max m = (s, ⟨c', m.branchIndexes⟩) ∧
      s.domains = (m.datasets.datasets.keys ++ m.branchIndexes.entries.map (fun e => e.1.1) ++
        disk.discovered).toFinset.card ∧
      s.indexedCommits = mapCommits m.branchIndexes.entries + disk.tallies
        DatasetHandle.taggedCommits (disk.discovered.filter (· ∉ m.datasets.datasets.keys)) ∧
      s.chunks = disk.tallies DatasetHandle.physicalRows (m.datasets.datasets.keys ++
          disk.discovered.filter (· ∉ m.datasets.datasets.keys)) -
        disk.tallies DatasetHandle.deletions (m.datasets.datasets.keys ++
          disk.discovered.filter (· ∉ m.datasets.datasets.keys)) ∧
      s.pendingIndexFragments = disk.tallies (fun h => h.pending.1) m.datasets.datasets.keys ∧
      s.pendingIndexDocuments = disk.tallies (fun h => h.pending.2) m.datasets.datasets.keys := by
  obtain ⟨c', hc', heq⟩ := countUncached_spec max m.datasets.datasets.keys
    { indexedCommits := mapCommits m.branchIndexes.entries
      chunks := 0
      physical := ((m.datasets.datasets.entries.map fun e => e.2.ds).map
        DatasetHandle.physicalRows).sum
      deleted := ((m.datasets.datasets.entries.map fun e => e.2.ds).map
        DatasetHandle.deletions).sum }
    (fun d hd => .inr hd) hc
  unfold mapCommits at heq
  refine ⟨c', _, hc', by rw [statistics, heq], rfl, rfl, ?_, ?_, ?_⟩
  · simp only [Totals.live, List.map_map, Function.comp_def, hc.sum_handles, tallies_append,
      Nat.zero_add]
  · simp only [List.map_map, Function.comp_def]
    exact hc.sum_handles fun ds => ds.pending.1
  · simp only [List.map_map, Function.comp_def]
    exact hc.sum_handles fun ds => ds.pending.2

/-- The commits of a domain: its tags where they are read. -/
def commitsOr (disk : BaseDir) (d : String) (n : ℕ) : ℕ :=
  match disk.opens d with
  | some h => (h.tags.toOption.map List.length).getD n
  | none => n

variable (max) in
theorem countOnDisk_spec (hc : disk.Consistent m.datasets) (hd : disk.Known d) (n : ℕ) :
    ∃ c' n', disk.Consistent c' ∧
      disk.countOnDisk max m.datasets d ⟨n, 0, (m.datasets.get d).elim 0 DatasetHandle.physicalRows,
        (m.datasets.get d).elim 0 DatasetHandle.deletions⟩ = (n', c') ∧
      n'.live = disk.tally (fun h => h.physicalRows - h.deletions) d ∧
      (n'.indexedCommits = n ∨ n'.indexedCommits = disk.commitsOr d n) := by
  unfold countOnDisk
  dsimp only
  split
  · next hcond =>
    cases hopens : disk.opens d with
    | some h =>
      obtain ⟨c', hopen, hc'⟩ := open_of_opens max hc hd hopens
      refine ⟨c', _, hc', by rw [hopen], ?_, .inr ?_⟩
      · rw [tally_of_opens _ hopens]
        cases hget : m.datasets.get d with
        | none => simp [Totals.live]
        | some h' =>
          obtain rfl := Option.some.inj ((hc d h' hget).2.symm.trans hopens)
          have hzero : h'.physicalRows = 0 := by simpa [hget] using hcond.1
          simp [Totals.live, hzero]
      · rw [commitsOr, hopens]
    | none =>
      obtain ⟨r, hopen, hr⟩ := open_of_not_opens max hc hopens
      obtain ⟨e, hfresh⟩ := ioOpenFresh_of_not_opens hopens
      rw [hopen, hc.get_of_not_opens hopens, hfresh]
      refine ⟨m.datasets, ⟨n, 0, 0, 0⟩, hc, ?_, ?_, .inl rfl⟩
      · simp only [countDatasetRows_of_not_opens hopens, Option.elim_none]
      · rw [tally_of_not_opens _ hopens]
        rfl
  · next hcond =>
    refine ⟨_, _, hc, rfl, ?_, .inl rfl⟩
    cases hget : m.datasets.get d with
    | some h =>
      rw [tally_of_opens _ (hc d h hget).2]
      simp [Totals.live]
    | none =>
      have hopens : disk.opens d = none := by
        rw [opens, ioOpenFresh, if_neg fun hexists => hcond ⟨by rw [hget]; rfl, hexists⟩]
        rfl
      rw [tally_of_not_opens _ hopens]
      rfl

variable (max storeClustering) in
theorem statisticsForDomain_spec (hc : disk.Consistent m.datasets) (hd : disk.Known d) :
    ∃ c' s, disk.Consistent c' ∧
      disk.statisticsForDomain max storeClustering d m = (s, ⟨c', m.branchIndexes⟩) ∧
      (s.domains = if (m.datasets.get d).isSome ∨
        (m.branchIndexes.entries.filter fun e => e.1.1 = d) ≠ [] ∨ disk.pathExists d then 1 else 0) ∧
      (∀ n, n = mapCommits (m.branchIndexes.entries.filter fun e => e.1.1 = d) →
        s.indexedCommits = n ∨ s.indexedCommits = disk.commitsOr d n) ∧
      s.chunks = disk.tally (fun h => h.physicalRows - h.deletions) d ∧
      s.pendingIndexFragments = (m.datasets.get d).elim 0 (fun h => h.pending.1) ∧
      s.pendingIndexDocuments = (m.datasets.get d).elim 0 (fun h => h.pending.2) := by
  obtain ⟨c', n', hc', heq, hlive, hcommits⟩ := countOnDisk_spec max hc hd
    (mapCommits (m.branchIndexes.entries.filter fun e => e.1.1 = d))
  unfold mapCommits at heq
  refine ⟨c', _, hc', by rw [statisticsForDomain, heq], rfl, fun n hn => ?_, hlive, ?_, ?_⟩
  · rw [hn]
    exact hcommits
  · cases m.datasets.get d <;> rfl
  · cases m.datasets.get d <;> rfl

end Answers

/-- The counts that are to be the same whatever is cached. -/
def counts (s : StoreStatistics) : ℕ × ℕ × ℕ × ℕ × ℕ :=
  (s.domains, s.indexedCommits, s.chunks, s.pendingIndexFragments, s.pendingIndexDocuments)

inductive StatsCall where
  | all
  | forDomain (d : String) (hd : IsDomain d)

/-- What happens between two calls when nothing is written. -/
inductive StatsEvent where
  | call (call : StatsCall)
  | restart

section Independence

variable (max : ℕ) (storeClustering : String → Bool)

def answer (m : StoreMemory) : StatsCall → StoreStatistics × StoreMemory
  | .all => disk.statistics max m
  | .forDomain d _ => disk.statisticsForDomain max storeClustering d m

def after (m : StoreMemory) : List StatsEvent → StoreMemory
  | [] => m
  | .call call :: events => after (disk.answer max storeClustering m call).2 events
  | .restart :: events => after .restart events

/-- Neither the content of the cache nor calls or restarts change the counts. -/
structure CacheIndependent (indexes : AList fun _ : String × BranchName => BranchIndex) : Prop where
  cached : ∀ c c', disk.Consistent c → disk.Consistent c' → ∀ call,
    counts (disk.answer max storeClustering ⟨c, indexes⟩ call).1 =
      counts (disk.answer max storeClustering ⟨c', indexes⟩ call).1
  later : ∀ c, disk.Consistent c → ∀ events call,
    counts (disk.answer max storeClustering
        (disk.after max storeClustering ⟨c, indexes⟩ events) call).1 =
      counts (disk.answer max storeClustering ⟨c, indexes⟩ call).1

/-- No dataset that opens has anything which only one way of counting sees, each is found on disk
under its own domain, and the branch map knows of no commit and of no other domain. -/
structure CountsAgree (indexes : AList fun _ : String × BranchName => BranchIndex) : Prop where
  separated : ∀ d h, IsDomain d → disk.opens d = some h → Separated d
  untagged : ∀ d h, IsDomain d → disk.opens d = some h → h.taggedCommits = 0
  indexed : ∀ d h, IsDomain d → disk.opens d = some h → h.pending = (0, 0)
  branches : ∀ e ∈ indexes.entries, e.1.1 ∈ disk.discovered ∧ e.2.commit = none

variable {disk max storeClustering} {indexes : AList fun _ : String × BranchName => BranchIndex}
  {m : StoreMemory} {d : String} {h : DatasetHandle}

theorem CountsAgree.isDomain (hagree : disk.CountsAgree indexes) (hd : disk.Known d)
    (hopens : disk.opens d = some h) : IsDomain d ∧ d ∈ disk.discovered := by
  have hfound (d : String) (hd : IsDomain d) (hopens : disk.opens d = some h) :
      d ∈ disk.discovered :=
    discovered_of_separated hd (hagree.separated d h hd hopens) (pathExists_of_opens hopens)
  rcases hd with hd | hd
  · exact ⟨hd, hfound d hd hopens⟩
  · obtain ⟨d₀, hd₀, hname⟩ := disk.made _ (of_decide_eq_true (mem_discovered hd).2)
    have hsame := datasetDir_inj.mp hname
    have hd₀' := hfound d₀ hd₀ ((opens_congr hsame).trans hopens)
    obtain rfl := discovered_inj hd₀' hd hsame
    exact ⟨hd₀, hd⟩

theorem CountsAgree.restart (hagree : disk.CountsAgree indexes) : disk.CountsAgree ∅ :=
  ⟨hagree.separated, hagree.untagged, hagree.indexed, fun e he => by cases he⟩

theorem perm_filter_append {α : Type} [DecidableEq α] {keys l : List α} (hkeys : keys.Nodup)
    (hl : l.Nodup) (hsub : keys ⊆ l) : (keys ++ l.filter (· ∉ keys)).Perm l := by
  have hdisjoint : keys.Disjoint (l.filter (· ∉ keys)) := by
    intro x hx hx'
    simp [hx] at hx'
  rw [List.perm_ext_iff_of_nodup (hkeys.append (hl.filter _) hdisjoint) hl]
  intro x
  rw [List.mem_append, List.mem_filter, decide_eq_true_eq]
  constructor
  · rintro (hx | hx)
    · exact hsub hx
    · exact hx.1
  · intro hx
    by_cases hkey : x ∈ keys
    · exact .inl hkey
    · exact .inr ⟨hx, hkey⟩

theorem tallies_perm (f : DatasetHandle → ℕ) {l l' : List String} (hp : l.Perm l') :
    disk.tallies f l = disk.tallies f l' :=
  (hp.map _).sum_eq

theorem tallies_eq_zero {f : DatasetHandle → ℕ} {l : List String}
    (hzero : ∀ d ∈ l, ∀ h, disk.opens d = some h → f h = 0) : disk.tallies f l = 0 := by
  refine List.sum_eq_zero fun n hn => ?_
  obtain ⟨d, hd, rfl⟩ := List.mem_map.mp hn
  cases hopens : disk.opens d with
  | none => exact tally_of_not_opens f hopens
  | some h => rw [tally_of_opens f hopens, hzero d hd h hopens]

theorem mapCommits_eq_zero_iff {entries : List (Sigma fun _ : String × BranchName => BranchIndex)} :
    mapCommits entries = 0 ↔ ∀ e ∈ entries, e.2.commit = none := by
  rw [mapCommits, List.length_eq_zero_iff, List.filter_eq_nil_iff]
  simp

/-- The counts that the disk alone gives. -/
def onDisk (disk : BaseDir) : StatsCall → ℕ × ℕ × ℕ × ℕ × ℕ
  | .all => (disk.discovered.length, 0, disk.tallies DatasetHandle.physicalRows disk.discovered -
      disk.tallies DatasetHandle.deletions disk.discovered, 0, 0)
  | .forDomain d _ => (if disk.pathExists d then 1 else 0, 0,
      disk.tally (fun h => h.physicalRows - h.deletions) d, 0, 0)

section Agree

variable (hagree : disk.CountsAgree m.branchIndexes) (hc : disk.Consistent m.datasets)

include hagree in
theorem CountsAgree.zero (hd : disk.Known d) (hopens : disk.opens d = some h) :
    h.taggedCommits = 0 ∧ h.pending = (0, 0) := by
  have hdomain := (hagree.isDomain hd hopens).1
  exact ⟨hagree.untagged d h hdomain hopens, hagree.indexed d h hdomain hopens⟩

include hagree hc

variable (max) in
theorem CountsAgree.statistics :
    ∃ c' s, disk.Consistent c' ∧ disk.statistics max m = (s, ⟨c', m.branchIndexes⟩) ∧
      counts s = disk.onDisk .all := by
  obtain ⟨c', s, hc', heq, hdomains, hcommits, hchunks, hfragments, hdocuments⟩ :=
    statistics_spec max hc
  have hkeys : m.datasets.datasets.keys ⊆ disk.discovered := by
    intro d hd
    obtain ⟨hknown, h, _, hopens⟩ := hc.get_key hd
    exact (hagree.isDomain hknown hopens).2
  have hpending (d : String) (hd : d ∈ m.datasets.datasets.keys) (h : DatasetHandle)
      (hopens : disk.opens d = some h) : h.pending = (0, 0) :=
    (hagree.zero (hc.get_key hd).1 hopens).2
  have hperm := perm_filter_append (AList.keys_nodup _) (nodup_discovered disk) hkeys
  refine ⟨c', s, hc', heq, ?_⟩
  have hall : (m.datasets.datasets.keys ++ m.branchIndexes.entries.map (fun e => e.1.1) ++
      disk.discovered).toFinset = disk.discovered.toFinset := by
    ext d
    simp only [List.mem_toFinset, List.mem_append, List.mem_map]
    constructor
    · rintro ((hd | ⟨e, he, rfl⟩) | hd)
      · exact hkeys hd
      · exact (hagree.branches e he).1
      · exact hd
    · exact .inr
  rw [hall, List.toFinset_card_of_nodup (nodup_discovered disk)] at hdomains
  rw [mapCommits_eq_zero_iff.mpr fun e he => (hagree.branches e he).2, tallies_eq_zero fun d hd h
    hopens => (hagree.zero (.inr (List.mem_of_mem_filter hd)) hopens).1] at hcommits
  rw [tallies_perm _ hperm, tallies_perm _ hperm] at hchunks
  rw [tallies_eq_zero fun d hd h hopens => by rw [hpending d hd h hopens]] at hfragments hdocuments
  rw [counts, hdomains, hcommits, hchunks, hfragments, hdocuments]
  rfl

variable (max storeClustering) in
theorem CountsAgree.statisticsForDomain (hd : IsDomain d) :
    ∃ c' s, disk.Consistent c' ∧
      disk.statisticsForDomain max storeClustering d m = (s, ⟨c', m.branchIndexes⟩) ∧
      counts s = disk.onDisk (.forDomain d hd) := by
  obtain ⟨c', s, hc', heq, hdomains, hcommits, hchunks, hfragments, hdocuments⟩ :=
    statisticsForDomain_spec max storeClustering hc (.inl hd)
  refine ⟨c', s, hc', heq, ?_⟩
  have hzero : mapCommits (m.branchIndexes.entries.filter fun e => e.1.1 = d) = 0 :=
    mapCommits_eq_zero_iff.mpr fun e he => (hagree.branches e (List.mem_of_mem_filter he)).2
  have hcommits' : s.indexedCommits = 0 := by
    rcases hcommits 0 hzero.symm with h | h
    · exact h
    · rw [h, commitsOr]
      cases hopens : disk.opens d with
      | none => rfl
      | some h => exact hagree.untagged d h hd hopens
  have hexists : ((m.datasets.get d).isSome ∨
      (m.branchIndexes.entries.filter fun e => e.1.1 = d) ≠ [] ∨ disk.pathExists d) ↔
        disk.pathExists d := by
    constructor
    · rintro (hget | hmap | hexists)
      · obtain ⟨h, hget⟩ := Option.isSome_iff_exists.mp hget
        exact pathExists_of_opens (hc d h hget).2
      · obtain ⟨e, he⟩ := List.exists_mem_of_ne_nil _ hmap
        obtain ⟨he, hed⟩ := List.mem_filter.mp he
        rw [← of_decide_eq_true hed]
        exact (mem_discovered (hagree.branches e he).1).2
      · exact hexists
    · exact fun hexists => .inr (.inr hexists)
  have hpending : (m.datasets.get d).elim 0 (fun h => h.pending.1) = 0 ∧
      (m.datasets.get d).elim 0 (fun h => h.pending.2) = 0 := by
    cases hget : m.datasets.get d with
    | none => exact ⟨rfl, rfl⟩
    | some h =>
      have hnone := hagree.indexed d h hd (hc d h hget).2
      simp [hnone]
  rw [hpending.1] at hfragments
  rw [hpending.2] at hdocuments
  rw [counts, hdomains, if_congr hexists rfl rfl, hcommits', hchunks, hfragments, hdocuments]
  rfl

variable (max storeClustering) in
/-- A call gives the counts of the disk, and leaves the cache consistent. -/
theorem CountsAgree.answer (call : StatsCall) :
    ∃ c' s, disk.Consistent c' ∧
      disk.answer max storeClustering m call = (s, ⟨c', m.branchIndexes⟩) ∧
      counts s = disk.onDisk call := by
  cases call with
  | all => exact hagree.statistics max hc
  | forDomain d hd => exact hagree.statisticsForDomain max storeClustering hc hd

variable (max storeClustering) in
theorem CountsAgree.after (events : List StatsEvent) :
    disk.CountsAgree (disk.after max storeClustering m events).branchIndexes ∧
      disk.Consistent (disk.after max storeClustering m events).datasets := by
  induction events generalizing m with
  | nil => exact ⟨hagree, hc⟩
  | cons event events ih =>
    cases event with
    | restart => exact ih hagree.restart (consistent_empty disk)
    | call call =>
      obtain ⟨c', s, hc', heq, _⟩ := hagree.answer max storeClustering hc call
      unfold BaseDir.after
      rw [heq]
      exact ih hagree hc'

end Agree

section Necessary

/-- A cache with one handle. -/
def single (d : String) (h : DatasetHandle) : DatasetCache DatasetHandle :=
  DatasetCache.upsertEntry .empty d h

theorem consistent_single (hd : disk.Known d) (hopens : disk.opens d = some h) :
    disk.Consistent (single d h) := by
  intro d' h' hget
  rw [single, DatasetCache.get_upsertEntry] at hget
  split at hget
  · next hsame =>
    obtain rfl := Option.some.inj hget
    rw [hsame]
    exact ⟨hd, hopens⟩
  · cases hget

theorem toFinset_subset_of_card {l l' : List String}
    (hcard : (l ++ l').toFinset.card = l'.toFinset.card) : l ⊆ l' := by
  have hsub : l'.toFinset ⊆ (l ++ l').toFinset := by
    rw [List.toFinset_append]
    exact Finset.subset_union_right
  have heq := Finset.eq_of_subset_of_card_le hsub hcard.le
  intro x hx
  rw [← List.mem_toFinset, heq]
  exact List.mem_toFinset.mpr (List.mem_append_left _ hx)

variable (hind : disk.CacheIndependent max storeClustering indexes)

include hind

/-- A restart forgets the branch map. -/
theorem CacheIndependent.branches (e) (he : e ∈ indexes.entries) :
    e.1.1 ∈ disk.discovered ∧ e.2.commit = none := by
  have hcounts := hind.later .empty (consistent_empty disk) [.restart] .all
  obtain ⟨_, s, _, heq, hdomains, hcommits, _⟩ :=
    statistics_spec max (m := ⟨.empty, indexes⟩) (consistent_empty disk)
  obtain ⟨_, s', _, heq', hdomains', hcommits', _⟩ :=
    statistics_spec max (m := .restart) (consistent_empty disk)
  change counts (disk.statistics max .restart).1 = counts (disk.statistics max ⟨.empty, indexes⟩).1
    at hcounts
  rw [heq, heq', counts, counts] at hcounts
  simp only [Prod.mk.injEq] at hcounts
  constructor
  · refine toFinset_subset_of_card (l := indexes.entries.map fun e => e.1.1) ?_
      (List.mem_map_of_mem he)
    exact hdomains.symm.trans (hcounts.1.symm.trans hdomains')
  · refine mapCommits_eq_zero_iff.mp ?_ e he
    have hzero : s'.indexedCommits = 0 + _ := hcommits'
    have hsame := hcounts.2.1
    rw [hzero, hcommits] at hsame
    exact (Nat.add_right_cancel hsame).symm

/-- A dataset is found on disk, and nothing in it is counted only where it is cached or only where
it is not. -/
theorem CacheIndependent.handle (hd : disk.Known d) (hopens : disk.opens d = some h) :
    d ∈ disk.discovered ∧ h.taggedCommits = 0 ∧ h.pending = (0, 0) := by
  have hcounts := hind.cached _ _ (consistent_single hd hopens) (consistent_empty disk) .all
  obtain ⟨_, s, _, heq, hdomains, hcommits, _, hfragments, hdocuments⟩ :=
    statistics_spec max (m := ⟨single d h, indexes⟩) (consistent_single hd hopens)
  obtain ⟨_, s', _, heq', hdomains', hcommits', _, hfragments', hdocuments'⟩ :=
    statistics_spec max (m := ⟨.empty, indexes⟩) (consistent_empty disk)
  change counts (disk.statistics max ⟨single d h, indexes⟩).1 =
    counts (disk.statistics max ⟨.empty, indexes⟩).1 at hcounts
  rw [heq, heq', counts, counts] at hcounts
  simp only [Prod.mk.injEq] at hcounts
  obtain ⟨hdomain, hcommit, _, hfragment, hdocument⟩ := hcounts
  have hsub : indexes.entries.map (fun e => e.1.1) ⊆ disk.discovered := by
    intro x hx
    obtain ⟨e, he, rfl⟩ := List.mem_map.mp hx
    exact (hind.branches e he).1
  have hfound : d ∈ disk.discovered := by
    have hmem : d ∈ indexes.entries.map (fun e => e.1.1) ++ disk.discovered :=
      toFinset_subset_of_card (l := [d]) (hdomains.symm.trans (hdomain.trans hdomains'))
        (List.mem_singleton_self d)
    exact (List.mem_append.mp hmem).elim (fun hx => hsub hx) id
  have hperm := perm_filter_append (List.nodup_singleton d) (nodup_discovered disk)
    (List.cons_subset.mpr ⟨hfound, List.nil_subset _⟩)
  have hall : disk.discovered.filter (· ∉ (DatasetCache.empty (H := DatasetHandle)).datasets.keys) =
      disk.discovered := List.filter_eq_self.mpr fun x _ => by
    change decide (x ∉ ([] : List String)) = true
    simp
  have hone (f : DatasetHandle → ℕ) : disk.tallies f [d] = f h := by
    rw [tallies, List.map_singleton, List.sum_singleton, tally_of_opens f hopens]
  refine ⟨hfound, ?_, Prod.ext ?_ ?_⟩
  · have hsplit : disk.tallies DatasetHandle.taggedCommits disk.discovered = h.taggedCommits +
        disk.tallies DatasetHandle.taggedCommits (disk.discovered.filter (· ∉ [d])) := by
      rw [← tallies_perm _ hperm, tallies_append, hone]
    have hleft : s.indexedCommits = mapCommits indexes.entries +
        disk.tallies DatasetHandle.taggedCommits (disk.discovered.filter (· ∉ [d])) := hcommits
    have hright : s'.indexedCommits = mapCommits indexes.entries +
        disk.tallies DatasetHandle.taggedCommits disk.discovered := by
      rw [hcommits', hall]
    omega
  · exact (hone _).symm.trans (hfragments.symm.trans (hfragment.trans hfragments'))
  · exact (hone _).symm.trans (hdocuments.symm.trans (hdocument.trans hdocuments'))

theorem CacheIndependent.countsAgree : disk.CountsAgree indexes where
  separated := by
    intro d h hd hopens
    by_contra hsep
    obtain ⟨d', hd', hsame, hne⟩ := exists_collision_of_not_separated hd hsep
    have hfound := (hind.handle (.inl hd) hopens).1
    have hfound' := (hind.handle (.inl hd') ((opens_congr hsame).trans hopens)).1
    exact hne (discovered_inj hfound' hfound hsame)
  untagged d h hd hopens := (hind.handle (.inl hd) hopens).2.1
  indexed d h hd hopens := (hind.handle (.inl hd) hopens).2.2
  branches := hind.branches

end Necessary

variable (disk max storeClustering indexes) in
/-- The two ways of counting agree only where there is nothing for them to disagree about. -/
theorem cacheIndependent_iff :
    disk.CacheIndependent max storeClustering indexes ↔ disk.CountsAgree indexes := by
  constructor
  · exact fun hind => hind.countsAgree
  · intro hagree
    have hcounts (m : StoreMemory) (hm : disk.CountsAgree m.branchIndexes)
        (hc : disk.Consistent m.datasets) (call : StatsCall) :
        counts (disk.answer max storeClustering m call).1 = disk.onDisk call := by
      obtain ⟨c', s, _, heq, hs⟩ := hm.answer max storeClustering hc call
      rw [heq, hs]
    constructor
    · intro c c' hc hc' call
      rw [hcounts ⟨c, indexes⟩ hagree hc, hcounts ⟨c', indexes⟩ hagree hc']
    · intro c hc events call
      have hafter := CountsAgree.after max storeClustering (m := ⟨c, indexes⟩) hagree hc events
      rw [hcounts _ hafter.1 hafter.2, hcounts ⟨c, indexes⟩ hagree hc]

end Independence

end BaseDir

section Samples

/-- Two rows in a fragment that the index does not cover, tagged as one commit. -/
def starWarsHandle : DatasetHandle where
  fragments := [⟨1, some 2, .ok 0⟩]
  indices := .ok [⟨vectorIndexName, some [0]⟩]
  tags := .ok ["c0"]
  docIds := .ok ["a", "b"]

theorem starWars_isDomain : IsDomain "admin/star_wars" :=
  isDomain_iff.mpr ⟨"admin", "star_wars", by decide, by decide, rfl⟩

def starWars : BaseDir where
  names := [datasetDir "admin/star_wars"]
  nodup := List.nodup_singleton _
  made := fun _ hname =>
    ⟨"admin/star_wars", starWars_isDomain, (List.mem_singleton.mp hname).symm⟩
  load _ := .ok starWarsHandle

theorem starWars_separated : Separated "admin/star_wars" := by
  have hlist : "admin/star_wars".toList =
      ['a', 'd', 'm', 'i', 'n', '/', 's', 't', 'a', 'r', '_', 'w', 'a', 'r', 's'] := rfl
  rw [Separated, hlist]
  refine ⟨?_, ?_, ?_⟩ <;> decide

theorem starWars_discovered : starWars.discovered = ["admin/star_wars"] := by
  have hname : starWars.names = ["admin/star_wars"].map datasetDir := rfl
  rw [BaseDir.discovered, hname]
  refine discoverOnDiskDatasets_dirs fun d hd => ?_
  rw [List.mem_singleton.mp hd]
  exact decodeDomainPath_encodeDomainPath starWars_isDomain starWars_separated

/-- The memory after the first call. -/
def starWarsCached : StoreMemory := ⟨BaseDir.single "admin/star_wars" starWarsHandle, ∅⟩

theorem starWars_opened :
    starWars.ioOpenDatasetReadonly 128 .empty "admin/star_wars" =
      (.ok (some starWarsHandle), starWarsCached.datasets) := by
  have hexists : starWars.pathExists "admin/star_wars" = true := by
    simp [BaseDir.pathExists, starWars]
  have hfresh : starWars.ioOpenFresh "admin/star_wars" = .ok starWarsHandle := by
    rw [BaseDir.ioOpenFresh, if_pos hexists]
    rfl
  unfold BaseDir.ioOpenDatasetReadonly
  rw [hexists, hfresh]
  rfl

/-- The first call counts the tag and no backlog, the second the backlog and no tag. -/
theorem second_statistics_differ :
    starWars.statistics 128 .restart = (⟨1, 0, 1, 0, 2, 0, 0, none⟩, starWarsCached) ∧
    (starWars.statistics 128 starWarsCached).1 = ⟨1, 0, 0, 0, 2, 1, 2, none⟩ ∧
    ¬ starWars.CacheIndependent 128 (fun _ => false) ∅ := by
  have hfirst : starWars.statistics 128 .restart = (⟨1, 0, 1, 0, 2, 0, 0, none⟩, starWarsCached) := by
    have hnone : "admin/star_wars" ∉ StoreMemory.restart.datasets.datasets.keys := List.not_mem_nil
    have hopened : starWars.ioOpenDatasetReadonly 128 StoreMemory.restart.datasets
        "admin/star_wars" = (.ok (some starWarsHandle), starWarsCached.datasets) := starWars_opened
    unfold BaseDir.statistics
    rw [starWars_discovered]
    dsimp only
    rw [BaseDir.countUncached, if_neg hnone, hopened]
    rfl
  have hsecond : (starWars.statistics 128 starWarsCached).1 = ⟨1, 0, 0, 0, 2, 1, 2, none⟩ := by
    unfold BaseDir.statistics
    rw [starWars_discovered]
    rfl
  refine ⟨hfirst, hsecond, fun hind => ?_⟩
  have hcounts := hind.later .empty (BaseDir.consistent_empty _) [.call .all] .all
  change BaseDir.counts (starWars.statistics 128 (starWars.statistics 128 .restart).2).1 =
    BaseDir.counts (starWars.statistics 128 .restart).1 at hcounts
  rw [hfirst, hsecond] at hcounts
  exact absurd hcounts (by decide)

end Samples

end Vectorlink
