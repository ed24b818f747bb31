import Vectorlink.Stepwise.Program
import Vectorlink.Store.Commit

/-! Index directories: what the manifests of a dataset refer to, the directories on disk, the
pruning of those that nothing refers to, and the integrity report. -/
namespace Vectorlink

open Stepwise Stepwise.Program Versioned

/-- An entry of a directory; `readable` is whether listing it gives an entry at all. -/
structure DirEntry where
  name : String
  readable : Bool
  isDir : Bool
deriving DecidableEq, Repr

def DirEntry.listed (e : DirEntry) : Bool := e.readable && e.isDir

/-- The names of the directories that a listing shows. -/
def dirNames (entries : List DirEntry) : List String :=
  (entries.filter DirEntry.listed).map DirEntry.name

/-- What is on disk for a domain. `uuids b v` are the indices of version `v` of branch `b`, a
missing directory is `none`. -/
structure DatasetDir (ρ : Type) where
  dataset : LanceDataset ρ
  uuids : BranchName → ℕ → List String
  indices : Option (List DirEntry)
  tree : Option (List (DirEntry × Option (List DirEntry)))
  data : Option (List DirEntry)
  versions : Option (List DirEntry)
  main_notMem : mainBranch ∉ dataset.branches

/-- What can be read, or fail to be read, of it. -/
inductive IndexRead where
  | dataset
  | tags
  | branches
  | branch (b : BranchName)
  | version (b : BranchName) (v : ℕ)
  | indexList (b : BranchName) (v : ℕ)
  | indicesDir
  | treeDir
  | branchIndicesDir (name : String)
  | dataDir
  | versionsDir
deriving DecidableEq, Repr

variable {ρ : Type}

section Collect

/-- A failed read ends a strict collection and is passed over by a lenient one. -/
def collectReads {κ ε α : Type} (strict : Bool) (read : κ → Except ε (List α)) :
    List κ → Except ε (List α)
  | [] => .ok []
  | k :: ks =>
    match read k with
    | .ok found => (collectReads strict read ks).map (found ++ ·)
    | .error e => if strict then .error e else collectReads strict read ks

/-- `by_branch.entry(b).or_default().push(contents.version)`. -/
def pushTag (byBranch : AList (fun _ : BranchName => List ℕ)) (contents : TagContents BranchName) :
    AList (fun _ : BranchName => List ℕ) :=
  let b := contents.branch.getD mainBranch
  byBranch.insert b ((byBranch.lookup b).getD [] ++ [contents.version])

/-- The tagged versions by branch. -/
def taggedByBranch (ds : LanceDataset ρ) : AList (fun _ : BranchName => List ℕ) :=
  ds.tags.entries.foldl (fun byBranch e => pushTag byBranch e.2) ∅

variable (unreadable : IndexRead → Bool) (d : DatasetDir ρ)

def readOf {α : Type} (read : IndexRead) (context : String) (a : α) : Except StoreError α :=
  if unreadable read then .error (.internal context (some .io)) else .ok a

def ioOpenFresh : Except StoreError Unit := readOf unreadable .dataset "dataset open failed" ()

def ioListBranches : Except StoreError (List BranchName) := do
  ioOpenFresh unreadable
  readOf unreadable .branches "list_branches failed" d.dataset.branches.keys

def DatasetDir.loadIndices (b : BranchName) (v : ℕ) (context : String) : Except StoreError (List String) :=
  readOf unreadable (.indexList b v) context (d.uuids b v)

/-- The version of the head, with the checkout that reads it. -/
def checkoutHead (b : BranchName) (context : String) : Except StoreError ℕ :=
  if b = mainBranch then .ok d.dataset.main.head
  else match d.dataset.branches.lookup b with
    | none => .error (.internal context (some .branchNotFound))
    | some l => readOf unreadable (.branch b) context l.head

def headUuids (b : BranchName) : Except StoreError (List String) := do
  let head ← checkoutHead unreadable d b
    s!"collect UUIDs (strict): checkout_branch '{b}' failed"
  d.loadIndices unreadable b head
    s!"collect UUIDs (strict): load_indices failed for HEAD on branch '{b}'"

def versionUuids (b : BranchName) (v : ℕ) : Except StoreError (List String) := do
  let context := s!"collect UUIDs (strict): checkout version {v} on branch '{b}' failed"
  if (d.dataset.rowsAt (wantBranch b) v).isNone then
    .error (.internal context (some .versionNotFound))
  readOf unreadable (.version b v) context ()
  d.loadIndices unreadable b v
    s!"collect UUIDs (strict): load_indices failed for version {v} on branch '{b}'"

def taggedUuids (strict : Bool) (e : BranchName × List ℕ) : Except StoreError (List String) := do
  let _ ← checkoutHead unreadable d e.1
    s!"collect UUIDs (strict): checkout_branch '{e.1}' for tagged versions failed"
  collectReads strict (versionUuids unreadable d e.1) e.2

def mainUuids : Except StoreError (List String) :=
  d.loadIndices unreadable mainBranch d.dataset.main.head
    "collect UUIDs (strict): load_indices failed for HEAD on main"

def collectLiveIndexUuids (strict : Bool) : Except StoreError (List String) := do
  ioOpenFresh unreadable
  readOf unreadable .tags "collect UUIDs: tag list failed" ()
  let allBranches ← ioListBranches unreadable d
  let main ← collectReads strict (fun _ : Unit => mainUuids unreadable d) [()]
  let heads ← collectReads strict (headUuids unreadable d) allBranches
  let tagged ← collectReads strict (taggedUuids unreadable d strict)
    ((taggedByBranch d.dataset).entries.map fun e => (e.1, e.2))
  .ok (main ++ heads ++ tagged).dedup

end Collect

section Prune

/-- A run of the pruning: each step removes one directory. -/
abbrev Prune (ρ α : Type) := Program DirEntry (Option (DatasetDir ρ)) StoreError α

def DatasetDir.removeIndexDir (d : DatasetDir ρ) (e : DirEntry) : DatasetDir ρ :=
  { d with indices := d.indices.map fun entries => entries.filter (· ≠ e) }

variable (baseDir : String) (readOnly : Bool) (unreadable : IndexRead → Bool)
  (removeFails : DirEntry → Bool)

/-- Whether the entry was removed. A failed removal is logged. -/
def pruneEntry (live : List String) (e : DirEntry) : Prune ρ Bool :=
  if e.readable = false then pure false
  else if e.isDir = false then pure false
  else if e.name ∈ live then pure false
  else do
    let removed ← attempt (step e fun s : Option (DatasetDir ρ) =>
      if removeFails e then .error (StoreError.internal "" (some .io))
      else .ok (s.map fun d => d.removeIndexDir e))
    pure removed.isOk

/-- What is read before the first removal: the live indices and the entries of `_indices`. -/
def pruneScan : Option (DatasetDir ρ) → Except StoreError (Option (List String × List DirEntry))
  | none => do
    ensureWritable baseDir readOnly
    .ok none
  | some d => do
    ensureWritable baseDir readOnly
    match d.indices with
    | none => .ok none
    | some entries => do
      let live ← collectLiveIndexUuids unreadable d true
      readOf unreadable .indicesDir "prune stale: read_dir failed" (some (live, entries))

def ioPruneStaleIndexDirs : Prune ρ ℕ := do
  match ← look (pruneScan baseDir readOnly unreadable) with
  | none => pure 0
  | some (live, entries) => do
    let removed ← forEach (pruneEntry removeFails live) entries
    pure (removed.count true)

end Prune

section Report

structure BranchInfo where
  name : String
  version : ℕ
deriving DecidableEq, Repr

structure IntegrityReport where
  domain : String
  branches : List BranchInfo
  taggedVersions : ℕ
  onDiskIndexDirs : List String
  referencedIndexUuids : List String
  staleIndexDirs : List String
  danglingIndexRefs : List String
  onDiskDataFiles : ℕ
  onDiskManifests : ℕ
  rebuildBranches : List BranchName
  orphanedTags : List String
  staleRebuildBranches : List BranchName
  ok : Bool
  warnings : List String
deriving DecidableEq, Repr

/-- `Path::extension`: what follows the last dot, unless the name starts with it. -/
def extension (name : String) : Option String :=
  let reversed := name.toList.reverse
  let ext := reversed.takeWhile (· ≠ '.')
  if (reversed.drop (ext.length + 1)).isEmpty then none else some (String.ofList ext.reverse)

variable (unreadable : IndexRead → Bool) (d : DatasetDir ρ)

/-- The directories under `_indices`. -/
def mainIndexDirs : Except StoreError (List String) :=
  match d.indices with
  | none => .ok []
  | some entries =>
    readOf unreadable .indicesDir "integrity: read _indices failed" (dirNames entries)

/-- The directories under `tree/<branch>/_indices`; what cannot be listed is passed over. -/
def branchIndexDirs : List String :=
  match d.tree with
  | none => []
  | some branches =>
    if unreadable .treeDir then []
    else branches.flatMap fun e =>
      if e.1.readable = false then []
      else match e.2 with
        | none => []
        | some entries =>
          if unreadable (.branchIndicesDir e.1.name) then [] else dirNames entries

/-- The files of a directory that have the extension; a missing directory has none. -/
def countFiles (read : IndexRead) (context : String) (dir : Option (List DirEntry))
    (ext : String) : Except StoreError ℕ :=
  match dir with
  | none => .ok 0
  | some entries =>
    readOf unreadable read context
      (entries.countP fun e => e.readable && extension e.name == some ext)

def branchInfos (ds : LanceDataset ρ) : List BranchInfo :=
  (taggedByBranch ds).entries.map fun e => ⟨e.1, e.2.foldl max 0⟩

def orphanedTagTexts (ds : LanceDataset ρ) (allBranches : List BranchName) : List String :=
  ds.tags.entries.filterMap fun e =>
    match e.2.branch with
    | none => none
    | some b =>
      if b ∈ allBranches then none
      else some s!"{encodeCommitTag e.1} (branch={b} version={e.2.version})"

def integrityWarnings (stale dangling : List String) (rebuilds : List BranchName)
    (orphaned : List String) (staleRebuilds : List BranchName) : List String :=
  (if stale.isEmpty then [] else
    [s!"{stale.length} stale index directories on disk not referenced by any tagged version"]) ++
  (if dangling.isEmpty then [] else
    [s!"{dangling.length} index UUIDs referenced by tagged manifests have no backing directory on " ++
      "disk (historical FTS may be degraded)"]) ++
  (if rebuilds.length ≤ 1 then [] else
    [s!"{rebuilds.length} rebuild branches exist (expected ≤1 after compaction)"]) ++
  (if orphaned.isEmpty then [] else
    [s!"{orphaned.length} tags point to non-existent branches (orphaned tags pin dead data)"]) ++
  (if staleRebuilds.isEmpty then [] else
    [s!"{staleRebuilds.length} rebuild branches have no tags (stale — should be deleted)"])

def ioIntegrityCheck (domain : String) :
    Option (DatasetDir ρ) → Except StoreError IntegrityReport
  | none => .ok {
      domain, branches := [], taggedVersions := 0, onDiskIndexDirs := [],
      referencedIndexUuids := [], staleIndexDirs := [], danglingIndexRefs := [],
      onDiskDataFiles := 0, onDiskManifests := 0, rebuildBranches := [], orphanedTags := [],
      staleRebuildBranches := [], ok := true, warnings := ["dataset does not exist on disk"] }
  | some d => do
    ioOpenFresh unreadable
    readOf unreadable .tags "integrity: tag list failed" ()
    let live ← collectLiveIndexUuids unreadable d false
    let mainDirs ← mainIndexDirs unreadable d
    let onDisk :=
      ((mainDirs ++ branchIndexDirs unreadable d).mergeSort fun a b => decide (a ≤ b)).dedup
    let stale := onDisk.filter (· ∉ live)
    let dangling := live.filter (· ∉ onDisk)
    let dataFiles ← countFiles unreadable .dataDir "integrity: read data dir failed" d.data "lance"
    let manifests ←
      countFiles unreadable .versionsDir "integrity: read _versions failed" d.versions "manifest"
    let allBranches ← ioListBranches unreadable d
    let rebuilds := allBranches.filter isCompactRebuildBranch
    let orphaned := orphanedTagTexts d.dataset allBranches
    let taggedBranches := d.dataset.tags.entries.filterMap fun e => e.2.branch
    let staleRebuilds := rebuilds.filter (· ∉ taggedBranches)
    .ok {
      domain, branches := branchInfos d.dataset, taggedVersions := d.dataset.tags.entries.length,
      onDiskIndexDirs := onDisk, referencedIndexUuids := live, staleIndexDirs := stale,
      danglingIndexRefs := dangling, onDiskDataFiles := dataFiles, onDiskManifests := manifests,
      rebuildBranches := rebuilds, orphanedTags := orphaned, staleRebuildBranches := staleRebuilds,
      ok := stale.isEmpty && dangling.isEmpty && decide (rebuilds.length ≤ 1) && orphaned.isEmpty &&
        staleRebuilds.isEmpty,
      warnings := integrityWarnings stale dangling rebuilds orphaned staleRebuilds }

end Report

end Vectorlink
