import Vectorlink.Kernel

/-! Commit tags and nearest-ancestor resolution. -/
namespace Vectorlink

def encodeByte (b : UInt8) : List Char :=
  let c := Char.ofNat b.toNat
  if c = '-' then ['-', '-']
  else if c.isAlphanum || c = '_' then [c]
  else ['-', Nat.digitChar (b.toNat / 16), Nat.digitChar (b.toNat % 16)]

/-- `c_` and the bytes of the commit id, those outside `[A-Za-z0-9_]` escaped. -/
def encodeCommitTag (commit : CommitId) : String :=
  String.ofList ("c_".toList ++ commit.toUTF8.toList.flatMap encodeByte)

/-- The cached last-indexed commit of a branch. -/
structure BranchIndex where
  commit : Option CommitId
  version : ℕ
deriving DecidableEq, Repr

inductive ResolvedLayer where
  | exact (commit : CommitId) (version : ℕ)
  | ancestor (servedCommit : CommitId) (version : ℕ)
  | none
deriving DecidableEq, Repr

/-- The first of `ancestors` that `resolve` knows, nearest first. -/
def resolveNearestLayer (requestedCommit : CommitId) (ancestors : List CommitId)
    (resolve : CommitId → Option ℕ) : ResolvedLayer :=
  match resolve requestedCommit with
  | some version => .exact requestedCommit version
  | none =>
    match ancestors.findSome? fun a => (resolve a).map (a, ·) with
    | some (servedCommit, version) => .ancestor servedCommit version
    | none => .none

end Vectorlink
