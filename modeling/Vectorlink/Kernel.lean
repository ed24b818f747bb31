import Vectorlink.Versioned.Dataset

/-! Names and errors shared by the store, the service and the transport. -/
namespace Vectorlink

abbrev BranchName := String
abbrev CommitId := String
abbrev DocId := String

/-- `internal` carries the text of the message and the Lance error appended to it. -/
inductive StoreError where
  | internal (message : String) (cause : Option Versioned.RefError)
  | readOnly (message : String)
deriving DecidableEq, Repr

/-- Writes are refused while another process holds the lock on the data directory. -/
def ensureWritable (baseDir : String) (readOnly : Bool) : Except StoreError Unit :=
  if readOnly then
    .error (.readOnly s!"data dir {baseDir} is write-locked by another process — writes refused")
  else .ok ()

inductive ServiceError where
  | validation (message : String)
  | notFound (message : String)
  | conflict (message : String)
  | unavailable (message : String)
  | internal (message : String)
  | abort (message : String)
deriving DecidableEq, Repr

def refErrorText : Versioned.RefError → String
  | .tagNotFound => "tag not found"
  | .tagExists => "tag already exists"
  | .branchNotFound => "branch not found"
  | .branchExists => "branch already exists"
  | .versionNotFound => "version not found"
  | .io => "I/O error"

/-- The text of a store error, as it is passed on to the service. -/
def StoreError.text : StoreError → String
  | .internal message none => s!"store error: {message}"
  | .internal message (some cause) => s!"store error: {message}: {refErrorText cause}"
  | .readOnly message => s!"read-only: {message}"

/-- The dataset of one domain: branches are named, tags are named by the commit they
encode. -/
abbrev LanceDataset (ρ : Type) := Versioned.Dataset BranchName CommitId ρ

end Vectorlink
