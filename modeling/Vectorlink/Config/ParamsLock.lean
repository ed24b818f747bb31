import Vectorlink.Config.Providers

/-! The lock file of a store: the embedding parameters that its vectors were made with. A process
whose configuration resolves to other parameters does not start. -/
namespace Vectorlink

/-- What `vectorlink-params.json` holds. No key of an endpoint is part of it. -/
inductive LockedEmbeddingParams where
  | mk (provider baseUrl model : String) (dim : ℕ) (prefixes : Option TaskPrefix)
      (clustering : Option LockedEmbeddingParams)

def embeddingParamsFile : String := "vectorlink-params.json"

namespace LockedEmbeddingParams

def fromProvider (provider : EmbedProvider) : LockedEmbeddingParams :=
  .mk provider.kind.name (trimEndSlashes provider.baseUrl) provider.model provider.dim
    provider.effectivePrefixes none

/-- The parameters of a configuration, as `verify_or_lock_embedding_params` puts them together. -/
def current (provider : EmbedProvider) (provider2 : Option EmbedProvider) : LockedEmbeddingParams :=
  match fromProvider provider with
  | .mk kind baseUrl model dim prefixes _ =>
    .mk kind baseUrl model dim prefixes (provider2.map fromProvider)

/-- The prefixes on record, or the table of the model for a file from before they were. -/
def effectivePrefixes : LockedEmbeddingParams → Option TaskPrefix
  | .mk _ _ model _ prefixes _ => prefixes.or (prefixesForModel model)

def paramsMatch : LockedEmbeddingParams → LockedEmbeddingParams → Bool
  | .mk provider baseUrl model dim prefixes clustering,
    .mk provider' baseUrl' model' dim' prefixes' clustering' =>
    provider = provider' && baseUrl = baseUrl' && model = model' && dim = dim' &&
      (prefixes.or (prefixesForModel model) = prefixes'.or (prefixesForModel model')) &&
      match clustering, clustering' with
      | none, none => true
      | some a, some b => paramsMatch a b
      | _, _ => false

/-- The same parameters with the prefixes that are in effect. -/
def canonical : LockedEmbeddingParams → LockedEmbeddingParams
  | .mk provider baseUrl model dim prefixes clustering =>
    .mk provider baseUrl model dim (prefixes.or (prefixesForModel model)) (match clustering with
      | none => none
      | some c => some c.canonical)

/-- The comparison is equality up to prefixes that an older file leaves to the table. -/
theorem paramsMatch_iff (a b : LockedEmbeddingParams) :
    a.paramsMatch b = true ↔ a.canonical = b.canonical := by
  match a, b with
  | .mk _ _ _ _ _ none, .mk _ _ _ _ _ none => simp [paramsMatch, canonical, and_assoc]
  | .mk _ _ _ _ _ none, .mk _ _ _ _ _ (some _) => simp [paramsMatch, canonical]
  | .mk _ _ _ _ _ (some _), .mk _ _ _ _ _ none => simp [paramsMatch, canonical]
  | .mk _ _ _ _ _ (some a), .mk _ _ _ _ _ (some b) =>
    simp [paramsMatch, canonical, paramsMatch_iff a b, and_assoc]

end LockedEmbeddingParams

/-- What the vectors of a provider depend on: the URL that is called, the model, the dimension and
the prefixes. -/
structure Space where
  url : String
  model : String
  dim : ℕ
  prefixes : Option TaskPrefix
deriving DecidableEq

namespace EmbedProvider

def space (provider : EmbedProvider) : Space :=
  ⟨provider.url, provider.model, provider.dim, provider.effectivePrefixes⟩

theorem url_eq (provider : EmbedProvider) :
    provider.url = trimEndSlashes provider.baseUrl ++ "/v1/embeddings" := rfl

end EmbedProvider

/-- The spaces of the two columns of vectors. -/
structure Spaces where
  document : Space
  clustering : Space
deriving DecidableEq

def spacesOf (provider : EmbedProvider) (provider2 : Option EmbedProvider) : Spaces :=
  ⟨provider.space, (provider2.getD provider).space⟩

namespace LockedEmbeddingParams

def space : LockedEmbeddingParams → Space
  | .mk _ baseUrl model dim prefixes _ =>
    ⟨baseUrl ++ "/v1/embeddings", model, dim, prefixes.or (prefixesForModel model)⟩

def spaces : LockedEmbeddingParams → Spaces
  | .mk provider baseUrl model dim prefixes clustering =>
    let document := space (.mk provider baseUrl model dim prefixes clustering)
    ⟨document, (clustering.map space).getD document⟩

theorem space_mk (provider baseUrl model : String) (dim : ℕ) (prefixes : Option TaskPrefix)
    (clustering : Option LockedEmbeddingParams) :
    space (.mk provider baseUrl model dim prefixes clustering) =
      ⟨baseUrl ++ "/v1/embeddings", model, dim, prefixes.or (prefixesForModel model)⟩ := rfl

theorem effective_or_table (prefixes : Option TaskPrefix) (model : String) :
    (prefixes.or (prefixesForModel model)).or (prefixesForModel model) =
      prefixes.or (prefixesForModel model) := by
  cases prefixes with
  | some _ => rfl
  | none => cases prefixesForModel model <;> rfl

theorem space_fromProvider (provider : EmbedProvider) : (fromProvider provider).space = provider.space := by
  unfold fromProvider ProviderConfig.effectivePrefixes
  rw [space_mk, effective_or_table]
  rfl

theorem spaces_current (provider : EmbedProvider) (provider2 : Option EmbedProvider) :
    (current provider provider2).spaces = spacesOf provider provider2 := by
  have hdocument : (current provider provider2).space = provider.space := space_fromProvider provider
  have hclustering : (provider2.map fromProvider).map space = provider2.map (·.space) := by
    rw [Option.map_map]
    congr 1
    funext p
    exact space_fromProvider p
  show (⟨(current provider provider2).space, ((provider2.map fromProvider).map space).getD
    (current provider provider2).space⟩ : Spaces) = _
  rw [hdocument, hclustering, Option.getD_map]
  rfl

theorem space_canonical (a : LockedEmbeddingParams) : a.canonical.space = a.space := by
  match a with
  | .mk _ _ _ _ _ none => simp only [canonical, space_mk, effective_or_table]
  | .mk _ _ _ _ _ (some _) => simp only [canonical, space_mk, effective_or_table]

theorem spaces_canonical (a : LockedEmbeddingParams) : a.canonical.spaces = a.spaces := by
  match a with
  | .mk provider baseUrl model dim prefixes none =>
    simp only [canonical, spaces, space_mk, effective_or_table, Option.map_none]
  | .mk provider baseUrl model dim prefixes (some c) =>
    simp only [canonical, spaces, space_mk, effective_or_table, Option.map_some, space_canonical]

/-- Parameters that match have the same spaces. -/
theorem spaces_eq_of_match {a b : LockedEmbeddingParams} (h : a.paramsMatch b = true) :
    a.spaces = b.spaces := by
  rw [← spaces_canonical a, (paramsMatch_iff a b).mp h, spaces_canonical]

end LockedEmbeddingParams

/-- What is at the path of the lock file: a text, as serde reads it, or nothing that can be read. -/
inductive LockFile where
  | absent
  | unreadable (e : String)
  | text (parsed : Except String LockedEmbeddingParams)

inductive LockError where
  | read (e : String)
  | corrupt (e : String)
  | mismatch (locked current : LockedEmbeddingParams)
  | createDir (e : String)
  | write (e : String)

/-- The message of an error, with the path of the file and the JSON text of parameters. -/
def LockError.text (dataDir path : String) (pretty : LockedEmbeddingParams → String) :
    LockError → String
  | .read e => s!"failed to read {path}: {e}"
  | .corrupt e =>
    s!"corrupt {path}: {e} — the store's embedding parameters cannot be verified. Restore the file or recreate the store with `vectorlink drop-store --yes`."
  | .mismatch locked current =>
    s!"embedding parameters mismatch: the vectorlink store at {dataDir} was created with\n{pretty locked}\nbut the current configuration resolves to\n{pretty current}\nAll stored embeddings are only valid for the locked parameters. Restore the original parameters, or drop and recreate the entire store with `vectorlink drop-store --yes` — embedded in TerminusDB, delete the vectorlink directory under the storage path instead (deletes all indexed vectors)."
  | .createDir e => s!"failed to create {dataDir}: {e}"
  | .write e => s!"failed to write {path}: {e}"

/-- What a write leaves that fails or that the process does not survive. A part of the text does
not parse. -/
inductive Unfinished where
  | nothing
  | part (e : String)
  | whole

def Unfinished.file (current : LockedEmbeddingParams) : Unfinished → LockFile
  | .nothing => .absent
  | .part e => .text (.error e)
  | .whole => .text (.ok current)

/-- The outcome of the two calls that write. -/
structure LockIo where
  createDir : Except String Unit
  write : Except (String × Unfinished) Unit

/-- The result, and the file that is left. A store that has datasets and no lock file is adopted
with a warning. -/
def verifyOrLockEmbeddingParams (file : LockFile) (io : LockIo) (provider : EmbedProvider)
    (provider2 : Option EmbedProvider) : Except LockError Unit × LockFile :=
  let current := LockedEmbeddingParams.current provider provider2
  match file with
  | .unreadable e => (.error (.read e), file)
  | .text (.error e) => (.error (.corrupt e), file)
  | .text (.ok locked) =>
    if locked.paramsMatch current then (.ok (), file)
    else (.error (.mismatch locked current), file)
  | .absent =>
    match io.createDir with
    | .error e => (.error (.createDir e), file)
    | .ok () =>
      match io.write with
      | .error (e, left) => (.error (.write e), left.file current)
      | .ok () => (.ok (), .text (.ok current))

/-- A process that starts finds the parameters of its configuration in the file, and has written
it if there was none. -/
theorem verifyOrLock_ok {file file' : LockFile} {io : LockIo} {provider : EmbedProvider}
    {provider2 : Option EmbedProvider}
    (h : verifyOrLockEmbeddingParams file io provider provider2 = (.ok (), file')) :
    ∃ locked, file' = .text (.ok locked) ∧ locked.spaces = spacesOf provider provider2 ∧
      (file = file' ∨ file = .absent) := by
  unfold verifyOrLockEmbeddingParams at h
  cases file with
  | unreadable e => cases h
  | text parsed =>
    cases parsed with
    | error e => cases h
    | ok locked =>
      dsimp only at h
      split at h
      · rename_i hmatch
        refine ⟨locked, (Prod.mk.inj h).2.symm, ?_, .inl (Prod.mk.inj h).2⟩
        rw [LockedEmbeddingParams.spaces_eq_of_match hmatch, LockedEmbeddingParams.spaces_current]
      · cases h
  | absent =>
    dsimp only at h
    cases hdir : io.createDir with
    | error e =>
      rw [hdir] at h
      cases h
    | ok _ =>
      rw [hdir] at h
      cases hwrite : io.write with
      | error e =>
        rw [hwrite] at h
        cases h
      | ok _ =>
        rw [hwrite] at h
        exact ⟨_, (Prod.mk.inj h).2.symm, LockedEmbeddingParams.spaces_current _ _, .inr rfl⟩

/-- What is written are the parameters of the configuration. -/
theorem verifyOrLock_writes {io : LockIo} {provider : EmbedProvider}
    {provider2 : Option EmbedProvider} {params : LockedEmbeddingParams}
    (h : (verifyOrLockEmbeddingParams .absent io provider provider2).2 = .text (.ok params)) :
    params.spaces = spacesOf provider provider2 := by
  have hcurrent : params = .current provider provider2 := by
    unfold verifyOrLockEmbeddingParams at h
    dsimp only at h
    split at h
    · cases h
    · split at h
      · rename_i left _
        cases left with
        | whole => exact (Except.ok.inj (LockFile.text.inj h)).symm
        | _ => cases h
      · exact (Except.ok.inj (LockFile.text.inj h)).symm
  rw [hcurrent, LockedEmbeddingParams.spaces_current]

/-- A file that exists is left as it is. -/
theorem verifyOrLock_keeps {file : LockFile} (hfile : file ≠ .absent) (io : LockIo)
    (provider : EmbedProvider) (provider2 : Option EmbedProvider) :
    (verifyOrLockEmbeddingParams file io provider provider2).2 = file := by
  cases file with
  | unreadable e => rfl
  | text parsed =>
    cases parsed with
    | error e => rfl
    | ok locked =>
      unfold verifyOrLockEmbeddingParams
      dsimp only
      split
      · rfl
      · rfl
  | absent => exact absurd rfl hfile

end Vectorlink
