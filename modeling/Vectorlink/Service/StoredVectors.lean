import Vectorlink.Service.Deployment
import Vectorlink.Store.RowBatches

/-! The vectors of a store fill the columns: whatever careful processes have written has the
dimension of the lock file, in both columns. -/
namespace Vectorlink

open Columnar Versioned

/-- A second provider of another dimension stops the start. -/
theorem dim_eq_of_fromEnv {environment : Env} {config : Config}
    (h : Config.fromEnv environment = some config) :
    (spacesOf config.embedProvider config.provider2).clustering.dim =
      (spacesOf config.embedProvider config.provider2).document.dim := by
  simp only [Config.fromEnv] at h
  split at h
  · cases h
  · rename_i hdims
    split at h
    · cases h
    · obtain ⟨index, -, h⟩ := Option.bind_eq_some_iff.mp h
      obtain rfl := Option.some.inj h
      show (((resolveProvider2 (serverProvider environment) environment).getD
        (serverProvider environment)).dim) = (serverProvider environment).dim
      cases hsecond : resolveProvider2 (serverProvider environment) environment with
      | none => rfl
      | some p2 =>
        rw [hsecond] at hdims
        simpa using hdims

/-- A row of spaces of one dimension has two vectors of that dimension. -/
theorem Spaces.RowIn.sized {world : World} {ops : FloatOps} {spaces : Spaces}
    {row : ChunkRow (List F32)} (hdims : spaces.clustering.dim = spaces.document.dim)
    (h : spaces.RowIn world ops row) : row.Sized spaces.document.dim := by
  constructor
  · exact h.document.1
  · rcases h.clustering with hanswer | hzero
    · exact hanswer.1.trans hdims
    · rw [hzero, length_l2Normalize, List.length_replicate]

/-- However the rows came to be appended, each append makes a batch from which its rows are read
again. -/
def Storable {dim : ℕ} (hdim : 0 < dim) (rows : List Row) : Prop :=
  ∀ parts : List (List Row), parts.flatten = rows →
    ∃ appends : List (Append F32 dim), appends.map Subtype.val = parts ∧
      ∀ strict, ∀ a ∈ appends, rowsToBatch strict dim a.1 = .ok (a.batch hdim) ∧
        ∀ i, rowAt ⟨a.batch hdim, i⟩ = a.1[i.val]?

theorem storable_of_sized {dim : ℕ} (hdim : 0 < dim) (hsmall : dim < 2 ^ 31) {rows : List Row}
    (h : ∀ r ∈ rows, r.Sized dim) : Storable hdim rows := by
  intro parts hparts
  have hpart : ∀ part ∈ parts, ∀ r ∈ part, r.Sized dim := by
    intro part hp r hr
    apply h
    rw [← hparts]
    exact List.mem_flatten_of_mem hp hr
  refine ⟨parts.attachWith _ hpart, by simp, fun strict a _ => ?_⟩
  exact ⟨rowsToBatch_of_sized strict hdim hsmall a.2, rowAt_batchOf hdim a.2⟩

namespace Deployment

variable {ops : FloatOps} {env : CacheEnv} {world : World} {U : Set (String × String)}
  {s s' : Deployment}

/-- The lock file names one dimension. -/
def SameDims (s : Deployment) : Prop :=
  ∀ spaces, s.locked = some spaces → spaces.clustering.dim = spaces.document.dim

theorem locked_congr (h : s'.dir.params = s.dir.params) : s'.locked = s.locked := by
  unfold locked
  rw [h]

theorem SameDims.of_params (h : s.SameDims) (hparams : s'.dir.params = s.dir.params) :
    s'.SameDims := by
  unfold SameDims
  rw [locked_congr hparams]
  exact h

theorem sameDims_of_absent (h : s.dir.params = .absent) : s.SameDims := by
  intro spaces hlocked
  unfold locked at hlocked
  rw [h] at hlocked
  cases hlocked

/-- The check of a start leaves the file or writes the dimensions of the configuration. -/
theorem SameDims.verified {environment : Env} {config : Config} (h : s.SameDims)
    (hconfig : Config.fromEnv environment = some config) (io : LockIo)
    (hparams : s'.dir.params =
      (verifyOrLockEmbeddingParams s.dir.params io config.embedProvider config.provider2).2) :
    s'.SameDims := by
  by_cases habsent : s.dir.params = .absent
  · intro spaces hlocked
    unfold locked at hlocked
    split at hlocked
    · rename_i params hfile
      obtain rfl := Option.some.inj hlocked
      rw [hfile, habsent] at hparams
      rw [verifyOrLock_writes hparams.symm]
      exact dim_eq_of_fromEnv hconfig
    · cases hlocked
  · rw [verifyOrLock_keeps habsent] at hparams
    exact h.of_params hparams

theorem SameDims.step {a : DeploymentAction} (h : s.SameDims) (hcareful : s.Careful ops world U a)
    (hstep : s.step ops env a = some s') : s'.SameDims := by
  cases a with
  | start pid environment seen io sled accepts cleanup =>
    obtain ⟨rfl, -⟩ := hcareful
    unfold Deployment.step at hstep
    dsimp only at hstep
    split at hstep
    · cases hstep
    · obtain ⟨config, hconfig, hstep⟩ := Option.bind_eq_some_iff.mp hstep
      split at hstep
      · cases hstep
      · apply h.verified hconfig io
        split at hstep
        · obtain rfl := Option.some.inj hstep
          rfl
        · split at hstep
          · obtain rfl := Option.some.inj hstep
            rfl
          · split at hstep
            · obtain rfl := Option.some.inj hstep
              rfl
            · obtain rfl := Option.some.inj hstep
              rfl
  | stop pid =>
    obtain rfl := Option.some.inj hstep
    exact h.of_params rfl
  | embed pid site network texts io =>
    obtain ⟨server, -, rfl⟩ := Option.map_eq_some_iff.mp hstep
    exact h.of_params rfl
  | serve pid domain request answers =>
    obtain ⟨server, -, rfl⟩ := Option.map_eq_some_iff.mp hstep
    split
    · exact h
    · exact h.of_params rfl
  | crash pid domain push answers steps =>
    obtain ⟨server, -, rfl⟩ := Option.map_eq_some_iff.mp hstep
    exact h.of_params rfl
  | load environment push network domain branch commit operations steps accepts =>
    simp only [Deployment.step] at hstep
    split at hstep
    · obtain rfl := Option.some.inj hstep
      exact h
    · obtain rfl := Option.some.inj hstep
      exact h.of_params rfl
  | prime environment includeClustering io domain =>
    obtain ⟨config, -, rfl⟩ := Option.map_eq_some_iff.mp hstep
    exact h.of_params rfl
  | drop left =>
    obtain rfl := Option.some.inj hstep
    by_cases hleft : left.params = true
    · exact h.of_params (if_pos hleft)
    · exact sameDims_of_absent (if_neg hleft)

/-- In every careful run from an empty directory, the rows of every version of every domain fit the
columns: no append of them fails or panics, and the rows of the batches are the rows. -/
theorem stored_rows_readable (henv : env.Sound U)
    (h : Concurrent.Reaches (step ops env) (Careful ops world U) fresh s)
    {params : LockedEmbeddingParams} (hparams : s.dir.params = .text (.ok params))
    (hdim : 0 < params.spaces.document.dim) (hsmall : params.spaces.document.dim < 2 ^ 31)
    {domain : String} {ds : LanceDataset Row} (hds : s.dir.datasets domain = some ds)
    {b : Option BranchName} {v : ℕ} {rows : List Row} (hrows : ds.rowsAt b v = some rows) :
    Storable hdim rows := by
  have hboth : s.Sound ops env world U ∧ s.SameDims := by
    apply h.invariant ⟨sound_fresh, sameDims_of_absent rfl⟩
    intro t a u ht hcareful hstep
    exact ⟨ht.1.step henv hcareful hstep, ht.2.step hcareful hstep⟩
  have hlocked := locked_of_params hparams
  obtain ⟨-, hspaces⟩ := hboth.1.inSpaces hlocked
  apply storable_of_sized hdim hsmall
  intro r hr
  exact ((hspaces.datasets domain ds hds).rowsAt hrows r hr).sized (hboth.2 _ hlocked)

/-- The row that the sample run has indexed. -/
theorem stored_rows_readable_e5 : ∃ params, e5Searched.dir.params = .text (.ok params) ∧
    ∃ hdim : 0 < params.spaces.document.dim, ∃ ds, e5Searched.dir.datasets "d" = some ds ∧
      ∃ rows, ds.rowsAt none ds.main.head = some rows ∧ rows.length = 1 ∧ Storable hdim rows := by
  obtain ⟨params, hparams, hdim⟩ : ∃ params, e5Searched.dir.params = .text (.ok params) ∧
      params.spaces.document.dim = 1 := ⟨_, rfl, rfl⟩
  obtain ⟨ds, hds, rows, hrows, hlength⟩ : ∃ ds, e5Searched.dir.datasets "d" = some ds ∧
      ∃ rows, ds.rowsAt none ds.main.head = some rows ∧ rows.length = 1 := ⟨_, rfl, _, rfl, rfl⟩
  have hpos : 0 < params.spaces.document.dim := by omega
  have hsmall : params.spaces.document.dim < 2 ^ 31 := by omega
  exact ⟨params, hparams, hpos, ds, hds, rows, hrows, hlength,
    stored_rows_readable e5Cache_sound e5_reaches hparams hpos hsmall hds hrows⟩

end Deployment

end Vectorlink
