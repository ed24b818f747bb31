import Vectorlink.Service.EmbeddingSpace

/-! One data directory and the processes that work on it: servers, the offline loader, the cache
primer and `drop-store`. The lock file holds all of them to one pair of embedding spaces. -/
namespace Vectorlink

open Stepwise Versioned

abbrev Row := ChunkRow (List F32)

/-- What is on disk. -/
structure DataDir where
  params : LockFile
  datasets : String → Option (LanceDataset Row)
  cache : CacheStore

/-- A server: its configuration, its clients, its handle on the cache, what it keeps of each domain
in memory, and the embeddings that it was given. -/
structure Server where
  config : Config
  clients : HttpClients
  cache : CacheHandle
  memory : String → Footprint (List F32)
  answered : List (EmbeddingRole × String × List F32)

structure Deployment where
  dir : DataDir
  servers : ℕ → Option Server

/-- What a `drop-store` leaves that cannot delete everything. -/
structure Leftovers where
  params : Bool
  cache : Bool
  datasets : String → Bool

inductive DeploymentAction where
  /-- `seen` is the lock file as the new process reads it, and `accepts` says which texts can be the
  value of a header. -/
  | start (pid : ℕ) (environment : Env) (seen : LockFile) (io : LockIo) (sled : SledOpen)
      (accepts : String → Bool) (cleanup : String → RetagEnv Row)
  | stop (pid : ℕ)
  | embed (pid : ℕ) (site : EmbedSite) (network : Network) (texts : List String) (io : SledIo)
  | serve (pid : ℕ) (domain : String) (request : Request (List F32))
      (answers : Provider (List F32))
  /-- The process dies after some steps of a push. -/
  | crash (pid : ℕ) (domain : String) (push : HttpPush (List F32)) (answers : Provider (List F32))
      (steps : ℕ)
  /-- The loader runs to its end, or to the given step. -/
  | load (environment : Env) (env : PushEnv (List F32)) (network : EmbedCall → Network)
      (domain : String) (branch : BranchName) (commit : CommitId) (operations : List Operation)
      (steps : Option ℕ) (accepts : String → Bool)
  | prime (environment : Env) (includeClustering : Bool) (io : PrimeIo) (domain : String)
  | drop (left : Leftovers)

/-- The store after some steps of a run, or after all of them. -/
def storeAfter {ℓ σ ε α : Type} (s : σ) (o : Outcome ℓ σ ε α) : Option ℕ → σ
  | none => o.store
  | some n => (o.trace[n]?.map (·.2)).getD s

/-- What a process that may not write refuses, and the cleanup of a start, which it leaves out. -/
def Request.writes {V : Type} : Request V → Bool
  | .push _ | .assign .. | .compact .. | .deleteBranchIndex .. | .deleteDomain | .restart _ => true
  | .search .. | .lastIndexed .. | .statistics => false

section Environment

variable (ops : FloatOps) (env : CacheEnv)

/-- The environment of the pipelines with the vectors that a process works with. -/
def IngestEnv.withVectors (ingest : IngestEnv (List F32)) (provider : Provider (List F32))
    (dim : ℕ) : IngestEnv (List F32) :=
  { ingest with
    provider := provider
    zero := List.replicate dim 0
    l2Normalize := Vectorlink.l2Normalize ops }

def PushEnv.withVectors (push : PushEnv (List F32)) (provider : Provider (List F32)) (dim : ℕ) :
    PushEnv (List F32) :=
  { push with toIngestEnv := push.toIngestEnv.withVectors ops provider dim }

namespace Server

variable (server : Server)

/-- The domain as the server has it: its own memory, and the dataset that all processes share. -/
def footprint (dir : DataDir) (domain : String) : Footprint (List F32) :=
  { server.memory domain with
    domain := { (server.memory domain).domain with dataset := dir.datasets domain } }

/-- A pipeline gets embeddings that the server was given, or an error. -/
def provider (answers : Provider (List F32)) : Provider (List F32) := fun call texts =>
  match answers call texts with
  | .error e => .error e
  | .ok vs =>
    if vs.length = texts.length ∧ ∀ e ∈ texts.zip vs, (call.role, e.1, e.2) ∈ server.answered then
      .ok vs
    else .error "embedding provider unreachable"

def pushOf (answers : Provider (List F32)) (p : HttpPush (List F32)) : HttpPush (List F32) :=
  let env := p.request.env.withVectors ops (server.provider answers) server.config.embedProvider.dim
  { p with request := { p.request with env := env } }

def requestOf (answers : Provider (List F32)) : Request (List F32) → Request (List F32)
  | .push p => .push (server.pushOf ops answers p)
  | r => r

end Server

/-- The endpoints that the loader asks; each call may meet them in another state. -/
def loadAnswers (environment : Env) (clients : HttpClients) (network : EmbedCall → Network) :
    Provider (List F32) :=
  fun call texts =>
    let route := if call.role = .clustering then loadClusteringRoute environment clients
      else loadDocumentRoute environment clients
    (route.ioEmbed env (network call) texts call.role ⟨fun _ => false, fun _ => false⟩ none).1.mapError
      EmbedError.text

end Environment

namespace Deployment

variable (ops : FloatOps) (env : CacheEnv)

def fresh : Deployment := ⟨⟨.absent, fun _ => none, ⟨∅, 0⟩⟩, fun _ => none⟩

/-- The datasets when a server has cleaned up after compactions, which it does if it may write. -/
def cleaned (dir : DataDir) (handle : CacheHandle) (cleanup : String → RetagEnv Row)
    (domain : String) : Option (LanceDataset Row) :=
  if handle.lockedElsewhere then dir.datasets domain
  else (dir.datasets domain).map (cleanup domain).ioCleanupCompactionBranches

/-- The state after an action, if it can be taken. A server checks the lock file before it opens
anything else. -/
def step (s : Deployment) : DeploymentAction → Option Deployment
  | .start pid environment seen io sled accepts cleanup =>
    if (s.servers pid).isSome then none
    else (Config.fromEnv environment).bind fun config =>
      if config.adminSecret.isEmpty then none
      else
        let verified := verifyOrLockEmbeddingParams seen io config.embedProvider config.provider2
        let dir := { s.dir with params := verified.2 }
        match verified.1 with
        | .error _ => some { s with dir := dir }
        | .ok () =>
          match CacheHandle.openCache config.embedCacheSize sled with
          | none => some { s with dir := dir }
          | some (handle, count) =>
            match config.newWithCache accepts with
            | none => some { s with dir := dir }
            | some clients =>
              some
                { dir := { dir with
                    datasets := cleaned dir handle cleanup
                    cache :=
                      if handle.db then { dir.cache with entryCount := count } else dir.cache }
                  servers := Function.update s.servers pid
                    (some ⟨config, clients, handle, fun _ => .fresh, []⟩) }
  | .stop pid => some { s with servers := Function.update s.servers pid none }
  | .embed pid site network texts io =>
    (s.servers pid).map fun server =>
      let called := (server.config.route server.clients site).ioEmbed env network texts site.role io
        (some (server.cache, s.dir.cache))
      let answered := match called.1 with
        | .ok vs => (texts.zip vs).map fun e => (site.role, e.1, e.2)
        | .error _ => []
      { dir := { s.dir with cache := (called.2.map (·.2)).getD s.dir.cache }
        servers := Function.update s.servers pid
          (some { server with answered := answered ++ server.answered }) }
  | .serve pid domain request answers =>
    (s.servers pid).map fun server =>
      if server.cache.lockedElsewhere && request.writes then s
      else
        let after := ((server.footprint s.dir domain).serve (server.requestOf ops answers request)).2
        { dir := { s.dir with
            datasets := Function.update s.dir.datasets domain after.domain.dataset }
          servers := Function.update s.servers pid
            (some { server with memory := Function.update server.memory domain after }) }
  | .crash pid domain p answers steps =>
    (s.servers pid).map fun server =>
      let p := server.pushOf ops answers p
      let fp := p.applySettings (server.footprint s.dir domain)
      let after := storeAfter fp.domain ((p.requestAt fp).push p.branch fp.domain) (some steps)
      { dir := { s.dir with datasets := Function.update s.dir.datasets domain after.dataset }
        servers := Function.update s.servers pid none }
  | .load environment push network domain branch commit operations steps accepts =>
    match loadClients environment accepts with
    | none => some s
    | some clients =>
      let provider := loadAnswers env environment clients network
      let push := push.withVectors ops provider (loadProvider environment).dim
      let d : Domain (List F32) :=
        { (.fresh : Domain (List F32)) with dataset := s.dir.datasets domain }
      let after := storeAfter d (push.load branch commit operations d) steps
      some { s with dir := { s.dir with
        datasets := Function.update s.dir.datasets domain after.dataset } }
  | .prime environment includeClustering io domain =>
    (Config.fromEnv environment).map fun config =>
      let rows := (s.dir.datasets domain).map fun ds => ds.main.headRows
      { s with dir := { s.dir with
          cache := (primeEmbedCache env config includeClustering io rows s.dir.cache).2 } }
  | .drop left =>
    some { s with dir :=
      { params := if left.params then s.dir.params else .absent
        datasets := fun domain => if left.datasets domain then s.dir.datasets domain else none
        cache := if left.cache then s.dir.cache else ⟨∅, 0⟩ } }

/-- What the lock file says, if it can be read. -/
def locked (s : Deployment) : Option Spaces :=
  match s.dir.params with
  | .text (.ok params) => some params.spaces
  | _ => none

variable (world : World) (U : Set (String × String))

/-- What the code leaves to its operator and to the endpoints: endpoints answer in order; a model
name in both slots is for one URL; two servers do not start at once; the loader and the primer run
with the configuration of the store, the primer with `--include-clustering` on domains that store
clustering vectors only; a drop finds no server, and leaves nothing that its lock file does not
cover. Texts come from a set without collisions of keys. -/
def Careful (s : Deployment) : DeploymentAction → Prop
  | .start _ environment seen .. => seen = s.dir.params ∧
      ∀ config, Config.fromEnv environment = some config →
        (spacesOf config.embedProvider config.provider2).Coherent
  | .embed pid site network texts _ => network.InOrder world ∧
      ∀ server, s.servers pid = some server → ∀ t ∈ texts,
        ((server.config.route server.clients site).provider.model,
          (server.config.route server.clients site).provider.prefixText site.role t) ∈ U
  | .load environment _ network .. => (∀ call, (network call).InOrder world) ∧
      s.locked = some (spacesOf (loadProvider environment)
        (resolveProvider2 (loadProvider environment) environment))
  | .prime environment includeClustering _ domain =>
      ∀ config, Config.fromEnv environment = some config →
        s.locked = some (spacesOf config.embedProvider config.provider2) ∧
        ∀ ds, s.dir.datasets domain = some ds → ∀ row ∈ ds.main.headRows,
          (∀ e ∈ config.primeRow includeClustering row, (e.model, e.text) ∈ U) ∧
            (includeClustering = true → row.clusteringEmbedding ≠
              l2Normalize ops (List.replicate config.embedProvider.dim 0))
  | .drop left => (∀ pid, s.servers pid = none) ∧
      (left.params = true ∨ left.cache = false ∧ ∀ domain, left.datasets domain = false)
  | _ => True

/-- All rows of all versions, all entries of the cache and all embeddings that a server was given
are of the same spaces. -/
structure InSpaces (spaces : Spaces) (s : Deployment) : Prop where
  datasets : ∀ domain ds, s.dir.datasets domain = some ds → ds.Within (spaces.RowIn world ops)
  cache : s.dir.cache.Holds env U (spaces.cached world ops)
  servers : ∀ pid server, s.servers pid = some server →
    spacesOf server.config.embedProvider server.config.provider2 = spaces ∧
      ∀ e ∈ server.answered, spaces.answers world ops e.1 e.2.1 e.2.2

/-- Nothing is stored and no server runs. -/
structure Empty (s : Deployment) : Prop where
  datasets : ∀ domain, s.dir.datasets domain = none
  cache : s.dir.cache.tree = ∅
  servers : ∀ pid, s.servers pid = none

/-- The spaces are those of the lock file; without one that can be read there is nothing. -/
def Sound (s : Deployment) : Prop :=
  match s.locked with
  | some spaces => spaces.Coherent ∧ s.InSpaces ops env world U spaces
  | none => s.Empty

end Deployment

section Answers

variable {world : World} {ops : FloatOps} {env : CacheEnv} {U : Set (String × String)}
  {spaces : Spaces}

theorem answersWithin_provider {server : Server}
    (h : ∀ e ∈ server.answered, spaces.answers world ops e.1 e.2.1 e.2.2)
    (answers : Provider (List F32)) :
    AnswersWithin (server.provider answers) (spaces.answers world ops) := by
  refine answersWithin_of_provider fun call texts vs hvs => ?_
  unfold Server.provider at hvs
  split at hvs
  · cases hvs
  · split at hvs
    · rename_i hgiven
      obtain rfl := Except.ok.inj hvs
      rw [List.forall₂_iff_zip]
      exact ⟨hgiven.1.symm, fun {t v} hmem => h _ (hgiven.2 _ hmem)⟩
    · cases hvs

theorem answersWithin_load (ops : FloatOps) {environment : Env} (clients : HttpClients)
    {network : EmbedCall → Network} (hcoherent : spaces.Coherent) (henv : env.Sound U)
    (hnetwork : ∀ call, (network call).InOrder world)
    (hspaces : spaces = spacesOf (loadProvider environment)
      (resolveProvider2 (loadProvider environment) environment)) :
    AnswersWithin (loadAnswers env environment clients network) (spaces.answers world ops) := by
  refine answersWithin_of_provider fun call texts vs hvs => ?_
  unfold loadAnswers at hvs
  dsimp only at hvs
  have hroute := space_loadRoute environment clients call.role
  rw [← hspaces] at hroute
  generalize (if call.role = .clustering then loadClusteringRoute environment clients
    else loadDocumentRoute environment clients) = route at hvs hroute
  have hnocache : CacheArg.Holds env U (spaces.cached world ops) none := by
    intro c hc
    cases hc
  cases hcall : (route.ioEmbed env (network call) texts call.role
      ⟨fun _ => false, fun _ => false⟩ none).1 with
  | error e =>
    rw [hcall] at hvs
    cases hvs
  | ok ws =>
    rw [hcall] at hvs
    obtain rfl := Except.ok.inj hvs
    refine (ioEmbed_from _ hcoherent hroute henv (hnetwork call) ?_ hnocache).1 _ hcall
    intro c hc
    cases hc

/-- A pipeline that works with such answers collects rows of the spaces. -/
theorem collect_rowIn {r : PushRequest (List F32)} {provider : Provider (List F32)}
    (ingest : IngestEnv (List F32)) (hP : AnswersWithin provider (spaces.answers world ops))
    (hr : r.env.toIngestEnv = ingest.withVectors ops provider spaces.document.dim)
    {c : Collected (List F32)} (hc : r.collect = .ok c) : ∀ row ∈ c.rows, spaces.RowIn world ops row := by
  have hprovider : AnswersWithin r.env.provider (spaces.answers world ops) := by
    rw [hr]
    exact hP
  have hwithin : ∀ row ∈ c.rows, r.env.toIngestEnv.RowWithin (spaces.answers world ops) row := by
    unfold PushRequest.collect at hc
    split at hc
    · exact IngestEnv.collectBuffered_within hprovider hc
    · exact IngestEnv.collectStream_within hprovider hc
  intro row hrow
  have hrow := hwithin row hrow
  rw [hr] at hrow
  refine Spaces.rowIn_of_rowFrom hrow (fun t v hv => hv) fun t q hq => ?_
  unfold IngestEnv.clusteringWithin at hq
  split at hq
  · exact .inl hq
  · exact .inr hq

/-- What the rows of a domain have in common they have wherever a run breaks off. -/
theorem storeAfter_within {Q : Row → Prop} {ℓ ε α : Type} {m : Program ℓ (Domain (List F32)) ε α}
    (h : Program.Walks (KeepsWithin Q) m) {d : Domain (List F32)} (hd : d.Within Q) (steps : Option ℕ) :
    (storeAfter d (m d) steps).Within Q := by
  obtain ⟨htrace, hstore⟩ := within_of_walks h hd
  cases steps with
  | none => exact hstore
  | some n =>
    show (((m d).trace[n]?.map (·.2)).getD d).Within Q
    cases hn : (m d).trace[n]? with
    | none => exact hd
    | some e => exact htrace e (List.mem_of_getElem? hn)

end Answers

namespace Deployment

variable {world : World} {ops : FloatOps} {env : CacheEnv} {U : Set (String × String)}
  {spaces : Spaces} {s s' : Deployment}

section Parts

theorem Sound.inSpaces (h : s.Sound ops env world U) (hlocked : s.locked = some spaces) :
    spaces.Coherent ∧ s.InSpaces ops env world U spaces := by
  unfold Sound at h
  rw [hlocked] at h
  exact h

theorem Sound.empty (h : s.Sound ops env world U) (hlocked : s.locked = none) : s.Empty := by
  unfold Sound at h
  rw [hlocked] at h
  exact h

theorem sound_of_inSpaces (hlocked : s.locked = some spaces) (hcoherent : spaces.Coherent)
    (h : s.InSpaces ops env world U spaces) : s.Sound ops env world U := by
  unfold Sound
  rw [hlocked]
  exact ⟨hcoherent, h⟩

theorem sound_of_empty (hlocked : s.locked = none) (h : s.Empty) : s.Sound ops env world U := by
  unfold Sound
  rw [hlocked]
  exact h

theorem locked_of_params {params : LockedEmbeddingParams} (h : s.dir.params = .text (.ok params)) :
    s.locked = some params.spaces := by
  unfold locked
  rw [h]

/-- A server runs on a store whose lock file can be read. -/
theorem Sound.of_server (h : s.Sound ops env world U) {pid : ℕ} {server : Server}
    (hserver : s.servers pid = some server) :
    ∃ spaces, s.locked = some spaces ∧ spaces.Coherent ∧ s.InSpaces ops env world U spaces := by
  cases hlocked : s.locked with
  | some spaces => exact ⟨spaces, rfl, h.inSpaces hlocked⟩
  | none =>
    have hnone := (h.empty hlocked).servers pid
    rw [hserver] at hnone
    cases hnone

/-- The cache of an empty store is of any spaces. -/
theorem Empty.inSpaces (h : s.Empty) : s.InSpaces ops env world U spaces where
  datasets domain ds hds := by
    rw [h.datasets domain] at hds
    cases hds
  cache key bytes hkey := by
    rw [h.cache, AList.lookup_empty] at hkey
    cases hkey
  servers pid server hserver := by
    rw [h.servers pid] at hserver
    cases hserver

/-- Any server may write rows of the spaces. -/
theorem InSpaces.write (h : s.InSpaces ops env world U spaces) (domain : String)
    {dataset : Option (LanceDataset Row)}
    (hdataset : ∀ ds, dataset = some ds → ds.Within (spaces.RowIn world ops)) :
    ∀ d ds, Function.update s.dir.datasets domain dataset d = some ds →
      ds.Within (spaces.RowIn world ops) := by
  intro d ds hds
  by_cases hd : d = domain
  · rw [hd, Function.update_self] at hds
    exact hdataset ds hds
  · rw [Function.update_of_ne hd] at hds
    exact h.datasets d ds hds

/-- A server that has other memory, or none of it any more. -/
theorem InSpaces.cleaned (h : s.InSpaces ops env world U spaces) (handle : CacheHandle)
    (cleanup : String → RetagEnv Row) :
    ∀ domain ds, Deployment.cleaned s.dir handle cleanup domain = some ds →
      ds.Within (spaces.RowIn world ops) := by
  intro domain ds hds
  unfold Deployment.cleaned at hds
  split at hds
  · exact h.datasets domain ds hds
  · obtain ⟨ds₀, hds₀, rfl⟩ := Option.map_eq_some_iff.mp hds
    exact cleanup_within (cleanup domain) (h.datasets domain ds₀ hds₀)

theorem InSpaces.server (h : s.InSpaces ops env world U spaces) (pid : ℕ) {server : Option Server}
    (hserver : ∀ sv, server = some sv →
      spacesOf sv.config.embedProvider sv.config.provider2 = spaces ∧
        ∀ e ∈ sv.answered, spaces.answers world ops e.1 e.2.1 e.2.2) :
    ∀ p sv, Function.update s.servers pid server p = some sv →
      spacesOf sv.config.embedProvider sv.config.provider2 = spaces ∧
        ∀ e ∈ sv.answered, spaces.answers world ops e.1 e.2.1 e.2.2 := by
  intro p sv hsv
  by_cases hp : p = pid
  · rw [hp, Function.update_self] at hsv
    exact hserver sv hsv
  · rw [Function.update_of_ne hp] at hsv
    exact h.servers p sv hsv

theorem footprint_within (h : s.InSpaces ops env world U spaces) (server : Server)
    (domain : String) : (server.footprint s.dir domain).domain.Within (spaces.RowIn world ops) :=
  fun ds hds => h.datasets domain ds hds

end Parts

section Start

variable {environment : Env} {config : Config} {io : LockIo}

/-- The check leaves a sound store, and a server that passes it has the spaces of the file. -/
theorem Sound.verified (h : s.Sound ops env world U) (io : LockIo)
    (hcoherent : (spacesOf config.embedProvider config.provider2).Coherent) :
    let verified := verifyOrLockEmbeddingParams s.dir.params io config.embedProvider config.provider2
    let checked : Deployment := { s with dir := { s.dir with params := verified.2 } }
    checked.Sound ops env world U ∧ (verified.1 = .ok () →
      checked.locked = some (spacesOf config.embedProvider config.provider2)) := by
  dsimp only
  constructor
  · by_cases habsent : s.dir.params = .absent
    · -- the file is written for the first time: whatever is left of it, nothing is stored
      have hlocked : s.locked = none := by
        unfold locked
        rw [habsent]
      have hempty := h.empty hlocked
      have hleft (file : LockFile) :
          ({ s with dir := { s.dir with params := file } } : Deployment).Empty :=
        ⟨hempty.datasets, hempty.cache, hempty.servers⟩
      cases hfile : (verifyOrLockEmbeddingParams s.dir.params io config.embedProvider
          config.provider2).2 with
      | absent => exact sound_of_empty rfl (hleft _)
      | unreadable e => exact sound_of_empty rfl (hleft _)
      | text parsed =>
        cases parsed with
        | error e => exact sound_of_empty rfl (hleft _)
        | ok params =>
          have hparams : params.spaces = spacesOf config.embedProvider config.provider2 := by
            rw [habsent] at hfile
            exact verifyOrLock_writes hfile
          refine sound_of_inSpaces rfl ?_ (hleft _).inSpaces
          rw [hparams]
          exact hcoherent
    · rw [verifyOrLock_keeps habsent]
      exact h
  · intro hok
    obtain ⟨params, hfile, hspaces, -⟩ := verifyOrLock_ok (Prod.ext hok rfl)
    exact (locked_of_params hfile).trans (congrArg some hspaces)

theorem sound_start {pid : ℕ} {seen : LockFile} {sled : SledOpen} {accepts : String → Bool}
    {cleanup : String → RetagEnv Row} (h : s.Sound ops env world U)
    (hcareful : s.Careful ops world U (.start pid environment seen io sled accepts cleanup))
    (hstep : s.step ops env (.start pid environment seen io sled accepts cleanup) = some s') :
    s'.Sound ops env world U := by
  obtain ⟨rfl, hcoherent⟩ := hcareful
  unfold step at hstep
  dsimp only at hstep
  split at hstep
  · cases hstep
  · obtain ⟨config, hconfig, hstep⟩ := Option.bind_eq_some_iff.mp hstep
    split at hstep
    · cases hstep
    · have hcoherent := hcoherent config hconfig
      obtain ⟨hchecked, hlocked⟩ := h.verified io hcoherent
      split at hstep
      · obtain rfl := Option.some.inj hstep
        exact hchecked
      · rename_i hok
        have hlocked := hlocked hok
        obtain ⟨-, hspaces⟩ := hchecked.inSpaces hlocked
        split at hstep
        · obtain rfl := Option.some.inj hstep
          exact hchecked
        · split at hstep
          · obtain rfl := Option.some.inj hstep
            exact hchecked
          · obtain rfl := Option.some.inj hstep
            refine sound_of_inSpaces hlocked hcoherent ⟨hspaces.cleaned _ cleanup, ?_, ?_⟩
            · dsimp only
              split <;> exact hspaces.cache
            · refine hspaces.server pid fun sv hsv => ?_
              obtain rfl := Option.some.inj hsv
              exact ⟨rfl, fun e he => by cases he⟩

end Start

section Serve

variable {pid : ℕ} {domain : String} {answers : Provider (List F32)}

/-- The push that a server makes of a request collects rows of the spaces. -/
theorem pushOf_rowIn {server : Server} {p : HttpPush (List F32)} {fp : Footprint (List F32)}
    (hserver : spacesOf server.config.embedProvider server.config.provider2 = spaces ∧
      ∀ e ∈ server.answered, spaces.answers world ops e.1 e.2.1 e.2.2)
    {c : Collected (List F32)}
    (hc : (((server.pushOf ops answers p)).requestAt fp).collect = .ok c) :
    ∀ row ∈ c.rows, spaces.RowIn world ops row := by
  obtain ⟨rfl, hanswered⟩ := hserver
  exact collect_rowIn { p.request.env.toIngestEnv with storeClustering := fp.storeClustering }
    (answersWithin_provider hanswered answers) rfl hc

theorem sound_serve {request : Request (List F32)} (h : s.Sound ops env world U)
    (hstep : s.step ops env (.serve pid domain request answers) = some s') :
    s'.Sound ops env world U := by
  obtain ⟨server, hserver, rfl⟩ := Option.map_eq_some_iff.mp hstep
  split
  · exact h
  · obtain ⟨spaces, hlocked, hcoherent, hspaces⟩ := h.of_server hserver
    have hsv := hspaces.servers pid server hserver
    have hafter := serve_within (server.requestOf ops answers request)
      (footprint_within hspaces server domain) (by
        cases request with
        | push p => exact fun c hc => pushOf_rowIn hsv hc
        | _ => exact trivial)
    refine sound_of_inSpaces hlocked hcoherent
      ⟨hspaces.write domain hafter, hspaces.cache, hspaces.server pid fun sv' hsv' => ?_⟩
    obtain rfl := Option.some.inj hsv'
    exact hsv

theorem sound_crash {p : HttpPush (List F32)} {steps : ℕ} (h : s.Sound ops env world U)
    (hstep : s.step ops env (.crash pid domain p answers steps) = some s') :
    s'.Sound ops env world U := by
  obtain ⟨server, hserver, rfl⟩ := Option.map_eq_some_iff.mp hstep
  obtain ⟨spaces, hlocked, hcoherent, hspaces⟩ := h.of_server hserver
  have hsv := hspaces.servers pid server hserver
  have hfp : ((server.pushOf ops answers p).applySettings
      (server.footprint s.dir domain)).domain.Within (spaces.RowIn world ops) := by
    unfold HttpPush.applySettings
    split <;> exact footprint_within hspaces server domain
  have hpush : Program.Walks (KeepsWithin (spaces.RowIn world ops))
      (((server.pushOf ops answers p).requestAt ((server.pushOf ops answers p).applySettings
        (server.footprint s.dir domain))).push p.branch) :=
    push_within _ _ fun c hc => pushOf_rowIn hsv hc
  have hafter := storeAfter_within hpush hfp (some steps)
  refine sound_of_inSpaces hlocked hcoherent
    ⟨hspaces.write domain hafter, hspaces.cache, hspaces.server pid fun sv' hsv' => ?_⟩
  cases hsv'

theorem sound_embed {site : EmbedSite} {network : Network} {texts : List String} {io : SledIo}
    (henv : env.Sound U) (h : s.Sound ops env world U)
    (hcareful : s.Careful ops world U (.embed pid site network texts io))
    (hstep : s.step ops env (.embed pid site network texts io) = some s') :
    s'.Sound ops env world U := by
  obtain ⟨hnetwork, hU⟩ := hcareful
  obtain ⟨server, hserver, rfl⟩ := Option.map_eq_some_iff.mp hstep
  obtain ⟨spaces, hlocked, hcoherent, hspaces⟩ := h.of_server hserver
  obtain ⟨hsv, hanswered⟩ := hspaces.servers pid server hserver
  have hroute : (server.config.route server.clients site).provider.space =
      spaces.ofRole site.role := by
    rw [Config.route_eq, space_embedRoute, hsv]
  have hcache : CacheArg.Holds env U (spaces.cached world ops)
      (some (server.cache, s.dir.cache)) := by
    intro c hc
    obtain rfl := Option.some.inj hc
    exact hspaces.cache
  obtain ⟨hok, hleft⟩ := ioEmbed_from io hcoherent hroute henv hnetwork
    (fun c _ => hU server hserver) hcache
  refine sound_of_inSpaces hlocked hcoherent ⟨hspaces.datasets, ?_, hspaces.server pid ?_⟩
  · dsimp only
    cases hcalled : ((server.config.route server.clients site).ioEmbed env network texts site.role
        io (some (server.cache, s.dir.cache))).2 with
    | none => exact hspaces.cache
    | some c => exact hleft c hcalled
  · intro sv' hsv'
    obtain rfl := Option.some.inj hsv'
    refine ⟨hsv, fun e he => ?_⟩
    rcases List.mem_append.mp he with he | he
    · split at he
      · rename_i vs hvs
        obtain ⟨tv, htv, rfl⟩ := List.mem_map.mp he
        exact (List.forall₂_iff_zip.mp (hok vs hvs)).2 htv
      · cases he
    · exact hanswered e he

end Serve

section Tools

variable {environment : Env} {domain : String}

theorem sound_load {push : PushEnv (List F32)} {network : EmbedCall → Network} {branch : BranchName}
    {commit : CommitId} {operations : List Operation} {steps : Option ℕ} {accepts : String → Bool}
    (henv : env.Sound U) (h : s.Sound ops env world U)
    (hcareful : s.Careful ops world U
      (.load environment push network domain branch commit operations steps accepts))
    (hstep : s.step ops env
      (.load environment push network domain branch commit operations steps accepts) = some s') :
    s'.Sound ops env world U := by
  obtain ⟨hnetwork, hlocked⟩ := hcareful
  obtain ⟨hcoherent, hspaces⟩ := h.inSpaces hlocked
  cases hclients : loadClients environment accepts with
  | none =>
    simp only [step, hclients, Option.some.injEq] at hstep
    rwa [← hstep]
  | some clients =>
    simp only [step, hclients] at hstep
    obtain rfl := Option.some.inj hstep
    have hanswers := answersWithin_load ops clients hcoherent henv hnetwork rfl
    have hloads : LoadsWithin
        (push.withVectors ops (loadAnswers env environment clients network)
          (loadProvider environment).dim)
        ((spacesOf (loadProvider environment)
          (resolveProvider2 (loadProvider environment) environment)).answers world ops)
        ((spacesOf (loadProvider environment)
          (resolveProvider2 (loadProvider environment) environment)).RowIn world ops) := fun row hrow =>
      Spaces.rowIn_of_rowFrom hrow (fun t v hv => hv) fun t q hq => .inl hq
    have hd : ({ (.fresh : Domain (List F32)) with dataset := s.dir.datasets domain }).Within
        ((spacesOf (loadProvider environment)
          (resolveProvider2 (loadProvider environment) environment)).RowIn world ops) :=
      fun ds hds => hspaces.datasets domain ds hds
    have hload : Program.Walks (KeepsWithin ((spacesOf (loadProvider environment)
        (resolveProvider2 (loadProvider environment) environment)).RowIn world ops))
        ((push.withVectors ops (loadAnswers env environment clients network)
          (loadProvider environment).dim).load branch commit operations) :=
      load_within _ hanswers hloads commit operations
    have hafter := storeAfter_within hload hd steps
    exact sound_of_inSpaces hlocked hcoherent
      ⟨hspaces.write domain hafter, hspaces.cache, hspaces.servers⟩

theorem sound_prime {includeClustering : Bool} {io : PrimeIo} (h : s.Sound ops env world U)
    (hcareful : s.Careful ops world U (.prime environment includeClustering io domain))
    (hstep : s.step ops env (.prime environment includeClustering io domain) = some s') :
    s'.Sound ops env world U := by
  obtain ⟨config, hconfig, rfl⟩ := Option.map_eq_some_iff.mp hstep
  obtain ⟨hlocked, hrows⟩ := hcareful config hconfig
  obtain ⟨hcoherent, hspaces⟩ := h.inSpaces hlocked
  refine sound_of_inSpaces hlocked hcoherent ⟨hspaces.datasets, ?_, hspaces.servers⟩
  refine primeEmbedCache_holds hspaces.cache fun rs hrs row hrow e he => ?_
  obtain ⟨ds, hds, rfl⟩ := Option.map_eq_some_iff.mp hrs
  obtain ⟨hU, hzero⟩ := hrows ds hds row hrow
  have hrowIn := (hspaces.datasets domain ds hds none ds.main rfl).headRows row hrow
  exact ⟨hU e he, primeRow_cached rfl hrowIn hzero e he⟩

theorem sound_drop {left : Leftovers} (h : s.Sound ops env world U)
    (hcareful : s.Careful ops world U (.drop left))
    (hstep : s.step ops env (.drop left) = some s') : s'.Sound ops env world U := by
  obtain ⟨hservers, hleft⟩ := hcareful
  obtain rfl := Option.some.inj hstep
  cases hparams : left.params with
  | false =>
    obtain ⟨hcache, hdatasets⟩ := hleft.resolve_left (by rw [hparams]; decide)
    refine sound_of_empty rfl ⟨fun d => ?_, ?_, hservers⟩
    · exact if_neg (by rw [hdatasets d]; decide)
    · dsimp only
      rw [hcache]
      rfl
  | true =>
    cases hlocked : s.locked with
    | none =>
      have hempty := h.empty hlocked
      refine sound_of_empty hlocked ⟨fun d => ?_, ?_, hservers⟩
      · dsimp only
        rw [hempty.datasets d, ite_self]
      · dsimp only
        split
        · exact hempty.cache
        · rfl
    | some spaces =>
      obtain ⟨hcoherent, hspaces⟩ := h.inSpaces hlocked
      refine sound_of_inSpaces hlocked hcoherent ⟨fun d ds hds => ?_, ?_, hspaces.servers⟩
      · dsimp only at hds
        split at hds
        · exact hspaces.datasets d ds hds
        · cases hds
      · dsimp only
        split
        · exact hspaces.cache
        · exact CacheStore.holds_empty 0

end Tools

theorem sound_fresh : (fresh : Deployment).Sound ops env world U :=
  sound_of_empty rfl ⟨fun _ => rfl, rfl, fun _ => rfl⟩

theorem Sound.step {a : DeploymentAction} (henv : env.Sound U) (h : s.Sound ops env world U)
    (hcareful : s.Careful ops world U a) (hstep : s.step ops env a = some s') :
    s'.Sound ops env world U := by
  cases a with
  | start pid environment seen io sled => exact sound_start h hcareful hstep
  | stop pid =>
    obtain rfl := Option.some.inj hstep
    cases hlocked : s.locked with
    | none =>
      have hempty := h.empty hlocked
      refine sound_of_empty hlocked ⟨hempty.datasets, hempty.cache, fun p => ?_⟩
      show Function.update s.servers pid none p = none
      by_cases hp : p = pid
      · rw [hp, Function.update_self]
      · rw [Function.update_of_ne hp, hempty.servers p]
    | some spaces =>
      obtain ⟨hcoherent, hspaces⟩ := h.inSpaces hlocked
      refine sound_of_inSpaces hlocked hcoherent
        ⟨hspaces.datasets, hspaces.cache, hspaces.server pid fun sv hsv => ?_⟩
      cases hsv
  | embed pid site network texts io => exact sound_embed henv h hcareful hstep
  | serve pid domain request answers => exact sound_serve h hstep
  | crash pid domain push answers steps => exact sound_crash h hstep
  | load environment push network domain branch commit operations steps =>
    exact sound_load henv h hcareful hstep
  | prime environment includeClustering io domain => exact sound_prime h hcareful hstep
  | drop left => exact sound_drop h hcareful hstep

/-- In every careful run from an empty directory, the lock file names the spaces of all that is
there: of the rows of every version, whichever process wrote them, of what the cache has, and of
all embeddings that a server was given, those of its queries as well. Without a lock file that can
be read there are no rows and no servers. -/
theorem embedding_spaces_locked (henv : env.Sound U)
    (h : Concurrent.Reaches (step ops env) (Careful ops world U) fresh s) :
    (∀ params, s.dir.params = .text (.ok params) → s.InSpaces ops env world U params.spaces) ∧
      ((∀ params, s.dir.params ≠ .text (.ok params)) → s.Empty) := by
  have hsound : s.Sound ops env world U :=
    h.invariant sound_fresh fun t a u ht hcareful hstep => ht.step henv hcareful hstep
  constructor
  · intro params hparams
    exact (hsound.inSpaces (locked_of_params hparams)).2
  · intro hnone
    refine hsound.empty ?_
    unfold locked
    split
    · rename_i params hparams
      exact absurd hparams (hnone params)
    · rfl

section Samples

def floatOne : F32 := 1065353216

/-- The float operations on 0 and 1. -/
def unitOps : FloatOps where
  mul x y := if x = floatOne ∧ y = floatOne then floatOne else 0
  div x _ := x
  sum xs := if floatOne ∈ xs then floatOne else 0
  sqrt x := x
  isPositive x := x = floatOne

/-- The default model with vectors of one number. -/
def e5Environment : Env := fun name =>
  if name = "VECTORLINK_ADMIN_SECRET" then some "secret"
  else if name = "VECTORLINK_DIM" then some "1"
  else none

/-- An endpoint that answers 1 for every text. -/
def unitNetwork : Network := fun _ request =>
  .ok ⟨200, none, .ok (.ok (request.input.map fun _ => [floatOne]))⟩

def unitWorld : World := fun _ _ _ _ v => v = [floatOne]

theorem unitNetwork_inOrder : unitNetwork.InOrder unitWorld := by
  intro bearer request response embeddings hresponse hbytes _
  obtain rfl := Except.ok.inj hresponse
  rw [← Except.ok.inj (Except.ok.inj hbytes), List.forall₂_map_right_iff, List.forall₂_same]
  exact fun _ _ => rfl

/-- An insertion of a document with the text `a`. -/
def e5Push : HttpPush (List F32) where
  branch := mainBranch
  parentCommit := none
  storeClustering := none
  request :=
    { env :=
        { chunkText := fun s => .ok [⟨0, 1, 0, 1, s⟩]
          provider := fun _ _ => .ok []
          embedBatchSize := 1
          batchSize_pos := Nat.one_pos
          storeClustering := false
          zero := []
          l2Normalize := id
          cancelled := fun _ => false
          fails := fun _ => false
          indexVersions := fun _ => 1
          clusteringConfig := false }
      commit := "c0"
      operations := [.inserted "Doc/1" "a"]
      mode := .buffered }
  cascadeVersions := fun _ => 0
  fork := ⟨"d", fun _ => false⟩
  dropped := false

def e5Start : DeploymentAction :=
  .start 1 e5Environment .absent ⟨.ok (), .ok ()⟩ .db printable
    fun _ => ⟨7, fun _ => false, replayDelta, fun _ => 1, .listed⟩

/-- The embedding of a push, or of a query. -/
def e5Embed (site : EmbedSite) : DeploymentAction := .embed 1 site unitNetwork ["a"] sledWorks

def e5Serve : DeploymentAction :=
  .serve 1 "d" (.push e5Push) fun _ texts => .ok (texts.map fun _ => [floatOne])

def next (s : Deployment) (a : DeploymentAction) : Deployment := (s.step unitOps e5Cache a).getD s

def e5Started : Deployment := next fresh e5Start

def e5Embedded : Deployment := next e5Started (e5Embed .pushDocument)

def e5Indexed : Deployment := next e5Embedded e5Serve

def e5Searched : Deployment := next e5Indexed (e5Embed .search)

theorem e5Start_careful : fresh.Careful unitOps unitWorld e5Keys e5Start := by
  refine ⟨rfl, fun config hconfig => ?_⟩
  have hone : (Config.fromEnv e5Environment).all fun config => config.provider2.isNone := by decide
  rw [hconfig] at hone
  have hnone : config.provider2 = none := Option.isNone_iff_eq_none.mp hone
  intro _
  rw [hnone]
  rfl

/-- Texts of the sample are sent with keys of the sample. -/
theorem e5Embed_careful {s : Deployment} {site : EmbedSite}
    (hkeys : ∀ server, s.servers 1 = some server →
      ((server.config.route server.clients site).provider.model,
        (server.config.route server.clients site).provider.prefixText site.role "a") ∈ e5Keys) :
    s.Careful unitOps unitWorld e5Keys (e5Embed site) := by
  refine ⟨unitNetwork_inOrder, fun server hserver t ht => ?_⟩
  rw [List.mem_singleton.mp ht]
  exact hkeys server hserver

theorem e5_reaches : Concurrent.Reaches (step unitOps e5Cache) (Careful unitOps unitWorld e5Keys) fresh
    e5Searched := by
  have hpush : e5Started.Careful unitOps unitWorld e5Keys (e5Embed .pushDocument) := by
    refine e5Embed_careful fun server hserver => ?_
    obtain rfl := Option.some.inj hserver
    exact .inl rfl
  have hsearch : e5Indexed.Careful unitOps unitWorld e5Keys (e5Embed .search) := by
    refine e5Embed_careful fun server hserver => ?_
    obtain rfl := Option.some.inj hserver
    exact .inr rfl
  have hstart : fresh.step unitOps e5Cache e5Start = some e5Started := rfl
  have hembed : e5Started.step unitOps e5Cache (e5Embed .pushDocument) = some e5Embedded := rfl
  have hserve : e5Embedded.step unitOps e5Cache e5Serve = some e5Indexed := rfl
  have hquery : e5Indexed.step unitOps e5Cache (e5Embed .search) = some e5Searched := rfl
  have hfirst := Concurrent.Reaches.refl.tail e5Start_careful hstart
  have hsecond := hfirst.tail hpush hembed
  have hthird : Concurrent.Reaches (step unitOps e5Cache) (Careful unitOps unitWorld e5Keys) fresh
      e5Indexed := hsecond.tail (a := e5Serve) trivial hserve
  exact hthird.tail hsearch hquery

/-- A server starts, indexes a document and embeds a query: the row, the cache and the two answers
are of the spaces of the lock file that it has written. -/
theorem embedding_spaces_locked_e5 :
    (e5Searched.dir.datasets "d").map (fun ds => ds.main.headRows.map (·.embedding)) =
        some [[floatOne]] ∧
      (e5Searched.servers 1).map (·.answered.length) = some 2 ∧
      ∃ params, e5Searched.dir.params = .text (.ok params) ∧
        e5Searched.InSpaces unitOps e5Cache unitWorld e5Keys params.spaces := by
  obtain ⟨params, hparams⟩ : ∃ params, e5Searched.dir.params = .text (.ok params) := ⟨_, rfl⟩
  exact ⟨by decide, by decide, params, hparams,
    (embedding_spaces_locked e5Cache_sound e5_reaches).1 params hparams⟩

end Samples

end Deployment

end Vectorlink
