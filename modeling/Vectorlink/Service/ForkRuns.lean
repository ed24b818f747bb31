import Vectorlink.Concurrent.Runs
import Vectorlink.Service.Fork
import Vectorlink.Service.SettledBranch

/-! Where a forked branch starts. A fork from an indexed commit starts at its rows. Without
one it starts at the newest version of the default branch, which is the last indexed one as
long as no push stands between its first write and the recording of its commit. -/
namespace Vectorlink

open Stepwise Stepwise.Program Versioned Concurrent

variable {V : Type}

section Later

variable {b : BranchName} {s t u : Domain V}

/-- What a push never does: change the rows of a version, or take an indexed commit away. -/
structure Later (s t : Domain V) : Prop where
  head : s.opened.main.head ≤ t.opened.main.head
  rows : ∀ v ≤ s.opened.main.head, ∀ r, t.opened.main.rows v = some r →
    s.opened.main.rows v = some r
  homes : KeepsHomes s.opened t.opened

theorem Later.of_opened (h : t.opened = s.opened) : Later s t := by
  refine ⟨?_, fun v _ r hr => ?_, fun c tag r hhome => ?_⟩
  · rw [h]
  · rw [← h]
    exact hr
  · rw [h]
    exact hhome

theorem Later.trans (h : Later s t) (h' : Later t u) : Later s u where
  head := h.head.trans h'.head
  rows v hv r hr := h.rows v hv r (h'.rows v (hv.trans h.head) r hr)
  homes c tag r hhome := h'.homes c tag r (h.homes c tag r hhome)

/-- More versions of a branch. -/
theorem later_setLineage {ds : LanceDataset (ChunkRow V)} {l l' : Lineage (ChunkRow V)}
    {source : Option BranchName} (hds : s.dataset = some ds) (hl : ds.lineage? source = some l)
    (hhead : l.head ≤ l'.head) (hrows : ∀ v ≤ l.head, l'.rows v = l.rows v)
    (hkeep : KeepsHomes ds (ds.setLineage source l')) :
    Later s { s with dataset := some (ds.setLineage source l') } := by
  have hopened := Domain.opened_of_some hds
  rw [← hopened] at hl hkeep ⊢
  cases source with
  | none =>
    have hmain : s.opened.main = l := Option.some.inj hl
    refine ⟨?_, fun v hv r hr => ?_, hkeep⟩
    · rw [hmain]
      exact hhead
    · rw [hmain] at hv ⊢
      rw [← hrows v hv]
      exact hr
  | some b => exact ⟨le_rfl, fun v _ r hr => hr, hkeep⟩

theorem PushStep.later (h : PushStep b s t) : Later s t := by
  cases h with
  | openDataset => exact .of_opened (by simp)
  | openReadonly => exact .of_opened (by simp)
  | refresh => exact .of_opened (by simp)
  | cacheLastIndexed => exact .of_opened rfl
  | commit hds hok =>
    obtain ⟨l, hl, rfl⟩ := Dataset.commit_ok.mp hok
    refine later_setLineage hds hl (Nat.le_succ _) (fun v hv => ?_) fun _ _ _ h => h.commit hok
    simp only [Lineage.advance]
    rw [if_neg (by omega)]
  | @touch ds _ n hds hok =>
    obtain ⟨l, hl, rfl⟩ := Dataset.touch_ok.mp hok
    refine later_setLineage hds hl ?_ (fun v hv => Lineage.touch_rows_of_le hv n) fun _ _ _ h =>
      h.touch hok
    rw [Lineage.touch_head]
    exact Nat.le_add_right _ _
  | createTag hds hok =>
    have hopened := Domain.opened_of_some hds
    have hmain := (Dataset.createTag_ok.mp hok).2.2
    refine ⟨?_, fun v _ r hr => ?_, fun c tag r hhome => ?_⟩
    · rw [hopened, Domain.opened_of_some rfl, hmain]
      exact le_rfl
    · rw [Domain.opened_of_some rfl, hmain] at hr
      rw [hopened]
      exact hr
    · rw [hopened] at hhome
      exact hhome.createTag hok
  | @cleanup ds hds =>
    have hopened := Domain.opened_of_some hds
    refine ⟨by rw [hopened]; exact le_rfl, fun v _ r hr => ?_, fun c tag r hhome => ?_⟩
    · have hprune : (ds.main.prune ds.mainTagged).rows v = some r := hr
      rw [hopened]
      simp only [Lineage.prune] at hprune
      split at hprune
      · exact hprune
      · cases hprune
    · rw [hopened] at hhome
      exact hhome.cleanup

end Later

section Runs

/-- What happens to a domain: requests, and the starts of a server. -/
inductive DomainEvent (V : Type) where
  | push (b : BranchName) (r : PushRequest V)
  | fork (env : ForkEnv) (b : BranchName) (parent : CommitId)
  | assign (env : StoreEnv) (b : BranchName) (source target : CommitId)
  | compact (env : RetagEnv (ChunkRow V))
  | reset (env : StoreEnv) (b : BranchName)
  | search
  | lastIndexed (b : BranchName)
  | restart (cleanup : RetagEnv (ChunkRow V))

def DomainEvent.apply (d : Domain V) : DomainEvent V → Domain V
  | .push b r => (r.push b d).store
  | .fork env b parent =>
    match (env.ioEnsureBranchForked b parent).runOn [d, d, d, d, d] with
    | some (.ok (.created _ after)) => after
    | _ => d
  | .assign env b source target => (env.ioAssignCommit b source target d).store
  | .compact env => d.compacted env
  | .reset env b => (env.ioDeleteBranchIndex b d).store
  | .search => d.openReadonly
  | .lastIndexed b => (Vectorlink.lastIndexed d b).2
  | .restart cleanup => d.restarted cleanup

/-- On the default branch, pushes do not stop between their first write and the recording of their
commit, an assignment that can set its tag takes a version with the newest rows, and neither a
compaction nor a reset changes which commit is the last or what it serves. -/
def DomainEvent.Sound (d : Domain V) : DomainEvent V → Prop
  | .push b r => RequestBranch b ∧ (b = mainBranch → r.Settles)
  | .assign _ b source target => RequestBranch b ∧ (b = mainBranch → target ∉ d.opened.tags →
      ∀ t, d.opened.tags.lookup source = some t → PointsAtHead d.opened t.version)
  | .compact env => (∀ ds, d.dataset = some ds → env.FreshEpoch ds) ∧
      KeepsLast d.opened (d.compacted env).opened
  | .reset env b => RequestBranch b ∧
      (b = mainBranch → KeepsLast d.opened (env.ioDeleteBranchIndex b d).store.opened)
  | .fork .. | .search | .lastIndexed _ | .restart _ => True

/-- A fork leaves the default branch settled. -/
theorem ForkedAt.settled {base : List (ChunkRow V)} {d after : Domain V} {b : BranchName}
    {parent : CommitId} (h : ForkedAt b parent d d d after)
    (hd : Settled False mainBranch base d) : Settled False mainBranch base after := by
  cases h with
  | tag hds _ hok hafter =>
    subst hafter
    exact hd.beside hds (beside_createBranch hok) fun v hv => .inr hv
  | main _ hds hok hcached hafter =>
    subst hafter hcached
    refine hd.beside hds (beside_createBranch hok) fun v hv => ?_
    cases hc : d.cached with
    | none =>
      rw [hc] at hv
      exact .inl (Option.some.inj hv).symm
    | some w =>
      rw [hc] at hv
      exact .inr hv

/-- The step lemma. -/
theorem settled_apply {base : List (ChunkRow V)} {d : Domain V} {e : DomainEvent V}
    (hd : Settled False mainBranch base d) (hsound : e.Sound d) :
    Settled False mainBranch base (e.apply d) := by
  cases e with
  | push b r =>
    by_cases hb : b = mainBranch
    · subst hb
      exact (r.push_settled hd (hsound.2 rfl)).final rfl
    · exact ((r.push_walks b d).invariant (fun _ _ h => h.settled_other hb hsound.1) hd).2
  | fork env b parent =>
    simp only [DomainEvent.apply]
    split
    · rename_i v after hfork
      exact (forkedAt_of_created hfork).settled hd
    · exact hd
  | assign env b source target =>
    by_cases hb : b = mainBranch
    · subst hb
      exact hd.assign (hsound.2 rfl)
    · exact hd.assign_other hb hsound.1 env source target
  | compact env => exact hd.frame (sameHead_compacted hd hsound.1) hsound.2
  | reset env b =>
    have hreset : Untagging b d (env.ioDeleteBranchIndex b d).store :=
      ioDeleteBranchIndex_untagging d
    by_cases hb : b = mainBranch
    · exact hd.frame (hreset.sameHead hd) (hsound.2 hb)
    · exact hreset.settled_other hb hsound.1 hd
  | search =>
    obtain ⟨l, hl⟩ := hd
    exact ⟨l, hl.openReadonly⟩
  | lastIndexed b => exact hd.lastIndexed b
  | restart cleanup => exact hd.restarted cleanup

/-- The default branch is settled along every such run. -/
theorem settled_of_reaches {d : Domain V}
    (hrun : Reaches (fun d e => some (DomainEvent.apply d e)) DomainEvent.Sound .fresh d) :
    Settled False mainBranch [] d :=
  hrun.invariant (unindexed_fresh.settled False) fun d e d' hd hsound hstep => by
    obtain rfl := Option.some.inj hstep
    exact settled_apply hd hsound

/-- A run of events that are sound in any state. -/
theorem reaches_foldl {events : List (DomainEvent V)} (h : ∀ e ∈ events, ∀ d, e.Sound d)
    (d : Domain V) :
    Reaches (fun d e => some (DomainEvent.apply d e)) DomainEvent.Sound d
      (events.foldl DomainEvent.apply d) := by
  induction events generalizing d with
  | nil => exact .refl
  | cons e events ih =>
    have hfirst : Reaches (fun d e => some (DomainEvent.apply d e)) DomainEvent.Sound d
        (e.apply d) := .tail .refl (h e List.mem_cons_self d) rfl
    exact hfirst.trans (ih (fun e' he' => h e' (List.mem_cons_of_mem e he')) _)

/-- The moments of a push to the default branch. They are marked unless the push stands
between its first write and the recording of its commit. -/
def pushMoments (r : PushRequest V) (d : Domain V) : List (Bool × Domain V) :=
  (true, d) :: (r.push mainBranch d).trace.map fun e => (e.1.settled, e.2)

/-- The new branch has the rows served at the parent if it is indexed, and otherwise the rows
of the last commit of the default branch, none if it has none. -/
def StartsIndexed (b : BranchName) (parent : CommitId) (after : Domain V) : Prop :=
  ∃ l, after.opened.lineage? (some b) = some l ∧
    (parent ∈ after.opened.tags → after.opened.served parent = some l.headRows) ∧
    (parent ∉ after.opened.tags →
      match ioDeriveLastIndexed after.opened mainBranch with
      | some (c, _) => ∃ rows, after.opened.served c = some rows ∧ rows.Perm l.headRows
      | none => l.headRows = [])

variable {d : Domain V} {r : PushRequest V}

theorem settled_of_marked (hd : Settled False mainBranch [] d) {m : Bool × Domain V}
    (hm : m ∈ pushMoments r d) (hmarked : m.1 = true) : Settled False mainBranch [] m.2 := by
  rcases List.mem_cons.mp hm with rfl | hm
  · exact hd
  · obtain ⟨⟨op, s⟩, hmem, rfl⟩ := List.mem_map.mp hm
    exact PushRequest.trace_settled hd hmem hmarked

theorem later_of_inOrder {m₀ m₁ m₂ m₃ m₄ : Bool × Domain V}
    (h : InOrder (pushMoments r d) [m₀, m₁, m₂, m₃, m₄]) : Later m₃.2 m₄.2 := by
  have hwalk := (r.push_walks mainBranch d).pairwise (Q := Later)
    (fun _ _ _ h h' => h.trans h') fun _ _ h => h.later
  have hmoments : (pushMoments r d).Pairwise fun m m' => Later m.2 m'.2 := by
    have hsnd : (pushMoments r d).map Prod.snd = d :: (r.push mainBranch d).trace.map Prod.snd := by
      simp [pushMoments, Function.comp_def]
    rwa [← hsnd, List.pairwise_map] at hwalk
  have hseen := h.pairwise (fun _ => .of_opened rfl) hmoments
  simp only [List.pairwise_cons, List.mem_cons, List.not_mem_nil, or_false, forall_eq] at hseen
  exact hseen.2.2.2.1

/-- A branch that was created from a tag. -/
theorem startsIndexed_of_tag {d : Domain V} {ds ds' : LanceDataset (ChunkRow V)}
    {t : TagContents BranchName} {b : BranchName} {parent : CommitId}
    (ht : ds.tags.lookup parent = some t)
    (hok : ds.createBranch b t.branch t.version = .ok ds') :
    StartsIndexed b parent { d with dataset := some ds' } := by
  obtain ⟨-, rows, hrows, hds'⟩ := Dataset.createBranch_ok.mp hok
  have hhome : Dataset.Home parent t rows ds := ⟨ht, hrows⟩
  refine ⟨.start t.version rows, ?_, fun _ => (hhome.createBranch hok).served, fun hnot => ?_⟩
  · rw [Domain.opened_of_some rfl, hds']
    exact AList.lookup_insert _
  · refine absurd (AList.lookup_isSome.mp ?_) hnot
    rw [Domain.opened_of_some rfl, hds', ht]
    rfl

/-- A branch that was created from a version read off a settled default branch. -/
theorem startsIndexed_of_main {b : BranchName} {parent : CommitId} {read created : Domain V}
    {ds ds' : LanceDataset (ChunkRow V)} {cached : Option ℕ}
    (hread : Settled False mainBranch [] read) (hlater : Later read created)
    (htags : created.opened.tags = read.opened.tags) (hparent : parent ∉ created.opened.tags)
    (hds : created.dataset = some ds)
    (hok : ds.createBranch b none (read.cached.getD read.opened.main.head) = .ok ds') :
    StartsIndexed b parent { created with dataset := some ds', cached := cached } := by
  obtain ⟨l, hl⟩ := hread
  have hmain : read.opened.main = l := Option.some.inj hl.lineage
  have hversion : read.cached.getD read.opened.main.head = l.head := by
    cases hc : read.cached with
    | none => rw [Option.getD_none, hmain]
    | some v => exact hl.handle rfl v hc
  rw [hversion] at hok
  have hopened := Domain.opened_of_some hds
  obtain ⟨-, rows, hrows, hds'⟩ := Dataset.createBranch_ok.mp hok
  -- the version that was read has not changed since
  have hsame : rows = l.headRows := by
    have hold := hlater.rows l.head (by rw [hmain]) rows (by rw [hopened]; exact hrows)
    rw [hmain, l.rows_head] at hold
    exact (Option.some.inj hold).symm
  subst hsame
  have hkeep : KeepsHomes read.opened ds' := by
    intro c t r hhome
    have hhome' := hlater.homes c t r hhome
    rw [hopened] at hhome'
    exact hhome'.createBranch hok
  have htags' : ds'.tags = read.opened.tags := by rw [hds', ← htags, hopened]
  refine ⟨.start l.head l.headRows, ?_, fun hmem => ?_, fun _ => ?_⟩
  · rw [Domain.opened_of_some rfl, hds']
    exact AList.lookup_insert _
  · rw [Domain.opened_of_some rfl, htags', ← htags] at hmem
    exact absurd hmem hparent
  · rw [Domain.opened_of_some rfl, ioDeriveLastIndexed_congr htags']
    cases hderive : ioDeriveLastIndexed read.opened mainBranch with
    | none => exact List.nil_perm.mp (hl.unindexed hderive)
    | some e => exact (hl.derived e.1 e.2 hderive).keep hkeep

/-- In a sound run, the newest version of the default branch is read outside the work of a push;
from then on no commit is tagged, and the parent is not tagged by then. -/
structure QuietFallback (d : Domain V) (parent : CommitId) (read created : Bool × Domain V) :
    Prop where
  run : Reaches (fun d e => some (DomainEvent.apply d e)) DomainEvent.Sound .fresh d
  outside : read.1 = true
  quiet : created.2.opened.tags = read.2.opened.tags
  missing : parent ∉ created.2.opened.tags

/-- A forked branch starts at an indexed snapshot: from any state of the domain and beside any push
if its parent is indexed when its tag is looked up, and otherwise if the fallback is quiet. -/
theorem fork_starts_indexed {env : ForkEnv} {b : BranchName} {parent : CommitId} {v : ℕ}
    {after : Domain V} {listed looked checked read created : Bool × Domain V}
    (hseen : InOrder (pushMoments r d) [listed, looked, checked, read, created])
    (hfork : (env.ioEnsureBranchForked b parent).runOn
      [listed.2, looked.2, checked.2, read.2, created.2] = some (.ok (.created v after)))
    (hquiet : parent ∈ looked.2.opened.tags ∨ QuietFallback d parent read created) :
    StartsIndexed b parent after := by
  cases forkedAt_of_created hfork with
  | tag _ ht hok hafter =>
    subst hafter
    exact startsIndexed_of_tag ht hok
  | main hmissing hds hok _ hafter =>
    have hfallback := hquiet.resolve_left hmissing
    have hread := settled_of_marked (settled_of_reaches hfallback.run)
      (hseen.mem read (by simp)) hfallback.outside
    subst hafter
    exact startsIndexed_of_main hread (later_of_inOrder hseen) hfallback.quiet hfallback.missing
      hds hok

end Runs

section Samples

/-- A fork of branch `feature` from a commit that was never pushed, all its reads at `d`. -/
def forkFeature (d : Domain V) : Option (Except StoreError (ForkOutcome V)) :=
  (ForkEnv.ioEnsureBranchForked ⟨"admin/db", fun _ => false⟩ "feature" "c9").runOn [d, d, d, d, d]

def featureOf (d : Domain V) : Domain V :=
  match forkFeature d with
  | some (.ok (.created _ after)) => after
  | _ => d

/-- The version at which the fork created the branch. -/
def featureVersion (d : Domain V) : Option ℕ :=
  match forkFeature d with
  | some (.ok (.created v _)) => some v
  | _ => none

theorem forkFeature_eq {d : Domain V} {v : ℕ} (h : featureVersion d = some v) :
    forkFeature d = some (.ok (.created v (featureOf d))) := by
  unfold featureVersion at h
  unfold featureOf
  split at h
  · rename_i hfork
    obtain rfl := Option.some.inj h
    rw [hfork]
  · cases h

/-- A push of one document to the default branch. -/
def insertOne (commit : CommitId) (id : DocId) : DomainEvent Unit :=
  .push mainBranch ⟨plainEnv fun _ => false, commit, [.inserted id "text"], .buffered⟩

theorem insertOne_sound (commit : CommitId) (id : DocId) (d : Domain Unit) :
    (insertOne commit id).Sound d :=
  ⟨requestBranch_main, fun _ => settles_of_no_fault fun _ => rfl⟩

def threeIndexed : Domain Unit :=
  [insertOne "c0" "a", insertOne "c1" "b", insertOne "c2" "c"].foldl DomainEvent.apply .fresh

/-- Three commits, compacted: the last two are tagged on the rebuild branch. -/
def compactedThree : Domain Unit :=
  threeIndexed.compacted (faultFree 7 (fun _ => 1) .listed)

theorem keepsLast_compactedThree : KeepsLast threeIndexed.opened compactedThree.opened := by
  have hderive : ioDeriveLastIndexed threeIndexed.opened mainBranch = some ("c2", 8) := by
    decide +kernel
  have hserved : compactedThree.opened.served "c2" = threeIndexed.opened.served "c2" := by
    decide +kernel
  have hversions : ∀ e ∈ compactedThree.opened.tags.entries,
      e.2.version ≤ compactedThree.opened.main.head := by
    decide +kernel
  refine ⟨by decide +kernel, fun c v hc r hr => ⟨r, ?_, .refl r⟩, fun c t ht _ => ?_⟩
  · rw [hderive, Option.some.injEq, Prod.mk.injEq] at hc
    rw [← hc.1, hserved, hc.1, hr]
  · exact hversions ⟨c, t⟩ (AList.mem_lookup_iff.mp ht)

theorem fork_starts_indexed_feature :
    featureVersion compactedThree = some 9 ∧
      StartsIndexed "feature" "c9" (featureOf compactedThree) := by
  have hpushes : Reaches (fun d e => some (DomainEvent.apply d e)) DomainEvent.Sound .fresh
      threeIndexed := by
    refine reaches_foldl (fun e he d => ?_) .fresh
    simp only [List.mem_cons, List.not_mem_nil, or_false] at he
    rcases he with rfl | rfl | rfl <;> exact insertOne_sound _ _ d
  have hfresh : ∀ ds, threeIndexed.dataset = some ds →
      (faultFree 7 (fun _ => 1) .listed).FreshEpoch ds := by
    intro ds hds
    rw [← Domain.opened_of_some hds]
    exact RetagEnv.freshEpoch_of_entries (by decide +kernel)
  have hrun : Reaches (fun d e => some (DomainEvent.apply d e)) DomainEvent.Sound .fresh
      compactedThree :=
    .tail hpushes (a := .compact (faultFree 7 (fun _ => 1) .listed))
      ⟨hfresh, keepsLast_compactedThree⟩ rfl
  have hversion : featureVersion compactedThree = some 9 := by decide +kernel
  have hmissing : "c9" ∉ compactedThree.opened.tags := by decide +kernel
  refine ⟨hversion, ?_⟩
  -- from here on only these facts about the state count
  generalize compactedThree = d at hrun hversion hmissing ⊢
  have hseen : InOrder (pushMoments changeA d) [(true, d), (true, d), (true, d), (true, d),
      (true, d)] := .here (.here (.here (.here (.here .nil))))
  exact fork_starts_indexed hseen (forkFeature_eq hversion) (.inr ⟨hrun, rfl, rfl, hmissing⟩)

/-- After a push that could not set its tag, the new branch has its rows. -/
theorem fork_not_starts_indexed :
    forkFeature untaggedA = some (.ok (.created 2 (featureOf untaggedA))) ∧
      ¬ StartsIndexed "feature" "c9" (featureOf untaggedA) := by
  refine ⟨by rfl, ?_⟩
  rintro ⟨l, hl, -, hmain⟩
  have hrows : ((featureOf untaggedA).opened.lineage? (some "feature")).map
      (·.headRows.length) = some 1 := by rfl
  have hderive : ioDeriveLastIndexed (featureOf untaggedA).opened mainBranch = none := by rfl
  have hempty := hmain (by decide)
  rw [hderive] at hempty
  simp only at hempty
  rw [hl, Option.map_some, hempty] at hrows
  cases hrows

end Samples

end Vectorlink
