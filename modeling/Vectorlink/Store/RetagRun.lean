import Vectorlink.Store.Retag

/-! What each phase of a compaction can do to the dataset, whichever calls fail. -/
namespace Vectorlink

open Stepwise Stepwise.Program Versioned

namespace RetagEnv

variable {ρ α : Type} (env : RetagEnv ρ)

section Calls

variable {P : LanceDataset ρ → Prop} {E : LanceDataset ρ → Prop}
  {T : RetagOp → LanceDataset ρ → Prop} {op : RetagOp} {context : String}

theorem reads_spec {f : LanceDataset ρ → Except RefError α} {Q : α → LanceDataset ρ → Prop}
    (hok : ∀ s a, P s → env.fails op = false → f s = .ok a → Q a s)
    (herr : ∀ s, P s → env.fails op = true ∨ (∃ e, f s = .error e) → E s) :
    Spec P (env.reads op context f) Q (fun _ => E) T := by
  refine Spec.look fun s hs => ?_
  cases hop : env.fails op with
  | true => simpa [hop] using herr s hs (.inl hop)
  | false =>
    cases hf : f s with
    | error e => simpa [hop, Except.mapError] using herr s hs (.inr ⟨e, hf⟩)
    | ok a => simpa [hop, Except.mapError] using hok s a hs hop hf

theorem opens_spec {Q : LanceDataset ρ → Prop} (hok : ∀ s, P s → env.fails op = false → Q s)
    (herr : ∀ s, P s → env.fails op = true → E s) :
    Spec P (env.opens op) (fun _ => Q) (fun _ => E) T :=
  env.reads_spec (fun s _ hs hop _ => hok s hs hop)
    (fun s hs h => herr s hs (h.resolve_right (by simp)))

theorem writes_spec {f : LanceDataset ρ → Except RefError (LanceDataset ρ)}
    {Q : LanceDataset ρ → Prop}
    (hok : ∀ s t, P s → env.fails op = false → f s = .ok t → T op t ∧ Q t)
    (herr : ∀ s, P s → env.fails op = true ∨ (∃ e, f s = .error e) → E s) :
    Spec P (env.writes op context f) (fun _ => Q) (fun _ => E) T := by
  refine Spec.step fun s hs => ?_
  cases hop : env.fails op with
  | true => simpa [hop] using herr s hs (.inl hop)
  | false =>
    cases hf : f s with
    | error e => simpa [hop, Except.mapError] using herr s hs (.inr ⟨e, hf⟩)
    | ok t => simpa [hop, Except.mapError] using hok s t hs hop hf

/-- A write whose failure is only logged. -/
theorem softWrites_spec {f : LanceDataset ρ → Except RefError (LanceDataset ρ)}
    {Q : LanceDataset ρ → Prop}
    (hok : ∀ s t, P s → env.fails op = false → f s = .ok t → T op t ∧ Q t)
    (herr : ∀ s, P s → env.fails op = true ∨ (∃ e, f s = .error e) → Q s) :
    Spec P (attempt (env.writes op context f) : Retag ρ (Except StoreError Unit)) (fun _ => Q) (fun _ => E) T :=
  Spec.attempt_const (env.writes_spec hok herr)

theorem preserves_opens {I : LanceDataset ρ → Prop} : Preserves I (env.opens op) :=
  env.opens_spec (fun _ hs _ => hs) (fun _ hs _ => hs)

theorem preserves_writes {I : LanceDataset ρ → Prop}
    {f : LanceDataset ρ → Except RefError (LanceDataset ρ)}
    (h : ∀ s t, I s → f s = .ok t → I t) : Preserves I (env.writes op context f) :=
  env.writes_spec (fun s t hs _ hf => ⟨h s t hs hf, h s t hs hf⟩) (fun _ hs _ => hs)

theorem walks_reads (f : LanceDataset ρ → Except RefError α) :
    Walks Dataset.Step (env.reads op context f) := Walks.look _

theorem walks_writes {f : LanceDataset ρ → Except RefError (LanceDataset ρ)}
    (h : ∀ s t, f s = .ok t → Dataset.Step s t) : Walks Dataset.Step (env.writes op context f) := by
  refine Walks.step fun s t hst => ?_
  split at hst
  · cases hst
  · cases hf : f s with
    | error e => simp [hf, Except.mapError] at hst
    | ok t' =>
      obtain rfl : t' = t := by simpa [hf, Except.mapError] using hst
      exact h s t' hf

end Calls

theorem erase_keys_insert {β : Type} (m : AList fun _ : BranchName => β) (b : BranchName) (x : β) :
    (m.insert b x).keys.erase b = m.keys.erase b := by
  rw [AList.keys_insert, List.erase_cons_head]

theorem erase_keys_erase {β : Type} (m : AList fun _ : BranchName => β) (b : BranchName) :
    (m.erase b).keys.erase b = m.keys.erase b := by
  rw [AList.keys_erase]
  exact List.erase_of_not_mem m.keys_nodup.not_mem_erase

/-- The dataset as Phase 1 found it, up to the contents of the rebuild branch. -/
structure Replayed (ds s : LanceDataset ρ) : Prop where
  main : s.main = ds.main
  tags : s.tags = ds.tags
  clock : s.clock = ds.clock
  branches : ∀ b, b ≠ env.rebuildBranch → s.branches.lookup b = ds.branches.lookup b
  order : s.branches.keys.erase env.rebuildBranch = ds.branches.keys.erase env.rebuildBranch

/-- The compaction epoch is new: no tag names a rebuild branch of that epoch. -/
def FreshEpoch (ds : LanceDataset ρ) : Prop :=
  ∀ c t, ds.tags.lookup c = some t → t.branch ≠ some env.rebuildBranch

variable {env} {ds s : LanceDataset ρ}

theorem Replayed.refl (ds : LanceDataset ρ) : env.Replayed ds ds := ⟨rfl, rfl, rfl, fun _ _ => rfl, rfl⟩

theorem Replayed.rowsAt (h : env.Replayed ds s) {b : Option BranchName}
    (hb : b ≠ some env.rebuildBranch) (v : ℕ) : s.rowsAt b v = ds.rowsAt b v := by
  cases b with
  | none => simp [Dataset.rowsAt, h.main]
  | some b => simp [Dataset.rowsAt, h.branches b (fun e => hb (by rw [e]))]

theorem Replayed.served (h : env.Replayed ds s) (hf : env.FreshEpoch ds) (c : CommitId) :
    s.served c = ds.served c := by
  unfold Dataset.served
  rw [h.tags]
  cases ht : ds.tags.lookup c with
  | none => rfl
  | some t => exact h.rowsAt (hf c t ht) _

theorem Replayed.setLineage (h : env.Replayed ds s) (l : Lineage ρ) :
    env.Replayed ds (s.setLineage (some env.rebuildBranch) l) where
  main := h.main
  tags := h.tags
  clock := h.clock
  branches b hb := by
    rw [← h.branches b hb]
    exact AList.lookup_insert_ne hb
  order := by
    rw [← h.order]
    exact erase_keys_insert _ _ _

/-- `Replayed`, with the rebuild branch at `l`. -/
structure AtRebuild (ds : LanceDataset ρ) (env : RetagEnv ρ) (l : Lineage ρ)
    (s : LanceDataset ρ) : Prop extends env.Replayed ds s where
  rebuild : s.branches.lookup env.rebuildBranch = some l

theorem AtRebuild.setLineage {l : Lineage ρ} (h : AtRebuild ds env l s) (l' : Lineage ρ) :
    AtRebuild ds env l' (s.setLineage (some env.rebuildBranch) l') where
  toReplayed := h.toReplayed.setLineage l'
  rebuild := AList.lookup_insert _

/-- The rebuild branch after the writes of one delta. -/
def advanceAll (l : Lineage ρ) (ws : List (BranchWrite ρ)) : Lineage ρ :=
  ws.foldl (fun l write => l.advance (write.apply l.headRows)) l

theorem advanceAll_head (l : Lineage ρ) (ws : List (BranchWrite ρ)) :
    (advanceAll l ws).head = l.head + ws.length := by
  induction ws generalizing l with
  | nil => rfl
  | cons w ws ih =>
    rw [advanceAll, List.foldl_cons, ← advanceAll, ih]
    simp only [Lineage.advance_head, List.length_cons]
    omega

theorem advanceAll_rows_of_some {l : Lineage ρ} {v : ℕ} {r : List ρ} (h : l.rows v = some r)
    (ws : List (BranchWrite ρ)) : (advanceAll l ws).rows v = some r := by
  induction ws generalizing l with
  | nil => exact h
  | cons w ws ih => exact ih (Lineage.advance_rows_of_some h _)

/-- The rows that the writes of a delta make of `h`. -/
def runWrites (ws : List (BranchWrite ρ)) (h : List ρ) : List ρ :=
  ws.foldl (fun h write => write.apply h) h

theorem advanceAll_headRows (l : Lineage ρ) (ws : List (BranchWrite ρ)) :
    (advanceAll l ws).headRows = runWrites ws l.headRows := by
  induction ws generalizing l with
  | nil => rfl
  | cons w ws ih =>
    rw [advanceAll, List.foldl_cons, ← advanceAll, ih]
    rfl

theorem applyDelta_spec {B : Prop} (c : CommitId) (ws : List (BranchWrite ρ)) (phase : ℕ)
    (l : Lineage ρ) (hB : ∀ k < ws.length, env.fails (.deltaWrite c (phase + k)) = true → B) :
    Spec (AtRebuild ds env l) (env.applyDelta c phase ws)
      (fun _ s => AtRebuild ds env (advanceAll l ws) s ∧
        ∀ k < ws.length, env.fails (.deltaWrite c (phase + k)) = false)
      (fun _ s => env.Replayed ds s ∧ B) (fun _ => env.Replayed ds) := by
  induction ws generalizing phase l with
  | nil => exact Spec.pure fun _ hs => ⟨hs, by simp⟩
  | cons w ws ih =>
    refine Spec.bind (R := fun _ s => AtRebuild ds env (l.advance (w.apply l.headRows)) s ∧
      env.fails (.deltaWrite c phase) = false)
      (env.writes_spec (fun s t hs hop hf => ?_) (fun s hs h => ⟨hs.toReplayed, ?_⟩))
      fun _ => Spec.of_and fun hop => ?_
    · obtain ⟨l', hl', rfl⟩ := Dataset.commit_ok.mp hf
      obtain rfl : l' = l := Option.some.inj (hl'.symm.trans hs.rebuild)
      exact ⟨hs.toReplayed.setLineage _, hs.setLineage _, hop⟩
    · rcases h with h | ⟨e, h⟩
      · exact hB 0 (by simp) h
      · simp [Dataset.commit, hs.rebuild] at h
    · -- the remaining writes are numbered from the next phase on
      have hrec := ih (phase + 1) (l.advance (w.apply l.headRows)) fun k hk h =>
        hB (k + 1) (by simpa using hk) (by rwa [show phase + (k + 1) = phase + 1 + k by omega])
      refine hrec.post fun _ t ht => ⟨ht.1, fun k hk => ?_⟩
      cases k with
      | zero => exact hop
      | succ k =>
        rw [show phase + (k + 1) = phase + 1 + k by omega]
        exact ht.2 k (by simpa using hk)

theorem rebuildVersion_spec {l : Lineage ρ} {E : LanceDataset ρ → Prop}
    {T : RetagOp → LanceDataset ρ → Prop} :
    Spec (AtRebuild ds env l) env.rebuildVersion
      (fun v s => AtRebuild ds env l s ∧ v = l.head) (fun _ => E) T := by
  refine Spec.look fun s hs => ?_
  rw [hs.rebuild]
  exact ⟨hs, rfl⟩

theorem ioEnsureFtsIndex_spec {B : Prop} (c : CommitId) (l : Lineage ρ)
    (hB : env.fails (.ftsIndex c) = true → B) :
    Spec (AtRebuild ds env l) (env.ioEnsureFtsIndex c)
      (fun _ s => AtRebuild ds env (l.touch (env.ftsVersions c)) s ∧
        env.fails (.ftsIndex c) = false)
      (fun _ s => env.Replayed ds s ∧ B) (fun _ => env.Replayed ds) := by
  refine env.writes_spec (fun s t hs hop hf => ?_) (fun s hs h => ⟨hs.toReplayed, ?_⟩)
  · obtain ⟨l', hl', rfl⟩ := Dataset.touch_ok.mp hf
    obtain rfl : l' = l := Option.some.inj (hl'.symm.trans hs.rebuild)
    exact ⟨hs.toReplayed.setLineage _, hs.setLineage _, hop⟩
  · rcases h with h | ⟨e, h⟩
    · exact hB h
    · simp [Dataset.touch, hs.rebuild] at h

theorem ioComputeDeltaBetweenCommits_spec {B : Prop} (hf : env.FreshEpoch ds) (a b : CommitId)
    (l : Lineage ρ) {T : RetagOp → LanceDataset ρ → Prop}
    (hB : env.fails (.delta b) = true → B) (ha : ds.served a = none → B)
    (hb : ds.served b = none → B) :
    Spec (AtRebuild ds env l) (env.ioComputeDeltaBetweenCommits a b)
      (fun delta s => AtRebuild ds env l s ∧ env.fails (.delta b) = false ∧ ∃ ra rb,
        ds.served a = some ra ∧ ds.served b = some rb ∧ delta = env.replay ra rb)
      (fun _ s => env.Replayed ds s ∧ B) T := by
  refine Spec.look fun s hs => ?_
  cases hop : env.fails (.delta b) with
  | true => exact ⟨hs.toReplayed, hB hop⟩
  | false =>
    have hserved := hs.toReplayed.served hf
    cases hra : ioCheckoutCommitSnapshot s a with
    | error e =>
      refine ⟨hs.toReplayed, ha ?_⟩
      rw [← hserved a]
      exact served_eq_none_of_error hra
    | ok ra =>
      rw [ioCheckoutCommitSnapshot_ok, hserved] at hra
      cases hrb : ioCheckoutCommitSnapshot s b with
      | error e =>
        refine ⟨hs.toReplayed, hb ?_⟩
        rw [← hserved b]
        exact served_eq_none_of_error hrb
      | ok rb =>
        rw [ioCheckoutCommitSnapshot_ok, hserved] at hrb
        exact ⟨hs, rfl, ra, rb, hra, hrb, rfl⟩

section Phase1

variable (env) (ds)

/-- The writes that replay commit `b` on top of commit `a`. -/
def deltaOf (a b : CommitId) : List (BranchWrite ρ) :=
  match ds.served a, ds.served b with
  | some ra, some rb => env.replay ra rb
  | _, _ => []

/-- The retag plan and the boundary versions that Phase 1 arrives at when it runs to its
end, from a rebuild branch at version `v`. -/
def planFrom (boundaries : List ℕ) : (v : ℕ) → (prev : CommitId) → (i : ℕ) →
    List (CommitId × ℕ) → List (CommitId × ℕ) × List (CommitId × ℕ)
  | _, _, _, [] => ([], [])
  | v, prev, i, (c, _) :: rest =>
    let v' := v + (env.deltaOf ds prev c).length
    if i ∈ boundaries then
      let r := planFrom boundaries v' c (i + 1) rest
      (r.1, (c, v') :: r.2)
    else
      let r := planFrom boundaries (v' + env.ftsVersions c) c (i + 1) rest
      ((c, v' + env.ftsVersions c) :: r.1, r.2)

/-- The Lance calls of Phase 1, in order. -/
def replayOps (boundaries : List ℕ) : (prev : CommitId) → (i : ℕ) → List (CommitId × ℕ) →
    List RetagOp
  | _, _, [] => []
  | prev, i, (c, _) :: rest =>
    .delta c :: ((List.range (env.deltaOf ds prev c).length).map (.deltaWrite c) ++
      ((if i ∈ boundaries then [] else [.ftsIndex c]) ++ replayOps boundaries c (i + 1) rest))

end Phase1

/-- `Rel c r` is carried along the replay: from `r` for one commit to the rows that the
delta makes of them for the next. -/
def Carries (env : RetagEnv ρ) (ds : LanceDataset ρ) (Rel : CommitId → List ρ → Prop) : Prop :=
  ∀ a b ra rb h, ds.served a = some ra → ds.served b = some rb → Rel a h →
    Rel b (runWrites (env.replay ra rb) h)

/-- What a completed Phase 1 hands on, from a rebuild branch at `l`. -/
structure PhaseOneDone (env : RetagEnv ρ) (ds : LanceDataset ρ) (Rel : CommitId → List ρ → Prop)
    (boundaries : List ℕ) (l : Lineage ρ) (prev : CommitId) (i : ℕ) (rest : List (CommitId × ℕ))
    (pb : List (CommitId × ℕ) × List (CommitId × ℕ)) (s : LanceDataset ρ) : Prop where
  plan : pb = env.planFrom ds boundaries l.head prev i rest
  clear : ∀ op ∈ env.replayOps ds boundaries prev i rest, env.fails op = false
  resolved : ∀ e ∈ rest, (ds.served e.1).isSome
  prev_resolved : rest ≠ [] → (ds.served prev).isSome
  replayed : ∃ l', AtRebuild ds env l' s ∧ (∀ v r, l.rows v = some r → l'.rows v = some r) ∧
    ∀ e ∈ pb.1 ++ pb.2, ∃ r, l'.rows e.2 = some r ∧ Rel e.1 r

theorem deltaOf_eq {a b : CommitId} {ra rb : List ρ} (ha : ds.served a = some ra)
    (hb : ds.served b = some rb) : env.deltaOf ds a b = env.replay ra rb := by
  simp [deltaOf, ha, hb]

/-- One more commit in front, kept as a boundary when `n = 0` and `i` is one, otherwise
indexed with `n` more versions. -/
theorem PhaseOneDone.cons {Rel : CommitId → List ρ → Prop} {boundaries : List ℕ}
    {l : Lineage ρ} {prev c : CommitId} {i v n : ℕ} {rest : List (CommitId × ℕ)}
    {pb : List (CommitId × ℕ) × List (CommitId × ℕ)} {s : LanceDataset ρ}
    (hn : n = if i ∈ boundaries then 0 else env.ftsVersions c)
    (hp : (ds.served prev).isSome) (hc : (ds.served c).isSome) (hd : env.fails (.delta c) = false)
    (hw : ∀ k < (env.deltaOf ds prev c).length, env.fails (.deltaWrite c k) = false)
    (hi : i ∉ boundaries → env.fails (.ftsIndex c) = false)
    (hrel : Rel c (runWrites (env.deltaOf ds prev c) l.headRows))
    (h : PhaseOneDone env ds Rel boundaries ((advanceAll l (env.deltaOf ds prev c)).touch n) c
      (i + 1) rest pb s) :
    PhaseOneDone env ds Rel boundaries l prev i ((c, v) :: rest)
      (if i ∈ boundaries then
        (pb.1, (c, l.head + (env.deltaOf ds prev c).length) :: pb.2)
       else
        ((c, l.head + (env.deltaOf ds prev c).length + env.ftsVersions c) :: pb.1, pb.2)) s where
  plan := by
    have hp := h.plan
    rw [Lineage.touch_head, advanceAll_head, hn] at hp
    by_cases hb : i ∈ boundaries
    · simp only [hb, if_true, Nat.add_zero] at hp
      simp only [planFrom, hb, if_true, hp]
    · simp only [hb, if_false] at hp
      simp only [planFrom, hb, if_false, hp]
  clear op hop := by
    simp only [replayOps, List.mem_cons, List.mem_append, List.mem_map, List.mem_range] at hop
    rcases hop with rfl | ⟨k, hk, rfl⟩ | hop | hop
    · exact hd
    · exact hw k hk
    · split at hop
      · cases hop
      · rename_i hb
        rw [List.mem_singleton.mp hop]
        exact hi hb
    · exact h.clear op hop
  resolved e he := by
    rcases List.mem_cons.mp he with rfl | he
    · exact hc
    · exact h.resolved e he
  prev_resolved _ := hp
  replayed := by
    obtain ⟨l', hl', hext, hrec⟩ := h.replayed
    have hhead : l'.rows (l.head + (env.deltaOf ds prev c).length + n) =
        some (runWrites (env.deltaOf ds prev c) l.headRows) := by
      apply hext
      have := ((advanceAll l (env.deltaOf ds prev c)).touch n).rows_head
      rwa [Lineage.touch_head, advanceAll_head, Lineage.touch_headRows, advanceAll_headRows] at this
    refine ⟨l', hl', fun w r hr => hext w r (Lineage.touch_rows_of_some
      (advanceAll_rows_of_some hr _) _), fun e he => ?_⟩
    by_cases hb : i ∈ boundaries
    · simp only [hb, if_true] at he hn
      rw [hn] at hhead
      rcases List.mem_append.mp he with he | he
      · exact hrec e (List.mem_append_left _ he)
      · rcases List.mem_cons.mp he with rfl | he
        · exact ⟨_, hhead, hrel⟩
        · exact hrec e (List.mem_append_right _ he)
    · simp only [hb, if_false] at he hn
      rw [hn] at hhead
      rcases List.mem_append.mp he with he | he
      · rcases List.mem_cons.mp he with rfl | he
        · exact ⟨_, hhead, hrel⟩
        · exact hrec e (List.mem_append_left _ he)
      · exact hrec e (List.mem_append_right _ he)

theorem phase1_spec {B : Prop} (hfresh : env.FreshEpoch ds) {Rel : CommitId → List ρ → Prop}
    (hcarry : Carries env ds Rel) (boundaries : List ℕ) (rest : List (CommitId × ℕ))
    (prev : CommitId) (i : ℕ) (l : Lineage ρ) (hrel : Rel prev l.headRows)
    (hops : ∀ op ∈ env.replayOps ds boundaries prev i rest, env.fails op = true → B)
    (hprev : ds.served prev = none → B) (hrest : ∀ e ∈ rest, ds.served e.1 = none → B) :
    Spec (AtRebuild ds env l) (env.phase1 boundaries prev i rest)
      (PhaseOneDone env ds Rel boundaries l prev i rest)
      (fun _ s => env.Replayed ds s ∧ B) (fun _ => env.Replayed ds) := by
  induction rest generalizing prev i l with
  | nil =>
    refine Spec.pure fun s hs => ⟨rfl, by simp [replayOps], by simp, by simp, l, hs,
      fun _ _ h => h, by simp⟩
  | cons e rest ih =>
    obtain ⟨c, v⟩ := e
    have hc := hrest (c, v) List.mem_cons_self
    simp only [replayOps, List.mem_cons, List.mem_append, List.mem_map, List.mem_range] at hops
    refine Spec.bind (ioComputeDeltaBetweenCommits_spec hfresh prev c l (hops _ (.inl rfl)) hprev hc)
      fun delta => Spec.of_and ?_
    rintro ⟨hd, ra, rb, hra, hrb, rfl⟩
    rw [← deltaOf_eq hra hrb]
    refine Spec.bind (applyDelta_spec c _ 0 l fun k hk h =>
        hops _ (.inr (.inl ⟨k, hk, rfl⟩)) (by simpa using h))
      fun _ => Spec.of_and fun hw => Spec.bind rebuildVersion_spec fun newVersion => Spec.of_and ?_
    rintro rfl
    have hrel' : Rel c (runWrites (env.deltaOf ds prev c) l.headRows) := by
      rw [deltaOf_eq hra hrb]
      exact hcarry prev c ra rb _ hra hrb hrel
    have hrec := fun n => ih c (i + 1) ((advanceAll l (env.deltaOf ds prev c)).touch n)
      (by rwa [Lineage.touch_headRows, advanceAll_headRows])
      (fun op hop => hops op (.inr (.inr (.inr hop)))) hc
      (fun e he => hrest e (List.mem_cons_of_mem _ he))
    have hw' : ∀ k < (env.deltaOf ds prev c).length, env.fails (.deltaWrite c k) = false := by
      simpa using hw
    refine Spec.ite (fun hb => ?_) (fun hb => ?_)
    · refine Spec.bind (hrec 0) fun pb => Spec.pure fun s hs => ?_
      have hdone := PhaseOneDone.cons (v := v) (by simp [hb]) (by simp [hra]) (by simp [hrb]) hd hw'
        (fun h => absurd hb h) hrel' hs
      simpa only [hb, if_true, advanceAll_head] using hdone
    · refine Spec.bind (ioEnsureFtsIndex_spec c _ fun h =>
          hops _ (.inr (.inr (.inl (by simp [hb])))) h)
        fun _ => Spec.of_and fun hi => Spec.bind rebuildVersion_spec fun w => Spec.of_and ?_
      rintro rfl
      refine Spec.bind (hrec _) fun pb => Spec.pure fun s hs => ?_
      have hdone := PhaseOneDone.cons (v := v) (by simp [hb]) (by simp [hra]) (by simp [hrb]) hd hw'
        (fun _ => hi) hrel' hs
      simpa only [hb, if_false, advanceAll_head, Lineage.touch_head] using hdone

end RetagEnv

end Vectorlink
