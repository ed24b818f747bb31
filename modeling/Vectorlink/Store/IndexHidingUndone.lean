import Vectorlink.Store.IndexHiding

/-! When a cleanup leaves no index directory hidden, and when a recovery puts every one back. -/
namespace Vectorlink

open Stepwise Stepwise.Program Files

variable {κ : Type}

/-- An index directory is where the searches do not look for it. -/
def Hidden (s : IndexPlaces κ) : Prop := ∃ b, s.backup = some b ∧ HasDir b

/-- No directory is hidden, and each that was in either place is under `_indices`, with all that it
held. -/
def PutBack (s s' : IndexPlaces κ) : Prop :=
  ¬ Hidden s' ∧ ∀ d, (s.indices = some d ∨ s.backup = some d) → ∀ name content,
    DirAt d name content →
      ∃ d' content', s'.indices = some d' ∧ DirAt d' name content' ∧ content ⊆ content'

section Recovery

variable {fails : RecoverCall → Bool} {s : IndexPlaces κ}

/-- What recovery needs of a state in which directories are hidden. -/
def RecoverySucceeds (fails : RecoverCall → Bool) (s : IndexPlaces κ) : Prop :=
  match s.indices with
  | none => fails .restore = false
  | some indices => fails .readBackup = false ∧ ∀ backup, s.backup = some backup →
      ∀ name content, DirAt backup name content →
        Movable (mayRecover fails) (backup, indices) name

theorem putBack_self (h : ¬ Hidden s) : PutBack s s := by
  refine ⟨h, ?_⟩
  rintro d (hd | hd) name content hdir
  · exact ⟨d, content, hd, hdir, List.Subset.refl _⟩
  · exact absurd ⟨d, hd, name, content, hdir⟩ h

private theorem not_hidden_of_noBackup {indices : Option (Dir κ)} :
    ¬ Hidden (⟨indices, none⟩ : IndexPlaces κ) := by
  rintro ⟨_, ⟨⟩, -⟩

/-- Only an empty backup can be removed. -/
private theorem hidden_after_remove {indices : Option (Dir κ)} {b : Dir κ} {removable : Bool} :
    Hidden (⟨indices, if b.entries.isEmpty && removable then none else some b⟩ : IndexPlaces κ) ↔
      HasDir b := by
  cases hempty : b.entries.isEmpty && removable with
  | false => simp [Hidden]
  | true =>
    have hnil : b.entries = [] := List.isEmpty_iff.mp (Bool.and_eq_true_iff.mp hempty).1
    refine ⟨fun h => absurd h not_hidden_of_noBackup, fun ⟨name, content, h⟩ => ?_⟩
    have hmem := AList.mem_lookup_iff.mp h
    simp [hnil] at hmem

/-- The merge of a backup into `_indices`. -/
theorem putBack_merge_iff {backup indices : Dir κ} :
    PutBack ⟨some indices, some backup⟩ (recoverPlaces fails ⟨some indices, some backup⟩) ↔
      (HasDir backup → fails .readBackup = false ∧ ∀ name content, DirAt backup name content →
        Movable (mayRecover fails) (backup, indices) name) := by
  have hall : ∀ n, n ∈ backup → n ∈ backup.keys := fun n hn => hn
  have hnodup : backup.keys.Nodup := backup.keys_nodup
  unfold PutBack
  simp only [recoverPlaces, hidden_after_remove]
  cases hread : fails .readBackup with
  | true =>
    simp only [if_true, Bool.true_eq_false, false_and, imp_false]
    refine ⟨And.left, fun h => ⟨h, ?_⟩⟩
    rintro d (⟨⟨⟩⟩ | ⟨⟨⟩⟩) name content hdir
    · exact ⟨indices, content, rfl, hdir, List.Subset.refl _⟩
    · exact absurd ⟨name, content, hdir⟩ h
  | false =>
    simp only [Bool.false_eq_true, if_false, true_and]
    constructor
    · rintro ⟨hvisible, -⟩ - name content hdir
      by_contra hm
      exact hvisible ⟨name, content, (dirAt_moveAll_fst hnodup hall).mpr ⟨hdir, hm⟩⟩
    · intro h
      have hmoves (name : String) (content : List κ) (hdir : DirAt backup name content) :
          Movable (mayRecover fails) (backup, indices) name :=
        h ⟨name, content, hdir⟩ name content hdir
      constructor
      · rintro ⟨name, content, hleft⟩
        obtain ⟨hdir, hm⟩ := (dirAt_moveAll_fst hnodup hall).mp hleft
        exact hm (hmoves name content hdir)
      · rintro d (⟨⟨⟩⟩ | ⟨⟨⟩⟩) name content hdir
        · have hkept : DirAt (backup, indices).2 name content := hdir
          obtain ⟨content', hdir', hsub⟩ := moveAll_dirAt hnodup hkept
          exact ⟨_, content', rfl, hdir', hsub⟩
        · exact ⟨_, content, rfl, dirAt_moveAll_of_movable hnodup hall hdir
            (hmoves name content hdir), List.Subset.refl _⟩

theorem putBack_recoverPlaces_iff :
    PutBack s (recoverPlaces fails s) ↔ (Hidden s → RecoverySucceeds fails s) := by
  obtain ⟨indices, backup⟩ := s
  match indices, backup with
  | indices, none =>
    exact ⟨fun _ h => absurd h not_hidden_of_noBackup, fun _ => putBack_self not_hidden_of_noBackup⟩
  | some indices, some backup =>
    rw [putBack_merge_iff]
    simp [Hidden, RecoverySucceeds]
  | none, some backup =>
    have hhidden : Hidden (⟨none, some backup⟩ : IndexPlaces κ) ↔ HasDir backup := by simp [Hidden]
    rw [hhidden]
    cases hrestore : fails .restore with
    | false =>
      refine ⟨fun _ _ => hrestore, fun _ => ?_⟩
      have hrun : recoverPlaces fails ⟨none, some backup⟩ = ⟨some backup, none⟩ := by
        simp [recoverPlaces, hrestore]
      rw [hrun]
      refine ⟨not_hidden_of_noBackup, ?_⟩
      rintro d (⟨⟨⟩⟩ | ⟨⟨⟩⟩) name content hdir
      exact ⟨backup, content, rfl, hdir, List.Subset.refl _⟩
    | true =>
      have hrun : recoverPlaces fails ⟨none, some backup⟩ = ⟨none, some backup⟩ := by
        simp [recoverPlaces, hrestore]
      rw [hrun]
      constructor
      · exact fun h hdir => absurd (hhidden.mpr hdir) h.1
      · intro h
        refine putBack_self fun hdir => ?_
        have := h (hhidden.mp hdir)
        simp [RecoverySucceeds, hrestore] at this

end Recovery

section Startup

variable {unreadable : Bool} {fails : String → RecoverCall → Bool} {entry : DirEntry}
  {s : IndexPlaces κ}

/-- The recovery at startup, whatever else is in the base directory, puts back what it finds at
the entry of the dataset. -/
def RecoversAtStartup (unreadable : Bool) (fails : String → RecoverCall → Bool) (entry : DirEntry)
    (s : IndexPlaces κ) : Prop :=
  ∀ (base : List (DirEntry × IndexPlaces κ)) (i : ℕ), base[i]? = some (entry, s) →
    ∃ s', (recoverStrandedIndexBackups unreadable fails base)[i]? = some (entry, s') ∧ PutBack s s'

/-- Hidden directories are found, and each has its place. -/
def Recoverable (unreadable : Bool) (fails : String → RecoverCall → Bool) (entry : DirEntry)
    (s : IndexPlaces κ) : Prop :=
  Hidden s → unreadable = false ∧ isDatasetDir entry = true ∧ RecoverySucceeds (fails entry.name) s

private theorem recover_getElem? {base : List (DirEntry × IndexPlaces κ)} {i : ℕ}
    (h : base[i]? = some (entry, s)) :
    (recoverStrandedIndexBackups unreadable fails base)[i]? =
      some (entry, if unreadable = false ∧ isDatasetDir entry = true
        then recoverPlaces (fails entry.name) s else s) := by
  unfold recoverStrandedIndexBackups
  cases unreadable with
  | true => simpa using h
  | false =>
    cases hdir : isDatasetDir entry <;> simp [h, hdir]

theorem recoversAtStartup_iff :
    RecoversAtStartup unreadable fails entry s ↔ Recoverable unreadable fails entry s := by
  have hone : RecoversAtStartup unreadable fails entry s ↔
      PutBack s (if unreadable = false ∧ isDatasetDir entry = true
        then recoverPlaces (fails entry.name) s else s) := by
    constructor
    · intro h
      obtain ⟨s', hs', hback⟩ := h [(entry, s)] 0 rfl
      rw [recover_getElem? (i := 0) rfl] at hs'
      cases hs'
      exact hback
    · exact fun h base i hi => ⟨_, recover_getElem? hi, h⟩
  rw [hone]
  split
  · next h => rw [putBack_recoverPlaces_iff, Recoverable]; simp [h]
  · next h =>
    constructor
    · exact fun hback hhidden => absurd hhidden hback.1
    · intro hrec
      exact putBack_self fun hhidden => h ⟨(hrec hhidden).1, (hrec hhidden).2.1⟩

end Startup

section Return

namespace CleanupEnv

variable {env : CleanupEnv κ} {kind : CleanupKind} {hidden : Dir κ}

/-- The call reaches its hiding rename, which moves the directory `hidden`. -/
structure Hides (env : CleanupEnv κ) (s : IndexPlaces κ) (hidden : Dir κ) : Prop where
  writable : env.readOnly = false
  present : env.present = true
  opened : env.fails .openDataset = false
  mode : env.mode.hideIndices = true
  rebuild : env.hasRebuildBranches = true
  indices : s.indices = some hidden
  rename : env.fails .hide = false
  place : ∀ b, s.backup = some b → b.entries = []

/-- What Lance leaves in the place of the hidden `_indices`. -/
def recreated (env : CleanupEnv κ) (kind : CleanupKind) : Option (Dir κ) :=
  (env.lance kind.retain (!env.mode.disableCleanReferencedBranches) none).getLastD none

/-- Everything that Lance recreated can join the hidden directory, which can be renamed back. -/
def Restores (env : CleanupEnv κ) (kind : CleanupKind) (hidden : Dir κ) : Prop :=
  env.fails .restore = false ∧ ∀ r, env.recreated kind = some r → r.entries = [] ∨
    env.fails .readRecreated = false ∧ ∀ name ∈ r, Movable env.mayMove (r, hidden) name

/-- The two directories after the merge. -/
def merged (env : CleanupEnv κ) (r hidden : Dir κ) : Dir κ × Dir κ :=
  if env.fails .readRecreated then (r, hidden) else moveAll env.mayMove (r, hidden) r.keys

theorem cleanupWithPolicy_spec (x b : Option (Dir κ)) :
    Spec (fun s => s = ⟨x, b⟩) (env.cleanupWithPolicy kind)
      (fun _ s => s = ⟨(env.lance kind.retain (!env.mode.disableCleanReferencedBranches)
        x).getLastD x, b⟩) (fun _ _ => False) (fun _ _ => True) := by
  have hsteps (l : List (Option (Dir κ))) (y : Option (Dir κ)) :
      Spec (fun s => s = (⟨y, b⟩ : IndexPlaces κ))
        (forEach (fun d => step CleanupCall.lance fun s : IndexPlaces κ =>
          .ok { s with indices := d }) l)
        (fun _ s => s = ⟨l.getLastD y, b⟩) (fun (_ : StoreError) _ => False) (fun _ _ => True) := by
    induction l generalizing y with
    | nil => exact Spec.pure fun s hs => hs
    | cons d l ih =>
      refine Spec.bind (R := fun _ s => s = ⟨d, b⟩) (Spec.step ?_) fun _ => ?_
      · rintro s rfl
        exact ⟨trivial, rfl⟩
      · rw [List.getLastD_cons]
        exact Spec.bind (ih d) fun _ => Spec.pure fun _ hs => hs
  unfold cleanupWithPolicy
  refine Spec.bind (R := fun a s => s = ⟨x, b⟩ ∧ a = ⟨x, b⟩) (Spec.look fun s hs => ⟨hs, hs⟩)
    fun a => Spec.of_and fun ha => ?_
  subst ha
  exact Spec.bind (hsteps _ x) fun _ => Spec.pure fun _ hs => hs

theorem mergeRecreated_spec (r : Dir κ) :
    Spec (fun s => s = ⟨some r, some hidden⟩) (env.mergeRecreated r)
      (fun _ s => s = ⟨some (env.merged r hidden).1, some (env.merged r hidden).2⟩)
      (fun _ _ => False) (fun _ _ => True) := by
  have hmoves (names : List String) (dirs : Dir κ × Dir κ) :
      Spec (fun s => s = ⟨some dirs.1, some dirs.2⟩) (forEach env.moveRecreated names)
        (fun _ s => s = ⟨some (moveAll env.mayMove dirs names).1,
          some (moveAll env.mayMove dirs names).2⟩) (fun _ _ => False) (fun _ _ => True) := by
    induction names generalizing dirs with
    | nil => exact Spec.pure fun s hs => hs
    | cons name names ih =>
      refine Spec.bind (R := fun _ s => s = ⟨some (moveOne env.mayMove dirs name).1,
        some (moveOne env.mayMove dirs name).2⟩) (Spec.step ?_) fun _ => ?_
      · rintro s rfl
        exact ⟨trivial, rfl⟩
      · exact Spec.bind (ih _) fun _ => Spec.pure fun _ hs => hs
  unfold mergeRecreated merged
  cases env.fails .readRecreated with
  | true => exact Spec.pure fun s hs => hs
  | false => exact Spec.bind (hmoves _ (r, hidden)) fun _ => Spec.pure fun _ hs => hs

private theorem entries_eq_nil_iff {d : Dir κ} : d.entries = [] ↔ ∀ name, d.lookup name = none := by
  constructor
  · intro h name
    cases hname : d.lookup name with
    | none => rfl
    | some node =>
      have hmem := AList.mem_lookup_iff.mp hname
      simp [h] at hmem
  · intro h
    refine List.eq_nil_iff_forall_not_mem.mpr fun e he => ?_
    have hlookup := AList.mem_lookup_iff.mpr (show ⟨e.1, e.2⟩ ∈ d.entries from he)
    rw [h] at hlookup
    cases hlookup

/-- The recreated directory is empty after the merge if each of its entries could be moved. -/
theorem merged_empty_iff {r : Dir κ} : (env.merged r hidden).1.entries = [] ↔
    r.entries = [] ∨
      env.fails .readRecreated = false ∧ ∀ name ∈ r, Movable env.mayMove (r, hidden) name := by
  unfold merged
  cases hread : env.fails .readRecreated with
  | true => simp
  | false =>
    rw [if_neg (by decide)]
    simp only [true_and]
    constructor
    · intro h
      refine .inr fun name hname => ?_
      by_contra hm
      have hleft := (moveAll_lookup_of_not_movable r.keys_nodup hm).1
      rw [entries_eq_nil_iff.mp h] at hleft
      exact absurd (AList.lookup_isSome.mpr hname) (by rw [← hleft]; simp)
    · rintro (hnil | hall)
      · have hkeys : r.keys = [] := by rw [AList.keys, hnil]; rfl
        rw [hkeys]
        exact hnil
      · refine entries_eq_nil_iff.mpr fun name => ?_
        by_cases hname : name ∈ r
        · exact (moveAll_lookup_of_movable r.keys_nodup hname (hall name hname)).1
        · rw [(moveAll_lookup_notMem _ _ hname).1]
          exact AList.lookup_eq_none.mpr hname

/-- The last rename needs the place to be free. -/
theorem restoreRename_spec (x : Option (Dir κ)) (b : Dir κ) :
    Spec (fun s => s = ⟨x, some b⟩)
      (env.renames .restore kind.restoreFailed fun s =>
        (renameDir s.backup s.indices).map fun dirs => ⟨dirs.2, dirs.1⟩)
      (fun _ s => (env.fails .restore = false ∧ ∀ d, x = some d → d.entries = []) ∧
        s.backup = none)
      (fun _ s => ¬ (env.fails .restore = false ∧ ∀ d, x = some d → d.entries = []) ∧
        s.backup = some b) (fun _ _ => True) := by
  refine Spec.step ?_
  rintro s rfl
  cases env.fails .restore with
  | true => simp
  | false =>
    cases x with
    | none => simp [renameDir]
    | some d => cases hd : d.entries <;> simp [renameDir, hd]

/-- What is in the backup while it is renamed back. -/
def restored (env : CleanupEnv κ) (kind : CleanupKind) (hidden : Dir κ) : Dir κ :=
  match env.recreated kind with
  | none => hidden
  | some r => (env.merged r hidden).2

theorem removeRecreated_spec (d b : Dir κ) :
    Spec (fun s => s = ⟨some d, some b⟩) env.removeRecreated
      (fun _ s => ∃ x, s = ⟨x, some b⟩ ∧ ((∀ e, x = some e → e.entries = []) ↔ d.entries = []))
      (fun _ _ => False) (fun _ _ => True) := by
  refine Spec.step ?_
  rintro s rfl
  cases env.fails .removeRecreated with
  | true => exact ⟨trivial, some d, rfl, by simp⟩
  | false =>
    cases hd : d.entries with
    | nil => exact ⟨trivial, none, by simp [hd], by simp⟩
    | cons e es => exact ⟨trivial, some d, by simp [hd], by simp [hd]⟩

theorem restore_spec :
    Spec (fun s => s = ⟨env.recreated kind, some hidden⟩) (env.restore kind)
      (fun _ s => env.Restores kind hidden ∧ s.backup = none)
      (fun _ s => ¬ env.Restores kind hidden ∧ s.backup = some (env.restored kind hidden))
      (fun _ _ => True) := by
  have hfree : Spec (fun s => s = ⟨env.recreated kind, some hidden⟩)
      (env.clearRecreated (env.recreated kind))
      (fun _ s => ∃ x, s = ⟨x, some (env.restored kind hidden)⟩ ∧
        (env.fails .restore = false ∧ (∀ e, x = some e → e.entries = []) ↔
          env.Restores kind hidden)) (fun _ _ => False) (fun _ _ => True) := by
    unfold Restores restored
    cases env.recreated kind with
    | none => exact Spec.pure fun s hs => ⟨none, hs, by simp⟩
    | some r =>
      refine Spec.bind (mergeRecreated_spec r) fun _ => (removeRecreated_spec _ _).post ?_
      rintro _ s ⟨x, hs, hx⟩
      refine ⟨x, hs, ?_⟩
      rw [hx, merged_empty_iff]
      simp
  unfold restore
  refine Spec.bind (R := fun a s => s = ⟨env.recreated kind, some hidden⟩ ∧
    a = ⟨env.recreated kind, some hidden⟩) (Spec.look fun s hs => ⟨hs, hs⟩)
    fun a => Spec.of_and fun ha => ?_
  subst ha
  refine Spec.bind (hfree.weaken (fun _ h => h) (fun _ _ h => h) (fun _ _ h => h.elim)
    fun _ _ h => h) fun _ => Spec.of_exists fun x => Spec.of_and fun hx => ?_
  refine (restoreRename_spec x (env.restored kind hidden)).weaken (fun _ h => h) ?_ ?_
    fun _ _ h => h
  · exact fun _ s hs => ⟨hx.mp hs.1, hs.2⟩
  · exact fun _ s hs => ⟨fun h => hs.1 (hx.mpr h), hs.2⟩

/-- No directory that Lance recreated joins the hidden ones. -/
def NoDirJoins (env : CleanupEnv κ) (kind : CleanupKind) (hidden : Dir κ) : Prop :=
  ∀ r, env.recreated kind = some r → env.fails .readRecreated = false →
    ∀ name content, DirAt r name content → ¬ Movable env.mayMove (r, hidden) name

theorem not_hasDir_restored_iff :
    ¬ HasDir (env.restored kind hidden) ↔ ¬ HasDir hidden ∧ env.NoDirJoins kind hidden := by
  unfold restored NoDirJoins
  cases env.recreated kind with
  | none => simp
  | some r =>
    unfold merged
    cases env.fails .readRecreated with
    | true => simp
    | false =>
      have hall : ∀ n, n ∈ (r, hidden).1 → n ∈ r.keys := fun n hn => hn
      simp only [Option.some.injEq, forall_eq', true_imp_iff]
      constructor
      · intro h
        refine ⟨?_, ?_⟩
        · rintro ⟨name, content, hdir⟩
          have hkept : DirAt (r, hidden).2 name content := hdir
          obtain ⟨content', hdir', -⟩ := moveAll_dirAt r.keys_nodup hkept
          exact h ⟨name, content', hdir'⟩
        · intro name content hdir hm
          exact h ⟨name, content, dirAt_moveAll_of_movable r.keys_nodup hall hdir hm⟩
      · rintro ⟨hhidden, hjoins⟩ ⟨name, content, hdir⟩
        by_cases hm : Movable env.mayMove (r, hidden) name
        · obtain ⟨-, node, hnode, -⟩ := id hm
          have hmem : name ∈ r.keys := AList.lookup_isSome.mp (by rw [hnode]; rfl)
          have hmoved := (moveAll_lookup_of_movable r.keys_nodup hmem hm).2
          exact hjoins name content (hmoved.symm.trans hdir) hm
        · have hkept := (moveAll_lookup_of_not_movable r.keys_nodup hm).2
          exact hhidden ⟨name, content, hkept.symm.trans hdir⟩

/-- The backup when the call returns after hiding. -/
def BackupAfter (env : CleanupEnv κ) (kind : CleanupKind) (hidden : Dir κ)
    (backup : Option (Dir κ)) : Prop :=
  if env.fails .policy then backup = some hidden
  else (env.Restores kind hidden ∧ backup = none) ∨
    (¬ env.Restores kind hidden ∧ backup = some (env.restored kind hidden))

theorem prune_backup (b : Option (Dir κ)) :
    Preserves (fun s : IndexPlaces κ => s.backup = b) env.prune := by
  refine Preserves.bind (Preserves.forEach (fun name => Preserves.step ?_) _) fun _ =>
    Preserves.pure _
  rintro s t hs ⟨⟩
  exact hs

theorem check_spec {P : IndexPlaces κ → Prop} {call : CleanupCall} {context : String} :
    Spec P (look fun _ => env.check call context : Cleanup κ Unit)
      (fun _ s => P s ∧ env.fails call = false) (fun _ s => P s ∧ env.fails call = true)
      (fun _ _ => True) := by
  refine Spec.look fun s hs => ?_
  unfold check
  cases env.fails call with
  | true => exact ⟨hs, rfl⟩
  | false => exact ⟨hs, rfl⟩

/-- The end of a cleanup does not touch the backup. -/
theorem afterRestore_backup {b : Option (Dir κ) → Prop} :
    Spec (fun s : IndexPlaces κ => b s.backup)
      (do
        look fun _ => env.check .lance kind.cleanupFailed
        if kind.prunes then env.prune else pure () : Cleanup κ Unit)
      (fun _ s => b s.backup) (fun _ s => b s.backup) (fun _ _ => True) := by
  refine Spec.bind (check_spec.weaken (fun _ h => h) (fun _ _ h => h.1) (fun _ _ h => h.1)
    fun _ _ h => h) fun _ => Spec.ite (fun _ => ?_) fun _ => Spec.pure fun _ hs => hs
  refine Spec.of_forall fun s₀ hs₀ => ?_
  refine (prune_backup s₀.backup).weaken (fun s hs => by rw [hs]) ?_ ?_ fun _ _ _ => trivial
  · exact fun _ s hs => hs ▸ hs₀
  · exact fun _ s hs => hs ▸ hs₀

theorem cleanupHidden_hid_spec :
    Spec (fun s => s = ⟨none, some hidden⟩) (env.cleanupHidden kind true)
      (fun _ s => env.BackupAfter kind hidden s.backup)
      (fun _ s => env.BackupAfter kind hidden s.backup) (fun _ _ => True) := by
  unfold cleanupHidden
  refine Spec.bind (R := fun _ s => s = ⟨none, some hidden⟩ ∧ env.fails .policy = false)
    (check_spec.weaken (fun _ h => h) (fun _ _ h => h) ?_ fun _ _ h => h)
    fun _ => Spec.of_and fun hpolicy => ?_
  · rintro _ s ⟨rfl, hpolicy⟩
    rw [BackupAfter, if_pos hpolicy]
  have hafter : ∀ backup, ((env.Restores kind hidden ∧ backup = none) ∨
      (¬ env.Restores kind hidden ∧ backup = some (env.restored kind hidden))) →
        env.BackupAfter kind hidden backup := by
    intro backup h
    rw [BackupAfter, if_neg (by simp [hpolicy])]
    exact h
  refine Spec.bind ((cleanupWithPolicy_spec none (some hidden)).weaken (fun _ h => h)
    (fun _ _ h => h) (fun _ _ h => h.elim) fun _ _ h => h) fun _ => ?_
  refine Spec.bind (restore_spec.weaken (fun _ h => h) (fun _ _ h => hafter _ (.inl h))
    (fun _ _ h => hafter _ (.inr h)) fun _ _ h => h) fun _ => afterRestore_backup

theorem cleanupHidden_visible_backup (b : Option (Dir κ)) :
    Spec (fun s => s.backup = b) (env.cleanupHidden kind false) (fun _ s => s.backup = b)
      (fun _ s => s.backup = b) (fun _ _ => True) := by
  unfold cleanupHidden
  refine Spec.bind (check_spec.weaken (fun _ h => h) (fun _ _ h => h.1) (fun _ _ h => h.1)
    fun _ _ h => h) fun _ => ?_
  refine Spec.bind (R := fun _ s => s.backup = b) ?_ fun _ => ?_
  · refine Spec.of_forall fun s₀ hs₀ => ?_
    refine (cleanupWithPolicy_spec s₀.indices s₀.backup).weaken (fun _ h => h) ?_
      (fun _ _ h => h.elim) fun _ _ h => h
    rintro _ s rfl
    exact hs₀
  · exact afterRestore_backup (b := (· = b))

theorem hide_run {s : IndexPlaces κ} (h : env.Hides s hidden) :
    Spec (fun t => t = s) (env.hide kind) (fun hid t => t = ⟨none, some hidden⟩ ∧ hid = true)
      (fun _ _ => False) (fun _ _ => True) := by
  unfold hide
  refine Spec.bind (R := fun a t => t = s ∧ a = s) (Spec.look fun t ht => ⟨ht, ht⟩)
    fun a => Spec.of_and fun ha => ?_
  subst ha
  have hcond : (env.mode.hideIndices && env.hasRebuildBranches && a.indices.isSome) = true := by
    rw [h.mode, h.rebuild, h.indices]
    rfl
  rw [if_pos hcond]
  refine Spec.bind (R := fun _ t => t = ⟨none, some hidden⟩) (Spec.step ?_) fun _ =>
    Spec.pure fun _ ht => ⟨ht, rfl⟩
  rintro t rfl
  have hplace : renameDir t.indices t.backup = some (none, some hidden) := by
    rw [h.indices]
    cases hb : t.backup with
    | none => rfl
    | some b => simp [renameDir, h.place b hb]
  simp [h.rename, hplace]

theorem cleanup_hides_backup (kind : CleanupKind) {s : IndexPlaces κ} (h : env.Hides s hidden) :
    env.BackupAfter kind hidden (env.cleanup kind s).store.backup := by
  have hspec : Spec (fun t => t = s) (env.cleanup kind)
      (fun _ t => env.BackupAfter kind hidden t.backup)
      (fun _ t => env.BackupAfter kind hidden t.backup) (fun _ _ => True) := by
    unfold cleanup
    refine Spec.bind (R := fun _ t => t = s) (Spec.look fun t ht => ?_) fun _ => ?_
    · simpa [ensureWritable, h.writable] using ht
    rw [if_pos h.present]
    refine Spec.bind (R := fun _ t => t = s) (Spec.look fun t ht => ?_) fun _ => ?_
    · simpa [check, h.opened] using ht
    refine Spec.bind ((hide_run h).weaken (fun _ h => h) (fun _ _ h => h) (fun _ _ h => h.elim)
      fun _ _ h => h) fun hid => Spec.of_and fun hhid => ?_
    subst hhid
    exact cleanupHidden_hid_spec
  exact hspec.final rfl

theorem cleanup_visible_backup {s : IndexPlaces κ} (h : ∀ hidden, ¬ env.Hides s hidden) :
    (env.cleanup kind s).store.backup = s.backup := by
  have hspec : Spec (fun t => t = s) (env.cleanup kind) (fun _ t => t.backup = s.backup)
      (fun _ t => t.backup = s.backup) (fun _ _ => True) := by
    unfold cleanup
    refine Spec.bind (R := fun _ t => t = s ∧ env.readOnly = false) (Spec.look fun t ht => ?_)
      fun _ => Spec.of_and fun hwrite => ?_
    · cases hro : env.readOnly <;> simp [ensureWritable, ht]
    refine Spec.ite (fun hpresent => ?_) fun _ => Spec.pure fun t ht => by rw [ht]
    refine Spec.bind (check_spec.weaken (fun _ h => h) (fun _ _ h => h) (fun _ t ht => by rw [ht.1])
      fun _ _ h => h) fun _ => Spec.of_and fun hopen => ?_
    refine Spec.bind (R := fun hid t => t = s ∧ hid = false) ?_ fun hid => Spec.of_and fun hhid => ?_
    · unfold hide
      refine Spec.bind (R := fun a t => t = s ∧ a = s) (Spec.look fun t ht => ⟨ht, ht⟩)
        fun a => Spec.of_and fun ha => ?_
      subst ha
      refine Spec.ite (fun hcond => ?_) fun _ => Spec.pure fun t ht => ⟨ht, rfl⟩
      simp only [Bool.and_eq_true, Option.isSome_iff_exists] at hcond
      obtain ⟨⟨hmode, hrebuild⟩, d, hd⟩ := hcond
      -- the rename is refused, or it would have hidden `d`
      refine Spec.bind (R := fun _ _ => False) (Spec.step ?_) fun _ => Spec.pure fun _ ht => ht.elim
      rintro t rfl
      cases hfails : env.fails .hide with
      | true => simp
      | false =>
        cases hrename : renameDir t.indices t.backup with
        | none => simp [hrename]
        | some dirs =>
          refine absurd ⟨hwrite, hpresent, hopen, hmode, hrebuild, hd, hfails, ?_⟩ (h d)
          intro b hb
          rw [hd, hb] at hrename
          by_contra hne
          simp [renameDir, hne] at hrename
    · subst hhid
      exact (cleanupHidden_visible_backup s.backup).pre fun t ht => by rw [ht]
  exact hspec.final rfl

/-- When a call returns without a hidden directory. -/
structure ReturnsVisible (env : CleanupEnv κ) (kind : CleanupKind) (s : IndexPlaces κ) : Prop where
  hidden : ∀ hidden, env.Hides s hidden →
    (env.fails .policy = false ∧ env.Restores kind hidden) ∨
      (¬ HasDir hidden ∧ (env.fails .policy = true ∨ env.NoDirJoins kind hidden))
  untouched : (∀ hidden, ¬ env.Hides s hidden) → ¬ Hidden s

theorem BackupAfter.visible_iff {s : IndexPlaces κ} (h : env.BackupAfter kind hidden s.backup) :
    ¬ Hidden s ↔ (env.fails .policy = false ∧ env.Restores kind hidden) ∨
      (¬ HasDir hidden ∧ (env.fails .policy = true ∨ env.NoDirJoins kind hidden)) := by
  obtain ⟨indices, backup⟩ := s
  have hhidden (b : Dir κ) : Hidden (⟨indices, some b⟩ : IndexPlaces κ) ↔ HasDir b := by
    simp [Hidden]
  unfold BackupAfter at h
  cases hpolicy : env.fails .policy with
  | true =>
    rw [if_pos hpolicy] at h
    obtain rfl : backup = some hidden := h
    simp [hhidden]
  | false =>
    rw [if_neg (by simp [hpolicy])] at h
    obtain ⟨hrestores, hb⟩ | ⟨hrestores, hb⟩ := h
    · obtain rfl : backup = none := hb
      simp [hrestores, not_hidden_of_noBackup]
    · obtain rfl : backup = some (env.restored kind hidden) := hb
      rw [hhidden, not_hasDir_restored_iff]
      simp [hrestores]

theorem returns_visible_iff {s : IndexPlaces κ} :
    ¬ Hidden (env.cleanup kind s).store ↔ env.ReturnsVisible kind s := by
  by_cases h : ∃ hidden, env.Hides s hidden
  · obtain ⟨hidden, hh⟩ := h
    rw [(cleanup_hides_backup kind hh).visible_iff]
    constructor
    · intro hvisible
      refine ⟨fun d hd => ?_, fun hnone => absurd hh (hnone hidden)⟩
      obtain rfl : hidden = d := Option.some.inj (hh.indices.symm.trans hd.indices)
      exact hvisible
    · exact fun hvisible => hvisible.hidden hidden hh
  · have hnone := not_exists.mp h
    have hsame : Hidden (env.cleanup kind s).store ↔ Hidden s := by
      rw [Hidden, cleanup_visible_backup hnone, Hidden]
    rw [hsame]
    exact ⟨fun hvisible => ⟨fun d hd => absurd hd (hnone d), fun _ => hvisible⟩,
      fun hvisible => hvisible.untouched hnone⟩

end CleanupEnv

end Return

section Clashes

/-- No hidden directory has a name that is taken under `_indices`, unless by an empty directory. -/
def NoClash (s : IndexPlaces κ) : Prop :=
  ∀ indices backup, s.indices = some indices → s.backup = some backup →
    ∀ name content, DirAt backup name content →
      replaces (.dir content) (indices.lookup name) = true

theorem noClash_of_noIndices {b : Option (Dir κ)} : NoClash (⟨none, b⟩ : IndexPlaces κ) := by
  rintro _ _ ⟨⟩

theorem noClash_of_noBackup {x : Option (Dir κ)} : NoClash (⟨x, none⟩ : IndexPlaces κ) := by
  rintro _ _ - ⟨⟩

/-- A recovery whose own calls succeed needs nothing else. -/
theorem recoverable_of_noClash {fails : String → RecoverCall → Bool} {entry : DirEntry}
    {s : IndexPlaces κ} (hentry : isDatasetDir entry = true)
    (hfails : ∀ call, fails entry.name call = false) (h : NoClash s) :
    Recoverable false fails entry s := by
  intro _
  refine ⟨rfl, hentry, ?_⟩
  obtain ⟨indices, backup⟩ := s
  unfold RecoverySucceeds
  match indices with
  | none => exact hfails _
  | some indices =>
    refine ⟨hfails _, fun b hb name content hdir => ⟨?_, .dir content, hdir, ?_⟩⟩
    · simp [mayRecover, hfails]
    · exact h indices b rfl hb name content hdir

namespace CleanupEnv

variable {env : CleanupEnv κ} {kind : CleanupKind}

theorem moveOne_noClash {may : String → Bool} {dirs : Dir κ × Dir κ} {name : String}
    (h : NoClash ⟨some dirs.1, some dirs.2⟩) :
    NoClash ⟨some (moveOne may dirs name).1, some (moveOne may dirs name).2⟩ := by
  rintro _ _ ⟨⟩ ⟨⟩ other content hdir
  by_cases hm : Movable may dirs name
  · by_cases hne : other = name
    · obtain ⟨node, -, -, hmove⟩ := moveOne_of_movable hm
      rw [hmove, hne, AList.lookup_erase]
      rfl
    · obtain ⟨h₁, h₂⟩ := moveOne_lookup_ne may dirs hne
      rw [h₁]
      exact h _ _ rfl rfl other content (h₂.symm.trans hdir)
  · rw [moveOne_of_not_movable hm] at hdir ⊢
    exact h _ _ rfl rfl other content hdir

theorem clearRecreated_noClash (d : Option (Dir κ)) :
    Preserves (NoClash (κ := κ)) (env.clearRecreated d) := by
  cases d with
  | none => exact Preserves.pure _
  | some r =>
    refine Preserves.bind ?_ fun _ => Preserves.step ?_
    · unfold mergeRecreated
      split
      · exact Preserves.pure _
      · refine Preserves.bind (Preserves.forEach (fun name => Preserves.step ?_) _) fun _ =>
          Preserves.pure _
        rintro ⟨indices, backup⟩ t hs ht
        match indices, backup with
        | some recreated, some hidden =>
          cases ht
          exact moveOne_noClash hs
        | none, _ =>
          cases ht
          exact noClash_of_noIndices
        | some _, none =>
          cases ht
          exact noClash_of_noBackup
    · rintro ⟨indices, backup⟩ t hs ⟨⟩
      split
      · exact hs
      · split
        · split
          · exact noClash_of_noIndices
          · exact hs
        · exact hs

private theorem renames_ok {call : CleanupCall} {context : String}
    {r : Option (IndexPlaces κ)} {t : IndexPlaces κ}
    (h : (if env.fails call then .error (.internal context (some .io))
      else match r with
        | some t => .ok t
        | none => .error (.internal context (some .io)) : Except StoreError (IndexPlaces κ)) =
          .ok t) : r = some t := by
  split at h
  · cases h
  · cases r with
    | none => cases h
    | some u => exact congrArg some (Except.ok.inj h)

theorem restore_noClash : Preserves (NoClash (κ := κ)) (env.restore kind) := by
  refine Preserves.bind (Preserves.look _) fun s => Preserves.bind (clearRecreated_noClash _)
    fun _ => Preserves.step ?_
  intro s t hs ht
  obtain ⟨dirs, hdirs, rfl⟩ := Option.map_eq_some_iff.mp (renames_ok ht)
  rw [renameDir_some hdirs]
  exact noClash_of_noBackup

theorem prune_noClash : Preserves (NoClash (κ := κ)) env.prune := by
  refine Preserves.bind (Preserves.forEach (fun name => Preserves.step ?_) _) fun _ =>
    Preserves.pure _
  rintro ⟨indices, backup⟩ t hs ⟨⟩ i b hi hb other content hdir
  obtain ⟨d, rfl, rfl⟩ := Option.map_eq_some_iff.mp hi
  by_cases hne : other = name
  · rw [hne, AList.lookup_erase]
    rfl
  · rw [AList.lookup_erase_ne hne]
    exact hs d b rfl hb other content hdir

/-- The contents that Lance gives `_indices` clash with nothing that is hidden meanwhile. -/
theorem cleanupWithPolicy_noClash {x b : Option (Dir κ)} (h : NoClash ⟨x, b⟩)
    (hlance : ∀ d ∈ env.lance kind.retain (!env.mode.disableCleanReferencedBranches) x,
      NoClash ⟨d, b⟩) :
    Spec (fun s => s = ⟨x, b⟩) (env.cleanupWithPolicy kind) (fun _ s => NoClash s)
      (fun _ s => NoClash s) (fun _ s => NoClash s) := by
  have hsteps (l : List (Option (Dir κ))) (hl : ∀ d ∈ l, NoClash ⟨d, b⟩) :
      Spec (fun s : IndexPlaces κ => NoClash s ∧ s.backup = b)
        (forEach (fun d => step CleanupCall.lance fun s : IndexPlaces κ =>
          .ok { s with indices := d }) l)
        (fun _ s => NoClash s ∧ s.backup = b) (fun (_ : StoreError) s => NoClash s)
        (fun _ s => NoClash s) := by
    induction l with
    | nil => exact Spec.pure fun s hs => hs
    | cons d l ih =>
      obtain ⟨hd, hl⟩ := List.forall_mem_cons.mp hl
      refine Spec.bind (R := fun _ s => NoClash s ∧ s.backup = b) (Spec.step ?_) fun _ =>
        Spec.bind (ih hl) fun _ => Spec.pure fun _ hs => hs
      rintro ⟨indices, backup⟩ ⟨hs, rfl⟩
      exact ⟨hd, hd, rfl⟩
  unfold cleanupWithPolicy
  refine Spec.bind (R := fun a s => s = ⟨x, b⟩ ∧ a = ⟨x, b⟩) (Spec.look fun s hs => ⟨hs, hs⟩)
    fun a => Spec.of_and fun ha => ?_
  subst ha
  refine Spec.bind ((hsteps _ hlance).pre ?_) fun _ => Spec.pure fun _ hs => hs.1
  rintro s rfl
  exact ⟨h, rfl⟩

theorem cleanupHidden_noClash {x b : Option (Dir κ)} {hid : Bool} (h : NoClash ⟨x, b⟩)
    (hlance : ∀ d ∈ env.lance kind.retain (!env.mode.disableCleanReferencedBranches) x,
      NoClash ⟨d, b⟩) :
    Spec (fun s => s = ⟨x, b⟩) (env.cleanupHidden kind hid) (fun _ s => NoClash s)
      (fun _ s => NoClash s) (fun _ s => NoClash s) := by
  have hafter : Preserves (NoClash (κ := κ)) (do
      look fun _ => env.check .lance kind.cleanupFailed
      if kind.prunes then env.prune else pure () : Cleanup κ Unit) := by
    refine Preserves.bind (Preserves.look _) fun _ => ?_
    split
    · exact prune_noClash
    · exact Preserves.pure _
  unfold cleanupHidden
  refine Spec.bind (R := fun _ s => s = ⟨x, b⟩) (Spec.look fun s hs => ?_) fun _ =>
    Spec.bind (cleanupWithPolicy_noClash h hlance) fun _ => ?_
  · unfold check
    cases env.fails .policy with
    | true => exact hs ▸ h
    | false => exact hs
  · cases hid with
    | true => exact Preserves.bind restore_noClash fun _ => hafter
    | false => exact hafter

/-- A state that a crash leaves has no clash if there was none at the start and Lance makes
none. -/
theorem crash_noClash {s : IndexPlaces κ} (h : NoClash s)
    (hhidden : ∀ d ∈ env.lance kind.retain (!env.mode.disableCleanReferencedBranches) none,
      NoClash ⟨d, s.indices⟩)
    (hvisible : ∀ d ∈ env.lance kind.retain (!env.mode.disableCleanReferencedBranches) s.indices,
      NoClash ⟨d, s.backup⟩) :
    ∀ s' ∈ s :: (env.cleanup kind s).trace.map Prod.snd, NoClash s' := by
  have hspec : Spec (fun t => t = s) (env.cleanup kind) (fun _ t => NoClash t)
      (fun _ t => NoClash t) (fun _ t => NoClash t) := by
    unfold cleanup
    refine Spec.bind (R := fun _ t => t = s) (Spec.look fun t ht => ?_) fun _ => ?_
    · cases env.readOnly <;> simp [ensureWritable, ht, h]
    refine Spec.ite (fun _ => ?_) fun _ => Spec.pure fun t ht => ht ▸ h
    refine Spec.bind (R := fun _ t => t = s) (Spec.look fun t ht => ?_) fun _ => ?_
    · unfold check
      cases env.fails .openDataset with
      | true => exact ht ▸ h
      | false => exact ht
    refine Spec.bind (R := fun _ t => t = ⟨none, s.indices⟩ ∨ t = s) ?_ fun hid t ht => ?_
    · refine Spec.bind (R := fun _ t => t = s) (Spec.look fun t ht => ht) fun a =>
        Spec.ite (fun _ => ?_) fun _ => Spec.pure fun t ht => .inr ht
      refine Spec.bind (R := fun _ t => t = ⟨none, s.indices⟩) (Spec.step fun t ht => ?_) fun _ =>
        Spec.pure fun t ht => .inl ht
      split
      · next u hu =>
        obtain ⟨dirs, hdirs, rfl⟩ := Option.map_eq_some_iff.mp (renames_ok hu)
        rw [renameDir_some hdirs, ht]
        exact ⟨noClash_of_noIndices, rfl⟩
      · exact ht ▸ h
    · rcases ht with ht | ht
      · exact cleanupHidden_noClash noClash_of_noIndices hhidden t ht
      · exact cleanupHidden_noClash h hvisible t ht
  intro s' hs'
  rcases List.mem_cons.mp hs' with rfl | hs'
  · exact h
  · obtain ⟨e, he, rfl⟩ := List.mem_map.mp hs'
    exact (hspec s rfl).1 e he

end CleanupEnv

end Clashes

section Undone

variable (unreadable : Bool) (fails : String → RecoverCall → Bool) (entry : DirEntry)

/-- Nothing is hidden when the call returns, and whatever it leaves when it is stopped after any
of its steps is put back at startup. -/
structure HidingUndone (call : Cleanup κ Unit) (s : IndexPlaces κ) : Prop where
  returns : ¬ Hidden (call s).store
  crashes : ∀ s' ∈ s :: (call s).trace.map Prod.snd, RecoversAtStartup unreadable fails entry s'

/-- The condition for both: the restore is reached and can move what it has to, and recovery finds
the places of the hidden directories free. -/
def UndoesHiding (env : CleanupEnv κ) (kind : CleanupKind) (s : IndexPlaces κ) : Prop :=
  env.ReturnsVisible kind s ∧
    ∀ s' ∈ s :: (env.cleanup kind s).trace.map Prod.snd, Recoverable unreadable fails entry s'

variable {unreadable fails entry}

private theorem undone_iff {env : CleanupEnv κ} {kind : CleanupKind} {s : IndexPlaces κ} :
    HidingUndone unreadable fails entry (env.cleanup kind) s ↔
      UndoesHiding unreadable fails entry env kind s := by
  constructor
  · exact fun h => ⟨CleanupEnv.returns_visible_iff.mp h.returns,
      fun s' hs' => recoversAtStartup_iff.mp (h.crashes s' hs')⟩
  · exact fun h => ⟨CleanupEnv.returns_visible_iff.mpr h.1,
      fun s' hs' => recoversAtStartup_iff.mpr (h.2 s' hs')⟩

theorem hidingUndone_iff (env : CleanupEnv κ) (s : IndexPlaces κ) :
    (HidingUndone unreadable fails entry (ioCleanupOldVersions env) s ↔
        UndoesHiding unreadable fails entry env oldVersions s) ∧
      (HidingUndone unreadable fails entry (ioCleanupAggressive env) s ↔
        UndoesHiding unreadable fails entry env aggressive s) :=
  ⟨undone_iff, undone_iff⟩

/-- Cleanups of a dataset with a rebuild branch, whose policy cannot be built. -/
def policyFails : CleanupEnv String where
  baseDir := "data"
  readOnly := false
  present := true
  mode := .currentCode
  branches := [compactRebuildBranchName 1]
  fails call := call == .policy
  lance _ _ _ := []
  pruned := []

def oneIndex : Dir String := (∅ : AList _).insert "u" (.dir ["index.idx"])

theorem policyFails_hides : policyFails.Hides ⟨some oneIndex, none⟩ oneIndex where
  writable := rfl
  present := rfl
  opened := rfl
  mode := rfl
  rebuild := by decide
  indices := rfl
  rename := rfl
  place := by simp

/-- Both cleanups return with the only index directory hidden. -/
theorem policy_failure_leaves_hidden :
    ¬ HidingUndone false (fun _ _ => false) ⟨"d.lance", true, true⟩
        (ioCleanupOldVersions policyFails) ⟨some oneIndex, none⟩ ∧
      ¬ HidingUndone false (fun _ _ => false) ⟨"d.lance", true, true⟩
        (ioCleanupAggressive policyFails) ⟨some oneIndex, none⟩ := by
  have hdir : HasDir oneIndex := ⟨"u", ["index.idx"], AList.lookup_insert _⟩
  constructor
  · intro h
    have hbackup := CleanupEnv.cleanup_hides_backup oldVersions policyFails_hides
    exact h.returns ⟨oneIndex, hbackup, hdir⟩
  · intro h
    have hbackup := CleanupEnv.cleanup_hides_backup aggressive policyFails_hides
    exact h.returns ⟨oneIndex, hbackup, hdir⟩

end Undone

end Vectorlink
