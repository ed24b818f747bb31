import Mathlib.Algebra.Group.Nat.Defs
import Mathlib.Order.Bounds.Basic
import Vectorlink.Store.Compaction

/-! Retagging to boundaries: the commits at the boundary positions keep their versions, every
other one is retagged to the version of the last boundary before it. -/
namespace Vectorlink

open Stepwise Stepwise.Program Versioned Dataset

/-- The calls into Lance, each of which may fail. -/
inductive BoundaryOp where
  | listCommits
  | openDataset
  | deleteTag (commit : CommitId)
  | createTag (commit : CommitId)
  | refresh
deriving DecidableEq, Repr

abbrev ToBoundaries (ρ α : Type) := Program BoundaryOp (LanceDataset ρ) StoreError α

/-- The newest commit always keeps its version here. -/
def keptPositions (total : ℕ) : List ℕ := (boundaryLoop total total 0 1).insert (total - 1)

/-- (commit, old version, new version) for the commits from position `i` on, of which those before
have `lastBoundaryVersion` as the version of their last boundary. -/
def retagPlanFrom (boundaries : List ℕ) :
    (i lastBoundaryVersion : ℕ) → List (CommitId × ℕ) → List (CommitId × ℕ × ℕ)
  | _, _, [] => []
  | i, lastBoundaryVersion, (commit, version) :: rest =>
    if i ∈ boundaries then retagPlanFrom boundaries (i + 1) version rest
    else (commit, version, lastBoundaryVersion) ::
      retagPlanFrom boundaries (i + 1) lastBoundaryVersion rest

def retagPlan (first : CommitId × ℕ) (rest : List (CommitId × ℕ)) : List (CommitId × ℕ × ℕ) :=
  retagPlanFrom (keptPositions (rest.length + 1)) 0 first.2 (first :: rest)

section Run

variable {ρ : Type} (baseDir : String) (readOnly : Bool) (fails : BoundaryOp → Bool)
  (order : HashOrder (CommitId × ℕ))

def boundaryCall (op : BoundaryOp) (context : String)
    (f : LanceDataset ρ → Except RefError (LanceDataset ρ)) : ToBoundaries ρ Unit :=
  step op fun ds =>
    if fails op then .error (.internal context (some .io))
    else (f ds).mapError fun e => .internal context (some e)

/-- Delete the old tag, create it at the boundary version. The handle is that of the default
branch. -/
def retagTo (e : CommitId × ℕ × ℕ) : ToBoundaries ρ Unit := do
  boundaryCall fails (.deleteTag e.1) "retag: delete tag failed" fun ds => ds.deleteTag e.1
  boundaryCall fails (.createTag e.1) "retag: create tag failed" fun ds =>
    ds.createTag e.1 none e.2.2

def ioRetagToBoundaries : ToBoundaries ρ (ℕ × ℕ) := do
  look fun _ => ensureWritable baseDir readOnly
  let commitVersions ← look fun ds =>
    if fails .listCommits then .error (.internal "tag list failed" (some .io))
    else .ok (ioListCommitVersions ds)
  if commitVersions.length ≤ 2 then pure (commitVersions.length, 0)
  else match sortByVersion (order.run commitVersions) with
    | [] => pure (0, 0)
    | first :: rest => do
      let plan := retagPlan first rest
      if plan.isEmpty then pure (rest.length + 1, 0)
      else do
        look fun _ =>
          if fails .openDataset then .error (.internal "dataset open failed" (some .io)) else .ok ()
        let _ ← forEach (retagTo fails) plan
        look fun _ =>
          if fails .refresh then .error (.internal "dataset open failed" (some .io)) else .ok ()
        pure (rest.length + 1, plan.length)

end Run

/-! The positions in closed form. -/

private theorem three_mul_le (k step : ℕ) : 3 * step ≤ 3 ^ (k + 1) * step := by
  refine Nat.mul_le_mul_right step ?_
  have hpow := Nat.one_le_pow k 3 (by decide)
  rw [Nat.pow_succ]
  omega

private theorem no_position_after {total pos step p : ℕ} (hpos : total ≤ pos) :
    ¬ (p < total ∧ ∃ k, 2 * p + 3 * step = 2 * pos + 3 ^ (k + 1) * step) := by
  rintro ⟨hp, k, hk⟩
  have hle := three_mul_le k step
  omega

/-- The positions are `pos` and what steps of three times the size of the one before add to it. -/
theorem mem_boundaryLoop {total fuel pos step p : ℕ} (hstep : 0 < step)
    (hfuel : total ≤ fuel + pos) : p ∈ boundaryLoop total fuel pos step ↔
      p < total ∧ ∃ k, 2 * p + 3 * step = 2 * pos + 3 ^ (k + 1) * step := by
  induction fuel generalizing pos step with
  | zero => simpa [boundaryLoop] using no_position_after (show total ≤ pos by omega)
  | succ fuel ih =>
    rw [boundaryLoop]
    by_cases hpos : pos < total
    · rw [if_pos hpos, List.mem_cons, ih (by omega) (by omega)]
      constructor
      · rintro (rfl | ⟨hp, k, hk⟩)
        · exact ⟨hpos, 0, by omega⟩
        · refine ⟨hp, k + 1, ?_⟩
          rw [Nat.pow_succ 3 (k + 1), Nat.mul_assoc, Nat.mul_comm 3 step]
          omega
      · rintro ⟨hp, k, hk⟩
        cases k with
        | zero => exact .inl (by omega)
        | succ k =>
          refine .inr ⟨hp, k, ?_⟩
          rw [Nat.pow_succ 3 (k + 1), Nat.mul_assoc, Nat.mul_comm 3 step] at hk
          omega
    · rw [if_neg hpos]
      simpa using no_position_after (show total ≤ pos by omega)

/-- The boundary positions are the `(3 ^ (k + 1) - 3) / 2` below `total`. -/
theorem mem_boundaries {total p : ℕ} :
    p ∈ boundaryLoop total total 0 1 ↔ p < total ∧ ∃ k, 2 * p + 3 = 3 ^ (k + 1) := by
  rw [mem_boundaryLoop Nat.one_pos (Nat.le_add_right total 0)]
  simp

/-- Positions 0, 3, 9, 27, ... -/
def IsPowerPosition (p : ℕ) : Prop := p = 0 ∨ ∃ j, 1 ≤ j ∧ p = 3 ^ j

private theorem twentySeven_le (k : ℕ) : 27 ≤ 3 ^ (k + 2 + 1) :=
  Nat.pow_le_pow_right (show 0 < 3 by decide) (show 3 ≤ k + 2 + 1 by omega)

/-- The loop leaves the powers of three at the first of them after 3. -/
theorem boundaries_powers_iff {total : ℕ} :
    (∀ p, p ∈ boundaryLoop total total 0 1 ↔ p < total ∧ IsPowerPosition p) ↔ total ≤ 9 := by
  constructor
  · intro h
    by_contra hn
    obtain ⟨-, k, hk⟩ := mem_boundaries.mp ((h 9).mpr ⟨by omega, .inr ⟨2, by decide, rfl⟩⟩)
    match k with
    | 0 | 1 => simp at hk
    | k + 2 =>
      have hlarge := twentySeven_le k
      omega
  · intro h p
    rw [mem_boundaries]
    refine and_congr_right fun hp => ⟨?_, ?_⟩
    · rintro ⟨k, hk⟩
      match k with
      | 0 => exact .inl (by omega)
      | 1 => exact .inr ⟨1, le_rfl, by omega⟩
      | k + 2 =>
        have hlarge := twentySeven_le k
        omega
    · rintro (rfl | ⟨j, hj, rfl⟩)
      · exact ⟨0, rfl⟩
      · match j with
        | 1 => exact ⟨1, rfl⟩
        | j + 2 =>
          have hlarge : 3 ^ 2 ≤ 3 ^ (j + 2) := Nat.pow_le_pow_right (by decide) (by omega)
          omega

/-! The plan. -/

section Plan

variable {bs : List ℕ} {sorted : List (CommitId × ℕ)}

/-- The boundary positions below `i`. -/
def boundariesBelow (bs : List ℕ) (i : ℕ) : Set ℕ := {b | b ∈ bs ∧ b < i}

/-- The version that the commits after the boundaries below `i` are retagged to. -/
def LastBoundary (bs : List ℕ) (sorted : List (CommitId × ℕ)) (i version : ℕ) : Prop :=
  ∃ b c, IsGreatest (boundariesBelow bs i) b ∧ sorted[b]? = some (c, version)

theorem LastBoundary.succ_of_mem {i : ℕ} {c : CommitId} {v : ℕ} (hi : i ∈ bs)
    (h : sorted[i]? = some (c, v)) : LastBoundary bs sorted (i + 1) v :=
  ⟨i, c, ⟨⟨hi, Nat.lt_succ_self i⟩, fun _ hb => Nat.le_of_lt_succ hb.2⟩, h⟩

theorem LastBoundary.succ_of_notMem {i w : ℕ} (hi : i ∉ bs) (h : LastBoundary bs sorted i w) :
    LastBoundary bs sorted (i + 1) w := by
  obtain ⟨b, c, ⟨hb, hmax⟩, hw⟩ := h
  refine ⟨b, c, ⟨⟨hb.1, Nat.lt_succ_of_lt hb.2⟩, ?_⟩, hw⟩
  rintro x ⟨hx, hlt⟩
  have hne : x ≠ i := fun h => hi (h ▸ hx)
  exact hmax ⟨hx, by omega⟩

theorem exists_lastBoundary (hzero : 0 ∈ bs) {i : ℕ} (hi : i < sorted.length) (hmem : i ∉ bs) :
    ∃ w, LastBoundary bs sorted i w := by
  induction i with
  | zero => exact absurd hzero hmem
  | succ i ih =>
    by_cases hprev : i ∈ bs
    · have hlt : i < sorted.length := by omega
      exact ⟨_, .succ_of_mem hprev (List.getElem?_eq_getElem hlt)⟩
    · obtain ⟨w, hw⟩ := ih (by omega) hprev
      exact ⟨w, hw.succ_of_notMem hprev⟩

theorem LastBoundary.unique {i w w' : ℕ} (h : LastBoundary bs sorted i w)
    (h' : LastBoundary bs sorted i w') : w = w' := by
  obtain ⟨b, c, hb, hw⟩ := h
  obtain ⟨b', c', hb', hw'⟩ := h'
  obtain rfl := hb.unique hb'
  rw [hw] at hw'
  exact congrArg Prod.snd (Option.some.inj hw')

/-- The plan holds the commits off the boundaries, each with the version of the last boundary
before it. -/
theorem mem_retagPlanFrom {i last : ℕ} {rest : List (CommitId × ℕ)} (hrest : sorted.drop i = rest)
    (hlast : i ∉ bs → LastBoundary bs sorted i last) {c : CommitId} {v w : ℕ} :
    (c, v, w) ∈ retagPlanFrom bs i last rest ↔
      ∃ j, i ≤ j ∧ j ∉ bs ∧ sorted[j]? = some (c, v) ∧ LastBoundary bs sorted j w := by
  induction rest generalizing i last with
  | nil =>
    have hlen := List.drop_eq_nil_iff.mp hrest
    simp only [retagPlanFrom, List.not_mem_nil, false_iff, not_exists, not_and]
    intro j hj _ hc
    rw [List.getElem?_eq_none (by omega)] at hc
    cases hc
  | cons e rest ih =>
    obtain ⟨c₀, v₀⟩ := e
    have hi : sorted[i]? = some (c₀, v₀) := by rw [← List.head?_drop, hrest, List.head?_cons]
    have htail : sorted.drop (i + 1) = rest := by rw [← List.tail_drop, hrest, List.tail_cons]
    rw [retagPlanFrom]
    by_cases hmem : i ∈ bs
    · rw [if_pos hmem, ih htail fun _ => .succ_of_mem hmem hi]
      constructor
      · rintro ⟨j, hj, hjbs, h⟩
        exact ⟨j, by omega, hjbs, h⟩
      · rintro ⟨j, hj, hjbs, h⟩
        have hne : i ≠ j := fun h => hjbs (h ▸ hmem)
        exact ⟨j, by omega, hjbs, h⟩
    · have hhere := hlast hmem
      rw [if_neg hmem, List.mem_cons, ih htail fun _ => hhere.succ_of_notMem hmem]
      constructor
      · rintro (h | ⟨j, hj, h⟩)
        · cases h
          exact ⟨i, le_rfl, hmem, hi, hhere⟩
        · exact ⟨j, by omega, h⟩
      · rintro ⟨j, hj, hjbs, hc, hw⟩
        rcases hj.eq_or_lt with rfl | hlt
        · rw [hi] at hc
          cases hc
          exact .inl (by rw [hw.unique hhere])
        · exact .inr ⟨j, hlt, hjbs, hc, hw⟩

theorem mem_retagPlan {first : CommitId × ℕ} {rest : List (CommitId × ℕ)} {c : CommitId}
    {v w : ℕ} : (c, v, w) ∈ retagPlan first rest ↔
      ∃ i, i ∉ keptPositions (rest.length + 1) ∧ (first :: rest)[i]? = some (c, v) ∧
        LastBoundary (keptPositions (rest.length + 1)) (first :: rest) i w := by
  have hzero : 0 ∈ keptPositions (rest.length + 1) := by simp [keptPositions, boundaryLoop]
  have hdrop : (first :: rest).drop 0 = first :: rest := rfl
  rw [retagPlan, mem_retagPlanFrom hdrop fun h => (h hzero).elim]
  simp

theorem retagPlanFrom_sublist (bs : List ℕ) (rest : List (CommitId × ℕ)) (i last : ℕ) :
    ((retagPlanFrom bs i last rest).map Prod.fst).Sublist (rest.map Prod.fst) := by
  induction rest generalizing i last with
  | nil => exact List.Sublist.refl _
  | cons e rest ih =>
    rw [retagPlanFrom]
    split
    · exact (ih _ _).cons _
    · exact (ih _ _).cons_cons _

end Plan

/-! The run. -/

section Run

variable {ρ : Type} {baseDir : String} {readOnly : Bool} {fails : BoundaryOp → Bool}

/-- The commit's tag stands at the planned version. -/
def Retagged (e : CommitId × ℕ × ℕ) (ds : LanceDataset ρ) : Prop :=
  (ds.tags.lookup e.1).map TagContents.version = some e.2.2

theorem boundaryCall_spec {op : BoundaryOp} {context : String}
    {f : LanceDataset ρ → Except RefError (LanceDataset ρ)} {P Q : LanceDataset ρ → Prop}
    (h : ∀ s t, P s → f s = .ok t → Q t) :
    Spec P (boundaryCall fails op context f) (fun _ => Q) (fun _ _ => True) (fun _ _ => True) := by
  refine Spec.step fun s hs => ?_
  cases fails op with
  | true => trivial
  | false =>
    cases hf : f s with
    | error e => simp [Except.mapError]
    | ok t => simpa [hf, Except.mapError] using h s t hs hf

theorem retagTo_spec (done : List (CommitId × ℕ × ℕ)) (e : CommitId × ℕ × ℕ)
    (hnew : e.1 ∉ done.map Prod.fst) :
    Spec (fun s : LanceDataset ρ => ∀ x ∈ done, Retagged x s) (retagTo fails e)
      (fun _ s => ∀ x ∈ done ++ [e], Retagged x s) (fun _ _ => True) (fun _ _ => True) := by
  have hne : ∀ x ∈ done, x.1 ≠ e.1 := fun x hx h => hnew (h ▸ List.mem_map_of_mem hx)
  refine Spec.bind (R := fun _ s => ∀ x ∈ done, Retagged x s) (boundaryCall_spec ?_)
    fun _ => boundaryCall_spec ?_
  · intro s t hs ht x hx
    obtain ⟨-, rfl⟩ := deleteTag_ok.mp ht
    rw [Retagged, lookup_dropTag, if_neg (hne x hx)]
    exact hs x hx
  · intro s t hs ht x hx
    obtain ⟨-, -, rfl⟩ := createTag_ok.mp ht
    rcases List.mem_append.mp hx with hx | hx
    · rw [Retagged, lookup_putTag, if_neg (hne x hx)]
      exact hs x hx
    · obtain rfl := List.mem_singleton.mp hx
      rw [Retagged, lookup_putTag, if_pos rfl]
      rfl

theorem retagAll_spec (plan done : List (CommitId × ℕ × ℕ))
    (hnodup : ((done ++ plan).map Prod.fst).Nodup) :
    Spec (fun s : LanceDataset ρ => ∀ x ∈ done, Retagged x s) (forEach (retagTo fails) plan)
      (fun _ s => ∀ x ∈ done ++ plan, Retagged x s) (fun _ _ => True) (fun _ _ => True) := by
  induction plan generalizing done with
  | nil => exact Spec.pure fun s hs => by simpa using hs
  | cons e plan ih =>
    have hsplit : done ++ e :: plan = done ++ [e] ++ plan := by simp
    have hnew : e.1 ∉ done.map Prod.fst := by
      rw [List.map_append, List.nodup_append] at hnodup
      exact fun h => hnodup.2.2 e.1 h e.1 List.mem_cons_self rfl
    rw [hsplit] at hnodup ⊢
    exact Spec.bind (retagTo_spec done e hnew) fun _ => Spec.bind (ih _ hnodup) fun _ =>
      Spec.pure fun _ hs => hs

theorem ioRetagToBoundaries_retagged {ds : LanceDataset ρ} {first : CommitId × ℕ}
    {rest : List (CommitId × ℕ)} (hsort : RetagEnv.sorted order ds = first :: rest)
    (hlen : 2 < (ioListCommitVersions ds).length) {r : ℕ × ℕ}
    (hr : (ioRetagToBoundaries baseDir readOnly fails order ds).result = .ok r) :
    ∀ e ∈ retagPlan first rest,
      Retagged e (ioRetagToBoundaries baseDir readOnly fails order ds).store := by
  have hnodup : ((retagPlan first rest).map Prod.fst).Nodup :=
    (hsort ▸ RetagEnv.nodup_sorted).sublist (retagPlanFrom_sublist _ _ _ _)
  have hspec : Spec (fun s => s = ds) (ioRetagToBoundaries baseDir readOnly fails order)
      (fun _ s => ∀ e ∈ retagPlan first rest, Retagged e s) (fun _ _ => True)
      (fun _ _ => True) := by
    unfold ioRetagToBoundaries
    refine Spec.bind (R := fun _ s => s = ds) (Spec.look fun s hs => ?_) fun _ => ?_
    · cases ensureWritable baseDir readOnly with
      | error e => trivial
      | ok u => exact hs
    refine Spec.bind (R := fun l s => s = ds ∧ l = ioListCommitVersions ds)
      (Spec.look fun s hs => ?_) fun l => Spec.of_and fun hl => ?_
    · cases fails .listCommits with
      | true => trivial
      | false => exact ⟨hs, by rw [hs]⟩
    subst hl
    rw [if_neg (by omega),
      show sortByVersion (order.run (ioListCommitVersions ds)) = first :: rest from hsort]
    refine Spec.ite (fun hempty => Spec.pure fun s _ => ?_) fun _ => ?_
    · rw [List.isEmpty_iff.mp hempty]
      simp
    refine Spec.bind (R := fun _ _ => True) (Spec.look fun s _ => ?_) fun _ => ?_
    · cases fails .openDataset <;> trivial
    refine Spec.bind ((retagAll_spec (retagPlan first rest) [] hnodup).pre fun s _ x hx => ?_)
      fun _ => ?_
    · simp at hx
    refine Spec.bind (R := fun _ s => ∀ e ∈ retagPlan first rest, Retagged e s)
      (Spec.look fun s hs => ?_) fun _ => Spec.pure fun _ hs => hs
    cases fails .refresh with
    | true => trivial
    | false => simpa using hs
  exact hspec.result_ok rfl hr

end Run

section Powers

variable {ρ : Type}

/-- A power position, or the newest commit. -/
def KeepsVersion (total p : ℕ) : Prop := p < total ∧ (IsPowerPosition p ∨ p = total - 1)

/-- The boundaries are the powers of three, and whatever is not a boundary goes to the version of
the greatest boundary below it: in the plan, and in the tags when the call succeeds. -/
structure RetagsAtPowers (order : HashOrder (CommitId × ℕ)) (ds : LanceDataset ρ) : Prop where
  positions : ∀ p,
    p ∈ boundaryLoop (RetagEnv.sorted order ds).length (RetagEnv.sorted order ds).length 0 1 ↔
      p < (RetagEnv.sorted order ds).length ∧ IsPowerPosition p
  mapped : ∀ first rest, RetagEnv.sorted order ds = first :: rest →
    ∀ (i : ℕ) (c : CommitId) (v : ℕ), (first :: rest)[i]? = some (c, v) →
      ¬ KeepsVersion (rest.length + 1) i →
      ∃ b c' w, IsGreatest {p | KeepsVersion (rest.length + 1) p ∧ p < i} b ∧
        (first :: rest)[b]? = some (c', w) ∧ (c, v, w) ∈ retagPlan first rest ∧
        ∀ baseDir readOnly fails r,
          (ioRetagToBoundaries baseDir readOnly fails order ds).result = .ok r →
          Retagged (c, v, w) (ioRetagToBoundaries baseDir readOnly fails order ds).store

theorem mem_keptPositions {n p : ℕ} (hn : n + 1 ≤ 9) :
    p ∈ keptPositions (n + 1) ↔ KeepsVersion (n + 1) p := by
  rw [keptPositions, List.mem_insert_iff, boundaries_powers_iff.mpr hn p, KeepsVersion]
  constructor
  · rintro (rfl | ⟨hp, hpow⟩)
    · exact ⟨by omega, .inr rfl⟩
    · exact ⟨hp, .inl hpow⟩
  · rintro ⟨hp, hpow | hlast⟩
    · exact .inr ⟨hp, hpow⟩
    · exact .inl hlast

/-- Up to nine commit tags the boundaries are the powers of three; the tenth is at position 9, which
the loop passes over. -/
theorem retagsAtPowers_iff (order : HashOrder (CommitId × ℕ)) (ds : LanceDataset ρ)
    (h : 3 ≤ (ioListCommitVersions ds).length) :
    RetagsAtPowers order ds ↔ (ioListCommitVersions ds).length ≤ 9 := by
  have hlength : (RetagEnv.sorted order ds).length = (ioListCommitVersions ds).length :=
    RetagEnv.sorted_perm.length_eq
  constructor
  · intro hpow
    rw [← hlength]
    exact boundaries_powers_iff.mp hpow.positions
  · intro hnine
    refine ⟨fun p => boundaries_powers_iff.mpr (by omega) p, ?_⟩
    intro first rest hsort i c v hi hkeeps
    have hrest : rest.length + 1 ≤ 9 := by
      have : (first :: rest).length ≤ 9 := by rw [← hsort]; omega
      exact this
    have hkept : i ∉ keptPositions (rest.length + 1) :=
      fun h => hkeeps ((mem_keptPositions hrest).mp h)
    have hzero : 0 ∈ keptPositions (rest.length + 1) :=
      (mem_keptPositions hrest).mpr ⟨by omega, .inl (.inl rfl)⟩
    obtain ⟨hlt, -⟩ := List.getElem?_eq_some_iff.mp hi
    obtain ⟨w, hlast⟩ := exists_lastBoundary hzero hlt hkept
    have hplan : (c, v, w) ∈ retagPlan first rest := mem_retagPlan.mpr ⟨i, hkept, hi, hlast⟩
    obtain ⟨b, c', ⟨hb, hmax⟩, hw⟩ := hlast
    refine ⟨b, c', w, ⟨⟨(mem_keptPositions hrest).mp hb.1, hb.2⟩, ?_⟩, hw, hplan, ?_⟩
    · rintro p ⟨hp, hpi⟩
      exact hmax ⟨(mem_keptPositions hrest).mpr hp, hpi⟩
    · intro baseDir readOnly fails r hr
      exact ioRetagToBoundaries_retagged hsort (by omega) hr _ hplan

/-- Commits `c`, `cc`, ... of the default branch, one version each. -/
def commitsInARow (n : ℕ) : LanceDataset ℕ where
  main := (List.range n).foldl (fun l k => l.advance (k :: l.headRows)) (.start 0 [])
  branches := ∅
  tags := (List.range n).foldl
    (fun tags k => tags.insert (String.ofList (List.replicate (k + 1) 'c')) ⟨none, k + 1, k⟩) ∅
  clock := n

theorem nine_commits_at_powers :
    (ioListCommitVersions (commitsInARow 9)).length = 9 ∧
      RetagsAtPowers .listed (commitsInARow 9) :=
  have hlen : (ioListCommitVersions (commitsInARow 9)).length = 9 := by decide
  ⟨hlen, (retagsAtPowers_iff _ _ (by rw [hlen]; decide)).mpr (by rw [hlen])⟩

/-- Ten commits: position 9 is no boundary. -/
theorem tenth_commit_no_boundary :
    (ioListCommitVersions (commitsInARow 10)).length = 10 ∧
      ¬ RetagsAtPowers .listed (commitsInARow 10) := by
  refine ⟨by decide, fun h => ?_⟩
  have hpos := (h.positions 9).mpr ⟨by decide, .inr ⟨2, by decide, rfl⟩⟩
  revert hpos
  decide

end Powers

end Vectorlink
