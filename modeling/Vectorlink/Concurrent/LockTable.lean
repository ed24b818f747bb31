import Mathlib.Data.Nat.Notation
import Mathlib.Logic.Function.Basic

/-! A registry of mutexes, one for each key, created when a caller first asks for it. The
entry of a key may be removed while callers still wait on the mutex they found there. -/
namespace Concurrent

/-- How far a caller is with the lock of a key. -/
inductive Claim (K : Type) where
  | none
  | creating (k : K)
  | waiting (k : K) (n : ℕ)
  | held (k : K) (n : ℕ)
deriving DecidableEq

/-- Mutexes are numbered in the order in which they are created. -/
structure LockTable (K ι : Type) where
  entries : K → Option ℕ
  next : ℕ
  holder : ℕ → Option ι
  claims : ι → Claim K

namespace LockTable

variable {K ι : Type}

def empty : LockTable K ι := ⟨fun _ => .none, 0, fun _ => .none, fun _ => .none⟩

/-- The caller has the mutex `n` of `k` in hand, waiting for it or holding it. -/
def On (t : LockTable K ι) (i : ι) (k : K) (n : ℕ) : Prop :=
  t.claims i = .waiting k n ∨ t.claims i = .held k n

def Holds (t : LockTable K ι) (i : ι) (k : K) : Prop := ∃ n, t.claims i = .held k n

/-- At most one caller holds the lock of each key. -/
def Exclusive (t : LockTable K ι) : Prop := ∀ i j k, t.Holds i k → t.Holds j k → i = j

variable [DecidableEq ι]

/-- The read of the registry. -/
def look (t : LockTable K ι) (i : ι) (k : K) : LockTable K ι :=
  match t.entries k with
  | some n => { t with claims := Function.update t.claims i (.waiting k n) }
  | .none => { t with claims := Function.update t.claims i (.creating k) }

variable [DecidableEq K] in
/-- The write of the registry: an entry that appeared in between is used. -/
def create (t : LockTable K ι) (i : ι) (k : K) : LockTable K ι :=
  match t.entries k with
  | some n => { t with claims := Function.update t.claims i (.waiting k n) }
  | .none =>
    { t with
      entries := Function.update t.entries k (some t.next)
      next := t.next + 1
      claims := Function.update t.claims i (.waiting k t.next) }

def grant (t : LockTable K ι) (i : ι) (k : K) (n : ℕ) : LockTable K ι :=
  { t with
    holder := Function.update t.holder n (some i)
    claims := Function.update t.claims i (.held k n) }

/-- The caller stops waiting, or drops the guard it holds. -/
def leave (t : LockTable K ι) (i : ι) : LockTable K ι :=
  match t.claims i with
  | .held _ n =>
    { t with
      holder := Function.update t.holder n .none
      claims := Function.update t.claims i .none }
  | _ => { t with claims := Function.update t.claims i .none }

omit [DecidableEq ι] in
/-- Entries are removed, whoever uses their mutexes. -/
def purge (t : LockTable K ι) (p : K → Bool) : LockTable K ι :=
  { t with entries := fun k => if p k then .none else t.entries k }

/-- Every use of a key goes through one mutex. -/
structure OneLock (t : LockTable K ι) : Prop where
  same : ∀ i j k n m, t.On i k n → t.On j k m → n = m
  entry : ∀ i k n m, t.On i k n → t.entries k = some m → n = m
  owner : ∀ i k n, t.claims i = .held k n → t.holder n = some i

variable {t : LockTable K ι}

omit [DecidableEq ι] in
theorem OneLock.exclusive (h : t.OneLock) : t.Exclusive := by
  rintro i j k ⟨n, hi⟩ ⟨m, hj⟩
  have hnm : n = m := h.same i j k n m (.inr hi) (.inr hj)
  subst hnm
  have hown : some i = some j := (h.owner i k n hi).symm.trans (h.owner j k n hj)
  exact Option.some.inj hown

theorem on_update {i j : ι} {c : Claim K} {k : K} {m : ℕ}
    (h : Function.update t.claims i c j = .waiting k m ∨
      Function.update t.claims i c j = .held k m) :
    (j = i ∧ (c = .waiting k m ∨ c = .held k m)) ∨ (j ≠ i ∧ t.On j k m) := by
  by_cases hj : j = i
  · subst hj
    rw [Function.update_self] at h
    exact .inl ⟨rfl, h⟩
  · rw [Function.update_of_ne hj] at h
    exact .inr ⟨hj, h⟩

/-- Joining the mutex that the registry names, or that everybody on the key uses. -/
theorem OneLock.join (h : t.OneLock) {i : ι} {k : K} {n : ℕ}
    (hall : ∀ j m, t.On j k m → n = m) (hent : ∀ m, t.entries k = some m → n = m) :
    OneLock { t with claims := Function.update t.claims i (.waiting k n) } := by
  constructor
  · intro j j' k' m m' hj hj'
    rcases on_update hj with ⟨-, hj⟩ | ⟨-, hj⟩ <;> rcases on_update hj' with ⟨-, hj'⟩ | ⟨-, hj'⟩
    · simp only [Claim.waiting.injEq, reduceCtorEq, or_false] at hj hj'
      exact hj.2.symm.trans hj'.2
    · simp only [Claim.waiting.injEq, reduceCtorEq, or_false] at hj
      obtain ⟨rfl, rfl⟩ := hj
      exact hall j' m' hj'
    · simp only [Claim.waiting.injEq, reduceCtorEq, or_false] at hj'
      obtain ⟨rfl, rfl⟩ := hj'
      exact (hall j m hj).symm
    · exact h.same j j' k' m m' hj hj'
  · intro j k' m m' hj hm'
    rcases on_update hj with ⟨-, hj⟩ | ⟨-, hj⟩
    · simp only [Claim.waiting.injEq, reduceCtorEq, or_false] at hj
      obtain ⟨rfl, rfl⟩ := hj
      exact hent m' hm'
    · exact h.entry j k' m m' hj hm'
  · intro j k' m hj
    by_cases hji : j = i
    · subst hji
      simp at hj
    · simp only [Function.update_of_ne hji] at hj
      exact h.owner j k' m hj

omit [DecidableEq ι] in
theorem OneLock.of_fewer {t' : LockTable K ι} (h : t.OneLock)
    (hon : ∀ j k n, t'.On j k n → t.On j k n)
    (hent : ∀ j k n m, t'.On j k n → t'.entries k = some m → t.entries k = some m)
    (hown : ∀ j k n, t'.claims j = .held k n → t'.holder n = some j) : t'.OneLock where
  same i j k n m hi hj := h.same i j k n m (hon i k n hi) (hon j k m hj)
  entry i k n m hi hm := h.entry i k n m (hon i k n hi) (hent i k n m hi hm)
  owner := hown

theorem on_of_drop {t' : LockTable K ι} {i j : ι} {k : K} {n : ℕ} {c : Claim K}
    (hc : ∀ m, c ≠ .waiting k m ∧ c ≠ .held k m)
    (ht : t'.claims = Function.update t.claims i c) (h : t'.On j k n) : t.On j k n := by
  unfold On at h
  rw [ht] at h
  rcases on_update h with ⟨-, hj⟩ | ⟨-, hj⟩
  · rcases hj with hj | hj
    · exact absurd hj (hc n).1
    · exact absurd hj (hc n).2
  · exact hj

theorem OneLock.look (h : t.OneLock) (i : ι) (k : K) : (t.look i k).OneLock := by
  unfold LockTable.look
  split
  · rename_i n hn
    refine h.join (fun j m hj => ?_) (fun m hm => ?_)
    · exact (h.entry j k m n hj hn).symm
    · rw [hn] at hm
      exact Option.some.inj hm
  · refine h.of_fewer (fun j k' n => on_of_drop (by simp) rfl) (fun _ _ _ _ _ hm => hm) ?_
    intro j k' n hj
    by_cases hji : j = i
    · subst hji
      simp at hj
    · simp only [Function.update_of_ne hji] at hj
      exact h.owner j k' n hj

variable [DecidableEq K] in
/-- A mutex is created while nobody waits on or holds an earlier one of the key. -/
theorem OneLock.create (h : t.OneLock) (i : ι) (k : K)
    (hfree : t.entries k = .none → ∀ j n, ¬ t.On j k n) : (t.create i k).OneLock := by
  unfold LockTable.create
  split
  · rename_i n hn
    refine h.join (fun j m hj => ?_) (fun m hm => ?_)
    · exact (h.entry j k m n hj hn).symm
    · rw [hn] at hm
      exact Option.some.inj hm
  · rename_i hn
    have hnew : OneLock
        (⟨Function.update t.entries k (some t.next), t.next + 1, t.holder, t.claims⟩ :
          LockTable K ι) := by
      refine h.of_fewer (fun _ _ _ hj => hj) (fun j k' n m hj hm => ?_) h.owner
      have hk : k' ≠ k := by
        rintro rfl
        exact hfree hn j n hj
      simpa only [Function.update_of_ne hk] using hm
    refine hnew.join (fun j m hj => ?_) (fun m hm => ?_)
    · exact absurd hj (hfree hn j m)
    · simpa using hm

theorem OneLock.grant (h : t.OneLock) {i : ι} {k : K} {n : ℕ} (hi : t.claims i = .waiting k n)
    (hn : t.holder n = .none) : (t.grant i k n).OneLock := by
  refine h.of_fewer (fun j k' m hj => ?_) (fun _ _ _ _ _ hm => hm) (fun j k' m hj => ?_)
  · rcases on_update (t := t) (i := i) (c := .held k n) hj with ⟨rfl, hc⟩ | ⟨-, hj⟩
    · simp only [reduceCtorEq, Claim.held.injEq, false_or] at hc
      obtain ⟨rfl, rfl⟩ := hc
      exact .inl hi
    · exact hj
  · by_cases hji : j = i
    · subst hji
      have hj : Claim.held k n = .held k' m := by
        rw [← hj]
        exact (Function.update_self j _ t.claims).symm
      obtain ⟨rfl, rfl⟩ := Claim.held.inj hj
      exact Function.update_self _ _ _
    · have hj : t.claims j = .held k' m := by
        rw [← hj]
        exact (Function.update_of_ne hji _ _).symm
      have hown : t.holder m = some j := h.owner j k' m hj
      have hmn : m ≠ n := by
        rintro rfl
        rw [hn] at hown
        cases hown
      rw [← hown]
      exact Function.update_of_ne hmn _ _

theorem OneLock.leave (h : t.OneLock) (i : ι) : (t.leave i).OneLock := by
  have hother : ∀ j k' m, Function.update t.claims i .none j = .held k' m →
      j ≠ i ∧ t.claims j = .held k' m := by
    intro j k' m hj
    by_cases hji : j = i
    · subst hji
      simp at hj
    · rw [Function.update_of_ne hji] at hj
      exact ⟨hji, hj⟩
  unfold LockTable.leave
  split
  · rename_i k n hi
    refine h.of_fewer (fun j k' m => on_of_drop (by simp) rfl) (fun _ _ _ _ _ hm => hm) ?_
    intro j k' m hj
    obtain ⟨hji, hj⟩ := hother j k' m hj
    have hown : t.holder m = some j := h.owner j k' m hj
    have hmn : m ≠ n := by
      rintro rfl
      rw [h.owner i k m hi] at hown
      exact hji (Option.some.inj hown).symm
    simpa [Function.update_of_ne hmn] using hown
  · refine h.of_fewer (fun j k' m => on_of_drop (by simp) rfl) (fun _ _ _ _ _ hm => hm) ?_
    intro j k' m hj
    exact h.owner j k' m (hother j k' m hj).2

omit [DecidableEq ι] in
theorem OneLock.purge (h : t.OneLock) (p : K → Bool) : (t.purge p).OneLock := by
  refine h.of_fewer (fun _ _ _ hj => hj) (fun _ k _ m _ hm => ?_) h.owner
  simp only [LockTable.purge] at hm
  split at hm
  · cases hm
  · exact hm

omit [DecidableEq ι] in
theorem oneLock_empty : (empty : LockTable K ι).OneLock := by
  constructor <;> simp [empty, On]

end LockTable
end Concurrent
