import Mathlib.Data.List.Basic
import Vectorlink.Kernel

/-! Batched embedding: one result for each text, failures isolated to single texts. -/
namespace Vectorlink

inductive EmbeddingRole where
  | document
  | query
  | clustering
  | classification
deriving DecidableEq, Repr

inductive EmbedResult (V : Type) where
  | ok (embedding : V)
  | failed (message : String)
deriving DecidableEq, Repr

/-- One request to the embedding provider within a push. Two requests of one push may get
different answers for the same texts. -/
structure EmbedCall where
  role : EmbeddingRole
  subBatch : ℕ
  batch : ℕ
  retry : Option ℕ
deriving DecidableEq, Repr

/-- The provider behind its cache: what it answers to each request. -/
abbrev Provider (V : Type) := EmbedCall → List String → Except String (List V)

section Slices

variable {α : Type}

def sliceLoop (n : ℕ) : (fuel : ℕ) → List α → List (List α)
  | 0, _ => []
  | _, [] => []
  | fuel + 1, x :: xs => (x :: xs).take n :: sliceLoop n fuel ((x :: xs).drop n)

/-- Consecutive pieces of length `n`, the last one shorter. -/
def sliceChunks (n : ℕ) (xs : List α) : List (List α) := sliceLoop n xs.length xs

theorem flatten_sliceLoop {n : ℕ} (hn : 0 < n) (fuel : ℕ) (xs : List α) (h : xs.length ≤ fuel) :
    (sliceLoop n fuel xs).flatten = xs := by
  induction fuel generalizing xs with
  | zero =>
    have : xs = [] := List.length_eq_zero_iff.mp (by omega)
    simp [sliceLoop, this]
  | succ fuel ih =>
    cases xs with
    | nil => simp [sliceLoop]
    | cons x xs =>
      have hshort : ((x :: xs).drop n).length ≤ fuel := by
        simp only [List.length_drop, List.length_cons] at h ⊢
        omega
      rw [sliceLoop, List.flatten_cons, ih _ hshort, List.take_append_drop]

theorem flatten_sliceChunks {n : ℕ} (hn : 0 < n) (xs : List α) : (sliceChunks n xs).flatten = xs :=
  flatten_sliceLoop hn xs.length xs le_rfl

theorem length_flatten_pieces {n : ℕ} (pieces : List (List α))
    (hlen : ∀ piece ∈ pieces, piece.length = n) : pieces.flatten.length = pieces.length * n := by
  induction pieces with
  | nil => simp
  | cons piece pieces ih =>
    rw [List.flatten_cons, List.length_append, hlen piece List.mem_cons_self,
      ih fun p hp => hlen p (List.mem_cons_of_mem _ hp), List.length_cons, Nat.succ_mul]
    omega

/-- Full pieces put together, and a shorter one behind them, are cut into the same pieces. -/
theorem sliceLoop_flatten {n : ℕ} (hn : 0 < n) (pieces : List (List α))
    (hlen : ∀ piece ∈ pieces, piece.length = n) {rest : List α} (hrest : rest.length < n)
    (fuel : ℕ) (hfuel : (pieces.flatten ++ rest).length ≤ fuel) :
    sliceLoop n fuel (pieces.flatten ++ rest) = pieces ++ if rest.isEmpty then [] else [rest] := by
  induction pieces generalizing fuel with
  | nil =>
    rw [List.flatten_nil, List.nil_append] at hfuel ⊢
    cases rest with
    | nil => cases fuel <;> rfl
    | cons x xs =>
      cases fuel with
      | zero => cases hfuel
      | succ fuel =>
        rw [sliceLoop, List.take_of_length_le (Nat.le_of_lt hrest), List.drop_of_length_le (Nat.le_of_lt hrest)]
        cases fuel <;> rfl
  | cons piece pieces ih =>
    have hpiece := hlen piece List.mem_cons_self
    rw [List.flatten_cons, List.append_assoc] at hfuel ⊢
    rw [List.length_append] at hfuel
    obtain ⟨x, xs, rfl⟩ := List.exists_cons_of_ne_nil
      (List.ne_nil_of_length_pos (show 0 < piece.length by omega))
    cases fuel with
    | zero => omega
    | succ fuel =>
      rw [List.cons_append, sliceLoop, ← List.cons_append, ← hpiece, List.take_left,
        List.drop_left, hpiece, ih (fun p hp => hlen p (List.mem_cons_of_mem _ hp)) fuel (by omega),
        List.cons_append]

theorem sliceChunks_flatten_append {n : ℕ} (hn : 0 < n) (pieces : List (List α))
    (hlen : ∀ piece ∈ pieces, piece.length = n) {rest : List α} (hrest : rest.length < n) :
    sliceChunks n (pieces.flatten ++ rest) = pieces ++ if rest.isEmpty then [] else [rest] :=
  sliceLoop_flatten hn pieces hlen hrest _ le_rfl

theorem sliceChunks_flatten {n : ℕ} (hn : 0 < n) (pieces : List (List α))
    (hlen : ∀ piece ∈ pieces, piece.length = n) : sliceChunks n pieces.flatten = pieces := by
  have hcut : sliceChunks n (pieces.flatten ++ []) = pieces ++ if [].isEmpty then [] else [[]] :=
    sliceChunks_flatten_append hn pieces hlen hn
  rwa [List.append_nil, List.isEmpty_nil, if_pos rfl, List.append_nil] at hcut

end Slices

variable {V : Type}

/-- One request, with the guard that it returns one embedding for each text. -/
def ioEmbed (provider : Provider V) (call : EmbedCall) (texts : List String) :
    Except String (List V) :=
  if texts.isEmpty then .ok []
  else match provider call texts with
    | .error e => .error e
    | .ok embeddings =>
      if embeddings.length ≠ texts.length then
        .error s!"response parse error: count mismatch: sent {texts.length} texts, received {embeddings.length} embeddings"
      else .ok embeddings

/-- A text of a failed batch, on its own. -/
def retryText (provider : Provider V) (call : EmbedCall) (text : String) : EmbedResult V :=
  match ioEmbed provider call [text] with
  | .ok embeddings =>
    match embeddings.getLast? with
    | some embedding => .ok embedding
    | none => .failed "individual retry returned empty"
  | .error e => .failed s!"embedding failed after individual retry: {e}"

def embedBatch (provider : Provider V) (call : EmbedCall) (batch : List String) :
    List (EmbedResult V) :=
  match ioEmbed provider call batch with
  | .ok embeddings => embeddings.map .ok
  | .error _ => batch.mapIdx fun j text => retryText provider { call with retry := some j } text

def ioEmbedBatched (provider : Provider V) (role : EmbeddingRole) (subBatch batchSize : ℕ)
    (texts : List String) : List (EmbedResult V) :=
  ((sliceChunks batchSize texts).mapIdx fun k batch =>
    embedBatch provider ⟨role, subBatch, k, none⟩ batch).flatten

theorem length_of_ioEmbed {provider : Provider V} {call : EmbedCall} {texts : List String}
    {embeddings : List V} (h : ioEmbed provider call texts = .ok embeddings) :
    embeddings.length = texts.length := by
  unfold ioEmbed at h
  split at h
  · rename_i hempty
    obtain rfl := Except.ok.inj h
    simp [List.isEmpty_iff.mp hempty]
  · split at h
    · cases h
    · split at h
      · cases h
      · rename_i hlength
        obtain rfl := Except.ok.inj h
        simpa using hlength

theorem length_embedBatch (provider : Provider V) (call : EmbedCall) (batch : List String) :
    (embedBatch provider call batch).length = batch.length := by
  unfold embedBatch
  split
  · rename_i embeddings h
    rw [List.length_map, length_of_ioEmbed h]
  · rw [List.length_mapIdx]

/-- Exactly one result for each text. -/
theorem length_ioEmbedBatched (provider : Provider V) (role : EmbeddingRole) (subBatch : ℕ)
    {batchSize : ℕ} (hsize : 0 < batchSize) (texts : List String) :
    (ioEmbedBatched provider role subBatch batchSize texts).length = texts.length := by
  have hflat := congrArg List.length (flatten_sliceChunks hsize texts)
  unfold ioEmbedBatched
  rw [List.length_flatten] at hflat ⊢
  rw [← hflat]
  congr 1
  apply List.ext_getElem
  · simp
  · intro i _ _
    simp [length_embedBatch]

end Vectorlink
