import Mathlib.Data.List.Basic
import Vectorlink.Ingest

/-! Documents cut into chunks of tokens that overlap. -/
namespace Vectorlink

structure ChunkParams where
  maxTokens : ℕ
  overlap : ℕ

inductive ChunkError where
  | tokenizerError (message : String)
  | invalidParams (maxTokens : ℕ)
deriving DecidableEq

/-- What the tokenizer gives: as many byte offsets as tokens. -/
structure Encoding where
  ids : List UInt32
  offsets : List (ℕ × ℕ)
  same : offsets.length = ids.length

section Model

def isCharBoundary (text : String) (pos : ℕ) : Bool := String.Pos.Raw.isValid text ⟨pos⟩

def snapDownFrom (text : String) : ℕ → ℕ
  | 0 => 0
  | pos + 1 => if isCharBoundary text (pos + 1) then pos + 1 else snapDownFrom text pos

def snapToCharBoundaryDown (text : String) (offset : ℕ) : ℕ :=
  snapDownFrom text (min offset text.utf8ByteSize)

def snapUpFrom (text : String) (pos : ℕ) : ℕ :=
  if pos < text.utf8ByteSize ∧ isCharBoundary text pos = false then snapUpFrom text (pos + 1)
  else pos
termination_by text.utf8ByteSize - pos

def snapToCharBoundaryUp (text : String) (offset : ℕ) : ℕ :=
  snapUpFrom text (min offset text.utf8ByteSize)

/-- `&text[start..stop]`; outside of the text or off a char boundary it panics. -/
def sliceText (text : String) (start stop : ℕ) : Option String :=
  if h : start ≤ stop ∧ String.Pos.Raw.IsValid text ⟨start⟩ ∧ String.Pos.Raw.IsValid text ⟨stop⟩ then
    some (text.extract ⟨⟨start⟩, h.2.1⟩ ⟨⟨stop⟩, h.2.2⟩)
  else none

/-- How far a chunk starts behind the one before it, at least one token. -/
def ChunkParams.step (params : ChunkParams) : ℕ :=
  if params.maxTokens ≤ params.overlap then 1 else params.maxTokens - params.overlap

theorem ChunkParams.step_pos (params : ChunkParams) : 0 < params.step := by
  unfold step
  split
  · exact Nat.one_pos
  · omega

/-- The token ranges of the chunks from a start on. -/
def boundaries (params : ChunkParams) (tokens start : ℕ) : List (ℕ × ℕ) :=
  if start < tokens then
    let stop := min (start + params.maxTokens) tokens
    if stop = tokens then [(start, stop)]
    else (start, stop) :: boundaries params tokens (start + params.step)
  else []
termination_by tokens - start
decreasing_by
  have := params.step_pos
  omega

/-- One chunk; nothing if an index or a slice panics. -/
def chunkAt (encoding : Encoding) (text : String) (count i tokStart tokEnd : ℕ) : Option Chunk := do
  let rawStart ← encoding.offsets[tokStart]?
  let rawEnd ← if 0 < tokEnd ∧ tokEnd ≤ encoding.offsets.length
    then encoding.offsets[tokEnd - 1]?.map Prod.snd else some text.utf8ByteSize
  let slice ← sliceText text (snapToCharBoundaryDown text rawStart.1)
    (snapToCharBoundaryUp text rawEnd)
  some ⟨UInt32.ofNat i, UInt32.ofNat count, UInt32.ofNat tokStart,
    UInt32.ofNat encoding.ids.length, slice⟩

def chunksFrom (encoding : Encoding) (text : String) (count : ℕ) :
    ℕ → List (ℕ × ℕ) → Option (List Chunk)
  | _, [] => some []
  | i, (tokStart, tokEnd) :: rest => do
    let chunk ← chunkAt encoding text count i tokStart tokEnd
    let chunks ← chunksFrom encoding text count (i + 1) rest
    some (chunk :: chunks)

/-- Nothing if the function panics. -/
def chunkText (encode : String → Except String Encoding) (text : String) (params : ChunkParams) :
    Option (Except ChunkError (List Chunk)) :=
  if params.maxTokens = 0 then some (.error (.invalidParams params.maxTokens))
  else
    match encode text with
    | .error e => some (.error (.tokenizerError e))
    | .ok encoding =>
      let tokens := encoding.ids.length
      if tokens ≤ params.maxTokens then some (.ok [⟨0, 1, 0, UInt32.ofNat tokens, text⟩])
      else
        let ranges := boundaries params tokens 0
        (chunksFrom encoding text ranges.length 0 ranges).map .ok

end Model

section Spec

/-- Offsets are ranges within the text, and neither end goes back. -/
structure Encoding.Ordered (encoding : Encoding) (text : String) : Prop where
  range : ∀ o ∈ encoding.offsets, o.1 ≤ o.2 ∧ o.2 ≤ text.utf8ByteSize
  sorted : encoding.offsets.Pairwise fun a b => a.1 ≤ b.1 ∧ a.2 ≤ b.2

variable (params : ChunkParams) (tokens : ℕ)

/-- The end of the token range of a chunk. -/
def chunkEnd (chunk : Chunk) : ℕ := min (chunk.tokenStart.toNat + params.maxTokens) tokens

/-- The chunks of a document cover it, as their fields say. -/
structure CoversDocument (encoding : Encoding) (text : String) (chunks : List Chunk) : Prop where
  nonempty : chunks ≠ []
  index : ∀ (i : ℕ) (c : Chunk), chunks[i]? = some c → c.index.toNat = i
  count : ∀ c ∈ chunks, c.count.toNat = chunks.length
  cover : ∀ j < encoding.ids.length, ∃ c ∈ chunks,
    c.tokenStart.toNat ≤ j ∧ j < chunkEnd params encoding.ids.length c
  short : ∀ c ∈ chunks, chunkEnd params encoding.ids.length c ≤ c.tokenStart.toNat + params.maxTokens
  consecutive : ∀ (i : ℕ) (c d : Chunk), chunks[i]? = some c → chunks[i + 1]? = some d →
    chunkEnd params encoding.ids.length c ≤ chunkEnd params encoding.ids.length d ∧
    if params.overlap < params.maxTokens
      then d.tokenStart.toNat + params.overlap = chunkEnd params encoding.ids.length c
      else d.tokenStart.toNat = c.tokenStart.toNat + 1
  last : ∀ (i : ℕ) (c : Chunk), chunks[i]? = some c →
    (chunkEnd params encoding.ids.length c = encoding.ids.length ↔ i + 1 = chunks.length)
  text : ∀ c ∈ chunks, ∃ start stop, sliceText text start stop = some c.text ∧
    ∀ (j : ℕ) (o : ℕ × ℕ), c.tokenStart.toNat ≤ j → j < chunkEnd params encoding.ids.length c →
      encoding.offsets[j]? = some o → start ≤ o.1 ∧ o.2 ≤ stop

/-- The number of chunks after the first. -/
def ChunkParams.further (params : ChunkParams) (tokens start : ℕ) : ℕ :=
  (tokens - (start + params.maxTokens) + params.step - 1) / params.step

/-- The number of the chunks and the start of the last one fit their fields of 32 bits. -/
def FitsFields (params : ChunkParams) (tokens : ℕ) : Prop :=
  params.further tokens 0 + 1 < 4294967296 ∧ params.further tokens 0 * params.step < 4294967296

end Spec

section Snap

variable {text : String} {pos : ℕ}

theorem isCharBoundary_iff : isCharBoundary text pos = true ↔ String.Pos.Raw.IsValid text ⟨pos⟩ :=
  String.Pos.Raw.isValid_eq_true_iff

theorem snapDownFrom_spec (text : String) (pos : ℕ) :
    snapDownFrom text pos ≤ pos ∧ String.Pos.Raw.IsValid text ⟨snapDownFrom text pos⟩ := by
  induction pos with
  | zero => exact ⟨Nat.le_refl 0, String.Pos.Raw.isValid_zero⟩
  | succ pos ih =>
    unfold snapDownFrom
    split
    · rename_i hvalid
      exact ⟨Nat.le_refl _, isCharBoundary_iff.mp hvalid⟩
    · exact ⟨Nat.le_succ_of_le ih.1, ih.2⟩

theorem snapUpFrom_spec (h : pos ≤ text.utf8ByteSize) :
    pos ≤ snapUpFrom text pos ∧ String.Pos.Raw.IsValid text ⟨snapUpFrom text pos⟩ := by
  fun_induction snapUpFrom text pos with
  | case1 pos hcond ih =>
    obtain ⟨hle, hvalid⟩ := ih hcond.1
    exact ⟨by omega, hvalid⟩
  | case2 pos hcond =>
    refine ⟨Nat.le_refl _, ?_⟩
    by_cases hlt : pos < text.utf8ByteSize
    · have hboundary : isCharBoundary text pos ≠ false := fun hfalse => hcond ⟨hlt, hfalse⟩
      exact isCharBoundary_iff.mp (by simpa using hboundary)
    · have hend : pos = text.utf8ByteSize := by omega
      rw [hend]
      exact String.Pos.Raw.isValid_rawEndPos

theorem snapToCharBoundaryDown_spec (text : String) (offset : ℕ) :
    snapToCharBoundaryDown text offset ≤ offset ∧
      String.Pos.Raw.IsValid text ⟨snapToCharBoundaryDown text offset⟩ := by
  obtain ⟨hle, hvalid⟩ := snapDownFrom_spec text (min offset text.utf8ByteSize)
  exact ⟨Nat.le_trans hle (Nat.min_le_left _ _), hvalid⟩

theorem snapToCharBoundaryUp_spec {offset : ℕ} (h : offset ≤ text.utf8ByteSize) :
    offset ≤ snapToCharBoundaryUp text offset ∧
      String.Pos.Raw.IsValid text ⟨snapToCharBoundaryUp text offset⟩ := by
  unfold snapToCharBoundaryUp
  rw [Nat.min_eq_left h]
  exact snapUpFrom_spec h

theorem sliceText_isSome {start stop : ℕ} (hle : start ≤ stop)
    (hstart : String.Pos.Raw.IsValid text ⟨start⟩) (hstop : String.Pos.Raw.IsValid text ⟨stop⟩) :
    ∃ slice, sliceText text start stop = some slice := by
  unfold sliceText
  rw [dif_pos ⟨hle, hstart, hstop⟩]
  exact ⟨_, rfl⟩

theorem sliceText_whole (text : String) : sliceText text 0 text.utf8ByteSize = some text := by
  unfold sliceText
  rw [dif_pos ⟨Nat.zero_le _, String.Pos.Raw.isValid_zero, String.Pos.Raw.isValid_rawEndPos⟩]
  refine congrArg some (String.toByteArray_inj.mp ?_)
  exact ByteArray.extract_zero_size

end Snap

section Boundaries

variable {params : ChunkParams} {tokens start : ℕ}

theorem ChunkParams.step_le (h : 0 < params.maxTokens) : params.step ≤ params.maxTokens := by
  unfold step
  split
  · exact h
  · exact Nat.sub_le _ _

theorem ChunkParams.further_succ (h : start + params.maxTokens < tokens) :
    params.further tokens start = params.further tokens (start + params.step) + 1 := by
  have hstep := params.step_pos
  unfold further
  rcases Nat.lt_or_ge (start + params.step + params.maxTokens) tokens with hlt | hge
  · rw [← Nat.add_div_right _ hstep]
    congr 1
    omega
  · -- The next chunk is the last one.
    have hnone : tokens - (start + params.step + params.maxTokens) + params.step - 1 < params.step := by
      omega
    have hsome : tokens - (start + params.maxTokens) + params.step - 1 =
        tokens - (start + params.maxTokens) - 1 + params.step := by omega
    have hrest : tokens - (start + params.maxTokens) - 1 < params.step := by omega
    rw [hsome, Nat.add_div_right _ hstep, Nat.div_eq_of_lt hrest, Nat.div_eq_of_lt hnone]

theorem ChunkParams.further_eq_zero (h : tokens ≤ start + params.maxTokens) :
    params.further tokens start = 0 := by
  have hstep := params.step_pos
  unfold further
  exact Nat.div_eq_of_lt (by omega)

/-- The ranges in closed form. -/
theorem boundaries_eq (hmax : 0 < params.maxTokens) (h : start < tokens) :
    boundaries params tokens start = (List.range (params.further tokens start + 1)).map fun i =>
      (start + i * params.step, min (start + i * params.step + params.maxTokens) tokens) := by
  fun_induction boundaries params tokens start with
  | case1 start hlt stop hstop =>
    have hfurther : params.further tokens start = 0 := ChunkParams.further_eq_zero (by omega)
    simp [hfurther, stop]
  | case2 start hlt stop hstop ih =>
    have hstep := ChunkParams.step_le hmax
    have hmore : start + params.maxTokens < tokens := by omega
    have hplace (i : ℕ) : start + params.step + i * params.step = start + (i + 1) * params.step := by
      rw [Nat.succ_mul]
      omega
    have hrange : List.range (params.further tokens (start + params.step) + 1 + 1) =
        0 :: (List.range (params.further tokens (start + params.step) + 1)).map Nat.succ :=
      List.range_succ_eq_map
    rw [ih (by omega), ChunkParams.further_succ hmore]
    rw [hrange, List.map_cons, List.map_map]
    congr 1
    · simp [stop]
    · refine List.map_congr_left fun i _ => ?_
      simp only [Function.comp_apply, Nat.succ_eq_add_one, hplace]
  | case3 start hge => exact absurd h hge

theorem lt_further_iff {i : ℕ} :
    i < params.further tokens 0 ↔ i * params.step + params.maxTokens < tokens := by
  unfold ChunkParams.further
  rw [Nat.lt_iff_add_one_le, Nat.le_div_iff_mul_le params.step_pos, Nat.succ_mul]
  have hstep := params.step_pos
  omega

theorem start_lt_tokens (hmax : 0 < params.maxTokens) (h : 0 < tokens) {i : ℕ}
    (hi : i < params.further tokens 0 + 1) : i * params.step < tokens := by
  cases i with
  | zero => omega
  | succ i =>
    have hbefore := lt_further_iff.mp (Nat.lt_of_succ_lt_succ hi)
    have hstep := ChunkParams.step_le hmax
    rw [Nat.succ_mul]
    omega

end Boundaries

section Chunks

variable {encoding : Encoding} {text : String} {params : ChunkParams} {count i lo hi : ℕ}

/-- A chunk made of a range of tokens. -/
structure IsChunk (encoding : Encoding) (text : String) (count i lo hi : ℕ) (chunk : Chunk) :
    Prop where
  index : chunk.index = UInt32.ofNat i
  count : chunk.count = UInt32.ofNat count
  tokenStart : chunk.tokenStart = UInt32.ofNat lo
  text : ∃ start stop, sliceText text start stop = some chunk.text ∧
    ∀ (j : ℕ) (o : ℕ × ℕ), lo ≤ j → j < hi → encoding.offsets[j]? = some o →
      start ≤ o.1 ∧ o.2 ≤ stop

/-- Every chunk is the one of its place. -/
def ArePlaced (params : ChunkParams) (encoding : Encoding) (text : String) (chunks : List Chunk) :
    Prop :=
  chunks.length = params.further encoding.ids.length 0 + 1 ∧
    ∀ (i : ℕ) (c : Chunk), chunks[i]? = some c →
      IsChunk encoding text (params.further encoding.ids.length 0 + 1) i (i * params.step)
        (min (i * params.step + params.maxTokens) encoding.ids.length) c

theorem Encoding.Ordered.first_le (hordered : encoding.Ordered text) {j : ℕ} {a b : ℕ × ℕ}
    (hle : i ≤ j) (ha : encoding.offsets[i]? = some a) (hb : encoding.offsets[j]? = some b) :
    a.1 ≤ b.1 ∧ a.2 ≤ b.2 := by
  rcases Nat.lt_or_eq_of_le hle with hlt | heq
  · obtain ⟨hi, rfl⟩ := List.getElem?_eq_some_iff.mp ha
    obtain ⟨hj, rfl⟩ := List.getElem?_eq_some_iff.mp hb
    exact List.pairwise_iff_getElem.mp hordered.sorted i j hi hj hlt
  · subst heq
    have heq : a = b := Option.some.inj (ha.symm.trans hb)
    exact heq ▸ ⟨Nat.le_refl _, Nat.le_refl _⟩

/-- A range of tokens gives a chunk; no index and no slice panics. -/
theorem chunkAt_ok (hordered : encoding.Ordered text) (hlo : lo < hi)
    (hhi : hi ≤ encoding.ids.length) (count i : ℕ) :
    ∃ chunk, chunkAt encoding text count i lo hi = some chunk ∧
      IsChunk encoding text count i lo hi chunk := by
  rw [← encoding.same] at hhi
  have hlast : hi - 1 < encoding.offsets.length := by omega
  have hfirst := List.getElem?_eq_getElem (Nat.lt_of_lt_of_le hlo hhi)
  have hend := List.getElem?_eq_getElem hlast
  generalize encoding.offsets[lo] = first at hfirst
  generalize encoding.offsets[hi - 1] = final at hend
  have hrange := hordered.range final (List.mem_of_getElem? hend)
  have horder := (hordered.first_le (by omega) hfirst hend).1
  obtain ⟨hdown, hstart⟩ := snapToCharBoundaryDown_spec text first.1
  obtain ⟨hup, hstop⟩ := snapToCharBoundaryUp_spec hrange.2
  obtain ⟨slice, hslice⟩ := sliceText_isSome (by omega) hstart hstop
  refine ⟨⟨UInt32.ofNat i, UInt32.ofNat count, UInt32.ofNat lo,
    UInt32.ofNat encoding.ids.length, slice⟩, ?_, rfl, rfl, rfl, _, _, hslice, ?_⟩
  · have hpos : 0 < hi ∧ hi ≤ encoding.offsets.length := ⟨by omega, hhi⟩
    simp [chunkAt, hfirst, hend, hpos, hslice]
  · intro j o hj hlt hoffset
    have hlower := (hordered.first_le hj hfirst hoffset).1
    have hupper := (hordered.first_le (by omega) hoffset hend).2
    omega

theorem chunksFrom_ok (hordered : encoding.Ordered text) (count i : ℕ) (ranges : List (ℕ × ℕ))
    (hranges : ∀ r ∈ ranges, r.1 < r.2 ∧ r.2 ≤ encoding.ids.length) :
    ∃ chunks, chunksFrom encoding text count i ranges = some chunks ∧
      chunks.length = ranges.length ∧
      ∀ (j : ℕ) (r : ℕ × ℕ) (c : Chunk), ranges[j]? = some r → chunks[j]? = some c →
        IsChunk encoding text count (i + j) r.1 r.2 c := by
  induction ranges generalizing i with
  | nil => exact ⟨[], rfl, rfl, fun j r c hr => by simp at hr⟩
  | cons r ranges ih =>
    have hr := hranges r List.mem_cons_self
    obtain ⟨chunk, hchunk, hspec⟩ := chunkAt_ok hordered hr.1 hr.2 count i
    obtain ⟨chunks, hchunks, hlength, hrest⟩ :=
      ih (i + 1) fun r h => hranges r (List.mem_cons_of_mem _ h)
    refine ⟨chunk :: chunks, by simp [chunksFrom, hchunk, hchunks], by simp [hlength], ?_⟩
    intro j r c hr hc
    cases j with
    | zero =>
      simp only [List.getElem?_cons_zero, Option.some.injEq] at hr hc
      subst hr hc
      exact hspec
    | succ j =>
      simp only [List.getElem?_cons_succ] at hr hc
      have hplace : i + (j + 1) = i + 1 + j := by omega
      rw [hplace]
      exact hrest j r c hr hc

/-- A document of any length has chunks, each of them as its place says. -/
theorem chunkText_ok {encode : String → Except String Encoding} (hmax : 0 < params.maxTokens)
    (hencode : encode text = .ok encoding) (hordered : encoding.Ordered text) :
    ∃ chunks, chunkText encode text params = some (.ok chunks) ∧
      ArePlaced params encoding text chunks := by
  unfold chunkText ArePlaced
  rw [if_neg (Nat.ne_of_gt hmax), hencode]
  simp only
  split
  · rename_i hshort
    have hone : params.further encoding.ids.length 0 = 0 :=
      ChunkParams.further_eq_zero (by omega)
    rw [hone]
    refine ⟨_, rfl, rfl, ?_⟩
    intro i c hc
    cases i with
    | zero =>
      simp only [List.getElem?_cons_zero, Option.some.injEq] at hc
      subst hc
      refine ⟨rfl, rfl, by simp, 0, text.utf8ByteSize, sliceText_whole text, ?_⟩
      intro j o _ _ ho
      exact ⟨Nat.zero_le _, (hordered.range o (List.mem_of_getElem? ho)).2⟩
    | succ i => simp at hc
  · rename_i hlong
    have hclosed : boundaries params encoding.ids.length 0 = _ := boundaries_eq hmax (by omega)
    simp only [Nat.zero_add] at hclosed
    obtain ⟨chunks, hchunks, hlength, hspec⟩ := chunksFrom_ok hordered
      (boundaries params encoding.ids.length 0).length 0 (boundaries params encoding.ids.length 0)
      (by
        intro r hr
        rw [hclosed] at hr
        obtain ⟨i, hi, rfl⟩ := List.mem_map.mp hr
        have hplace := start_lt_tokens hmax (by omega) (List.mem_range.mp hi)
        simp only
        omega)
    have hcount : (boundaries params encoding.ids.length 0).length =
        params.further encoding.ids.length 0 + 1 := by rw [hclosed]; simp
    rw [hcount] at hchunks hlength hspec
    refine ⟨chunks, by simp [hcount, hchunks], hlength, ?_⟩
    intro i c hc
    have hi : i < params.further encoding.ids.length 0 + 1 := by
      rw [← hlength]
      exact (List.getElem?_eq_some_iff.mp hc).1
    have hrange : (boundaries params encoding.ids.length 0)[i]? = some (i * params.step,
        min (i * params.step + params.maxTokens) encoding.ids.length) := by
      rw [hclosed]
      simp [hi]
    have hchunk := hspec i _ c hrange hc
    rwa [Nat.zero_add] at hchunk

end Chunks

section Covering

variable {encoding : Encoding} {text : String} {params : ChunkParams} {chunks : List Chunk}

theorem toNat_ofNat_of_lt {n : ℕ} (h : n < 4294967296) : (UInt32.ofNat n).toNat = n := by
  rw [UInt32.toNat_ofNat']
  exact Nat.mod_eq_of_lt h

theorem ArePlaced.lt_length (h : ArePlaced params encoding text chunks) {i : ℕ} {c : Chunk}
    (hc : chunks[i]? = some c) : i < params.further encoding.ids.length 0 + 1 := by
  rw [← h.1]
  exact (List.getElem?_eq_some_iff.mp hc).1

theorem ArePlaced.exists_chunk (h : ArePlaced params encoding text chunks) {i : ℕ}
    (hi : i < params.further encoding.ids.length 0 + 1) : ∃ c, chunks[i]? = some c := by
  rw [← h.1] at hi
  exact ⟨_, List.getElem?_eq_getElem hi⟩

theorem FitsFields.tokenStart_eq (hfits : FitsFields params encoding.ids.length)
    (h : ArePlaced params encoding text chunks) {i : ℕ} {c : Chunk} (hc : chunks[i]? = some c) :
    c.tokenStart.toNat = i * params.step := by
  rw [(h.2 i c hc).tokenStart]
  apply toNat_ofNat_of_lt
  have hle := Nat.mul_le_mul_right params.step (Nat.le_of_lt_succ (h.lt_length hc))
  exact Nat.lt_of_le_of_lt hle hfits.2

theorem FitsFields.chunkEnd_eq (hfits : FitsFields params encoding.ids.length)
    (h : ArePlaced params encoding text chunks) {i : ℕ} {c : Chunk} (hc : chunks[i]? = some c) :
    chunkEnd params encoding.ids.length c =
      min (i * params.step + params.maxTokens) encoding.ids.length := by
  unfold chunkEnd
  rw [hfits.tokenStart_eq h hc]

/-- A token is in the last chunk that does not start behind it. -/
theorem FitsFields.cover (hmax : 0 < params.maxTokens) (hfits : FitsFields params encoding.ids.length)
    (h : ArePlaced params encoding text chunks) {j : ℕ} (hj : j < encoding.ids.length) :
    ∃ c ∈ chunks, c.tokenStart.toNat ≤ j ∧ j < chunkEnd params encoding.ids.length c := by
  have hstep := ChunkParams.step_le hmax
  have hpos := params.step_pos
  have hplace : min (j / params.step) (params.further encoding.ids.length 0) <
      params.further encoding.ids.length 0 + 1 := by omega
  obtain ⟨c, hc⟩ := h.exists_chunk hplace
  refine ⟨c, List.mem_of_getElem? hc, ?_⟩
  rw [hfits.tokenStart_eq h hc, hfits.chunkEnd_eq h hc]
  have hbelow := Nat.div_mul_le_self j params.step
  rcases Nat.le_total (j / params.step) (params.further encoding.ids.length 0) with hle | hge
  · rw [Nat.min_eq_left hle]
    have habove := Nat.lt_div_mul_add hpos (a := j)
    omega
  · rw [Nat.min_eq_right hge]
    have hmul := Nat.mul_le_mul_right params.step hge
    have hlast := mt lt_further_iff.mpr (Nat.lt_irrefl (params.further encoding.ids.length 0))
    omega

theorem ChunkParams.succ_mul_step (params : ChunkParams) (i : ℕ) :
    if params.overlap < params.maxTokens
      then (i + 1) * params.step + params.overlap = i * params.step + params.maxTokens
      else (i + 1) * params.step = i * params.step + 1 := by
  rw [Nat.succ_mul]
  unfold step
  split <;> split <;> omega

theorem coversDocument_of_fitsFields (hmax : 0 < params.maxTokens)
    (hfits : FitsFields params encoding.ids.length) (h : ArePlaced params encoding text chunks) :
    CoversDocument params encoding text chunks where
  nonempty := by
    intro hnil
    have hlength := h.1
    simp [hnil] at hlength
  index := by
    intro i c hc
    have hlt := h.lt_length hc
    rw [(h.2 i c hc).index]
    exact toNat_ofNat_of_lt (by have := hfits.1; omega)
  count := by
    intro c hc
    obtain ⟨i, hi⟩ := List.getElem?_of_mem hc
    rw [(h.2 i c hi).count, h.1]
    exact toNat_ofNat_of_lt hfits.1
  cover := fun j hj => hfits.cover hmax h hj
  short := fun c _ => Nat.min_le_left _ _
  consecutive := by
    intro i c d hc hd
    have hnext := h.lt_length hd
    have hmore := lt_further_iff.mp (Nat.lt_of_succ_lt_succ hnext)
    have hsucc := params.succ_mul_step i
    rw [hfits.chunkEnd_eq h hc, hfits.chunkEnd_eq h hd, hfits.tokenStart_eq h hc,
      hfits.tokenStart_eq h hd]
    constructor
    · rw [Nat.succ_mul]
      omega
    · split
      · rename_i hoverlap
        rw [if_pos hoverlap] at hsucc
        omega
      · rename_i hoverlap
        rwa [if_neg hoverlap] at hsucc
  last := by
    intro i c hc
    have hlt := h.lt_length hc
    have hend : i < params.further encoding.ids.length 0 ↔ _ := lt_further_iff
    rw [hfits.chunkEnd_eq h hc, h.1]
    omega
  text := by
    intro c hc
    obtain ⟨i, hi⟩ := List.getElem?_of_mem hc
    obtain ⟨start, stop, hslice, hinside⟩ := (h.2 i c hi).text
    refine ⟨start, stop, hslice, ?_⟩
    rw [hfits.tokenStart_eq h hi, hfits.chunkEnd_eq h hi]
    exact hinside

/-- The start of each chunk is read back from the one before it, so none has wrapped. -/
theorem CoversDocument.tokenStart_eq (hcovers : CoversDocument params encoding text chunks)
    (h : ArePlaced params encoding text chunks) {i : ℕ}
    (hi : i < params.further encoding.ids.length 0 + 1) :
    ∃ c, chunks[i]? = some c ∧ c.tokenStart.toNat = i * params.step := by
  induction i with
  | zero =>
    obtain ⟨c, hc⟩ := h.exists_chunk hi
    refine ⟨c, hc, ?_⟩
    rw [(h.2 0 c hc).tokenStart]
    simp
  | succ i ih =>
    obtain ⟨c, hc, hstart⟩ := ih (by omega)
    obtain ⟨d, hd⟩ := h.exists_chunk hi
    refine ⟨d, hd, ?_⟩
    have hmore := lt_further_iff.mp (Nat.lt_of_succ_lt_succ hi)
    have hsucc := params.succ_mul_step i
    have hnext := (hcovers.consecutive i c d hc hd).2
    unfold chunkEnd at hnext
    rw [hstart] at hnext
    split at hnext
    · rename_i hoverlap
      rw [if_pos hoverlap] at hsucc
      omega
    · rename_i hoverlap
      rw [if_neg hoverlap] at hsucc
      omega

theorem fitsFields_of_coversDocument (hcovers : CoversDocument params encoding text chunks)
    (h : ArePlaced params encoding text chunks) : FitsFields params encoding.ids.length := by
  constructor
  · obtain ⟨c, hc⟩ := h.exists_chunk (Nat.succ_pos _)
    have hcount := hcovers.count c (List.mem_of_getElem? hc)
    rw [h.1] at hcount
    have hlt := c.count.toNat_lt
    omega
  · obtain ⟨c, hc, hstart⟩ := hcovers.tokenStart_eq h (Nat.lt_succ_self _)
    have hlt := c.tokenStart.toNat_lt
    omega

/-- Chunks cover their document if and only if their number and starts fit 32 bits. -/
theorem chunkText_covers_iff (encode : String → Except String Encoding) (text : String)
    (params : ChunkParams) (encoding : Encoding) (hmax : 0 < params.maxTokens)
    (hencode : encode text = .ok encoding) (hordered : encoding.Ordered text) :
    ∃ chunks, chunkText encode text params = some (.ok chunks) ∧
      (CoversDocument params encoding text chunks ↔ FitsFields params encoding.ids.length) := by
  obtain ⟨chunks, hchunks, hplaced⟩ := chunkText_ok hmax hencode hordered
  refine ⟨chunks, hchunks, ?_, ?_⟩
  · intro hcovers
    exact fitsFields_of_coversDocument hcovers hplaced
  · intro hfits
    exact coversDocument_of_fitsFields hmax hfits hplaced

/-- One token for each byte. -/
def byteEncoding (text : String) : Encoding where
  ids := text.toByteArray.data.toList.map UInt8.toUInt32
  offsets := (List.range text.utf8ByteSize).map fun i => (i, i + 1)
  same := by simp

theorem byteEncoding_ids_length (text : String) :
    (byteEncoding text).ids.length = text.utf8ByteSize := by
  rw [← (byteEncoding text).same]
  simp [byteEncoding]

theorem byteEncoding_ordered (text : String) : (byteEncoding text).Ordered text where
  range := by
    intro o ho
    obtain ⟨i, hi, rfl⟩ := List.mem_map.mp ho
    have hlt := List.mem_range.mp hi
    exact ⟨Nat.le_succ i, hlt⟩
  sorted := by
    refine List.pairwise_map.mpr (List.pairwise_lt_range.imp ?_)
    intro i j hlt
    exact ⟨Nat.le_of_lt hlt, Nat.succ_le_succ (Nat.le_of_lt hlt)⟩

theorem chunkText_covers_cuts : ∃ chunks,
    chunkText (fun t => .ok (byteEncoding t)) "abcdefg" ⟨3, 1⟩ = some (.ok chunks) ∧
      CoversDocument ⟨3, 1⟩ (byteEncoding "abcdefg") "abcdefg" chunks := by
  have hfits : FitsFields ⟨3, 1⟩ (byteEncoding "abcdefg").ids.length := by
    rw [byteEncoding_ids_length]
    constructor <;> decide
  obtain ⟨chunks, hchunks, hcovers⟩ := chunkText_covers_iff (fun t => .ok (byteEncoding t))
    "abcdefg" ⟨3, 1⟩ (byteEncoding "abcdefg") (Nat.succ_pos 2) rfl (byteEncoding_ordered "abcdefg")
  exact ⟨chunks, hchunks, hcovers.mpr hfits⟩

def repeated (c : Char) : ℕ → String
  | 0 => ""
  | n + 1 => (repeated c n).push c

theorem utf8ByteSize_repeated (n : ℕ) : (repeated 'a' n).utf8ByteSize = n := by
  induction n with
  | zero => rfl
  | succ n ih =>
    unfold repeated
    rw [String.utf8ByteSize_push, ih]
    rfl

theorem not_fitsFields_of_wraps {n : ℕ} (h : 4294967296 ≤ n) : ¬FitsFields ⟨1, 0⟩ n := by
  intro hfits
  have hcount := hfits.1
  have hstep : ChunkParams.step ⟨1, 0⟩ = 1 := rfl
  unfold ChunkParams.further at hcount
  rw [hstep, Nat.div_one] at hcount
  simp only at hcount
  omega

/-- The count of as many chunks as 32 bits hold is 0. -/
theorem chunkText_count_wraps : ∃ chunks,
    chunkText (fun t => .ok (byteEncoding t)) (repeated 'a' 4294967296) ⟨1, 0⟩ =
      some (.ok chunks) ∧
    (byteEncoding (repeated 'a' 4294967296)).Ordered (repeated 'a' 4294967296) ∧
    ¬CoversDocument ⟨1, 0⟩ (byteEncoding (repeated 'a' 4294967296)) (repeated 'a' 4294967296)
      chunks := by
  generalize hn : 4294967296 = n
  have hordered := byteEncoding_ordered (repeated 'a' n)
  have hok : ∃ chunks,
      chunkText (fun t => .ok (byteEncoding t)) (repeated 'a' n) ⟨1, 0⟩ = some (.ok chunks) ∧
        ArePlaced ⟨1, 0⟩ (byteEncoding (repeated 'a' n)) (repeated 'a' n) chunks :=
    chunkText_ok Nat.one_pos rfl hordered
  obtain ⟨chunks, hchunks, hplaced⟩ := hok
  refine ⟨chunks, hchunks, hordered, ?_⟩
  intro hcovers
  have hfits := fitsFields_of_coversDocument hcovers hplaced
  rw [byteEncoding_ids_length, utf8ByteSize_repeated] at hfits
  exact not_fitsFields_of_wraps (Nat.le_of_eq hn) hfits

end Covering

end Vectorlink
