import Mathlib.Data.Finmap
import Vectorlink.Concurrent.Runs
import Vectorlink.Files.Overwrite

/-! The settings of the domains: a map behind a reader-writer lock, and the file that every call of
`set` writes anew while it holds the lock as a reader. -/
namespace Vectorlink

structure DomainSettings where
  storeClustering : Bool
deriving DecidableEq, Inhabited

abbrev SettingsMap := Finmap fun _ : String => DomainSettings

/-- The JSON text of a map that lists its entries in some order, and the map of a text. -/
structure SettingsCodec where
  toJson : ℕ → SettingsMap → List UInt8
  fromJson : List UInt8 → Option SettingsMap

/-- How far a call of `set` is. The map has its setting from `inserted` on; the read lock is held
while `locked` and `writing`. -/
inductive SetCall where
  | inserted
  | locked
  | writing (written : ℕ)
  | done
deriving DecidableEq

def SetCall.holdsLock : SetCall → Bool
  | .locked | .writing _ => true
  | _ => false

/-- The map of the process, the order in which it lists its entries, the calls of `set` in the order
in which they took the write lock, and the bytes of `domain_settings.json`. -/
structure SettingsState where
  map : SettingsMap
  order : ℕ
  calls : List SetCall
  file : Option (List UInt8)

inductive SettingsAction where
  | insert (domain : String) (settings : DomainSettings) (order : ℕ)
  | lock (i : ℕ)
  | openFile (i : ℕ)
  | write (i n : ℕ)
  | close (i : ℕ)
  /-- The request is dropped while it waits for the lock, or the file cannot be opened or written and
  the error is ignored. -/
  | fail (i : ℕ)
  /-- The process ends, at any point, and a new one loads the file. -/
  | restart (order : ℕ)
deriving DecidableEq

namespace SettingsCodec

variable (codec : SettingsCodec)

/-- A file that is missing or does not parse counts as an empty map. -/
def load : Option (List UInt8) → SettingsMap
  | some contents => (codec.fromJson contents).getD ∅
  | none => ∅

/-- A text is read back as its map, and what is only a part of it does not parse. -/
structure Sound (codec : SettingsCodec) (domains : Set String) : Prop where
  fromJson_toJson : ∀ (order : ℕ) (m : SettingsMap), (∀ d ∈ m, d ∈ domains) →
    codec.fromJson (codec.toJson order m) = some m
  fromJson_part : ∀ (order : ℕ) (m : SettingsMap) (file : List UInt8), (∀ d ∈ m, d ∈ domains) →
    Files.PartOf 0 (codec.toJson order m) file → file ≠ codec.toJson order m →
      codec.fromJson file = none

end SettingsCodec

namespace SettingsState

variable (codec : SettingsCodec) (s : SettingsState)

def fresh : SettingsState := ⟨∅, 0, [], none⟩

def get (domain : String) : DomainSettings := (s.map.lookup domain).getD ⟨false⟩

def text : List UInt8 := codec.toJson s.order s.map

/-- The step of a call that is at one of the stages. -/
def advance (i : ℕ) (stage : SetCall) (next : SettingsState) : Option SettingsState :=
  if s.calls[i]? = some stage then some next else none

/-- One step of the process. The write lock is free when no call holds the read lock. -/
def step : SettingsAction → Option SettingsState
  | .insert domain settings order =>
    if s.calls.any SetCall.holdsLock then none
    else some ⟨s.map.insert domain settings, order, s.calls ++ [.inserted], s.file⟩
  | .lock i => s.advance i .inserted { s with calls := s.calls.set i .locked }
  | .openFile i =>
    s.advance i .locked { s with calls := s.calls.set i (.writing 0), file := some [] }
  | .write i n =>
    match s.calls[i]? with
    | some (.writing k) =>
      let block := Files.blockAt (s.text codec) k n
      some { s with
        calls := s.calls.set i (.writing (k + block.length))
        file := s.file.map fun file => Files.overwrite 0 file k block }
    | _ => none
  | .close i =>
    match s.calls[i]? with
    | some (.writing k) =>
      if (s.text codec).length ≤ k then some { s with calls := s.calls.set i .done } else none
    | _ => none
  | .fail i =>
    if i < s.calls.length then some { s with calls := s.calls.set i .done } else none
  | .restart order => some ⟨codec.load s.file, order, [], s.file⟩

/-- No call of `set` is under way. -/
def Quiet : Prop := ∀ call ∈ s.calls, call = .done

/-- Anything may happen to domains of a set. -/
def OfDomains (domains : Set String) (_ : SettingsState) : SettingsAction → Prop
  | .insert domain _ _ => domain ∈ domains
  | _ => True

/-- Nothing fails, and the process is not stopped in the middle of a call. -/
def Orderly (domains : Set String) (s : SettingsState) : SettingsAction → Prop
  | .insert domain _ _ => domain ∈ domains
  | .fail _ => False
  | .restart _ => s.Quiet
  | _ => True

end SettingsState

section Load

variable {codec : SettingsCodec} {domains : Set String} {m : SettingsMap} {order : ℕ}
  {file : List UInt8}

theorem load_toJson (h : codec.Sound domains) (hm : ∀ d ∈ m, d ∈ domains) :
    codec.load (some (codec.toJson order m)) = m := by
  show (codec.fromJson (codec.toJson order m)).getD ∅ = m
  rw [h.fromJson_toJson order m hm, Option.getD_some]

theorem getElem?_set_call {calls : List SetCall} {i : ℕ} {call : SetCall} (h : calls[i]? = some call)
    (call' : SetCall) (j : ℕ) :
    (calls.set i call')[j]? = if j = i then some call' else calls[j]? := by
  have hi : i < calls.length := (List.getElem?_eq_some_iff.mp h).1
  by_cases hj : j = i
  · rw [if_pos hj, hj, List.getElem?_set_self hi]
  · rw [if_neg hj, List.getElem?_set_ne fun heq => hj heq.symm]

end Load

namespace SettingsState

open Concurrent

variable {codec : SettingsCodec} {domains : Set String} {s t : SettingsState} {i k : ℕ}

/-- A call that writes has the text of the present map in hand. -/
def WritesMap (codec : SettingsCodec) (s : SettingsState) : Prop :=
  ∀ i k : ℕ, s.calls[i]? = some (.writing k) → k ≤ (s.text codec).length ∧
    ∃ file, s.file = some file ∧ Files.PartOf 0 (s.text codec) file

section Writes

/-- No call writes right after the write lock was taken. -/
theorem not_writing_insert (hfree : ¬ s.calls.any SetCall.holdsLock = true) :
    (s.calls ++ [.inserted])[i]? ≠ some (.writing k) := by
  intro hi
  have hmem := List.mem_of_getElem? hi
  rcases List.mem_append.mp hmem with hmem | hmem
  · exact hfree (List.any_eq_true.mpr ⟨_, hmem, rfl⟩)
  · cases List.mem_singleton.mp hmem

theorem writesMap_insert (hfree : ¬ s.calls.any SetCall.holdsLock = true) (m : SettingsMap)
    (order : ℕ) : WritesMap codec ⟨m, order, s.calls ++ [.inserted], s.file⟩ := by
  intro i k hi
  exact (not_writing_insert hfree hi).elim

theorem WritesMap.set (h : s.WritesMap codec) {call : SetCall} (hi : s.calls[i]? = some call)
    (call' : SetCall) (hcall : ∀ k, call' ≠ .writing k) :
    WritesMap codec { s with calls := s.calls.set i call' } := by
  intro j k hj
  dsimp only at hj
  rw [getElem?_set_call hi] at hj
  split at hj
  · exact absurd (Option.some.inj hj) (hcall k)
  · exact h j k hj

theorem WritesMap.openFile (h : s.WritesMap codec) (hi : s.calls[i]? = some .locked) :
    WritesMap codec { s with calls := s.calls.set i (.writing 0), file := some [] } := by
  intro j k hj
  refine ⟨?_, [], rfl, Files.partOf_nil⟩
  dsimp only at hj
  rw [getElem?_set_call hi] at hj
  split at hj
  · have hk : SetCall.writing 0 = .writing k := Option.some.inj hj
    have hzero : 0 = k := SetCall.writing.inj hk
    omega
  · exact (h j k hj).1

theorem WritesMap.write (h : s.WritesMap codec) (n : ℕ) (hi : s.calls[i]? = some (.writing k)) :
    WritesMap codec { s with
      calls := s.calls.set i (.writing (k + (Files.blockAt (s.text codec) k n).length))
      file := s.file.map fun file =>
        Files.overwrite 0 file k (Files.blockAt (s.text codec) k n) } := by
  obtain ⟨hk, file, hfile, hpart⟩ := h i k hi
  have hblock := Files.length_blockAt (s.text codec) k n
  intro j k' hj
  refine ⟨?_, Files.overwrite 0 file k (Files.blockAt (s.text codec) k n), ?_, hpart.write hk⟩
  · show k' ≤ (s.text codec).length
    dsimp only at hj
    rw [getElem?_set_call hi] at hj
    split at hj
    · have hk' := SetCall.writing.inj (Option.some.inj hj)
      omega
    · exact (h j k' hj).1
  · dsimp only
    rw [hfile, Option.map_some]

end Writes

section Crash

/-- Anything may happen but an opening of the file. -/
def Unopened (domains : Set String) (s : SettingsState) (a : SettingsAction) : Prop :=
  OfDomains domains s a ∧ ∀ i, a ≠ .openFile i

/-- The file was opened last in the step to `t`: its text is the one that is begun there. -/
structure LastOpened (codec : SettingsCodec) (domains : Set String) (t s : SettingsState) :
    Prop where
  opened : ∃ (u : SettingsState) (i : ℕ), Reaches (step codec) (OfDomains domains) fresh u ∧
    u.step codec (.openFile i) = some t
  since : Reaches (step codec) (Unopened domains) t s

theorem LastOpened.tail {u : SettingsState} (h : LastOpened codec domains u s) {a : SettingsAction}
    (ha : OfDomains domains s a) (hother : ∀ i, a ≠ .openFile i) (hstep : s.step codec a = some t) :
    LastOpened codec domains u t :=
  ⟨h.opened, h.since.tail ⟨ha, hother⟩ hstep⟩

/-- The text that the file is on the way to, and that the calls which write have in hand. -/
structure OnTheWay (codec : SettingsCodec) (domains : Set String) (t s : SettingsState)
    (file : List UInt8) : Prop where
  opened : LastOpened codec domains t s
  keys : ∀ d ∈ t.map, d ∈ domains
  part : Files.PartOf 0 (t.text codec) file
  text : ∀ i k : ℕ, s.calls[i]? = some (.writing k) → s.text codec = t.text codec

structure Traced (codec : SettingsCodec) (domains : Set String) (s : SettingsState) : Prop where
  keys : ∀ d ∈ s.map, d ∈ domains
  writes : s.WritesMap codec
  file : ∀ file : List UInt8, s.file = some file → ∃ t, OnTheWay codec domains t s file

theorem traced_fresh : fresh.Traced codec domains where
  keys d hd := absurd hd Finmap.notMem_empty
  writes i k hi := by cases hi
  file file hfile := by cases hfile

theorem OnTheWay.load (hcodec : codec.Sound domains) {file : List UInt8}
    (h : OnTheWay codec domains t s file) :
    codec.load (some file) = if file = t.text codec then t.map else ∅ := by
  by_cases hwhole : file = t.text codec
  · rw [if_pos hwhole, hwhole]
    exact load_toJson hcodec h.keys
  · rw [if_neg hwhole]
    show (codec.fromJson file).getD ∅ = ∅
    rw [hcodec.fromJson_part t.order t.map file h.keys h.part hwhole, Option.getD_none]

/-- A new process loads domains of the set. -/
theorem Traced.load_keys (hcodec : codec.Sound domains) (h : s.Traced codec domains) :
    ∀ d ∈ codec.load s.file, d ∈ domains := by
  intro d hd
  cases hfile : s.file with
  | none =>
    rw [hfile] at hd
    exact absurd hd Finmap.notMem_empty
  | some file =>
    obtain ⟨t, ht⟩ := h.file file hfile
    rw [hfile, ht.load hcodec] at hd
    split at hd
    · exact ht.keys d hd
    · exact absurd hd Finmap.notMem_empty

/-- A call has moved to a stage in which it does not write, and the file is as it was. -/
theorem OnTheWay.set_call {u : SettingsState} {file : List UInt8} {call call' : SetCall}
    (h : OnTheWay codec domains u s file) (hi : s.calls[i]? = some call)
    (hcall : ∀ k, call' ≠ .writing k)
    (hopened : LastOpened codec domains u { s with calls := s.calls.set i call' }) :
    OnTheWay codec domains u { s with calls := s.calls.set i call' } file := by
  refine ⟨hopened, h.keys, h.part, fun j k hj => ?_⟩
  dsimp only at hj
  rw [getElem?_set_call hi] at hj
  split at hj
  · exact absurd (Option.some.inj hj) (hcall k)
  · exact h.text j k hj

theorem Traced.step (hcodec : codec.Sound domains) (h : s.Traced codec domains)
    (hreach : Reaches (step codec) (OfDomains domains) fresh s) {a : SettingsAction}
    (ha : OfDomains domains s a) (hstep : s.step codec a = some t) : t.Traced codec domains := by
  cases a with
  | insert domain settings order =>
    have hwhole := hstep
    dsimp only [SettingsState.step] at hstep
    split at hstep
    · cases hstep
    · rename_i hfree
      obtain rfl := Option.some.inj hstep
      refine ⟨fun d hd => ?_, writesMap_insert hfree _ order, fun file hfile => ?_⟩
      · rcases Finmap.mem_insert.mp hd with rfl | hd
        · exact ha
        · exact h.keys d hd
      · obtain ⟨u, hu⟩ := h.file file hfile
        refine ⟨u, hu.opened.tail ha (fun i hi => by cases hi) hwhole, hu.keys, hu.part, ?_⟩
        intro i k hi
        exact (not_writing_insert hfree hi).elim
  | lock i =>
    have hwhole := hstep
    dsimp only [SettingsState.step, advance] at hstep
    split at hstep
    · rename_i hi
      obtain rfl := Option.some.inj hstep
      refine ⟨h.keys, h.writes.set hi .locked (fun k hk => by cases hk), fun file hfile => ?_⟩
      obtain ⟨u, hu⟩ := h.file file hfile
      exact ⟨u, hu.set_call hi (fun k hk => by cases hk)
        (hu.opened.tail ha (fun i hi => by cases hi) hwhole)⟩
    · cases hstep
  | openFile i =>
    have hopened : LastOpened codec domains t t := ⟨⟨s, i, hreach, hstep⟩, .refl⟩
    dsimp only [SettingsState.step, advance] at hstep
    split at hstep
    · rename_i hi
      obtain rfl := Option.some.inj hstep
      refine ⟨h.keys, h.writes.openFile hi, fun file hfile => ?_⟩
      obtain rfl := Option.some.inj hfile
      exact ⟨_, hopened, h.keys, Files.partOf_nil, fun _ _ _ => rfl⟩
    · cases hstep
  | write i n =>
    have hwhole := hstep
    dsimp only [SettingsState.step] at hstep
    split at hstep
    · rename_i k hi
      obtain rfl := Option.some.inj hstep
      refine ⟨h.keys, h.writes.write n hi, fun file hfile => ?_⟩
      obtain ⟨hk, file', hfile', -⟩ := h.writes i k hi
      obtain ⟨u, hu⟩ := h.file file' hfile'
      have htext := hu.text i k hi
      dsimp only at hfile
      rw [hfile', Option.map_some] at hfile
      obtain rfl := Option.some.inj hfile
      rw [htext] at hk
      refine ⟨u, hu.opened.tail ha (fun i hi => by cases hi) hwhole, hu.keys, ?_, ?_⟩
      · rw [htext]
        exact hu.part.write hk
      · intro _ _ _
        exact htext
    · cases hstep
  | close i =>
    have hwhole := hstep
    dsimp only [SettingsState.step] at hstep
    split at hstep
    · rename_i k hi
      split at hstep
      · obtain rfl := Option.some.inj hstep
        refine ⟨h.keys, h.writes.set hi .done (fun k hk => by cases hk), fun file hfile => ?_⟩
        obtain ⟨u, hu⟩ := h.file file hfile
        exact ⟨u, hu.set_call hi (fun k hk => by cases hk)
          (hu.opened.tail ha (fun i hi => by cases hi) hwhole)⟩
      · cases hstep
    · cases hstep
  | fail i =>
    have hwhole := hstep
    dsimp only [SettingsState.step] at hstep
    split at hstep
    · rename_i hi
      obtain rfl := Option.some.inj hstep
      have hcall := List.getElem?_eq_getElem hi
      refine ⟨h.keys, h.writes.set hcall .done (fun k hk => by cases hk), fun file hfile => ?_⟩
      obtain ⟨u, hu⟩ := h.file file hfile
      exact ⟨u, hu.set_call hcall (fun k hk => by cases hk)
        (hu.opened.tail ha (fun i hi => by cases hi) hwhole)⟩
    · cases hstep
  | restart order =>
    have hwhole := hstep
    have hkeys := h.load_keys hcodec
    obtain rfl := Option.some.inj hstep
    refine ⟨hkeys, (fun i k hi => by cases hi), fun file hfile => ?_⟩
    obtain ⟨u, hu⟩ := h.file file hfile
    exact ⟨u, hu.opened.tail ha (fun i hi => by cases hi) hwhole, hu.keys, hu.part,
      fun i k hi => by cases hi⟩

theorem traced_of_reaches (hcodec : codec.Sound domains)
    (h : Reaches (step codec) (OfDomains domains) fresh s) : s.Traced codec domains := by
  induction h with
  | refl => exact traced_fresh
  | tail hreach ha hstep ih => exact ih.step hcodec hreach ha hstep

end Crash

section Orderly

/-- At each place the file has the text, or a call has yet to write there. -/
def Filling (codec : SettingsCodec) (s : SettingsState) : Prop :=
  ∃ file, s.file = some file ∧ Files.PartOf 0 (s.text codec) file ∧
    ∀ j < (s.text codec).length, file[j]? = (s.text codec)[j]? ∨
      ∃ i k : ℕ, s.calls[i]? = some (.writing k) ∧ k ≤ j

/-- The file is missing the map only while some call is to open it or to fill it. -/
inductive Progress (codec : SettingsCodec) (s : SettingsState) : Prop
  | waiting (i : ℕ) (h : s.calls[i]? = some .inserted ∨ s.calls[i]? = some .locked)
  | filling (h : s.Filling codec)
  | settled (hquiet : s.Quiet) (h : codec.load s.file = s.map)

structure Durable (codec : SettingsCodec) (domains : Set String) (s : SettingsState) : Prop where
  keys : ∀ d ∈ s.map, d ∈ domains
  writes : s.WritesMap codec
  progress : s.Progress codec

theorem Filling.load (hcodec : codec.Sound domains) (hkeys : ∀ d ∈ s.map, d ∈ domains)
    (h : s.Filling codec) (hquiet : s.Quiet) : codec.load s.file = s.map := by
  obtain ⟨file, hfile, hpart, hright⟩ := h
  have hwhole : file = s.text codec := by
    apply hpart.eq_text
    intro j hj
    rcases hright j hj with hright | ⟨i, k, hi, -⟩
    · exact hright
    · cases hquiet _ (List.mem_of_getElem? hi)
  rw [hfile, hwhole]
  exact load_toJson hcodec hkeys

theorem Durable.load (hcodec : codec.Sound domains) (h : s.Durable codec domains)
    (hquiet : s.Quiet) : codec.load s.file = s.map := by
  cases h.progress with
  | waiting i hi =>
    rcases hi with hi | hi
    · cases hquiet _ (List.mem_of_getElem? hi)
    · cases hquiet _ (List.mem_of_getElem? hi)
  | filling h' => exact h'.load hcodec h.keys hquiet
  | settled _ h' => exact h'

theorem durable_fresh : fresh.Durable codec domains where
  keys d hd := absurd hd Finmap.notMem_empty
  writes i k hi := by cases hi
  progress := .settled (fun call hcall => by cases hcall) rfl

/-- While a call writes, the text is being filled in or another call is to open the file. -/
theorem Progress.of_writing (h : s.Progress codec) (hi : s.calls[i]? = some (.writing k)) :
    s.Filling codec ∨ ∃ j : ℕ, j ≠ i ∧
      (s.calls[j]? = some .inserted ∨ s.calls[j]? = some .locked) := by
  cases h with
  | waiting j hj =>
    refine .inr ⟨j, ?_, hj⟩
    rintro rfl
    rw [hi] at hj
    rcases hj with hj | hj
    · cases hj
    · cases hj
  | filling h' => exact .inl h'
  | settled hquiet _ => cases hquiet _ (List.mem_of_getElem? hi)

theorem Progress.set_waiting {calls : List SetCall} {j : ℕ} {call call' : SetCall}
    (hi : calls[i]? = some call) (hj : j ≠ i)
    (hwaits : calls[j]? = some .inserted ∨ calls[j]? = some .locked)
    (ht : t.calls = calls.set i call') : t.Progress codec := by
  apply Progress.waiting j
  rw [ht, getElem?_set_call hi, if_neg hj]
  exact hwaits

/-- The one who opens the file has the whole text to write. -/
theorem filling_openFile (hi : s.calls[i]? = some .locked) :
    Filling codec { s with calls := s.calls.set i (.writing 0), file := some [] } := by
  refine ⟨[], rfl, Files.partOf_nil, fun j hj => .inr ⟨i, 0, ?_, Nat.zero_le j⟩⟩
  dsimp only
  rw [getElem?_set_call hi, if_pos rfl]

theorem Filling.write (h : s.Filling codec) (n : ℕ) (hi : s.calls[i]? = some (.writing k))
    (hk : k ≤ (s.text codec).length) :
    Filling codec { s with
      calls := s.calls.set i (.writing (k + (Files.blockAt (s.text codec) k n).length))
      file := s.file.map fun file =>
        Files.overwrite 0 file k (Files.blockAt (s.text codec) k n) } := by
  obtain ⟨file, hfile, hpart, hright⟩ := h
  have hblock := Files.length_blockAt (s.text codec) k n
  refine ⟨Files.overwrite 0 file k (Files.blockAt (s.text codec) k n), ?_, hpart.write hk, ?_⟩
  · dsimp only
    rw [hfile, Option.map_some]
  · intro j hj
    have hj' : j < (s.text codec).length := hj
    -- The call that owes a place may be the one that writes; it then has it now or still owes it.
    rcases hright j hj with hplace | ⟨i', k', hi', hk'⟩
    · left
      exact Files.getElem?_overwrite_blockAt (.inl hplace) hj
    · by_cases hsame : i' = i
      · rw [hsame, hi] at hi'
        have hkk := SetCall.writing.inj (Option.some.inj hi')
        by_cases hin : j < k + n
        · left
          exact Files.getElem?_overwrite_blockAt (.inr ⟨by omega, hin⟩) hj
        · right
          refine ⟨i, k + (Files.blockAt (s.text codec) k n).length, ?_, by omega⟩
          dsimp only
          rw [getElem?_set_call hi, if_pos rfl]
      · right
        refine ⟨i', k', ?_, hk'⟩
        dsimp only
        rw [getElem?_set_call hi, if_neg hsame]
        exact hi'

theorem Filling.close (h : s.Filling codec) (hi : s.calls[i]? = some (.writing k))
    (hk : (s.text codec).length ≤ k) :
    Filling codec { s with calls := s.calls.set i .done } := by
  obtain ⟨file, hfile, hpart, hright⟩ := h
  refine ⟨file, hfile, hpart, fun j hj => ?_⟩
  have hj' : j < (s.text codec).length := hj
  rcases hright j hj with hplace | ⟨i', k', hi', hk'⟩
  · exact .inl hplace
  · right
    refine ⟨i', k', ?_, hk'⟩
    have hother : i' ≠ i := by
      rintro rfl
      rw [hi] at hi'
      have hkk := SetCall.writing.inj (Option.some.inj hi')
      omega
    dsimp only
    rw [getElem?_set_call hi, if_neg hother]
    exact hi'

theorem Durable.step (hcodec : codec.Sound domains) (h : s.Durable codec domains)
    {a : SettingsAction} (ha : Orderly domains s a) (hstep : s.step codec a = some t) :
    t.Durable codec domains := by
  cases a with
  | insert domain settings order =>
    dsimp only [SettingsState.step] at hstep
    split at hstep
    · cases hstep
    · rename_i hfree
      obtain rfl := Option.some.inj hstep
      refine ⟨fun d hd => ?_, writesMap_insert hfree _ order, .waiting s.calls.length (.inl ?_)⟩
      · rcases Finmap.mem_insert.mp hd with rfl | hd
        · exact ha
        · exact h.keys d hd
      · exact List.getElem?_concat_length
  | lock i =>
    dsimp only [SettingsState.step, advance] at hstep
    split at hstep
    · rename_i hi
      obtain rfl := Option.some.inj hstep
      refine ⟨h.keys, h.writes.set hi .locked (fun k hk => by cases hk), .waiting i (.inr ?_)⟩
      dsimp only
      rw [getElem?_set_call hi, if_pos rfl]
    · cases hstep
  | openFile i =>
    dsimp only [SettingsState.step, advance] at hstep
    split at hstep
    · rename_i hi
      obtain rfl := Option.some.inj hstep
      exact ⟨h.keys, h.writes.openFile hi, .filling (filling_openFile hi)⟩
    · cases hstep
  | write i n =>
    dsimp only [SettingsState.step] at hstep
    split at hstep
    · rename_i k hi
      obtain rfl := Option.some.inj hstep
      refine ⟨h.keys, h.writes.write n hi, ?_⟩
      have hk := (h.writes i k hi).1
      rcases h.progress.of_writing hi with hfilling | ⟨j, hj, hwaits⟩
      · exact .filling (hfilling.write n hi hk)
      · exact Progress.set_waiting hi hj hwaits rfl
    · cases hstep
  | close i =>
    dsimp only [SettingsState.step] at hstep
    split at hstep
    · rename_i k hi
      split at hstep
      · rename_i hk
        obtain rfl := Option.some.inj hstep
        refine ⟨h.keys, h.writes.set hi .done (fun k hk => by cases hk), ?_⟩
        rcases h.progress.of_writing hi with hfilling | ⟨j, hj, hwaits⟩
        · exact .filling (hfilling.close hi hk)
        · exact Progress.set_waiting hi hj hwaits rfl
      · cases hstep
    · cases hstep
  | fail i => exact ha.elim
  | restart order =>
    have hload := h.load hcodec ha
    obtain rfl := Option.some.inj hstep
    refine ⟨?_, (fun i k hi => by cases hi), .settled (fun call hcall => by cases hcall) rfl⟩
    show ∀ d ∈ codec.load s.file, d ∈ domains
    rw [hload]
    exact h.keys

theorem durable_of_reaches (hcodec : codec.Sound domains)
    (h : Reaches (step codec) (Orderly domains) fresh s) : s.Durable codec domains := by
  apply h.invariant durable_fresh
  intro t a u ht ha hstep
  exact ht.step hcodec ha hstep

end Orderly

/-- When nothing fails and no call of `set` is under way, a new process loads the map. Whatever
happens, it loads the map whose text was begun last if the file has all of that text, and else
nothing. -/
theorem settings_durable (hcodec : codec.Sound domains) :
    (∀ s : SettingsState, Reaches (step codec) (Orderly domains) fresh s → s.Quiet →
      codec.load s.file = s.map) ∧
    ∀ s : SettingsState, Reaches (step codec) (OfDomains domains) fresh s →
      s.file = none ∧ codec.load s.file = ∅ ∨
        ∃ t, LastOpened codec domains t s ∧
          codec.load s.file = if s.file = some (t.text codec) then t.map else ∅ := by
  constructor
  · intro s hreach hquiet
    exact (durable_of_reaches hcodec hreach).load hcodec hquiet
  · intro s hreach
    cases hfile : s.file with
    | none => exact .inl ⟨rfl, rfl⟩
    | some file =>
      right
      obtain ⟨t, ht⟩ := (traced_of_reaches hcodec hreach).file file hfile
      refine ⟨t, ht.opened, ?_⟩
      rw [ht.load hcodec]
      simp only [Option.some.injEq]

end SettingsState

section Sample

/-- The bytes of an ASCII text. -/
def ascii (text : String) : List UInt8 := text.toList.map Char.toUInt8

def settingsText : Option DomainSettings → List UInt8
  | none => ascii "\x7b\x7d"
  | some ⟨true⟩ => ascii "\x7b\n  \"d\": \x7b\n    \"store_clustering\": true\n  \x7d\n\x7d"
  | some ⟨false⟩ => ascii "\x7b\n  \"d\": \x7b\n    \"store_clustering\": false\n  \x7d\n\x7d"

def settingsOf : Option DomainSettings → SettingsMap
  | none => ∅
  | some settings => Finmap.singleton "d" settings

/-- The texts of the maps of one domain. -/
def settingsJson : SettingsCodec where
  toJson _ m := settingsText (m.lookup "d")
  fromJson text :=
    ([none, some ⟨true⟩, some ⟨false⟩].find? fun settings => settingsText settings = text).map
      settingsOf

theorem settingsOf_lookup {m : SettingsMap} (h : ∀ d ∈ m, d ∈ ({"d"} : Set String)) :
    settingsOf (m.lookup "d") = m := by
  apply Finmap.ext_lookup
  intro d
  by_cases hd : d = "d"
  · rw [hd]
    cases m.lookup "d" with
    | none => exact Finmap.lookup_empty _
    | some settings => exact Finmap.lookup_singleton_eq
  · have hm : m.lookup d = none := Finmap.lookup_eq_none.mpr fun hmem => hd (h d hmem)
    rw [hm]
    apply Finmap.lookup_eq_none.mpr
    cases m.lookup "d" with
    | none => exact Finmap.notMem_empty
    | some settings =>
      intro hmem
      exact hd ((Finmap.mem_singleton _ _ _).mp hmem)

theorem settingsJson_text (o : Option DomainSettings) :
    settingsJson.fromJson (settingsText o) = some (settingsOf o) := by
  have hfind : [none, some ⟨true⟩, some ⟨false⟩].find? (fun o' => settingsText o' = settingsText o) =
      some o := by
    match o with
    | none => decide
    | some ⟨true⟩ => decide
    | some ⟨false⟩ => decide
  show (List.find? _ _).map settingsOf = some (settingsOf o)
  rw [hfind, Option.map_some]

/-- None of the texts is a part of another. -/
theorem settingsText_part (o o' : Option DomainSettings)
    (h : Files.PartOf 0 (settingsText o) (settingsText o')) : o' = o := by
  have hlength := h.length
  match o, o' with
  | none, none => rfl
  | none, some ⟨true⟩ => exact absurd hlength (by decide)
  | none, some ⟨false⟩ => exact absurd hlength (by decide)
  | some ⟨true⟩, none => exact absurd (h.get 1 125 (by decide)) (by decide)
  | some ⟨true⟩, some ⟨true⟩ => rfl
  | some ⟨true⟩, some ⟨false⟩ => exact absurd hlength (by decide)
  | some ⟨false⟩, none => exact absurd (h.get 1 125 (by decide)) (by decide)
  | some ⟨false⟩, some ⟨true⟩ => exact absurd (h.get 35 116 (by decide)) (by decide)
  | some ⟨false⟩, some ⟨false⟩ => rfl

theorem settingsJson_sound : settingsJson.Sound {"d"} where
  fromJson_toJson order m hm := by
    show settingsJson.fromJson (settingsText (m.lookup "d")) = some m
    rw [settingsJson_text, settingsOf_lookup hm]
  fromJson_part order m file hm hpart hfile := by
    show (List.find? _ _).map settingsOf = none
    rw [Option.map_eq_none_iff, List.find?_eq_none]
    intro o ho htext
    have hsame : settingsText o = file := of_decide_eq_true htext
    rw [← hsame] at hpart hfile
    have heq := settingsText_part _ _ hpart
    rw [heq] at hfile
    exact hfile rfl

open Concurrent SettingsState

/-- Two calls take the write lock in turn, then both write what the second has set. -/
def settingsRace : List SettingsAction :=
  [.insert "d" ⟨false⟩ 0, .insert "d" ⟨true⟩ 0, .lock 0, .lock 1, .openFile 0, .write 0 5,
    .openFile 1, .write 0 64, .write 1 64, .close 0, .close 1]

/-- A third call is stopped when it has opened the file. -/
def settingsTorn : List SettingsAction :=
  settingsRace ++ [.insert "d" ⟨false⟩ 0, .lock 2, .openFile 2]

def settingsRaceEnd : SettingsState :=
  ⟨settingsOf (some ⟨true⟩), 0, [.done, .done], some (settingsText (some ⟨true⟩))⟩

def settingsTornEnd : SettingsState :=
  ⟨settingsOf (some ⟨false⟩), 0, [.done, .done, .writing 0], some []⟩

theorem settingsTorn_ofDomains : ∀ a ∈ settingsTorn, ∀ s, OfDomains {"d"} s a := by
  simp [settingsTorn, settingsRace, OfDomains]

theorem settingsRace_orderly : ∀ a ∈ settingsRace, ∀ s, Orderly {"d"} s a := by
  simp [settingsRace, Orderly]

theorem settings_durable_race :
    settingsJson.load settingsRaceEnd.file = settingsRaceEnd.map ∧
      settingsTornEnd.file = some [] ∧
        ∃ t, LastOpened settingsJson {"d"} t settingsTornEnd ∧
          settingsJson.load settingsTornEnd.file =
            if settingsTornEnd.file = some (t.text settingsJson) then t.map else ∅ := by
  have hrace : Reaches (step settingsJson) (Orderly {"d"}) fresh settingsRaceEnd :=
    .of_exec (allowed_of_forall settingsRace_orderly) rfl
  have htorn : Reaches (step settingsJson) (OfDomains {"d"}) fresh settingsTornEnd :=
    .of_exec (allowed_of_forall settingsTorn_ofDomains) rfl
  have hquiet : settingsRaceEnd.Quiet := by
    unfold Quiet
    decide
  obtain ⟨hdurable, hcut⟩ := settings_durable settingsJson_sound
  rcases hcut settingsTornEnd htorn with ⟨hmissing, -⟩ | hlast
  · cases hmissing
  · exact ⟨hdurable settingsRaceEnd hrace hquiet, rfl, hlast⟩

end Sample

end Vectorlink
