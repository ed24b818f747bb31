import Mathlib.Data.List.Induction
import Vectorlink.Kernel
import Vectorlink.Text.Form

/-! Domains and the directories their datasets live in. -/
namespace Vectorlink

open Text

inductive Ref where
  | branch (name : BranchName)
  | commit (hash : CommitId)
deriving DecidableEq, Repr

structure ResourcePath where
  org : String
  db : String
  repo : String
  reference : Ref
deriving DecidableEq, Repr

inductive ParseError where
  | invalidDomain (input : String)
  | invalidRefKind (kind : String)
  | incompleteRef (kind : String)
deriving DecidableEq, Repr

/-- `str::split('/')`. -/
def splitSlash (s : String) : List String := (s.toList.splitOn '/').map String.ofList

def parseDomain (input : String) : Except ParseError ResourcePath :=
  match splitSlash input with
  | [org, db] => .ok ⟨org, db, "local", .branch "main"⟩
  | [org, db, repo] => .ok ⟨org, db, repo, .branch "main"⟩
  | [org, db, repo, kind, value] =>
    if kind = "branch" then .ok ⟨org, db, repo, .branch value⟩
    else if kind = "commit" then .ok ⟨org, db, repo, .commit value⟩
    else .error (.invalidRefKind kind)
  | [_, _, _, kind] =>
    if kind = "branch" ∨ kind = "commit" then .error (.incompleteRef kind)
    else .error (.invalidDomain input)
  | _ => .error (.invalidDomain input)

/-- `Domain::from_resource_path`. -/
def ResourcePath.domain (rp : ResourcePath) : String := rp.org ++ "/" ++ rp.db

/-- A domain is what comes out of parsing a request. -/
def IsDomain (d : String) : Prop := ∃ input rp, parseDomain input = .ok rp ∧ rp.domain = d

def encodeDomainPath (domain : String) : String :=
  String.ofList (['_', '_'].intercalate ((splitSlash domain).map byteSerialize))

/-- `str::split("__")`: the leftmost match first, matches do not overlap. -/
def splitDouble : List Char → List (List Char)
  | [] => [[]]
  | '_' :: '_' :: cs => [] :: splitDouble cs
  | c :: cs => (splitDouble cs).modifyHead (c :: ·)

def decodeSegment (seg : List Char) : Option String :=
  if seg.isEmpty then some ""
  else
    let decoded := (formParse (bytes (String.ofList seg))).map fun (key, val) =>
      if val.isEmpty then key else s!"{key}={val}"
    if decoded.isEmpty then none else some (String.join decoded)

def decodeDomainPath (encoded : String) : Option String :=
  ((splitDouble encoded.toList).mapM decodeSegment).map ("/".intercalate ·)

def datasetDir (domain : String) : String := encodeDomainPath domain ++ ".lance"

/-- The domains found among the directories of the base directory. -/
def discoverOnDiskDatasets (names : List String) : List String :=
  names.filterMap fun name =>
    if ".lance".toList.isSuffixOf name.toList then
      decodeDomainPath (String.ofList (name.toList.take (name.toList.length - ".lance".length)))
    else none

/-- The domains keep their directories to themselves and are all found again. -/
structure FaithfulOnDisk (written : List String) : Prop where
  apart : ∀ d ∈ written, ∀ d', IsDomain d' → encodeDomainPath d' = encodeDomainPath d → d' = d
  decoded : ∀ d ∈ written, decodeDomainPath (encodeDomainPath d) = some d
  discovered : discoverOnDiskDatasets (written.map datasetDir) = written

/-- No underscore stands next to another one or to the slash. -/
def Separated (d : String) : Prop :=
  ¬ ['_', '_'] <:+: d.toList ∧ ¬ ['_', '/'] <:+: d.toList ∧ ¬ ['/', '_'] <:+: d.toList

section Domains

theorem notMem_splitOn {c : Char} {l seg : List Char} (h : seg ∈ l.splitOn c) : c ∉ seg := by
  induction l generalizing seg with
  | nil =>
    rw [List.splitOn_nil, List.mem_singleton] at h
    simp [h]
  | cons x l ih =>
    rw [List.splitOn_cons_eq_if_modifyHead] at h
    split at h
    · rcases List.mem_cons.mp h with rfl | h
      · simp
      · exact ih h
    · rename_i hx
      obtain ⟨y, ys, hy⟩ := List.exists_cons_of_ne_nil (List.splitOn_ne_nil c l)
      rw [hy, List.modifyHead_cons] at h
      rcases List.mem_cons.mp h with rfl | h
      · have hmem : y ∈ List.splitOn c l := by
          rw [hy]
          exact List.mem_cons_self
        have hyc := ih hmem
        rw [List.mem_cons, not_or]
        exact ⟨fun hc => hx (by simp [hc]), hyc⟩
      · exact ih (by rw [hy]; exact List.mem_cons_of_mem _ h)

theorem notMem_of_mem_splitSlash {s seg : String} (h : seg ∈ splitSlash s) : '/' ∉ seg.toList := by
  obtain ⟨l, hl, rfl⟩ := List.mem_map.mp h
  rw [String.toList_ofList]
  exact notMem_splitOn hl

theorem splitSlash_pair {org db : String} (horg : '/' ∉ org.toList) (hdb : '/' ∉ db.toList) :
    splitSlash (org ++ "/" ++ db) = [org, db] := by
  have hslash : (org ++ "/" ++ db).toList = org.toList ++ '/' :: db.toList := by simp
  rw [splitSlash, hslash, List.splitOn_append_cons_self, List.splitOn_eq_singleton horg,
    List.splitOn_eq_singleton hdb]
  simp

theorem parseDomain_segments {input : String} {rp : ResourcePath} (h : parseDomain input = .ok rp) :
    rp.org ∈ splitSlash input ∧ rp.db ∈ splitSlash input := by
  unfold parseDomain at h
  split at h
  · rename_i hsplit
    obtain rfl := Except.ok.inj h
    simp [hsplit]
  · rename_i hsplit
    obtain rfl := Except.ok.inj h
    simp [hsplit]
  · rename_i hsplit
    split_ifs at h
    · obtain rfl := Except.ok.inj h
      simp [hsplit]
    · obtain rfl := Except.ok.inj h
      simp [hsplit]
  · split_ifs at h
  · cases h

/-- Domains are the strings with one slash. -/
theorem isDomain_iff {d : String} :
    IsDomain d ↔ ∃ org db, '/' ∉ org.toList ∧ '/' ∉ db.toList ∧ d = org ++ "/" ++ db := by
  constructor
  · rintro ⟨input, rp, hparse, rfl⟩
    obtain ⟨horg, hdb⟩ := parseDomain_segments hparse
    exact ⟨rp.org, rp.db, notMem_of_mem_splitSlash horg, notMem_of_mem_splitSlash hdb, rfl⟩
  · rintro ⟨org, db, horg, hdb, rfl⟩
    refine ⟨org ++ "/" ++ db, ⟨org, db, "local", .branch "main"⟩, ?_, rfl⟩
    simp only [parseDomain, splitSlash_pair horg hdb]

end Domains

section Doubles

variable {l w x y a b : List Char}

/-- Underscores of a serialized string are those of the string. -/
def serialize (l : List Char) : List Char := l.flatMap serializeChar

theorem serializeChar_underscore : serializeChar '_' = ['_'] := by decide

theorem serialize_append (l l' : List Char) : serialize (l ++ l') = serialize l ++ serialize l' :=
  List.flatMap_append

theorem serialize_cons_underscore (l : List Char) : serialize ('_' :: l) = '_' :: serialize l := by
  rw [serialize, List.flatMap_cons, serializeChar_underscore]
  rfl

theorem serializeChar_ne_nil (c : Char) : serializeChar c ≠ [] := by
  have hbyte : ∀ b : UInt8, serializeByte b ≠ [] := by
    apply forall_byte
    decide +kernel
  intro h
  rw [serializeChar, List.flatMap_eq_nil_iff] at h
  obtain ⟨b, bs, hb⟩ := List.exists_cons_of_ne_nil (String.utf8EncodeChar_ne_nil (c := c))
  exact hbyte b (h b (by rw [hb]; exact List.mem_cons_self))

/-- Where no underscore is, no double can begin. -/
theorem double_infix_of_append (hw : '_' ∉ w) (h : ['_', '_'] <:+: w ++ l) : ['_', '_'] <:+: l := by
  induction w with
  | nil => exact h
  | cons c w ih =>
    rw [List.mem_cons, not_or] at hw
    rw [List.cons_append, List.infix_cons_iff] at h
    rcases h with h | h
    · rw [List.cons_prefix_cons] at h
      exact absurd h.1 hw.1
    · exact ih hw.2 h

theorem head?_serialize (h : (serialize l).head? = some '_') : l.head? = some '_' := by
  cases l with
  | nil => cases h
  | cons c l =>
    by_cases hc : c = '_'
    · rw [hc]
      rfl
    · obtain ⟨x, xs, hx⟩ := List.exists_cons_of_ne_nil (serializeChar_ne_nil c)
      have hnot := underscore_notMem_serializeChar hc
      rw [serialize, List.flatMap_cons, hx, List.cons_append, List.head?_cons,
        Option.some.injEq] at h
      rw [hx, h] at hnot
      exact absurd List.mem_cons_self hnot

theorem getLast?_serialize (h : (serialize l).getLast? = some '_') : l.getLast? = some '_' := by
  induction l using List.reverseRecOn with
  | nil => cases h
  | append_singleton l c _ =>
    by_cases hc : c = '_'
    · rw [hc]
      simp
    · have hnot := underscore_notMem_serializeChar hc
      have hone : serialize [c] = serializeChar c := by simp [serialize]
      rw [serialize_append, hone, List.getLast?_append_of_ne_nil _ (serializeChar_ne_nil c)] at h
      exact absurd (List.mem_of_getLast? h) hnot

theorem double_infix_serialize (h : ['_', '_'] <:+: serialize l) : ['_', '_'] <:+: l := by
  induction l with
  | nil => exact absurd (List.eq_nil_of_infix_nil h) (by simp)
  | cons c l ih =>
    rw [serialize, List.flatMap_cons] at h
    by_cases hc : c = '_'
    · rw [hc, serializeChar_underscore, List.singleton_append, List.infix_cons_iff] at h
      rcases h with h | h
      · rw [List.cons_prefix_cons] at h
        obtain ⟨t, ht⟩ := h.2
        have hhead : l.head? = some '_' := head?_serialize (by rw [serialize, ← ht]; rfl)
        obtain ⟨l', rfl⟩ := List.head?_eq_some_iff.mp hhead
        rw [hc]
        exact ⟨[], l', rfl⟩
      · exact (ih h).trans (List.suffix_cons _ _).isInfix
    · exact (ih (double_infix_of_append (underscore_notMem_serializeChar hc) h)).trans
        (List.suffix_cons _ _).isInfix

theorem splitDouble_cons {c : Char} (h : ¬ (c = '_' ∧ l.head? = some '_')) :
    splitDouble (c :: l) = (splitDouble l).modifyHead (c :: ·) := by
  rw [splitDouble]
  rintro l' rfl rfl
  exact h ⟨rfl, rfl⟩

theorem splitDouble_singleton (h : ¬ ['_', '_'] <:+: l) : splitDouble l = [l] := by
  induction l with
  | nil => rfl
  | cons c l ih =>
    rw [List.infix_cons_iff, not_or] at h
    rw [splitDouble_cons, ih h.2]
    · rfl
    · rintro ⟨rfl, hhead⟩
      obtain ⟨l', rfl⟩ := List.head?_eq_some_iff.mp hhead
      exact h.1 ⟨l', rfl⟩

/-- The separator is found where it was put. -/
theorem splitDouble_append (hx : ¬ ['_', '_'] <:+: x) (hlast : x.getLast? ≠ some '_')
    (hy : ¬ ['_', '_'] <:+: y) : splitDouble (x ++ '_' :: '_' :: y) = [x, y] := by
  induction x with
  | nil =>
    have hsplit : splitDouble ('_' :: '_' :: y) = [] :: splitDouble y := by rw [splitDouble]
    rw [List.nil_append, hsplit, splitDouble_singleton hy]
  | cons c x ih =>
    rw [List.infix_cons_iff, not_or] at hx
    have hlast' : x.getLast? ≠ some '_' := by
      intro h
      apply hlast
      rw [List.getLast?_cons, h]
      rfl
    rw [List.cons_append, splitDouble_cons, ih hx.2 hlast']
    · rfl
    · rintro ⟨rfl, hhead⟩
      cases x with
      | nil => exact hlast rfl
      | cons c' x' =>
        rw [List.cons_append, List.head?_cons, Option.some.injEq] at hhead
        subst hhead
        exact hx.1 ⟨x', rfl⟩

theorem splitDouble_plain (hw : '_' ∉ w) :
    splitDouble (w ++ l) = (splitDouble l).modifyHead (w ++ ·) := by
  induction w with
  | nil => exact (congrFun List.modifyHead_id _).symm
  | cons c w ih =>
    rw [List.mem_cons, not_or] at hw
    rw [List.cons_append, splitDouble_cons (fun h => hw.1 h.1.symm), ih hw.2,
      List.modifyHead_modifyHead]
    rfl

theorem splitDouble_ne_nil (l : List Char) : splitDouble l ≠ [] := by
  induction l using splitDouble.induct with
  | case1 => simp [splitDouble]
  | case2 l _ => simp [splitDouble]
  | case3 c l hc ih =>
    rw [splitDouble]
    · simpa using ih
    · exact hc

/-- The doubles of a serialized string are those of the string. -/
theorem splitDouble_serialize (l : List Char) :
    splitDouble (serialize l) = (splitDouble l).map serialize := by
  induction l using splitDouble.induct with
  | case1 => rfl
  | case2 l ih =>
    rw [serialize_cons_underscore, serialize_cons_underscore, splitDouble, splitDouble,
      List.map_cons, ih]
    rfl
  | case3 c l hc ih =>
    obtain ⟨x, xs, hx⟩ := List.exists_cons_of_ne_nil (splitDouble_ne_nil l)
    have hsplit : splitDouble (c :: l) = (c :: x) :: xs := by
      rw [splitDouble, hx]
      · rfl
      · exact hc
    rw [hx] at ih
    rw [hsplit]
    by_cases hu : c = '_'
    · subst hu
      have hhead : (serialize l).head? ≠ some '_' := by
        intro h
        obtain ⟨l', rfl⟩ := List.head?_eq_some_iff.mp (head?_serialize h)
        exact hc l' rfl rfl
      rw [serialize_cons_underscore, splitDouble_cons (fun h => hhead h.2), ih, List.map_cons,
        List.map_cons, serialize_cons_underscore]
      rfl
    · have hone : serialize (c :: l) = serializeChar c ++ serialize l := rfl
      rw [hone, splitDouble_plain (underscore_notMem_serializeChar hu), ih]
      rfl

theorem intercalate_splitDouble (l : List Char) : ['_', '_'].intercalate (splitDouble l) = l := by
  induction l using splitDouble.induct with
  | case1 => rfl
  | case2 l ih =>
    obtain ⟨x, xs, hx⟩ := List.exists_cons_of_ne_nil (splitDouble_ne_nil l)
    rw [splitDouble, hx, List.intercalate_cons_cons, ← hx, ih]
    rfl
  | case3 c l hc ih =>
    obtain ⟨x, xs, hx⟩ := List.exists_cons_of_ne_nil (splitDouble_ne_nil l)
    rw [splitDouble, hx]
    · rw [hx] at ih
      cases xs with
      | nil => rw [List.modifyHead_cons, List.intercalate_singleton, ← ih, List.intercalate_singleton]
      | cons y ys =>
        rw [List.modifyHead_cons, List.intercalate_cons_cons, List.cons_append, List.cons_append,
          ← List.intercalate_cons_cons, ih]
    · exact hc

theorem notMem_splitDouble {c : Char} (h : c ∉ l) : ∀ seg ∈ splitDouble l, c ∉ seg := by
  induction l using splitDouble.induct with
  | case1 => simp [splitDouble]
  | case2 l ih =>
    simp only [List.mem_cons, not_or] at h
    rw [splitDouble, List.forall_mem_cons]
    exact ⟨List.not_mem_nil, ih h.2.2⟩
  | case3 x l hx ih =>
    rw [List.mem_cons, not_or] at h
    obtain ⟨y, ys, hy⟩ := List.exists_cons_of_ne_nil (splitDouble_ne_nil l)
    rw [splitDouble, hy]
    · rw [hy] at ih
      have hall := List.forall_mem_cons.mp (ih h.2)
      rw [List.modifyHead_cons, List.forall_mem_cons, List.mem_cons, not_or]
      exact ⟨⟨h.1, hall.1⟩, hall.2⟩
    · exact hx

/-- A string with a single separator is cut there, whichever way it came about. -/
theorem eq_of_append_double (hx : ¬ ['_', '_'] <:+: x) (hlast : x.getLast? ≠ some '_')
    (hy : ¬ ['_', '_'] <:+: y) (hhead : y.head? ≠ some '_')
    (h : a ++ '_' :: '_' :: b = x ++ '_' :: '_' :: y) : a = x ∧ b = y := by
  rcases List.append_eq_append_iff.mp h with ⟨t, rfl, ht⟩ | ⟨t, rfl, ht⟩
  · rcases t with _ | ⟨c, _ | ⟨c', t⟩⟩
    · simpa using ht
    · simp only [List.cons_append, List.nil_append, List.cons.injEq] at ht
      exact absurd (by rw [← ht.1]; simp) hlast
    · simp only [List.cons_append, List.cons.injEq] at ht
      obtain ⟨rfl, rfl, -⟩ := ht
      exact absurd ⟨a, t, by simp⟩ hx
  · rcases t with _ | ⟨c, _ | ⟨c', t⟩⟩
    · have hb : y = b := by simpa using ht
      simp [hb]
    · simp only [List.cons_append, List.nil_append, List.cons.injEq, true_and] at ht
      exact absurd (by rw [ht.2]; rfl) hhead
    · simp only [List.cons_append, List.cons.injEq] at ht
      exact absurd ⟨t, b, by rw [ht.2.2]; simp⟩ hy

end Doubles

section Paths

variable {org db : String}

theorem byteSerialize_eq_serialize (s : String) : byteSerialize s = serialize s.toList :=
  byteSerialize_eq s

theorem encodeDomainPath_pair (horg : '/' ∉ org.toList) (hdb : '/' ∉ db.toList) :
    encodeDomainPath (org ++ "/" ++ db) =
      String.ofList (serialize org.toList ++ '_' :: '_' :: serialize db.toList) := by
  rw [encodeDomainPath, splitSlash_pair horg hdb]
  simp [List.intercalate, byteSerialize_eq_serialize]

theorem decodeSegment_serialize (s : String) : decodeSegment (serialize s.toList) = some s := by
  rw [← byteSerialize_eq_serialize]
  unfold decodeSegment
  by_cases hs : s = ""
  · rw [hs]
    rfl
  · have hne : byteSerialize s ≠ [] := by
      intro hnil
      have hempty : byteSerialize "" = [] := rfl
      exact hs (byteSerialize_inj (hnil.trans hempty.symm))
    rw [if_neg (by simpa using hne), formParse_byteSerialize hs]
    simp [String.join]

theorem double_infix_pair {o t : List Char} (h : ['_', '_'] <:+: o ++ '/' :: t) :
    ['_', '_'] <:+: o ∨ ['_', '_'] <:+: t := by
  induction o with
  | nil =>
    rw [List.nil_append, List.infix_cons_iff, List.cons_prefix_cons] at h
    exact .inr (h.resolve_left (by simp))
  | cons c o ih =>
    rw [List.cons_append, List.infix_cons_iff, List.cons_prefix_cons] at h
    rcases h with ⟨rfl, h⟩ | h
    · cases o with
      | nil =>
        rw [List.nil_append, List.cons_prefix_cons] at h
        exact absurd h.1 (by decide)
      | cons c' o =>
        rw [List.cons_append, List.cons_prefix_cons] at h
        exact .inl ⟨[], o, by rw [← h.1]; rfl⟩
    · exact (ih h).imp (fun hin => hin.trans (List.suffix_cons _ _).isInfix) id

theorem getLast?_of_infix_pair {o t : List Char} (ho : '/' ∉ o) (ht : '/' ∉ t)
    (h : ['_', '/'] <:+: o ++ '/' :: t) : o.getLast? = some '_' := by
  induction o with
  | nil =>
    rw [List.nil_append, List.infix_cons_iff, List.cons_prefix_cons] at h
    rcases h with h | h
    · exact absurd h.1 (by decide)
    · exact absurd (h.subset (by simp)) ht
  | cons c o ih =>
    rw [List.mem_cons, not_or] at ho
    rw [List.cons_append, List.infix_cons_iff, List.cons_prefix_cons] at h
    rcases h with ⟨rfl, h⟩ | h
    · cases o with
      | nil => rfl
      | cons c' o =>
        rw [List.cons_append, List.cons_prefix_cons] at h
        exact absurd (by rw [h.1]; exact List.mem_cons_self) ho.2
    · rw [List.getLast?_cons, ih ho.2 h]
      rfl

theorem head?_of_infix_pair {o t : List Char} (ho : '/' ∉ o) (ht : '/' ∉ t)
    (h : ['/', '_'] <:+: o ++ '/' :: t) : t.head? = some '_' := by
  induction o with
  | nil =>
    rw [List.nil_append, List.infix_cons_iff, List.cons_prefix_cons] at h
    rcases h with ⟨-, t', rfl⟩ | h
    · rfl
    · exact absurd (h.subset (by simp)) ht
  | cons c o ih =>
    rw [List.mem_cons, not_or] at ho
    rw [List.cons_append, List.infix_cons_iff, List.cons_prefix_cons] at h
    rcases h with h | h
    · exact absurd h.1 ho.1
    · exact ih ho.2 h

/-- What may go wrong at the boundary or inside one of the segments. -/
theorem separated_pair (horg : '/' ∉ org.toList) (hdb : '/' ∉ db.toList)
    (ho : ¬ ['_', '_'] <:+: org.toList) (hlast : org.toList.getLast? ≠ some '_')
    (ht : ¬ ['_', '_'] <:+: db.toList) (hhead : db.toList.head? ≠ some '_') :
    Separated (org ++ "/" ++ db) := by
  have hlist : (org ++ "/" ++ db).toList = org.toList ++ '/' :: db.toList := by simp
  unfold Separated
  rw [hlist]
  refine ⟨fun h => ?_, fun h => hlast (getLast?_of_infix_pair horg hdb h),
    fun h => hhead (head?_of_infix_pair horg hdb h)⟩
  exact (double_infix_pair h).elim ho ht

theorem Separated.segments (h : Separated (org ++ "/" ++ db)) :
    ¬ ['_', '_'] <:+: org.toList ∧ org.toList.getLast? ≠ some '_' ∧
      ¬ ['_', '_'] <:+: db.toList ∧ db.toList.head? ≠ some '_' := by
  have hlist : (org ++ "/" ++ db).toList = org.toList ++ '/' :: db.toList := by simp
  unfold Separated at h
  rw [hlist] at h
  obtain ⟨hdouble, hlast, hhead⟩ := h
  refine ⟨fun ho => hdouble (ho.trans (List.prefix_append _ _).isInfix), fun ho => ?_,
    fun ht => hdouble (ht.trans ((List.suffix_cons _ _).trans (List.suffix_append _ _)).isInfix),
    fun ht => ?_⟩
  · obtain ⟨o', ho'⟩ := List.getLast?_eq_some_iff.mp ho
    exact hlast ⟨o', db.toList, by rw [ho']; simp⟩
  · obtain ⟨t', ht'⟩ := List.head?_eq_some_iff.mp ht
    exact hhead ⟨org.toList, t', by rw [ht']; simp⟩

end Paths

section Faithful

variable {d : String}

theorem decodeDomainPath_encodeDomainPath (hd : IsDomain d) (h : Separated d) :
    decodeDomainPath (encodeDomainPath d) = some d := by
  obtain ⟨org, db, horg, hdb, rfl⟩ := isDomain_iff.mp hd
  obtain ⟨ho, hlast, ht, -⟩ := h.segments
  have hsplit := splitDouble_append (fun hin => ho (double_infix_serialize hin))
    (fun hin => hlast (getLast?_serialize hin)) (fun hin => ht (double_infix_serialize hin))
  rw [decodeDomainPath, encodeDomainPath_pair horg hdb, String.toList_ofList, hsplit]
  simp [List.mapM_cons, decodeSegment_serialize]

/-- Whatever a directory decodes to is encoded as that directory. -/
theorem encodeDomainPath_of_decode {d' : String} (hd : IsDomain d)
    (h : decodeDomainPath (encodeDomainPath d) = some d') :
    encodeDomainPath d' = encodeDomainPath d := by
  obtain ⟨org, db, horg, hdb, rfl⟩ := isDomain_iff.mp hd
  let x := org.toList ++ '_' :: '_' :: db.toList
  have hx : encodeDomainPath (org ++ "/" ++ db) = String.ofList (serialize x) := by
    rw [encodeDomainPath_pair horg hdb, serialize_append, serialize_cons_underscore,
      serialize_cons_underscore]
  have hslash : '/' ∉ x := by simp [x, horg, hdb]
  rw [hx] at h ⊢
  have hsegments : ((splitDouble x).map serialize).mapM decodeSegment =
      some ((splitDouble x).map String.ofList) := by
    induction splitDouble x with
    | nil => rfl
    | cons seg segs ih =>
      have hseg := decodeSegment_serialize (String.ofList seg)
      rw [String.toList_ofList] at hseg
      rw [List.map_cons, List.mapM_cons, hseg, ih]
      rfl
  rw [decodeDomainPath, String.toList_ofList, splitDouble_serialize, hsegments] at h
  obtain rfl := Option.some.inj h
  have hsplit : splitSlash ("/".intercalate ((splitDouble x).map String.ofList)) =
      (splitDouble x).map String.ofList := by
    have hid : (splitDouble x).map (String.toList ∘ String.ofList) = splitDouble x := by
      simp [Function.comp_def]
    rw [splitSlash, String.toList_intercalate, List.map_map, hid]
    exact congrArg (List.map String.ofList)
      (List.splitOn_intercalate '/' (notMem_splitDouble hslash) (splitDouble_ne_nil x))
  rw [encodeDomainPath, hsplit, List.map_map]
  have hserialize : (splitDouble x).map (byteSerialize ∘ String.ofList) =
      splitDouble (serialize x) := by
    rw [splitDouble_serialize]
    refine List.map_congr_left fun seg _ => ?_
    rw [Function.comp_apply, byteSerialize_eq_serialize, String.toList_ofList]
  rw [hserialize, intercalate_splitDouble]

theorem encodeDomainPath_apart (hd : IsDomain d) (h : Separated d) {d' : String}
    (hd' : IsDomain d') (henc : encodeDomainPath d' = encodeDomainPath d) : d' = d := by
  obtain ⟨org, db, horg, hdb, rfl⟩ := isDomain_iff.mp hd
  obtain ⟨org', db', horg', hdb', rfl⟩ := isDomain_iff.mp hd'
  obtain ⟨ho, hlast, ht, hhead⟩ := h.segments
  rw [encodeDomainPath_pair horg hdb, encodeDomainPath_pair horg' hdb', String.ofList_inj] at henc
  obtain ⟨horg₁, hdb₁⟩ := eq_of_append_double (fun hin => ho (double_infix_serialize hin))
    (fun hin => hlast (getLast?_serialize hin)) (fun hin => ht (double_infix_serialize hin))
    (fun hin => hhead (head?_serialize hin)) henc
  rw [← byteSerialize_eq_serialize, ← byteSerialize_eq_serialize] at horg₁ hdb₁
  rw [byteSerialize_inj horg₁, byteSerialize_inj hdb₁]

/-- Two ways to cut one directory name. -/
theorem exists_collision {o t : List Char} (o' t' : List Char) (ho : '/' ∉ o) (ht : '/' ∉ t)
    (ho' : '/' ∉ o') (ht' : '/' ∉ t') (hne : o' ≠ o)
    (h : serialize o' ++ '_' :: '_' :: serialize t' = serialize o ++ '_' :: '_' :: serialize t) :
    ∃ d', IsDomain d' ∧
      encodeDomainPath d' = encodeDomainPath (String.ofList o ++ "/" ++ String.ofList t) ∧
      d' ≠ String.ofList o ++ "/" ++ String.ofList t := by
  refine ⟨String.ofList o' ++ "/" ++ String.ofList t', ?_, ?_, fun heq => hne ?_⟩
  · exact isDomain_iff.mpr ⟨_, _, by simpa using ho', by simpa using ht', rfl⟩
  · rw [encodeDomainPath_pair (by simpa using ho') (by simpa using ht'),
      encodeDomainPath_pair (by simpa using ho) (by simpa using ht)]
    simp only [String.toList_ofList, h]
  · have hsplit := congrArg splitSlash heq
    rw [splitSlash_pair (by simpa using ho') (by simpa using ht'),
      splitSlash_pair (by simpa using ho) (by simpa using ht)] at hsplit
    exact String.ofList_inj.mp (List.cons.inj hsplit).1

/-- Wherever an underscore stands too close, another domain has the same directory. -/
theorem exists_collision_of_not_separated (hd : IsDomain d) (h : ¬ Separated d) :
    ∃ d', IsDomain d' ∧ encodeDomainPath d' = encodeDomainPath d ∧ d' ≠ d := by
  obtain ⟨org, db, horg, hdb, rfl⟩ := isDomain_iff.mp hd
  obtain ⟨o, rfl⟩ : ∃ o, String.ofList o = org := ⟨_, String.ofList_toList⟩
  obtain ⟨t, rfl⟩ : ∃ t, String.ofList t = db := ⟨_, String.ofList_toList⟩
  rw [String.toList_ofList] at horg hdb
  have hcases : ['_', '_'] <:+: o ∨ o.getLast? = some '_' ∨ ['_', '_'] <:+: t ∨
      t.head? = some '_' := by
    by_contra hno
    simp only [not_or] at hno
    refine h (separated_pair ?_ ?_ ?_ ?_ ?_ ?_) <;> simp only [String.toList_ofList]
    · exact horg
    · exact hdb
    · exact hno.1
    · exact hno.2.1
    · exact hno.2.2.1
    · exact hno.2.2.2
  rcases hcases with ⟨x, y, rfl⟩ | hlast | ⟨x, y, rfl⟩ | hhead
  · simp only [List.mem_append, not_or] at horg
    refine exists_collision x (y ++ ['_', '_'] ++ t) (by simp [horg]) hdb horg.1.1
      (by simp [horg, hdb]) (by simp) ?_
    simp only [serialize_append, serialize_cons_underscore, List.append_assoc, List.cons_append,
      List.nil_append]
  · obtain ⟨x, rfl⟩ := List.getLast?_eq_some_iff.mp hlast
    simp only [List.mem_append, not_or] at horg
    refine exists_collision x (['_'] ++ t) (by simp [horg]) hdb horg.1
      (by simp [hdb]) (by simp) ?_
    simp only [serialize_append, serialize_cons_underscore, List.append_assoc, List.cons_append,
      List.nil_append]
    rfl
  · simp only [List.mem_append, not_or] at hdb
    refine exists_collision (o ++ ['_', '_'] ++ x) y horg (by simp [hdb])
      (by simp [horg, hdb]) hdb.2 (by simp) ?_
    simp only [serialize_append, serialize_cons_underscore, List.append_assoc, List.cons_append,
      List.nil_append]
  · obtain ⟨y, rfl⟩ := List.head?_eq_some_iff.mp hhead
    simp only [List.mem_cons, not_or] at hdb
    refine exists_collision (o ++ ['_']) y horg (by simp [hdb]) (by simp [horg])
      hdb.2 (by simp) ?_
    simp only [serialize_append, serialize_cons_underscore, List.append_assoc, List.cons_append]
    rfl

theorem decode_datasetDir (d : String) :
    (if ".lance".toList.isSuffixOf (datasetDir d).toList then
      decodeDomainPath (String.ofList
        ((datasetDir d).toList.take ((datasetDir d).toList.length - ".lance".length)))
    else none) = decodeDomainPath (encodeDomainPath d) := by
  have hname : (datasetDir d).toList = (encodeDomainPath d).toList ++ ".lance".toList := by
    simp [datasetDir]
  have hlength : ".lance".toList.length = ".lance".length := rfl
  rw [hname, if_pos (List.isSuffixOf_iff_suffix.mpr (List.suffix_append _ _)), List.length_append,
    hlength, Nat.add_sub_cancel, List.take_left, String.ofList_toList]

theorem datasetDir_inj {d' : String} :
    datasetDir d' = datasetDir d ↔ encodeDomainPath d' = encodeDomainPath d := by
  unfold datasetDir
  rw [← String.toList_inj, String.toList_append, String.toList_append, List.append_left_inj,
    String.toList_inj]

theorem discoverOnDiskDatasets_dirs {written : List String}
    (h : ∀ d ∈ written, decodeDomainPath (encodeDomainPath d) = some d) :
    discoverOnDiskDatasets (written.map datasetDir) = written := by
  induction written with
  | nil => rfl
  | cons d written ih =>
    have hrest := ih fun x hx => h x (List.mem_cons_of_mem _ hx)
    unfold discoverOnDiskDatasets at hrest ⊢
    rw [List.map_cons, List.filterMap_cons, decode_datasetDir, h d List.mem_cons_self]
    simp only [hrest]

/-- The domains keep apart on disk and are found again exactly when no underscore of theirs
touches another or the slash. -/
theorem faithfulOnDisk_iff {written : List String} (h : ∀ d ∈ written, IsDomain d) :
    FaithfulOnDisk written ↔ ∀ d ∈ written, Separated d := by
  constructor
  · intro hfaithful d hd
    by_contra hno
    obtain ⟨d', hd', henc, hne⟩ := exists_collision_of_not_separated (h d hd) hno
    exact hne (hfaithful.apart d hd d' hd' henc)
  · intro hsep
    have hdecoded : ∀ d ∈ written, decodeDomainPath (encodeDomainPath d) = some d := fun d hd =>
      decodeDomainPath_encodeDomainPath (h d hd) (hsep d hd)
    exact ⟨fun d hd d' hd' => encodeDomainPath_apart (h d hd) (hsep d hd) hd', hdecoded,
      discoverOnDiskDatasets_dirs hdecoded⟩

theorem faithfulOnDisk_admin : FaithfulOnDisk ["admin/star_wars"] := by
  have hlist : "admin/star_wars".toList =
      ['a', 'd', 'm', 'i', 'n', '/', 's', 't', 'a', 'r', '_', 'w', 'a', 'r', 's'] := rfl
  refine (faithfulOnDisk_iff fun d hd => ?_).mpr fun d hd => ?_
  · rw [List.mem_singleton.mp hd]
    exact isDomain_iff.mpr ⟨"admin", "star_wars", by decide, by decide, rfl⟩
  · rw [List.mem_singleton.mp hd, Separated, hlist]
    refine ⟨?_, ?_, ?_⟩ <;> decide

/-- `a_/b` and `a/_b` share the directory `a___b.lance`. -/
theorem domains_collide :
    IsDomain "a_/b" ∧ IsDomain "a/_b" ∧ encodeDomainPath "a_/b" = encodeDomainPath "a/_b" ∧
      "a_/b" ≠ "a/_b" ∧ ¬ FaithfulOnDisk ["a_/b"] := by
  have hleft : IsDomain "a_/b" := isDomain_iff.mpr ⟨"a_", "b", by decide, by decide, rfl⟩
  have hright : IsDomain "a/_b" := isDomain_iff.mpr ⟨"a", "_b", by decide, by decide, rfl⟩
  have hsame : encodeDomainPath "a_/b" = encodeDomainPath "a/_b" := by
    have hone := encodeDomainPath_pair (show '/' ∉ "a_".toList by decide)
      (show '/' ∉ "b".toList by decide)
    have htwo := encodeDomainPath_pair (show '/' ∉ "a".toList by decide)
      (show '/' ∉ "_b".toList by decide)
    exact hone.trans htwo.symm
  refine ⟨hleft, hright, hsame, by decide, fun h => ?_⟩
  have heq := h.apart "a_/b" List.mem_cons_self "a/_b" hright hsame.symm
  revert heq
  decide

end Faithful

end Vectorlink
