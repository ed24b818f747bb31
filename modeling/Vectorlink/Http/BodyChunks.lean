import Vectorlink.Http.PushBody

/-! A push body cut into network chunks: what the readers deliver of the chunks, against what
`parse_ndjson_body` finds in the whole text. -/
namespace Vectorlink

open Text

inductive IngestError where
  | malformedLine (line : ℕ) (detail : String)
deriving DecidableEq, Repr

def IngestError.text : IngestError → String
  | .malformedLine line detail => PushHandler.malformed line detail

section Parse

variable (fromStr : String → Except String Operation)

def parseOperationLine (line : List Char) (lineNum : ℕ) : Except IngestError Operation :=
  let trimmed := trim line
  if trimmed.isEmpty then .error (.malformedLine lineNum "empty line")
  else (fromStr (String.ofList trimmed)).mapError (.malformedLine lineNum)

/-- The loop of `parse_ndjson_body`: the operations it has pushed when it ends, and the error
that ended it, if one did. -/
def ndjsonLoop : (idx : ℕ) → List (List Char) → List Operation × Option IngestError
  | _, [] => ([], none)
  | idx, line :: lines =>
    let trimmed := trim line
    if trimmed.isEmpty then ndjsonLoop (idx + 1) lines
    else
      match parseOperationLine fromStr trimmed (idx + 1) with
      | .ok op => (op :: (ndjsonLoop (idx + 1) lines).1, (ndjsonLoop (idx + 1) lines).2)
      | .error e => ([], some e)

/-- Up to and including the first abort; a malformed line behind it does not count. -/
def cutAtAbort (o : List Operation × Option IngestError) : List Operation × Option IngestError :=
  if .abort ∈ o.1 then (o.1.takeWhile (· ≠ .abort) ++ [.abort], none) else o

/-- What a whole body is to deliver: what `parse_ndjson_body` has pushed when it returns, and
the error it returns. -/
def bodyOutcome (body : List Char) : List Operation × Option IngestError :=
  cutAtAbort (ndjsonLoop fromStr 0 (lines body))

end Parse

/-- What the reader records on the task as long as the pipeline listens. -/
def BodyReader.records : BodyReader → List String
  | .send _ _ next => next.records
  | .record message next => message :: next.records
  | .drop next => next.records
  | .done _ => []

def lineReportPrefix : String := "malformed NDJSON at line "

/-- The message names a malformed line. -/
def reportsLine (message : String) : Bool := lineReportPrefix.toList.isPrefixOf message.toList

/-- The reader delivers these operations, apart from the report of a malformed line, and
reports the malformed line, if there is one, under the same number. -/
structure BodyReader.Reads (reader : BodyReader) (o : List Operation × Option IngestError) :
    Prop where
  sends : ∃ synthetic, reader.sends = o.1 ++ synthetic ∧
    (synthetic = [] ∨ ∃ e, o.2 = some e ∧ synthetic = [.error e.text])
  reports : reader.records.filter reportsLine = o.2.toList.map IngestError.text

section Reading

variable {h : PushHandler} {reader closed next : BodyReader}
  {o : List Operation × Option IngestError}

/-- What the lines hold from number `n` on, up to an abort or a line that is malformed. -/
def PushHandler.outcome (h : PushHandler) :
    ℕ → List (List Char) → List Operation × Option IngestError
  | _, [] => ([], none)
  | n, line :: lines =>
    if (trim line).isEmpty then outcome h (n + 1) lines
    else
      match h.fromStr (String.ofList (trim line)) with
      | .ok .abort => ([.abort], none)
      | .ok op => (op :: (outcome h (n + 1) lines).1, (outcome h (n + 1) lines).2)
      | .error e => ([], some (.malformedLine (n + 1) e))

theorem reportsLine_malformed (n : ℕ) (e : String) :
    reportsLine (PushHandler.malformed n e) = true := by
  have hmessage : PushHandler.malformed n e = lineReportPrefix ++ (toString n ++ (": " ++ e)) := by
    rw [← String.append_assoc, ← String.append_assoc]
    rfl
  rw [reportsLine, hmessage, String.toList_append, List.isPrefixOf_iff_prefix]
  exact List.prefix_append _ _

theorem reportsLine_invalidUtf8 (e : Utf8Error) :
    reportsLine s!"invalid UTF-8 in push body at byte offset {e.validUpTo}: {e.text}" = false := by
  have hm : lineReportPrefix.toList = 'm' :: "alformed NDJSON at line ".toList := by rfl
  have hi : "invalid UTF-8 in push body at byte offset ".toList =
      'i' :: "nvalid UTF-8 in push body at byte offset ".toList := by rfl
  have htext : ∀ s : String, toString s = s := fun _ => rfl
  simp only [reportsLine, hm, String.toList_append, htext, hi, List.cons_append]
  rfl

theorem BodyReader.Reads.silent (hsends : reader.sends = []) (hrecords : reader.records = []) :
    reader.Reads ([], none) :=
  ⟨⟨[], by simp [hsends], .inl rfl⟩, by simp [hrecords]⟩

theorem BodyReader.Reads.send (hnext : next.Reads o) (op : Operation) :
    (BodyReader.send op closed next).Reads (op :: o.1, o.2) := by
  obtain ⟨synthetic, hsends, hsynthetic⟩ := hnext.sends
  exact ⟨⟨synthetic, by rw [BodyReader.sends, hsends, List.cons_append], hsynthetic⟩,
    hnext.reports⟩

/-- The end of what a reader delivers is unique. -/
theorem BodyReader.Reads.nothing_more {more : List Operation × Option IngestError}
    (hreads : reader.Reads o) (hnone : o.2 = none) (hall : reader.Reads (o.1 ++ more.1, more.2)) :
    more = ([], none) := by
  obtain ⟨synthetic, hsends, hsynthetic⟩ := hreads.sends
  rw [hnone] at hsynthetic
  have hnil : synthetic = [] := hsynthetic.resolve_right (by simp)
  obtain ⟨synthetic', hsends', -⟩ := hall.sends
  rw [hsends, hnil, List.append_assoc, List.append_cancel_left_eq] at hsends'
  have hreports := hreads.reports.symm.trans hall.reports
  rw [hnone] at hreports
  have hmore : more.1 = [] := (List.append_eq_nil_iff.mp hsends'.symm).1
  have herror : more.2 = none := by
    cases he : more.2 with
    | none => rfl
    | some e => simp [he] at hreports
  exact Prod.ext hmore herror

theorem finish_reads : h.finish.Reads ([], none) := .silent rfl rfl

theorem aborted_reads (n : ℕ) : (h.aborted n).Reads ([.abort], none) :=
  ⟨⟨[], rfl, .inl rfl⟩, rfl⟩

/-- A malformed line, with or without its report to the pipeline. -/
theorem malformed_reads {n : ℕ} {e : String} (hsends : reader.sends = [] ∨
      reader.sends = [.error (PushHandler.malformed n e)])
    (hrecords : reader.records = [PushHandler.malformed n e]) :
    reader.Reads ([], some (.malformedLine n e)) := by
  constructor
  · rcases hsends with hnone | hreport
    · exact ⟨[], by simp [hnone], .inl rfl⟩
    · exact ⟨_, hreport, .inr ⟨_, rfl, rfl⟩⟩
  · rw [hrecords, List.filter_cons_of_pos (reportsLine_malformed n e)]
    rfl

namespace PushHandler

theorem readLine_reads {n : ℕ} {line : List Char} {lines : List (List Char)}
    (hnext : next.Reads (h.outcome (n + 1) lines)) :
    (h.readLine (n + 1) line closed next).Reads (h.outcome n (line :: lines)) := by
  by_cases hblank : (trim line).isEmpty
  · simpa only [readLine, outcome, if_pos hblank] using hnext
  · simp only [readLine, outcome, if_neg hblank]
    cases hparse : h.fromStr (String.ofList (trim line)) with
    | error e =>
      dsimp only
      split
      · exact malformed_reads (.inr rfl) rfl
      · exact malformed_reads (.inl rfl) rfl
    | ok op =>
      cases op with
      | abort => exact aborted_reads _
      | inserted id string => exact hnext.send _
      | changed id string => exact hnext.send _
      | deleted id => exact hnext.send _
      | error message => exact hnext.send _

theorem readLines_reads {whole : Bool} {text : List Char}
    {nextChunk : ℕ → List Char → BodyReader} (hnext : ∀ n line, '\n' ∉ line →
      (nextChunk n line).Reads (h.outcome n (linesOf whole (line ++ text))))
    {n : ℕ} (line : List Char) (hline : '\n' ∉ line) (buf : List Char) :
    (h.readLines nextChunk n line buf).Reads
      (h.outcome n (linesOf whole (line ++ (buf ++ text)))) := by
  induction buf generalizing n line with
  | nil => exact hnext n line hline
  | cons c buf ih =>
    rw [readLines]
    split
    · rename_i hc
      rw [hc, List.cons_append, linesOf_append_cons hline]
      exact readLine_reads (ih [] List.not_mem_nil)
    · rename_i hc
      have hline' : '\n' ∉ line ++ [c] := by simp [hline, Ne.symm hc]
      have hrest := ih (n := n) (line ++ [c]) hline'
      rwa [List.append_assoc, List.singleton_append] at hrest

theorem readRemaining_reads {n : ℕ} {line : List Char} (hline : '\n' ∉ line) :
    (h.readRemaining n line).Reads (h.outcome n (linesOf true line)) := by
  have hlines : linesOf true line = [line] := List.splitOn_eq_singleton hline
  rw [hlines]
  by_cases hblank : (trim line).isEmpty
  · simp only [readRemaining, outcome, if_pos hblank]
    exact finish_reads
  · simp only [readRemaining, outcome, if_neg hblank]
    cases hparse : h.fromStr (String.ofList (trim line)) with
    | error e => exact malformed_reads (.inl rfl) rfl
    | ok op =>
      cases op with
      | abort => exact aborted_reads _
      | inserted id string => exact finish_reads.send _
      | changed id string => exact finish_reads.send _
      | deleted id => exact finish_reads.send _
      | error message => exact finish_reads.send _

theorem invalidUtf8_reads (e : Utf8Error) : (h.invalidUtf8 e).Reads ([], none) := by
  have hrecords : (h.invalidUtf8 e).records.filter reportsLine = [] := by
    have hother := reportsLine_invalidUtf8 e
    unfold invalidUtf8
    dsimp only
    split
    · exact List.filter_cons_of_neg (by rw [hother]; exact Bool.false_ne_true)
    · exact List.filter_cons_of_neg (by rw [hother]; exact Bool.false_ne_true)
  exact ⟨⟨[], by simp [invalidUtf8_sends], .inl rfl⟩, hrecords⟩

/-- The reader delivers what stands on the complete lines before the first chunk that is not
valid by itself, or on all lines if there is none. -/
theorem readChunks_reads (chunks : List (List UInt8)) (n : ℕ) (buf : List Char) :
    (h.readChunks none chunks n buf).Reads
      (h.outcome n (linesOf (arrives none chunks) (buf ++ decodedText chunks))) := by
  induction chunks generalizing n buf with
  | nil =>
    rw [readChunks]
    refine readLines_reads (fun n line hline => ?_) [] List.not_mem_nil buf
    rw [decodedText, List.append_nil]
    exact readRemaining_reads hline
  | cons chunk chunks ih =>
    rw [readChunks]
    refine readLines_reads (fun n line hline => ?_) [] List.not_mem_nil buf
    rw [decodedText]
    cases hutf8 : fromUtf8 chunk with
    | ok s =>
      have harrives : arrives none (chunk :: chunks) = arrives none chunks := by
        simp [arrives, hutf8, Except.isOk, Except.toBool]
      rw [harrives, ← List.append_assoc]
      exact ih n (line ++ s)
    | error e =>
      have hbroken : arrives none (chunk :: chunks) = false := by
        simp [arrives, hutf8, Except.isOk, Except.toBool]
      have hlines : linesOf false line = [] := by
        unfold linesOf
        rw [List.splitOn_eq_singleton hline]
        rfl
      rw [hbroken, List.append_nil, hlines]
      exact invalidUtf8_reads e

end PushHandler

end Reading

section Outcome

theorem cutAtAbort_abort (ops : List Operation) (err : Option IngestError) :
    cutAtAbort (.abort :: ops, err) = ([.abort], none) := by
  simp [cutAtAbort]

theorem cutAtAbort_cons {op : Operation} (hop : op ≠ .abort)
    (o : List Operation × Option IngestError) :
    cutAtAbort (op :: o.1, o.2) = (op :: (cutAtAbort o).1, (cutAtAbort o).2) := by
  unfold cutAtAbort
  by_cases habort : .abort ∈ o.1
  · simp [habort, hop]
  · simp [habort, hop.symm]

namespace PushHandler

variable {h : PushHandler}

/-- The readers stop where `parse_ndjson_body` does, or at an abort before. -/
theorem outcome_eq (n : ℕ) (ls : List (List Char)) :
    h.outcome n ls = cutAtAbort (ndjsonLoop h.fromStr n ls) := by
  induction ls generalizing n with
  | nil => rfl
  | cons line ls ih =>
    by_cases hblank : (trim line).isEmpty
    · simpa only [outcome, ndjsonLoop, if_pos hblank] using ih (n + 1)
    · simp only [outcome, ndjsonLoop, parseOperationLine, trim_trim, if_neg hblank]
      cases hparse : h.fromStr (String.ofList (trim line)) with
      | error e => rfl
      | ok op =>
        cases op with
        | abort => exact (cutAtAbort_abort _ _).symm
        | inserted id string => simp [ih, Except.mapError, cutAtAbort_cons]
        | changed id string => simp [ih, Except.mapError, cutAtAbort_cons]
        | deleted id => simp [ih, Except.mapError, cutAtAbort_cons]
        | error message => simp [ih, Except.mapError, cutAtAbort_cons]

/-- The line ends the reading: it is an abort, or it is malformed. -/
def endsAt (h : PushHandler) (line : List Char) : Bool :=
  !(trim line).isEmpty && (match h.fromStr (String.ofList (trim line)) with
    | .ok op => decide (op = .abort)
    | .error _ => true)

/-- Lines in front that do not end the reading. -/
theorem outcome_append {ls : List (List Char)} (hls : ∀ line ∈ ls, h.endsAt line = false) (n : ℕ)
    (more : List (List Char)) :
    h.outcome n (ls ++ more) = ((h.outcome n ls).1 ++ (h.outcome (n + ls.length) more).1,
      (h.outcome (n + ls.length) more).2) ∧ (h.outcome n ls).2 = none := by
  induction ls generalizing n with
  | nil => exact ⟨rfl, rfl⟩
  | cons line ls ih =>
    obtain ⟨hmore, hnone⟩ := ih (fun l hl => hls l (List.mem_cons_of_mem _ hl)) (n + 1)
    have hline := hls line List.mem_cons_self
    have hlength : n + (line :: ls).length = n + 1 + ls.length := by
      rw [List.length_cons]
      omega
    rw [hlength, List.cons_append]
    by_cases hblank : (trim line).isEmpty
    · simp only [outcome, if_pos hblank]
      exact ⟨hmore, hnone⟩
    · simp only [outcome, if_neg hblank]
      unfold endsAt at hline
      cases hparse : h.fromStr (String.ofList (trim line)) with
      | error e => simp [hparse, hblank] at hline
      | ok op =>
        cases op with
        | abort => simp [hparse, hblank] at hline
        | inserted id string => simp [hmore, hnone]
        | changed id string => simp [hmore, hnone]
        | deleted id => simp [hmore, hnone]
        | error message => simp [hmore, hnone]

/-- Behind a line that ends the reading nothing counts. -/
theorem outcome_append_of_endsAt {ls : List (List Char)} (hls : ∃ line ∈ ls, h.endsAt line = true)
    (n : ℕ) (more : List (List Char)) : h.outcome n (ls ++ more) = h.outcome n ls := by
  induction ls generalizing n with
  | nil =>
    obtain ⟨line, hmem, -⟩ := hls
    cases hmem
  | cons line ls ih =>
    rw [List.cons_append]
    by_cases hline : h.endsAt line = true
    · unfold endsAt at hline
      rw [Bool.and_eq_true, Bool.not_eq_true'] at hline
      simp only [outcome, hline.1, Bool.false_eq_true, if_false]
      cases hparse : h.fromStr (String.ofList (trim line)) with
      | error e => rfl
      | ok op =>
        have hop : op = .abort := by simpa [hparse] using hline.2
        rw [hop]
    · have hrest : ∃ l ∈ ls, h.endsAt l = true := by
        obtain ⟨l, hmem, hl⟩ := hls
        rcases List.mem_cons.mp hmem with rfl | hmem
        · exact absurd hl hline
        · exact ⟨l, hmem, hl⟩
      have hmore := ih hrest (n + 1)
      simp only [outcome, hmore]

theorem outcome_blank {ls : List (List Char)} (hls : ∀ line ∈ ls, (trim line).isEmpty) (n : ℕ) :
    h.outcome n ls = ([], none) := by
  induction ls generalizing n with
  | nil => rfl
  | cons line ls ih =>
    rw [outcome, if_pos (hls line List.mem_cons_self)]
    exact ih (fun l hl => hls l (List.mem_cons_of_mem _ hl)) _

/-- Only blank lines hold nothing. -/
theorem blank_of_outcome {ls : List (List Char)} {n : ℕ} (hls : h.outcome n ls = ([], none)) :
    ∀ line ∈ ls, (trim line).isEmpty := by
  induction ls generalizing n with
  | nil =>
    intro line hline
    cases hline
  | cons line ls ih =>
    by_cases hblank : (trim line).isEmpty
    · rw [outcome, if_pos hblank] at hls
      intro l hl
      rcases List.mem_cons.mp hl with rfl | hl
      · exact hblank
      · exact ih hls l hl
    · simp only [outcome, if_neg hblank] at hls
      split at hls <;> simp at hls

theorem outcome_append_blank {ls more : List (List Char)}
    (hmore : ∀ line ∈ more, (trim line).isEmpty) (n : ℕ) :
    h.outcome n (ls ++ more) = h.outcome n ls := by
  by_cases hends : ∃ line ∈ ls, h.endsAt line = true
  · exact outcome_append_of_endsAt hends n more
  · have hls : ∀ line ∈ ls, h.endsAt line = false := by simpa using hends
    obtain ⟨happend, hnone⟩ := outcome_append hls n more
    rw [happend, outcome_blank hmore, List.append_nil, ← hnone]

theorem outcome_stripCr (ls more : List (List Char)) (n : ℕ) :
    h.outcome n (ls.map stripCr ++ more) = h.outcome n (ls ++ more) := by
  induction ls generalizing n with
  | nil => rfl
  | cons line ls ih => simp only [List.map_cons, List.cons_append, outcome, trim_stripCr, ih]

/-- A carriage return before a newline and an empty last line make no difference. -/
theorem outcome_lines (n : ℕ) (text : List Char) :
    h.outcome n (lines text) = h.outcome n (text.splitOn '\n') := by
  have hne := List.splitOn_ne_nil '\n' text
  have hpieces := List.dropLast_append_getLast hne
  unfold lines
  dsimp only
  rw [outcome_stripCr, List.getLast?_eq_some_getLast hne, Option.toList_some]
  conv_rhs => rw [← hpieces]
  cases hlast : (text.splitOn '\n').getLast hne with
  | nil =>
    rw [List.filter_cons_of_neg (by simp), List.filter_nil, List.append_nil]
    exact (outcome_append_blank (by simp [trim]) n).symm
  | cons c line => rw [List.filter_cons_of_pos (by simp), List.filter_nil]

theorem outcome_eq_bodyOutcome (text : List Char) :
    h.outcome 0 (linesOf true text) = bodyOutcome h.fromStr text := by
  rw [bodyOutcome, ← outcome_eq, outcome_lines]
  rfl

end PushHandler

end Outcome

section Chunks

variable {chunks : List (List UInt8)} {text : List Char}

theorem arrives_eq : arrives none chunks = true ↔ ∀ chunk ∈ chunks, (fromUtf8 chunk).isOk = true := by
  simp [arrives]

/-- The chunks up to the first that is not valid hold the beginning of the text. -/
theorem decodedText_prefix (htext : fromUtf8 chunks.flatten = .ok text) :
    ∃ rest, text = decodedText chunks ++ rest ∧ (arrives none chunks = true → rest = []) := by
  induction chunks generalizing text with
  | nil =>
    obtain rfl := Except.ok.inj htext
    exact ⟨[], rfl, fun _ => rfl⟩
  | cons chunk chunks ih =>
    rw [decodedText]
    cases hutf8 : fromUtf8 chunk with
    | error e =>
      refine ⟨text, rfl, fun harrives => ?_⟩
      have hok := arrives_eq.mp harrives chunk List.mem_cons_self
      rw [hutf8] at hok
      cases hok
    | ok s =>
      obtain ⟨more, hmore, rfl⟩ := fromUtf8_of_append hutf8 htext
      obtain ⟨rest, rfl, hrest⟩ := ih hmore
      refine ⟨rest, by rw [List.append_assoc], fun harrives => hrest ?_⟩
      exact arrives_eq.mpr fun c hc => arrives_eq.mp harrives c (List.mem_cons_of_mem _ hc)

/-- The complete lines of a beginning are the first lines of the whole. -/
theorem linesOf_false_prefix (front rest : List Char) (line : List Char) (hline : '\n' ∉ line) :
    linesOf false (line ++ front) <+: linesOf true (line ++ (front ++ rest)) := by
  induction front generalizing line with
  | nil =>
    have hlines : linesOf false (line ++ []) = [] := by
      unfold linesOf
      rw [List.append_nil, List.splitOn_eq_singleton hline]
      rfl
    rw [hlines]
    exact List.nil_prefix
  | cons c front ih =>
    by_cases hc : c = '\n'
    · rw [hc, List.cons_append, linesOf_append_cons hline, linesOf_append_cons hline]
      exact List.cons_prefix_cons.mpr ⟨rfl, ih [] List.not_mem_nil⟩
    · have hrest := ih (line ++ [c]) (by simp [hline, Ne.symm hc])
      rwa [List.append_assoc, List.append_assoc, List.singleton_append, List.singleton_append]
        at hrest

/-- The lines that end before the first chunk that is not valid UTF-8 by itself. -/
def completeLines (chunks : List (List UInt8)) : List (List Char) :=
  linesOf false (decodedText chunks)

/-- Every chunk is valid UTF-8 by itself, or the lines before the first that is not end the
reading, or there is nothing behind them. -/
def PushHandler.CutCleanly (h : PushHandler) (chunks : List (List UInt8)) (text : List Char) :
    Prop :=
  (∀ chunk ∈ chunks, (fromUtf8 chunk).isOk = true) ∨
    (∃ line ∈ completeLines chunks, h.endsAt line = true) ∨
    ∀ line ∈ (text.splitOn '\n').drop (completeLines chunks).length, (trim line).isEmpty

/-- Both readers deliver a valid body whatever its chunks iff no chunk that they need breaks
inside a character. -/
theorem readBody_reads_iff (h : PushHandler) (chunks : List (List UInt8)) (text : List Char)
    (hutf8 : fromUtf8 chunks.flatten = .ok text) :
    (h.readBody ⟨chunks, none⟩).Reads (bodyOutcome h.fromStr text) ↔ h.CutCleanly chunks text := by
  have hreads : (h.readBody ⟨chunks, none⟩).Reads
      (h.outcome 0 (linesOf (arrives none chunks) (decodedText chunks))) :=
    PushHandler.readChunks_reads chunks 0 []
  obtain ⟨rest, hrest, hwhole⟩ := decodedText_prefix hutf8
  rw [← PushHandler.outcome_eq_bodyOutcome]
  cases harrives : arrives none chunks with
  | true =>
    rw [harrives, ← (by rw [hrest, hwhole harrives, List.append_nil] : text = decodedText chunks)]
      at hreads
    exact ⟨fun _ => .inl (arrives_eq.mp harrives), fun _ => hreads⟩
  | false =>
    rw [harrives] at hreads
    -- the lines of the text: the complete ones, then the others
    obtain ⟨more, hmore⟩ := linesOf_false_prefix (decodedText chunks) rest [] List.not_mem_nil
    rw [List.nil_append, List.nil_append, ← hrest] at hmore
    have hlines : linesOf true text = completeLines chunks ++ more := hmore.symm
    have hdrop : (text.splitOn '\n').drop (completeLines chunks).length = more := by
      change (linesOf true text).drop _ = more
      rw [hlines, List.drop_left]
    unfold PushHandler.CutCleanly
    rw [hlines, hdrop]
    constructor
    · intro hall
      by_cases hends : ∃ line ∈ completeLines chunks, h.endsAt line = true
      · exact .inr (.inl hends)
      · refine .inr (.inr (PushHandler.blank_of_outcome (h := h)
          (n := 0 + (completeLines chunks).length) ?_))
        have hls : ∀ line ∈ completeLines chunks, h.endsAt line = false := by simpa using hends
        obtain ⟨happend, hnone⟩ := PushHandler.outcome_append hls 0 more
        rw [happend] at hall
        exact hreads.nothing_more hnone hall
    · rintro (hvalid | hends | hblank)
      · rw [arrives_eq.mpr hvalid] at harrives
        cases harrives
      · rw [PushHandler.outcome_append_of_endsAt hends]
        exact hreads
      · rw [PushHandler.outcome_append_blank hblank]
        exact hreads

/-- An insertion whose text has a character of two bytes. -/
def accentedLine : String := "\x7b\"op\":\"Inserted\",\"id\":\"a\",\"string\":\"é\"\x7d"

/-- The parser on that line. -/
def accentedHandler (isStream : Bool) : PushHandler where
  fromStr s := if s = accentedLine then .ok (.inserted "a" "é") else .error "expected value"
  isStream := isStream

/-- The body in two chunks. The character is at the bytes 36 and 37. -/
def accentedChunks (cut : ℕ) : List (List UInt8) :=
  [accentedLine.toUTF8.toList.take cut, accentedLine.toUTF8.toList.drop cut]

theorem readBody_reads_accented :
    fromUtf8 (accentedChunks 36).flatten = .ok accentedLine.toList ∧
      ((accentedHandler true).readBody ⟨accentedChunks 36, none⟩).Reads
        (bodyOutcome (accentedHandler true).fromStr accentedLine.toList) := by
  have hutf8 : fromUtf8 (accentedChunks 36).flatten = .ok accentedLine.toList := by decide +kernel
  exact ⟨hutf8, (readBody_reads_iff _ _ _ hutf8).mpr (.inl (by decide +kernel))⟩

/-- Cut inside the character, neither reader delivers the operation. -/
theorem readBody_not_reads_accented :
    fromUtf8 (accentedChunks 37).flatten = .ok accentedLine.toList ∧
      (∀ isStream, ¬ ((accentedHandler isStream).readBody ⟨accentedChunks 37, none⟩).Reads
        (bodyOutcome (accentedHandler isStream).fromStr accentedLine.toList)) := by
  refine ⟨by decide +kernel, fun isStream hreads => ?_⟩
  obtain ⟨synthetic, hsends, -⟩ := hreads.sends
  have hnothing : ((accentedHandler isStream).readBody ⟨accentedChunks 37, none⟩).sends = [] := by
    cases isStream <;> decide +kernel
  have houtcome : (bodyOutcome (accentedHandler isStream).fromStr accentedLine.toList).1 =
      [.inserted "a" "é"] := by
    cases isStream <;> decide +kernel
  rw [hnothing, houtcome] at hsends
  cases hsends

end Chunks

end Vectorlink
