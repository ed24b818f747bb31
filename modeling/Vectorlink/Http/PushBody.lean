import Vectorlink.Ingest
import Vectorlink.Text.Utf8

/-! The body of a push: newline-delimited operations, read chunk by chunk while the pipeline
is already at work on them. -/
namespace Vectorlink

open Text

/-- A request body as it arrives. `failure` is how the transport fails after the last chunk,
if it does. -/
structure PushBody where
  chunks : List (List UInt8)
  failure : Option String
deriving DecidableEq, Repr

/-- What the handler answers. With `stream=true` the answer is on its way before the body is
read. -/
inductive PushResponse where
  | progress
  | taskId
  | unprocessableEntity (message : String)
deriving DecidableEq, Repr

/-- What the body reader has still to do: it sends operations to the pipeline, records an
error on the task and drops its end of the channel. A send fails when the other end is
gone. -/
inductive BodyReader where
  | send (op : Operation) (closed next : BodyReader)
  | record (message : String) (next : BodyReader)
  | drop (next : BodyReader)
  | done (response : PushResponse)
deriving DecidableEq, Repr

/-- The loop of `handle_push` over the body, in both response modes. `fromStr` is
`serde_json::from_str`. -/
structure PushHandler where
  fromStr : String → Except String Operation
  isStream : Bool

namespace PushHandler

variable (h : PushHandler)

/-- The end of the handler's work on the body; `op_tx` is dropped with it. -/
def finish : BodyReader := .drop (.done (if h.isStream then .progress else .taskId))

def malformed (lineNum : ℕ) (e : String) : String := s!"malformed NDJSON at line {lineNum}: {e}"

def aborted (lineNum : ℕ) : BodyReader :=
  let answer := .drop (.done (if h.isStream then .progress
    else .unprocessableEntity s!"abort received at line {lineNum}"))
  .send .abort answer answer

/-- A line that ends in a newline. `closed` comes after a send that failed, `next` after
everything else that does not end the body. -/
def readLine (lineNum : ℕ) (line : List Char) (closed next : BodyReader) : BodyReader :=
  let trimmed := trim line
  if trimmed.isEmpty then next
  else
    match h.fromStr (String.ofList trimmed) with
    | .ok .abort => h.aborted lineNum
    | .ok op => .send op closed next
    | .error e =>
      let message := malformed lineNum e
      if h.isStream then .record message (.send (.error message) h.finish h.finish)
      else .record message h.finish

/-- The lines of the buffer, then `nextChunk` with the number of lines and what is left.
Without a progress stream a failed send only leaves this loop. -/
def readLines (nextChunk : ℕ → List Char → BodyReader) :
    (lineNum : ℕ) → (line buf : List Char) → BodyReader
  | n, line, [] => nextChunk n line
  | n, line, c :: buf =>
    if c = '\n' then
      h.readLine (n + 1) line (if h.isStream then h.finish else nextChunk (n + 1) buf)
        (readLines nextChunk (n + 1) [] buf)
    else readLines nextChunk n (line ++ [c]) buf

/-- The last line, when it has no newline. -/
def readRemaining (lineNum : ℕ) (buf : List Char) : BodyReader :=
  let remaining := trim buf
  if remaining.isEmpty then h.finish
  else
    match h.fromStr (String.ofList remaining) with
    | .ok .abort => h.aborted (lineNum + 1)
    | .ok op => .send op h.finish h.finish
    | .error e => .record (malformed (lineNum + 1) e) h.finish

def invalidUtf8 (e : Utf8Error) : BodyReader :=
  let message := s!"invalid UTF-8 in push body at byte offset {e.validUpTo}: {e.text}"
  if h.isStream then .record message h.finish else .drop (.record message (.done .taskId))

/-- Only without a progress stream the failure is recorded. -/
def brokenStream (e : String) : BodyReader :=
  if h.isStream then h.finish else .drop (.record s!"broken stream: {e}" (.done .taskId))

def readChunks (failure : Option String) :
    List (List UInt8) → (lineNum : ℕ) → (buf : List Char) → BodyReader
  | [], n, buf =>
    h.readLines (fun n buf => match failure with
      | some e => h.brokenStream e
      | none => h.readRemaining n buf) n [] buf
  | chunk :: chunks, n, buf =>
    h.readLines (fun n buf => match fromUtf8 chunk with
      | .ok s => readChunks failure chunks n (buf ++ s)
      | .error e => h.invalidUtf8 e) n [] buf

def readBody (body : PushBody) : BodyReader := h.readChunks body.failure body.chunks 0 []

end PushHandler

section Lines

/-- The text of the chunks, up to the first that is not valid UTF-8. -/
def decodedText : List (List UInt8) → List Char
  | [] => []
  | chunk :: chunks =>
    match fromUtf8 chunk with
    | .ok s => s ++ decodedText chunks
    | .error _ => []

/-- Every chunk is valid and the transport does not fail. -/
def arrives (failure : Option String) (chunks : List (List UInt8)) : Bool :=
  failure.isNone && chunks.all fun chunk => (fromUtf8 chunk).isOk

/-- The last line has no newline, so it is known to be complete only at the end. -/
def linesOf (whole : Bool) (text : List Char) : List (List Char) :=
  if whole then text.splitOn '\n' else (text.splitOn '\n').dropLast

def PushBody.lines (body : PushBody) : List (List Char) :=
  linesOf (arrives body.failure body.chunks) (decodedText body.chunks)

/-- The operations on the lines, up to an abort or to the first line that is none. -/
def PushHandler.operations (h : PushHandler) : List (List Char) → List Operation
  | [] => []
  | line :: lines =>
    if (trim line).isEmpty then operations h lines
    else
      match h.fromStr (String.ofList (trim line)) with
      | .ok .abort => [.abort]
      | .ok op => op :: operations h lines
      | .error _ => []

/-- What the reader sends as long as the pipeline listens. -/
def BodyReader.sends : BodyReader → List Operation
  | .send op _ next => op :: next.sends
  | .record _ next => next.sends
  | .drop _ => []
  | .done _ => []

/-- The reader sends these operations and at most the report of a line that is none. -/
def BodyReader.Delivers (reader : BodyReader) (ops : List Operation) : Prop :=
  ∃ reports, (∀ op ∈ reports, ∃ message, op = .error message) ∧ reader.sends = ops ++ reports

variable {h : PushHandler} {ops : List Operation} {reader : BodyReader}

theorem BodyReader.Delivers.of_sends (hsends : reader.sends = ops) : reader.Delivers ops :=
  ⟨[], by simp, by simp [hsends]⟩

theorem BodyReader.Delivers.send {closed : BodyReader} (hnext : reader.Delivers ops)
    (op : Operation) : (BodyReader.send op closed reader).Delivers (op :: ops) := by
  obtain ⟨reports, hreports, hsends⟩ := hnext
  exact ⟨reports, hreports, by rw [BodyReader.sends, hsends, List.cons_append]⟩

theorem linesOf_append_cons {whole : Bool} {line text : List Char} (hline : '\n' ∉ line) :
    linesOf whole (line ++ '\n' :: text) = line :: linesOf whole text := by
  have hsplit := List.splitOn_append_cons_self_of_not_mem hline text
  have hne := List.splitOn_ne_nil '\n' text
  unfold linesOf
  rw [hsplit, List.dropLast_cons_of_ne_nil hne]
  split <;> rfl

namespace PushHandler

theorem aborted_delivers (n : ℕ) : (h.aborted n).Delivers [.abort] := .of_sends rfl

theorem readLine_delivers {n : ℕ} {line : List Char} {lines : List (List Char)}
    {closed next : BodyReader} (hnext : next.Delivers (h.operations lines)) :
    (h.readLine n line closed next).Delivers (h.operations (line :: lines)) := by
  by_cases hblank : (trim line).isEmpty
  · simpa only [readLine, operations, if_pos hblank] using hnext
  · simp only [readLine, operations, if_neg hblank]
    cases hparse : h.fromStr (String.ofList (trim line)) with
    | error e =>
      dsimp only
      split
      · refine ⟨[.error (malformed n e)], fun op hop => ?_, rfl⟩
        exact ⟨_, List.mem_singleton.mp hop⟩
      · exact .of_sends rfl
    | ok op =>
      cases op with
      | abort => exact aborted_delivers n
      | inserted id string => exact hnext.send _
      | changed id string => exact hnext.send _
      | deleted id => exact hnext.send _
      | error message => exact hnext.send _

/-- The lines of the buffer and whatever follows it. -/
theorem readLines_delivers {whole : Bool} {text : List Char}
    {nextChunk : ℕ → List Char → BodyReader} (hnext : ∀ n line, '\n' ∉ line →
      (nextChunk n line).Delivers (h.operations (linesOf whole (line ++ text))))
    {n : ℕ} (line : List Char) (hline : '\n' ∉ line) (buf : List Char) :
    (h.readLines nextChunk n line buf).Delivers
      (h.operations (linesOf whole (line ++ (buf ++ text)))) := by
  induction buf generalizing n line with
  | nil => exact hnext n line hline
  | cons c buf ih =>
    rw [readLines]
    split
    · rename_i hc
      rw [hc, List.cons_append, linesOf_append_cons hline]
      exact readLine_delivers (ih [] List.not_mem_nil)
    · rename_i hc
      have hline' : '\n' ∉ line ++ [c] := by simp [hline, Ne.symm hc]
      have hrest := ih (n := n) (line ++ [c]) hline'
      rwa [List.append_assoc, List.singleton_append] at hrest

theorem readRemaining_delivers {n : ℕ} {line : List Char} (hline : '\n' ∉ line) :
    (h.readRemaining n line).Delivers (h.operations (linesOf true line)) := by
  have hlines : linesOf true line = [line] := List.splitOn_eq_singleton hline
  rw [hlines]
  by_cases hblank : (trim line).isEmpty
  · simp only [readRemaining, operations, if_pos hblank]
    exact .of_sends rfl
  · simp only [readRemaining, operations, if_neg hblank]
    cases hparse : h.fromStr (String.ofList (trim line)) with
    | error e => exact .of_sends rfl
    | ok op =>
      cases op with
      | abort => exact aborted_delivers _
      | inserted id string => exact .of_sends rfl
      | changed id string => exact .of_sends rfl
      | deleted id => exact .of_sends rfl
      | error message => exact .of_sends rfl

theorem brokenStream_sends (e : String) : (h.brokenStream e).sends = [] := by
  unfold brokenStream
  split <;> rfl

theorem invalidUtf8_sends (e : Utf8Error) : (h.invalidUtf8 e).sends = [] := by
  unfold invalidUtf8
  dsimp only
  split <;> rfl

/-- A body that breaks off delivers nothing of its last line. -/
theorem operations_broken {line : List Char} (hline : '\n' ∉ line) :
    h.operations (linesOf false line) = [] := by
  have hlines : linesOf false line = [] := by
    unfold linesOf
    rw [List.splitOn_eq_singleton hline]
    rfl
  rw [hlines, operations]

theorem readChunks_delivers (failure : Option String) (chunks : List (List UInt8)) (n : ℕ)
    (buf : List Char) :
    (h.readChunks failure chunks n buf).Delivers
      (h.operations (linesOf (arrives failure chunks) (buf ++ decodedText chunks))) := by
  induction chunks generalizing n buf with
  | nil =>
    rw [readChunks]
    refine readLines_delivers (fun n line hline => ?_) [] List.not_mem_nil buf
    rw [decodedText, List.append_nil]
    cases failure with
    | none => exact readRemaining_delivers hline
    | some e =>
      have hbroken : arrives (some e) [] = false := rfl
      rw [hbroken, operations_broken hline]
      exact .of_sends (brokenStream_sends e)
  | cons chunk chunks ih =>
    rw [readChunks]
    refine readLines_delivers (fun n line hline => ?_) [] List.not_mem_nil buf
    rw [decodedText]
    cases hutf8 : fromUtf8 chunk with
    | ok s =>
      have harrives : arrives failure (chunk :: chunks) = arrives failure chunks := by
        simp [arrives, hutf8, Except.isOk, Except.toBool]
      rw [harrives, ← List.append_assoc]
      exact ih n (line ++ s)
    | error e =>
      have hbroken : arrives failure (chunk :: chunks) = false := by
        simp [arrives, hutf8, Except.isOk, Except.toBool]
      rw [hbroken, List.append_nil, operations_broken hline]
      exact .of_sends (invalidUtf8_sends e)

/-- However the body is cut into chunks, the pipeline is offered the operations on its
lines. -/
theorem readBody_delivers (body : PushBody) :
    (h.readBody body).Delivers (h.operations body.lines) :=
  readChunks_delivers body.failure body.chunks 0 []

end PushHandler

end Lines

end Vectorlink
