import Mathlib.Data.Prod.Lex
import Vectorlink.Ranking.Least
import Vectorlink.Store.CrossNeighbours
import Vectorlink.Store.DuplicateScope
import Vectorlink.Store.Search
import Vectorlink.Text.Offsets
import Vectorlink.Text.Utf8

/-! Suggestions while a query is typed: documents with the place of the match, and completions. -/
namespace Vectorlink

open Text Ranking

/-- Why a call does not return: a slice off a boundary, or no fuel is left. -/
inductive Stop where
  | panic
  | fuel
deriving DecidableEq, Repr

def isSeparator (c : Char) : Bool :=
  isWhitespace c || c == '.' || c == ',' || c == ';' || c == ':'

/-- The bytes up to the end of the word that a text begins in. -/
def restOfWord (s : List Char) : ℕ := (findChar isSeparator s).getD (byteLen s)

section Highlight

variable (t : CaseTable)

/-- The passes of the loop over the words after a match. -/
def nextWords (rest : List Char) : (passes : ℕ) → (cursor : ℕ) → Option (List (List Char))
  | 0, _ => some []
  | passes + 1, cursor => do
    let remaining ← sliceFrom cursor rest
    let trimmed := remaining.dropWhile isSeparator
    let skipped := byteLen remaining - byteLen trimmed
    let afterWs := cursor + skipped
    if byteLen rest ≤ afterWs then some []
    else
      let wordRest ← sliceFrom afterWs rest
      let wordEndInRest := restOfWord wordRest
      if wordEndInRest = 0 then some []
      else
        let word ← slice afterWs (afterWs + wordEndInRest) rest
        let wordTrimmed := trimMatches isSeparator word
        let here := if wordTrimmed.isEmpty then [] else [wordTrimmed]
        let cursor := afterWs + wordEndInRest
        if byteLen rest ≤ cursor then some here
        else (nextWords rest passes cursor).map (here ++ ·)

structure Highlight where
  matchStart : Option ℕ
  matchEnd : Option ℕ
  nextWords : List (List Char)
deriving DecidableEq, Repr

/-- The offsets are found in the lowercased copy and used on the text itself. -/
def findMatchAndNextWords (content queryLower : List Char) : Option Highlight :=
  match find queryLower (t.toLowercase content) with
  | none => some ⟨none, none, []⟩
  | some pos => do
    let rawEnd := pos + byteLen queryLower
    let afterMatch ← sliceFrom rawEnd content
    let matchEnd := rawEnd + restOfWord afterMatch
    let rest ← sliceFrom matchEnd content
    let words ← nextWords rest 5 0
    some ⟨some pos, some matchEnd, words⟩

end Highlight

section Completions

variable (t : CaseTable)

/-- An occurrence of the query in a snippet, with the completions it gives. -/
structure Visit where
  absPos : ℕ
  completions : List (List Char)

/-- The word, then one more of the words after it each time. -/
def cumulative (text : List Char) : List (List Char) → List (List Char)
  | [] => []
  | w :: words => trim (text ++ ' ' :: w) :: cumulative (text ++ ' ' :: w) words

def visit (query snippet : List Char) (absPos : ℕ) : Option Visit := do
  let queryEnd := absPos + byteLen (t.toLowercase query)
  let afterMatch ← sliceFrom queryEnd snippet
  let wordEnd := queryEnd + restOfWord afterMatch
  let rest ← sliceFrom wordEnd snippet
  let words := ((splitChars isSeparator rest).filter fun w => !w.isEmpty).take 3
  let containingWord ← slice absPos wordEnd snippet
  let containingTrimmed := trim containingWord
  some ⟨absPos, (containingTrimmed :: cumulative containingTrimmed words).filter
    fun completion => byteLen query < byteLen completion⟩

/-- The loop over the occurrences of the query in a snippet. -/
def occurrenceLoop (query snippet : List Char) : (fuel : ℕ) → (searchFrom : ℕ) →
    Except Stop (List Visit)
  | 0, _ => .error .fuel
  | fuel + 1, searchFrom =>
    match sliceFrom searchFrom (t.toLowercase snippet) with
    | none => .error .panic
    | some tail =>
      match find (t.toLowercase query) tail with
      | none => .ok []
      | some pos =>
        match visit t query snippet (searchFrom + pos) with
        | none => .error .panic
        | some v =>
          -- move past this match
          (occurrenceLoop query snippet fuel
            (searchFrom + pos + byteLen (t.toLowercase query))).map (v :: ·)

abbrev Freq := AList fun _ : List Char => ℕ × List Char

/-- Count a completion, under its lowercase; the casing seen first is kept. -/
def countCompletion (freq : Freq) (completion : List Char) : Freq :=
  match freq.lookup (t.toLowercase completion) with
  | some (count, text) => freq.insert (t.toLowercase completion) (count + 1, text)
  | none => freq.insert (t.toLowercase completion) (1, completion)

/-- Most frequent first, then longest first, then by the alphabet. -/
def rankKey (e : ℕ × List Char) : ℕᵒᵈ ×ₗ ℕᵒᵈ ×ₗ List Char :=
  toLex (OrderDual.toDual e.1, toLex (OrderDual.toDual (byteLen e.2), e.2))

def rankCompletions (order : HashOrder (ℕ × List Char)) (found : List (List Char)) :
    List (List Char) :=
  let freq := found.foldl (countCompletion t) ∅
  let ranked := (order.run (freq.entries.map Sigma.snd)).insertionSort
    fun a b => rankKey a ≤ rankKey b
  (ranked.take 8).map Prod.snd

def extractCompletions (order : HashOrder (ℕ × List Char)) (fuel : ℕ) (query : List Char)
    (snippets : List (List Char)) : Except Stop (List (List Char)) := do
  let visits ← snippets.mapM fun snippet => occurrenceLoop t query snippet fuel 0
  .ok (rankCompletions t order (visits.flatten.flatMap Visit.completions))

end Completions

section Result

structure SuggestQuery where
  queryText : String
  count : ℕ
  docTypeFilter : List String
  docIdFilter : List DocId

structure SuggestHit where
  id : DocId
  snippet : String
  highlight : Highlight

structure SuggestResult where
  totalApprox : ℕ
  completions : List (List Char)
  hits : List SuggestHit

variable {V D : Type} [LinearOrder D]

/-- What a suggestion depends on besides the snapshot and the query. -/
structure SuggestEnv (D : Type) where
  table : CaseTable
  /-- The iteration orders of the two hash maps. -/
  docOrder : HashOrder (ChunkHit D)
  completionOrder : HashOrder (ℕ × List Char)

/-- Lance's full-text search, step by step. -/
structure FtsRun (D : Type) where
  setup : Except String Unit
  limit : Except String Unit
  stream : Except String Unit
  collect : Except String (List (ChunkHit D))

/-- The full-text search of a snapshot for a text, by the filter and the limit it is given. -/
abbrev FtsSearch (V D : Type) := Option (ChunkRow V → Bool) → ℕ → FtsRun D

def scanLimit (count : ℕ) : ℕ := min ((count + 1) % 2 ^ 64 * 5 % 2 ^ 64) 200

namespace SuggestEnv

variable (env : SuggestEnv D)

/-- The best chunk of each document, nearest first. -/
def sortedHits (chunkHits : List (ChunkHit D)) : List (ChunkHit D) :=
  let bestPerDoc := leastPerKey (fun hit => hit.docId) (fun hit : ChunkHit D => hit.distance)
    chunkHits
  (env.docOrder.run (bestPerDoc.entries.map Sigma.snd)).insertionSort
    fun a b => a.distance ≤ b.distance

def suggestHit (query : SuggestQuery) (hit : ChunkHit D) : Except Stop SuggestHit :=
  match findMatchAndNextWords env.table hit.content.toList
      (env.table.toLowercase query.queryText.toList) with
  | some highlight => .ok ⟨hit.docId, hit.content, highlight⟩
  | none => .error .panic

def buildSuggestResult (fuel : ℕ) (chunkHits : List (ChunkHit D)) (query : SuggestQuery) :
    Except Stop SuggestResult := do
  let sorted := env.sortedHits chunkHits
  let hits ← (sorted.take query.count).mapM (env.suggestHit query)
  let completions ← extractCompletions env.table env.completionOrder fuel query.queryText.toList
    ((sorted.take 5).map fun hit => hit.content.toList)
  .ok ⟨sorted.length, completions, hits⟩

end SuggestEnv

section Fallback

variable (table : CaseTable) (query : SuggestQuery) (rows : List (ChunkRow V))

/-- The text of a row has the query in it, in whatever case. -/
def hasQuery (r : ChunkRow V) : Bool :=
  (find (table.toLowercase query.queryText.toList) (table.toLowercase r.content.toList)).isSome

/-- The rows that have the query, of those that the scan delivers first. The filters are not
looked at. -/
def matchingRows : List (ChunkRow V) :=
  (rows.take (scanLimit query.count)).filter (hasQuery table query)

variable [Zero D]

/-- A match, at distance 0. -/
def matchHit (r : ChunkRow V) : ChunkHit D :=
  ⟨r.docId, 0, r.chunkIndex, r.chunkCount, r.chunkTokenStart, r.docTokenLen, r.content⟩

def substringSuggest (readError : Option StoreError) : Except StoreError (List (ChunkHit D)) :=
  match readError with
  | some e => .error e
  | none => .ok ((matchingRows table query rows).map matchHit)

/-- A failed fallback gives no hits. -/
def fallbackHits (readError : Option StoreError) : List (ChunkHit D) :=
  (substringSuggest table query rows readError).toOption.getD []

end Fallback

/-- The message says that there is no full-text index. -/
def missingIndex (msg : String) : Bool :=
  (find "INVERTED index".toList msg.toList).isSome ||
    (find "full text search".toList msg.toList).isSome

namespace SuggestEnv

variable [Zero D] (env : SuggestEnv D)

/-- The hits that the result is built of, or the error that is returned. -/
def suggestHits (fts : FtsRun D) (readError : Option StoreError) (query : SuggestQuery)
    (rows : List (ChunkRow V)) : Except StoreError (List (ChunkHit D)) :=
  match fts.setup, fts.limit with
  | .error e, _ => .error (.internal s!"suggest FTS setup failed: {e}" none)
  | .ok _, .error e => .error (.internal s!"suggest limit failed: {e}" none)
  | .ok _, .ok _ =>
    match fts.stream with
    | .error msg =>
      if missingIndex msg then .ok (fallbackHits env.table query rows readError)
      else .error (.internal s!"suggest stream failed: {msg}" none)
    | .ok _ =>
      match fts.collect with
      | .error msg =>
        if missingIndex msg then .ok (fallbackHits env.table query rows readError)
        else .error (.internal s!"suggest collect failed: {msg}" none)
      | .ok chunkHits =>
        if chunkHits.isEmpty ∧ query.queryText ≠ "" then
          .ok (fallbackHits env.table query rows readError)
        else .ok chunkHits

def ioSuggest (fuel : ℕ) (fts : FtsSearch V D) (readError : Option StoreError)
    (snapshot : Except StoreError (List (ChunkRow V))) (query : SuggestQuery) :
    Except Stop (Except StoreError SuggestResult) :=
  match snapshot with
  | .error e => .ok (.error e)
  | .ok rows =>
    match env.suggestHits (fts (buildFilterExpr query.docTypeFilter query.docIdFilter)
        (scanLimit query.count)) readError query rows with
    | .error e => .ok (.error e)
    | .ok chunkHits => (env.buildSuggestResult fuel chunkHits query).map .ok

end SuggestEnv

end Result

end Vectorlink
