import Mathlib.Data.List.DropRight

/-! Checked decoding of UTF-8, the white space of Unicode and the lines of a text. -/
namespace Text

/-- Where decoding stops: the bytes before `validUpTo` are valid. There is no `errorLen`
when the input ends inside a character. -/
structure Utf8Error where
  validUpTo : ℕ
  errorLen : Option ℕ
deriving DecidableEq, Repr

def Utf8Error.text (e : Utf8Error) : String :=
  match e.errorLen with
  | some n => s!"invalid utf-8 sequence of {n} bytes from index {e.validUpTo}"
  | none => s!"incomplete utf-8 byte sequence from index {e.validUpTo}"

/-- The length of a character from its first byte; 0 if no character starts with it. -/
def utf8CharWidth (first : ℕ) : ℕ :=
  if first < 0x80 then 1
  else if first < 0xC2 then 0
  else if first < 0xE0 then 2
  else if first < 0xF0 then 3
  else if first < 0xF5 then 4
  else 0

def isContinuation (b : ℕ) : Bool := 0x80 ≤ b && b ≤ 0xBF

/-- The second byte of a longer character: no overlong form, no surrogate, nothing past
U+10FFFF. -/
def isSecond (first second : ℕ) : Bool :=
  if first = 0xE0 then 0xA0 ≤ second && second ≤ 0xBF
  else if first = 0xED then 0x80 ≤ second && second ≤ 0x9F
  else if first = 0xF0 then 0x90 ≤ second && second ≤ 0xBF
  else if first = 0xF4 then 0x80 ≤ second && second ≤ 0x8F
  else isContinuation second

/-- The bits that the first byte leaves for the number, then six of each further byte. -/
def scalar (first : ℕ) (more : List ℕ) : Char :=
  Char.ofNat (more.foldl (fun n b => n * 64 + b % 64)
    (if more.isEmpty then first else first % (64 >>> more.length)))

/-- `seen` are the bytes of a character that is not complete yet; it begins at `start`. -/
def fromUtf8At : (start : ℕ) → (seen : List ℕ) → List UInt8 → Except Utf8Error (List Char)
  | start, seen, [] => if seen.isEmpty then .ok [] else .error ⟨start, none⟩
  | start, [], b :: bs =>
    match utf8CharWidth b.toNat with
    | 0 => .error ⟨start, some 1⟩
    | 1 => (fromUtf8At (start + 1) [] bs).map (scalar b.toNat [] :: ·)
    | _ => fromUtf8At start [b.toNat] bs
  | start, first :: more, b :: bs =>
    if (if more.isEmpty then isSecond first b.toNat else isContinuation b.toNat) then
      if more.length + 2 = utf8CharWidth first then
        (fromUtf8At (start + utf8CharWidth first) [] bs).map
          (scalar first (more ++ [b.toNat]) :: ·)
      else fromUtf8At start (first :: (more ++ [b.toNat])) bs
    else .error ⟨start, some (more.length + 1)⟩

def fromUtf8 (bytes : List UInt8) : Except Utf8Error (List Char) :=
  fromUtf8At 0 [] bytes

example : (fromUtf8 [0x61, 0xC3, 0xA9, 0xE2, 0x82, 0xAC, 0xF0, 0x9F, 0x8D, 0x80]).toOption =
    some ['a', 'é', '€', '🍀'] := by decide

example : fromUtf8 [0x61, 0xED, 0xA0, 0x80] = .error ⟨1, some 1⟩ := rfl

/-- The property White_Space. -/
def isWhitespace (c : Char) : Bool :=
  (9 ≤ c.toNat && c.toNat ≤ 13) || (0x2000 ≤ c.toNat && c.toNat ≤ 0x200A) ||
    [0x20, 0x85, 0xA0, 0x1680, 0x2028, 0x2029, 0x202F, 0x205F, 0x3000].contains c.toNat

def trim (s : List Char) : List Char := (s.dropWhile isWhitespace).rdropWhile isWhitespace

def stripCr (line : List Char) : List Char :=
  if line.getLast? = some '\r' then line.dropLast else line

/-- `str::lines`: a carriage return before a newline belongs to the line end, and after the
last newline there is a line only if there is text. -/
def lines (text : List Char) : List (List Char) :=
  let pieces := text.splitOn '\n'
  pieces.dropLast.map stripCr ++ pieces.getLast?.toList.filter fun line => !line.isEmpty

example : lines "a\r\n\nb\r\n".toList = ["a".toList, [], "b".toList] := by decide

theorem trim_concat_whitespace {c : Char} (hc : isWhitespace c) (s : List Char) :
    trim (s ++ [c]) = trim s := by
  unfold trim
  rw [List.dropWhile_append]
  split
  · rename_i hempty
    rw [List.isEmpty_iff] at hempty
    rw [hempty, List.dropWhile_cons_of_pos hc, List.dropWhile_nil]
  · exact List.rdropWhile_concat_pos _ _ _ hc

theorem trim_trim (s : List Char) : trim (trim s) = trim s := by
  have hfront : (trim s).dropWhile isWhitespace = trim s := by
    rw [List.dropWhile_eq_self_iff]
    intro hpos
    have hprefix : trim s <+: s.dropWhile isWhitespace := List.rdropWhile_prefix _ _
    have hhead := List.dropWhile_get_zero_not isWhitespace s (hpos.trans_le hprefix.length_le)
    rwa [List.get_eq_getElem, ← hprefix.getElem hpos] at hhead
  unfold trim at hfront ⊢
  rw [hfront, List.rdropWhile_idempotent]

theorem trim_stripCr (line : List Char) : trim (stripCr line) = trim line := by
  unfold stripCr
  split
  · rename_i hlast
    obtain ⟨init, rfl⟩ := List.getLast?_eq_some_iff.mp hlast
    rw [List.dropLast_concat, trim_concat_whitespace (by decide)]
  · rfl

/-- What a valid first part contributes does not depend on what follows it. -/
theorem fromUtf8At_append {a : List UInt8} {s : List Char} {start : ℕ} {seen : List ℕ}
    (h : fromUtf8At start seen a = .ok s) (b : List UInt8) :
    ∃ start', fromUtf8At start seen (a ++ b) = (fromUtf8At start' [] b).map (s ++ ·) := by
  induction a generalizing start seen s with
  | nil =>
    unfold fromUtf8At at h
    split at h
    · rename_i hseen
      rw [List.isEmpty_iff] at hseen
      obtain rfl := Except.ok.inj h
      refine ⟨start, ?_⟩
      rw [hseen, List.nil_append]
      cases fromUtf8At start [] b <;> rfl
    · cases h
  | cons c a ih =>
    have hmap : ∀ {start} {d : Char}, (fromUtf8At start [] a).map (d :: ·) = .ok s →
        ∃ start', (fromUtf8At start [] (a ++ b)).map (d :: ·) =
          (fromUtf8At start' [] b).map (s ++ ·) := by
      intro start d hd
      cases ha : fromUtf8At start [] a with
      | error e =>
        rw [ha] at hd
        cases hd
      | ok s' =>
        rw [ha] at hd
        obtain rfl := Except.ok.inj hd
        obtain ⟨start', hstart'⟩ := ih ha
        refine ⟨start', ?_⟩
        rw [hstart']
        cases fromUtf8At start' [] b <;> rfl
    rw [List.cons_append]
    cases seen with
    | nil =>
      rw [fromUtf8At] at h ⊢
      split at h
      · cases h
      · exact hmap h
      · exact ih h
    | cons first more =>
      rw [fromUtf8At] at h ⊢
      by_cases hvalid :
          (if more.isEmpty then isSecond first c.toNat else isContinuation c.toNat) = true
      · rw [if_pos hvalid] at h ⊢
        split at h
        · rename_i hwidth
          rw [if_pos hwidth]
          exact hmap h
        · rename_i hwidth
          rw [if_neg hwidth]
          exact ih h
      · rw [if_neg hvalid] at h
        cases h

/-- Where the input stands in the whole matters only for errors. -/
theorem toOption_fromUtf8At (start start' : ℕ) (seen : List ℕ) (bytes : List UInt8) :
    (fromUtf8At start seen bytes).toOption = (fromUtf8At start' seen bytes).toOption := by
  have hmap : ∀ (x : Except Utf8Error (List Char)) (d : Char),
      (x.map (d :: ·)).toOption = x.toOption.map (d :: ·) := by
    intro x d
    cases x <;> rfl
  induction bytes generalizing start start' seen with
  | nil =>
    unfold fromUtf8At
    split <;> rfl
  | cons c bytes ih =>
    cases seen with
    | nil =>
      rw [fromUtf8At, fromUtf8At]
      split
      · rfl
      · rw [hmap, hmap, ih]
      · exact ih ..
    | cons first more =>
      rw [fromUtf8At, fromUtf8At]
      by_cases hvalid :
          (if more.isEmpty then isSecond first c.toNat else isContinuation c.toNat) = true
      · rw [if_pos hvalid, if_pos hvalid]
        split
        · rw [hmap, hmap, ih]
        · exact ih ..
      · rw [if_neg hvalid, if_neg hvalid]
        rfl

/-- A valid text cut after valid bytes is valid behind the cut. -/
theorem fromUtf8_of_append {a b : List UInt8} {s text : List Char} (ha : fromUtf8 a = .ok s)
    (h : fromUtf8 (a ++ b) = .ok text) : ∃ rest, fromUtf8 b = .ok rest ∧ text = s ++ rest := by
  obtain ⟨start, hstart⟩ := fromUtf8At_append ha b
  have hwhole := hstart.symm.trans h
  cases hb : fromUtf8At start [] b with
  | error e =>
    rw [hb] at hwhole
    cases hwhole
  | ok rest =>
    rw [hb] at hwhole
    have hoption := toOption_fromUtf8At 0 start [] b
    rw [hb] at hoption
    refine ⟨rest, ?_, (Except.ok.inj hwhole).symm⟩
    unfold fromUtf8
    cases h0 : fromUtf8At 0 [] b with
    | error e =>
      rw [h0] at hoption
      cases hoption
    | ok rest' =>
      rw [h0] at hoption
      exact congrArg _ (Option.some.inj hoption)

end Text
