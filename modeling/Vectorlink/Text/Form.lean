import Mathlib.Data.List.TakeWhile
import Vectorlink.Text.Bytes

/-! The `application/x-www-form-urlencoded` format: writing one string, reading pairs. -/
namespace Text

/-- `String::from_utf8_lossy`, after the valid case: each maximal ill-formed part becomes one
replacement character. -/
def illFormedLength : List UInt8 → ℕ
  | b :: c :: rest =>
    let continues (x : UInt8) : Bool := decide (128 ≤ x ∧ x ≤ 191)
    let second : Bool :=
      if b = 224 then decide (160 ≤ c ∧ c ≤ 191)
      else if b = 237 then decide (128 ≤ c ∧ c ≤ 159)
      else if b = 240 then decide (144 ≤ c ∧ c ≤ 191)
      else if b = 244 then decide (128 ≤ c ∧ c ≤ 143)
      else decide (225 ≤ b ∧ b ≤ 243) && continues c
    if !second then 1
    else if 240 ≤ b ∧ (rest.head?.any continues) then 3 else 2
  | _ => 1

/-- The first character of well-formed text and the bytes after it. -/
def firstChar? (bs : List UInt8) : Option (Char × List UInt8) :=
  [1, 2, 3, 4].findSome? fun n =>
    (ofBytes? (bs.take n)).bind fun s => s.toList.head?.map fun c => (c, bs.drop n)

/-- `fuel` bounds the number of characters. -/
def repair : ℕ → List UInt8 → List Char
  | 0, _ => []
  | _, [] => []
  | fuel + 1, bs =>
    match firstChar? bs with
    | some (c, rest) => c :: repair fuel rest
    | none => '\uFFFD' :: repair fuel (bs.drop (illFormedLength bs))

def fromUtf8Lossy (bs : List UInt8) : String :=
  (ofBytes? bs).getD (String.ofList (repair bs.length bs))

/-- Uppercase, as in a percent escape. -/
def upperDigit (n : ℕ) : Char := (Nat.digitChar n).toUpper

/-- The bytes that are written as they are. -/
def unreserved (b : UInt8) : Bool :=
  (Char.ofNat b.toNat).isAlphanum || b = 42 || b = 45 || b = 46 || b = 95

def serializeByte (b : UInt8) : List Char :=
  if unreserved b then [Char.ofNat b.toNat]
  else if b = 32 then ['+']
  else ['%', upperDigit (b.toNat / 16), upperDigit (b.toNat % 16)]

/-- `byte_serialize`. -/
def byteSerialize (s : String) : List Char := (bytes s).flatMap serializeByte

def replacePlus (bs : List UInt8) : List UInt8 := bs.map fun b => if b = 43 then 32 else b

/-- An escape that is not followed by two digits stays as it is. -/
def percentDecode : List UInt8 → List UInt8
  | [] => []
  | b :: bs =>
    if b = 37 then
      match bs with
      | h :: l :: rest =>
        match hexDigit? h, hexDigit? l with
        | some x, some y => UInt8.ofNat (16 * x + y) :: percentDecode rest
        | _, _ => 37 :: percentDecode (h :: l :: rest)
      | bs => 37 :: percentDecode bs
    else b :: percentDecode bs

def decodeComponent (bs : List UInt8) : String := fromUtf8Lossy (percentDecode (replacePlus bs))

/-- `parse`: pairs are separated by `&`, key and value by the first `=`. -/
def formParse (input : List UInt8) : List (String × String) :=
  ((input.splitOn 38).filter (!·.isEmpty)).map fun sequence =>
    (decodeComponent (sequence.takeWhile (· != 61)),
      decodeComponent ((sequence.dropWhile (· != 61)).drop 1))

section Bytes

def serializedByte (b : UInt8) : List UInt8 := (serializeByte b).map fun c => c.val.toUInt8

theorem serializeByte_ascii (b : UInt8) : ∀ c ∈ serializeByte b, c.toNat < 128 := by
  apply forall_mem_byte
  decide +kernel

theorem serializedByte_plain (b : UInt8) : ∀ x ∈ serializedByte b, x ≠ 38 ∧ x ≠ 61 := by
  apply forall_mem_byte
  decide +kernel

def upperByte (n : ℕ) : UInt8 := (upperDigit n).val.toUInt8

theorem replacePlus_serializedByte (b : UInt8) :
    replacePlus (serializedByte b) =
      if unreserved b || b = 32 then [b]
      else [37, upperByte (b.toNat / 16), upperByte (b.toNat % 16)] := by
  revert b
  apply forall_byte
  decide +kernel

theorem ne_percent_of_plain (b : UInt8) (h : (unreserved b || decide (b = 32)) = true) : b ≠ 37 := by
  revert b
  apply forall_byte
  decide +kernel

theorem hexDigit?_upperByte : ∀ n < 16, hexDigit? (upperByte n) = some n := by decide

/-- `95` is written by no other byte than itself. -/
theorem mem_serializeByte_underscore (b : UInt8) : '_' ∈ serializeByte b → b = 95 := by
  revert b
  apply forall_byte
  decide +kernel

end Bytes

section RoundTrip

theorem percentDecode_escape (b : UInt8) (rest : List UInt8) :
    percentDecode (37 :: upperByte (b.toNat / 16) :: upperByte (b.toNat % 16) :: rest) =
      b :: percentDecode rest := by
  have hlt := UInt8.toNat_lt b
  have hvalue : 16 * (b.toNat / 16) + b.toNat % 16 = b.toNat := by omega
  simp only [percentDecode, if_true, hexDigit?_upperByte _ (show b.toNat / 16 < 16 by omega),
    hexDigit?_upperByte _ (show b.toNat % 16 < 16 by omega), hvalue, UInt8.ofNat_toNat]

theorem percentDecode_of_ne {b : UInt8} (h : b ≠ 37) (rest : List UInt8) :
    percentDecode (b :: rest) = b :: percentDecode rest := by
  rcases rest with _ | ⟨x, _ | ⟨y, rest⟩⟩ <;> simp only [percentDecode, if_neg h]

theorem percentDecode_serializedByte (b : UInt8) (rest : List UInt8) :
    percentDecode (replacePlus (serializedByte b) ++ rest) = b :: percentDecode rest := by
  rw [replacePlus_serializedByte]
  split
  · rename_i h
    exact percentDecode_of_ne (ne_percent_of_plain b h) rest
  · exact percentDecode_escape b rest

theorem percentDecode_flatMap (bs : List UInt8) :
    percentDecode (replacePlus (bs.flatMap serializedByte)) = bs := by
  induction bs with
  | nil => rfl
  | cons b bs ih =>
    have happend : replacePlus ((b :: bs).flatMap serializedByte) =
        replacePlus (serializedByte b) ++ replacePlus (bs.flatMap serializedByte) := by
      rw [List.flatMap_cons, replacePlus, List.map_append]
      rfl
    rw [happend, percentDecode_serializedByte, ih]

theorem bytes_byteSerialize (s : String) :
    bytes (String.ofList (byteSerialize s)) = (bytes s).flatMap serializedByte := by
  have hascii : ∀ c ∈ byteSerialize s, c.toNat < 128 := by
    intro c hc
    obtain ⟨b, -, hb⟩ := List.mem_flatMap.mp hc
    exact serializeByte_ascii b c hb
  rw [bytes_ofList_ascii hascii, byteSerialize, List.map_flatMap]
  rfl

@[simp] theorem decodeComponent_serialize (s : String) :
    decodeComponent ((bytes s).flatMap serializedByte) = s := by
  rw [decodeComponent, percentDecode_flatMap, fromUtf8Lossy, ofBytes?_bytes]
  rfl

theorem byteSerialize_inj {s t : String} (h : byteSerialize s = byteSerialize t) : s = t := by
  have hbytes := congrArg (fun l => bytes (String.ofList l)) h
  simp only [bytes_byteSerialize] at hbytes
  rw [← decodeComponent_serialize s, hbytes, decodeComponent_serialize]

/-- What was written as one key is read as that key. -/
theorem formParse_byteSerialize {s : String} (hs : s ≠ "") :
    formParse (bytes (String.ofList (byteSerialize s))) = [(s, "")] := by
  have hplain : ∀ x ∈ (bytes s).flatMap serializedByte, x ≠ 38 ∧ x ≠ 61 := by
    intro x hx
    obtain ⟨b, -, hb⟩ := List.mem_flatMap.mp hx
    exact serializedByte_plain b x hb
  have hne : (bytes s).flatMap serializedByte ≠ [] := by
    intro hnil
    apply hs
    rw [← decodeComponent_serialize s, hnil]
    rfl
  have hsplit : ((bytes s).flatMap serializedByte).splitOn 38 = [(bytes s).flatMap serializedByte] :=
    List.splitOn_eq_singleton fun hmem => (hplain 38 hmem).1 rfl
  have hall : ∀ x ∈ (bytes s).flatMap serializedByte, (x != 61) = true := by
    intro x hx
    simpa using (hplain x hx).2
  have hempty : (!((bytes s).flatMap serializedByte).isEmpty) = true := by simpa using hne
  rw [bytes_byteSerialize, formParse, hsplit]
  simp only [List.filter_cons, hempty, if_true, List.filter_nil, List.map_cons, List.map_nil]
  rw [List.takeWhile_eq_self_iff.mpr hall, List.dropWhile_eq_nil_iff.mpr hall,
    decodeComponent_serialize]
  rfl

end RoundTrip

section Chars

/-- `byte_serialize`, one character at a time. -/
def serializeChar (c : Char) : List Char := (String.utf8EncodeChar c).flatMap serializeByte

theorem byteSerialize_eq (s : String) : byteSerialize s = s.toList.flatMap serializeChar := by
  have hs : bytes s = s.toList.flatMap String.utf8EncodeChar := by
    rw [← bytes_ofList, String.ofList_toList]
  rw [byteSerialize, hs, List.flatMap_assoc]
  rfl

theorem ascii_of_mem_utf8EncodeChar {c : Char} {b : UInt8} (hb : b ∈ String.utf8EncodeChar c)
    (hlt : b.toNat < 128) : c.toNat = b.toNat := by
  unfold String.utf8EncodeChar at hb
  dsimp only at hb
  have hhigh : ∀ n : ℕ, 128 ≤ n → n < 256 → b = UInt8.ofNat n → False := by
    intro n hn hn' rfl
    rw [UInt8.toNat_ofNat_of_lt' (by simpa [UInt8.size] using hn')] at hlt
    omega
  split_ifs at hb with h1 h2 h3 <;>
    simp only [List.mem_cons, List.not_mem_nil, or_false] at hb
  · rw [hb, UInt8.toNat_ofNat_of_lt' (by simp only [UInt8.size]; omega)]
    rfl
  · rcases hb with hb | hb
    · exact (hhigh _ (by omega) (by omega) hb).elim
    · exact (hhigh _ (by omega) (by omega) hb).elim
  · rcases hb with hb | hb | hb
    · exact (hhigh _ (by omega) (by omega) hb).elim
    · exact (hhigh _ (by omega) (by omega) hb).elim
    · exact (hhigh _ (by omega) (by omega) hb).elim
  · rcases hb with hb | hb | hb | hb
    · exact (hhigh _ (by omega) (by omega) hb).elim
    · exact (hhigh _ (by omega) (by omega) hb).elim
    · exact (hhigh _ (by omega) (by omega) hb).elim
    · exact (hhigh _ (by omega) (by omega) hb).elim

theorem underscore_notMem_serializeChar {c : Char} (h : c ≠ '_') : '_' ∉ serializeChar c := by
  intro hmem
  obtain ⟨b, hb, hin⟩ := List.mem_flatMap.mp hmem
  obtain rfl := mem_serializeByte_underscore b hin
  have hnat := ascii_of_mem_utf8EncodeChar hb (by decide)
  exact h (Char.toNat_inj.mp hnat)

end Chars

end Text
