import Mathlib.Data.List.Basic

/-! Strings as their UTF-8 bytes, and bytes as hexadecimal digits. -/
namespace Text

theorem toList_loop (b : ByteArray) (i : ℕ) (r : List UInt8) :
    ByteArray.toList.loop b i r = r.reverse ++ b.data.toList.drop i := by
  fun_induction ByteArray.toList.loop b i r with
  | case1 i r h ih =>
    have hi : i < b.data.toList.length := by simpa using h
    have hget : b.get! i = b.data.toList[i] := by
      have harray : b.get! i = b.data[i]! := by cases b; rfl
      rw [harray, getElem!_pos b.data i h, Array.getElem_toList]
    rw [ih, List.drop_eq_getElem_cons hi, hget]
    simp
  | case2 i r h =>
    have hi : b.data.toList.length ≤ i := by simpa using h
    rw [List.drop_eq_nil_of_le hi, List.append_nil]

theorem toList_eq (b : ByteArray) : b.toList = b.data.toList := by
  rw [ByteArray.toList, toList_loop]
  rfl

def bytes (s : String) : List UInt8 := s.toByteArray.data.toList

/-- The string with these bytes, if they are valid. -/
def ofBytes? (bs : List UInt8) : Option String := String.fromUTF8? bs.toByteArray

theorem toUTF8_toList (s : String) : s.toUTF8.toList = bytes s := toList_eq _

theorem bytes_toByteArray (s : String) : (bytes s).toByteArray = s.toByteArray := by
  apply ByteArray.ext
  rw [List.data_toByteArray, bytes, Array.toArray_toList]

theorem bytes_inj {s t : String} : bytes s = bytes t ↔ s = t := by
  constructor
  · intro h
    rw [← String.toByteArray_inj, ← bytes_toByteArray, h, bytes_toByteArray]
  · rintro rfl
    rfl

theorem ofBytes?_eq_some {bs : List UInt8} {s : String} : ofBytes? bs = some s ↔ bs = bytes s := by
  unfold ofBytes? String.fromUTF8?
  constructor
  · intro h
    split at h
    · have hs := congrArg String.toByteArray (Option.some.inj h)
      rw [← List.toByteArray_inj, bytes_toByteArray, ← hs]
      rfl
    · cases h
  · rintro rfl
    rw [bytes_toByteArray, dif_pos s.isValidUTF8]
    rfl

@[simp] theorem ofBytes?_bytes (s : String) : ofBytes? (bytes s) = some s :=
  ofBytes?_eq_some.mpr rfl

theorem bytes_ofList (l : List Char) : bytes (String.ofList l) = l.flatMap String.utf8EncodeChar := by
  rw [bytes, String.toByteArray_ofList, List.utf8Encode, List.data_toByteArray]

/-- An ASCII character is its own single byte. -/
theorem utf8EncodeChar_ascii {c : Char} (h : c.toNat < 128) :
    String.utf8EncodeChar c = [c.val.toUInt8] := by
  apply String.utf8EncodeChar_eq_singleton
  rw [Char.utf8Size_eq_one_iff]
  have hle : c.val.toNat ≤ 127 := by
    have hval : c.val.toNat = c.toNat := rfl
    omega
  exact UInt32.le_iff_toNat_le.mpr hle

theorem bytes_ofList_ascii {l : List Char} (h : ∀ c ∈ l, c.toNat < 128) :
    bytes (String.ofList l) = l.map fun c => c.val.toUInt8 := by
  rw [bytes_ofList]
  induction l with
  | nil => rfl
  | cons c l ih =>
    rw [List.flatMap_cons, utf8EncodeChar_ascii (h c List.mem_cons_self),
      ih fun x hx => h x (List.mem_cons_of_mem _ hx)]
    rfl

/-- What is checked of 256 numbers holds of every byte. -/
theorem forall_byte {p : UInt8 → Prop} [DecidablePred p]
    (h : ((List.range 256).all fun n => decide (p (UInt8.ofNat n))) = true) (b : UInt8) : p b := by
  have hmem : b.toNat ∈ List.range 256 := List.mem_range.mpr (UInt8.toNat_lt b)
  have hb := of_decide_eq_true (List.all_eq_true.mp h b.toNat hmem)
  rwa [UInt8.ofNat_toNat] at hb

/-- The same for all that each byte is written as. -/
theorem forall_mem_byte {α : Type} {f : UInt8 → List α} {p : α → Prop} [DecidablePred p]
    (h : ((List.range 256).all fun n => (f (UInt8.ofNat n)).all fun x => decide (p x)) = true)
    (b : UInt8) : ∀ x ∈ f b, p x := by
  have hall : ∀ b, ((f b).all fun x => decide (p x)) = true := forall_byte (by simpa using h)
  intro x hx
  exact of_decide_eq_true (List.all_eq_true.mp (hall b) x hx)

/-- The value of a hexadecimal digit of either case. -/
def hexDigit? (b : UInt8) : Option ℕ :=
  if 48 ≤ b.toNat ∧ b.toNat ≤ 57 then some (b.toNat - 48)
  else if 97 ≤ b.toNat ∧ b.toNat ≤ 102 then some (b.toNat - 87)
  else if 65 ≤ b.toNat ∧ b.toNat ≤ 70 then some (b.toNat - 55)
  else none

end Text
