import Vectorlink.Layeridx
import Vectorlink.Text.Bytes
import Vectorlink.Text.Utf8

/-! Commit ids as tag names and back. The encoder has one spelling for each byte, the
decoder accepts more of them. -/
namespace Vectorlink

open Text

inductive LayerIdxError where
  | internal (message : String)
  | decodeError (message : String)
deriving DecidableEq, Repr

def dash : UInt8 := 45

/-- `u8::from_str_radix` on two characters: a plus sign may stand for the first digit. -/
def fromStrRadix16 (h l : UInt8) : Option UInt8 :=
  if h = 43 then (hexDigit? l).map UInt8.ofNat
  else
    match hexDigit? h, hexDigit? l with
    | some x, some y => some (UInt8.ofNat (16 * x + y))
    | _, _ => none

def hexEscape (i : ℕ) (h l : UInt8) : Except LayerIdxError UInt8 :=
  match ofBytes? [h, l] with
  | none => .error (.decodeError s!"invalid UTF-8 in hex at position {i}")
  | some hexStr =>
    match fromStrRadix16 h l with
    | none => .error (.decodeError s!"invalid hex '{hexStr}' at position {i}")
    | some byteVal => .ok byteVal

/-- The loop of the decoder, `i` bytes into the name. -/
def decodeBytes (i : ℕ) : List UInt8 → Except LayerIdxError (List UInt8)
  | [] => .ok []
  | b :: bs =>
    if b = dash then
      match bs with
      | [] => .error (.decodeError s!"truncated escape at position {i}")
      | h :: bs =>
        if h = dash then (decodeBytes (i + 2) bs).map (dash :: ·)
        else
          match bs with
          | [] => .error (.decodeError s!"truncated hex escape at position {i}")
          | l :: bs => (hexEscape i h l).bind fun byteVal =>
              (decodeBytes (i + 3) bs).map (byteVal :: ·)
    else (decodeBytes (i + 1) bs).map (b :: ·)

/-- Where the bytes stop being UTF-8. -/
def utf8Detail (out : List UInt8) : String :=
  match fromUtf8 out with
  | .ok _ => ""
  | .error e => e.text

/-- The prefix is `c_`. -/
def decodeCommitTag (tag : String) : Except LayerIdxError CommitId :=
  match bytes tag with
  | 99 :: 95 :: s =>
    (decodeBytes 0 s).bind fun out =>
      match ofBytes? out with
      | some commit => .ok commit
      | none => .error (.decodeError s!"decoded bytes not valid UTF-8: {utf8Detail out}")
  | _ => .error (.decodeError "missing 'c_' prefix")

/-- The bytes that the encoder leaves as they are. -/
def verbatim (b : UInt8) : Bool := (Char.ofNat b.toNat).isAlphanum || Char.ofNat b.toNat = '_'

/-- The digits that the encoder writes. -/
def isLowerHex (b : UInt8) : Bool :=
  (decide (48 ≤ b.toNat) && decide (b.toNat ≤ 57)) ||
    (decide (97 ≤ b.toNat) && decide (b.toNat ≤ 102))

/-- The spelling of a tag name after its prefix that the encoder uses: bytes are escaped
only when they have to be, with lowercase digits. -/
def canonicalBytes : List UInt8 → Bool
  | [] => true
  | b :: bs =>
    if b = dash then
      match bs with
      | [] => false
      | h :: bs =>
        if h = dash then canonicalBytes bs
        else
          match bs with
          | [] => false
          | l :: bs =>
            isLowerHex h && isLowerHex l &&
              (fromStrRadix16 h l).any (fun v => !verbatim v && v != dash) && canonicalBytes bs
    else verbatim b && canonicalBytes bs

def CanonicalTag (tag : String) : Prop :=
  ∃ body, bytes tag = 99 :: 95 :: body ∧ canonicalBytes body = true

section Encode

/-- The bytes that one byte of a commit id is encoded to. -/
def encodedByte (b : UInt8) : List UInt8 := (encodeByte b).map fun c => c.val.toUInt8

def digitByte (n : ℕ) : UInt8 := (Nat.digitChar n).val.toUInt8

theorem encodeByte_allowed (b : UInt8) :
    ∀ c ∈ encodeByte b, (c.isAlphanum ∨ c = '_' ∨ c = '-') ∧ c.toNat < 128 := by
  apply forall_mem_byte
  decide +kernel

theorem tagPrefix_allowed :
    ∀ c ∈ "c_".toList, (c.isAlphanum ∨ c = '_' ∨ c = '-') ∧ c.toNat < 128 := by
  have hall : ("c_".toList.all fun c =>
      decide ((c.isAlphanum ∨ c = '_' ∨ c = '-') ∧ c.toNat < 128)) = true := by decide
  intro c hc
  exact of_decide_eq_true (List.all_eq_true.mp hall c hc)

theorem encodedByte_eq (b : UInt8) : encodedByte b =
    if b = dash then [dash, dash] else if verbatim b then [b]
    else [dash, digitByte (b.toNat / 16), digitByte (b.toNat % 16)] := by
  revert b
  apply forall_byte
  decide +kernel

theorem bytes_encodeCommitTag (c : CommitId) :
    bytes (encodeCommitTag c) = 99 :: 95 :: (bytes c).flatMap encodedByte := by
  have hascii : ∀ x ∈ "c_".toList ++ (bytes c).flatMap encodeByte, x.toNat < 128 := by
    intro x hx
    rcases List.mem_append.mp hx with hx | hx
    · exact (tagPrefix_allowed x hx).2
    · obtain ⟨b, -, hb⟩ := List.mem_flatMap.mp hx
      exact (encodeByte_allowed b x hb).2
  rw [encodeCommitTag, toUTF8_toList, bytes_ofList_ascii hascii, List.map_append, List.map_flatMap]
  rfl

end Encode

section Decode

variable {i : ℕ} {body out : List UInt8}

theorem digitByte_spec : ∀ n < 16, hexDigit? (digitByte n) = some n ∧ digitByte n ≠ 43 ∧
    digitByte n ≠ dash ∧ digitByte n < 128 ∧ isLowerHex (digitByte n) = true := by
  decide

theorem digitByte_hexDigit? (b : UInt8) (n : ℕ) (h : hexDigit? b = some n) :
    n < 16 ∧ (digitByte n = b ↔ isLowerHex b = true) := by
  have hall : ∀ b : UInt8, ∀ n ∈ hexDigit? b, n < 16 ∧ (digitByte n = b ↔ isLowerHex b = true) := by
    apply forall_byte
    decide +kernel
  exact hall b n h

/-- Two ASCII bytes are a valid string. -/
theorem ofBytes?_pair_isSome {h l : UInt8} (hh : h < 128) (hl : l < 128) :
    (ofBytes? [h, l]).isSome := by
  have hchar : ∀ b : UInt8, b < 128 → (Char.ofNat b.toNat).toNat < 128 ∧
      (Char.ofNat b.toNat).val.toUInt8 = b := by
    apply forall_byte
    decide +kernel
  have hbytes : bytes (String.ofList [Char.ofNat h.toNat, Char.ofNat l.toNat]) = [h, l] := by
    rw [bytes_ofList_ascii]
    · simp only [List.map_cons, List.map_nil, (hchar h hh).2, (hchar l hl).2]
    · intro c hc
      rcases List.mem_cons.mp hc with rfl | hc
      · exact (hchar h hh).1
      · rw [List.mem_singleton.mp hc]
        exact (hchar l hl).1
  rw [← hbytes, ofBytes?_bytes]
  rfl

/-- The escape of a byte reads back as that byte. -/
theorem hexEscape_digits (i : ℕ) (b : UInt8) :
    hexEscape i (digitByte (b.toNat / 16)) (digitByte (b.toNat % 16)) = .ok b := by
  have hlt := UInt8.toNat_lt b
  obtain ⟨hx, hplus, -, hx128, -⟩ := digitByte_spec (b.toNat / 16) (by omega)
  obtain ⟨hy, -, -, hy128, -⟩ := digitByte_spec (b.toNat % 16) (by omega)
  obtain ⟨text, htext⟩ := Option.isSome_iff_exists.mp (ofBytes?_pair_isSome hx128 hy128)
  have hvalue : 16 * (b.toNat / 16) + b.toNat % 16 = b.toNat := by omega
  simp only [hexEscape, htext, fromStrRadix16, if_neg hplus, hx, hy, hvalue, UInt8.ofNat_toNat]

theorem decodeBytes_dash_dash (i : ℕ) (bs : List UInt8) :
    decodeBytes i (dash :: dash :: bs) = (decodeBytes (i + 2) bs).map (dash :: ·) := by
  cases bs <;> rfl

theorem decodeBytes_escape (i : ℕ) {h : UInt8} (hh : h ≠ dash) (l : UInt8) (bs : List UInt8) :
    decodeBytes i (dash :: h :: l :: bs) =
      (hexEscape i h l).bind fun v => (decodeBytes (i + 3) bs).map (v :: ·) := by
  simp only [decodeBytes, if_true, if_neg hh]

theorem decodeBytes_of_ne (i : ℕ) {b : UInt8} (hb : b ≠ dash) (bs : List UInt8) :
    decodeBytes i (b :: bs) = (decodeBytes (i + 1) bs).map (b :: ·) := by
  rcases bs with _ | ⟨h, _ | ⟨l, bs⟩⟩ <;> simp only [decodeBytes, if_neg hb]

theorem decodeBytes_encodedByte (i : ℕ) (b : UInt8) (bs : List UInt8) :
    ∃ n, decodeBytes i (encodedByte b ++ bs) = (decodeBytes (i + n) bs).map (b :: ·) := by
  rw [encodedByte_eq]
  split
  · rename_i hb
    rw [hb]
    exact ⟨2, decodeBytes_dash_dash i bs⟩
  · rename_i hb
    split
    · exact ⟨1, decodeBytes_of_ne i hb bs⟩
    · have hlt := UInt8.toNat_lt b
      have hdash := (digitByte_spec (b.toNat / 16) (by omega)).2.2.1
      have hdecode := decodeBytes_escape i hdash (digitByte (b.toNat % 16)) bs
      rw [hexEscape_digits] at hdecode
      exact ⟨3, hdecode⟩

theorem decodeBytes_flatMap (i : ℕ) (bs : List UInt8) :
    decodeBytes i (bs.flatMap encodedByte) = .ok bs := by
  induction bs generalizing i with
  | nil => rfl
  | cons b bs ih =>
    obtain ⟨n, hn⟩ := decodeBytes_encodedByte i b (bs.flatMap encodedByte)
    rw [List.flatMap_cons, hn, ih]
    rfl

theorem hexEscape_ok {h l v : UInt8} (hv : hexEscape i h l = .ok v) :
    fromStrRadix16 h l = some v := by
  unfold hexEscape at hv
  split at hv
  · cases hv
  · split at hv
    · cases hv
    · rename_i hsome
      rw [hsome, Except.ok.inj hv]

/-- What a name can look like that is decoded, one spelling at a time. -/
theorem decodeBytes_cons {b : UInt8} {bs : List UInt8} (h : decodeBytes i (b :: bs) = .ok out) :
    (b = dash ∧ ∃ bs' out', bs = dash :: bs' ∧ out = dash :: out' ∧
      decodeBytes (i + 2) bs' = .ok out') ∨
    (b = dash ∧ ∃ x y bs' v out', bs = x :: y :: bs' ∧ x ≠ dash ∧ fromStrRadix16 x y = some v ∧
      out = v :: out' ∧ decodeBytes (i + 3) bs' = .ok out') ∨
    (b ≠ dash ∧ ∃ out', out = b :: out' ∧ decodeBytes (i + 1) bs = .ok out') := by
  have hmap : ∀ {v : UInt8} {r : Except LayerIdxError (List UInt8)}, r.map (v :: ·) = .ok out →
      ∃ out', out = v :: out' ∧ r = .ok out' := by
    intro v r hr
    cases r with
    | error e => cases hr
    | ok out' => exact ⟨out', (Except.ok.inj hr).symm, rfl⟩
  by_cases hb : b = dash
  · subst hb
    rcases bs with _ | ⟨x, bs⟩
    · simp [decodeBytes] at h
    · by_cases hx : x = dash
      · subst hx
        rw [decodeBytes_dash_dash] at h
        obtain ⟨out', hout, hrest⟩ := hmap h
        exact .inl ⟨rfl, bs, out', rfl, hout, hrest⟩
      · rcases bs with _ | ⟨y, bs⟩
        · simp [decodeBytes, hx] at h
        · rw [decodeBytes_escape i hx] at h
          cases hv : hexEscape i x y with
          | error e =>
            rw [hv] at h
            cases h
          | ok v =>
            rw [hv] at h
            obtain ⟨out', hout, hrest⟩ := hmap h
            exact .inr (.inl ⟨rfl, x, y, bs, v, out', rfl, hx, hexEscape_ok hv, hout, hrest⟩)
  · rw [decodeBytes_of_ne i hb] at h
    obtain ⟨out', hout, hrest⟩ := hmap h
    exact .inr (.inr ⟨hb, out', hout, hrest⟩)

/-- The digits are those that the encoder writes for their byte when they are lowercase. -/
theorem digitByte_fromStrRadix16 {x y v : UInt8} (hv : fromStrRadix16 x y = some v) :
    (digitByte (v.toNat / 16) = x ∧ digitByte (v.toNat % 16) = y) ↔
      isLowerHex x = true ∧ isLowerHex y = true := by
  have hlt := UInt8.toNat_lt v
  unfold fromStrRadix16 at hv
  split at hv
  · rename_i hplus
    have hne := (digitByte_spec (v.toNat / 16) (by omega)).2.1
    subst hplus
    have hlower : isLowerHex 43 = false := by decide
    simp [hne, hlower]
  · split at hv
    · rename_i m n hm hn
      obtain ⟨hm16, hx⟩ := digitByte_hexDigit? x m hm
      obtain ⟨hn16, hy⟩ := digitByte_hexDigit? y n hn
      have hnat : v.toNat = 16 * m + n := by
        rw [← Option.some.inj hv, UInt8.toNat_ofNat_of_lt']
        simp only [UInt8.size]
        omega
      have hdiv : v.toNat / 16 = m := by omega
      have hmod : v.toNat % 16 = n := by omega
      rw [hdiv, hmod, hx, hy]
    · cases hv

theorem canonicalBytes_escape {x y v : UInt8} (hx : x ≠ dash) (hv : fromStrRadix16 x y = some v)
    (bs : List UInt8) : canonicalBytes (dash :: x :: y :: bs) = true ↔
      ((isLowerHex x = true ∧ isLowerHex y = true) ∧ verbatim v = false ∧ v ≠ dash) ∧
        canonicalBytes bs = true := by
  simp only [canonicalBytes, if_true, if_neg hx, hv, Option.any_some, Bool.and_eq_true,
    Bool.not_eq_true', bne_iff_ne]

theorem canonicalBytes_of_ne {b : UInt8} (hb : b ≠ dash) (bs : List UInt8) :
    canonicalBytes (b :: bs) = (verbatim b && canonicalBytes bs) := by
  rcases bs with _ | ⟨x, _ | ⟨y, bs⟩⟩ <;> simp only [canonicalBytes, if_neg hb]

theorem encodedByte_append_escape {x y v : UInt8} (hx : x ≠ dash)
    (hv : fromStrRadix16 x y = some v) (bs bs' : List UInt8) :
    encodedByte v ++ bs' = dash :: x :: y :: bs ↔
      ((isLowerHex x = true ∧ isLowerHex y = true) ∧ verbatim v = false ∧ v ≠ dash) ∧ bs' = bs := by
  rw [← digitByte_fromStrRadix16 hv, encodedByte_eq]
  split
  · rename_i hdash
    simp [hdash, Ne.symm hx]
  · rename_i hdash
    split
    · rename_i hverbatim
      simp [hverbatim, hdash]
    · rename_i hverbatim
      simp only [Bool.not_eq_true] at hverbatim
      simp [hverbatim, hdash, and_assoc]

theorem encodedByte_append_of_ne {b : UInt8} (hb : b ≠ dash) (bs bs' : List UInt8) :
    encodedByte b ++ bs' = b :: bs ↔ verbatim b = true ∧ bs' = bs := by
  rw [encodedByte_eq, if_neg hb]
  split
  · rename_i hverbatim
    simp [hverbatim]
  · rename_i hverbatim
    simp [hverbatim, Ne.symm hb]

/-- A decoded name is the encoder's own exactly when its spelling is canonical. -/
theorem flatMap_encodedByte_iff (h : decodeBytes i body = .ok out) :
    out.flatMap encodedByte = body ↔ canonicalBytes body = true := by
  -- by the length of the name: an escape takes two or three bytes at once
  induction hn : body.length using Nat.strong_induction_on generalizing i body out with
  | _ n ih =>
    cases body with
    | nil =>
      obtain rfl := Except.ok.inj h
      simp [canonicalBytes]
    | cons b bs =>
      rw [List.length_cons] at hn
      rcases decodeBytes_cons h with ⟨rfl, bs', out', rfl, rfl, hrest⟩ |
          ⟨rfl, x, y, bs', v, out', rfl, hx, hv, rfl, hrest⟩ | ⟨hb, out', rfl, hrest⟩
      · have hlen : bs'.length < n := by
          rw [List.length_cons] at hn
          omega
        have hcanonical : canonicalBytes (dash :: dash :: bs') = canonicalBytes bs' := by
          cases bs' <;> rfl
        rw [hcanonical, ← ih _ hlen hrest rfl, List.flatMap_cons, encodedByte_eq, if_pos rfl]
        simp
      · have hlen : bs'.length < n := by
          rw [List.length_cons, List.length_cons] at hn
          omega
        rw [canonicalBytes_escape hx hv, ← ih _ hlen hrest rfl, List.flatMap_cons,
          encodedByte_append_escape hx hv]
      · rw [canonicalBytes_of_ne hb, Bool.and_eq_true, ← ih _ (by omega) hrest rfl,
          List.flatMap_cons, encodedByte_append_of_ne hb]

theorem decodeCommitTag_ok {tag : String} {commit : CommitId}
    (h : decodeCommitTag tag = .ok commit) :
    ∃ body, bytes tag = 99 :: 95 :: body ∧ decodeBytes 0 body = .ok (bytes commit) := by
  unfold decodeCommitTag at h
  split at h
  · rename_i body hbody
    cases hout : decodeBytes 0 body with
    | error e =>
      rw [hout] at h
      cases h
    | ok out =>
      simp only [hout, Except.bind] at h
      split at h
      · rename_i c hc
        obtain rfl := Except.ok.inj h
        rw [ofBytes?_eq_some] at hc
        exact ⟨body, hbody, by rw [hc] at hout; exact hout⟩
      · cases h
  · cases h

theorem decodeCommitTag_encodeCommitTag (c : CommitId) :
    decodeCommitTag (encodeCommitTag c) = .ok c := by
  unfold decodeCommitTag
  rw [bytes_encodeCommitTag]
  simp only [decodeBytes_flatMap, Except.bind, ofBytes?_bytes]

end Decode

section Bijection

theorem encodeCommitTag_eq_iff {tag : String} {commit : CommitId}
    (h : decodeCommitTag tag = .ok commit) : encodeCommitTag commit = tag ↔ CanonicalTag tag := by
  obtain ⟨body, hbody, hdecode⟩ := decodeCommitTag_ok h
  rw [← bytes_inj, bytes_encodeCommitTag, hbody]
  have hiff := flatMap_encodedByte_iff hdecode
  constructor
  · intro heq
    simp only [List.cons.injEq, true_and] at heq
    exact ⟨body, hbody, hiff.mp heq⟩
  · rintro ⟨body', hbody', hcanonical⟩
    rw [hbody] at hbody'
    simp only [List.cons.injEq, true_and] at hbody'
    rw [hiff.mpr (hbody' ▸ hcanonical)]

/-- Every commit id has a tag name within Lance's alphabet and is read back from it, and of
the names that are read as that commit, exactly the canonical one is its own. -/
theorem commitTag_bijection (c : CommitId) :
    (∀ x ∈ (encodeCommitTag c).toList, x.isAlphanum ∨ x = '_' ∨ x = '-') ∧
    (∃ rest, (encodeCommitTag c).toList = 'c' :: '_' :: rest) ∧
    decodeCommitTag (encodeCommitTag c) = .ok c ∧
    ∀ t, decodeCommitTag t = .ok c → (encodeCommitTag c = t ↔ CanonicalTag t) := by
  refine ⟨fun x hx => ?_, ?_, decodeCommitTag_encodeCommitTag c, fun t => encodeCommitTag_eq_iff⟩
  · rw [encodeCommitTag, String.toList_ofList] at hx
    rcases List.mem_append.mp hx with hx | hx
    · exact (tagPrefix_allowed x hx).1
    · obtain ⟨b, -, hb⟩ := List.mem_flatMap.mp hx
      exact (encodeByte_allowed b x hb).1
  · rw [encodeCommitTag, String.toList_ofList]
    exact ⟨_, rfl⟩

theorem encodeCommitTag_dash : encodeCommitTag "-" = "c_--" := by
  have htag : bytes "c_--" = [99, 95, 45, 45] := by decide
  have hcommit : bytes "-" = [45] := by decide
  have hdecode : decodeCommitTag "c_--" = .ok "-" := by
    have hbody : decodeBytes 0 [45, 45] = .ok (bytes "-") := by
      rw [hcommit]
      exact decodeBytes_dash_dash 0 []
    unfold decodeCommitTag
    rw [htag]
    simp only [hbody, Except.bind, ofBytes?_bytes]
  exact ((commitTag_bijection "-").2.2.2 "c_--" hdecode).mpr ⟨[45, 45], htag, by decide⟩

/-- Two names of one commit: the escaped letter is read, and never written. -/
theorem commitTag_not_bijection :
    decodeCommitTag "c_-61" = .ok "a" ∧ encodeCommitTag "a" ≠ "c_-61" := by
  have htag : bytes "c_-61" = [99, 95, 45, 54, 49] := by decide
  have hcommit : bytes "a" = [97] := by decide
  constructor
  · have hescape : hexEscape 0 54 49 = .ok 97 := hexEscape_digits 0 97
    have hdecode : decodeBytes 0 [45, 54, 49] = .ok (bytes "a") := by
      have hstep := decodeBytes_escape 0 (show (54 : UInt8) ≠ dash by decide) 49 []
      rw [hescape] at hstep
      rw [hcommit]
      exact hstep
    unfold decodeCommitTag
    rw [htag]
    simp only [hdecode, Except.bind, ofBytes?_bytes]
  · rw [ne_eq, ← bytes_inj, bytes_encodeCommitTag, hcommit, htag]
    decide

end Bijection

end Vectorlink
