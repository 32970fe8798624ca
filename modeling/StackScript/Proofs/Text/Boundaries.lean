import StackScript.Text.Utf8

/-!
# Boundaries between characters

A byte below 128 is a character of its own wherever it stands among the bytes of a text. So what
lies before it and what lies behind it are the bytes of texts as well.

* **`IsText`**: bytes that some text encodes to.
* **`IsText.split`**: cutting the bytes of a text at such a byte.
* **`firstChar?_append`**: the character at the front of a text; `exists_singleton_append`: there is
  one.
-/

namespace StackScript.Text

/-- A text is encoded character by character. -/
theorem encode_eq_flatMap (text : String) :
    encode text = text.toList.flatMap String.utf8EncodeChar := by
  unfold encode
  rw [String.toUTF8_eq_toByteArray, ← String.utf8Encode_toList, List.utf8Encode]
  simp

/-- Texts are encoded one after the other. -/
theorem encode_append (first second : String) :
    encode (first ++ second) = encode first ++ encode second := by
  unfold encode
  simp

theorem decode?_encode (text : String) : decode? (encode text) = some text := by
  have hbytes : (⟨(encode text).toArray⟩ : ByteArray) = text.toByteArray := rfl
  unfold decode? String.fromUTF8?
  rw [hbytes, dif_pos text.isValidUTF8]
  rfl

theorem encode_inj {a b : String} (h : encode a = encode b) : a = b := by
  have ha := decode?_encode a
  rw [h, decode?_encode] at ha
  exact (Option.some.inj ha).symm

/-- The bytes are those of a text. -/
def IsText (bytes : List UInt8) : Prop :=
  ∃ text, encode text = bytes

theorem isText_flatMap (chars : List Char) : IsText (chars.flatMap String.utf8EncodeChar) := by
  refine ⟨String.ofList chars, ?_⟩
  rw [encode_eq_flatMap, String.toList_ofList]

theorem IsText.append {a b : List UInt8} (ha : IsText a) (hb : IsText b) : IsText (a ++ b) := by
  obtain ⟨first, rfl⟩ := ha
  obtain ⟨second, rfl⟩ := hb
  exact ⟨first ++ second, encode_append first second⟩

theorem isText_nil : IsText [] :=
  isText_flatMap []

/-- A byte that is no ASCII character. -/
theorem ofNat_ge {code : Nat} (h : 128 ≤ code % 256) : ¬ UInt8.ofNat code < 128 := by
  rw [UInt8.lt_iff_toNat_lt, UInt8.toNat_ofNat']
  show ¬ code % 256 < 128
  omega

/-- Only the characters below 128 have bytes below 128, and they have no other. -/
theorem utf8EncodeChar_of_mem {c : Char} {byte : UInt8} (h : byte ∈ String.utf8EncodeChar c)
    (hbyte : byte < 128) : String.utf8EncodeChar c = [byte] := by
  have hlarge : ∀ {bytes : List UInt8}, (∀ b ∈ bytes, ¬ b < 128) → byte ∈ bytes → False :=
    fun hall hmem => hall byte hmem hbyte
  unfold String.utf8EncodeChar at h ⊢
  dsimp only at h ⊢
  split at h
  · rw [List.mem_singleton] at h
    rw [if_pos (by assumption), h]
  -- the first byte of a longer encoding is at least 192, and each further one at least 128
  split at h
  · refine (hlarge ?_ h).elim
    simp only [List.forall_mem_cons]
    exact ⟨ofNat_ge (by omega), ofNat_ge (by omega), List.forall_mem_nil _⟩
  split at h
  · refine (hlarge ?_ h).elim
    simp only [List.forall_mem_cons]
    exact ⟨ofNat_ge (by omega), ofNat_ge (by omega), ofNat_ge (by omega), List.forall_mem_nil _⟩
  · refine (hlarge ?_ h).elim
    simp only [List.forall_mem_cons]
    exact ⟨ofNat_ge (by omega), ofNat_ge (by omega), ofNat_ge (by omega), ofNat_ge (by omega),
      List.forall_mem_nil _⟩

/-- Every character has a byte. -/
theorem utf8EncodeChar_ne_nil (c : Char) : String.utf8EncodeChar c ≠ [] := by
  rw [← List.length_pos_iff, String.length_utf8EncodeChar]
  exact c.utf8Size_pos

/-- A byte below 128 is a text of its own, and stands between two others. -/
theorem IsText.split {before after : List UInt8} {byte : UInt8}
    (h : IsText (before ++ byte :: after)) (hbyte : byte < 128) :
    IsText before ∧ IsText [byte] ∧ IsText after := by
  obtain ⟨text, htext⟩ := h
  rw [encode_eq_flatMap] at htext
  generalize text.toList = chars at htext
  induction chars generalizing before with
  | nil => simp at htext
  | cons c chars ih =>
    have hc : IsText (String.utf8EncodeChar c) := by
      simpa using isText_flatMap [c]
    rw [List.flatMap_cons, List.append_eq_append_iff] at htext
    rcases htext with ⟨more, rfl, hmore⟩ | ⟨more, hchar, hmore⟩
    · -- the byte stands behind the first character
      obtain ⟨hbefore, hrest⟩ := ih hmore
      exact ⟨hc.append hbefore, hrest⟩
    cases more with
    | nil =>
      rw [List.append_nil] at hchar
      have hafter : chars.flatMap String.utf8EncodeChar = [] ++ byte :: after := hmore.symm
      obtain ⟨-, hrest⟩ := ih hafter
      exact ⟨hchar ▸ hc, hrest⟩
    | cons first more =>
      -- the byte is in the first character, so it is all of it
      rw [List.cons_append, List.cons.injEq] at hmore
      obtain ⟨rfl, rfl⟩ := hmore
      have hmem : byte ∈ String.utf8EncodeChar c := by simp [hchar]
      have hsingle := utf8EncodeChar_of_mem hmem hbyte
      rw [hsingle] at hchar hc
      have hlength := congrArg List.length hchar
      simp only [List.length_append, List.length_cons, List.length_nil] at hlength
      obtain rfl : before = [] := List.eq_nil_of_length_eq_zero (by omega)
      obtain rfl : more = [] := List.eq_nil_of_length_eq_zero (by omega)
      exact ⟨isText_nil, hc, isText_flatMap chars⟩

theorem toNat_val_ofUInt8 (byte : UInt8) : (Char.ofUInt8 byte).val.toNat = byte.toNat :=
  UInt8.toNat_toUInt32 byte

/-- Bytes below 128 are the characters with the same codes. -/
theorem encode_ofList_map {bytes : List UInt8} (h : ∀ byte ∈ bytes, byte < 128) :
    encode (String.ofList (bytes.map Char.ofUInt8)) = bytes := by
  rw [encode_eq_flatMap, String.toList_ofList, List.flatMap_map]
  induction bytes with
  | nil => rfl
  | cons byte rest ih =>
    rw [List.forall_mem_cons] at h
    have hbyte : String.utf8EncodeChar (Char.ofUInt8 byte) = [byte] := by
      have hlt : byte.toNat < 128 := UInt8.lt_iff_toNat_lt.mp h.1
      unfold String.utf8EncodeChar
      dsimp only
      rw [toNat_val_ofUInt8, if_pos (by omega)]
      simp
    rw [List.flatMap_cons, ih h.2, hbyte, List.singleton_append]

/-- The character at the front is the one whose encoding stands there. -/
theorem firstChar?_append (c : Char) (more : List UInt8) :
    firstChar? (String.utf8EncodeChar c ++ more) = some c := by
  have hlength : (String.utf8EncodeChar c).length ≤ 4 := by
    rw [String.length_utf8EncodeChar]
    exact c.utf8Size_le_four
  have htake : (String.utf8EncodeChar c ++ more).take 4 =
      String.utf8EncodeChar c ++ more.take (4 - (String.utf8EncodeChar c).length) := by
    rw [List.take_append, List.take_of_length_le hlength]
  unfold firstChar?
  rw [htake]
  have hbytes : (⟨(String.utf8EncodeChar c ++
      more.take (4 - (String.utf8EncodeChar c).length)).toArray⟩ : ByteArray) =
      (String.utf8EncodeChar c).toByteArray ++
        (more.take (4 - (String.utf8EncodeChar c).length)).toByteArray := by
    ext1
    simp
  rw [hbytes]
  exact ByteArray.utf8DecodeChar?_utf8EncodeChar_append

/-- Only one character is encoded with a given byte below 128. -/
theorem eq_of_mem_utf8EncodeChar {c d : Char} {byte : UInt8}
    (hd : String.utf8EncodeChar d = [byte]) (hbyte : byte < 128)
    (h : byte ∈ String.utf8EncodeChar c) : c = d := by
  have hc := firstChar?_append c []
  rw [utf8EncodeChar_of_mem h hbyte, ← hd] at hc
  exact Option.some.inj (hc.symm.trans (firstChar?_append d []))

/-- A text that is not empty starts with a character. -/
theorem exists_singleton_append {text : String} {first : UInt8} {rest : List UInt8}
    (h : encode text = first :: rest) :
    ∃ c more, text = String.singleton c ++ more ∧
      String.utf8EncodeChar c ++ encode more = first :: rest := by
  cases hchars : text.toList with
  | nil =>
    rw [encode_eq_flatMap, hchars] at h
    cases h
  | cons c chars =>
    obtain rfl : text = String.singleton c ++ String.ofList chars := by
      rw [← String.toList_inj, hchars, String.toList_append, String.toList_singleton,
        String.toList_ofList, List.singleton_append]
    refine ⟨c, String.ofList chars, rfl, ?_⟩
    rw [← h, encode_append, encode_eq_flatMap (String.singleton c), String.toList_singleton,
      List.flatMap_singleton]

/-- A text that is not empty starts with a character. -/
theorem IsText.exists_append {first : UInt8} {rest : List UInt8} (h : IsText (first :: rest)) :
    ∃ c more, first :: rest = String.utf8EncodeChar c ++ more := by
  obtain ⟨text, htext⟩ := h
  obtain ⟨c, more, -, hbytes⟩ := exists_singleton_append htext
  exact ⟨c, encode more, hbytes.symm⟩

end StackScript.Text
