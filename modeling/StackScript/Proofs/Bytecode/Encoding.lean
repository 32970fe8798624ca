import Mathlib.Order.Bounds.Basic
import StackScript.Proofs.Bytecode.Assembly

/-!
# Encoding and decoding are inverse

Emitted instructions are read back as they were, and nothing else can be read: a code decodes to
instructions exactly if it is the concatenation of their encodings. Where that is not so the decoder
gets as far as any list of instructions does, and says what stands in its way.

* **`Instruction.decode_cases`**: what stands in the code at an offset, be it an instruction or not.
* **`Instruction.decodeAll_cases`**: the same of a whole code, by induction over what is decoded.
* **`Instruction.length_flatMap_encode_le`**: no list of instructions leads beyond a place where
  none stands, since no encoding begins another one.
-/

namespace StackScript

/-! ## Bytes of words and opcodes

Words and opcodes can be told from their bytes. -/

/-- The higher byte comes first. -/
theorem toNat_wordOfBytes (high low : UInt8) :
    (wordOfBytes high low).toNat = high.toNat * 256 + low.toNat := by
  have hhigh : high.toNat < 256 := high.toNat_lt
  have hlow : low.toNat < 2 ^ 8 := low.toNat_lt
  have hshift : high.toNat <<< 8 = high.toNat * 256 := Nat.shiftLeft_eq _ 8
  simp only [wordOfBytes, UInt16.toNat_or, UInt16.toNat_shiftLeft, UInt8.toNat_toUInt16]
  show high.toNat <<< 8 % 2 ^ 16 ||| low.toNat = _
  -- nothing is lost by the shift, so that the two bytes do not overlap
  rw [Nat.mod_eq_of_lt (by omega), ← Nat.shiftLeft_add_eq_or_of_lt hlow, hshift]

theorem highByte_wordOfBytes (high low : UInt8) : highByte (wordOfBytes high low) = high := by
  apply UInt8.toNat_inj.mp
  have hhigh : high.toNat < 256 := high.toNat_lt
  have hlow : low.toNat < 256 := low.toNat_lt
  simp only [highByte, UInt16.toNat_toUInt8, UInt16.toNat_shiftRight, toNat_wordOfBytes]
  show (high.toNat * 256 + low.toNat) >>> 8 % 256 = high.toNat
  rw [Nat.shiftRight_eq_div_pow]
  omega

theorem lowByte_wordOfBytes (high low : UInt8) : lowByte (wordOfBytes high low) = low := by
  apply UInt8.toNat_inj.mp
  have hlow : low.toNat < 256 := low.toNat_lt
  simp only [lowByte, UInt16.toNat_toUInt8, toNat_wordOfBytes]
  omega

/-- A byte is assigned to the opcode whose byte it is. -/
theorem Opcode.toByte_of_ofByte? {byte : UInt8} {opcode : Opcode} (h : ofByte? byte = some opcode) :
    opcode.toByte = byte := by
  have hall : ∀ k : Fin all.size, all[k].toByte = UInt8.ofNat k := by decide
  obtain ⟨hlt, rfl⟩ := Array.getElem?_eq_some_iff.mp h
  rw [show all[byte.toNat] = all[(⟨byte.toNat, hlt⟩ : Fin all.size)] from rfl, hall]
  exact UInt8.ofNat_toNat

/-- The width of the instructions with an opcode. -/
def Opcode.width : Opcode → Nat
  | constant | getLocal | setLocal | getGlobal | defineGlobal | setGlobal => 2
  | jump | jumpIfFalse | loop => 3
  | _ => 1

/-- What an error says about the code: what stands at its offset. -/
def DecodeError.Explains (code : Array UInt8) : DecodeError → Prop
  | unknown byte offset => code[offset]? = some byte ∧ ∀ opcode : Opcode, opcode.toByte ≠ byte
  | reserved opcode offset => code[offset]? = some opcode.toByte ∧ opcode.isReserved = true
  | truncated offset =>
    ∃ i : Instruction, code[offset]? = some i.opcode.toByte ∧ code.size < offset + i.width

namespace Instruction

/-! ## One instruction

What the decoder makes of the bytes at an offset: an instruction whose encoding they start with, or
an error that says what is wrong with them. -/

/-- No instruction has an opcode that is reserved. -/
theorem isReserved_opcode (i : Instruction) : i.opcode.isReserved = Bool.false := by
  cases i <;> rfl

/-- The opcode tells the size of an instruction. -/
theorem width_opcode (i : Instruction) : i.opcode.width = i.width := by
  cases i <;> rfl

theorem drop_of_getElem? {code : Array UInt8} {k : Nat} {byte : UInt8} (h : code[k]? = some byte) :
    code.toList.drop k = byte :: code.toList.drop (k + 1) := by
  obtain ⟨hlt, rfl⟩ := Array.getElem?_eq_some_iff.mp h
  exact List.drop_eq_getElem_cons (by simpa using hlt)

/-- An instruction whose encoding stands in the code ends inside it. -/
theorem add_width_le_of_drop {code : Array UInt8} {offset : Nat} {i : Instruction}
    {rest : List UInt8} (h : code.toList.drop offset = i.encode ++ rest) :
    offset + i.width ≤ code.size := by
  have hlength := congrArg List.length h
  have hpos := i.width_pos
  rw [List.length_append, length_encode, List.length_drop, Array.length_toList] at hlength
  omega

/-- An operand of one byte stands behind the opcode, or the code ends there. -/
theorem byteOperand_cases (code : Array UInt8) (offset : Nat) :
    (∃ value, byteOperand code offset = .ok value ∧
      code.toList.drop (offset + 1) = value :: code.toList.drop (offset + 2)) ∨
    (byteOperand code offset = .error (.truncated offset) ∧ code.size < offset + 2) := by
  unfold byteOperand
  cases h : code[offset + 1]? with
  | some value => exact .inl ⟨value, rfl, drop_of_getElem? h⟩
  | none =>
    have hend := Array.getElem?_eq_none_iff.mp h
    exact .inr ⟨rfl, by omega⟩

/-- An operand of two bytes stands behind the opcode, or the code ends before its second one. -/
theorem wordOperand_cases (code : Array UInt8) (offset : Nat) :
    (∃ value, wordOperand code offset = .ok value ∧
      code.toList.drop (offset + 1) =
        highByte value :: lowByte value :: code.toList.drop (offset + 3)) ∨
    (wordOperand code offset = .error (.truncated offset) ∧ code.size < offset + 3) := by
  unfold wordOperand
  cases hhigh : code[offset + 1]? with
  | none =>
    have hend := Array.getElem?_eq_none_iff.mp hhigh
    exact .inr ⟨rfl, by omega⟩
  | some high =>
    cases hlow : code[offset + 2]? with
    | none =>
      have hend := Array.getElem?_eq_none_iff.mp hlow
      exact .inr ⟨rfl, by omega⟩
    | some low =>
      refine .inl ⟨wordOfBytes high low, rfl, ?_⟩
      rw [highByte_wordOfBytes, lowByte_wordOfBytes, drop_of_getElem? hhigh, drop_of_getElem? hlow]

/-- What can come of reading the instruction with an opcode at `offset`. -/
inductive Reads (code : Array UInt8) (offset : Nat) (opcode : Opcode) :
    Except DecodeError Instruction → Prop where
  /-- The operand stands behind the opcode. -/
  | found (i : Instruction) (hopcode : i.opcode = opcode)
      (hoperand : code.toList.drop (offset + 1) =
        i.operand.encode ++ code.toList.drop (offset + i.width)) :
      Reads code offset opcode (.ok i)
  /-- The code ends before the operand does. -/
  | cut (i : Instruction) (hopcode : i.opcode = opcode) (hend : code.size < offset + i.width) :
      Reads code offset opcode (.error (.truncated offset))
  | reserved (hreserved : opcode.isReserved = Bool.true) :
      Reads code offset opcode (.error (.reserved opcode offset))

/-- An operand of one byte, which may be missing. -/
theorem reads_byteOperand {make : UInt8 → Instruction} {opcode : Opcode}
    (hopcode : ∀ value, (make value).opcode = opcode)
    (hoperand : ∀ value, (make value).operand = .byte value) (code : Array UInt8) (offset : Nat) :
    Reads code offset opcode (make <$> byteOperand code offset) := by
  have hwidth : ∀ value, (make value).width = 2 := fun value => by rw [width, hoperand]; rfl
  rcases byteOperand_cases code offset with ⟨value, hvalue, hdrop⟩ | ⟨herror, hend⟩
  · rw [hvalue]
    apply Reads.found (make value) (hopcode value)
    rw [hwidth, hoperand, hdrop]
    rfl
  · rw [herror]
    exact .cut (make 0) (hopcode 0) (by rwa [hwidth])

/-- An operand of two bytes, either of which may be missing. -/
theorem reads_wordOperand {make : UInt16 → Instruction} {opcode : Opcode}
    (hopcode : ∀ value, (make value).opcode = opcode)
    (hoperand : ∀ value, (make value).operand = .word value) (code : Array UInt8) (offset : Nat) :
    Reads code offset opcode (make <$> wordOperand code offset) := by
  have hwidth : ∀ value, (make value).width = 3 := fun value => by rw [width, hoperand]; rfl
  rcases wordOperand_cases code offset with ⟨value, hvalue, hdrop⟩ | ⟨herror, hend⟩
  · rw [hvalue]
    apply Reads.found (make value) (hopcode value)
    rw [hwidth, hoperand, hdrop]
    rfl
  · rw [herror]
    exact .cut (make 0) (hopcode 0) (by rwa [hwidth])

theorem reads_decodeOpcode (code : Array UInt8) (offset : Nat) (opcode : Opcode) :
    Reads code offset opcode (decodeOpcode code offset opcode) := by
  cases opcode with
  | constant | getLocal | setLocal | getGlobal | defineGlobal | setGlobal =>
    apply reads_byteOperand <;> exact fun _ => rfl
  | jump | jumpIfFalse | loop =>
    apply reads_wordOperand <;> exact fun _ => rfl
  | nil | true | false | pop | equal | greater | less | add | subtract | multiply | divide | not
  | negate | print | ret => exact .found _ rfl rfl
  | _ => exact .reserved rfl

/-- Inside the code the decoder reads the instruction that stands there, or says why none does. -/
theorem decode_cases {code : Array UInt8} {offset : Nat} (h : offset < code.size) :
    (∃ i, decode code offset = .ok i ∧
      code.toList.drop offset = i.encode ++ code.toList.drop (offset + i.width)) ∨
    ∃ e, decode code offset = .error e ∧ e.offset = offset ∧ e.Explains code := by
  have hbyte : code[offset]? = some code[offset] := Array.getElem?_eq_getElem h
  cases hopcode : Opcode.ofByte? code[offset] with
  -- no opcode has this byte
  | none =>
    have hdecode : decode code offset = .error (.unknown code[offset] offset) := by
      simp only [decode, hbyte, hopcode]
    refine .inr ⟨.unknown code[offset] offset, hdecode, rfl, hbyte, ?_⟩
    intro opcode hassigned
    rw [← hassigned, Opcode.ofByte?_toByte] at hopcode
    cases hopcode
  | some opcode =>
    have hdecode : decode code offset = decodeOpcode code offset opcode := by
      simp only [decode, hbyte, hopcode]
    rw [← Opcode.toByte_of_ofByte? hopcode] at hbyte
    rw [hdecode]
    have hreads := reads_decodeOpcode code offset opcode
    generalize decodeOpcode code offset opcode = result at hreads
    cases hreads with
    | found i hi hoperand =>
      refine .inl ⟨i, rfl, ?_⟩
      rw [drop_of_getElem? hbyte, hoperand, ← hi]
      rfl
    -- there are fewer bytes left than the operand needs
    | cut i hi hend =>
      rw [← hi] at hbyte
      exact .inr ⟨.truncated offset, rfl, rfl, i, hbyte, hend⟩
    | reserved hreserved => exact .inr ⟨.reserved opcode offset, rfl, rfl, hbyte, hreserved⟩

/-- The decoder finds what an error says, so that there is one thing to say about an offset. -/
theorem decode_of_explains {code : Array UInt8} {e : DecodeError} (h : e.Explains code) :
    decode code e.offset = .error e := by
  cases e with
  | unknown byte offset =>
    obtain ⟨hbyte, hunassigned⟩ := h
    cases hopcode : Opcode.ofByte? byte with
    | some opcode => exact absurd (Opcode.toByte_of_ofByte? hopcode) (hunassigned opcode)
    | none => simp only [decode, DecodeError.offset, hbyte, hopcode]
  | reserved opcode offset =>
    obtain ⟨hbyte, hreserved⟩ := h
    have hreads := reads_decodeOpcode code offset opcode
    simp only [decode, DecodeError.offset, hbyte, Opcode.ofByte?_toByte]
    generalize decodeOpcode code offset opcode = result at hreads
    cases hreads with
    | found i hi _ => rw [← hi, isReserved_opcode] at hreserved; cases hreserved
    | cut i hi _ => rw [← hi, isReserved_opcode] at hreserved; cases hreserved
    | reserved _ => rfl
  | truncated offset =>
    obtain ⟨i, hbyte, hend⟩ := h
    have hreads := reads_decodeOpcode code offset i.opcode
    simp only [decode, DecodeError.offset, hbyte, Opcode.ofByte?_toByte]
    generalize decodeOpcode code offset i.opcode = result at hreads
    cases hreads with
    | cut _ _ _ => rfl
    | reserved hreserved => rw [isReserved_opcode] at hreserved; cases hreserved
    | found j hj hoperand =>
      -- an instruction that was found would have the same width, and it would not fit
      have hwidth : j.width = i.width := by rw [← width_opcode, ← width_opcode, hj]
      have hfits : offset + j.width ≤ code.size := by
        apply add_width_le_of_drop
        rw [drop_of_getElem? hbyte, hoperand, ← hj]
        rfl
      omega

/-- An instruction is found wherever its encoding stands. -/
theorem decode_of_drop {code : Array UInt8} {offset : Nat} {i : Instruction} {rest : List UInt8}
    (h : code.toList.drop offset = i.encode ++ rest) : decode code offset = .ok i := by
  have hle := add_width_le_of_drop h
  have hbefore : (code.toList.take offset).length = offset := by
    rw [List.length_take, Array.length_toList]
    omega
  rw [← hbefore]
  apply Chunk.decode_of_toList i rest
  rw [← h, List.take_append_drop]

/-! ## A whole code

By induction on what is left of the code. -/

/-- From every offset on there are instructions up to the end, or up to a place where the decoder
finds none. -/
theorem decodeFrom_cases (code : Array UInt8) (offset : Nat) (done : Array Instruction)
    (h : offset ≤ code.size) :
    (∃ ops : List Instruction, decodeFrom code offset done = .ok (done ++ ops.toArray) ∧
      code.toList.drop offset = ops.flatMap encode) ∨
    ∃ (ops : List Instruction) (e : DecodeError), decodeFrom code offset done = .error e ∧
      decode code e.offset = .error e ∧ e.Explains code ∧
      code.toList.drop offset = ops.flatMap encode ++ code.toList.drop e.offset := by
  rw [decodeFrom]
  by_cases hlt : offset < code.size
  · rw [if_pos hlt]
    rcases decode_cases hlt with ⟨i, hi, hdrop⟩ | ⟨e, he, rfl, hexplains⟩
    · rw [hi]
      have hpos := i.width_pos
      have hle := add_width_le_of_drop hdrop
      -- what follows the first instruction is decoded after it
      rcases decodeFrom_cases code (offset + i.width) (done.push i) hle with
        ⟨ops, hops, hrest⟩ | ⟨ops, e, he, hstop, hexplains, hrest⟩
      · refine .inl ⟨i :: ops, ?_, ?_⟩
        · dsimp only
          rw [hops]
          simp
        · rw [hdrop, hrest, List.flatMap_cons]
      · refine .inr ⟨i :: ops, e, he, hstop, hexplains, ?_⟩
        rw [hdrop, hrest, List.flatMap_cons, List.append_assoc]
    · rw [he]
      exact .inr ⟨[], e, rfl, he, hexplains, rfl⟩
  · rw [if_neg hlt]
    have hend : code.toList.length ≤ offset := by
      rw [Array.length_toList]
      omega
    exact .inl ⟨[], by simp, List.drop_eq_nil_of_le hend⟩
termination_by code.size - offset

/-- The code is made of instructions, or it is up to the offset of an error. -/
theorem decodeAll_cases (code : Array UInt8) :
    (∃ ops, decodeAll code = .ok ops ∧ code.toList = ops.flatMap encode) ∨
    ∃ (ops : List Instruction) (e : DecodeError), decodeAll code = .error e ∧
      decode code e.offset = .error e ∧ e.Explains code ∧
      code.toList = ops.flatMap encode ++ code.toList.drop e.offset := by
  unfold decodeAll
  rcases decodeFrom_cases code 0 #[] (Nat.zero_le _) with
    ⟨ops, hops, hcode⟩ | ⟨ops, e, he, hstop, hexplains, hcode⟩
  · exact .inl ⟨ops, by rw [hops]; simp [Except.map], hcode⟩
  · exact .inr ⟨ops, e, by rw [he]; rfl, hstop, hexplains, hcode⟩

/-- The decoder finds the instructions that the code is made of. -/
theorem decodeAll_eq_ok_iff (code : Array UInt8) (ops : List Instruction) :
    decodeAll code = .ok ops ↔ code.toList = ops.flatMap encode := by
  constructor
  · intro h
    rcases decodeAll_cases code with ⟨ops', hops, hcode⟩ | ⟨_, e, he, -⟩
    · rw [h] at hops
      cases hops
      exact hcode
    · rw [h] at he
      cases he
  · intro h
    have hbytes : code.toList = Lowering.bytes ([] ++ ops.map (·, 0)) := by
      rw [h, List.nil_append, Lowering.bytes, List.flatMap_map]
    have hdecode := Chunk.decodeFrom_of_toList [] #[] hbytes
    rw [Lowering.codeSize_nil] at hdecode
    simp [decodeAll, hdecode, Except.map, Function.comp_def]

/-! ## How far instructions lead

No encoding is the start of another, so instructions can be read in one way only. The error is where
the longest row of instructions ends. -/

/-- No encoding begins another one. -/
theorem encode_append_inj {i j : Instruction} {a b : List UInt8}
    (h : i.encode ++ a = j.encode ++ b) : i = j ∧ a = b := by
  have hi : decode (i.encode ++ a).toArray 0 = .ok i := by
    apply decode_of_drop
    rfl
  have hj : decode (i.encode ++ a).toArray 0 = .ok j := by
    apply decode_of_drop
    exact h
  rw [hi] at hj
  cases hj
  exact ⟨rfl, List.append_cancel_left h⟩

/-- Instructions from the same start do not lead beyond a place where none stands. -/
theorem length_flatMap_encode_le {ops others : List Instruction} {stop rest : List UInt8}
    (hstop : ∀ (i : Instruction) after, stop ≠ i.encode ++ after)
    (h : ops.flatMap encode ++ stop = others.flatMap encode ++ rest) :
    (others.flatMap encode).length ≤ (ops.flatMap encode).length := by
  induction ops generalizing others with
  | nil =>
    cases others with
    | nil => exact Nat.le_refl _
    | cons j others =>
      rw [List.flatMap_cons, List.append_assoc] at h
      exact absurd h (hstop j _)
  | cons i ops ih =>
    cases others with
    | nil => exact Nat.zero_le _
    | cons j others =>
      rw [List.flatMap_cons, List.flatMap_cons, List.append_assoc, List.append_assoc] at h
      obtain ⟨rfl, hrest⟩ := encode_append_inj h
      have hle := ih hrest
      rw [List.flatMap_cons, List.flatMap_cons, List.length_append, List.length_append]
      omega

/-- The lengths of the beginnings of a code that are made of instructions. -/
def codeLengths (code : Array UInt8) : Set Nat :=
  { n | n ≤ code.size ∧ ∃ ops : List Instruction, code.toList.take n = ops.flatMap encode }

/-- No instructions lead beyond an offset that cannot be decoded. -/
theorem isGreatest_of_decode_error {code : Array UInt8} {ops : List Instruction} {e : DecodeError}
    (hlt : e.offset < code.size) (hstop : decode code e.offset = .error e)
    (hcode : code.toList = ops.flatMap encode ++ code.toList.drop e.offset) :
    IsGreatest (codeLengths code) e.offset := by
  have hlength : (ops.flatMap encode).length = e.offset := by
    have := congrArg List.length hcode
    rw [List.length_append, List.length_drop, Array.length_toList] at this
    omega
  refine ⟨⟨hlt.le, ops, ?_⟩, ?_⟩
  · rw [hcode]
    exact List.take_left' hlength
  · rintro n ⟨hn, others, hothers⟩
    have hnone : ∀ (i : Instruction) after, code.toList.drop e.offset ≠ i.encode ++ after := by
      intro i after hdrop
      rw [decode_of_drop hdrop] at hstop
      cases hstop
    have hsplit : ops.flatMap encode ++ code.toList.drop e.offset =
        others.flatMap encode ++ code.toList.drop n := by
      rw [← hothers, ← hcode, List.take_append_drop]
    have hle := length_flatMap_encode_le hnone hsplit
    rw [← hothers, hlength, List.length_take_of_le (by simpa using hn)] at hle
    exact hle

end Instruction

/-- An error lies inside the code. -/
theorem DecodeError.Explains.offset_lt {code : Array UInt8} {e : DecodeError}
    (h : e.Explains code) : e.offset < code.size := by
  have hbyte : ∃ byte, code[e.offset]? = some byte := by
    cases e with
    | unknown => exact ⟨_, h.1⟩
    | reserved => exact ⟨_, h.1⟩
    | truncated =>
      obtain ⟨i, hi, -⟩ := h
      exact ⟨_, hi⟩
  obtain ⟨byte, hbyte⟩ := hbyte
  exact (Array.getElem?_eq_some_iff.mp hbyte).1

namespace Instruction

/-- The decoder fails with the error that explains the longest beginning made of instructions. -/
theorem decodeAll_eq_error_iff (code : Array UInt8) (e : DecodeError) :
    decodeAll code = .error e ↔ IsGreatest (codeLengths code) e.offset ∧ e.Explains code := by
  constructor
  · intro h
    rcases decodeAll_cases code with ⟨ops, hops, -⟩ | ⟨ops, e', he, hstop, hexplains, hcode⟩
    · rw [h] at hops
      cases hops
    · rw [h] at he
      cases he
      exact ⟨isGreatest_of_decode_error hexplains.offset_lt hstop hcode, hexplains⟩
  · rintro ⟨hgreatest, hexplains⟩
    rcases decodeAll_cases code with ⟨ops, -, hcode⟩ | ⟨ops, e', he, hstop, hexplains', hcode⟩
    · -- the whole code is made of instructions, but there is a byte behind the greatest length
      have hwhole : code.size ∈ codeLengths code := by
        refine ⟨Nat.le_refl _, ops, ?_⟩
        rw [List.take_of_length_le (by simp), hcode]
      have hle := hgreatest.2 hwhole
      have hlt := hexplains.offset_lt
      omega
    -- both errors are at the greatest length, and one byte has one explanation
    · have hgreatest' := isGreatest_of_decode_error hexplains'.offset_lt hstop hcode
      have hfound := decode_of_explains hexplains
      rw [hgreatest.unique hgreatest', hstop] at hfound
      cases hfound
      exact he

end Instruction

/-! ## Emitting

Instructions that are written to a chunk one by one. -/

namespace Chunk

/-- Emits instructions, each with its line, one after the other, and returns their offsets. -/
def emitAll (c : Chunk) : List (Instruction × Nat) → List Nat × Chunk
  | [] => ([], c)
  | (i, line) :: rest =>
    let (offset, c') := c.emit i line
    let (offsets, c'') := c'.emitAll rest
    (offset :: offsets, c'')

theorem emitAll_eq_extend (c : Chunk) (items : List (Instruction × Nat)) :
    (c.emitAll items).2 = c.extend ⟨items, [], []⟩ := by
  induction items generalizing c with
  | nil => exact (extend_empty c).symm
  | cons item items ih =>
    show ((c.emit item.1 item.2).2.emitAll items).2 = _
    rw [ih, emit_eq_extend, ← extend_append]
    rfl

/-- Each instruction starts where those before it end. -/
theorem offsets_emitAll (c : Chunk) (items : List (Instruction × Nat)) :
    (c.emitAll items).1 = (List.range items.length).map fun k =>
      c.size + ((items.take k).map (·.1.width)).sum := by
  induction items generalizing c with
  | nil => rfl
  | cons item items ih =>
    show c.size :: ((c.emit item.1 item.2).2.emitAll items).1 = _
    have hsize : (c.emit item.1 item.2).2.size = c.size + item.1.width := by
      rw [emit_eq_extend, size_extend]
      rfl
    rw [ih, hsize, List.length_cons, List.range_succ_eq_map, List.map_cons, List.map_map]
    congr 1
    apply List.map_congr_left
    intro k _
    simp only [Function.comp_apply, List.take_succ_cons, List.map_cons, List.sum_cons]
    omega

/-- **Encoding is a bijection onto what decodes.** Emitted instructions are read back, each from
the sum of the widths before it. A code decodes to instructions exactly if it is the concatenation
of their encodings. Otherwise the error is at the end of the longest beginning that is such a
concatenation, and tells what stands there: a byte that is not assigned, a reserved opcode, or an
instruction that is cut off by the end of the code. -/
theorem instructions_encoding :
    (∀ items : List (Instruction × Nat),
      (empty.emitAll items).2.instructions = .ok (items.map (·.1)) ∧
      (empty.emitAll items).1 = (List.range items.length).map fun k =>
        ((items.take k).map (·.1.width)).sum) ∧
    (∀ (c : Chunk) (ops : List Instruction),
      c.instructions = .ok ops ↔ c.code.toList = ops.flatMap Instruction.encode) ∧
    ∀ (c : Chunk) (e : DecodeError),
      c.instructions = .error e ↔
        IsGreatest (Instruction.codeLengths c.code) e.offset ∧ e.Explains c.code := by
  refine ⟨fun items => ⟨?_, ?_⟩, fun c => Instruction.decodeAll_eq_ok_iff c.code,
    fun c => Instruction.decodeAll_eq_error_iff c.code⟩
  · rw [emitAll_eq_extend]
    exact (assembles_extend_empty ⟨items, [], []⟩).instructions
  · rw [offsets_emitAll]
    apply List.map_congr_left
    intro k _
    exact Nat.zero_add _

end Chunk

end StackScript
