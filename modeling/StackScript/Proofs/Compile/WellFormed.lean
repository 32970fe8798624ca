import StackScript.Bytecode.Listing
import StackScript.Proofs.Compile.ScriptParsing
import StackScript.Proofs.Tree.CodeConstants

/-!
# Compiled chunks are well formed

What holds of the code of every compiled script whether or not it is run: it is a list of
instructions with one return at its end, its jumps lead to instructions, and each of its constants
is used by one of them.

* **`Chunk.WellFormed`**: these properties together.
* **`exists_wellFormed`**: every compiled chunk has them.
-/

namespace StackScript

open Instruction (located offsets boundaries constantIndices)

/-- The code of a chunk is the given list of instructions and is complete: nothing in it refers to
something that is not there. -/
structure Chunk.WellFormed (c : Chunk) (ops : List Instruction) : Prop where
  instructions : c.instructions = .ok ops
  /-- The code ends with a return and has no other. -/
  returns : ∃ body, ops = body ++ [.ret] ∧ .ret ∉ body
  /-- Every byte of code has a line. -/
  lines : c.lines.size = c.code.size
  /-- A jump forward leads to an instruction after it. -/
  forward : ∀ t distance,
    (t, .jump distance) ∈ located 0 ops ∨ (t, .jumpIfFalse distance) ∈ located 0 ops →
      forwardTarget t distance ∈ offsets 0 ops ∧ t + 3 ≤ forwardTarget t distance
  /-- A jump backward leads to an instruction before its end. -/
  backward : ∀ t distance, (t, .loop distance) ∈ located 0 ops →
    ∃ target ∈ offsets 0 ops, backwardTarget t distance = (target : Int) ∧ target < t + 3
  /-- Every constant is used by one instruction, and every index that is used is that of a
  constant. -/
  constants : (constantIndices ops).Perm (List.range c.constants.size)
  /-- What names a variable is a string. -/
  names : ∀ i ∈ ops, ∀ index ∈ i.globalName?, ∃ name,
    c.constants[index.toNat]? = some (.string name)

namespace Instruction

/-- With one more instruction, the end of the code is the offset of an instruction as well. -/
theorem offsets_append_singleton (start : Nat) (ops : List Instruction) (i : Instruction) :
    offsets start (ops ++ [i]) = boundaries start ops := by
  rw [offsets, located_append, List.map_append]
  rfl

/-- An instruction at an offset stands after the bytes of those before it. -/
theorem exists_append_of_located {code : List (Instruction × Nat)} {start t : Nat}
    {i : Instruction} (h : (t, i) ∈ located start (code.map (·.1))) :
    ∃ before line after, code = before ++ (i, line) :: after ∧
      start + Lowering.codeSize before = t := by
  induction code generalizing start with
  | nil => cases h
  | cons j code ih =>
    rw [List.map_cons, located, List.mem_cons, Prod.mk.injEq] at h
    rcases h with ⟨rfl, rfl⟩ | h
    · exact ⟨[], j.2, code, rfl, rfl⟩
    · obtain ⟨before, line, after, rfl, rfl⟩ := ih h
      refine ⟨j :: before, line, after, rfl, ?_⟩
      rw [Lowering.codeSize_cons, Nat.add_assoc]

end Instruction

/-- The decoder reads each instruction at its offset. -/
theorem Chunk.Assembles.decode {c : Chunk} {code : List (Instruction × Nat)} (h : c.Assembles code)
    {t : Nat} {i : Instruction} (hi : (t, i) ∈ located 0 (code.map (·.1))) :
    Instruction.decode c.code t = .ok i := by
  obtain ⟨before, line, after, rfl, rfl⟩ := Instruction.exists_append_of_located hi
  rw [Nat.zero_add]
  have hat : c.CodeAt (Lowering.codeSize before) ((i, line) :: after) :=
    ⟨before, [], by rwa [List.append_nil], rfl⟩
  exact hat.decode

/-! ## The code of a script

The properties of the code of trees, put together for the chunk that the compiler makes. -/

namespace Tree

open Instruction Compile

variable {script : Decls} {line : Nat}

/-- The last instruction stops the machine. -/
theorem ops_program (script : Decls) (line : Nat) :
    (script.program line).ops = (script.lower [] 0).ops ++ [.ret] := by
  rw [Decls.program, Lowering.ops_append, Lowering.ops_instruction]

/-- The code of a script before its return starts and ends with an empty stack. -/
theorem flow_of_fits (h : ScriptFits line script) :
    Flow script.tokens.length 0 0 (script.lower [] 0).ops 0 := by
  obtain ⟨hscoped, hlimits⟩ := h
  rw [Decls.program, Lowering.limits_append_instruction] at hlimits
  have hlocals : ([] : Blocks).flatten.length ≤ Scope.maxLocals := Nat.zero_le _
  have hflow := script.flows hlocals hscoped hlimits 0
  rw [Decls.blocks_nil] at hflow
  simpa using hflow

/-- The constants of the script are those of its declarations. -/
theorem pooled_of_fits (h : ScriptFits line script) : (script.program line).Pooled 0 := by
  have hlimits := h.2
  rw [Decls.program, Lowering.limits_append_instruction] at hlimits
  exact (script.pooled hlimits).append (Lowering.pooled_instruction line rfl)

/-- An instruction other than the return leads to instructions of the script. -/
theorem located_program_cases {t : Nat} {i : Instruction}
    (h : (t, i) ∈ located 0 (script.program line).ops) :
    (t, i) ∈ located 0 (script.lower [] 0).ops ∨ t = extent (script.lower [] 0).ops ∧ i = .ret := by
  rw [ops_program, located_append, List.mem_append] at h
  rcases h with h | h
  · exact .inl h
  · rw [located, located, List.mem_singleton, Prod.mk.injEq, Nat.zero_add] at h
    exact .inr h

/-- The last instruction is at the end of the declarations. -/
theorem offsets_program (script : Decls) (line : Nat) :
    offsets 0 (script.program line).ops = boundaries 0 (script.lower [] 0).ops := by
  rw [ops_program, offsets_append_singleton]

theorem wellFormed_of_fits (h : ScriptFits line script) :
    (Chunk.empty.extend (script.program line)).WellFormed (script.program line).ops := by
  obtain ⟨height, hheights, -, -⟩ := flow_of_fits h
  have hpooled := pooled_of_fits h
  have hassembles := Chunk.assembles_extend_empty (script.program line)
  have hconstants : (Chunk.empty.extend (script.program line)).constants =
      (script.program line).constants.toArray := by
    simp [Chunk.extend, Chunk.empty]
  -- the instructions before the return are safe, so all that they lead to is there
  have hsafe : ∀ t i, (t, i) ∈ located 0 (script.program line).ops → i ≠ .ret →
      i.LeadsBack t ∧ ∀ t' ∈ i.successors t, t' ∈ offsets 0 (script.program line).ops := by
    intro t i hi hret
    rcases located_program_cases hi with hi | ⟨-, rfl⟩
    · have hsafe := hheights.safe t i hi
      refine ⟨hsafe.leadsBack, fun t' ht' => ?_⟩
      rw [offsets_program]
      rcases hsafe.leads t' ht' with ⟨hmem, -⟩ | hfalse
      · exact hmem
      · exact hfalse.elim
    · exact absurd rfl hret
  refine ⟨hassembles.instructions, ⟨_, ops_program script line, ?_⟩, ?_, ?_, ?_, ?_, ?_⟩
  · intro hret
    obtain ⟨t, ht⟩ := exists_located_of_mem hret 0
    exact (hheights.safe t _ ht).ne_ret rfl
  · rw [← Array.length_toList, ← Array.length_toList, hassembles.bytes, hassembles.lines,
      Lowering.length_bytes, Lowering.length_byteLines]
  · intro t distance hjump
    refine ⟨?_, by unfold Chunk.forwardTarget; omega⟩
    rcases hjump with hjump | hjump
    · exact (hsafe t _ hjump (by simp)).2 _ (List.mem_singleton.mpr rfl)
    · exact (hsafe t _ hjump (by simp)).2 _ (List.mem_cons_of_mem _ (List.mem_singleton.mpr rfl))
  · intro t distance hloop
    obtain ⟨hback, hleads⟩ := hsafe t _ hloop (by simp)
    refine ⟨_, hleads _ (List.mem_singleton.mpr rfl), ?_, ?_⟩
    · unfold Chunk.backwardTarget
      have := hback.2
      omega
    · have := hback.1
      omega
  · rw [hconstants, List.size_toArray, List.range_eq_range']
    exact hpooled.indices
  · intro i hi index hindex
    obtain ⟨name, hname⟩ := hpooled.names i hi index hindex
    refine ⟨name, ?_⟩
    rw [hconstants, List.getElem?_toArray]
    exact hname

end Tree

namespace Compile

theorem exists_ok_of_isOk {ε α : Type} {x : Except ε α} (h : x.isOk) : ∃ a, x = .ok a := by
  cases x with
  | error e => cases h
  | ok a => exact ⟨a, rfl⟩

/-- The tokens of `while (a) a = nil;`. -/
def whileTokens : List Token :=
  [⟨.whileKw, "while", none, 1⟩, ⟨.leftParen, "(", none, 1⟩, ⟨.identifier, "a", none, 1⟩,
    ⟨.rightParen, ")", none, 1⟩, ⟨.identifier, "a", none, 2⟩, ⟨.equal, "=", none, 2⟩,
    ⟨.nilKw, "nil", none, 2⟩, ⟨.semicolon, ";", none, 2⟩, ⟨.eof, "", none, 3⟩]

theorem compile_whileTokens : ∃ chunk, (compile whileTokens).result = .ok chunk :=
  exists_ok_of_isOk (by decide +kernel)

/-- **Every compiled chunk is well formed.** -/
theorem exists_wellFormed {tokens : List Token} {chunk : Chunk}
    (h : (compile tokens).result = .ok chunk) : ∃ ops, chunk.WellFormed ops := by
  obtain ⟨script, rest, -, -, -, hfits, rfl⟩ := result_compile_eq_ok.mp h
  exact ⟨_, Tree.wellFormed_of_fits hfits⟩

theorem exists_wellFormed_while :
    ∃ chunk ops, (compile whileTokens).result = .ok chunk ∧ chunk.WellFormed ops := by
  obtain ⟨chunk, hchunk⟩ := compile_whileTokens
  obtain ⟨ops, hops⟩ := exists_wellFormed hchunk
  exact ⟨chunk, ops, hchunk, hops⟩

end Compile

end StackScript
