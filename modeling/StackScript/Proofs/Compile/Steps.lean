import StackScript.Compile.Program
import StackScript.Proofs.Actions
import StackScript.Proofs.Bytecode.Assembly

/-!
# What the steps of the compiler do

One equation for each primitive step: the state it leaves, or that it fails. Two ways to change a
state are enough to say most of it, to pass tokens (`State.past`) and to append code
(`State.append`).
-/

namespace StackScript.Compile

/-! ## Two ways to change a state

What a step does to a state is written with two operations: tokens are passed, and code is appended.
They do not get in each other's way, so the pieces of a run can be put together. -/

/-- The state when the token passed last is `last` and `rest` is ahead. -/
def State.past (s : State) (last : Token) (rest : List Token) : State :=
  { s with cursor := ⟨last, rest⟩ }

/-- The state with more code. -/
def State.append (s : State) (l : Lowering) : State :=
  { s with chunk := s.chunk.extend l }

@[simp] theorem State.cursor_past (s : State) (last : Token) (rest : List Token) :
    (s.past last rest).cursor = ⟨last, rest⟩ := rfl

@[simp] theorem State.chunk_past (s : State) (last : Token) (rest : List Token) :
    (s.past last rest).chunk = s.chunk := rfl

@[simp] theorem State.scope_past (s : State) (last : Token) (rest : List Token) :
    (s.past last rest).scope = s.scope := rfl

@[simp] theorem State.openJumps_past (s : State) (last : Token) (rest : List Token) :
    (s.past last rest).openJumps = s.openJumps := rfl

@[simp] theorem State.errors_past (s : State) (last : Token) (rest : List Token) :
    (s.past last rest).errors = s.errors := rfl

@[simp] theorem State.cursor_append (s : State) (l : Lowering) :
    (s.append l).cursor = s.cursor := rfl

@[simp] theorem State.chunk_append (s : State) (l : Lowering) :
    (s.append l).chunk = s.chunk.extend l := rfl

@[simp] theorem State.scope_append (s : State) (l : Lowering) :
    (s.append l).scope = s.scope := rfl

@[simp] theorem State.openJumps_append (s : State) (l : Lowering) :
    (s.append l).openJumps = s.openJumps := rfl

@[simp] theorem State.errors_append (s : State) (l : Lowering) :
    (s.append l).errors = s.errors := rfl

/-- Pieces of code are appended one after the other. -/
theorem State.append_append (s : State) (a b : Lowering) :
    (s.append a).append b = s.append (a ++ b) := by
  simp [State.append, Chunk.extend_append]

/-- It does not matter whether tokens are passed before or after code is appended. -/
@[simp] theorem State.past_append_past (s : State) (a b : Token) (ts us : List Token)
    (l : Lowering) : ((s.past a ts).append l).past b us = (s.past b us).append l := rfl

/-- Only where the cursor is in the end matters. -/
@[simp] theorem State.past_past (s : State) (a b : Token) (ts us : List Token) :
    (s.past a ts).past b us = s.past b us := rfl

theorem State.past_of_cursor {s : State} {last : Token} {rest : List Token}
    (h : s.cursor = ⟨last, rest⟩) : s.past last rest = s := by
  rw [State.past, ← h]

@[simp] theorem State.append_empty (s : State) : s.append .empty = s := by
  simp [State.append]

/-! ## Tokens

What the smallest steps do, and what they do where the next token is known. -/

theorem previous_apply (s : State) : previous s = .ok s.cursor.previous s := rfl

theorem current_apply (s : State) : current s = .ok s.cursor.current s := rfl

theorem advance_apply (s : State) :
    advance s = .ok () { s with cursor := s.cursor.advance } := rfl

/-- The next token is passed if it has the given kind. -/
theorem accept_apply (kind : Kind) (s : State) :
    accept kind s =
      if s.cursor.current.kind = kind then .ok true { s with cursor := s.cursor.advance }
      else .ok false s := by
  unfold accept
  rw [bind_of_ok (current_apply s)]
  split <;> rfl

theorem failAtPrevious_apply {α : Type} (cause : Cause) (s : State) :
    failAtPrevious (α := α) cause s = .error (.atToken s.cursor.previous cause) s := rfl

/-- The next token has to have the given kind. -/
theorem expect_apply (kind : Kind) (what : Expectation) (s : State) :
    expect kind what s =
      if s.cursor.current.kind = kind then .ok () { s with cursor := s.cursor.advance }
      else .error (.atToken s.cursor.current (.expected what)) s := by
  unfold expect
  by_cases h : s.cursor.current.kind = kind
  · rw [bind_of_ok ((accept_apply kind s).trans (if_pos h)), if_pos h]
    rfl
  · rw [bind_of_ok ((accept_apply kind s).trans (if_neg h)), if_neg h]
    rfl

/-- The kind of the next token; past the end it is that of an end of script. -/
def nextKind (tokens : List Token) : Kind :=
  match tokens with
  | [] => .eof
  | token :: _ => token.kind

/-- At the end of the tokens the next one is the end of the script. -/
theorem current_kind (c : Cursor) : c.current.kind = nextKind c.ahead := by
  obtain ⟨previous, ahead⟩ := c
  cases ahead <;> rfl

@[simp] theorem nextKind_cons (token : Token) (rest : List Token) :
    nextKind (token :: rest) = token.kind := rfl

section Tokens

variable {s : State} {token : Token} {rest : List Token}

theorem advance_cons (h : s.cursor.ahead = token :: rest) :
    advance s = .ok () (s.past token rest) := by
  rw [advance_apply]
  simp [Cursor.advance, Cursor.current, h, State.past]

/-- A token of the given kind is next. -/
theorem accept_cons (h : s.cursor.ahead = token :: rest) (kind : Kind) (hkind : token.kind = kind) :
    accept kind s = .ok true (s.past token rest) := by
  rw [accept_apply, current_kind, h, nextKind_cons, if_pos hkind]
  simp [Cursor.advance, Cursor.current, h, State.past]

/-- A token of another kind is next. -/
theorem accept_of_ne (kind : Kind) (h : nextKind s.cursor.ahead ≠ kind) :
    accept kind s = .ok false s := by
  rw [accept_apply, current_kind, if_neg h]

/-- The token that is expected is next. -/
theorem expect_cons (h : s.cursor.ahead = token :: rest) (kind : Kind) (what : Expectation)
    (hkind : token.kind = kind) : expect kind what s = .ok () (s.past token rest) := by
  rw [expect_apply, current_kind, h, nextKind_cons, if_pos hkind]
  simp [Cursor.advance, Cursor.current, h, State.past]

end Tokens

/-! ## Code

What the steps do that append code. -/

theorem codeSize_apply (s : State) : codeSize s = .ok s.chunk.size s := rfl

/-- An instruction is appended on the line of the token passed last, where the code ends. -/
theorem emitAt_apply (i : Instruction) (s : State) :
    emitAt i s =
      .ok s.chunk.size (s.append (.instruction i s.cursor.previous.line)) := by
  show EStateM.Result.ok (s.chunk.emit i s.cursor.previous.line).1
    { s with chunk := (s.chunk.emit i s.cursor.previous.line).2 } = _
  rw [Chunk.emit_eq_extend]
  rfl

/-- An instruction is appended on the line of the token passed last. -/
theorem emit_apply (i : Instruction) (s : State) :
    emit i s = .ok () (s.append (.instruction i s.cursor.previous.line)) := by
  unfold emit
  rw [discard_of_ok (emitAt_apply i s)]

/-- Several instructions are emitted on one line. -/
theorem forM_emit_apply (is : List Instruction) (s : State) :
    is.forM emit s = .ok () (s.append (.instructions is s.cursor.previous.line)) := by
  induction is generalizing s with
  | nil =>
    have hnone : Lowering.instructions [] s.cursor.previous.line = .empty := rfl
    rw [hnone, State.append_empty]
    rfl
  | cons i is ih =>
    rw [List.forM_eq_forM, List.forM_cons, bind_of_ok (emit_apply i s)]
    rw [← List.forM_eq_forM, ih, State.append_append]
    rfl

/-- A constant is added to the pool, or there is no room for it. -/
theorem addConstant_apply (value : Value) (s : State) :
    addConstant value s =
      if s.chunk.constants.size < Chunk.maxConstants then
        .ok s.chunk.constants.size.toUInt8 (s.append (.pool [value]))
      else .error (.atToken s.cursor.previous .tooManyConstants) s := by
  have hget : (get : CompileM State) s = .ok s s := rfl
  unfold addConstant
  rw [bind_of_ok hget, Chunk.addConstant?_eq]
  split <;> rfl

/-- A constant is added together with the instruction that loads it. -/
theorem emitConstant_apply (value : Value) (s : State) :
    emitConstant value s =
      if s.chunk.constants.size < Chunk.maxConstants then
        .ok () (s.append (.pool [value] ++
          .instruction (.constant s.chunk.constants.size.toUInt8) s.cursor.previous.line))
      else .error (.atToken s.cursor.previous .tooManyConstants) s := by
  unfold emitConstant
  split
  · rename_i h
    rw [bind_of_ok ((addConstant_apply value s).trans (if_pos h)), emit_apply,
      State.append_append]
    rfl
  · rename_i h
    rw [bind_of_error ((addConstant_apply value s).trans (if_neg h))]

/-- The state after a jump whose distance is not known yet. -/
def State.awaiting (s : State) (make : UInt16 → Instruction) : State :=
  { s.append (.jump make maxDistance s.cursor.previous.line) with
    openJumps := (s.chunk.size + 1) :: s.openJumps }

@[simp] theorem State.cursor_awaiting (s : State) (make : UInt16 → Instruction) :
    (s.awaiting make).cursor = s.cursor := rfl

@[simp] theorem State.errors_awaiting (s : State) (make : UInt16 → Instruction) :
    (s.awaiting make).errors = s.errors := rfl

/-- A jump that waits for its distance stands in the code with the largest one. -/
@[simp] theorem State.chunk_awaiting (s : State) (make : UInt16 → Instruction) :
    (s.awaiting make).chunk =
      s.chunk.extend (.jump make maxDistance s.cursor.previous.line) := rfl

@[simp] theorem State.scope_awaiting (s : State) (make : UInt16 → Instruction) :
    (s.awaiting make).scope = s.scope := rfl

/-- A jump is emitted, and its operand is one byte behind its start. -/
theorem emitJump_apply (make : UInt16 → Instruction) (s : State) :
    emitJump make s = .ok (s.chunk.size + 1) (s.awaiting make) := by
  unfold emitJump
  rw [bind_of_ok (emitAt_apply _ s)]
  rfl

/-- An open jump that has been followed by `body` is completed to lead to the end of `body`, if
that is not too far. -/
theorem patchJump_apply {make : UInt16 → Instruction} (hmake : Chunk.IsForward make) {s : State}
    {c : Chunk} {line : Nat} {body : Lowering}
    (hchunk : s.chunk = (c.extend (.jump make maxDistance line)).extend body)
    (hopen : c.size + 1 ∈ s.openJumps) :
    patchJump (c.size + 1) s =
      if body.size ≤ maxDistance then
        .ok ()
          { s with
            chunk := c.extend (.jump make body.size line ++ body)
            openJumps := s.openJumps.erase (c.size + 1) }
      else .error (.atToken s.cursor.previous .jumpTooFar) s := by
  have hget : (get : CompileM State) s = .ok s s := rfl
  have hsize : s.chunk.size = c.size + 3 + body.size := by
    simp [hchunk, hmake.size_jump]
  have hdistance : s.chunk.size - (c.size + 1 + 2) = body.size := by omega
  unfold patchJump
  rw [bind_of_ok (codeSize_apply s), bind_of_ok hget, if_pos ⟨by omega, hopen⟩, hdistance]
  split
  · rw [← Chunk.patchWord_extend hmake c maxDistance body.size line body, ← hchunk]
    rfl
  · rfl

/-- A jump that is open is completed if its distance can be counted and is not too far. -/
theorem patchJump_of_open {s : State} {operand : Nat} (hopen : operand ∈ s.openJumps) :
    patchJump operand s =
      if operand + 2 ≤ s.chunk.size then
        if s.chunk.size - (operand + 2) ≤ maxDistance then
          .ok ()
            { s with
              chunk := s.chunk.patchWord operand (s.chunk.size - (operand + 2)).toUInt16
              openJumps := s.openJumps.erase operand }
        else .error (.atToken s.cursor.previous .jumpTooFar) s
      else .error (.atToken s.cursor.previous .misplacedJump) s := by
  unfold patchJump
  rw [bind_of_ok (codeSize_apply s), bind_of_ok (get_apply s)]
  -- that the jump is open is known, so that only its place is checked
  by_cases hroom : operand + 2 ≤ s.chunk.size
  · rw [if_pos (And.intro hroom hopen), if_pos hroom]
    split <;> rfl
  · rw [if_neg (fun hc => hroom hc.1), if_neg hroom]
    rfl

/-- A jump back to `start`, if it is not too far. -/
theorem emitLoop_apply (start : Nat) (s : State) (h : start ≤ s.chunk.size) :
    emitLoop start s =
      if s.chunk.size - start + 3 ≤ maxDistance then
        .ok () (s.append (.jump .loop (s.chunk.size - start + 3) s.cursor.previous.line))
      else .error (.atToken s.cursor.previous .loopTooLarge) s := by
  unfold emitLoop
  rw [bind_of_ok (codeSize_apply s), if_pos h]
  split
  · rw [emit_apply]
    rfl
  · rfl

end StackScript.Compile
