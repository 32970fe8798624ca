import StackScript.Proofs.Compile.Steps

/-!
# What holds of every step

All steps of the compiler are made from a few small ones. A property that holds of these, and of a
sequence if it holds of its parts, holds of all steps. Steps that only append code ask for the least
(**`Emitting`**), steps that declare variables (**`Declaring`**), go on to the next token
(**`Compositional`**), open blocks (**`Scoping`**) or record errors (**`Recovering`**) for a little
more. No step decides anything by a line: code is appended on the line of the token passed last
(**`OnLine`**), and a look at a token or at the code does not see its lines.

The first such property is that a step leaves a relation between states alone: **`Respects`**. Most
steps move along the tokens and add to the code, and do nothing else; a relation that does not mind
this is **`Tolerant`**. It may also not mind errors (**`Indifferent`**), or the scope
(**`Rescoping`**), or any of this (**`Oblivious`**).
-/

namespace StackScript.Compile

/-! ## Compositional properties

A property `J` of steps is given as a class, by what is asked for of the smallest steps. The lemmas
below then follow the compiler function by function, and each proof has the shape of the
function. -/

/-- The tokens do not follow the grammar. -/
def Cause.isSyntax : Cause → Bool
  | .expected _ | .invalidAssignmentTarget => true
  | _ => false

/-- A change of the code that appends bytes on the given line, and that is the same whatever this
line and those of the code before it are. -/
def OnLine (change : Nat → Chunk → List Nat → Chunk × List Nat) : Prop :=
  ∀ (chunk : Chunk) openJumps, ∃ code count constants openJumps', ∀ line lines,
    change line { chunk with lines := lines } openJumps =
      (⟨code, lines ++ (List.replicate count line).toArray, constants⟩, openJumps')

/-- An instruction is appended with as many lines as it has bytes. -/
theorem onLine_emit (i : Instruction) :
    OnLine fun line chunk openJumps => ((chunk.emit i line).2, openJumps) := by
  intro chunk openJumps
  refine ⟨chunk.code ++ i.encode.toArray, i.encode.length, chunk.constants, openJumps, ?_⟩
  intro line lines
  exact congrArg (·, openJumps) (Chunk.foldl_write i.encode line _)

/-- Nothing is appended where the lines stay as they are. -/
theorem onLine_of_same {change : Chunk → List Nat → Chunk × List Nat}
    (h : ∀ chunk openJumps lines, change { chunk with lines := lines } openJumps =
      ({ (change chunk openJumps).1 with lines := lines }, (change chunk openJumps).2)) :
    OnLine fun _ => change := by
  intro chunk openJumps
  refine ⟨(change chunk openJumps).1.code, 0, (change chunk openJumps).1.constants,
    (change chunk openJumps).2, ?_⟩
  intro line lines
  rw [List.replicate_zero, Array.append_empty]
  exact h chunk openJumps lines

/-- A property that a sequence of steps has if its parts have it, and that steps have which append
code for the token passed last. -/
class Emitting (J : (α : Type) → CompileM α → Prop) : Prop where
  pure : ∀ {α : Type} (a : α), J α (pure a)
  bind : ∀ {α β : Type} {x : CompileM α} {f : α → CompileM β}, J α x → (∀ a, J β (f a)) →
    J β (x >>= f)
  /-- A look at the state that sees neither the cursor nor lines and errors. -/
  inspect : ∀ {β : Type} {f : State → CompileM β},
    (∀ s cursor lines errors, f { s with
      cursor := cursor, chunk := { s.chunk with lines := lines }, errors := errors } = f s) →
    (∀ s, J β (f s)) → J β (get >>= f)
  /-- A look at the token passed last that does not see its line. -/
  readsPrevious : ∀ {β : Type} {f : Token → CompileM β},
    (∀ token line, f { token with line := line } = f token) → (∀ token, J β (f token)) →
    J β (previous >>= f)
  emits : ∀ change : Nat → Chunk → List Nat → Chunk × List Nat, OnLine change →
    J Unit (modify fun s =>
      { s with
        chunk := (change s.cursor.previous.line s.chunk s.openJumps).1
        openJumps := (change s.cursor.previous.line s.chunk s.openJumps).2 })
  refuses : ∀ {α : Type} {cause : Cause}, cause.isSyntax = false → J α (failAtPrevious cause)

/-- A property that steps which go on to the next token have as well. -/
class Compositional (J : (α : Type) → CompileM α → Prop) : Prop extends Emitting J where
  /-- A look at the next token that does not see its line. -/
  readsCurrent : ∀ {β : Type} {f : Token → CompileM β},
    (∀ token line, f { token with line := line } = f token) → (∀ token, J β (f token)) →
    J β (current >>= f)
  advance : J Unit advance
  failAtPrevious : ∀ {α : Type} (cause : Cause), J α (failAtPrevious cause)
  failAtCurrent : ∀ {α : Type} (cause : Cause), J α (failAtCurrent cause)

/-- A step that succeeds without passing a token or recording an error. -/
def Settles (g : CompileM Unit) : Prop :=
  ∀ s, ∃ chunk scope openJumps,
    g s = .ok () { s with chunk := chunk, scope := scope, openJumps := openJumps }

/-- A property that steps which change the scope have as well. -/
class Declaring (J : (α : Type) → CompileM α → Prop) : Prop extends Emitting J where
  rescopes : ∀ change : Scope → Scope, J Unit (modify fun s => { s with scope := change s.scope })

/-- A property that the steps have that open and close blocks. -/
class Scoping (J : (α : Type) → CompileM α → Prop) : Prop extends Compositional J, Declaring J where
  /-- A step whose failure is held back until another one has run. -/
  holdsBack : ∀ {x g : CompileM Unit}, J Unit x → J Unit g → Settles g →
    J Unit (attempt x >>= fun outcome => g >>= fun _ => settle outcome)

/-- A property that steps which record errors have as well. -/
class Recovering (J : (α : Type) → CompileM α → Prop) : Prop extends Compositional J where
  recovers : ∀ {x : CompileM Unit}, J Unit x → J Unit (recovering x)

/-- A property that all steps have. -/
class Universal (J : (α : Type) → CompileM α → Prop) : Prop extends Scoping J, Recovering J

section Compositional

variable {J : (α : Type) → CompileM α → Prop} {α β : Type}

/-- Both ways to go on have the property. -/
theorem respects_ite {c : Prop} [Decidable c] {x y : CompileM α} (hx : J α x) (hy : J α y) :
    J α (if c then x else y) := by
  split
  · exact hx
  · exact hy

section Emission

variable [Emitting J]

theorem respects_pure (a : α) : J α (pure a) := Emitting.pure a

/-- One step after the other. -/
theorem respects_bind {x : CompileM α} {f : α → CompileM β} (hx : J α x) (hf : ∀ a, J β (f a)) :
    J β (x >>= f) :=
  Emitting.bind hx hf

theorem respects_codeSize : J Nat codeSize :=
  Emitting.inspect (fun _ _ _ _ => rfl) fun _ => respects_pure _

/-- An instruction is appended on the line of the token passed last. -/
theorem respects_emit (i : Instruction) : J Unit (emit i) :=
  Emitting.emits _ (onLine_emit i)

theorem respects_forM_emit (is : List Instruction) : J PUnit (is.forM emit) := by
  induction is with
  | nil => exact respects_pure ()
  | cons i is ih =>
    apply respects_bind (respects_emit i)
    intro _
    exact ih

/-- Adding a constant looks at the number of constants only, and changes nothing else. -/
theorem addConstant_eq (value : Value) :
    addConstant value = (do
      let s ← get
      if s.chunk.constants.size < Chunk.maxConstants then
        modify fun s =>
          { s with chunk := { s.chunk with constants := s.chunk.constants.push value } }
        return s.chunk.constants.size.toUInt8
      else failAtPrevious .tooManyConstants) := by
  funext s
  unfold addConstant Chunk.addConstant?
  rw [bind_of_ok (get_apply s), bind_of_ok (get_apply s)]
  by_cases hroom : s.chunk.constants.size < Chunk.maxConstants
  · rw [if_pos hroom, if_pos hroom]
    rfl
  · rw [if_neg hroom, if_neg hroom]

/-- A constant is added, or the pool is full and the step is refused. -/
theorem respects_addConstant (value : Value) : J UInt8 (addConstant value) := by
  rw [addConstant_eq]
  have hpush : J Unit (modify fun s =>
      { s with chunk := { s.chunk with constants := s.chunk.constants.push value } }) :=
    Emitting.emits (fun _ chunk openJumps =>
      ({ chunk with constants := chunk.constants.push value }, openJumps))
      (onLine_of_same fun _ _ _ => rfl)
  refine Emitting.inspect (fun _ _ _ _ => rfl) fun s => ?_
  refine respects_ite ?_ (Emitting.refuses rfl)
  apply respects_bind hpush
  intro _
  exact respects_pure _

theorem respects_emitConstant (value : Value) : J Unit (emitConstant value) := by
  apply respects_bind (respects_addConstant value)
  intro index
  exact respects_emit _

/-- An instruction is emitted where the code ends. -/
theorem emitAt_eq (i : Instruction) :
    emitAt i = (do
      let size ← codeSize
      emit i
      return size) := by
  funext s
  rfl

theorem respects_emitAt (i : Instruction) : J Nat (emitAt i) := by
  rw [emitAt_eq]
  apply respects_bind respects_codeSize
  intro size
  apply respects_bind (respects_emit i)
  intro _
  exact respects_pure size

/-- A jump is appended and remembered until its distance is known. -/
theorem respects_emitJump (make : UInt16 → Instruction) : J Nat (emitJump make) := by
  apply respects_bind (respects_emitAt _)
  intro offset
  -- the jump that waits for its distance is all that is changed besides the code
  have hopens : J Unit (modify fun s => { s with openJumps := (offset + 1) :: s.openJumps }) :=
    Emitting.emits (fun _ chunk openJumps => (chunk, (offset + 1) :: openJumps))
      (onLine_of_same fun _ _ _ => rfl)
  apply respects_bind hopens
  intro _
  exact respects_pure _

/-- The distance of a jump is filled in, or the step is refused. -/
theorem respects_patchJump (operand : Nat) : J Unit (patchJump operand) := by
  apply respects_bind respects_codeSize
  intro size
  refine Emitting.inspect (fun _ _ _ _ => rfl) fun s => ?_
  -- a jump that was not emitted and a distance that is too large are refused
  refine respects_ite (respects_ite ?_ (Emitting.refuses rfl)) (Emitting.refuses rfl)
  exact Emitting.emits (fun _ chunk openJumps =>
    (chunk.patchWord operand (size - (operand + 2)).toUInt16, openJumps.erase operand))
    (onLine_of_same fun _ _ _ => rfl)

/-- A jump back is appended, or the step is refused. -/
theorem respects_emitLoop (start : Nat) : J Unit (emitLoop start) := by
  apply respects_bind respects_codeSize
  intro size
  exact respects_ite (respects_ite (respects_emit _) (Emitting.refuses rfl)) (Emitting.refuses rfl)

/-- How a loop ends, with or without a jump that leaves it. -/
theorem respects_loopEnd (leave : Option Nat) :
    J Unit (match leave with
      | none => pure ()
      | some done => do
        patchJump done
        emit .pop) := by
  cases leave with
  | none => exact respects_pure ()
  | some done =>
    apply respects_bind (respects_patchJump done)
    intro _
    exact respects_emit _

/-- A name is looked up. Only that of a global needs a constant. -/
theorem respects_access (name : String) : J Access (access name) := by
  refine Emitting.inspect (fun _ _ _ _ => rfl) fun s => ?_
  split
  · exact respects_ite (Emitting.refuses rfl) (respects_pure _)
  · apply respects_bind (respects_addConstant _)
    intro index
    exact respects_pure _

/-- A number is that of the token, or the one that its text stands for. -/
theorem respects_number : J Unit number := by
  refine Emitting.readsPrevious (fun _ _ => rfl) fun token => ?_
  split
  · exact respects_emitConstant _
  · split
    · exact respects_emitConstant _
    · exact Emitting.refuses rfl

theorem respects_string : J Unit string := by
  refine Emitting.readsPrevious (fun _ _ => rfl) fun token => ?_
  split
  · exact respects_emitConstant _
  · exact respects_emitConstant _

end Emission

/-! ### Declarations

A declaration changes the scope and may append code. -/

/-- Closes the innermost block and drops its locals. -/
def closeBlock : CompileM Unit := do
  let scope := (← get).scope
  let closed := scope.endBlock
  modify fun s => { s with scope := closed }
  (List.replicate (scope.locals.length - closed.locals.length) Instruction.pop).forM emit

/-- A block is opened, its body is compiled, and it is closed before a failure goes on. -/
theorem inBlock_eq (body : CompileM Unit) :
    inBlock body = (do
      modify fun s => { s with scope := s.scope.beginBlock }
      let outcome ← attempt body
      closeBlock
      settle outcome) := by
  simp only [inBlock, closeBlock, bind_assoc]

/-- Dropping values always succeeds. -/
theorem settles_closeBlock : Settles closeBlock := by
  intro s
  exact ⟨_, _, _, forM_emit_apply _ _⟩

/-- Defining a variable always succeeds. -/
theorem settles_defineVariable (name : Option UInt8) : Settles (defineVariable name) := by
  intro s
  cases name with
  | none => exact ⟨_, _, _, rfl⟩
  | some index => exact ⟨_, _, _, rfl⟩

section Declarations

variable [Declaring J]

theorem respects_closeBlock : J Unit closeBlock := by
  refine Emitting.inspect (fun _ _ _ _ => rfl) fun s => ?_
  apply respects_bind (Declaring.rescopes fun _ => s.scope.endBlock)
  intro _
  exact respects_forM_emit _

/-- The name of a global becomes a constant, and a local is added to the scope. -/
theorem respects_declareVariable : J (Option UInt8) declareVariable := by
  refine Emitting.readsPrevious (fun _ _ => rfl) fun token => ?_
  refine Emitting.inspect (fun _ _ _ _ => rfl) fun s => ?_
  -- a global is only named; a local is refused, or it is declared
  refine respects_ite ?_ (respects_ite ?_ (respects_ite ?_ ?_))
  · apply respects_bind (respects_addConstant _)
    intro index
    exact respects_pure _
  · exact Emitting.refuses rfl
  · exact Emitting.refuses rfl
  · apply respects_bind (Declaring.rescopes fun scope => scope.declare token.lexeme)
    intro _
    exact respects_pure _

theorem respects_defineVariable (name : Option UInt8) : J Unit (defineVariable name) := by
  cases name with
  | none => exact Declaring.rescopes Scope.markInitialized
  | some index => exact respects_emit _

end Declarations

/-! ### Expressions

The operands of a form are the recursive calls; the property is assumed of these. -/

section Steps

variable [Compositional J]

theorem respects_advance : J Unit advance := Compositional.advance

theorem respects_failAtPrevious (cause : Cause) : J α (failAtPrevious cause) :=
  Compositional.failAtPrevious cause

/-- A token of the given kind is passed if it is next. -/
theorem respects_accept (kind : Kind) : J Bool (accept kind) := by
  refine Compositional.readsCurrent (fun _ _ => rfl) fun token => ?_
  refine respects_ite ?_ (respects_pure _)
  apply respects_bind respects_advance
  intro _
  exact respects_pure _

/-- A token of the given kind has to be next. -/
theorem respects_expect (kind : Kind) (what : Expectation) : J Unit (expect kind what) := by
  apply respects_bind (respects_accept kind)
  intro found
  exact respects_ite (respects_pure _) (Compositional.failAtCurrent _)

section Operands

variable {operand : Precedence → CompileM Unit} (h : ∀ p, J Unit (operand p))

include h

/-- A name is read, or it is assigned to where that is allowed. -/
theorem respects_variableUse (canAssign : Bool) : J Unit (variableUse operand canAssign) := by
  refine Emitting.readsPrevious (fun _ _ => rfl) fun token => ?_
  apply respects_bind (respects_access _)
  intro place
  have hrest : ∀ assigns : Bool,
      J Unit (if assigns then do operand .assignment; emit place.set else emit place.get) := by
    intro assigns
    apply respects_ite
    · exact respects_bind (h _) fun _ => respects_emit _
    · exact respects_emit _
  exact respects_ite (respects_bind (respects_accept _) hrest)
    (respects_bind (respects_pure _) hrest)

/-- By cases on what an expression can start with. -/
theorem respects_prefixForm (canAssign : Bool) (form : PrefixForm) :
    J Unit (prefixForm operand canAssign form) := by
  cases form with
  | grouping => exact respects_bind (h _) fun _ => respects_expect _ _
  | unary operator => exact respects_bind (h _) fun _ => respects_emit _
  | name => exact respects_variableUse h canAssign
  | string => exact respects_string
  | number => exact respects_number
  | constant value => exact respects_emit _

/-- The short-circuit operators jump over their right operand. -/
theorem respects_infixForm (form : InfixForm) : J Unit (infixForm operand form) := by
  cases form with
  | binary operator => exact respects_bind (h _) fun _ => respects_forM_emit _
  | and =>
    apply respects_bind (respects_emitJump _)
    intro done
    apply respects_bind (respects_emit _)
    intro _
    apply respects_bind (h _)
    intro _
    exact respects_patchJump done
  | or =>
    apply respects_bind (respects_emitJump _)
    intro otherwise
    apply respects_bind (respects_emitJump _)
    intro done
    apply respects_bind (respects_patchJump otherwise)
    intro _
    apply respects_bind (respects_emit _)
    intro _
    apply respects_bind (h _)
    intro _
    exact respects_patchJump done

/-- By induction on how many operators may follow. -/
theorem respects_infixForms (precedence : Precedence) (count : Nat) :
    J Unit (infixForms operand precedence count) := by
  induction count with
  | zero => exact respects_pure ()
  | succ count ih =>
    refine Compositional.readsCurrent (fun _ _ => rfl) fun token => ?_
    refine respects_ite ?_ (respects_pure ())
    apply respects_bind respects_advance
    intro _
    split
    · exact respects_bind (respects_infixForm h _) fun _ => ih
    · exact respects_bind (respects_pure ()) fun _ => ih

end Operands

/-- By induction on the bound: the operands of a form have a smaller one. -/
theorem respects_expressionAt (bound : Nat) (precedence : Precedence) :
    J Unit (expressionAt bound precedence) := by
  induction bound generalizing precedence with
  | zero =>
    apply respects_bind respects_advance
    intro _
    exact respects_failAtPrevious _
  | succ bound ih =>
    apply respects_bind respects_advance
    intro _
    refine Emitting.readsPrevious (fun _ _ => rfl) fun token => ?_
    split
    · exact respects_failAtPrevious _
    -- where an assignment is possible, an equals sign that is left over is an error
    have hend : ∀ assigns : Bool,
        J Unit (if assigns then failAtPrevious .invalidAssignmentTarget else pure ()) :=
      fun _ => respects_ite (respects_failAtPrevious _) (respects_pure _)
    apply respects_bind (respects_prefixForm ih _ _)
    intro _
    apply respects_bind (respects_infixForms ih _ _)
    intro _
    split
    · exact respects_bind (respects_accept _) hend
    · exact respects_bind (respects_pure _) hend

/-! ### Statements

A statement with a body has the property if the body has it. -/

theorem respects_expression (bound : Nat) : J Unit (expression bound) :=
  respects_expressionAt bound _

theorem respects_initializer (bound : Nat) : J Unit (initializer bound) := by
  apply respects_bind (respects_accept _)
  intro given
  apply respects_ite
  · exact respects_bind (respects_expression bound) fun _ => respects_expect _ _
  · exact respects_bind (respects_emit _) fun _ => respects_expect _ _

theorem respects_printStatement (bound : Nat) : J Unit (printStatement bound) := by
  apply respects_bind (respects_expression bound)
  intro _
  apply respects_bind (respects_expect _ _)
  intro _
  exact respects_emit _

theorem respects_expressionStatement (bound : Nat) : J Unit (expressionStatement bound) := by
  apply respects_bind (respects_expression bound)
  intro _
  apply respects_bind (respects_expect _ _)
  intro _
  exact respects_emit _

theorem respects_condition (bound : Nat) (what : Expectation) :
    J Unit (condition bound what) := by
  apply respects_bind (respects_expect _ _)
  intro _
  apply respects_bind (respects_expression bound)
  intro _
  exact respects_expect _ _

/-- A conditional, with its branches as one step that is made twice. -/
theorem respects_ifStatement (bound : Nat) {branch : CompileM Unit} (h : J Unit branch) :
    J Unit (ifStatement bound branch) := by
  apply respects_bind (respects_condition _ _)
  intro _
  apply respects_bind (respects_emitJump _)
  intro otherwise
  apply respects_bind (respects_emit _)
  intro _
  apply respects_bind h
  intro _
  apply respects_bind (respects_emitJump _)
  intro done
  apply respects_bind (respects_patchJump otherwise)
  intro _
  apply respects_bind (respects_emit _)
  intro _
  apply respects_bind (respects_accept _)
  intro hasElse
  exact respects_ite (respects_bind h fun _ => respects_patchJump done) (respects_patchJump done)

theorem respects_whileStatement (bound : Nat) {body : CompileM Unit} (h : J Unit body) :
    J Unit (whileStatement bound body) := by
  apply respects_bind respects_codeSize
  intro start
  apply respects_bind (respects_condition _ _)
  intro _
  apply respects_bind (respects_emitJump _)
  intro done
  apply respects_bind (respects_emit _)
  intro _
  apply respects_bind h
  intro _
  apply respects_bind (respects_emitLoop start)
  intro _
  apply respects_bind (respects_patchJump done)
  intro _
  exact respects_emit _

/-- The second clause of a loop, which may be missing. -/
theorem respects_forCondition (bound : Nat) : J (Option Nat) (forCondition bound) := by
  apply respects_bind (respects_accept _)
  intro missing
  refine respects_ite (respects_pure _) ?_
  apply respects_bind (respects_expression bound)
  intro _
  apply respects_bind (respects_expect _ _)
  intro _
  apply respects_bind (respects_emitJump _)
  intro done
  apply respects_bind (respects_emit _)
  intro _
  exact respects_pure _

/-- The third clause of a loop, which may be missing. -/
theorem respects_forIncrement (bound start : Nat) : J Nat (forIncrement bound start) := by
  apply respects_bind (respects_accept _)
  intro missing
  refine respects_ite (respects_pure _) ?_
  apply respects_bind (respects_emitJump _)
  intro body
  apply respects_bind respects_codeSize
  intro increment
  apply respects_bind (respects_expression bound)
  intro _
  apply respects_bind (respects_emit _)
  intro _
  apply respects_bind (respects_expect _ _)
  intro _
  apply respects_bind (respects_emitLoop start)
  intro _
  apply respects_bind (respects_patchJump body)
  intro _
  exact respects_pure _

/-- By induction on how often a step may be repeated. -/
theorem respects_repeatUntil (stop : Kind → Bool) {step : CompileM Unit} (h : J Unit step)
    (count : Nat) : J Unit (repeatUntil stop step count) := by
  induction count with
  | zero => exact respects_pure ()
  | succ count ih =>
    refine Compositional.readsCurrent (fun _ _ => rfl) fun token => ?_
    exact respects_ite (respects_pure _) (respects_bind h fun _ => ih)

end Steps

/-! ### Steps that change the scope

Blocks and variables hold back a failure until the scope is in order again. -/

section Scopes

variable [Scoping J]

/-- The block is closed before a failure of its body goes on. -/
theorem respects_inBlock {body : CompileM Unit} (h : J Unit body) : J Unit (inBlock body) := by
  rw [inBlock_eq]
  apply respects_bind (Declaring.rescopes Scope.beginBlock)
  intro _
  exact Scoping.holdsBack h respects_closeBlock settles_closeBlock

/-- The variable is defined before a failure of its initializer goes on. -/
theorem respects_variableDeclaration (bound : Nat) : J Unit (variableDeclaration bound) := by
  apply respects_bind (respects_expect _ _)
  intro _
  apply respects_bind respects_declareVariable
  intro name
  exact Scoping.holdsBack (respects_initializer bound) (respects_defineVariable name)
    (settles_defineVariable name)

theorem respects_forInitializer (bound : Nat) : J Unit (forInitializer bound) := by
  apply respects_bind (respects_accept _)
  intro missing
  refine respects_ite (respects_pure _) ?_
  apply respects_bind (respects_accept _)
  intro declares
  exact respects_ite (respects_variableDeclaration bound) (respects_expressionStatement bound)

theorem respects_forStatement (bound : Nat) {body : CompileM Unit} (h : J Unit body) :
    J Unit (forStatement bound body) := by
  apply respects_bind (respects_expect _ _)
  intro _
  apply respects_bind (respects_forInitializer bound)
  intro _
  apply respects_bind respects_codeSize
  intro start
  apply respects_bind (respects_forCondition bound)
  intro leave
  apply respects_bind (respects_forIncrement bound start)
  intro continueAt
  apply respects_bind h
  intro _
  apply respects_bind (respects_emitLoop continueAt)
  intro _
  exact respects_loopEnd leave

end Scopes

/-! ### All steps

Only `declaration` records errors, and so do all steps that contain one. -/

section Universal

variable [Universal J]

/-- A declaration records the error of what it declares. -/
theorem respects_declaration (bound : Nat) {statement : CompileM Unit} (h : J Unit statement) :
    J Unit (declaration bound statement) := by
  apply Recovering.recovers
  apply respects_bind (respects_accept _)
  intro declares
  exact respects_ite (respects_variableDeclaration bound) h

theorem respects_block (bound : Nat) {statement : CompileM Unit} (h : J Unit statement) :
    J Unit (block bound statement) := by
  apply respects_bind (respects_repeatUntil _ (respects_declaration bound h) _)
  intro _
  exact respects_expect _ _

/-- By induction on the bound: a statement inside another has a smaller one. -/
theorem respects_statement (bound : Nat) : J Unit (statement bound) := by
  induction bound with
  | zero => exact respects_expressionStatement 0
  | succ bound ih =>
    refine Compositional.readsCurrent (fun _ _ => rfl) fun token => ?_
    -- every statement but the last kind begins with a keyword or a brace
    split
    · exact respects_bind respects_advance fun _ => respects_printStatement bound
    · exact respects_bind respects_advance fun _ =>
        respects_inBlock (respects_forStatement bound ih)
    · exact respects_bind respects_advance fun _ => respects_ifStatement bound ih
    · exact respects_bind respects_advance fun _ => respects_whileStatement bound ih
    · exact respects_bind respects_advance fun _ => respects_inBlock (respects_block bound ih)
    · exact respects_expressionStatement (bound + 1)

/-- What holds of the smallest steps holds of compiling a whole script. -/
theorem respects_program (bound : Nat) : J Unit (program bound) := by
  have hdeclaration := respects_declaration bound (respects_statement (J := J) bound)
  apply respects_bind (respects_repeatUntil _ hdeclaration _)
  intro _
  apply respects_bind respects_advance
  intro _
  exact respects_emit _

end Universal

end Compositional

/-! ## Relations between states

A relation between the state before a step and the one after it is such a property. What a step may
do is told by what the relation tolerates. -/

/-- The state that a step leaves, whether it succeeds or fails. -/
def endState {α : Type} : EStateM.Result Error State α → State
  | .ok _ s => s
  | .error _ s => s

/-- A relation that tolerates what happens to tokens and code. New code is on the line of the token
passed last. -/
class Tolerant (R : State → State → Prop) : Prop where
  refl : ∀ s, R s s
  trans : ∀ {s t u}, R s t → R t u → R s u
  advances : ∀ s, R s { s with cursor := s.cursor.advance }
  emits : ∀ s chunk openJumps,
    (∃ count,
      chunk.lines = s.chunk.lines ++ (List.replicate count s.cursor.previous.line).toArray) →
    R s { s with chunk := chunk, openJumps := openJumps }

/-- A relation that tolerates errors as well. -/
class Indifferent (R : State → State → Prop) : Prop extends Tolerant R where
  synchronizes : ∀ s, R s { s with cursor := s.cursor.synchronize }
  records : ∀ s e, R s { s with errors := s.errors.push e }

/-- A relation that tolerates changes of the scope as well. -/
class Rescoping (R : State → State → Prop) : Prop extends Tolerant R where
  rescopes : ∀ s scope, R s { s with scope := scope }

/-- A relation that tolerates all that a step can do. -/
class Oblivious (R : State → State → Prop) : Prop extends Indifferent R, Rescoping R

/-- A step leads only to states that are related to the one it starts in. -/
def Respects (R : State → State → Prop) {α : Type} (x : CompileM α) : Prop :=
  ∀ s, R s (endState (x s))

section Respects

variable {R : State → State → Prop} {α β : Type}

/-- A step that changes the state and nothing else. -/
theorem respects_modify {f : State → State} (h : ∀ s, R s (f s)) :
    Respects R (modify f : CompileM Unit) := h

/-- Holding back a failure does not change the state. -/
theorem respects_attempt {x : CompileM Unit} (hx : Respects R x) : Respects R (attempt x) := by
  intro s
  have hstep := hx s
  unfold attempt
  cases h : x s with
  | ok _ t =>
    rw [h] at hstep
    exact hstep
  | error e t =>
    rw [h] at hstep
    exact hstep

theorem respects_throw [Tolerant R] (e : Error) : Respects R (throw e : CompileM α) := Tolerant.refl

/-- A failure that was held back goes on and changes nothing. -/
theorem respects_settle [Tolerant R] (outcome : Option Error) : Respects R (settle outcome) := by
  cases outcome
  · exact Tolerant.refl
  · exact respects_throw _

/-- What both parts of a sequence leave alone the sequence leaves alone. -/
theorem Respects.andThen [Tolerant R] {x : CompileM α} {f : α → CompileM β} (hx : Respects R x)
    (hf : ∀ a, Respects R (f a)) : Respects R (x >>= f) := by
  intro s
  have hfirst := hx s
  cases h : x s with
  | ok a t =>
    rw [bind_of_ok h]
    rw [h] at hfirst
    exact Tolerant.trans hfirst (hf a t)
  | error e t =>
    rw [bind_of_error h]
    rw [h] at hfirst
    exact hfirst

theorem respects_previous [Tolerant R] : Respects R previous := Tolerant.refl

theorem respects_current [Tolerant R] : Respects R current := Tolerant.refl

/-- Code that is appended for the token passed last. -/
theorem respects_emits [Tolerant R] {change : Nat → Chunk → List Nat → Chunk × List Nat}
    (h : OnLine change) : Respects R (modify fun s =>
      { s with
        chunk := (change s.cursor.previous.line s.chunk s.openJumps).1
        openJumps := (change s.cursor.previous.line s.chunk s.openJumps).2 }) := by
  intro s
  obtain ⟨code, count, constants, openJumps', hchange⟩ := h s.chunk s.openJumps
  have hlines := congrArg (Chunk.lines ∘ Prod.fst) (hchange s.cursor.previous.line s.chunk.lines)
  exact Tolerant.emits s _ _ ⟨count, hlines⟩

instance [Tolerant R] : Compositional (@Respects R) where
  pure _ := Tolerant.refl
  bind := Respects.andThen
  inspect _ hf := fun s => hf s s
  readsPrevious _ hf := respects_previous.andThen hf
  readsCurrent _ hf := respects_current.andThen hf
  advance := Tolerant.advances
  emits _ h := respects_emits h
  refuses _ := Tolerant.refl
  failAtPrevious _ := Tolerant.refl
  failAtCurrent _ := Tolerant.refl

instance [Rescoping R] : Scoping (@Respects R) where
  rescopes _ := fun s => Rescoping.rescopes s _
  holdsBack hx hg _ := (respects_attempt hx).andThen fun outcome => hg.andThen fun _ =>
    respects_settle outcome

instance [Indifferent R] : Recovering (@Respects R) where
  recovers hx := by
    refine (respects_attempt hx).andThen fun outcome => ?_
    cases outcome with
    | none => exact Tolerant.refl
    | some e =>
      exact respects_modify fun s => Tolerant.trans (Indifferent.records s e)
        (Indifferent.synchronizes { s with errors := s.errors.push e })

instance [Oblivious R] : Universal (@Respects R) where

end Respects

end StackScript.Compile
