import StackScript.Proofs.Compile.ScopeStack
import StackScript.Proofs.Compile.ScriptCode

/-!
# The compiler under observation

The compiler again, which now also makes notes. What is noted is up to an **`Observer`**: it is
shown each request of the compiler to its scope and its code, and each call of `declaration`,
`statement` and `initializer`, together with the states in which they are made. Notes do not change
what the compiler does, so every observer sees the compiler itself: **`erases_program`**.

* **`Noted`**: a step that makes notes.
* **`Observed`**: the compiler, function by function.
* **`Erases`**: a step without its notes. Its rules follow the compiler's steps.
-/

namespace StackScript.Compile

/-! ## Observers

An observer is told what the compiler asks for and what it calls, and answers with its notes. It
cannot change the state. -/

/-- What the compiler asks for. -/
inductive Request where
  /-- A change of the scope. -/
  | scope (op : Scope.Operation)
  /-- Whether the innermost block declares a name. -/
  | declares (name : String)
  /-- Which local a name stands for. -/
  | resolve (name : String)
  /-- A constant is added. -/
  | constant (value : Value)
  /-- A jump is emitted whose distance is to be filled in. -/
  | jump (make : UInt16 → Instruction)
  /-- The distance is filled in of the jump that has its operand at an offset. -/
  | patch (operand : Nat)
  /-- A jump back to an offset is emitted. -/
  | loop (start : Nat)

/-- The functions of the compiler whose calls can be observed. -/
inductive Routine where
  | declaration
  | statement
  | initializer
deriving DecidableEq

/-- Says what is noted about a compilation. -/
structure Observer (ν : Type) where
  /-- What is noted about a request that is made in the given state. -/
  onRequest : Request → State → List ν
  /-- What is noted about a call that starts and ends in the given states. It comes before what is
  noted during the call. -/
  onCall : Routine → State → State → List ν

/-- A call, with the states in which it starts and ends. -/
structure Call where
  routine : Routine
  before : State
  after : State

/-- Notes the calls of some of the functions, in the order in which they start. -/
def Observer.calls (which : Routine → Bool) : Observer Call where
  onRequest _ _ := []
  onCall routine s t := if which routine then [⟨routine, s, t⟩] else []

/-- An observer of calls notes nothing about requests. -/
theorem not_mem_onRequest (which : Routine → Bool) (request : Request) (s : State) :
    ∀ call ∈ (Observer.calls which).onRequest request s, False :=
  fun _ hcall => absurd hcall List.not_mem_nil

/-- It notes nothing about calls of the other functions. -/
theorem not_mem_onCall {which : Routine → Bool} {routine : Routine} (h : which routine = false)
    (s t : State) : ∀ call ∈ (Observer.calls which).onCall routine s t, False := by
  intro call hcall
  simp [Observer.calls, h] at hcall

/-- A step that also makes notes, the earliest first. -/
def Noted (ν α : Type) : Type :=
  State → EStateM.Result Error State α × List ν

namespace Noted

variable {ν α β : Type}

/-- A step of the compiler about which nothing is noted. -/
def lift (x : CompileM α) : Noted ν α :=
  fun s => (x s, [])

/-- One step after the other. A failure ends the sequence, and the notes so far are kept. -/
def bind (x : Noted ν α) (f : α → Noted ν β) : Noted ν β := fun s =>
  match x s with
  | (.ok a t, notes) => ((f a t).1, notes ++ (f a t).2)
  | (.error e t, notes) => (.error e t, notes)

instance : Monad (Noted ν) where
  pure a := lift (pure a)
  bind := bind

instance : MonadLift CompileM (Noted ν) := ⟨lift⟩

/-- Asks for something; the request itself is made by the next step. -/
def ask (o : Observer ν) (request : Request) : Noted ν Unit :=
  fun s => (.ok () s, o.onRequest request s)

/-- A call of one of the functions that are observed. -/
def call (o : Observer ν) (routine : Routine) (x : Noted ν Unit) : Noted ν Unit := fun s =>
  ((x s).1, o.onCall routine s (endState (x s).1) ++ (x s).2)

/-- Runs a step and returns its error, if it has one, as a value. -/
def attempt (step : Noted ν Unit) : Noted ν (Option Error) := fun s =>
  match step s with
  | (.ok _ t, notes) => (.ok none t, notes)
  | (.error e t, notes) => (.ok (some e) t, notes)

/-- After a step that succeeds the notes of the rest follow its own. -/
theorem bind_of_ok {x : Noted ν α} {f : α → Noted ν β} {s t : State} {a : α} {notes : List ν}
    (h : x s = (.ok a t, notes)) : (x >>= f) s = ((f a t).1, notes ++ (f a t).2) := by
  show bind x f s = _
  rw [bind, h]

/-- After a step that fails nothing more is done or noted. -/
theorem bind_of_error {x : Noted ν α} {f : α → Noted ν β} {s t : State} {e : Error}
    {notes : List ν} (h : x s = (.error e t, notes)) : (x >>= f) s = (.error e t, notes) := by
  show bind x f s = _
  rw [bind, h]

/-- After a step about which nothing is noted the rest makes all notes. -/
theorem lift_bind_of_ok {x : CompileM α} {f : α → Noted ν β} {a : α} {s t : State}
    (h : x s = .ok a t) : (lift x >>= f) s = f a t := by
  have hlift : (lift x : Noted ν α) s = (.ok a t, []) := by
    rw [lift, h]
  rw [bind_of_ok hlift, List.nil_append]

/-- Nothing is noted about a value that is returned. -/
theorem bind_pure_self (x : Noted ν α) : (x >>= fun a => pure a) = x := by
  funext s
  cases h : x s with
  | mk result notes =>
    cases result with
    | ok a t =>
      rw [bind_of_ok h]
      exact congrArg (Prod.mk _) (List.append_nil notes)
    | error e t => rw [bind_of_error h]

/-- The notes of a sequence do not depend on how it is put together. -/
theorem bind_bind {γ : Type} (x : Noted ν α) (f : α → Noted ν β) (g : β → Noted ν γ) :
    (x >>= f >>= g) = x >>= fun a => f a >>= g := by
  funext s
  cases h : x s with
  | mk result notes =>
    cases result with
    | error e t => rw [bind_of_error (bind_of_error h), bind_of_error h]
    | ok a t =>
      rw [bind_of_ok h]
      cases h' : f a t with
      | mk result' notes' =>
        have hfirst : (x >>= f) s = (result', notes ++ notes') := by
          rw [bind_of_ok h, h']
        cases result' with
        | error e u => rw [bind_of_error hfirst, bind_of_error h']
        | ok b u => rw [bind_of_ok hfirst, bind_of_ok h', List.append_assoc]

instance : LawfulMonad (Noted ν) :=
  LawfulMonad.mk' (Noted ν) bind_pure_self (fun _ _ => rfl) bind_bind

end Noted

/-! ## The compiler with its notes

Each of these is the function of the compiler with the same name. It asks before it does something
to the scope or the code that can go wrong. -/

namespace Observed

open Noted (ask call)

variable {ν : Type} (o : Observer ν)

/-- Changes the scope. -/
def perform (op : Scope.Operation) : Noted ν Unit := do
  ask o (.scope op)
  (modify fun s => { s with scope := op.apply s.scope } : CompileM Unit)

def addConstant (value : Value) : Noted ν UInt8 := do
  ask o (.constant value)
  Compile.addConstant value

def emitConstant (value : Value) : Noted ν Unit := do
  emit (.constant (← addConstant o value))

def emitJump (make : UInt16 → Instruction) : Noted ν Nat := do
  ask o (.jump make)
  Compile.emitJump make

def patchJump (operand : Nat) : Noted ν Unit := do
  ask o (.patch operand)
  Compile.patchJump operand

def emitLoop (start : Nat) : Noted ν Unit := do
  ask o (.loop start)
  Compile.emitLoop start

/-- Closes the innermost block and drops its locals. -/
def closeBlock : Noted ν Unit := do
  let scope := (← (get : CompileM State)).scope
  perform o .endBlock
  ((List.replicate (scope.locals.length - scope.endBlock.locals.length) Instruction.pop).forM
    emit : CompileM PUnit)

def inBlock (body : Noted ν Unit) : Noted ν Unit := do
  perform o .beginBlock
  let outcome ← Noted.attempt body
  closeBlock o
  settle outcome

def declareVariable : Noted ν (Option UInt8) := do
  let name := (← previous).lexeme
  let scope := (← (get : CompileM State)).scope
  if scope.depth = 0 then
    return some (← addConstant o (.string name))
  else
    ask o (.declares name)
    if scope.declares name then
      failAtPrevious .alreadyDeclared
    else if scope.isFull then
      failAtPrevious .tooManyLocals
    else
      perform o (.declare name)
      return none

def defineVariable : Option UInt8 → Noted ν Unit
  | some name => emit (.defineGlobal name)
  | none => perform o .markInitialized

def access (name : String) : Noted ν Access := do
  ask o (.resolve name)
  match (← (get : CompileM State)).scope.resolve name with
  | some (slot, l) =>
    if l.depth.isNone then failAtPrevious .selfReference
    else return ⟨.getLocal slot, .setLocal slot⟩
  | none =>
    let index ← addConstant o (.string name)
    return ⟨.getGlobal index, .setGlobal index⟩

/-! ### Expressions

No calls are noted inside an expression, and no requests but those for constants, names and
jumps. -/

def number : Noted ν Unit := do
  let token ← previous
  match token.literal with
  | some (.number value) => emitConstant o (.number value)
  | _ =>
    match Decimal.readNumber? token.lexeme with
    | some value => emitConstant o (.number value)
    | none => failAtPrevious .invalidNumber

def string : Noted ν Unit := do
  let token ← previous
  match token.literal with
  | some (.string value) => emitConstant o (.string value)
  | _ =>
    emitConstant o (.string (String.ofList (Text.trimEnds (· == '"') token.lexeme.toList)))

def variableUse (operand : Precedence → Noted ν Unit) (canAssign : Bool) : Noted ν Unit := do
  let place ← access o (← previous).lexeme
  let assigns ← if canAssign then accept .equal else pure false
  if assigns then
    operand .assignment
    emit place.set
  else
    emit place.get

def prefixForm (operand : Precedence → Noted ν Unit) (canAssign : Bool) :
    PrefixForm → Noted ν Unit
  | .grouping => do
    operand .assignment
    expect .rightParen .parenAfterExpression
  | .unary operator => do
    operand .unary
    emit operator.instruction
  | .name => variableUse o operand canAssign
  | .string => string o
  | .number => number o
  | .constant value => emit value.instruction

def infixForm (operand : Precedence → Noted ν Unit) : InfixForm → Noted ν Unit
  | .binary operator => do
    operand operator.precedence.next
    (operator.instructions.forM emit : CompileM PUnit)
  | .and => do
    let done ← emitJump o .jumpIfFalse
    emit .pop
    operand .and
    patchJump o done
  | .or => do
    let otherwise ← emitJump o .jumpIfFalse
    let done ← emitJump o .jump
    patchJump o otherwise
    emit .pop
    operand .or
    patchJump o done

def infixForms (operand : Precedence → Noted ν Unit) (precedence : Precedence) :
    Nat → Noted ν Unit
  | 0 => pure ()
  | count + 1 => do
    let kind := (← current).kind
    if precedence ≤ kind.precedence then
      advance
      match kind.infixForm? with
      | some form => infixForm o operand form
      | none => pure ()
      infixForms operand precedence count

def expressionAt : Nat → Precedence → Noted ν Unit
  | 0, _ => do
    advance
    failAtPrevious (.expected .expression)
  | bound + 1, precedence => do
    advance
    match (← previous).kind.prefixForm? with
    | none => failAtPrevious (.expected .expression)
    | some form =>
      let canAssign : Bool := precedence ≤ .assignment
      prefixForm o (expressionAt bound) canAssign form
      infixForms o (expressionAt bound) precedence bound
      let assigns ← if canAssign then accept .equal else pure false
      if assigns then
        failAtPrevious .invalidAssignmentTarget

def expression (bound : Nat) : Noted ν Unit :=
  expressionAt o bound .assignment

/-! ### Statements

Calls of the functions for declarations, statements and initial values are noted, with the states
before and after them. -/

def initializer (bound : Nat) : Noted ν Unit :=
  call o .initializer do
    if ← accept .equal then
      expression o bound
    else
      emit .nil
    expect .semicolon .semicolonAfterVariable

def variableDeclaration (bound : Nat) : Noted ν Unit := do
  expect .identifier .variableName
  let name ← declareVariable o
  let outcome ← Noted.attempt (initializer o bound)
  defineVariable o name
  settle outcome

def printStatement (bound : Nat) : Noted ν Unit := do
  expression o bound
  expect .semicolon .semicolonAfterValue
  emit .print

def expressionStatement (bound : Nat) : Noted ν Unit := do
  expression o bound
  expect .semicolon .semicolonAfterExpression
  emit .pop

def condition (bound : Nat) (what : Expectation) : Noted ν Unit := do
  expect .leftParen what
  expression o bound
  expect .rightParen .parenAfterCondition

def ifStatement (bound : Nat) (branch : Noted ν Unit) : Noted ν Unit := do
  condition o bound .parenAfterIf
  let otherwise ← emitJump o .jumpIfFalse
  emit .pop
  branch
  let done ← emitJump o .jump
  patchJump o otherwise
  emit .pop
  if ← accept .elseKw then
    branch
  patchJump o done

def whileStatement (bound : Nat) (body : Noted ν Unit) : Noted ν Unit := do
  let start ← codeSize
  condition o bound .parenAfterWhile
  let done ← emitJump o .jumpIfFalse
  emit .pop
  body
  emitLoop o start
  patchJump o done
  emit .pop

def forInitializer (bound : Nat) : Noted ν Unit := do
  if ← accept .semicolon then
    pure ()
  else if ← accept .varKw then
    variableDeclaration o bound
  else
    expressionStatement o bound

def forCondition (bound : Nat) : Noted ν (Option Nat) := do
  if ← accept .semicolon then
    return none
  else
    expression o bound
    expect .semicolon .semicolonAfterCondition
    let done ← emitJump o .jumpIfFalse
    emit .pop
    return some done

def forIncrement (bound start : Nat) : Noted ν Nat := do
  if ← accept .rightParen then
    return start
  else
    let body ← emitJump o .jump
    let increment ← codeSize
    expression o bound
    emit .pop
    expect .rightParen .parenAfterClauses
    emitLoop o start
    patchJump o body
    return increment

def loopEnd : Option Nat → Noted ν Unit
  | none => pure ()
  | some done => do
    patchJump o done
    emit .pop

def forStatement (bound : Nat) (body : Noted ν Unit) : Noted ν Unit := do
  expect .leftParen .parenAfterFor
  forInitializer o bound
  let start ← codeSize
  let leave ← forCondition o bound
  let continueAt ← forIncrement o bound start
  body
  emitLoop o continueAt
  loopEnd o leave

def recovering (step : Noted ν Unit) : Noted ν Unit := do
  match ← Noted.attempt step with
  | none => pure ()
  | some e =>
    (modify fun s => { s with errors := s.errors.push e, cursor := s.cursor.synchronize } :
      CompileM Unit)

def declaration (bound : Nat) (statement : Noted ν Unit) : Noted ν Unit :=
  call o .declaration <| recovering do
    if ← accept .varKw then
      variableDeclaration o bound
    else
      statement

def repeatUntil (stop : Kind → Bool) (step : Noted ν Unit) : Nat → Noted ν Unit
  | 0 => pure ()
  | count + 1 => do
    if stop (← current).kind then
      pure ()
    else
      step
      repeatUntil stop step count

def block (bound : Nat) (statement : Noted ν Unit) : Noted ν Unit := do
  repeatUntil (fun kind => kind = .rightBrace || kind = .eof) (declaration o bound statement) bound
  expect .rightBrace .braceAfterBlock

def statement : Nat → Noted ν Unit
  | 0 => call o .statement (expressionStatement o 0)
  | bound + 1 => call o .statement do
    match (← current).kind with
    | .printKw =>
      advance
      printStatement o bound
    | .forKw =>
      advance
      inBlock o (forStatement o bound (statement bound))
    | .ifKw =>
      advance
      ifStatement o bound (statement bound)
    | .whileKw =>
      advance
      whileStatement o bound (statement bound)
    | .leftBrace =>
      advance
      inBlock o (block o bound (statement bound))
    | _ => expressionStatement o (bound + 1)

def program (bound : Nat) : Noted ν Unit := do
  repeatUntil (fun kind => kind = .eof) (declaration o bound (statement o bound)) bound
  advance
  emit .ret

end Observed

/-! ## Without its notes it is the compiler

A step is compared with the one that makes no notes. What is noted on the way is not needed for
that, but a bound on it is obtained along with it: an observer that notes nothing about requests
notes nothing at all while an expression is compiled. -/

section Erases

open Noted (lift ask call)

variable {ν α β : Type} {o : Observer ν} {P : ν → Prop}

/-- The first step does what the second one does, and `P` holds of all that it notes. -/
structure Erases (P : ν → Prop) (x : Noted ν α) (y : CompileM α) : Prop where
  result : ∀ s, (x s).1 = y s
  notes : ∀ s, ∀ n ∈ (x s).2, P n

/-- The first step does what the second one does, and notes nothing. -/
abbrev Silent (x : Noted ν α) (y : CompileM α) : Prop :=
  Erases (fun _ => False) x y

/-- A step that notes nothing is the step of the compiler. -/
theorem Silent.eq_lift {x : Noted ν α} {y : CompileM α} (h : Silent x y) : x = lift y := by
  funext s
  exact Prod.ext (h.result s) (List.eq_nil_iff_forall_not_mem.mpr (h.notes s))

/-- A step about which nothing is noted. -/
theorem erases_lift (x : CompileM α) : Erases P (lift x) x :=
  ⟨fun _ => rfl, fun _ _ hn => absurd hn List.not_mem_nil⟩

theorem erases_pure (a : α) : Erases P (pure a : Noted ν α) (pure a) :=
  erases_lift (pure a)

theorem Erases.bind {x : Noted ν α} {y : CompileM α} {f : α → Noted ν β} {g : α → CompileM β}
    (hx : Erases P x y) (hf : ∀ a, Erases P (f a) (g a)) : Erases P (x >>= f) (y >>= g) := by
  refine ⟨fun s => ?_, fun s => ?_⟩
  -- the results are the same
  · have hfirst := hx.result s
    cases h : x s with
    | mk result notes =>
      rw [h] at hfirst
      cases result with
      | ok a t =>
        rw [Noted.bind_of_ok h, bind_of_ok hfirst.symm]
        exact (hf a).result t
      | error e t => rw [Noted.bind_of_error h, bind_of_error hfirst.symm]
  -- the notes are those of both steps
  · have hnotes := hx.notes s
    cases h : x s with
    | mk result notes =>
      rw [h] at hnotes
      cases result with
      | ok a t =>
        rw [Noted.bind_of_ok h, List.forall_mem_append]
        exact ⟨hnotes, (hf a).notes t⟩
      | error e t =>
        rw [Noted.bind_of_error h]
        exact hnotes

/-- A step about which nothing is noted, and then others. -/
theorem Erases.after {f : α → Noted ν β} {g : α → CompileM β} (x : CompileM α)
    (hf : ∀ a, Erases P (f a) (g a)) : Erases P (lift x >>= f) (x >>= g) :=
  (erases_lift x).bind hf

/-- Two ways to go on, with and without notes under the same condition. -/
theorem Erases.ite {c : Prop} [Decidable c] {x x' : Noted ν α} {y y' : CompileM α}
    (h : Erases P x y) (h' : Erases P x' y') :
    Erases P (if c then x else x') (if c then y else y') := by
  split
  · exact h
  · exact h'

/-- A failure that is held back keeps its notes. -/
theorem Erases.attempt {x : Noted ν Unit} {y : CompileM Unit} (h : Erases P x y) :
    Erases P (Noted.attempt x) (Compile.attempt y) := by
  refine ⟨fun s => ?_, fun s => ?_⟩
  · have hresult := h.result s
    unfold Noted.attempt
    cases hx : x s with
    | mk result notes =>
      rw [hx] at hresult
      cases result with
      | ok _ t => rw [attempt_of_ok hresult.symm]
      | error e t => rw [attempt_of_error hresult.symm]
  · have hnotes := h.notes s
    unfold Noted.attempt
    cases hx : x s with
    | mk result notes =>
      rw [hx] at hnotes
      cases result <;> exact hnotes

/-- A call adds its own notes to those of its body. -/
theorem Erases.call {x : Noted ν Unit} {y : CompileM Unit} (h : Erases P x y) {routine : Routine}
    (hcall : ∀ s t, ∀ n ∈ o.onCall routine s t, P n) : Erases P (call o routine x) y := by
  refine ⟨h.result, fun s => ?_⟩
  show ∀ n ∈ o.onCall routine s _ ++ (x s).2, P n
  rw [List.forall_mem_append]
  exact ⟨hcall s _, h.notes s⟩

/-- The notes of a step that fails are kept when its failure is recorded. -/
theorem erases_recovering {x : Noted ν Unit} {y : CompileM Unit} (h : Erases P x y) :
    Erases P (Observed.recovering x) (recovering y) := by
  apply h.attempt.bind
  intro outcome
  cases outcome with
  | none => exact erases_pure ()
  | some e => exact erases_lift _

/-- By induction on how often the step may be repeated. -/
theorem erases_repeatUntil {x : Noted ν Unit} {y : CompileM Unit} (h : Erases P x y)
    (stop : Kind → Bool) (count : Nat) :
    Erases P (Observed.repeatUntil stop x count) (repeatUntil stop y count) := by
  induction count with
  | zero => exact erases_pure ()
  | succ count ih =>
    apply Erases.after
    intro token
    exact .ite (erases_pure ()) (h.bind fun _ => ih)

/-! ### Code and variables

These functions make the requests. What is noted about a request satisfies `P`, and nothing else is
noted. -/

section Requests

variable (hasks : ∀ request s, ∀ n ∈ o.onRequest request s, P n)

include hasks

/-- What is noted about a request comes before what is noted later. -/
theorem Erases.ask {x : Noted ν α} {y : CompileM α} (h : Erases P x y) (request : Request) :
    Erases P (ask o request >>= fun _ => x) y := by
  refine ⟨fun s => ?_, fun s => ?_⟩
  · exact h.result s
  · show ∀ n ∈ o.onRequest request s ++ (x s).2, P n
    rw [List.forall_mem_append]
    exact ⟨hasks request s, h.notes s⟩

/-- An operation on the scope, with the request for it. -/
theorem erases_perform (op : Scope.Operation) :
    Erases P (Observed.perform o op) (modify fun s => { s with scope := op.apply s.scope }) :=
  (erases_lift _).ask hasks _

/-- A constant is added, with the request for it. -/
theorem erases_addConstant (value : Value) :
    Erases P (Observed.addConstant o value) (addConstant value) :=
  (erases_lift _).ask hasks _

theorem erases_emitConstant (value : Value) :
    Erases P (Observed.emitConstant o value) (emitConstant value) := by
  apply (erases_addConstant hasks value).bind
  intro index
  exact erases_lift _

/-- A jump is emitted, with the request for it. -/
theorem erases_emitJump (make : UInt16 → Instruction) :
    Erases P (Observed.emitJump o make) (emitJump make) :=
  (erases_lift _).ask hasks _

/-- A jump is completed, with the request for it. -/
theorem erases_patchJump (operand : Nat) :
    Erases P (Observed.patchJump o operand) (patchJump operand) :=
  (erases_lift _).ask hasks _

/-- A jump back is emitted, with the request for it. -/
theorem erases_emitLoop (start : Nat) :
    Erases P (Observed.emitLoop o start) (emitLoop start) :=
  (erases_lift _).ask hasks _

theorem erases_loopEnd (leave : Option Nat) :
    Erases P (Observed.loopEnd o leave) (loopEnd leave) := by
  cases leave with
  | none => exact erases_pure ()
  | some done =>
    apply (erases_patchJump hasks done).bind
    intro _
    exact erases_lift _

/-- A block is closed by one operation; dropping its locals asks for nothing. -/
theorem erases_closeBlock : Erases P (Observed.closeBlock o) closeBlock := by
  -- the locals to be dropped are counted before the block is closed
  have hclose : ∀ dropped : Nat, Erases P
      (Observed.perform o .endBlock >>= fun _ =>
        lift ((List.replicate dropped Instruction.pop).forM emit))
      ((modify fun s => { s with scope := s.scope.endBlock }) >>= fun _ =>
        (List.replicate dropped Instruction.pop).forM emit) := by
    intro dropped
    apply (erases_perform hasks .endBlock).bind
    intro _
    exact erases_lift _
  exact ⟨fun s => (hclose _).result s, fun s => (hclose _).notes s⟩

/-- A block is opened and closed by two operations around its body. -/
theorem erases_inBlock {x : Noted ν Unit} {y : CompileM Unit} (h : Erases P x y) :
    Erases P (Observed.inBlock o x) (inBlock y) := by
  rw [inBlock_eq]
  apply (erases_perform hasks .beginBlock).bind
  intro _
  -- the block is closed however its body ends
  apply h.attempt.bind
  intro outcome
  apply (erases_closeBlock hasks).bind
  intro _
  exact erases_lift _

/-- Only a local is looked for in the innermost block, and only if it can be declared is it asked
for. -/
theorem erases_declareVariable : Erases P (Observed.declareVariable o) declareVariable := by
  apply Erases.after
  intro token
  apply Erases.after
  intro s
  -- a global is only named; a local is refused, or it is declared
  refine .ite ?_ (.ask hasks (.ite ?_ (.ite ?_ ?_)) _)
  · apply (erases_addConstant hasks _).bind
    intro index
    exact erases_pure _
  · exact erases_lift _
  · exact erases_lift _
  · apply (erases_perform hasks (.declare token.lexeme)).bind
    intro _
    exact erases_pure _

theorem erases_defineVariable (name : Option UInt8) :
    Erases P (Observed.defineVariable o name) (defineVariable name) := by
  cases name with
  | none => exact erases_perform hasks .markInitialized
  | some index => exact erases_lift (emit _)

/-- Only for a global a constant is asked for after its name has been looked up. -/
theorem erases_access (name : String) : Erases P (Observed.access o name) (access name) := by
  refine .ask hasks ?_ _
  apply Erases.after
  intro s
  cases s.scope.resolve name with
  | some found => exact .ite (erases_lift _) (erases_pure _)
  | none =>
    apply (erases_addConstant hasks _).bind
    intro index
    exact erases_pure _

/-! ### Expressions

An expression makes no calls, so `hasks` is all that is asked of the observer. -/

theorem erases_number : Erases P (Observed.number o) number := by
  apply Erases.after
  intro token
  -- the value is read from the text unless the token has it
  have hread : Erases P
      (match Decimal.readNumber? token.lexeme with
        | some value => Observed.emitConstant o (.number value)
        | none => lift (failAtPrevious .invalidNumber))
      (match Decimal.readNumber? token.lexeme with
        | some value => emitConstant (.number value)
        | none => failAtPrevious .invalidNumber) := by
    cases Decimal.readNumber? token.lexeme with
    | some value => exact erases_emitConstant hasks _
    | none => exact erases_lift _
  cases token.literal with
  | none => exact hread
  | some literal =>
    cases literal with
    | number value => exact erases_emitConstant hasks _
    | string value => exact hread

theorem erases_string : Erases P (Observed.string o) string := by
  apply Erases.after
  intro token
  cases token.literal with
  | some literal => cases literal <;> exact erases_emitConstant hasks _
  | none => exact erases_emitConstant hasks _

section Operands

variable {operand : Precedence → Noted ν Unit} {operand' : Precedence → CompileM Unit}
  (h : ∀ p, Erases P (operand p) (operand' p))

include h

/-- A name is read or assigned to; its operand may make requests of its own. -/
theorem erases_variableUse (canAssign : Bool) :
    Erases P (Observed.variableUse o operand canAssign) (variableUse operand' canAssign) := by
  apply Erases.after
  intro token
  apply (erases_access hasks _).bind
  intro place
  have hrest : ∀ assigns : Bool, Erases P
      (if assigns then do operand .assignment; emit place.set else emit place.get)
      (if assigns then do operand' .assignment; emit place.set else emit place.get) :=
    fun _ => .ite ((h _).bind fun _ => erases_lift _) (erases_lift _)
  exact .ite (.after _ hrest) (.after (pure false) hrest)

theorem erases_prefixForm (canAssign : Bool) (form : PrefixForm) :
    Erases P (Observed.prefixForm o operand canAssign form)
      (prefixForm operand' canAssign form) := by
  cases form with
  | grouping => exact (h _).bind fun _ => erases_lift _
  | unary operator => exact (h _).bind fun _ => erases_lift _
  | name => exact erases_variableUse hasks h canAssign
  | string => exact erases_string hasks
  | number => exact erases_number hasks
  | constant value => exact erases_lift (emit _)

/-- The short-circuit operators ask for the jumps over their right operand. -/
theorem erases_infixForm (form : InfixForm) :
    Erases P (Observed.infixForm o operand form) (infixForm operand' form) := by
  cases form with
  | binary operator => exact (h _).bind fun _ => erases_lift _
  | and =>
    apply (erases_emitJump hasks _).bind
    intro done
    apply Erases.after
    intro _
    exact (h _).bind fun _ => erases_patchJump hasks done
  | or =>
    apply (erases_emitJump hasks _).bind
    intro otherwise
    apply (erases_emitJump hasks _).bind
    intro done
    apply (erases_patchJump hasks otherwise).bind
    intro _
    apply Erases.after
    intro _
    exact (h _).bind fun _ => erases_patchJump hasks done

/-- By induction on how many operators may follow. -/
theorem erases_infixForms (precedence : Precedence) (count : Nat) :
    Erases P (Observed.infixForms o operand precedence count)
      (infixForms operand' precedence count) := by
  induction count with
  | zero => exact erases_pure ()
  | succ count ih =>
    apply Erases.after
    intro token
    refine .ite ?_ (erases_pure ())
    apply Erases.after
    intro _
    cases token.kind.infixForm? with
    | none => exact .after (pure ()) fun _ => ih
    | some form => exact (erases_infixForm hasks h form).bind fun _ => ih

end Operands

/-- By induction on the bound. The operands have a smaller one. -/
theorem erases_expressionAt (bound : Nat) (precedence : Precedence) :
    Erases P (Observed.expressionAt o bound precedence) (expressionAt bound precedence) := by
  induction bound generalizing precedence with
  | zero => exact .after _ fun _ => erases_lift _
  | succ bound ih =>
    apply Erases.after
    intro _
    apply Erases.after
    intro token
    cases token.kind.prefixForm? with
    | none => exact erases_lift _
    | some form =>
      -- where an assignment is possible, an equals sign that is left over is an error
      have hend : ∀ assigns : Bool, Erases P
          (if assigns then lift (failAtPrevious .invalidAssignmentTarget) else pure ())
          (if assigns then failAtPrevious .invalidAssignmentTarget else pure ()) :=
        fun _ => .ite (erases_lift _) (erases_pure ())
      apply (erases_prefixForm hasks ih _ form).bind
      intro _
      apply (erases_infixForms hasks ih _ _).bind
      intro _
      exact .ite (.after _ hend) (.after (pure false) hend)

theorem erases_expression (bound : Nat) :
    Erases P (Observed.expression o bound) (expression bound) :=
  erases_expressionAt hasks bound _

/-! ### Statements without a body

Only the expressions in them and the jumps of a loop make requests. -/

theorem erases_printStatement (bound : Nat) :
    Erases P (Observed.printStatement o bound) (printStatement bound) := by
  apply (erases_expression hasks bound).bind
  intro _
  exact .after _ fun _ => erases_lift _

theorem erases_expressionStatement (bound : Nat) :
    Erases P (Observed.expressionStatement o bound) (expressionStatement bound) := by
  apply (erases_expression hasks bound).bind
  intro _
  exact .after _ fun _ => erases_lift _

theorem erases_condition (bound : Nat) (what : Expectation) :
    Erases P (Observed.condition o bound what) (condition bound what) := by
  apply Erases.after
  intro _
  exact (erases_expression hasks bound).bind fun _ => erases_lift _

/-- The second clause of a loop asks for the jump that leaves it. -/
theorem erases_forCondition (bound : Nat) :
    Erases P (Observed.forCondition o bound) (forCondition bound) := by
  apply Erases.after
  intro none
  refine .ite (erases_pure _) ?_
  apply (erases_expression hasks bound).bind
  intro _
  apply Erases.after
  intro _
  apply (erases_emitJump hasks _).bind
  intro done
  exact .after _ fun _ => erases_pure _

/-- The third clause of a loop asks for the jump over itself and for the one back. -/
theorem erases_forIncrement (bound start : Nat) :
    Erases P (Observed.forIncrement o bound start) (forIncrement bound start) := by
  apply Erases.after
  intro none
  refine .ite (erases_pure _) ?_
  apply (erases_emitJump hasks _).bind
  intro body
  apply Erases.after
  intro increment
  apply (erases_expression hasks bound).bind
  intro _
  apply Erases.after
  intro _
  apply Erases.after
  intro _
  apply (erases_emitLoop hasks start).bind
  intro _
  apply (erases_patchJump hasks body).bind
  intro _
  exact erases_pure _

/-! ### Statements with a body

What is noted in the body satisfies `P` as well. -/

section Bodies

variable {x : Noted ν Unit} {y : CompileM Unit} (h : Erases P x y)

include h

/-- A conditional asks for two jumps and completes both. -/
theorem erases_ifStatement (bound : Nat) :
    Erases P (Observed.ifStatement o bound x) (ifStatement bound y) := by
  apply (erases_condition hasks bound _).bind
  intro _
  apply (erases_emitJump hasks _).bind
  intro otherwise
  apply Erases.after
  intro _
  apply h.bind
  intro _
  apply (erases_emitJump hasks _).bind
  intro done
  apply (erases_patchJump hasks otherwise).bind
  intro _
  apply Erases.after
  intro _
  apply Erases.after
  intro hasElse
  have hend := erases_patchJump hasks done
  exact .ite (h.bind fun _ => hend) hend

/-- A loop asks for the jump that leaves it and for the one back. -/
theorem erases_whileStatement (bound : Nat) :
    Erases P (Observed.whileStatement o bound x) (whileStatement bound y) := by
  apply Erases.after
  intro start
  apply (erases_condition hasks bound _).bind
  intro _
  apply (erases_emitJump hasks _).bind
  intro done
  apply Erases.after
  intro _
  apply h.bind
  intro _
  apply (erases_emitLoop hasks start).bind
  intro _
  apply (erases_patchJump hasks done).bind
  intro _
  exact erases_lift _

end Bodies

/-! ### Declarations

An initializer is called in every declaration of a variable, so what is noted about the call has to
satisfy `P` too. -/

section Initializers

variable (hinitializer : ∀ s t, ∀ n ∈ o.onCall .initializer s t, P n)

include hinitializer

/-- The call of an initializer is noted before what it asks for. -/
theorem erases_initializer (bound : Nat) :
    Erases P (Observed.initializer o bound) (initializer bound) := by
  refine .call ?_ hinitializer
  apply Erases.after
  intro given
  refine .ite ?_ ?_
  · exact (erases_expression hasks bound).bind fun _ => erases_lift _
  · exact .after _ fun _ => erases_lift _

/-- The variable is defined also if its initializer fails. -/
theorem erases_variableDeclaration (bound : Nat) :
    Erases P (Observed.variableDeclaration o bound) (variableDeclaration bound) := by
  apply Erases.after
  intro _
  apply (erases_declareVariable hasks).bind
  intro name
  apply (erases_initializer hasks hinitializer bound).attempt.bind
  intro outcome
  apply (erases_defineVariable hasks name).bind
  intro _
  exact erases_lift _

theorem erases_forInitializer (bound : Nat) :
    Erases P (Observed.forInitializer o bound) (forInitializer bound) := by
  apply Erases.after
  intro none
  refine .ite (erases_pure ()) ?_
  apply Erases.after
  intro declares
  exact .ite (erases_variableDeclaration hasks hinitializer bound)
    (erases_expressionStatement hasks bound)

/-- A loop with three clauses, the first of which may declare a variable. -/
theorem erases_forStatement {x : Noted ν Unit} {y : CompileM Unit} (h : Erases P x y)
    (bound : Nat) : Erases P (Observed.forStatement o bound x) (forStatement bound y) := by
  apply Erases.after
  intro _
  apply (erases_forInitializer hasks hinitializer bound).bind
  intro _
  apply Erases.after
  intro start
  apply (erases_forCondition hasks bound).bind
  intro leave
  apply (erases_forIncrement hasks bound start).bind
  intro continueAt
  apply h.bind
  intro _
  apply (erases_emitLoop hasks continueAt).bind
  intro _
  exact erases_loopEnd hasks leave

end Initializers

end Requests

/-! ### The whole compiler

From here on any calls may be noted, so nothing is said about the notes. -/

/-- The first step does what the second one does, whatever it notes. -/
abbrev Same (x : Noted ν α) (y : CompileM α) : Prop :=
  Erases (fun _ => True) x y

variable (o)

/-- A call of `declaration` does the same under observation. -/
theorem same_declaration {x : Noted ν Unit} {y : CompileM Unit} (h : Same x y) (bound : Nat) :
    Same (Observed.declaration o bound x) (declaration bound y) := by
  refine .call (erases_recovering ?_) fun _ _ _ _ => trivial
  apply Erases.after
  intro declares
  refine .ite ?_ h
  exact erases_variableDeclaration (fun _ _ _ _ => trivial) (fun _ _ _ _ => trivial) bound

theorem same_block {x : Noted ν Unit} {y : CompileM Unit} (h : Same x y) (bound : Nat) :
    Same (Observed.block o bound x) (block bound y) := by
  apply (erases_repeatUntil (same_declaration o h bound) _ _).bind
  intro _
  exact erases_lift _

/-- By induction on the bound. A statement inside another has a smaller one. -/
theorem same_statement (bound : Nat) : Same (Observed.statement o bound) (statement bound) := by
  -- nothing is asked of the notes here
  have hasks : ∀ request s, ∀ n ∈ o.onRequest request s, True := fun _ _ _ _ => trivial
  induction bound with
  | zero => exact .call (erases_expressionStatement hasks 0) fun _ _ _ _ => trivial
  | succ bound ih =>
    refine .call ?_ fun _ _ _ _ => trivial
    apply Erases.after
    intro token
    cases token.kind
    case printKw => exact .after _ fun _ => erases_printStatement hasks bound
    case forKw =>
      have hloop := erases_forStatement hasks (fun _ _ _ _ => trivial) ih bound
      exact .after _ fun _ => erases_inBlock hasks hloop
    case ifKw => exact .after _ fun _ => erases_ifStatement hasks ih bound
    case whileKw => exact .after _ fun _ => erases_whileStatement hasks ih bound
    case leftBrace => exact .after _ fun _ => erases_inBlock hasks (same_block o ih bound)
    all_goals exact erases_expressionStatement hasks (bound + 1)

/-- **The compiler does not notice that it is observed.** -/
theorem erases_program (bound : Nat) (s : State) :
    (Observed.program o bound s).1 = program bound s := by
  have hprogram : Same (Observed.program o bound) (program bound) := by
    apply (erases_repeatUntil (same_declaration o (same_statement o bound) bound) _ _).bind
    intro _
    exact .after _ fun _ => erases_lift _
  exact hprogram.result s

end Erases

end StackScript.Compile
