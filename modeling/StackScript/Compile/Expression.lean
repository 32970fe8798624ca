import StackScript.Compile.State
import StackScript.Decimal.Basic
import StackScript.Text.Blank

/-!
# Compiling expressions

An expression is compiled by precedence: a token that can start an expression, then as many
operators as bind at least as tightly as the context asks. Operands are compiled before their
operator, so the code leaves exactly one value on the stack.

The recursion counts down a bound on the number of tokens ahead. Each operand passes at least one
token, and with no token ahead there is no expression, so the bound never cuts anything short.
-/

namespace StackScript.Compile

/-- A number; the lexeme is read if the token has no number of its own. -/
def number : CompileM Unit := do
  let token ← previous
  match token.literal with
  | some (.number value) => emitConstant (.number value)
  | _ =>
    match Decimal.readNumber? token.lexeme with
    | some value => emitConstant (.number value)
    | none => failAtPrevious .invalidNumber

/-- A string; the lexeme without the quotes at its ends is taken if the token has no string of
its own. -/
def string : CompileM Unit := do
  let token ← previous
  match token.literal with
  | some (.string value) => emitConstant (.string value)
  | _ =>
    emitConstant (.string (String.ofList (Text.trimEnds (· == '"') token.lexeme.toList)))

/-- A variable, or an assignment to it where the context allows one. -/
def variableUse (operand : Precedence → CompileM Unit) (canAssign : Bool) : CompileM Unit := do
  let place ← access (← previous).lexeme
  let assigns ← if canAssign then accept .equal else pure false
  if assigns then
    operand .assignment
    emit place.set
  else
    emit place.get

/-- Compiles what starts with the token passed last; `operand` compiles what follows. -/
def prefixForm (operand : Precedence → CompileM Unit) (canAssign : Bool) :
    PrefixForm → CompileM Unit
  | .grouping => do
    operand .assignment
    expect .rightParen .parenAfterExpression
  | .unary operator => do
    operand .unary
    emit operator.instruction
  | .name => variableUse operand canAssign
  | .string => string
  | .number => number
  | .constant value => emit value.instruction

/-- Compiles the rest of an operation whose left operand is compiled and whose operator was passed
last. The short-circuit operators jump over their right operand. -/
def infixForm (operand : Precedence → CompileM Unit) : InfixForm → CompileM Unit
  | .binary operator => do
    operand operator.precedence.next
    operator.instructions.forM emit
  | .and => do
    let done ← emitJump .jumpIfFalse
    emit .pop
    operand .and
    patchJump done
  | .or => do
    let otherwise ← emitJump .jumpIfFalse
    let done ← emitJump .jump
    patchJump otherwise
    emit .pop
    operand .or
    patchJump done

/-- Goes on with operators that bind at least as tightly as `precedence`, at most as many as the
last argument says. -/
def infixForms (operand : Precedence → CompileM Unit) (precedence : Precedence) :
    Nat → CompileM Unit
  | 0 => pure ()
  | count + 1 => do
    let kind := (← current).kind
    if precedence ≤ kind.precedence then
      advance
      match kind.infixForm? with
      | some form => infixForm operand form
      | none => pure ()
      infixForms operand precedence count

/-- Compiles an expression whose operators bind at least as tightly as `precedence`. The first
argument bounds the number of tokens ahead. -/
def expressionAt : Nat → Precedence → CompileM Unit
  | 0, _ => do
    advance
    failAtPrevious (.expected .expression)
  | bound + 1, precedence => do
    advance
    match (← previous).kind.prefixForm? with
    | none => failAtPrevious (.expected .expression)
    | some form =>
      -- an assignment binds more loosely than every operator
      let canAssign : Bool := precedence ≤ .assignment
      prefixForm (expressionAt bound) canAssign form
      infixForms (expressionAt bound) precedence bound
      let assigns ← if canAssign then accept .equal else pure false
      if assigns then
        failAtPrevious .invalidAssignmentTarget

/-- Compiles a whole expression. -/
def expression (bound : Nat) : CompileM Unit :=
  expressionAt bound .assignment

end StackScript.Compile
