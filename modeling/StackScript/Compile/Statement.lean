import StackScript.Compile.Expression

/-!
# Compiling statements

Statements leave the stack as they find it, apart from the locals that declarations add. A
declaration that fails is recorded as an error, and compiling goes on at the next statement.

As for expressions, the first argument bounds the number of tokens ahead.
-/

namespace StackScript.Compile

/-- The value of a declared variable, `nil` if none is given, and the end of its declaration. -/
def initializer (bound : Nat) : CompileM Unit := do
  if ← accept .equal then
    expression bound
  else
    emit .nil
  expect .semicolon .semicolonAfterVariable

/-- A declaration after its keyword. Once declared, the variable is defined even if its initializer
fails, so that later statements can use it. -/
def variableDeclaration (bound : Nat) : CompileM Unit := do
  expect .identifier .variableName
  let name ← declareVariable
  let outcome ← attempt (initializer bound)
  defineVariable name
  settle outcome

def printStatement (bound : Nat) : CompileM Unit := do
  expression bound
  expect .semicolon .semicolonAfterValue
  emit .print

def expressionStatement (bound : Nat) : CompileM Unit := do
  expression bound
  expect .semicolon .semicolonAfterExpression
  emit .pop

/-- A condition in parentheses, the first of which is named by `what`. -/
def condition (bound : Nat) (what : Expectation) : CompileM Unit := do
  expect .leftParen what
  expression bound
  expect .rightParen .parenAfterCondition

/-- The two branches of a conditional; each drops the condition's value first. -/
def ifStatement (bound : Nat) (branch : CompileM Unit) : CompileM Unit := do
  condition bound .parenAfterIf
  let otherwise ← emitJump .jumpIfFalse
  emit .pop
  branch
  let done ← emitJump .jump
  patchJump otherwise
  emit .pop
  if ← accept .elseKw then
    branch
  patchJump done

def whileStatement (bound : Nat) (body : CompileM Unit) : CompileM Unit := do
  let start ← codeSize
  condition bound .parenAfterWhile
  let done ← emitJump .jumpIfFalse
  emit .pop
  body
  emitLoop start
  patchJump done
  emit .pop

/-- What a loop does before its first round. -/
def forInitializer (bound : Nat) : CompileM Unit := do
  if ← accept .semicolon then
    pure ()
  else if ← accept .varKw then
    variableDeclaration bound
  else
    expressionStatement bound

/-- The condition of a loop, if it has one; returns the jump that leaves the loop. -/
def forCondition (bound : Nat) : CompileM (Option Nat) := do
  if ← accept .semicolon then
    return none
  else
    expression bound
    expect .semicolon .semicolonAfterCondition
    let done ← emitJump .jumpIfFalse
    emit .pop
    return some done

/-- What a loop does after each round, if anything. It comes before the body in the code, so the
loop jumps over it on the way in. Returns where a round continues after the body. -/
def forIncrement (bound start : Nat) : CompileM Nat := do
  if ← accept .rightParen then
    return start
  else
    let body ← emitJump .jump
    let increment ← codeSize
    expression bound
    emit .pop
    expect .rightParen .parenAfterClauses
    emitLoop start
    patchJump body
    return increment

def forStatement (bound : Nat) (body : CompileM Unit) : CompileM Unit := do
  expect .leftParen .parenAfterFor
  forInitializer bound
  let start ← codeSize
  let leave ← forCondition bound
  let continueAt ← forIncrement bound start
  body
  emitLoop continueAt
  match leave with
  | none => pure ()
  | some done =>
    patchJump done
    emit .pop

/-- Runs a step; if it fails, records the error and skips to the next statement. -/
def recovering (step : CompileM Unit) : CompileM Unit := do
  match ← attempt step with
  | none => pure ()
  | some e => modify fun s => { s with errors := s.errors.push e, cursor := s.cursor.synchronize }

/-- A declaration or a statement; `statement` compiles the latter. -/
def declaration (bound : Nat) (statement : CompileM Unit) : CompileM Unit :=
  recovering do
    if ← accept .varKw then
      variableDeclaration bound
    else
      statement

/-- Repeats a step until the next token has one of the given kinds, at most as many times as the
last argument says. -/
def repeatUntil (stop : Kind → Bool) (step : CompileM Unit) : Nat → CompileM Unit
  | 0 => pure ()
  | count + 1 => do
    unless stop (← current).kind do
      step
      repeatUntil stop step count

/-- The declarations of a block and its closing brace. -/
def block (bound : Nat) (statement : CompileM Unit) : CompileM Unit := do
  repeatUntil (fun kind => kind = .rightBrace || kind = .eof) (declaration bound statement) bound
  expect .rightBrace .braceAfterBlock

def statement : Nat → CompileM Unit
  | 0 => expressionStatement 0
  | bound + 1 => do
    match (← current).kind with
    | .printKw =>
      advance
      printStatement bound
    | .forKw =>
      advance
      inBlock (forStatement bound (statement bound))
    | .ifKw =>
      advance
      ifStatement bound (statement bound)
    | .whileKw =>
      advance
      whileStatement bound (statement bound)
    | .leftBrace =>
      advance
      inBlock (block bound (statement bound))
    | _ => expressionStatement (bound + 1)

end StackScript.Compile
