import StackScript.Token.Basic

/-!
# Errors of the compiler

An error has a cause and the token at which it was found. The wording of all messages is here.
-/

namespace StackScript.Compile

/-- What the grammar asks for where something else stands. -/
inductive Expectation where
  | expression
  | variableName
  | semicolonAfterVariable
  | semicolonAfterValue
  | semicolonAfterExpression
  | semicolonAfterCondition
  | parenAfterIf
  | parenAfterWhile
  | parenAfterFor
  | parenAfterCondition
  | parenAfterClauses
  | parenAfterExpression
  | braceAfterBlock
deriving DecidableEq

def Expectation.message : Expectation → String
  | expression => "Expect expression."
  | variableName => "Expect variable name."
  | semicolonAfterVariable => "Expect ';' after variable declaration."
  | semicolonAfterValue => "Expect ';' after value."
  | semicolonAfterExpression => "Expect ';' after expression."
  | semicolonAfterCondition => "Expect ';' after loop condition."
  | parenAfterIf => "Expect '(' after 'if'."
  | parenAfterWhile => "Expect '(' after 'while'."
  | parenAfterFor => "Expect '(' after 'for'."
  | parenAfterCondition => "Expect ')' after condition."
  | parenAfterClauses => "Expect ')' after for clauses."
  | parenAfterExpression => "Expect ')' after expression."
  | braceAfterBlock => "Expect '\x7d' after block."

/-- Why a script is refused. -/
inductive Cause where
  | expected (what : Expectation)
  | invalidAssignmentTarget
  | invalidNumber
  /-- A local is used in its own initializer. -/
  | selfReference
  /-- A local of this name exists in the same block. -/
  | alreadyDeclared
  | tooManyLocals
  | tooManyConstants
  | jumpTooFar
  | loopTooLarge
  /-- A jump is completed that is not open, or a loop returns to code that is not there. Every
  jump is opened before it is completed, and once, so no script has this error. -/
  | misplacedJump
deriving DecidableEq

def Cause.message : Cause → String
  | expected what => what.message
  | invalidAssignmentTarget => "Invalid assignment target."
  | invalidNumber => "Invalid number literal."
  | selfReference => "Can't read local variable in its own initializer."
  | alreadyDeclared => "Already a variable with this name in this scope."
  | tooManyLocals => "Too many local variables in function."
  | tooManyConstants => "Too many constants in one chunk."
  | jumpTooFar => "Too much code to jump over."
  | loopTooLarge => "Loop body too large."
  | misplacedJump => "Misplaced jump."

/-- Where an error was found: at a token with a text, or at the end of the script. -/
inductive Place where
  | at (lexeme : String)
  | atEnd
deriving DecidableEq

namespace Place

def ofToken (token : Token) : Place :=
  match token.kind with
  | .eof => atEnd
  | _ => .at token.lexeme

/-- How a report names the place. -/
def display : Place → String
  | .at lexeme => " at '" ++ lexeme ++ "'"
  | atEnd => " at end"

end Place

/-- The text of a report. -/
def report (line : Nat) (place : Place) (message : String) : String :=
  s!"[line {line}] Error" ++ place.display ++ ": " ++ message

structure Error where
  line : Nat
  place : Place
  cause : Cause
deriving DecidableEq

namespace Error

/-- The error with a cause, found at a token. -/
def atToken (token : Token) (cause : Cause) : Error where
  line := token.line
  place := .ofToken token
  cause := cause

def display (e : Error) : String :=
  report e.line e.place e.cause.message

end Error

end StackScript.Compile
