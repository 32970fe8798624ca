import StackScript.Compile.Statement

/-!
# Compiling a script

A script is a sequence of declarations up to the end of the tokens. Its code ends in a return. The
code is also there when errors were found, but it is not meant to be run then.
-/

namespace StackScript.Compile

/-- What compiling has produced. -/
structure Compilation where
  chunk : Chunk
  /-- The errors, in the order in which they were found. -/
  errors : List Error
  /-- The number of locals that are still declared at the end. -/
  locals : Nat

/-- The code if there are no errors, the errors otherwise. -/
def Compilation.result (c : Compilation) : Except (List Error) Chunk :=
  if c.errors.isEmpty then .ok c.chunk else .error c.errors

/-- The whole script; the argument bounds the number of tokens. -/
def program (bound : Nat) : CompileM Unit := do
  repeatUntil (fun kind => kind = .eof) (declaration bound (statement bound)) bound
  advance
  emit .ret

def State.compilation (s : State) : Compilation where
  chunk := s.chunk
  errors := s.errors.toList
  locals := s.scope.locals.length

/-- Compiles the tokens of a script. -/
def compile (tokens : List Token) : Compilation :=
  match program tokens.length (.start tokens) with
  | .ok _ s => s.compilation
  | .error _ s => s.compilation

end StackScript.Compile
