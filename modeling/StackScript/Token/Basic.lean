/-!
# Tokens

A token is a piece of a script with its kind, its text, the value it denotes if it is a number or
a string, and the line on which it ends.
-/

namespace StackScript

/-- The kinds of token. Keywords end in `Kw`; `eof` marks the end of a script. -/
inductive Kind where
  | leftParen | rightParen | leftBrace | rightBrace | leftBracket | rightBracket
  | comma | dot | minus | plus | semicolon | slash | star
  | bang | bangEqual | equal | equalEqual | greater | greaterEqual | less | lessEqual | arrow
  | identifier | string | number
  | andKw | breakKw | classKw | continueKw | elseKw | falseKw | forKw | funKw | ifKw | nilKw
  | orKw | printKw | returnKw | superKw | thisKw | trueKw | varKw | whileKw
  | eof
deriving DecidableEq

/-- The keyword a word spells, or else the kind of identifiers. -/
def Kind.ofWord (word : String) : Kind :=
  match word with
  | "and" => .andKw
  | "break" => .breakKw
  | "class" => .classKw
  | "continue" => .continueKw
  | "else" => .elseKw
  | "false" => .falseKw
  | "for" => .forKw
  | "fun" => .funKw
  | "if" => .ifKw
  | "nil" => .nilKw
  | "or" => .orKw
  | "print" => .printKw
  | "return" => .returnKw
  | "super" => .superKw
  | "this" => .thisKw
  | "true" => .trueKw
  | "var" => .varKw
  | "while" => .whileKw
  | _ => .identifier

/-- The value that a number or string token denotes. -/
inductive Literal where
  | number (value : Float)
  | string (value : String)

structure Token where
  kind : Kind
  lexeme : String
  literal : Option Literal
  line : Nat

namespace Token

/-- The token that ends a script. -/
def eof (line : Nat) : Token where
  kind := .eof
  lexeme := ""
  literal := none
  line := line

/-- How messages name a token. -/
def display (token : Token) : String :=
  match token.kind with
  | .eof => "end"
  | _ => "'" ++ token.lexeme ++ "'"

end Token

end StackScript
