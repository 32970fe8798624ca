import StackScript.Compile.Precedence

/-!
# The cursor over the tokens

The compiler looks at the token it has just passed and at the one ahead. Where the tokens run out
the cursor goes on giving an end of script, on the line of the last token.
-/

namespace StackScript.Compile

structure Cursor where
  /-- The token passed last. -/
  previous : Token
  /-- The tokens not passed yet. -/
  ahead : List Token

namespace Cursor

def start (tokens : List Token) : Cursor where
  previous := .eof 1
  ahead := tokens

/-- The next token. -/
def current (c : Cursor) : Token :=
  c.ahead.head?.getD (.eof c.previous.line)

def advance (c : Cursor) : Cursor where
  previous := c.current
  ahead := c.ahead.tail

/-- Skips tokens up to the next place where a statement can start: after a semicolon, before a
keyword that starts one, or at the end of the script. -/
def skipToStatement (previous : Token) : List Token → Cursor
  | [] => ⟨previous, []⟩
  | token :: rest =>
    if token.kind = .eof ∨ previous.kind = .semicolon ∨ token.kind.startsStatement then
      ⟨previous, token :: rest⟩
    else skipToStatement token rest

def synchronize (c : Cursor) : Cursor :=
  skipToStatement c.previous c.ahead

end Cursor

end StackScript.Compile
