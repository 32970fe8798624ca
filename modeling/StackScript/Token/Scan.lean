import StackScript.Decimal.Basic
import StackScript.Text.Utf8
import StackScript.Token.Basic

/-!
# Splitting a script into tokens

The scanner works on bytes. Before each token it skips trivia: blanks, newlines and comments that
run from `//` to the end of the line. `munch` then measures the longest lexeme at the front of what
is left. Every byte that ends a lexeme is an ASCII character, so a lexeme never ends inside the
encoding of another character.
-/

namespace StackScript

/-- Why a script cannot be split into tokens. -/
inductive ScanError where
  /-- A string that starts on line `opened` has no end; `line` is the last line. -/
  | unterminatedString (line opened : Nat)
  /-- No token starts with this character. -/
  | unexpectedCharacter (character : Char) (line : Nat)
deriving DecidableEq

namespace ScanError

def line : ScanError → Nat
  | unterminatedString line _ => line
  | unexpectedCharacter _ line => line

def message : ScanError → String
  | unterminatedString line opened =>
    s!"[line {line}] Error: Unterminated string (opened on line {opened})."
  | unexpectedCharacter character line =>
    s!"[line {line}] Error: Unexpected character '{character}'."

end ScanError

/-- What is left of a script, the line where it starts, and whether scanning has ended. -/
structure Scanner where
  rest : List UInt8
  line : Nat
  ended : Bool

namespace Scanner

/-! ### Classes of bytes

All bytes that the scanner has to tell apart are ASCII characters. -/

def newline : UInt8 := '\n'.toUInt8

def quote : UInt8 := '"'.toUInt8

/-- The bytes that only separate tokens, newlines apart. -/
def isSpace (byte : UInt8) : Bool :=
  byte = ' '.toUInt8 || byte = '\t'.toUInt8 || byte = '\r'.toUInt8

def isDigit (byte : UInt8) : Bool :=
  '0'.toUInt8 ≤ byte && byte ≤ '9'.toUInt8

/-- The bytes that an identifier or keyword can start with. -/
def isLetter (byte : UInt8) : Bool :=
  'a'.toUInt8 ≤ byte && byte ≤ 'z'.toUInt8 || 'A'.toUInt8 ≤ byte && byte ≤ 'Z'.toUInt8
    || byte = '_'.toUInt8

def isWordByte (byte : UInt8) : Bool :=
  isLetter byte || isDigit byte

/-! ### Trivia

Blanks and comments between tokens are skipped, and the lines are counted. -/

def startsComment (first : UInt8) (rest : List UInt8) : Bool :=
  first = '/'.toUInt8 && rest.head? == some '/'.toUInt8

/-- Skips trivia from the given line on and returns the line and the bytes where it ends. -/
def skipTrivia (inComment : Bool) (line : Nat) : List UInt8 → Nat × List UInt8
  | [] => (line, [])
  | byte :: rest =>
    if byte = newline then skipTrivia false (line + 1) rest
    else if inComment then skipTrivia true line rest
    else if isSpace byte then skipTrivia false line rest
    else if startsComment byte rest then skipTrivia true line rest
    else (line, byte :: rest)

theorem length_skipTrivia_le (inComment : Bool) (line : Nat) (bytes : List UInt8) :
    (skipTrivia inComment line bytes).2.length ≤ bytes.length := by
  induction bytes generalizing inComment line with
  | nil => simp [skipTrivia]
  | cons byte rest ih =>
    simp only [skipTrivia, List.length_cons]
    split
    · exact Nat.le_succ_of_le (ih false (line + 1))
    split
    · exact Nat.le_succ_of_le (ih true line)
    split
    · exact Nat.le_succ_of_le (ih false line)
    split
    · exact Nat.le_succ_of_le (ih true line)
    · simp

/-! ### Lexemes

How far a token reaches, from its first byte and what follows. -/

/-- What stands at the front of a script whose trivia has been skipped. -/
inductive Munch where
  /-- A lexeme made of the first byte and `more` further ones. -/
  | lexeme (kind : Kind) (more : Nat)
  /-- A quote that no other quote follows. -/
  | openString
  /-- A byte with which no lexeme starts. -/
  | stranger
deriving DecidableEq

/-- The operator at the front, two characters long where one fits. -/
def operator? (first : UInt8) (rest : List UInt8) : Option (Kind × Nat) :=
  let followedBy (c : Char) : Bool := rest.head? == some c.toUInt8
  match Char.ofUInt8 first with
  | '(' => some (.leftParen, 0)
  | ')' => some (.rightParen, 0)
  | '{' => some (.leftBrace, 0)
  | '}' => some (.rightBrace, 0)
  | '[' => some (.leftBracket, 0)
  | ']' => some (.rightBracket, 0)
  | ',' => some (.comma, 0)
  | '.' => some (.dot, 0)
  | '-' => some (.minus, 0)
  | '+' => some (.plus, 0)
  | ';' => some (.semicolon, 0)
  | '/' => some (.slash, 0)
  | '*' => some (.star, 0)
  | '!' => some (if followedBy '=' then (.bangEqual, 1) else (.bang, 0))
  | '<' => some (if followedBy '=' then (.lessEqual, 1) else (.less, 0))
  | '>' => some (if followedBy '=' then (.greaterEqual, 1) else (.greater, 0))
  | '=' =>
    some (if followedBy '>' then (.arrow, 1)
      else if followedBy '=' then (.equalEqual, 1) else (.equal, 0))
  | _ => none

/-- How many bytes of `rest` continue a number: digits, and a point with digits after it. -/
def numberMore (rest : List UInt8) : Nat :=
  let whole := (rest.takeWhile isDigit).length
  match rest.drop whole with
  | [] => whole
  | byte :: rest =>
    let fraction := (rest.takeWhile isDigit).length
    if byte = '.'.toUInt8 ∧ 0 < fraction then whole + 1 + fraction else whole

/-- The text of a slice of the script. Slices of a text encode texts, so the alternative is never
taken there. -/
def sliceText (bytes : List UInt8) : String :=
  (Text.decode? bytes).getD ""

/-- Measures the longest lexeme at the front. Whether a word is a keyword depends on all of it. -/
def munch (first : UInt8) (rest : List UInt8) : Munch :=
  if first = quote then
    let body := (rest.takeWhile (· ≠ quote)).length
    if rest.drop body = [] then .openString else .lexeme .string (body + 1)
  else if isDigit first then .lexeme .number (numberMore rest)
  else if isLetter first then
    let more := rest.takeWhile isWordByte
    .lexeme (.ofWord (sliceText (first :: more))) more.length
  else
    match operator? first rest with
    | some (kind, more) => .lexeme kind more
    | none => .stranger

/-- The value of a lexeme: a string without its quotes, or the number that the digits denote. -/
def literal? (kind : Kind) (lexeme : List UInt8) : Option Literal :=
  match kind with
  | .string => some (.string (sliceText lexeme.tail.dropLast))
  | .number => some (.number ((Decimal.readNumber? (sliceText lexeme)).getD 0))
  | _ => none

/-! ### Scanning

One token at a time, and then all of them up to the end or the first error. -/

/-- The scanner at the start of a script. -/
def start (source : String) : Scanner where
  rest := Text.encode source
  line := 1
  ended := false

/-- The next token. The end of the script is reported once as a token, a failure once as an error;
after either there is nothing more. -/
def next (s : Scanner) : Option (Except ScanError Token) × Scanner :=
  if s.ended then (none, s)
  else
    let trivia := skipTrivia false s.line s.rest
    let line := trivia.1
    match trivia.2 with
    | [] => (some (.ok (.eof line)), ⟨[], line, true⟩)
    | first :: rest =>
      match munch first rest with
      | .lexeme kind more =>
        let lexeme := first :: rest.take more
        let line := line + lexeme.count newline
        let token := {
          kind, line
          lexeme := sliceText lexeme
          literal := literal? kind lexeme }
        (some (.ok token), ⟨rest.drop more, line, false⟩)
      | .openString =>
        (some (.error (.unterminatedString (line + rest.count newline) line)),
          ⟨[], line + rest.count newline, true⟩)
      | .stranger =>
        let character := (Text.firstChar? (first :: rest)).getD (Char.ofUInt8 first)
        (some (.error (.unexpectedCharacter character line)), ⟨rest, line, true⟩)

/-- Bounds how many more items `next` can give. -/
def remaining (s : Scanner) : Nat :=
  if s.ended then 0 else s.rest.length + 1

theorem remaining_next_lt {s s' : Scanner} {item : Except ScanError Token}
    (h : s.next = (some item, s')) : s'.remaining < s.remaining := by
  have hle := length_skipTrivia_le false s.line s.rest
  unfold next at h
  split at h
  · simp at h
  · rename_i hs
    have hrem : s.remaining = s.rest.length + 1 := by simp [remaining, hs]
    rw [hrem]
    dsimp only at h
    split at h
    · cases h
      simp [remaining]
    · rename_i first rest hrest
      rw [hrest, List.length_cons] at hle
      split at h
      · cases h
        simp only [remaining, List.length_drop]
        split <;> omega
      · cases h
        simp [remaining]
      · cases h
        simp [remaining]

/-- All tokens up to and including the end of the script, after those already found. -/
def collect (s : Scanner) (found : Array Token) : Except ScanError (Array Token) :=
  match _h : s.next with
  | (none, _) => .ok found
  | (some (.error e), _) => .error e
  | (some (.ok token), s') => s'.collect (found.push token)
termination_by s.remaining
decreasing_by exact remaining_next_lt (by assumption)

end Scanner

/-- The tokens of a script; the last one, and no other, is its end. -/
def Token.scan (source : String) : Except ScanError (List Token) :=
  ((Scanner.start source).collect #[]).map Array.toList

end StackScript
