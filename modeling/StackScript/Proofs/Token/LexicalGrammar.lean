import StackScript.Proofs.Text.Boundaries
import StackScript.Token.Scan

/-!
# The lexical grammar

What the tokens of a script are, said without a scanner. Trivia and lexemes are sets of byte
strings. A script is split by taking away the longest run of trivia at its front and then the
longest prefix that is a lexeme, over and over.

* **`Trivia`**, **`Lexeme`**: blanks and comments, and the lexemes of each kind.
* **`Longest`**: the longest prefix with a property.
* **`Tokenizes`**: the tokens of a script, or the error where no lexeme can be taken.
-/

namespace StackScript.Lexical

open Scanner (newline quote)

/-! ## Classes of bytes

All of them are ASCII characters, so that a byte is enough to tell them. -/

def Digit (byte : UInt8) : Prop :=
  '0'.toUInt8 ≤ byte ∧ byte ≤ '9'.toUInt8

def Letter (byte : UInt8) : Prop :=
  'a'.toUInt8 ≤ byte ∧ byte ≤ 'z'.toUInt8 ∨ 'A'.toUInt8 ≤ byte ∧ byte ≤ 'Z'.toUInt8 ∨
    byte = '_'.toUInt8

def point : UInt8 := '.'.toUInt8

def blanks : List UInt8 :=
  [' '.toUInt8, '\r'.toUInt8, '\t'.toUInt8, newline]

/-! ## Trivia

What may stand between tokens. -/

/-- A run of blanks and comments. A comment is any part of a line after two slashes, so the longest
run that starts with it goes up to the end of the line. -/
inductive Trivia : List UInt8 → Prop where
  | nil : Trivia []
  | blank {byte : UInt8} {rest : List UInt8} : byte ∈ blanks → Trivia rest → Trivia (byte :: rest)
  | comment {body rest : List UInt8} :
    newline ∉ body → Trivia rest → Trivia (Text.encode "//" ++ (body ++ rest))

/-! ## Lexemes

The texts of tokens, by their kinds. Keywords and operators are given as tables. -/

def operators : List (String × Kind) :=
  [("(", .leftParen), (")", .rightParen), ("\x7b", .leftBrace), ("\x7d", .rightBrace),
    ("[", .leftBracket), ("]", .rightBracket), (",", .comma), (".", .dot), ("-", .minus),
    ("+", .plus), (";", .semicolon), ("/", .slash), ("*", .star), ("!", .bang),
    ("!=", .bangEqual), ("=", .equal), ("==", .equalEqual), (">", .greater),
    (">=", .greaterEqual), ("<", .less), ("<=", .lessEqual), ("=>", .arrow)]

def keywords : List (String × Kind) :=
  [("and", .andKw), ("break", .breakKw), ("class", .classKw), ("continue", .continueKw),
    ("else", .elseKw), ("false", .falseKw), ("for", .forKw), ("fun", .funKw), ("if", .ifKw),
    ("nil", .nilKw), ("or", .orKw), ("print", .printKw), ("return", .returnKw),
    ("super", .superKw), ("this", .thisKw), ("true", .trueKw), ("var", .varKw),
    ("while", .whileKw)]

/-- One digit or more. -/
def Digits (bytes : List UInt8) : Prop :=
  bytes ≠ [] ∧ ∀ byte ∈ bytes, Digit byte

/-- Digits, and a point with digits after it if there is one. -/
def IsNumber (bytes : List UInt8) : Prop :=
  Digits bytes ∨ ∃ whole fraction, Digits whole ∧ Digits fraction ∧
    bytes = whole ++ point :: fraction

/-- A letter, followed by letters and digits. -/
def IsWord (bytes : List UInt8) : Prop :=
  ∃ first rest, bytes = first :: rest ∧ Letter first ∧ ∀ byte ∈ rest, Letter byte ∨ Digit byte

/-- The lexemes and their kinds. A word has the kind of a keyword exactly if the whole of it is in
the table of keywords. -/
inductive Lexeme : Kind → List UInt8 → Prop where
  | operator {text : String} {kind : Kind} :
    operators.lookup text = some kind → Lexeme kind (Text.encode text)
  | number {bytes : List UInt8} : IsNumber bytes → Lexeme .number bytes
  | word {text : String} : IsWord (Text.encode text) →
    Lexeme ((keywords.lookup text).getD .identifier) (Text.encode text)
  | string {body : List UInt8} : quote ∉ body → Lexeme .string (quote :: (body ++ [quote]))

def IsLexeme (bytes : List UInt8) : Prop :=
  ∃ kind, Lexeme kind bytes

/-- Digits are ASCII characters. -/
theorem Digit.lt {byte : UInt8} (h : Digit byte) : byte < 128 :=
  UInt8.lt_of_le_of_lt h.2 (by decide)

theorem Letter.lt {byte : UInt8} (h : Letter byte) : byte < 128 := by
  rcases h with h | h | rfl
  · exact UInt8.lt_of_le_of_lt h.2 (by decide)
  · exact UInt8.lt_of_le_of_lt h.2 (by decide)
  · decide

/-- A number starts with a digit. -/
theorem IsNumber.first {first : UInt8} {rest : List UInt8} (h : IsNumber (first :: rest)) :
    Digit first := by
  rcases h with h | ⟨whole, fraction, hwhole, -, hbytes⟩
  · exact h.2 first List.mem_cons_self
  · cases whole with
    | nil => exact absurd rfl hwhole.1
    | cons byte whole =>
      cases hbytes
      exact hwhole.2 first List.mem_cons_self

/-- A number is made of ASCII characters. -/
theorem IsNumber.lt {bytes : List UInt8} (h : IsNumber bytes) : ∀ byte ∈ bytes, byte < 128 := by
  rcases h with h | ⟨whole, fraction, hwhole, hfraction, rfl⟩
  · exact fun byte hmem => (h.2 byte hmem).lt
  · rw [List.forall_mem_append, List.forall_mem_cons]
    exact ⟨fun byte hmem => (hwhole.2 byte hmem).lt, by decide,
      fun byte hmem => (hfraction.2 byte hmem).lt⟩

theorem IsWord.lt {bytes : List UInt8} (h : IsWord bytes) : ∀ byte ∈ bytes, byte < 128 := by
  obtain ⟨first, rest, rfl, hfirst, hrest⟩ := h
  rw [List.forall_mem_cons]
  exact ⟨hfirst.lt, fun byte hmem => (hrest byte hmem).elim Letter.lt Digit.lt⟩

/-- A lexeme ends with a byte that is a character of its own. -/
theorem Lexeme.exists_last {kind : Kind} {bytes : List UInt8} (h : Lexeme kind bytes) :
    ∃ front last, bytes = front ++ [last] ∧ last < 128 := by
  -- a text of ASCII characters ends with one
  have hlast : ∀ {bytes : List UInt8}, bytes ≠ [] → (∀ byte ∈ bytes, byte < 128) →
      ∃ front last, bytes = front ++ [last] ∧ last < 128 := by
    intro bytes hne hall
    exact ⟨bytes.dropLast, bytes.getLast hne, (List.dropLast_concat_getLast hne).symm,
      hall _ (List.getLast_mem hne)⟩
  cases h with
  | @operator text kind hlookup =>
    have htable : ∀ p ∈ operators, Text.encode p.1 ≠ [] ∧ ∀ byte ∈ Text.encode p.1, byte < 128 := by
      decide +kernel
    obtain ⟨before, after, hsplit, -⟩ := List.lookup_eq_some_iff.mp hlookup
    obtain ⟨hne, hall⟩ := htable (text, kind) (by simp [hsplit])
    exact hlast hne hall
  | number hnumber =>
    refine hlast ?_ hnumber.lt
    rcases hnumber with h | ⟨whole, fraction, -, -, rfl⟩
    · exact h.1
    · simp
  | word hword =>
    refine hlast ?_ hword.lt
    obtain ⟨first, rest, hbytes, -⟩ := hword
    rw [hbytes]
    exact List.cons_ne_nil first rest
  | @string body _ => exact ⟨quote :: body, quote, rfl, by decide⟩

/-- Only strings and numbers have the kinds of those. -/
theorem Lexeme.kind_cases {kind : Kind} {bytes : List UInt8} (h : Lexeme kind bytes) :
    (kind = .string ∧ ∃ body, bytes = quote :: (body ++ [quote])) ∨
    (kind = .number ∧ IsNumber bytes) ∨ (kind ≠ .string ∧ kind ≠ .number) := by
  have htables : ∀ p ∈ operators ++ keywords, p.2 ≠ .string ∧ p.2 ≠ .number := by decide
  cases h with
  | @operator text kind hlookup =>
    obtain ⟨before, after, hsplit, -⟩ := List.lookup_eq_some_iff.mp hlookup
    exact .inr (.inr (htables (text, kind) (by simp [hsplit])))
  | number hnumber => exact .inr (.inl ⟨rfl, hnumber⟩)
  | @word text _ =>
    cases hlookup : keywords.lookup text with
    | none => exact .inr (.inr ⟨by decide, by decide⟩)
    | some kind =>
      obtain ⟨before, after, hsplit, -⟩ := List.lookup_eq_some_iff.mp hlookup
      exact .inr (.inr (htables (text, kind) (by simp [hsplit])))
  | string _ => exact .inl ⟨rfl, _, rfl⟩

/-- Only strings go on over several lines. -/
theorem Lexeme.newline_not_mem {kind : Kind} {bytes : List UInt8} (h : Lexeme kind bytes)
    (hkind : kind ≠ .string) : newline ∉ bytes := by
  have hdigit : ∀ {byte}, Digit byte → byte ≠ newline := by
    rintro _ hbyte rfl
    exact absurd hbyte (by unfold Digit; decide)
  have hletter : ∀ {byte}, Letter byte → byte ≠ newline := by
    rintro _ hbyte rfl
    exact absurd hbyte (by unfold Letter; decide)
  intro hmem
  cases h with
  | @operator text kind hlookup =>
    -- all operators of the table are looked at
    have htable : ∀ p ∈ operators, newline ∉ Text.encode p.1 := by decide +kernel
    obtain ⟨before, after, hsplit, -⟩ := List.lookup_eq_some_iff.mp hlookup
    exact htable (text, kind) (by simp [hsplit]) hmem
  | number hnumber =>
    rcases hnumber with hdigits | ⟨whole, fraction, hwhole, hfraction, rfl⟩
    · exact hdigit (hdigits.2 _ hmem) rfl
    · rw [List.mem_append, List.mem_cons] at hmem
      rcases hmem with hmem | hmem | hmem
      · exact hdigit (hwhole.2 _ hmem) rfl
      · exact absurd hmem (by decide)
      · exact hdigit (hfraction.2 _ hmem) rfl
  | word hword =>
    obtain ⟨first, rest, hbytes, hfirst, hrest⟩ := hword
    rw [hbytes, List.mem_cons] at hmem
    rcases hmem with rfl | hmem
    · exact hletter hfirst rfl
    · exact (hrest _ hmem).elim (fun h => hletter h rfl) fun h => hdigit h rfl
  | string _ => exact hkind rfl

/-! ## Longest prefixes

The rule by which a text is cut into tokens. -/

/-- `front` is the longest prefix of the bytes with a property. -/
structure Longest (property : List UInt8 → Prop) (bytes front : List UInt8) : Prop where
  isPrefix : front <+: bytes
  holds : property front
  longest : ∀ other, other <+: bytes → property other → other.length ≤ front.length

/-- Two prefixes of the same length are the same. -/
theorem Longest.unique {property : List UInt8 → Prop} {bytes a b : List UInt8}
    (ha : Longest property bytes a) (hb : Longest property bytes b) : a = b := by
  have hlength : a.length = b.length :=
    Nat.le_antisymm (hb.longest a ha.isPrefix ha.holds) (ha.longest b hb.isPrefix hb.holds)
  exact (List.prefix_of_prefix_length_le ha.isPrefix hb.isPrefix
    (Nat.le_of_eq hlength)).eq_of_length hlength

/-! ## Tokens

A text is cut into tokens from its start: trivia as long as possible, then a lexeme as long as
possible. -/

/-- What a lexeme denotes: a string what stands between its quotes, a number what its digits say,
and any other nothing. -/
inductive Denotes (text : String) : Kind → Option Literal → Prop where
  | string {body : String} : Text.encode text = quote :: (Text.encode body ++ [quote]) →
    Denotes text .string (some (.string body))
  | number {value : Float} : Decimal.readNumber? text = some value →
    Denotes text .number (some (.number value))
  | other {kind : Kind} : kind ≠ .string → kind ≠ .number → Denotes text kind none

/-- The token of a lexeme that starts on a line. It is on the line where the lexeme ends. -/
structure IsToken (line : Nat) (bytes : List UInt8) (token : Token) : Prop where
  kind : Lexeme token.kind bytes
  lexeme : Text.encode token.lexeme = bytes
  literal : Denotes token.lexeme token.kind token.literal
  line : token.line = line + bytes.count newline

/-- How the bytes from a line on are split into tokens. In each case `trivia` is the longest run of
it at their front, and `rest` is what is left. -/
inductive Tokenizes : Nat → List UInt8 → Except ScanError (List Token) → Prop where
  /-- There is nothing left. -/
  | eof {line : Nat} {trivia : List UInt8} : Longest Trivia trivia trivia →
    Tokenizes line trivia (.ok [.eof (line + trivia.count newline)])
  /-- The longest lexeme is a token, and the others come after it. -/
  | lexeme {line : Nat} {trivia front rest : List UInt8} {token : Token}
      {result : Except ScanError (List Token)} :
    Longest Trivia (trivia ++ (front ++ rest)) trivia →
    Longest IsLexeme (front ++ rest) front →
    IsToken (line + trivia.count newline) front token →
    Tokenizes token.line rest result →
    Tokenizes line (trivia ++ (front ++ rest)) (result.map (token :: ·))
  /-- A quote is left that no other quote follows. -/
  | unterminatedString {line : Nat} {trivia rest : List UInt8} :
    Longest Trivia (trivia ++ quote :: rest) trivia →
    quote ∉ rest →
    Tokenizes line (trivia ++ quote :: rest)
      (.error (.unterminatedString (line + (trivia ++ quote :: rest).count newline)
        (line + trivia.count newline)))
  /-- A character other than a quote is left with which no lexeme starts. -/
  | unexpectedCharacter {line : Nat} {trivia rest : List UInt8} {character : Char} :
    Longest Trivia (trivia ++ (String.utf8EncodeChar character ++ rest)) trivia →
    character ≠ '"' →
    (∀ front, front <+: String.utf8EncodeChar character ++ rest → ¬ IsLexeme front) →
    Tokenizes line (trivia ++ (String.utf8EncodeChar character ++ rest))
      (.error (.unexpectedCharacter character (line + trivia.count newline)))

end StackScript.Lexical
