import StackScript.Decimal.Shortest

/-!
# Values

What variables hold and expressions denote, how values compare, and the text that `print` writes
for them.
-/

namespace StackScript

/-- A function as a value. Functions made separately differ even if they have the same name, so
each carries a number of its own. A function without a name is a whole script. -/
structure Function where
  identity : Nat
  name : Option String

inductive Value where
  | nil
  | bool (value : Bool)
  | number (value : Float)
  | string (value : String)
  | function (value : Function)

instance : Inhabited Value := ⟨.nil⟩

/-- The text of a number: the shortest digits that read back, written out in full. A whole number
has no point, zero keeps its sign, and an undefined result has none. -/
def numberText (x : Float) : String :=
  let sign := if x.toBits &&& Decimal.signBit = 0 then "" else "-"
  match Decimal.Magnitude.ofBits x.toBits with
  | .notANumber => "NaN"
  | .infinite => sign ++ "inf"
  | .finite significand exponent =>
    if significand = 0 then sign ++ "0"
    else sign ++ (Decimal.shortest significand exponent).positional

def Function.display (f : Function) : String :=
  match f.name with
  | some name => "<fn " ++ name ++ ">"
  | none => "<script>"

namespace Value

/-- The text that `print` writes. -/
def display : Value → String
  | nil => "nil"
  | bool value => if value then "true" else "false"
  | number value => numberText value
  | string value => value
  | function value => value.display

/-- The name of a value's type, for messages. -/
def typeName : Value → String
  | nil => "nil"
  | bool _ => "bool"
  | number _ => "number"
  | string _ => "string"
  | function _ => "function"

/-- Only `nil` and `false` count as false. -/
def isFalsey : Value → Bool
  | nil => true
  | bool value => !value
  | _ => false

/-- The equality of scripts: numbers compare as numbers, so an undefined result differs from
itself and the two zeros are equal; functions compare by identity. -/
def equals : Value → Value → Bool
  | nil, nil => true
  | bool a, bool b => a == b
  | number a, number b => a == b
  | string a, string b => a == b
  | function a, function b => a.identity == b.identity
  | _, _ => false

end Value

end StackScript
