import StackScript.Text.Utf8

/-!
# Outputs

An output collects the bytes written to it. It may have room for a limited number of them; then it
keeps what fits and refuses the rest.
-/

namespace StackScript

structure Output where
  /-- The bytes written so far. -/
  written : Array UInt8
  /-- How many more bytes can be written; `none` for any number. -/
  room : Option Nat

namespace Output

/-- An output with the given room. -/
def ofRoom (room : Option Nat) : Output where
  written := #[]
  room := room

/-- The bytes that fit. -/
def fitting (o : Output) (bytes : List UInt8) : List UInt8 :=
  match o.room with
  | none => bytes
  | some room => bytes.take room

/-- Writes the bytes that fit, and tells whether these were all. -/
def write (o : Output) (bytes : List UInt8) : Bool × Output :=
  let taken := o.fitting bytes
  (taken.length == bytes.length,
    { written := o.written ++ taken, room := o.room.map (· - taken.length) })

/-- Writes a text in UTF-8. -/
def writeText (o : Output) (text : String) : Bool × Output :=
  o.write (Text.encode text)

/-- Adds bytes that were written elsewhere; they take up no room. -/
def absorb (o : Output) (bytes : Array UInt8) : Output :=
  { o with written := o.written ++ bytes }

/-- The bytes written since the output had the given number of them. -/
def since (o : Output) (count : Nat) : Array UInt8 :=
  o.written.extract count

/-- Takes the bytes out; the room stays as it is. -/
def drain (o : Output) : Array UInt8 × Output :=
  (o.written, { o with written := #[] })

end Output

end StackScript
