/-!
# Local variables

Locals live on the machine's stack, one slot each, in the order of their declaration. A scope
holds the locals of all open blocks, the latest first, each with the depth of its block.
-/

namespace StackScript.Compile

structure Local where
  name : String
  /-- The depth of the block, unknown until the initializer has been compiled. -/
  depth : Option Nat
deriving DecidableEq

/-- Whether a local belongs to a block at the given depth or deeper. One without a value belongs to
the innermost block. -/
def Local.isWithin (depth : Nat) (l : Local) : Bool :=
  match l.depth with
  | some d => depth ≤ d
  | none => true

structure Scope where
  /-- The locals of all open blocks, the latest first. -/
  locals : List Local
  /-- How many blocks are open; at depth 0 variables are global. -/
  depth : Nat
deriving DecidableEq

namespace Scope

def empty : Scope where
  locals := []
  depth := 0

/-- A slot is referred to by one byte, so there are at most this many locals. -/
def maxLocals : Nat := 256

def isFull (s : Scope) : Bool :=
  maxLocals ≤ s.locals.length

/-- Adds a local without a value. -/
def declare (s : Scope) (name : String) : Scope :=
  { s with locals := ⟨name, none⟩ :: s.locals }

/-- Whether the innermost block declares a name. -/
def declares (s : Scope) (name : String) : Bool :=
  (s.locals.takeWhile (Local.isWithin s.depth)).any (·.name == name)

/-- Gives the latest local its depth, so that it can be used. -/
def markInitialized (s : Scope) : Scope :=
  match s.locals with
  | [] => s
  | l :: rest => { s with locals := { l with depth := some s.depth } :: rest }

/-- The latest local of a name among the given ones, with the number of locals before it. -/
def find? (name : String) : List Local → Option (Nat × Local)
  | [] => none
  | l :: rest => if l.name = name then some (rest.length, l) else find? name rest

/-- The latest local of a name and its slot. -/
def resolve (s : Scope) (name : String) : Option (UInt8 × Local) :=
  (find? name s.locals).map fun (index, l) => (index.toUInt8, l)

def beginBlock (s : Scope) : Scope :=
  { s with depth := s.depth + 1 }

/-- Closes the innermost block and drops its locals. -/
def endBlock (s : Scope) : Scope where
  locals := s.locals.dropWhile (Local.isWithin s.depth)
  depth := s.depth - 1

end Scope

end StackScript.Compile
