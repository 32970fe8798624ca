import StackScript.Machine.Run
import StackScript.Proofs.Tree.Syntax

/-!
# Evaluating syntax trees

What a script means, without code and without a machine. Expressions have values, statements change
variables and print, and both can fail at a line.

Locals live in the block that declares them, and a name means the latest local of that name or else
a global. Operands are evaluated from left to right. An evaluation can be given a number of places
for the locals and the values that unfinished expressions hold back; without one it never runs out
of them.

* **`Expr.eval`**: the value of an expression while a number of values are held back.
* **`Stmt.exec`**, **`Decls.exec`**: statements. Each loop can do as many rounds as `fuel` says;
  running out of it is an outcome of its own.
* **`Decls.evaluate`**: how a whole script ends.
-/

namespace StackScript

/-! ## Operators

What the operators do to values, and the faults they give. -/

def UnaryOperator.apply : UnaryOperator → Value → Except Fault Value
  | .not, value => .ok (.bool value.isFalsey)
  | .negate, .number a => .ok (.number (-a))
  | .negate, _ => .error .operandNotNumber

/-- An operation that is defined for numbers only. -/
def applyToNumbers (operation : Float → Float → Value) : Value → Value → Except Fault Value
  | .number a, .number b => .ok (operation a b)
  | _, _ => .error .operandsNotNumbers

/-- Numbers are added, strings are joined. -/
def addOrJoin : Value → Value → Except Fault Value
  | .number a, .number b => .ok (.number (a + b))
  | .string a, .string b => .ok (.string (a ++ b))
  | _, _ => .error .operandsNotAddable

/-- `!=`, `<=` and `>=` are the opposites of `==`, `>` and `<`, also for numbers that do not
compare. -/
def BinaryOperator.apply (operator : BinaryOperator) (a b : Value) : Except Fault Value :=
  match operator with
  | .equal => .ok (.bool (a.equals b))
  | .notEqual => .ok (.bool !(a.equals b))
  | .greater => applyToNumbers (fun x y => .bool (x > y)) a b
  | .lessEqual => applyToNumbers (fun x y => .bool !(x > y)) a b
  | .less => applyToNumbers (fun x y => .bool (x < y)) a b
  | .greaterEqual => applyToNumbers (fun x y => .bool !(x < y)) a b
  | .add => addOrJoin a b
  | .subtract => applyToNumbers (fun x y => .number (x - y)) a b
  | .multiply => applyToNumbers (fun x y => .number (x * y)) a b
  | .divide => applyToNumbers (fun x y => .number (x / y)) a b

def Constant.value : Constant → Value
  | .false => .bool Bool.false
  | .nil => .nil
  | .true => .bool Bool.true

namespace Tree

/-! ## Variables

The values of locals are kept block by block, with their names. -/

/-- The locals of a block with their values, the latest first. -/
abbrev Frame := List (String × Value)

/-- What a script has done so far. -/
structure Store where
  /-- The locals of the open blocks, the innermost block first; none outside all blocks. -/
  frames : List Frame
  globals : Globals
  /-- The bytes that have been printed. -/
  printed : Array UInt8

/-- The value of the latest local of a name. -/
def Store.local? (s : Store) (name : String) : Option Value :=
  s.frames.flatten.lookup name

/-- Gives the latest local of a name in a block another value. -/
def Frame.assign (name : String) (value : Value) : Frame → Frame
  | [] => []
  | (other, old) :: rest =>
    if other = name then (other, value) :: rest else (other, old) :: Frame.assign name value rest

/-- Gives the latest local of a name another value: it is in the innermost block that has one. -/
def assignLocal (name : String) (value : Value) : List Frame → List Frame
  | [] => []
  | frame :: outer =>
    if (frame.lookup name).isSome then frame.assign name value :: outer
    else frame :: assignLocal name value outer

/-! ## Actions

An evaluation changes a store, and stops at a fault or when it runs out of fuel. -/

/-- Why an evaluation ends early. -/
inductive Stop where
  | fault (error : RuntimeError)
  | outOfFuel

abbrev EvalM := EStateM Stop Store

def failAt {α : Type} (line : Nat) (fault : Fault) : EvalM α :=
  throw (.fault ⟨fault, line⟩)

/-- A result, or a fault on the given line. -/
def resultAt (line : Nat) : Except Fault Value → EvalM Value
  | .ok value => return value
  | .error fault => failAt line fault

/-- A value that is kept in addition to the locals and to `held` others. -/
def keep (places : Option Nat) (held line : Nat) (value : Value) : EvalM Value := do
  let used := (← get).frames.flatten.length + held
  if places.all (used < ·) then return value else failAt line .stackOverflow

def readVariable (line : Nat) (name : String) : EvalM Value := do
  let s ← get
  match s.local? name with
  | some value => return value
  | none =>
    match s.globals[name]? with
    | some value => return value
    | none => failAt line (.undefinedVariable name)

/-- An assignment changes a variable that is there. -/
def writeVariable (line : Nat) (name : String) (value : Value) : EvalM Unit := do
  let s ← get
  match s.local? name with
  | some _ => set { s with frames := assignLocal name value s.frames }
  | none =>
    match s.globals[name]? with
    | some _ => set { s with globals := s.globals.insert name value }
    | none => failAt line (.undefinedVariable name)

/-- A declaration makes a local in the innermost block, or else a global. -/
def declareVariable (name : String) (value : Value) : EvalM Unit :=
  modify fun s =>
    match s.frames with
    | [] => { s with globals := s.globals.insert name value }
    | frame :: outer => { s with frames := ((name, value) :: frame) :: outer }

def printValue (value : Value) : EvalM Unit :=
  modify fun s => { s with printed := s.printed ++ Text.encode (value.display ++ "\n") }

/-- The locals of a block are gone when it ends. -/
def inBlock (body : EvalM Unit) : EvalM Unit := do
  modify fun s => { s with frames := [] :: s.frames }
  body
  modify fun s => { s with frames := s.frames.tail }

/-! ## Expressions

By recursion on the expression. `held` counts the values that the operators around it are waiting
with. -/

/-- The value of an expression while `held` values of other expressions are held back. A fault is
on the line where the expression that has it ends. -/
def Expr.eval (places : Option Nat) (held : Nat) : Expr → EvalM Value
  | .constant value word => keep places held word.val.line value.value
  | .number token value _ => keep places held token.val.line (.number value)
  | .string token => keep places held token.val.line (.string token.val.stringValue)
  | .name token => do
    keep places held token.val.line (← readVariable token.val.line token.val.lexeme)
  | .assign target _ value => do
    let result ← value.eval places held
    writeVariable value.last.line target.val.lexeme result
    return result
  | .grouping _ inner _ => inner.eval places held
  | .unary operator _ operand => do
    resultAt operand.last.line (operator.apply (← operand.eval places held))
  | .binary operator left _ right => do
    let a ← left.eval places held
    let b ← right.eval places (held + 1)
    resultAt right.last.line (operator.apply a b)
  | .and left _ right => do
    let value ← left.eval places held
    if value.isFalsey then return value else right.eval places held
  | .or left _ right => do
    let value ← left.eval places held
    if value.isFalsey then right.eval places held else return value

/-! ## Statements

By recursion on the statement, except for loops: these take one unit of fuel for each round. -/

/-- A loop does its body and then its step as long as the test says so, at most as often as there is
fuel for. -/
def rounds (test : EvalM Bool) (body step : EvalM Unit) : (fuel : Nat) → EvalM Unit
  | 0 => throw .outOfFuel
  | fuel + 1 => do
    if ← test then
      body
      step
      rounds test body step fuel

/-- A condition that is left out always holds. -/
def evalTest (places : Option Nat) : Option Expr → EvalM Bool
  | none => return true
  | some condition => return !(← condition.eval places 0).isFalsey

def execStep (places : Option Nat) : Option Expr → EvalM Unit
  | none => pure ()
  | some increment => discard (increment.eval places 0)

/-- A variable without a value is `nil`. -/
def VarDecl.value (places : Option Nat) (d : VarDecl) : EvalM Value :=
  match d.initializer with
  | none => keep places 0 d.name.val.line .nil
  | some (_, value) => value.eval places 0

def VarDecl.exec (places : Option Nat) (d : VarDecl) : EvalM Unit := do
  declareVariable d.name.val.lexeme (← d.value places)

def ForStart.exec (places : Option Nat) : ForStart → EvalM Unit
  | none _ => pure ()
  | declaration _ declared => declared.exec places
  | expression value _ => discard (value.eval places 0)

mutual

def Stmt.exec (places : Option Nat) (fuel : Nat) : Stmt → EvalM Unit
  | .print _ value _ => do printValue (← value.eval places 0)
  | .expression value _ => discard (value.eval places 0)
  | .conditional _ condition body otherwise => do
    if (← condition.value.eval places 0).isFalsey then otherwise.exec places fuel
    else body.exec places fuel
  | .whileLoop _ condition body =>
    rounds (evalTest places (some condition.value)) (body.exec places fuel) (execStep places none)
      fuel
  | .forLoop _ clauses body => inBlock do
    clauses.start.exec places
    rounds (evalTest places clauses.condition) (body.exec places fuel)
      (execStep places clauses.increment) fuel
  | .block _ body _ => inBlock (body.exec places fuel)

def Else.exec (places : Option Nat) (fuel : Nat) : Else → EvalM Unit
  | .none => pure ()
  | .branch _ body => body.exec places fuel

def Decls.exec (places : Option Nat) (fuel : Nat) : Decls → EvalM Unit
  | .nil => pure ()
  | .declaration _ declared rest => do
    declared.exec places
    rest.exec places fuel
  | .statement first rest => do
    first.exec places fuel
    rest.exec places fuel

end

/-- How a script ends, and the variables and the output that it leaves. -/
def Decls.evaluate (places : Option Nat) (fuel : Nat) (script : Decls) (s : Store) :
    Outcome RuntimeError × Store :=
  match script.exec places fuel s with
  | .ok _ s' => (.finished, s')
  | .error (.fault e) s' => (.failed e, s')
  | .error .outOfFuel s' => (.unfinished, s')

end Tree

end StackScript
