import Mathlib
import StackScript.Compile.State
import StackScript.Proofs.Tree.Syntax

/-!
# The code of a syntax tree

What the compiler emits for a tree, as a function of the tree. The compiler writes placeholders and
fills them in later; here a jump is written with its distance at once, because the code it jumps
over is at hand.

* **`Lowering`**: instructions with their lines, the constants they add, and the distances of their
  jumps as numbers of any size. Pieces are put together with `++`.
* **`Blocks`**: the names of the locals in scope, block by block, the innermost first.
* **`Expr.lower`**, **`Stmt.lower`**, **`Decls.lower`**: the code of a tree in given blocks, after a
  given number of constants.
* **`Lowering.Limits`**: the constants fit in the pool and the distances in two bytes.
-/

namespace StackScript

/-- A piece of code before it is laid out in bytes. -/
structure Lowering where
  /-- The instructions, each with its source line. -/
  code : List (Instruction × Nat)
  /-- The constants that the code adds to the pool. -/
  constants : List Value
  /-- The distances of the jumps, before they are put into two bytes. -/
  distances : List Nat

namespace Lowering

/-- The number of bytes of a list of instructions with their lines. -/
def codeSize (code : List (Instruction × Nat)) : Nat :=
  (code.map (·.1.width)).sum

/-- The number of bytes of the code. -/
def size (l : Lowering) : Nat :=
  codeSize l.code

def empty : Lowering where
  code := []
  constants := []
  distances := []

protected def append (a b : Lowering) : Lowering where
  code := a.code ++ b.code
  constants := a.constants ++ b.constants
  distances := a.distances ++ b.distances

instance : Append Lowering := ⟨Lowering.append⟩

/-- One instruction without a distance. -/
def instruction (i : Instruction) (line : Nat) : Lowering where
  code := [(i, line)]
  constants := []
  distances := []

/-- Several instructions on one line. -/
def instructions (is : List Instruction) (line : Nat) : Lowering where
  code := is.map (·, line)
  constants := []
  distances := []

/-- Constants without code. -/
def pool (values : List Value) : Lowering where
  code := []
  constants := values
  distances := []

/-- A jump over the given number of bytes. -/
def jump (make : UInt16 → Instruction) (distance line : Nat) : Lowering where
  code := [(make distance.toUInt16, line)]
  constants := []
  distances := [distance]

/-- The constants fit in a pool that has `base` of them already, and every distance in two bytes. -/
def Limits (base : Nat) (l : Lowering) : Prop :=
  base + l.constants.length ≤ Chunk.maxConstants ∧ ∀ d ∈ l.distances, d ≤ Compile.maxDistance

/-! ## Putting pieces together

The code of a tree is put together from pieces, each of which brings its constants and distances.
The sizes, constants and distances of a sequence are those of its pieces, in order. -/

@[simp] theorem code_append (a b : Lowering) : (a ++ b).code = a.code ++ b.code := rfl

@[simp] theorem constants_append (a b : Lowering) :
    (a ++ b).constants = a.constants ++ b.constants := rfl

@[simp] theorem distances_append (a b : Lowering) :
    (a ++ b).distances = a.distances ++ b.distances := rfl

@[simp] theorem codeSize_nil : codeSize [] = 0 := rfl

@[simp] theorem codeSize_cons (i : Instruction × Nat) (code : List (Instruction × Nat)) :
    codeSize (i :: code) = i.1.width + codeSize code := rfl

/-- The sizes of two sequences of instructions add up. -/
@[simp] theorem codeSize_append (a b : List (Instruction × Nat)) :
    codeSize (a ++ b) = codeSize a + codeSize b := by
  simp [codeSize]

/-- The sizes of two pieces add up. -/
@[simp] theorem size_append (a b : Lowering) : (a ++ b).size = a.size + b.size :=
  codeSize_append a.code b.code

/-- The end of two pieces in a row is the end of the second after the first. -/
theorem add_size_append (n : Nat) (a b : Lowering) : n + (a ++ b).size = n + a.size + b.size := by
  rw [size_append, Nat.add_assoc]

@[simp] theorem size_empty : empty.size = 0 := rfl

@[simp] theorem size_pool (values : List Value) : (pool values).size = 0 := rfl

@[simp] theorem size_instruction (i : Instruction) (line : Nat) :
    (instruction i line).size = i.width := rfl

@[simp] theorem size_jump_loop (distance line : Nat) :
    (jump .loop distance line).size = 3 := rfl

@[simp] theorem size_jump_jump (distance line : Nat) :
    (jump .jump distance line).size = 3 := rfl

@[simp] theorem size_jump_jumpIfFalse (distance line : Nat) :
    (jump .jumpIfFalse distance line).size = 3 := rfl

@[simp] theorem width_pop : Instruction.pop.width = 1 := rfl

@[simp] theorem width_jump (distance : UInt16) : (Instruction.jump distance).width = 3 := rfl

@[simp] theorem width_jumpIfFalse (distance : UInt16) :
    (Instruction.jumpIfFalse distance).width = 3 := rfl

@[simp] theorem width_loop (distance : UInt16) : (Instruction.loop distance).width = 3 := rfl

@[simp] theorem constants_empty : empty.constants = [] := rfl

@[simp] theorem constants_instruction (i : Instruction) (line : Nat) :
    (instruction i line).constants = [] := rfl

@[simp] theorem constants_instructions (is : List Instruction) (line : Nat) :
    (instructions is line).constants = [] := rfl

@[simp] theorem constants_pool (values : List Value) : (pool values).constants = values := rfl

@[simp] theorem constants_jump (make : UInt16 → Instruction) (distance line : Nat) :
    (jump make distance line).constants = [] := rfl

@[simp] theorem distances_empty : empty.distances = [] := rfl

@[simp] theorem distances_instruction (i : Instruction) (line : Nat) :
    (instruction i line).distances = [] := rfl

@[simp] theorem distances_instructions (is : List Instruction) (line : Nat) :
    (instructions is line).distances = [] := rfl

@[simp] theorem distances_pool (values : List Value) : (pool values).distances = [] := rfl

@[simp] theorem distances_jump (make : UInt16 → Instruction) (distance line : Nat) :
    (jump make distance line).distances = [distance] := rfl

/-- It does not matter in which order pieces are put together. -/
theorem append_assoc (a b c : Lowering) : a ++ b ++ c = a ++ (b ++ c) := by
  change Lowering.append (Lowering.append a b) c = Lowering.append a (Lowering.append b c)
  simp [Lowering.append]

@[simp] theorem append_empty (a : Lowering) : a ++ empty = a := by
  change Lowering.append a empty = a
  simp [Lowering.append, empty]

@[simp] theorem empty_append (a : Lowering) : empty ++ a = a := by
  change Lowering.append empty a = a
  simp [Lowering.append, empty]

/-- Two pieces in a row keep the limits exactly if the first does and the second does after the
constants of the first. -/
theorem limits_append {base : Nat} {a b : Lowering} :
    (a ++ b).Limits base ↔ a.Limits base ∧ b.Limits (base + a.constants.length) := by
  simp only [Limits, constants_append, distances_append, List.length_append, List.mem_append]
  constructor
  · rintro ⟨hconstants, hdistances⟩
    exact ⟨⟨by omega, fun d hd => hdistances d (.inl hd)⟩,
      ⟨by omega, fun d hd => hdistances d (.inr hd)⟩⟩
  · rintro ⟨⟨_, ha⟩, ⟨hconstants, hb⟩⟩
    exact ⟨by omega, fun d hd => hd.elim (ha d) (hb d)⟩

/-- Code without constants and jumps keeps the limits wherever the pool does. -/
theorem limits_instruction {base : Nat} (h : base ≤ Chunk.maxConstants) (i : Instruction)
    (line : Nat) : (instruction i line).Limits base :=
  ⟨h, by simp [instruction]⟩

/-- Where nothing is added, the pool only has to be no larger than it may be. -/
theorem limits_empty {base : Nat} (h : base ≤ Chunk.maxConstants) : empty.Limits base :=
  ⟨h, by simp [empty]⟩

/-- Constants fit if the pool has room for them. -/
theorem limits_pool {base : Nat} {values : List Value} :
    (pool values).Limits base ↔ base + values.length ≤ Chunk.maxConstants := by
  simp [Limits, pool]

/-- One more constant fits if the pool is not full. -/
theorem limits_pool_singleton {base : Nat} {value : Value} :
    (pool [value]).Limits base ↔ base < Chunk.maxConstants :=
  limits_pool

/-- Instructions without constants and distances do not count. -/
@[simp] theorem limits_append_instructions {base : Nat} {l : Lowering} {is : List Instruction}
    {line : Nat} : (l ++ instructions is line).Limits base ↔ l.Limits base := by
  simp [Limits, instructions]

/-- An instruction brings neither constants nor distances, so it always fits. -/
@[simp] theorem limits_append_instruction {base : Nat} {l : Lowering} {i : Instruction}
    {line : Nat} : (l ++ instruction i line).Limits base ↔ l.Limits base := by
  simp [Limits, instruction]

@[simp] theorem limits_instruction_append {base : Nat} {l : Lowering} {i : Instruction}
    {line : Nat} : (instruction i line ++ l).Limits base ↔ l.Limits base := by
  simp [Limits, instruction]

/-- Of a jump the distance counts. -/
@[simp] theorem limits_append_jump {base : Nat} {l : Lowering} {make : UInt16 → Instruction}
    {distance line : Nat} :
    (l ++ jump make distance line).Limits base ↔
      l.Limits base ∧ distance ≤ Compile.maxDistance := by
  simp only [Limits, jump, constants_append, distances_append, List.append_nil, List.mem_append,
    List.mem_singleton]
  constructor
  · rintro ⟨hconstants, hdistances⟩
    exact ⟨⟨hconstants, fun d hd => hdistances d (.inl hd)⟩, hdistances _ (.inr rfl)⟩
  · rintro ⟨⟨hconstants, hl⟩, hdistance⟩
    exact ⟨hconstants, fun d hd => hd.elim (hl d) fun heq => heq ▸ hdistance⟩

/-- A jump fits if its distance does. -/
@[simp] theorem limits_jump_append {base : Nat} {l : Lowering} {make : UInt16 → Instruction}
    {distance line : Nat} :
    (jump make distance line ++ l).Limits base ↔
      distance ≤ Compile.maxDistance ∧ l.Limits base := by
  simp only [Limits, jump, constants_append, distances_append, List.nil_append, List.mem_append,
    List.mem_singleton]
  constructor
  · rintro ⟨hconstants, hdistances⟩
    exact ⟨hdistances _ (.inl rfl), hconstants, fun d hd => hdistances d (.inr hd)⟩
  · rintro ⟨hdistance, hconstants, hl⟩
    exact ⟨hconstants, fun d hd => hd.elim (fun heq => heq ▸ hdistance) (hl d)⟩

end Lowering

/-! ## Numbers in one or two bytes

Within the limits nothing is lost when a number is put into bytes. -/

/-- An index of a constant fits in a byte. -/
theorem toNat_toUInt8 {n : Nat} (h : n < Chunk.maxConstants) : n.toUInt8.toNat = n :=
  UInt8.toNat_ofNat_of_lt' h

/-- A distance fits in two bytes. -/
theorem toNat_toUInt16 {n : Nat} (h : n ≤ Compile.maxDistance) : n.toUInt16.toNat = n :=
  UInt16.toNat_ofNat_of_lt' (Nat.lt_succ_of_le h)

/-! ## Variables

A name stands for the latest local that has it. If there is none, it is that of a global, and the
code refers to a constant with the name. -/

/-- The names of the locals in scope: a list for each open block, the innermost block first and in
each block the latest name first. Outside all blocks variables are global. -/
abbrev Blocks := List (List String)

/-- Declares a name in the innermost block; a global is not recorded. -/
def Blocks.declare (name : String) : Blocks → Blocks
  | [] => []
  | block :: outer => (name :: block) :: outer

namespace Tree

/-- The slot of the latest local of a name: the number of locals declared before it. -/
def slot? (name : String) : List String → Option Nat
  | [] => none
  | x :: rest => if x = name then some rest.length else slot? name rest

/-- A slot is that of one of the locals. -/
theorem slot?_lt {name : String} {names : List String} {slot : Nat}
    (h : slot? name names = some slot) : slot < names.length := by
  induction names with
  | nil => simp [slot?] at h
  | cons x rest ih =>
    rw [slot?] at h
    rw [List.length_cons]
    split at h
    · cases h
      omega
    · have := ih h
      omega

/-- How a variable is reached; a global by the constant with index `base`. -/
def reach (names : List String) (base : Nat) (name : String) : Compile.Access :=
  match slot? name names with
  | some slot => ⟨.getLocal slot.toUInt8, .setLocal slot.toUInt8⟩
  | none => ⟨.getGlobal base.toUInt8, .setGlobal base.toUInt8⟩

/-- The constants that a use of a variable adds: the name of a global. -/
def nameConstants (names : List String) (name : String) : List Value :=
  match slot? name names with
  | some _ => []
  | none => [.string name]

open Lowering (instruction instructions pool jump)

/-! ## Expressions

An expression leaves one value on top of the stack. -/

/-- The code of an expression among locals of the given names, after `base` constants. An
operator stands on the line where its last operand ends. -/
def Expr.lower (names : List String) (base : Nat) : Expr → Lowering
  | .constant value word => instruction value.instruction word.val.line
  | .number token value _ =>
    pool [.number value] ++ instruction (.constant base.toUInt8) token.val.line
  | .string token =>
    pool [.string token.val.stringValue] ++ instruction (.constant base.toUInt8) token.val.line
  | .name token =>
    pool (nameConstants names token.val.lexeme) ++
      instruction (reach names base token.val.lexeme).get token.val.line
  | .assign target _ value =>
    let known := nameConstants names target.val.lexeme
    pool known ++ value.lower names (base + known.length) ++
      instruction (reach names base target.val.lexeme).set value.last.line
  | .grouping _ inner _ => inner.lower names base
  | .unary operator _ operand =>
    operand.lower names base ++ instruction operator.instruction operand.last.line
  | .binary operator left _ right =>
    let first := left.lower names base
    first ++ right.lower names (base + first.constants.length) ++
      instructions operator.instructions right.last.line
  | .and left token right =>
    let first := left.lower names base
    let second := instruction .pop token.val.line ++
      right.lower names (base + first.constants.length)
    first ++ jump .jumpIfFalse second.size token.val.line ++ second
  | .or left token right =>
    let first := left.lower names base
    let second := instruction .pop token.val.line ++
      right.lower names (base + first.constants.length)
    first ++ jump .jumpIfFalse 3 token.val.line ++ jump .jump second.size token.val.line ++ second

/-! ## Statements

A statement leaves the stack as it was, apart from locals that it declares. -/

/-- The value of a declared variable. -/
def VarDecl.lowerValue (names : List String) (base : Nat) (d : VarDecl) : Lowering :=
  match d.initializer with
  | none => instruction .nil d.name.val.line
  | some (_, value) => value.lower names base

/-- A declaration: a local stays where its value is, a global is defined under its name. -/
def VarDecl.lower (blocks : Blocks) (base : Nat) (d : VarDecl) : Lowering :=
  match blocks with
  | [] =>
    pool [.string d.name.val.lexeme] ++ d.lowerValue [] (base + 1) ++
      instruction (.defineGlobal base.toUInt8) d.semicolon.val.line
  | _ :: _ => d.lowerValue blocks.flatten base

/-- Drops the locals of a block. -/
def dropLocals (count line : Nat) : Lowering :=
  instructions (List.replicate count .pop) line

/-- Two pieces of code of which one is executed, after the value that decides. Both find the value
on the stack. -/
def lowerBranches (line : Nat) (first : Lowering) (lineBetween : Nat) (second : Lowering) :
    Lowering :=
  jump .jumpIfFalse (first.size + 3) line ++ first ++ jump .jump second.size lineBetween ++ second

/-- The two jumps of an `or` are branches of which the first is empty. -/
theorem Expr.lower_or (names : List String) (base : Nat) (left : Expr) (token : TokenOf .orKw)
    (right : Expr) :
    (Expr.or left token right).lower names base =
      left.lower names base ++ lowerBranches token.val.line .empty token.val.line
        (instruction .pop token.val.line ++
          right.lower names (base + (left.lower names base).constants.length)) := by
  simp [Expr.lower, lowerBranches, Lowering.append_assoc]

/-! ### Loops

A loop tests its condition, steps over its increment to the body, goes back from the body to the
increment, and from there to the condition. Both the condition and the increment can be missing. -/

/-- The number of constants of code that may be missing. -/
def constantCount : Option Lowering → Nat
  | none => 0
  | some code => code.constants.length

/-- The number of bytes of a test with the given condition. -/
def testSize : Option Lowering → Nat
  | none => 0
  | some code => code.size + 4

/-- A condition and the jump that leaves the loop, `rest` bytes after the test. -/
def lowerTest (line rest : Nat) : Option Lowering → Lowering
  | none => .empty
  | some code => code ++ jump .jumpIfFalse (1 + rest) line ++ instruction .pop line

/-- An increment, `test` bytes after the start of the loop. It is jumped over on the way in and
leads back to the start. -/
def lowerIncrement (enter leave test : Nat) : Option Lowering → Lowering
  | none => .empty
  | some code =>
    jump .jump (code.size + 3) enter ++ code ++ jump .loop (test + 3 + code.size + 3) leave

/-- How far before the body a round continues after it: at the increment, or else at the test. -/
def roundSize (test : Option Lowering) : Option Lowering → Nat
  | none => testSize test
  | some code => code.size + 3

/-- After the loop the value of its condition is dropped. -/
def lowerExit (line : Nat) : Option Lowering → Lowering
  | none => .empty
  | some _ => instruction .pop line

/-- A loop from the code of its parts. -/
def lowerLoop (test : Option Lowering) (enter : Nat) (increment : Option Lowering) (leave : Nat)
    (body : Lowering) (line : Nat) : Lowering :=
  let step := lowerIncrement enter leave (testSize test) increment
  lowerTest enter (step.size + body.size + 3) test ++ step ++ body ++
    jump .loop (roundSize test increment + body.size + 3) line ++ lowerExit line test

/-- A test brings the constants of its condition. -/
theorem length_constants_lowerTest (line rest : Nat) (test : Option Lowering) :
    (lowerTest line rest test).constants.length = constantCount test := by
  cases test with
  | none => rfl
  | some code => simp [lowerTest, constantCount]

/-- An increment brings the constants of its expression. -/
theorem length_constants_lowerIncrement (enter leave test : Nat) (increment : Option Lowering) :
    (lowerIncrement enter leave test increment).constants.length = constantCount increment := by
  cases increment with
  | none => rfl
  | some code => simp [lowerIncrement, constantCount]

/-- A conditional brings the constants of its branches. -/
theorem length_constants_lowerBranches (line between : Nat) (first second : Lowering) :
    (lowerBranches line first between second).constants.length =
      first.constants.length + second.constants.length := by
  simp [lowerBranches]

/-- A loop brings the constants of its clauses and of its body. -/
theorem length_constants_lowerLoop (test increment : Option Lowering) (enter leave line : Nat)
    (body : Lowering) :
    (lowerLoop test enter increment leave body line).constants.length =
      constantCount test + constantCount increment + body.constants.length := by
  have hexit : (lowerExit line test).constants = [] := by cases test <;> rfl
  simp only [lowerLoop, Lowering.constants_append, List.length_append, length_constants_lowerTest,
    length_constants_lowerIncrement, Lowering.constants_jump, hexit, List.length_nil, Nat.add_zero]

/-- A test is its condition, a jump and an instruction that drops the value. -/
theorem size_lowerTest (line rest : Nat) (test : Option Lowering) :
    (lowerTest line rest test).size = testSize test := by
  cases test with
  | none => rfl
  | some code => simp [lowerTest, testSize]

/-- An increment stands between the jump over it and the jump back. -/
theorem size_lowerIncrement (enter leave test : Nat) (code : Lowering) :
    (lowerIncrement enter leave test (some code)).size = 3 + code.size + 3 := by
  simp [lowerIncrement]

/-- The place where a round continues is inside the loop. -/
theorem roundSize_le (enter leave : Nat) (test increment : Option Lowering) :
    roundSize test increment ≤
      testSize test + (lowerIncrement enter leave (testSize test) increment).size := by
  cases increment with
  | none => exact Nat.le_add_right _ _
  | some code =>
    rw [roundSize, size_lowerIncrement]
    omega

/-- An increment keeps the limits if its code does and neither the way over it nor the way back to
the start is too long. -/
theorem limits_lowerIncrement {base enter leave test : Nat} {code : Lowering} :
    (lowerIncrement enter leave test (some code)).Limits base ↔
      code.Limits base ∧ code.size + 3 ≤ Compile.maxDistance ∧
        test + 3 + code.size + 3 ≤ Compile.maxDistance := by
  rw [lowerIncrement, Lowering.limits_append_jump, Lowering.limits_jump_append]
  constructor
  · rintro ⟨⟨hover, hcode⟩, hback⟩
    exact ⟨hcode, hover, hback⟩
  · rintro ⟨hcode, hover, hback⟩
    exact ⟨⟨hover, hcode⟩, hback⟩

/-- Branches keep the limits if both do and neither is too long to be jumped over. -/
theorem limits_lowerBranches {base line between : Nat} {first second : Lowering} :
    (lowerBranches line first between second).Limits base ↔
      first.Limits base ∧ first.size + 3 ≤ Compile.maxDistance ∧
        second.Limits (base + first.constants.length) ∧ second.size ≤ Compile.maxDistance := by
  rw [lowerBranches, Lowering.limits_append, Lowering.limits_append_jump,
    Lowering.limits_jump_append]
  simp only [Lowering.constants_append, Lowering.constants_jump, List.nil_append, List.append_nil]
  constructor
  · rintro ⟨⟨⟨hover, hfirst⟩, hpast⟩, hsecond⟩
    exact ⟨hfirst, hover, hsecond, hpast⟩
  · rintro ⟨hfirst, hover, hsecond, hpast⟩
    exact ⟨⟨⟨hover, hfirst⟩, hpast⟩, hsecond⟩

/-- A test fits if its condition does and the jump that leaves the loop is not too long. -/
theorem limits_lowerTest {base line rest : Nat} {test : Option Lowering}
    (hroom : base ≤ Chunk.maxConstants) :
    (lowerTest line rest test).Limits base ↔
      (∀ code ∈ test, code.Limits base) ∧ (test.isSome → 1 + rest ≤ Compile.maxDistance) := by
  cases test with
  | none => simp [lowerTest, Lowering.limits_empty hroom]
  | some code =>
    rw [lowerTest, Lowering.limits_append_instruction, Lowering.limits_append_jump]
    simp

/-- The end of a loop always fits. -/
theorem limits_append_lowerExit {base line : Nat} {l : Lowering} {test : Option Lowering} :
    (l ++ lowerExit line test).Limits base ↔ l.Limits base := by
  cases test with
  | none => rw [lowerExit, Lowering.append_empty]
  | some code => rw [lowerExit, Lowering.limits_append_instruction]

/-- A loop keeps the limits if its parts do, and if neither a round nor the way out is too long. -/
theorem limits_lowerLoop {base enter leave line : Nat} {test increment : Option Lowering}
    {body : Lowering} (hroom : base ≤ Chunk.maxConstants) :
    (lowerLoop test enter increment leave body line).Limits base ↔
      (∀ code ∈ test, code.Limits base) ∧
      (lowerIncrement enter leave (testSize test) increment).Limits (base + constantCount test) ∧
      body.Limits (base + constantCount test + constantCount increment) ∧
      roundSize test increment + body.size + 3 ≤ Compile.maxDistance ∧
      (test.isSome → 1 + ((lowerIncrement enter leave (testSize test) increment).size +
        body.size + 3) ≤ Compile.maxDistance) := by
  rw [lowerLoop, limits_append_lowerExit, Lowering.limits_append_jump, Lowering.limits_append,
    Lowering.limits_append, limits_lowerTest hroom, length_constants_lowerTest,
    Lowering.constants_append, List.length_append, length_constants_lowerTest,
    length_constants_lowerIncrement, Nat.add_assoc base]
  -- the same conditions in another order
  constructor
  · rintro ⟨⟨⟨⟨htest, hexit⟩, hstep⟩, hbody⟩, hround⟩
    exact ⟨htest, hstep, hbody, hround, hexit⟩
  · rintro ⟨htest, hstep, hbody, hround, hexit⟩
    exact ⟨⟨⟨⟨htest, hexit⟩, hstep⟩, hbody⟩, hround⟩

/-- The names of the innermost block. -/
def innermost (blocks : Blocks) : List String :=
  blocks.headD []

def ForStart.lower (blocks : Blocks) (base : Nat) : ForStart → Lowering
  | none _ => .empty
  | declaration _ declared => declared.lower blocks base
  | expression value semicolon =>
    value.lower blocks.flatten base ++ instruction .pop semicolon.val.line

/-- The blocks after a loop has started. -/
def ForStart.blocks (blocks : Blocks) : ForStart → Blocks
  | none _ | expression _ _ => blocks
  | declaration _ declared => blocks.declare declared.name.val.lexeme

/-- The blocks after a list of declarations. -/
def Decls.blocks (blocks : Blocks) : Decls → Blocks
  | .nil => blocks
  | .declaration _ declared rest => rest.blocks (blocks.declare declared.name.val.lexeme)
  | .statement _ rest => rest.blocks blocks

/-- A list of declarations only changes the innermost block. -/
theorem Decls.blocks_cons : ∀ (ds : Decls) (block : List String) (outer : Blocks),
    ds.blocks (block :: outer) = innermost (ds.blocks (block :: outer)) :: outer
  | .nil, _, _ => rfl
  | .declaration _ declared rest, block, outer =>
    blocks_cons rest (declared.name.val.lexeme :: block) outer
  | .statement _ rest, block, outer => blocks_cons rest block outer

/-- Outside all blocks no locals are declared. -/
theorem Decls.blocks_nil (ds : Decls) : ds.blocks [] = [] := by
  have hblocks : ∀ blocks : Blocks, blocks = [] → ds.blocks blocks = [] := by
    intro blocks h
    fun_induction Decls.blocks blocks ds with
    | case1 blocks => exact h
    | case2 blocks keyword declared rest ih =>
      apply ih
      rw [h]
      rfl
    | case3 blocks first rest ih => exact ih h
  exact hblocks [] rfl

/-- The start of a loop only changes the innermost block. -/
theorem ForStart.blocks_cons (start : ForStart) (block : List String) (outer : Blocks) :
    start.blocks (block :: outer) = innermost (start.blocks (block :: outer)) :: outer := by
  cases start <;> rfl

/-- The code of an increment: its value is not used. -/
def lowerDiscarded (names : List String) (base : Nat) (value : Expr) : Lowering :=
  value.lower names base ++ instruction .pop value.last.line

mutual

/-- The code of a statement in the given blocks, after `base` constants. -/
def Stmt.lower (blocks : Blocks) (base : Nat) : Stmt → Lowering
  | .print _ value semicolon =>
    value.lower blocks.flatten base ++ instruction .print semicolon.val.line
  | .expression value semicolon =>
    value.lower blocks.flatten base ++ instruction .pop semicolon.val.line
  | .conditional _ condition body otherwise =>
    let test := condition.value.lower blocks.flatten base
    let first := instruction .pop condition.right.val.line ++
      body.lower blocks (base + test.constants.length)
    let second := instruction .pop body.last.line ++
      otherwise.lower blocks (base + test.constants.length + first.constants.length)
    test ++ lowerBranches condition.right.val.line first body.last.line second
  | .whileLoop _ condition body =>
    let test := condition.value.lower blocks.flatten base
    lowerLoop (some test) condition.right.val.line none 0
      (body.lower blocks (base + test.constants.length)) body.last.line
  | .forLoop _ clauses body =>
    let start := clauses.start.lower ([] :: blocks) base
    let inner := clauses.start.blocks ([] :: blocks)
    let testBase := base + start.constants.length
    let test := clauses.condition.map (·.lower inner.flatten testBase)
    let stepBase := testBase + constantCount test
    let increment := clauses.increment.map (lowerDiscarded inner.flatten stepBase)
    start ++
      lowerLoop test clauses.semicolon.val.line increment clauses.right.val.line
        (body.lower inner (stepBase + constantCount increment)) body.last.line ++
      dropLocals (innermost inner).length body.last.line
  | .block _ body right =>
    body.lower ([] :: blocks) base ++
      dropLocals (innermost (body.blocks ([] :: blocks))).length right.val.line

def Else.lower (blocks : Blocks) (base : Nat) : Else → Lowering
  | .none => .empty
  | .branch _ body => body.lower blocks base

def Decls.lower (blocks : Blocks) (base : Nat) : Decls → Lowering
  | .nil => .empty
  | .declaration _ declared rest =>
    let first := declared.lower blocks base
    first ++ rest.lower (blocks.declare declared.name.val.lexeme) (base + first.constants.length)
  | .statement first rest =>
    let code := first.lower blocks base
    code ++ rest.lower blocks (base + code.constants.length)

end

/-- The code of a whole script, which ends on the given line. -/
def Decls.program (line : Nat) (script : Decls) : Lowering :=
  script.lower [] 0 ++ instruction .ret line

end Tree

end StackScript
