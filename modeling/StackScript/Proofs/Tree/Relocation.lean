import StackScript.Proofs.Token.Concatenation
import StackScript.Proofs.Tree.CodeConstants
import StackScript.Proofs.Tree.Scoping

/-!
# Trees in other places

A script can stand further down in a text, and its code after other code. Neither changes what the
script is: jumps are relative, so only the lines and the indices of constants move.

* **`Decls.later`**: the tree of a script that starts some lines further down.
* **`Lowering.moved`**: code after more constants and further down.
* **`Decls.lower_later`**: the code of a tree that is moved is the moved code of the tree.
* **`Decls.append`**: the declarations of one script and then those of another.
-/

namespace StackScript

/-! ## Moved code

A chunk of code that follows another one finds its constants further on in the pool and its lines
further down. Nothing else changes: jumps are relative, and locals have the same slots. -/

/-- The instruction in a chunk that has `count` more constants before its own. -/
def Instruction.moved (count : Nat) : Instruction → Instruction
  | constant index => constant (index + count.toUInt8)
  | getGlobal index => getGlobal (index + count.toUInt8)
  | defineGlobal index => defineGlobal (index + count.toUInt8)
  | setGlobal index => setGlobal (index + count.toUInt8)
  | i => i

namespace Instruction

/-- Moving an instruction does not change how many bytes it takes. -/
@[simp] theorem width_moved (count : Nat) (i : Instruction) : (i.moved count).width = i.width := by
  cases i <;> rfl

/-- Only instructions that refer to a constant change. -/
theorem moved_of_constant?_eq_none {i : Instruction} (h : i.constant? = none) (count : Nat) :
    i.moved count = i := by
  cases i <;> first | rfl | cases h

/-- Before any constants nothing moves. -/
theorem moved_zero (i : Instruction) : i.moved 0 = i := by
  have hzero : ∀ index : UInt8, index + Nat.toUInt8 0 = index := UInt8.add_zero
  cases i <;> first | rfl | simp only [moved, hzero]

end Instruction

namespace Lowering

/-- The code after `count` more constants, some lines further down. -/
def moved (count lines : Nat) (l : Lowering) : Lowering where
  code := l.code.map fun i => (i.1.moved count, i.2 + lines)
  constants := l.constants
  distances := l.distances

variable (count lines : Nat)

/-- The constants themselves are the same. -/
@[simp] theorem constants_moved (l : Lowering) : (l.moved count lines).constants = l.constants :=
  rfl

@[simp] theorem distances_moved (l : Lowering) : (l.moved count lines).distances = l.distances :=
  rfl

/-- Moved code is as long as it was, so the jumps over it are right. -/
@[simp] theorem size_moved (l : Lowering) : (l.moved count lines).size = l.size := by
  unfold size codeSize moved
  rw [List.map_map]
  congr 1
  apply List.map_congr_left
  intro i _
  exact Instruction.width_moved count i.1

/-- Code that is put together from parts is moved part by part. -/
@[simp] theorem moved_append (a b : Lowering) :
    (a ++ b).moved count lines = a.moved count lines ++ b.moved count lines := by
  show moved count lines (Lowering.append a b) = Lowering.append _ _
  simp [moved, Lowering.append]

@[simp] theorem moved_empty : empty.moved count lines = empty := rfl

@[simp] theorem moved_pool (values : List Value) : (pool values).moved count lines = pool values :=
  rfl

/-- A single instruction refers to another constant and stands on another line. -/
@[simp] theorem moved_instruction (i : Instruction) (line : Nat) :
    (instruction i line).moved count lines = instruction (i.moved count) (line + lines) :=
  rfl

@[simp] theorem moved_jump_jump (distance line : Nat) :
    (jump .jump distance line).moved count lines = jump .jump distance (line + lines) :=
  rfl

@[simp] theorem moved_jump_jumpIfFalse (distance line : Nat) :
    (jump .jumpIfFalse distance line).moved count lines =
      jump .jumpIfFalse distance (line + lines) :=
  rfl

@[simp] theorem moved_jump_loop (distance line : Nat) :
    (jump .loop distance line).moved count lines = jump .loop distance (line + lines) :=
  rfl

/-- Instructions that refer to no constant only change their line. -/
theorem moved_instructions {is : List Instruction} (h : ∀ i ∈ is, i.constant? = none)
    (line : Nat) :
    (instructions is line).moved count lines = instructions is (line + lines) := by
  unfold moved instructions
  rw [List.map_map]
  congr 1
  apply List.map_congr_left
  intro i hi
  exact Prod.ext (Instruction.moved_of_constant?_eq_none (h i hi) count) rfl

/-- Code that is not moved. -/
theorem moved_zero (l : Lowering) : l.moved 0 0 = l := by
  have hsame : (fun i : Instruction × Nat => (i.1.moved 0, i.2 + 0)) = id := by
    funext i
    exact Prod.ext (Instruction.moved_zero i.1) rfl
  unfold moved
  rw [hsame, List.map_id]

end Lowering

/-- A token of a known kind some lines further down. -/
def TokenOf.later {kind : Kind} (lines : Nat) (token : TokenOf kind) : TokenOf kind :=
  ⟨token.val.later lines, token.property⟩

namespace Tree

open Lowering (instruction instructions pool jump)

variable (lines : Nat)

/-! ## Expressions further down

The same expression on later lines has the same shape and the same names. -/

namespace Expr

def later : Expr → Expr
  | constant value word => .constant value (word.later lines)
  | number token value reads => .number (token.later lines) value reads
  | string token => .string (token.later lines)
  | name token => .name (token.later lines)
  | assign target equal value => .assign (target.later lines) (equal.later lines) value.later
  | grouping left inner right => .grouping (left.later lines) inner.later (right.later lines)
  | unary operator token operand => .unary operator (token.later lines) operand.later
  | binary operator left token right =>
    .binary operator left.later (token.later lines) right.later
  | and left token right => .and left.later (token.later lines) right.later
  | or left token right => .or left.later (token.later lines) right.later

/-- Its tokens are the same ones on later lines. -/
@[simp] theorem tokens_later (e : Expr) :
    (e.later lines).tokens = e.tokens.map (Token.later lines) := by
  induction e <;> simp [later, tokens, TokenOf.later, *]

@[simp] theorem last_later (e : Expr) : (e.later lines).last = e.last.later lines := by
  induction e <;> first | rfl | assumption

/-- Its names do not depend on lines. -/
@[simp] theorem names_later (e : Expr) : (e.later lines).names = e.names := by
  induction e <;> simp [later, names, TokenOf.later, Token.later, *]

@[simp] theorem level_later (e : Expr) : (e.later lines).level = e.level := by
  cases e <;> rfl

/-- Parentheses are needed in the same places. -/
@[simp] theorem grouped_later (e : Expr) : (e.later lines).Grouped ↔ e.Grouped := by
  induction e <;> simp [later, Grouped, *]

end Expr

/-! ## The code of an expression

An expression is compiled to the same code wherever it stands, only moved. -/

variable (count : Nat)

/-- Indices of constants are added as bytes. -/
theorem toUInt8_add (base : Nat) : (base + count).toUInt8 = base.toUInt8 + count.toUInt8 :=
  UInt8.ofNat_add base count

/-- A global is reached through a constant further on, a local through the same slot. -/
theorem reach_add (names : List String) (base : Nat) (name : String) :
    (reach names (base + count) name).get = (reach names base name).get.moved count ∧
      (reach names (base + count) name).set = (reach names base name).set.moved count := by
  unfold reach
  rw [toUInt8_add]
  cases slot? name names with
  | some slot => exact ⟨rfl, rfl⟩
  | none => exact ⟨rfl, rfl⟩

/-- The code of a moved expression is the moved code. -/
theorem Expr.lower_later (names : List String) (base : Nat) (e : Expr) :
    (e.later lines).lower names (base + count) = (e.lower names base).moved count lines := by
  induction e generalizing base with
  | constant value word =>
    cases value <;> rfl
  | number token value reads =>
    simp only [later, lower, toUInt8_add, Lowering.moved_append]
    rfl
  | string token =>
    simp only [later, lower, toUInt8_add, Lowering.moved_append]
    rfl
  | name token =>
    simp only [later, lower, Lowering.moved_append, Lowering.moved_pool,
      Lowering.moved_instruction, ← (reach_add count names base _).1]
    rfl
  | assign target equal value ih =>
    simp only [later, lower, last_later, Nat.add_right_comm base count, ih, Lowering.moved_append,
      Lowering.moved_pool, Lowering.moved_instruction, ← (reach_add count names base _).2]
    rfl
  | grouping left inner right ih => exact ih base
  | unary operator token operand ih =>
    simp only [later, lower, last_later, ih, Lowering.moved_append]
    cases operator <;> rfl
  | binary operator left token right ihleft ihright =>
    -- operators do not name constants, so moving them changes nothing but their lines
    have hplain : ∀ i ∈ operator.instructions, i.constant? = none := by
      cases operator <;> decide
    simp only [later, lower, last_later, ihleft, Lowering.constants_moved,
      Nat.add_right_comm base count, ihright, Lowering.moved_append,
      Lowering.moved_instructions count lines hplain]
    rfl
  | and left token right ihleft ihright | or left token right ihleft ihright =>
    simp only [later, lower, ihleft, Lowering.constants_moved, Nat.add_right_comm base count,
      ihright, Lowering.moved_append, Lowering.size_append, Lowering.size_moved]
    rfl

/-! ## Statements further down

All statements are followed down to their tokens, so that a script can be moved as a whole. -/

def VarDecl.later (d : VarDecl) : VarDecl where
  name := d.name.later lines
  initializer := d.initializer.map fun i => (i.1.later lines, i.2.later lines)
  semicolon := d.semicolon.later lines

def Condition.later (c : Condition) : Condition where
  left := c.left.later lines
  value := c.value.later lines
  right := c.right.later lines

def ForStart.later : ForStart → ForStart
  | none semicolon => .none (semicolon.later lines)
  | declaration keyword declared => .declaration (keyword.later lines) (declared.later lines)
  | expression value semicolon => .expression (value.later lines) (semicolon.later lines)

def ForClauses.later (c : ForClauses) : ForClauses where
  left := c.left.later lines
  start := c.start.later lines
  condition := c.condition.map (Expr.later lines)
  semicolon := c.semicolon.later lines
  increment := c.increment.map (Expr.later lines)
  right := c.right.later lines

mutual

/-- The statement some lines further down. -/
def Stmt.later : Stmt → Stmt
  | .print keyword value semicolon =>
    .print (keyword.later lines) (value.later lines) (semicolon.later lines)
  | .expression value semicolon => .expression (value.later lines) (semicolon.later lines)
  | .conditional keyword condition body otherwise =>
    .conditional (keyword.later lines) (condition.later lines) body.later otherwise.later
  | .whileLoop keyword condition body =>
    .whileLoop (keyword.later lines) (condition.later lines) body.later
  | .forLoop keyword clauses body =>
    .forLoop (keyword.later lines) (clauses.later lines) body.later
  | .block left body right => .block (left.later lines) body.later (right.later lines)

def Else.later : Else → Else
  | .none => .none
  | .branch keyword body => .branch (keyword.later lines) body.later

/-- The declarations some lines further down. -/
def Decls.later : Decls → Decls
  | .nil => .nil
  | .declaration keyword declared rest =>
    .declaration (keyword.later lines) (declared.later lines) rest.later
  | .statement first rest => .statement first.later rest.later

end

/-! ### Tokens

By mutual recursion on statements, `else` branches and lists of declarations. -/

/-- A declaration on later lines. -/
@[simp] theorem VarDecl.tokens_later (d : VarDecl) :
    (d.later lines).tokens = d.tokens.map (Token.later lines) := by
  obtain ⟨name, initializer, semicolon⟩ := d
  cases initializer <;> simp [later, tokens, TokenOf.later]

@[simp] theorem Condition.tokens_later (c : Condition) :
    (c.later lines).tokens = c.tokens.map (Token.later lines) := by
  simp [later, tokens, TokenOf.later]

@[simp] theorem ForStart.tokens_later (start : ForStart) :
    (start.later lines).tokens = start.tokens.map (Token.later lines) := by
  cases start <;> simp [later, tokens, TokenOf.later]

theorem optionalTokens_later (value : Option Expr) :
    optionalTokens (value.map (Expr.later lines)) =
      (optionalTokens value).map (Token.later lines) := by
  cases value <;> simp [optionalTokens]

/-- The clauses of a loop on later lines. -/
@[simp] theorem ForClauses.tokens_later (c : ForClauses) :
    (c.later lines).tokens = c.tokens.map (Token.later lines) := by
  simp [later, tokens, TokenOf.later, optionalTokens_later]

mutual

/-- A statement on later lines has the same tokens on later lines. -/
theorem Stmt.tokens_later (t : Stmt) :
    (t.later lines).tokens = t.tokens.map (Token.later lines) := by
  match t with
  | .print keyword value semicolon | .expression value semicolon =>
    simp [Stmt.later, Stmt.tokens, TokenOf.later]
  | .conditional keyword condition body otherwise =>
    simp [Stmt.later, Stmt.tokens, TokenOf.later, body.tokens_later, otherwise.tokens_later]
  | .whileLoop keyword condition body | .forLoop keyword clauses body =>
    simp [Stmt.later, Stmt.tokens, TokenOf.later, body.tokens_later]
  | .block left body right =>
    simp [Stmt.later, Stmt.tokens, TokenOf.later, body.tokens_later]

theorem Else.tokens_later (o : Else) :
    (o.later lines).tokens = o.tokens.map (Token.later lines) := by
  match o with
  | .none => simp [Else.later, Else.tokens]
  | .branch keyword body => simp [Else.later, Else.tokens, TokenOf.later, body.tokens_later]

/-- A script on later lines has the same tokens on later lines. -/
theorem Decls.tokens_later (ds : Decls) :
    (ds.later lines).tokens = ds.tokens.map (Token.later lines) := by
  match ds with
  | .nil => simp [Decls.later, Decls.tokens]
  | .declaration keyword declared rest =>
    simp [Decls.later, Decls.tokens, TokenOf.later, rest.tokens_later]
  | .statement first rest =>
    simp [Decls.later, Decls.tokens, first.tokens_later, rest.tokens_later]

end

mutual

/-- The last token of a statement, which says on which line its end is. -/
theorem Stmt.last_later (t : Stmt) : (t.later lines).last = t.last.later lines := by
  match t with
  | .print _ _ _ | .expression _ _ | .block _ _ _ => simp [Stmt.later, Stmt.last, TokenOf.later]
  | .conditional _ _ body otherwise =>
    simp [Stmt.later, Stmt.last, body.last_later, otherwise.lastAfter_later]
  | .whileLoop _ _ body | .forLoop _ _ body => simp [Stmt.later, Stmt.last, body.last_later]

/-- Where there is no second branch, the last token is that of the first. -/
theorem Else.lastAfter_later (o : Else) (before : Token) :
    (o.later lines).lastAfter (before.later lines) = (o.lastAfter before).later lines := by
  match o with
  | .none => simp [Else.later, Else.lastAfter]
  | .branch _ body => simp [Else.later, Else.lastAfter, body.last_later]

end

/-! ### Grouping

Whether a tree needs more parentheses, and whether an `else` could follow a statement, depends on
its shape only. -/

@[simp] theorem VarDecl.grouped_later (d : VarDecl) : (d.later lines).Grouped ↔ d.Grouped := by
  obtain ⟨name, initializer, semicolon⟩ := d
  cases initializer <;> simp [later, Grouped]

@[simp] theorem ForStart.grouped_later (start : ForStart) :
    (start.later lines).Grouped ↔ start.Grouped := by
  cases start <;> simp [later, Grouped]

@[simp] theorem ForClauses.grouped_later (c : ForClauses) :
    (c.later lines).Grouped ↔ c.Grouped := by
  obtain ⟨left, start, condition, semicolon, increment, right⟩ := c
  cases condition <;> cases increment <;> simp [later, Grouped]

mutual

/-- The same statements could take an `else`. -/
theorem Stmt.endsOpen_later (t : Stmt) : (t.later lines).endsOpen = t.endsOpen := by
  match t with
  | .print _ _ _ | .expression _ _ | .block _ _ _ => simp [Stmt.later, Stmt.endsOpen]
  | .conditional _ _ _ otherwise => simp [Stmt.later, Stmt.endsOpen, otherwise.endsOpen_later]
  | .whileLoop _ _ body | .forLoop _ _ body =>
    simp [Stmt.later, Stmt.endsOpen, body.endsOpen_later]

theorem Else.endsOpen_later (o : Else) : (o.later lines).endsOpen = o.endsOpen := by
  match o with
  | .none => simp [Else.later, Else.endsOpen]
  | .branch _ body => simp [Else.later, Else.endsOpen, body.endsOpen_later]

end

mutual

/-- A statement is grouped on any lines or on none. -/
theorem Stmt.grouped_later (t : Stmt) : (t.later lines).Grouped ↔ t.Grouped := by
  match t with
  | .print _ _ _ | .expression _ _ => simp [Stmt.later, Stmt.Grouped]
  | .conditional _ condition body otherwise =>
    simp [Stmt.later, Stmt.Grouped, Condition.later, body.grouped_later, body.endsOpen_later,
      otherwise.groupedAfter_later]
  | .whileLoop _ condition body =>
    simp [Stmt.later, Stmt.Grouped, Condition.later, body.grouped_later]
  | .forLoop _ clauses body => simp [Stmt.later, Stmt.Grouped, body.grouped_later]
  | .block _ body _ => simp [Stmt.later, Stmt.Grouped, body.grouped_later]

/-- An `else` branch belongs to the same statement as before. -/
theorem Else.groupedAfter_later (o : Else) (isOpen : Bool) :
    (o.later lines).GroupedAfter isOpen ↔ o.GroupedAfter isOpen := by
  match o with
  | .none => simp [Else.later, Else.GroupedAfter]
  | .branch _ body => simp [Else.later, Else.GroupedAfter, body.grouped_later]

/-- A script is grouped on any lines or on none. -/
theorem Decls.grouped_later (ds : Decls) : (ds.later lines).Grouped ↔ ds.Grouped := by
  match ds with
  | .nil => simp [Decls.later, Decls.Grouped]
  | .declaration _ declared rest => simp [Decls.later, Decls.Grouped, rest.grouped_later]
  | .statement first rest =>
    simp [Decls.later, Decls.Grouped, first.grouped_later, rest.grouped_later]

end

/-! ### Locals

A local is the same one on a later line: it has the same name, the same blocks around it and the
same names in its value. -/

@[simp] theorem VarDecl.lexeme_later (d : VarDecl) :
    (d.later lines).name.val.lexeme = d.name.val.lexeme := rfl

/-- A loop opens the same blocks. -/
@[simp] theorem ForStart.blocks_later (blocks : Blocks) (start : ForStart) :
    (start.later lines).blocks blocks = start.blocks blocks := by
  cases start <;> rfl

/-- A list of declarations leaves the same names in the innermost block. -/
theorem Decls.blocks_later : ∀ (ds : Decls) (blocks : Blocks),
    (ds.later lines).blocks blocks = ds.blocks blocks
  | .nil, _ => by simp [Decls.later]
  | .declaration _ declared rest, blocks => by
    simpa [Decls.later, Decls.blocks] using
      rest.blocks_later (blocks.declare declared.name.val.lexeme)
  | .statement _ rest, blocks => by
    simpa [Decls.later, Decls.blocks] using rest.blocks_later blocks

/-- A local and the blocks around it, further down. -/
def laterLocal (l : Blocks × VarDecl) : Blocks × VarDecl :=
  (l.1, l.2.later lines)

/-- A declaration declares the same local, or none. -/
theorem VarDecl.locals_later (blocks : Blocks) (d : VarDecl) :
    (d.later lines).locals blocks = (d.locals blocks).map (laterLocal lines) := by
  cases blocks <;> rfl

theorem ForStart.locals_later (blocks : Blocks) (start : ForStart) :
    (start.later lines).locals blocks = (start.locals blocks).map (laterLocal lines) := by
  cases start with
  | none _ | expression _ _ => rfl
  | declaration _ declared => exact declared.locals_later lines blocks

mutual

/-- The locals of a statement in the order in which they are declared. -/
theorem Stmt.locals_later (t : Stmt) (blocks : Blocks) :
    (t.later lines).locals blocks = (t.locals blocks).map (laterLocal lines) := by
  match t with
  | .print _ _ _ | .expression _ _ => simp [Stmt.later, Stmt.locals]
  | .conditional _ _ body otherwise =>
    simp [Stmt.later, Stmt.locals, body.locals_later, otherwise.locals_later]
  | .whileLoop _ _ body => simp [Stmt.later, Stmt.locals, body.locals_later]
  | .forLoop _ clauses body =>
    simp [Stmt.later, Stmt.locals, ForClauses.later, ForStart.locals_later, body.locals_later]
  | .block _ body _ => simp [Stmt.later, Stmt.locals, body.locals_later]

theorem Else.locals_later (o : Else) (blocks : Blocks) :
    (o.later lines).locals blocks = (o.locals blocks).map (laterLocal lines) := by
  match o with
  | .none => simp [Else.later, Else.locals]
  | .branch _ body => simp [Else.later, Else.locals, body.locals_later]

/-- The locals of a script in the order in which they are declared. -/
theorem Decls.locals_later (ds : Decls) (blocks : Blocks) :
    (ds.later lines).locals blocks = (ds.locals blocks).map (laterLocal lines) := by
  match ds with
  | .nil => simp [Decls.later, Decls.locals]
  | .declaration _ declared rest =>
    simp [Decls.later, Decls.locals, VarDecl.locals_later, rest.locals_later]
  | .statement first rest =>
    simp [Decls.later, Decls.locals, first.locals_later, rest.locals_later]

end

/-- The value of a variable uses the same names. -/
theorem VarDecl.valueNames_later (d : VarDecl) : (d.later lines).valueNames = d.valueNames := by
  obtain ⟨name, initializer, semicolon⟩ := d
  cases initializer with
  | none => rfl
  | some initializer => exact initializer.2.names_later lines

/-- A local that can be declared can be declared on a later line. -/
theorem admitted_later {blocks : Blocks} {d : VarDecl} (h : Admitted blocks d) :
    Admitted blocks (d.later lines) where
  isNew := h.isNew
  isIndependent := by
    unfold VarDecl.IsIndependent
    rw [d.valueNames_later lines]
    exact h.isIndependent
  hasSlot := h.hasSlot

/-- Locals can be declared further down as well. -/
theorem Decls.scoped_later {ds : Decls} {blocks : Blocks} (h : Scoped (ds.locals blocks)) :
    Scoped ((ds.later lines).locals blocks) := by
  rw [ds.locals_later]
  intro l hl
  obtain ⟨before, hbefore, rfl⟩ := List.mem_map.mp hl
  exact admitted_later lines (h before hbefore)

/-! ### The code of a statement

The parts of which the code of a statement is made are moved one by one, and then the statement. -/

/-- The branches of a conditional are moved together with the jumps between them. -/
theorem moved_lowerBranches (line between : Nat) (first second : Lowering) :
    (lowerBranches line first between second).moved count lines =
      lowerBranches (line + lines) (first.moved count lines) (between + lines)
        (second.moved count lines) := by
  simp [lowerBranches]

/-- The test of a loop is moved with the jump that leaves it. -/
theorem moved_lowerTest (line rest : Nat) (test : Option Lowering) :
    (lowerTest line rest test).moved count lines =
      lowerTest (line + lines) rest (test.map (Lowering.moved count lines)) := by
  cases test with
  | none => rfl
  | some code =>
    simp only [lowerTest, Option.map_some, Lowering.moved_append]
    rfl

/-- The increment of a loop is moved with the jumps around it. -/
theorem moved_lowerIncrement (enter leave test : Nat) (increment : Option Lowering) :
    (lowerIncrement enter leave test increment).moved count lines =
      lowerIncrement (enter + lines) (leave + lines) test
        (increment.map (Lowering.moved count lines)) := by
  cases increment with
  | none => rfl
  | some code => simp [lowerIncrement]

/-- The end of a loop. -/
theorem moved_lowerExit (line : Nat) (test : Option Lowering) :
    (lowerExit line test).moved count lines =
      lowerExit (line + lines) (test.map (Lowering.moved count lines)) := by
  cases test <;> rfl

@[simp] theorem constantCount_moved (code : Option Lowering) :
    constantCount (code.map (Lowering.moved count lines)) = constantCount code := by
  cases code <;> rfl

@[simp] theorem testSize_moved (test : Option Lowering) :
    testSize (test.map (Lowering.moved count lines)) = testSize test := by
  cases test <;> simp [testSize]

/-- The code that a loop jumps back over is as long as it was. -/
@[simp] theorem roundSize_moved (test increment : Option Lowering) :
    roundSize (test.map (Lowering.moved count lines))
      (increment.map (Lowering.moved count lines)) = roundSize test increment := by
  cases increment <;> simp [roundSize]

/-- A loop is moved with everything inside it. -/
theorem moved_lowerLoop (test : Option Lowering) (enter : Nat) (increment : Option Lowering)
    (leave : Nat) (body : Lowering) (line : Nat) :
    (lowerLoop test enter increment leave body line).moved count lines =
      lowerLoop (test.map (Lowering.moved count lines)) (enter + lines)
        (increment.map (Lowering.moved count lines)) (leave + lines) (body.moved count lines)
        (line + lines) := by
  -- the sizes, on which the distances depend, do not move
  have hstep := congrArg Lowering.size
    (moved_lowerIncrement lines count enter leave (testSize test) increment)
  rw [Lowering.size_moved] at hstep
  simp only [lowerLoop, Lowering.moved_append, moved_lowerTest, moved_lowerIncrement,
    moved_lowerExit, Lowering.moved_jump_loop, testSize_moved, roundSize_moved,
    Lowering.size_moved, hstep]

/-- Locals are dropped by the same number of instructions. -/
theorem moved_dropLocals (locals line : Nat) :
    (dropLocals locals line).moved count lines = dropLocals locals (line + lines) := by
  apply Lowering.moved_instructions
  intro i hi
  rw [List.eq_of_mem_replicate hi]
  rfl

theorem VarDecl.lowerValue_later (names : List String) (base : Nat) (d : VarDecl) :
    (d.later lines).lowerValue names (base + count) =
      (d.lowerValue names base).moved count lines := by
  obtain ⟨name, initializer, semicolon⟩ := d
  cases initializer with
  | none => rfl
  | some initializer => exact initializer.2.lower_later lines count names base

/-- The code of a declaration on later lines is its code, moved. -/
theorem VarDecl.lower_later (blocks : Blocks) (base : Nat) (d : VarDecl) :
    (d.later lines).lower blocks (base + count) = (d.lower blocks base).moved count lines := by
  cases blocks with
  | nil =>
    simp only [VarDecl.lower, Nat.add_right_comm base count, lowerValue_later, toUInt8_add,
      Lowering.moved_append]
    rfl
  | cons block outer => exact d.lowerValue_later lines count _ base

/-- The code of the first clause of a loop on later lines is its code, moved. -/
theorem ForStart.lower_later (blocks : Blocks) (base : Nat) (start : ForStart) :
    (start.later lines).lower blocks (base + count) =
      (start.lower blocks base).moved count lines := by
  cases start with
  | none _ => rfl
  | declaration _ declared => exact declared.lower_later lines count blocks base
  | expression value semicolon =>
    simp only [later, lower, Expr.lower_later, Lowering.moved_append]
    rfl

/-- So is that of an expression whose value is dropped. -/
theorem lowerDiscarded_later (names : List String) (base : Nat) (value : Expr) :
    lowerDiscarded names (base + count) (value.later lines) =
      (lowerDiscarded names base value).moved count lines := by
  simp only [lowerDiscarded, Expr.lower_later, Expr.last_later, Lowering.moved_append]
  rfl

/-- A clause of a loop that may be left out. -/
theorem map_later {code code' : Expr → Lowering}
    (h : ∀ e, code' (e.later lines) = (code e).moved count lines) (clause : Option Expr) :
    (clause.map (Expr.later lines)).map code' =
      (clause.map code).map (Lowering.moved count lines) := by
  cases clause with
  | none => rfl
  | some value => exact congrArg some (h value)

mutual

/-- The code of a statement on later lines is its code, moved. -/
theorem Stmt.lower_later (t : Stmt) (blocks : Blocks) (base : Nat) :
    (t.later lines).lower blocks (base + count) = (t.lower blocks base).moved count lines := by
  match t with
  | .print _ value semicolon | .expression value semicolon =>
    simp only [Stmt.later, Stmt.lower, Expr.lower_later, Lowering.moved_append]
    rfl
  | .conditional _ condition body otherwise =>
    simp only [Stmt.later, Stmt.lower, Condition.later, Expr.lower_later, body.last_later,
      Lowering.moved_append, moved_lowerBranches, Lowering.constants_append,
      Lowering.constants_instruction, List.nil_append, Lowering.constants_moved,
      Nat.add_right_comm _ count, body.lower_later, otherwise.lower_later]
    rfl
  | .whileLoop _ condition body =>
    simp only [Stmt.later, Stmt.lower, Condition.later, Expr.lower_later, body.last_later,
      moved_lowerLoop, Lowering.constants_moved, Nat.add_right_comm _ count, body.lower_later]
    rfl
  | .forLoop _ clauses body =>
    -- the clauses may be missing, and then so are their copies
    have htest : ∀ names base, (clauses.later lines).condition.map (·.lower names (base + count)) =
        (clauses.condition.map (·.lower names base)).map (Lowering.moved count lines) :=
      fun names base => map_later lines count (Expr.lower_later lines count names base) _
    have hincrement : ∀ names base,
        (clauses.later lines).increment.map (lowerDiscarded names (base + count)) =
          (clauses.increment.map (lowerDiscarded names base)).map (Lowering.moved count lines) :=
      fun names base => map_later lines count (lowerDiscarded_later lines count names base) _
    have hstart : (clauses.later lines).start = clauses.start.later lines := rfl
    simp only [Stmt.later, Stmt.lower, hstart, ForStart.lower_later, ForStart.blocks_later,
      Lowering.constants_moved, Nat.add_right_comm _ count, htest, constantCount_moved,
      hincrement, body.lower_later, body.last_later, Lowering.moved_append, moved_lowerLoop,
      moved_dropLocals]
    rfl
  | .block _ body right =>
    simp only [Stmt.later, Stmt.lower, body.lower_later, body.blocks_later, Lowering.moved_append,
      moved_dropLocals]
    rfl

/-- The code of an `else` branch on later lines is its code, moved. -/
theorem Else.lower_later (o : Else) (blocks : Blocks) (base : Nat) :
    (o.later lines).lower blocks (base + count) = (o.lower blocks base).moved count lines := by
  match o with
  | .none => simp [Else.later, Else.lower]
  | .branch _ body => simp [Else.later, Else.lower, body.lower_later]

/-- The code of declarations that are moved is the moved code. -/
theorem Decls.lower_later (ds : Decls) (blocks : Blocks) (base : Nat) :
    (ds.later lines).lower blocks (base + count) = (ds.lower blocks base).moved count lines := by
  match ds with
  | .nil => simp [Decls.later, Decls.lower]
  | .declaration _ declared rest =>
    simp only [Decls.later, Decls.lower, VarDecl.lower_later, Lowering.constants_moved,
      Nat.add_right_comm base count, rest.lower_later, Lowering.moved_append]
    rfl
  | .statement first rest =>
    simp only [Decls.later, Decls.lower, first.lower_later, Lowering.constants_moved,
      Nat.add_right_comm base count, rest.lower_later, Lowering.moved_append]

end

/-! ## One script after the other

The second script is compiled where the first one ends. -/

namespace Decls

protected def append : Decls → Decls → Decls
  | .nil, more => more
  | .declaration keyword declared rest, more => .declaration keyword declared (rest.append more)
  | .statement first rest, more => .statement first (rest.append more)

variable (more : Decls)

/-- The tokens of the first script come first. -/
theorem tokens_append : ∀ ds : Decls, (ds.append more).tokens = ds.tokens ++ more.tokens
  | .nil => by simp [Decls.append, Decls.tokens]
  | .declaration _ _ rest => by simp [Decls.append, Decls.tokens, rest.tokens_append]
  | .statement _ rest => by simp [Decls.append, Decls.tokens, rest.tokens_append]

/-- Both scripts have to be grouped. -/
theorem grouped_append :
    ∀ ds : Decls, (ds.append more).Grouped ↔ ds.Grouped ∧ more.Grouped
  | .nil => by simp [Decls.append, Decls.Grouped]
  | .declaration _ _ rest => by
    simp [Decls.append, Decls.Grouped, rest.grouped_append, and_assoc]
  | .statement _ rest => by
    simp [Decls.append, Decls.Grouped, rest.grouped_append, and_assoc]

/-- The blocks of the second script are those after the first. -/
theorem locals_append : ∀ (ds : Decls) (blocks : Blocks),
    (ds.append more).locals blocks = ds.locals blocks ++ more.locals (ds.blocks blocks)
  | .nil, _ => by simp [Decls.append, Decls.locals, Decls.blocks]
  | .declaration _ _ rest, _ => by
    simp [Decls.append, Decls.locals, Decls.blocks, rest.locals_append]
  | .statement _ rest, _ => by
    simp [Decls.append, Decls.locals, Decls.blocks, rest.locals_append]

/-- The constants of the second script follow those of the first. -/
theorem lower_append : ∀ (ds : Decls) (blocks : Blocks) (base : Nat),
    (ds.append more).lower blocks base =
      ds.lower blocks base ++
        more.lower (ds.blocks blocks) (base + (ds.lower blocks base).constants.length)
  | .nil, _, _ => by simp [Decls.append, Decls.lower, Decls.blocks]
  | .declaration _ _ rest, _, _ => by
    simp [Decls.append, Decls.lower, Decls.blocks, rest.lower_append, Lowering.append_assoc,
      Nat.add_assoc]
  | .statement _ rest, _, _ => by
    simp [Decls.append, Decls.lower, Decls.blocks, rest.lower_append, Lowering.append_assoc,
      Nat.add_assoc]

end Decls

end Tree

end StackScript
