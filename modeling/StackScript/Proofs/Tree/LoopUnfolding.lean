import StackScript.Proofs.Tree.CodeFlow

/-!
# Loops with clauses as plain loops

A `for` loop can be written out: a block that starts as the loop does, and in it a `while` loop with
the same condition, whose body ends with the increment.

* **`ForClauses.asWhile`**: the loop written out. It keeps all tokens but the separators, and
  has some more, which may be on any lines.
* **`Decls.Unfolds`**: two scripts that are the same but for loops that are written out in the
  second.
-/

namespace StackScript.Tree

/-! ## Loops written out

A `for` loop as a block with a `while` loop in it. The words that this takes are given, since every
token has a line. -/

/-- The tokens that a loop has in addition when it is written out. -/
structure WhileWords where
  left : TokenOf .leftBrace
  keyword : TokenOf .whileKw
  opening : TokenOf .leftParen
  /-- The condition of a loop that has none. -/
  always : TokenOf .trueKw
  closing : TokenOf .rightParen
  bodyLeft : TokenOf .leftBrace
  semicolon : TokenOf .semicolon
  bodyRight : TokenOf .rightBrace
  right : TokenOf .rightBrace

/-- The start of a loop as declarations, with more of them after it. -/
def ForStart.before (rest : Decls) : ForStart → Decls
  | none _ => rest
  | declaration keyword declared => .declaration keyword declared rest
  | expression value semicolon => .statement (.expression value semicolon) rest

/-- An expression as the only statement of a list, or an empty list if it is left out. -/
def optionalStatement (semicolon : TokenOf .semicolon) : Option Expr → Decls
  | none => .nil
  | some value => .statement (.expression value semicolon) .nil

namespace ForClauses

/-- The condition of the loop, which is true if it is left out. -/
def test (w : WhileWords) (clauses : ForClauses) : Expr :=
  clauses.condition.getD (.constant .true w.always)

/-- The body of the loop with the increment after it. -/
def round (w : WhileWords) (clauses : ForClauses) (body : Stmt) : Stmt :=
  .block w.bodyLeft (.statement body (optionalStatement w.semicolon clauses.increment)) w.bodyRight

/-- A loop written out. -/
def asWhile (w : WhileWords) (clauses : ForClauses) (body : Stmt) : Stmt :=
  .block w.left
    (clauses.start.before (.statement
      (.whileLoop w.keyword ⟨w.opening, clauses.test w, w.closing⟩ (clauses.round w body)) .nil))
    w.right

end ForClauses

/-! ## Scripts with loops written out

Any number of the loops of a script may be written out, at any depth. -/

mutual

/-- The second statement is the first one, with some of the loops in it written out. -/
inductive Stmt.Unfolds : Stmt → Stmt → Prop
  | print (keyword : TokenOf .printKw) (value : Expr) (semicolon : TokenOf .semicolon) :
      Stmt.Unfolds (.print keyword value semicolon) (.print keyword value semicolon)
  | expression (value : Expr) (semicolon : TokenOf .semicolon) :
      Stmt.Unfolds (.expression value semicolon) (.expression value semicolon)
  | conditional (keyword : TokenOf .ifKw) (condition : Condition) {body body' : Stmt}
      {otherwise otherwise' : Else} (hbody : Stmt.Unfolds body body')
      (hotherwise : Else.Unfolds otherwise otherwise') :
      Stmt.Unfolds (.conditional keyword condition body otherwise)
        (.conditional keyword condition body' otherwise')
  | whileLoop (keyword : TokenOf .whileKw) (condition : Condition) {body body' : Stmt}
      (hbody : Stmt.Unfolds body body') :
      Stmt.Unfolds (.whileLoop keyword condition body) (.whileLoop keyword condition body')
  | forLoop (keyword : TokenOf .forKw) (clauses : ForClauses) {body body' : Stmt}
      (hbody : Stmt.Unfolds body body') :
      Stmt.Unfolds (.forLoop keyword clauses body) (.forLoop keyword clauses body')
  | block (left : TokenOf .leftBrace) {body body' : Decls} (right : TokenOf .rightBrace)
      (hbody : Decls.Unfolds body body') :
      Stmt.Unfolds (.block left body right) (.block left body' right)
  | asWhile (keyword : TokenOf .forKw) (clauses : ForClauses) (w : WhileWords)
      {body body' : Stmt} (hbody : Stmt.Unfolds body body') :
      Stmt.Unfolds (.forLoop keyword clauses body) (clauses.asWhile w body')

inductive Else.Unfolds : Else → Else → Prop
  | none : Else.Unfolds .none .none
  | branch (keyword : TokenOf .elseKw) {body body' : Stmt} (hbody : Stmt.Unfolds body body') :
      Else.Unfolds (.branch keyword body) (.branch keyword body')

/-- The second list is the first one, with some of the loops in it written out. -/
inductive Decls.Unfolds : Decls → Decls → Prop
  | nil : Decls.Unfolds .nil .nil
  | declaration (keyword : TokenOf .varKw) (declared : VarDecl) {rest rest' : Decls}
      (hrest : Decls.Unfolds rest rest') :
      Decls.Unfolds (.declaration keyword declared rest) (.declaration keyword declared rest')
  | statement {first first' : Stmt} {rest rest' : Decls} (hfirst : Stmt.Unfolds first first')
      (hrest : Decls.Unfolds rest rest') :
      Decls.Unfolds (.statement first rest) (.statement first' rest')

end

mutual

/-- No loop needs to be written out. -/
theorem Stmt.unfolds_refl (t : Stmt) : t.Unfolds t := by
  match t with
  | .print keyword value semicolon => exact .print keyword value semicolon
  | .expression value semicolon => exact .expression value semicolon
  | .conditional keyword condition body otherwise =>
    exact .conditional keyword condition body.unfolds_refl otherwise.unfolds_refl
  | .whileLoop keyword condition body => exact .whileLoop keyword condition body.unfolds_refl
  | .forLoop keyword clauses body => exact .forLoop keyword clauses body.unfolds_refl
  | .block left body right => exact .block left right body.unfolds_refl

/-- No loop in a second branch is written out. -/
theorem Else.unfolds_refl (o : Else) : o.Unfolds o := by
  match o with
  | .none => exact .none
  | .branch keyword body => exact .branch keyword body.unfolds_refl

/-- No loop among these declarations is written out. -/
theorem Decls.unfolds_refl (ds : Decls) : ds.Unfolds ds := by
  match ds with
  | .nil => exact .nil
  | .declaration keyword declared rest => exact .declaration keyword declared rest.unfolds_refl
  | .statement first rest => exact .statement first.unfolds_refl rest.unfolds_refl

end

/-! ## Their code

The code of a loop that is written out has the same parts in another order: the increment comes
behind the body. -/

/-- The code of an increment that stands behind the body. -/
def lowerTail (names : List String) (base line : Nat) : Option Expr → Lowering
  | none => .empty
  | some value => value.lower names base ++ .instruction .pop line

/-- The first clause is compiled like a declaration. -/
theorem ForStart.lower_before (start : ForStart) (rest : Decls) (blocks : Blocks) (base : Nat) :
    (start.before rest).lower blocks base = start.lower blocks base ++
      rest.lower (start.blocks blocks) (base + (start.lower blocks base).constants.length) := by
  cases start with
  | none semicolon => exact (Lowering.empty_append _).symm
  | declaration keyword declared =>
    rw [ForStart.before, Decls.lower, ForStart.lower, ForStart.blocks]
  | expression value semicolon =>
    rw [ForStart.before, Decls.lower, Stmt.lower, ForStart.lower, ForStart.blocks]

/-- The variable of the loop is known to what follows. -/
theorem ForStart.blocks_before (start : ForStart) (rest : Decls) (blocks : Blocks) :
    (start.before rest).blocks blocks = rest.blocks (start.blocks blocks) := by
  cases start <;> rfl

/-- An increment that is missing is no statement. -/
theorem lower_optionalStatement (semicolon : TokenOf .semicolon) (value : Option Expr)
    (blocks : Blocks) (base : Nat) :
    (optionalStatement semicolon value).lower blocks base =
      lowerTail blocks.flatten base semicolon.val.line value := by
  cases value with
  | none => rfl
  | some value =>
    rw [optionalStatement, Decls.lower, Decls.lower, Stmt.lower, Lowering.append_empty, lowerTail]

theorem blocks_optionalStatement (semicolon : TokenOf .semicolon) (value : Option Expr)
    (blocks : Blocks) : (optionalStatement semicolon value).blocks blocks = blocks := by
  cases value <;> rfl

namespace ForClauses

/-- The block around a body and its increment has no locals to drop. -/
theorem lower_round (w : WhileWords) (clauses : ForClauses) (body : Stmt) (blocks : Blocks)
    (base : Nat) :
    (clauses.round w body).lower blocks base = body.lower ([] :: blocks) base ++
      lowerTail blocks.flatten (base + (body.lower ([] :: blocks) base).constants.length)
        w.semicolon.val.line clauses.increment := by
  have hdrop : dropLocals 0 w.bodyRight.val.line = .empty := rfl
  rw [round, Stmt.lower, Decls.lower, Decls.blocks, blocks_optionalStatement,
    lower_optionalStatement, List.flatten_cons, List.nil_append]
  exact (congrArg (_ ++ ·) hdrop).trans (Lowering.append_empty _)

/-- First clause, test and round, and the locals that are dropped. -/
theorem lower_asWhile (w : WhileWords) (clauses : ForClauses) (body : Stmt) (blocks : Blocks)
    (base : Nat) :
    (clauses.asWhile w body).lower blocks base =
      let start := clauses.start.lower ([] :: blocks) base
      let inner := clauses.start.blocks ([] :: blocks)
      let testBase := base + start.constants.length
      let test := (clauses.test w).lower inner.flatten testBase
      start ++
        lowerLoop (some test) w.closing.val.line none 0
          ((clauses.round w body).lower inner (testBase + test.constants.length))
          w.bodyRight.val.line ++
        dropLocals (innermost inner).length w.right.val.line := by
  rw [asWhile, Stmt.lower, ForStart.lower_before, ForStart.blocks_before, Decls.lower, Decls.lower,
    Stmt.lower, Decls.blocks, Decls.blocks, Lowering.append_empty]
  rfl

end ForClauses

end StackScript.Tree
