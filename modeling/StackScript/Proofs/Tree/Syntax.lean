import Mathlib.Order.Lattice
import StackScript.Compile.Precedence
import StackScript.Decimal.Basic
import StackScript.Text.Blank

/-!
# Syntax trees

The compiler reads tokens and writes code without building a tree. The theory needs one, to say what
a script means and what its code is. A tree keeps every token it was read from, so that `tokens`
gives back the script and a line can be named for every instruction.

* **`TokenOf`**: a token with a known kind. A tree cannot hold a token in the wrong place.
* **`Expr`**, **`Stmt`**, **`Decls`**: expressions, statements and lists of declarations.
  Parentheses are part of the tree (`Expr.grouping`), so a tree is one derivation of the grammar and
  not a meaning.
* **`Expr.Grouped`**: operands bind as tightly as their operator asks. The binary operators group to
  the left, the short-circuit operators to the right.
* **`Stmt.Grouped`**: moreover every `else` belongs to the nearest `if`.
-/

namespace StackScript

/-- A token of the given kind. -/
abbrev TokenOf (kind : Kind) := { token : Token // token.kind = kind }

/-- The number that a token denotes: its own, or else the one that its lexeme spells. -/
def Token.numberValue? (token : Token) : Option Float :=
  match token.literal with
  | some (.number value) => some value
  | _ => Decimal.readNumber? token.lexeme

/-- The text that a token denotes: its own, or else its lexeme without the quotes at its ends. -/
def Token.stringValue (token : Token) : String :=
  match token.literal with
  | some (.string value) => value
  | _ => String.ofList (Text.trimEnds (· == '"') token.lexeme.toList)

/-! ## Operators as tokens

The kind of token that stands for each operator. -/

/-- The kind of token that spells the operator. -/
def UnaryOperator.kind : UnaryOperator → Kind
  | negate => .minus
  | not => .bang

/-- The kind of token that spells the operator. -/
def BinaryOperator.kind : BinaryOperator → Kind
  | equal => .equalEqual
  | notEqual => .bangEqual
  | greater => .greater
  | greaterEqual => .greaterEqual
  | less => .less
  | lessEqual => .lessEqual
  | add => .plus
  | subtract => .minus
  | multiply => .star
  | divide => .slash

/-- The keyword for the value. -/
def Constant.kind : Constant → Kind
  | false => .falseKw
  | nil => .nilKw
  | true => .trueKw

@[simp] theorem UnaryOperator.prefixForm?_kind (op : UnaryOperator) :
    op.kind.prefixForm? = some (.unary op) := by
  cases op <;> rfl

@[simp] theorem Constant.prefixForm?_kind (value : Constant) :
    value.kind.prefixForm? = some (.constant value) := by
  cases value <;> rfl

@[simp] theorem BinaryOperator.infixForm?_kind (op : BinaryOperator) :
    op.kind.infixForm? = some (.binary op) := by
  cases op <;> rfl

@[simp] theorem BinaryOperator.precedence_kind (op : BinaryOperator) :
    op.kind.precedence = op.precedence := by
  cases op <;> rfl

/-! ## Precedences as numbers

`≤` and `<` on precedences are those of their ranks, so they form a linear order. -/

namespace Precedence

/-- Every level has a rank of its own. -/
theorem rank_injective : Function.Injective rank := by
  intro p q h
  cases p <;> cases q <;> first | rfl | cases h

instance : LinearOrder Precedence where
  toPartialOrder := rank_injective.partialOrder rank Iff.rfl Iff.rfl
  le_total p q := Nat.le_total p.rank q.rank
  toDecidableLE := inferInstance
  toDecidableEq := inferInstance
  toDecidableLT := inferInstance

/-- Precedences can be compared by their ranks, which `omega` does. -/
theorem rank_strictMono : StrictMono rank := fun _ _ h => h

/-- The right operand of a binary operator binds one level tighter than the operator. -/
theorem rank_next_precedence (op : BinaryOperator) :
    op.precedence.next.rank = op.precedence.rank + 1 := by
  cases op <;> rfl

/-- The binary operators bind more tightly than the short-circuit ones, and less tightly than the
operators before an operand. -/
theorem rank_precedence (op : BinaryOperator) :
    Precedence.and.rank < op.precedence.rank ∧ op.precedence.rank < Precedence.unary.rank := by
  cases op <;> decide

end Precedence

/-- No operator that continues an expression binds as tightly as the operators before an operand. -/
theorem Kind.precedence_lt_unary (kind : Kind) : kind.precedence < .unary := by
  cases kind <;> decide

/-- The tokens that can start a statement. -/
def Kind.opensStatement : Kind → Bool
  | .printKw | .forKw | .ifKw | .whileKw | .leftBrace => true
  | kind => kind.prefixForm?.isSome

/-! ## Expressions

Trees keep all of their tokens, parentheses included, so that the text of a script can be told from
its tree. -/

namespace Tree

/-- An expression as it is written. -/
inductive Expr where
  | constant (value : Constant) (word : TokenOf value.kind)
  | number (token : TokenOf .number) (value : Float) (reads : token.val.numberValue? = some value)
  | string (token : TokenOf .string)
  | name (token : TokenOf .identifier)
  | assign (target : TokenOf .identifier) (equal : TokenOf .equal) (value : Expr)
  | grouping (left : TokenOf .leftParen) (inner : Expr) (right : TokenOf .rightParen)
  | unary (operator : UnaryOperator) (token : TokenOf operator.kind) (operand : Expr)
  | binary (operator : BinaryOperator) (left : Expr) (token : TokenOf operator.kind) (right : Expr)
  | and (left : Expr) (token : TokenOf .andKw) (right : Expr)
  | or (left : Expr) (token : TokenOf .orKw) (right : Expr)

namespace Expr

/-- The tokens of an expression, in order. -/
def tokens : Expr → List Token
  | constant _ word => [word.val]
  | number token _ _ => [token.val]
  | string token => [token.val]
  | name token => [token.val]
  | assign target equal value => target.val :: equal.val :: value.tokens
  | grouping left inner right => left.val :: (inner.tokens ++ [right.val])
  | unary _ token operand => token.val :: operand.tokens
  | binary _ left token right => left.tokens ++ token.val :: right.tokens
  | and left token right => left.tokens ++ token.val :: right.tokens
  | or left token right => left.tokens ++ token.val :: right.tokens

/-- The last token of an expression. -/
def last : Expr → Token
  | constant _ word => word.val
  | number token _ _ => token.val
  | string token => token.val
  | name token => token.val
  | assign _ _ value => value.last
  | grouping _ _ right => right.val
  | unary _ _ operand => operand.last
  | binary _ _ _ right => right.last
  | and _ _ right => right.last
  | or _ _ right => right.last

/-- The names that occur in an expression. -/
def names : Expr → List String
  | constant _ _ | number _ _ _ | string _ => []
  | name token => [token.val.lexeme]
  | assign target _ value => target.val.lexeme :: value.names
  | grouping _ inner _ => inner.names
  | unary _ _ operand => operand.names
  | binary _ left _ right | and left _ right | or left _ right => left.names ++ right.names

/-- How tightly an expression holds together. -/
def level : Expr → Precedence
  | assign _ _ _ => .assignment
  | or _ _ _ => .or
  | and _ _ _ => .and
  | binary operator _ _ _ => operator.precedence
  | unary _ _ _ => .unary
  | _ => .primary

/-- How tightly the operand at the right end is held; an operator that binds less tightly than
that ends the expression. -/
def rightLevel : Expr → Precedence
  | assign _ _ _ => .assignment
  | or _ _ _ => .or
  | and _ _ _ => .and
  | binary operator _ _ _ => operator.precedence.next
  | unary _ _ _ => .unary
  | _ => .primary

/-- Every operand holds together as tightly as its place asks. -/
def Grouped : Expr → Prop
  | assign _ _ value => value.Grouped
  | grouping _ inner _ => inner.Grouped
  | unary _ _ operand => operand.Grouped ∧ .unary ≤ operand.level
  | binary operator left _ right =>
    left.Grouped ∧ right.Grouped ∧ operator.precedence ≤ left.level ∧
      operator.precedence.next ≤ right.level
  | and left _ right =>
    left.Grouped ∧ right.Grouped ∧ Precedence.and < left.level ∧ .and ≤ right.level
  | or left _ right =>
    left.Grouped ∧ right.Grouped ∧ Precedence.or < left.level ∧ .or ≤ right.level
  | _ => True

/-- At its right end an expression binds at least as tightly as on the whole. -/
theorem level_le_rightLevel (e : Expr) : e.level ≤ e.rightLevel := by
  cases e with
  | binary operator _ _ _ =>
    rw [← Precedence.rank_strictMono.le_iff_le]
    have := Precedence.rank_next_precedence operator
    simp only [level, rightLevel]
    omega
  | _ => exact le_refl _

/-- No expression binds less tightly than an assignment. -/
theorem assignment_le_level (e : Expr) : .assignment ≤ e.level := by
  cases e with
  | binary operator _ _ _ =>
    have hrank := (Precedence.rank_precedence operator).1
    rw [← Precedence.rank_strictMono.le_iff_le]
    simp only [level, Precedence.rank] at hrank ⊢
    omega
  | _ =>
    rw [← Precedence.rank_strictMono.le_iff_le]
    simp [level, Precedence.rank]

/-- An operator that takes an expression as its left operand ends the expression, also where both
bind equally tightly: then the expression is an operation that groups to the left. -/
theorem precedence_lt_rightLevel {operator : BinaryOperator} {e : Expr}
    (h : operator.precedence ≤ e.level) : operator.precedence < e.rightLevel := by
  have hrank := Precedence.rank_precedence operator
  rw [← Precedence.rank_strictMono.le_iff_le] at h
  rw [← Precedence.rank_strictMono.lt_iff_lt]
  simp only [Precedence.rank] at h hrank ⊢
  cases e with
  | binary inner _ _ _ =>
    have hnext := Precedence.rank_next_precedence inner
    simp only [level, rightLevel, Precedence.rank] at h hnext ⊢
    omega
  | _ =>
    simp only [level, rightLevel] at h ⊢
    omega

/-- An expression starts with a token that can start one. -/
theorem tokens_eq_cons (e : Expr) :
    ∃ token more, e.tokens = token :: more ∧ token.kind.prefixForm?.isSome := by
  induction e with
  | constant value word => exact ⟨word.val, [], rfl, by simp [word.property]⟩
  | number token _ _ => exact ⟨token.val, [], rfl, by rw [token.property]; rfl⟩
  | string token => exact ⟨token.val, [], rfl, by rw [token.property]; rfl⟩
  | name token => exact ⟨token.val, [], rfl, by rw [token.property]; rfl⟩
  | assign target equal value _ => exact ⟨target.val, _, rfl, by rw [target.property]; rfl⟩
  | grouping left inner right _ => exact ⟨left.val, _, rfl, by rw [left.property]; rfl⟩
  | unary operator token operand _ => exact ⟨token.val, _, rfl, by simp [token.property]⟩
  | binary _ left token right ih _ | and left token right ih _ | or left token right ih _ =>
    obtain ⟨first, more, htokens, hform⟩ := ih
    exact ⟨first, more ++ token.val :: right.tokens, by simp [tokens, htokens], hform⟩

end Expr

/-! ## Statements

The trees of statements, again with all of their tokens. -/

/-- A declaration after its keyword. -/
structure VarDecl where
  name : TokenOf .identifier
  initializer : Option (TokenOf .equal × Expr)
  semicolon : TokenOf .semicolon

/-- A condition in its parentheses. -/
structure Condition where
  left : TokenOf .leftParen
  value : Expr
  right : TokenOf .rightParen

/-- What a `for` loop does before its first round. -/
inductive ForStart where
  | none (semicolon : TokenOf .semicolon)
  | declaration (keyword : TokenOf .varKw) (declared : VarDecl)
  | expression (value : Expr) (semicolon : TokenOf .semicolon)

/-- The three clauses of a `for` loop in their parentheses. -/
structure ForClauses where
  left : TokenOf .leftParen
  start : ForStart
  condition : Option Expr
  semicolon : TokenOf .semicolon
  increment : Option Expr
  right : TokenOf .rightParen

mutual

inductive Stmt where
  | print (keyword : TokenOf .printKw) (value : Expr) (semicolon : TokenOf .semicolon)
  | expression (value : Expr) (semicolon : TokenOf .semicolon)
  | conditional (keyword : TokenOf .ifKw) (condition : Condition) (body : Stmt) (otherwise : Else)
  | whileLoop (keyword : TokenOf .whileKw) (condition : Condition) (body : Stmt)
  | forLoop (keyword : TokenOf .forKw) (clauses : ForClauses) (body : Stmt)
  | block (left : TokenOf .leftBrace) (body : Decls) (right : TokenOf .rightBrace)

/-- The second branch of a conditional, if it has one. -/
inductive Else where
  | none
  | branch (keyword : TokenOf .elseKw) (body : Stmt)

/-- The declarations and statements of a block or of a whole script. -/
inductive Decls where
  | nil
  | declaration (keyword : TokenOf .varKw) (declared : VarDecl) (rest : Decls)
  | statement (first : Stmt) (rest : Decls)

end

/-! ### Tokens

The tokens of a tree, from left to right. -/

/-- The tokens of a declaration after its keyword. -/
def VarDecl.tokens (d : VarDecl) : List Token :=
  match d.initializer with
  | none => [d.name.val, d.semicolon.val]
  | some (equal, value) => d.name.val :: equal.val :: (value.tokens ++ [d.semicolon.val])

def Condition.tokens (c : Condition) : List Token :=
  c.left.val :: (c.value.tokens ++ [c.right.val])

def ForStart.tokens : ForStart → List Token
  | none semicolon => [semicolon.val]
  | declaration keyword declared => keyword.val :: declared.tokens
  | expression value semicolon => value.tokens ++ [semicolon.val]

/-- The tokens of an expression that may be left out. -/
def optionalTokens : Option Expr → List Token
  | none => []
  | some value => value.tokens

def ForClauses.tokens (c : ForClauses) : List Token :=
  c.left.val :: (c.start.tokens ++ (optionalTokens c.condition ++
    c.semicolon.val :: (optionalTokens c.increment ++ [c.right.val])))

mutual

/-- The tokens of a statement, in order. -/
def Stmt.tokens : Stmt → List Token
  | .print keyword value semicolon => keyword.val :: (value.tokens ++ [semicolon.val])
  | .expression value semicolon => value.tokens ++ [semicolon.val]
  | .conditional keyword condition body otherwise =>
    keyword.val :: (condition.tokens ++ (body.tokens ++ otherwise.tokens))
  | .whileLoop keyword condition body => keyword.val :: (condition.tokens ++ body.tokens)
  | .forLoop keyword clauses body => keyword.val :: (clauses.tokens ++ body.tokens)
  | .block left body right => left.val :: (body.tokens ++ [right.val])

def Else.tokens : Else → List Token
  | .none => []
  | .branch keyword body => keyword.val :: body.tokens

def Decls.tokens : Decls → List Token
  | .nil => []
  | .declaration keyword declared rest => keyword.val :: (declared.tokens ++ rest.tokens)
  | .statement first rest => first.tokens ++ rest.tokens

end

/-- A statement starts with a token that can start one. -/
theorem Stmt.tokens_eq_cons (t : Stmt) :
    ∃ token more, t.tokens = token :: more ∧ token.kind.opensStatement = true := by
  cases t with
  | print keyword value semicolon => exact ⟨keyword.val, _, rfl, by rw [keyword.property]; rfl⟩
  | expression value semicolon =>
    obtain ⟨token, more, htokens, hform⟩ := value.tokens_eq_cons
    refine ⟨token, more ++ [semicolon.val], by simp [Stmt.tokens, htokens], ?_⟩
    cases hkind : token.kind <;> rw [hkind] at hform <;> first | rfl | cases hform
  | conditional keyword _ _ _ => exact ⟨keyword.val, _, rfl, by rw [keyword.property]; rfl⟩
  | whileLoop keyword _ _ => exact ⟨keyword.val, _, rfl, by rw [keyword.property]; rfl⟩
  | forLoop keyword _ _ => exact ⟨keyword.val, _, rfl, by rw [keyword.property]; rfl⟩
  | block left _ _ => exact ⟨left.val, _, rfl, by rw [left.property]; rfl⟩

mutual

/-- The last token of a statement. -/
def Stmt.last : Stmt → Token
  | .print _ _ semicolon => semicolon.val
  | .expression _ semicolon => semicolon.val
  | .conditional _ _ body otherwise => otherwise.lastAfter body.last
  | .whileLoop _ _ body => body.last
  | .forLoop _ _ body => body.last
  | .block _ _ right => right.val

/-- The last token of a second branch, or the one before if there is no such branch. -/
def Else.lastAfter (before : Token) : Else → Token
  | .none => before
  | .branch _ body => body.last

end

/-- The last token of a list of declarations, or the one before if the list is empty. -/
def Decls.lastAfter (before : Token) : Decls → Token
  | .nil => before
  | .declaration _ declared rest => rest.lastAfter declared.semicolon.val
  | .statement first rest => rest.lastAfter first.last

/-! ### Grouping

A tree is grouped if parsing its tokens gives this tree and no other. For statements this is about
the `else` that belongs to the nearest `if`. -/

def VarDecl.Grouped (d : VarDecl) : Prop :=
  ∀ value ∈ d.initializer, value.2.Grouped

def ForStart.Grouped : ForStart → Prop
  | none _ => True
  | declaration _ declared => declared.Grouped
  | expression value _ => value.Grouped

def ForClauses.Grouped (c : ForClauses) : Prop :=
  c.start.Grouped ∧ (∀ value ∈ c.condition, value.Grouped) ∧ ∀ value ∈ c.increment, value.Grouped

mutual

/-- Whether an `else` after the statement would belong to a conditional inside it. -/
def Stmt.endsOpen : Stmt → Bool
  | .print _ _ _ | .expression _ _ | .block _ _ _ => false
  | .conditional _ _ _ otherwise => otherwise.endsOpen
  | .whileLoop _ _ body => body.endsOpen
  | .forLoop _ _ body => body.endsOpen

def Else.endsOpen : Else → Bool
  | .none => true
  | .branch _ body => body.endsOpen

end

mutual

/-- All expressions of a statement are grouped, and every `else` belongs to the nearest
conditional that can take it. -/
def Stmt.Grouped : Stmt → Prop
  | .print _ value _ => value.Grouped
  | .expression value _ => value.Grouped
  | .conditional _ condition body otherwise =>
    condition.value.Grouped ∧ body.Grouped ∧ otherwise.GroupedAfter body.endsOpen
  | .whileLoop _ condition body => condition.value.Grouped ∧ body.Grouped
  | .forLoop _ clauses body => clauses.Grouped ∧ body.Grouped
  | .block _ body _ => body.Grouped

/-- A second branch is grouped after a first one that is open or not. -/
def Else.GroupedAfter (isOpen : Bool) : Else → Prop
  | .none => True
  | .branch _ body => isOpen = false ∧ body.Grouped

def Decls.Grouped : Decls → Prop
  | .nil => True
  | .declaration _ declared rest => declared.Grouped ∧ rest.Grouped
  | .statement first rest => first.Grouped ∧ rest.Grouped

end

end Tree

end StackScript
