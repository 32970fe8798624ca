import StackScript.Bytecode.Instruction
import StackScript.Token.Basic

/-!
# Operators and how tightly they bind

Which tokens can start an expression, which can continue one, and with what precedence. These tables
are all that the compiler of expressions knows about single operators.
-/

namespace StackScript

/-- How tightly an operator binds, loosest first. -/
inductive Precedence where
  | none | assignment | or | and | equality | comparison | term | factor | unary | call | primary
deriving DecidableEq

namespace Precedence

/-- All levels, loosest first. -/
def all : List Precedence :=
  [.none, .assignment, .or, .and, .equality, .comparison, .term, .factor, .unary, .call, .primary]

def rank : Precedence → Nat
  | none => 0
  | assignment => 1
  | or => 2
  | and => 3
  | equality => 4
  | comparison => 5
  | term => 6
  | factor => 7
  | unary => 8
  | call => 9
  | primary => 10

instance : LE Precedence := ⟨fun p q => p.rank ≤ q.rank⟩

instance : LT Precedence := ⟨fun p q => p.rank < q.rank⟩

instance (p q : Precedence) : Decidable (p ≤ q) :=
  inferInstanceAs (Decidable (p.rank ≤ q.rank))

instance (p q : Precedence) : Decidable (p < q) :=
  inferInstanceAs (Decidable (p.rank < q.rank))

/-- One level tighter: the right operand of an operator that groups to the left. -/
def next : Precedence → Precedence
  | none => assignment
  | assignment => or
  | or => and
  | and => equality
  | equality => comparison
  | comparison => term
  | term => factor
  | factor => unary
  | unary => call
  | call => primary
  | primary => primary

end Precedence

/-- The operators with one operand. -/
inductive UnaryOperator where
  | negate | not
deriving DecidableEq

def UnaryOperator.instruction : UnaryOperator → Instruction
  | negate => .negate
  | not => .not

/-- The operators that evaluate both operands. -/
inductive BinaryOperator where
  | equal | notEqual | greater | greaterEqual | less | lessEqual
  | add | subtract | multiply | divide
deriving DecidableEq

namespace BinaryOperator

def precedence : BinaryOperator → Precedence
  | equal | notEqual => .equality
  | greater | greaterEqual | less | lessEqual => .comparison
  | add | subtract => .term
  | multiply | divide => .factor

/-- What follows the code of the operands. Three comparisons are the opposite of another. -/
def instructions : BinaryOperator → List Instruction
  | equal => [.equal]
  | notEqual => [.equal, .not]
  | greater => [.greater]
  | greaterEqual => [.less, .not]
  | less => [.less]
  | lessEqual => [.greater, .not]
  | add => [.add]
  | subtract => [.subtract]
  | multiply => [.multiply]
  | divide => [.divide]

end BinaryOperator

/-- The words that denote a value by themselves. -/
inductive Constant where
  | false | nil | true
deriving DecidableEq

def Constant.instruction : Constant → Instruction
  | false => .false
  | nil => .nil
  | true => .true

/-- What a token means at the start of an expression. -/
inductive PrefixForm where
  | grouping
  | unary (operator : UnaryOperator)
  | name
  | string
  | number
  | constant (value : Constant)
deriving DecidableEq

/-- What a token means after a complete operand. -/
inductive InfixForm where
  | binary (operator : BinaryOperator)
  | and
  | or
deriving DecidableEq

def InfixForm.precedence : InfixForm → Precedence
  | binary operator => operator.precedence
  | and => .and
  | or => .or

namespace Kind

def prefixForm? : Kind → Option PrefixForm
  | leftParen => some .grouping
  | minus => some (.unary .negate)
  | bang => some (.unary .not)
  | identifier => some .name
  | string => some .string
  | number => some .number
  | falseKw => some (.constant .false)
  | nilKw => some (.constant .nil)
  | trueKw => some (.constant .true)
  | _ => none

def infixForm? : Kind → Option InfixForm
  | bangEqual => some (.binary .notEqual)
  | equalEqual => some (.binary .equal)
  | greater => some (.binary .greater)
  | greaterEqual => some (.binary .greaterEqual)
  | less => some (.binary .less)
  | lessEqual => some (.binary .lessEqual)
  | plus => some (.binary .add)
  | minus => some (.binary .subtract)
  | star => some (.binary .multiply)
  | slash => some (.binary .divide)
  | andKw => some .and
  | orKw => some .or
  | _ => none

/-- The precedence with which a token continues an expression; the loosest if it cannot. -/
def precedence (kind : Kind) : Precedence :=
  match kind.infixForm? with
  | some form => form.precedence
  | none => .none

/-- The keywords before which the compiler takes up again after an error. -/
def startsStatement : Kind → Bool
  | classKw | funKw | varKw | forKw | ifKw | whileKw | printKw | returnKw => true
  | _ => false

end Kind

end StackScript
