import StackScript.Proofs.Tree.CodeFlow
import StackScript.Proofs.Tree.Grammar

/-!
# Parentheses

An expression can be written with few or with many parentheses. What is left when its tokens and
parentheses are taken away is a `Term`; the texts of a term are the grouped expressions that have
it.

* **`Term.ops`**, **`Term.constants`**: the code of a term, operands before their operator.
* **`Expr.withLeastParens`**: puts parentheses only around operands that would otherwise be taken
  apart. `sublist_kinds` says that no text of the term has fewer.
* **`Expr.withAllParens`**: puts parentheses around everything that is more than one token.
* **`Expr.ops_lower`**: the code of an expression is the code of its term, so that parentheses leave
  no trace in it.
-/

namespace StackScript.Tree

open Instruction (extent)

/-- An expression without its spelling. -/
inductive Term where
  | constant (value : Constant)
  | number (value : Float)
  | string (text : String)
  | name (text : String)
  | assign (target : String) (value : Term)
  | unary (operator : UnaryOperator) (operand : Term)
  | binary (operator : BinaryOperator) (left right : Term)
  | and (left right : Term)
  | or (left right : Term)

/-- What an expression is apart from its tokens and parentheses. -/
def Expr.term : Expr → Term
  | constant value _ => .constant value
  | number _ value _ => .number value
  | string token => .string token.val.stringValue
  | name token => .name token.val.lexeme
  | assign target _ value => .assign target.val.lexeme value.term
  | grouping _ inner _ => inner.term
  | unary operator _ operand => .unary operator operand.term
  | binary operator left _ right => .binary operator left.term right.term
  | and left _ right => .and left.term right.term
  | or left _ right => .or left.term right.term

/-! ## The code of a term

The code of an expression depends on its term only: parentheses and lines leave no trace. -/

namespace Term

/-- The names that occur in a term. -/
def names : Term → List String
  | constant _ | number _ | string _ => []
  | name text => [text]
  | assign target value => target :: value.names
  | unary _ operand => operand.names
  | binary _ left right | and left right | or left right => left.names ++ right.names

/-- The constants of a term, from left to right; `locals` are the names that need none. -/
def constants (locals : List String) : Term → List Value
  | constant _ => []
  | number value => [.number value]
  | string text => [.string text]
  | name text => nameConstants locals text
  | assign target value => nameConstants locals target ++ value.constants locals
  | unary _ operand => operand.constants locals
  | binary _ left right | and left right | or left right =>
    left.constants locals ++ right.constants locals

/-- The instructions of a term after `base` constants: those of its operands in their order and then
those of the operator. A short-circuit operator jumps over exactly its right operand, which starts
by dropping the left one. -/
def ops (locals : List String) (base : Nat) : Term → List Instruction
  | constant value => [value.instruction]
  | number _ | string _ => [.constant base.toUInt8]
  | name text => [(reach locals base text).get]
  | assign target value =>
    value.ops locals (base + (nameConstants locals target).length) ++
      [(reach locals base target).set]
  | unary operator operand => operand.ops locals base ++ [operator.instruction]
  | binary operator left right =>
    left.ops locals base ++ right.ops locals (base + (left.constants locals).length) ++
      operator.instructions
  | and left right =>
    let second := .pop :: right.ops locals (base + (left.constants locals).length)
    left.ops locals base ++ .jumpIfFalse (extent second).toUInt16 :: second
  | or left right =>
    let second := .pop :: right.ops locals (base + (left.constants locals).length)
    left.ops locals base ++ .jumpIfFalse 3 :: .jump (extent second).toUInt16 :: second

/-- How far the short-circuit operators of a term jump. -/
def distances (locals : List String) (base : Nat) : Term → List Nat
  | constant _ | number _ | string _ | name _ => []
  | assign target value => value.distances locals (base + (nameConstants locals target).length)
  | unary _ operand => operand.distances locals base
  | binary _ left right =>
    left.distances locals base ++ right.distances locals (base + (left.constants locals).length)
  | and left right =>
    let rightBase := base + (left.constants locals).length
    left.distances locals base ++
      extent (.pop :: right.ops locals rightBase) :: right.distances locals rightBase
  | or left right =>
    let rightBase := base + (left.constants locals).length
    left.distances locals base ++
      3 :: extent (.pop :: right.ops locals rightBase) :: right.distances locals rightBase

end Term

namespace Expr

variable (locals : List String)

theorem names_term (e : Expr) : e.term.names = e.names := by
  induction e with
  | assign target equal value ih => simp [term, Term.names, names, ih]
  | grouping left inner right ih => exact ih
  | unary operator token operand ih => exact ih
  | binary _ left _ right ihl ihr | and left _ right ihl ihr | or left _ right ihl ihr =>
    simp [term, Term.names, names, ihl, ihr]
  | _ => rfl

theorem constants_lower (base : Nat) (e : Expr) :
    (e.lower locals base).constants = e.term.constants locals := by
  induction e generalizing base with
  | assign target equal value ih => simp [lower, term, Term.constants, ih]
  | grouping left inner right ih => exact ih base
  | unary operator token operand ih => simp [lower, term, Term.constants, ih]
  | binary _ left _ right ihl ihr | and left _ right ihl ihr | or left _ right ihl ihr =>
    simp [lower, term, Term.constants, ihl, ihr]
  | _ => simp [lower, term, Term.constants]

/-- Parentheses emit nothing: the instructions are those of the term. -/
theorem ops_lower (base : Nat) (e : Expr) :
    (e.lower locals base).ops = e.term.ops locals base := by
  induction e generalizing base with
  | assign target equal value ih => simp [lower, term, Term.ops, ih]
  | grouping left inner right ih => exact ih base
  | unary operator token operand ih => simp [lower, term, Term.ops, ih]
  | binary _ left _ right ihl ihr => simp [lower, term, Term.ops, ihl, ihr, constants_lower]
  | and left _ right ihl ihr | or left _ right ihl ihr =>
    have hright := ihr (base + (left.term.constants locals).length)
    have hsize := Lowering.extent_ops
      (right.lower locals (base + (left.term.constants locals).length))
    rw [hright] at hsize
    simp [lower, term, Term.ops, ihl, hright, hsize, constants_lower]
  | _ => simp [lower, term, Term.ops]

theorem distances_lower (base : Nat) (e : Expr) :
    (e.lower locals base).distances = e.term.distances locals base := by
  induction e generalizing base with
  | assign target equal value ih => simp [lower, term, Term.distances, ih]
  | grouping left inner right ih => exact ih base
  | unary operator token operand ih => simp [lower, term, Term.distances, ih]
  | binary _ left _ right ihl ihr => simp [lower, term, Term.distances, ihl, ihr, constants_lower]
  | and left _ right ihl ihr | or left _ right ihl ihr =>
    have hsize := Lowering.extent_ops
      (right.lower locals (base + (left.term.constants locals).length))
    rw [ops_lower] at hsize
    simp [lower, term, Term.distances, ihl, ihr, hsize, constants_lower]
  | _ => simp [lower, term, Term.distances]

end Expr

/-! ## Levels and kinds

Where parentheses are needed follows from the level of a term and the least level that its place
asks for. -/

namespace Term

/-- How tightly a term holds together. -/
def level : Term → Precedence
  | assign _ _ => .assignment
  | or _ _ => .or
  | and _ _ => .and
  | binary operator _ _ => operator.precedence
  | unary _ _ => .unary
  | _ => .primary

/-- The kinds of a text, with parentheses if it does not hold together as its place asks. -/
def enclose (least level : Precedence) (kinds : List Kind) : List Kind :=
  if least ≤ level then kinds else .leftParen :: (kinds ++ [.rightParen])

/-- The kinds of the tokens of a term that is written with as few parentheses as possible. The
binary operators group to the left and the other operators to the right. -/
def kinds : Term → List Kind
  | constant value => [value.kind]
  | number _ => [.number]
  | string _ => [.string]
  | name _ => [.identifier]
  | assign _ value => .identifier :: .equal :: value.kinds
  | unary operator operand => operator.kind :: enclose .unary operand.level operand.kinds
  | binary operator left right =>
    enclose operator.precedence left.level left.kinds ++
      operator.kind :: enclose operator.precedence.next right.level right.kinds
  | and left right =>
    enclose Precedence.and.next left.level left.kinds ++
      .andKw :: enclose .and right.level right.kinds
  | or left right =>
    enclose Precedence.or.next left.level left.kinds ++
      .orKw :: enclose .or right.level right.kinds

end Term

namespace Expr

/-- The kinds of the tokens of an expression. -/
def kinds (e : Expr) : List Kind :=
  e.tokens.map Token.kind

/-- The expression is a text of the term. -/
def Prints (e : Expr) (t : Term) : Prop :=
  e.Grouped ∧ e.term = t

section Printers

variable (left : TokenOf .leftParen) (right : TokenOf .rightParen)

/-- The expression, with parentheses if it does not hold together as its place asks. -/
def enclosed (least : Precedence) (e : Expr) : Expr :=
  if least ≤ e.level then e else .grouping left e right

/-- Writes an expression anew with as few parentheses as possible. -/
def withLeastParens : Expr → Expr
  | assign target equal value => .assign target equal value.withLeastParens
  | grouping _ inner _ => inner.withLeastParens
  | unary operator token operand =>
    .unary operator token (operand.withLeastParens.enclosed left right .unary)
  | binary operator first token second =>
    .binary operator (first.withLeastParens.enclosed left right operator.precedence) token
      (second.withLeastParens.enclosed left right operator.precedence.next)
  | and first token second =>
    .and (first.withLeastParens.enclosed left right Precedence.and.next) token
      (second.withLeastParens.enclosed left right .and)
  | or first token second =>
    .or (first.withLeastParens.enclosed left right Precedence.or.next) token
      (second.withLeastParens.enclosed left right .or)
  | e => e

/-- Writes an expression anew with parentheses around every part that is more than one token. -/
def withAllParens : Expr → Expr
  | assign target equal value =>
    .grouping left (.assign target equal value.withAllParens) right
  | grouping _ inner _ => inner.withAllParens
  | unary operator token operand =>
    .grouping left (.unary operator token operand.withAllParens) right
  | binary operator first token second =>
    .grouping left (.binary operator first.withAllParens token second.withAllParens) right
  | and first token second =>
    .grouping left (.and first.withAllParens token second.withAllParens) right
  | or first token second =>
    .grouping left (.or first.withAllParens token second.withAllParens) right
  | e => e

variable {left right}

/-- Parentheses do not change the term. -/
theorem term_enclosed (least : Precedence) (e : Expr) :
    (e.enclosed left right least).term = e.term := by
  unfold enclosed
  split <;> rfl

/-- Nor do they break the grouping. -/
theorem Grouped.enclosed {e : Expr} (h : e.Grouped) (least : Precedence) :
    (e.enclosed left right least).Grouped := by
  unfold Expr.enclosed
  split <;> exact h

/-- With parentheses where they are needed, an expression fits in its place. -/
theorem le_level_enclosed (least : Precedence) (e : Expr) :
    least ≤ (e.enclosed left right least).level := by
  unfold enclosed
  split
  · assumption
  · exact least.rank_le

theorem prints_withLeastParens (e : Expr) : (e.withLeastParens left right).Prints e.term := by
  induction e with
  | assign target equal value ih => exact ⟨ih.1, congrArg (Term.assign _) ih.2⟩
  | grouping _ inner _ ih => exact ih
  | unary operator token operand ih =>
    refine ⟨⟨ih.1.enclosed _, le_level_enclosed _ _⟩, ?_⟩
    simp only [withLeastParens, term, term_enclosed, ih.2]
  | binary operator first token second ihl ihr =>
    refine ⟨⟨ihl.1.enclosed _, ihr.1.enclosed _, le_level_enclosed _ _, le_level_enclosed _ _⟩, ?_⟩
    simp only [withLeastParens, term, term_enclosed, ihl.2, ihr.2]
  | and first token second ihl ihr =>
    -- the next level is the first one that is tighter
    refine ⟨⟨ihl.1.enclosed _, ihr.1.enclosed _, le_level_enclosed Precedence.and.next _,
      le_level_enclosed _ _⟩, ?_⟩
    simp only [withLeastParens, term, term_enclosed, ihl.2, ihr.2]
  | or first token second ihl ihr =>
    refine ⟨⟨ihl.1.enclosed _, ihr.1.enclosed _, le_level_enclosed Precedence.or.next _,
      le_level_enclosed _ _⟩, ?_⟩
    simp only [withLeastParens, term, term_enclosed, ihl.2, ihr.2]
  | _ => exact ⟨trivial, rfl⟩

/-- What is written with all parentheses holds together as tightly as a single token. -/
theorem level_withAllParens (e : Expr) : (e.withAllParens left right).level = .primary := by
  induction e with
  | grouping _ inner _ ih => exact ih
  | _ => rfl

/-- Here every operand fits in its place since it has parentheses. -/
theorem prints_withAllParens (e : Expr) : (e.withAllParens left right).Prints e.term := by
  have hlevel : ∀ (least : Precedence) (x : Expr), least ≤ (x.withAllParens left right).level := by
    intro least x
    rw [level_withAllParens]
    exact least.rank_le
  induction e with
  | assign target equal value ih => exact ⟨ih.1, congrArg (Term.assign _) ih.2⟩
  | grouping _ inner _ ih => exact ih
  | unary operator token operand ih =>
    exact ⟨⟨ih.1, hlevel _ _⟩, congrArg (Term.unary _) ih.2⟩
  | binary operator first token second ihl ihr =>
    refine ⟨⟨ihl.1, ihr.1, hlevel _ _, hlevel _ _⟩, ?_⟩
    simp only [withAllParens, term, ihl.2, ihr.2]
  | and first token second ihl ihr =>
    refine ⟨⟨ihl.1, ihr.1, hlevel Precedence.and.next _, hlevel _ _⟩, ?_⟩
    simp only [withAllParens, term, ihl.2, ihr.2]
  | or first token second ihl ihr =>
    refine ⟨⟨ihl.1, ihr.1, hlevel Precedence.or.next _, hlevel _ _⟩, ?_⟩
    simp only [withAllParens, term, ihl.2, ihr.2]
  | _ => exact ⟨trivial, rfl⟩

/-! ## No text has fewer parentheses

The tokens of any text that prints a term include all those of the text with the fewest parentheses.
-/

/-- The kinds of an expression with the parentheses it needs. -/
theorem kinds_enclosed {e : Expr} (h : e.level = e.term.level) (least : Precedence) :
    (e.enclosed left right least).kinds = Term.enclose least e.term.level e.kinds := by
  unfold enclosed Term.enclose
  rw [h]
  split
  · rfl
  · simp [kinds, tokens, left.property, right.property]

/-- An expression that is written with the fewest parentheses has none around it. -/
theorem level_withLeastParens (e : Expr) :
    (e.withLeastParens left right).level = e.term.level := by
  induction e with
  | grouping _ inner _ ih => exact ih
  | _ => rfl

/-- They are those that the term gives. -/
theorem kinds_withLeastParens (e : Expr) : (e.withLeastParens left right).kinds = e.term.kinds := by
  -- an operand is enclosed where its term is
  have hoperand : ∀ (x : Expr) (least : Precedence),
      (x.withLeastParens left right).kinds = x.term.kinds →
      ((x.withLeastParens left right).enclosed left right least).kinds =
        Term.enclose least x.term.level x.term.kinds := by
    intro x least hx
    have hterm := (@prints_withLeastParens left right x).2
    rw [kinds_enclosed, hterm, hx]
    rw [hterm]
    exact level_withLeastParens x
  induction e with
  | constant value word => simp [withLeastParens, kinds, tokens, term, Term.kinds, word.property]
  | number token _ _ => simp [withLeastParens, kinds, tokens, term, Term.kinds, token.property]
  | string token => simp [withLeastParens, kinds, tokens, term, Term.kinds, token.property]
  | name token => simp [withLeastParens, kinds, tokens, term, Term.kinds, token.property]
  | assign target equal value ih =>
    rw [term, Term.kinds, ← ih]
    simp [withLeastParens, kinds, tokens, target.property, equal.property]
  | grouping _ inner _ ih => exact ih
  | unary operator token operand ih =>
    rw [term, Term.kinds, ← hoperand operand _ ih]
    simp [withLeastParens, kinds, tokens, token.property]
  | binary operator first token second ihl ihr =>
    rw [term, Term.kinds, ← hoperand first _ ihl, ← hoperand second _ ihr]
    simp [withLeastParens, kinds, tokens, token.property]
  | and first token second ihl ihr | or first token second ihl ihr =>
    rw [term, Term.kinds, ← hoperand first _ ihl, ← hoperand second _ ihr]
    simp [withLeastParens, kinds, tokens, token.property]

/-- Subtraction groups to the left, so only a difference on the right needs parentheses. -/
example (a b c : String) :
    (Term.binary .subtract (.binary .subtract (.name a) (.name b)) (.name c)).kinds =
      [.identifier, .minus, .identifier, .minus, .identifier] ∧
    (Term.binary .subtract (.name a) (.binary .subtract (.name b) (.name c))).kinds =
      [.identifier, .minus, .leftParen, .identifier, .minus, .identifier, .rightParen] :=
  ⟨rfl, rfl⟩

end Printers

/-- The expression has at least the parentheses that its term needs where `least` is asked for. -/
def Covers (least : Precedence) (e : Expr) : Prop :=
  (Term.enclose least e.term.level e.term.kinds).Sublist e.kinds

/-- An expression without parentheses around it covers its term wherever it can stand. -/
theorem covers_of_sublist {e : Expr} (h : e.term.kinds.Sublist e.kinds)
    (hlevel : e.term.level = e.level) :
    e.term.kinds.Sublist e.kinds ∧ ∀ least ≤ e.level, e.Covers least := by
  refine ⟨h, ?_⟩
  intro least hle
  rw [Covers, hlevel, Term.enclose, if_pos hle]
  exact h

/-- In its parentheses an expression covers its term everywhere. -/
theorem covers_grouping {inner : Expr} (h : inner.term.kinds.Sublist inner.kinds)
    (left : TokenOf .leftParen) (right : TokenOf .rightParen) :
    inner.term.kinds.Sublist (grouping left inner right).kinds ∧
      ∀ least, (grouping left inner right).Covers least := by
  have hkinds : (grouping left inner right).kinds =
      .leftParen :: (inner.kinds ++ [.rightParen]) := by
    simp [kinds, tokens, left.property, right.property]
  have hinner : inner.term.kinds.Sublist (grouping left inner right).kinds := by
    rw [hkinds]
    exact (h.trans (List.sublist_append_left ..)).cons _
  refine ⟨hinner, ?_⟩
  intro least
  unfold Covers Term.enclose
  split
  · exact hinner
  · rw [hkinds]
    exact (h.append (.refl _)).cons_cons _

/-- No text of a term leaves out a parenthesis that the term needs. -/
theorem sublist_kinds {e : Expr} (h : e.Grouped) :
    e.term.kinds.Sublist e.kinds ∧ ∀ least ≤ e.level, e.Covers least := by
  induction e with
  | constant value word =>
    apply covers_of_sublist _ rfl
    simp [kinds, tokens, term, Term.kinds, word.property]
  | number token _ _ | string token | name token =>
    apply covers_of_sublist _ rfl
    simp [kinds, tokens, term, Term.kinds, token.property]
  | assign target equal value ih =>
    apply covers_of_sublist _ rfl
    have hkinds : (assign target equal value).kinds = .identifier :: .equal :: value.kinds := by
      simp [kinds, tokens, target.property, equal.property]
    rw [hkinds]
    exact ((ih h).1.cons_cons _).cons_cons _
  | grouping left inner right ih =>
    obtain ⟨hinner, hcovers⟩ := covers_grouping (ih h).1 left right
    exact ⟨hinner, fun least _ => hcovers least⟩
  | unary operator token operand ih =>
    apply covers_of_sublist _ rfl
    have hkinds : (unary operator token operand).kinds = operator.kind :: operand.kinds := by
      simp [kinds, tokens, token.property]
    rw [hkinds]
    -- the operand binds tightly enough, so the term asks for no parentheses that its text lacks
    exact ((ih h.1).2 _ h.2).cons_cons _
  | binary operator first token second ihl ihr =>
    apply covers_of_sublist _ rfl
    obtain ⟨hfirst, hsecond, hle, hlt⟩ := h
    have hkinds : (binary operator first token second).kinds =
        first.kinds ++ operator.kind :: second.kinds := by
      simp [kinds, tokens, token.property]
    rw [hkinds]
    exact ((ihl hfirst).2 _ hle).append (((ihr hsecond).2 _ hlt).cons_cons _)
  | and first token second ihl ihr =>
    apply covers_of_sublist _ rfl
    obtain ⟨hfirst, hsecond, hlt, hle⟩ := h
    have hkinds : (and first token second).kinds = first.kinds ++ .andKw :: second.kinds := by
      simp [kinds, tokens, token.property]
    rw [hkinds]
    exact ((ihl hfirst).2 Precedence.and.next hlt).append (((ihr hsecond).2 _ hle).cons_cons _)
  | or first token second ihl ihr =>
    apply covers_of_sublist _ rfl
    obtain ⟨hfirst, hsecond, hlt, hle⟩ := h
    have hkinds : (or first token second).kinds = first.kinds ++ .orKw :: second.kinds := by
      simp [kinds, tokens, token.property]
    rw [hkinds]
    exact ((ihl hfirst).2 Precedence.or.next hlt).append (((ihr hsecond).2 _ hle).cons_cons _)

end Expr

end StackScript.Tree
