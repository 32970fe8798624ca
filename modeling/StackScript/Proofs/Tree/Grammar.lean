import StackScript.Proofs.Tree.Syntax

/-!
# The grammar of scripts

The grammar says which sequences of kinds of tokens are scripts. It does not say how an expression
groups or to which `if` an `else` belongs; a grouped tree settles both.

* **`Nonterminal.rule`**: the grammar.
* **`Derives`**: a phrase of the grammar can be written as a sequence of kinds.
* **`derives_expr`**, **`derives_stmt`**, **`derives_decls`**: every grouped tree is derivable.
* **`derives_program_iff`**: the derivable sequences are exactly those of the grouped trees.
  Operators are grouped one by one, and an `else` is handed on to the nearest `if` that can take it
  (`Stmt.exists_attach`).
-/

namespace StackScript

/-! ## Rules

The productions of the language, written as in its grammar. -/

inductive Nonterminal where
  | program | declaration | varDecl | statement | exprStmt
  | expression | or | and | equality | comparison | term | factor | unary | primary

/-- What a nonterminal can stand for. -/
inductive Phrase where
  | oneOf (kinds : List Kind)
  | ref (symbol : Nonterminal)
  | seq (first second : Phrase)
  | alt (first second : Phrase)
  | many (item : Phrase)
  | optional (item : Phrase)

namespace Phrase

instance : Append Phrase := ⟨seq⟩

instance : OrOp Phrase := ⟨alt⟩

def token (kind : Kind) : Phrase :=
  oneOf [kind]

/-- One or more operands with operators between them. -/
def separated (operand operator : Phrase) : Phrase :=
  operand ++ many (operator ++ operand)

end Phrase

open Phrase in
/-- The grammar. An operator of a tighter level stands further down. -/
def Nonterminal.rule : Nonterminal → Phrase
  | program => many (ref declaration) ++ token .eof
  | declaration => ref varDecl ||| ref statement
  | varDecl =>
    token .varKw ++ token .identifier ++ optional (token .equal ++ ref expression) ++
      token .semicolon
  | statement =>
    token .printKw ++ ref expression ++ token .semicolon |||
    token .ifKw ++ token .leftParen ++ ref expression ++ token .rightParen ++ ref statement ++
      optional (token .elseKw ++ ref statement) |||
    token .whileKw ++ token .leftParen ++ ref expression ++ token .rightParen ++ ref statement |||
    token .forKw ++ token .leftParen ++ (ref varDecl ||| ref exprStmt ||| token .semicolon) ++
      optional (ref expression) ++ token .semicolon ++ optional (ref expression) ++
      token .rightParen ++ ref statement |||
    token .leftBrace ++ many (ref declaration) ++ token .rightBrace |||
    ref exprStmt
  | exprStmt => ref expression ++ token .semicolon
  | expression => token .identifier ++ token .equal ++ ref expression ||| ref or
  | or => separated (ref and) (token .orKw)
  | and => separated (ref equality) (token .andKw)
  | equality => separated (ref comparison) (oneOf [.equalEqual, .bangEqual])
  | comparison => separated (ref term) (oneOf [.greater, .greaterEqual, .less, .lessEqual])
  | term => separated (ref factor) (oneOf [.plus, .minus])
  | factor => separated (ref unary) (oneOf [.star, .slash])
  | unary => oneOf [.bang, .minus] ++ ref unary ||| ref primary
  | primary =>
    oneOf [.number, .string, .identifier, .trueKw, .falseKw, .nilKw] |||
    token .leftParen ++ ref expression ++ token .rightParen

/-- A phrase can be written as a sequence of kinds. -/
inductive Derives : Phrase → List Kind → Prop where
  | oneOf {kinds : List Kind} {kind : Kind} : kind ∈ kinds → Derives (.oneOf kinds) [kind]
  | ref {symbol : Nonterminal} {ks : List Kind} :
    Derives symbol.rule ks → Derives (.ref symbol) ks
  | seq {a b : Phrase} {ks ks' : List Kind} :
    Derives a ks → Derives b ks' → Derives (a ++ b) (ks ++ ks')
  | left {a b : Phrase} {ks : List Kind} : Derives a ks → Derives (a ||| b) ks
  | right {a b : Phrase} {ks : List Kind} : Derives b ks → Derives (a ||| b) ks
  | manyNil {a : Phrase} : Derives (.many a) []
  | manyCons {a : Phrase} {ks ks' : List Kind} :
    Derives a ks → Derives (.many a) ks' → Derives (.many a) (ks ++ ks')
  | optionalNone {a : Phrase} : Derives (.optional a) []
  | optionalSome {a : Phrase} {ks : List Kind} : Derives a ks → Derives (.optional a) ks

/-! ## Derivations

Repetition is derived from the left; the other ways to put words together follow. -/

section Derivations

variable {a b operand operator : Phrase} {ks ks' : List Kind} {kind : Kind}

/-- A nonterminal derives what its rule derives. -/
theorem Derives.of_ref {symbol : Nonterminal} (h : Derives (.ref symbol) ks) :
    Derives symbol.rule ks := by
  cases h with
  | ref h => exact h

theorem derives_token (kind : Kind) : Derives (.token kind) [kind] :=
  .oneOf (List.mem_singleton.mpr rfl)

/-- Repetitions are put together. -/
theorem Derives.manyAppend (h : Derives (.many a) ks) (h' : Derives (.many a) ks') :
    Derives (.many a) (ks ++ ks') := by
  generalize hp : Phrase.many a = p at h
  induction h with
  | manyNil =>
    cases hp
    exact h'
  | manyCons hfirst _ _ ih =>
    cases hp
    rw [List.append_assoc]
    exact hfirst.manyCons (ih rfl)
  | _ => cases hp

/-- A repetition goes on at its end. -/
theorem Derives.manySnoc (h : Derives (.many a) ks) (h' : Derives a ks') :
    Derives (.many a) (ks ++ ks') := by
  simpa using h.manyAppend (h'.manyCons .manyNil)

/-- Operands with operators between them: an operand, and then pairs of an operator and an operand.
-/
theorem derives_separated : Derives (.separated operand operator) ks ↔
    ∃ first more, Derives operand first ∧ Derives (.many (operator ++ operand)) more ∧
      ks = first ++ more := by
  constructor
  · intro h
    cases h with
    | seq hfirst hmore => exact ⟨_, _, hfirst, hmore, rfl⟩
  · rintro ⟨first, more, hfirst, hmore, rfl⟩
    exact .seq hfirst hmore

theorem Derives.separated (h : Derives operand ks) : Derives (.separated operand operator) ks :=
  derives_separated.mpr ⟨ks, [], h, .manyNil, (List.append_nil ks).symm⟩

/-- An operation that groups to the left. -/
theorem Derives.separatedSnoc (h : Derives (.separated operand operator) ks)
    (hoperator : Derives operator [kind]) (h' : Derives operand ks') :
    Derives (.separated operand operator) (ks ++ kind :: ks') := by
  obtain ⟨first, more, hfirst, hmore, rfl⟩ := derives_separated.mp h
  refine derives_separated.mpr ⟨first, _, hfirst, hmore.manySnoc (.seq hoperator h'), ?_⟩
  simp

/-- An operation that groups to the right. -/
theorem Derives.separatedCons (h : Derives operand ks) (hoperator : Derives operator [kind])
    (h' : Derives (.separated operand operator) ks') :
    Derives (.separated operand operator) (ks ++ kind :: ks') := by
  obtain ⟨first, more, hfirst, hmore, rfl⟩ := derives_separated.mp h'
  refine derives_separated.mpr ⟨ks, _, h, .manyCons (.seq hoperator hfirst) hmore, ?_⟩
  simp

/-- An operation whose operands may be operations of the same level. -/
theorem Derives.separatedAppend (h : Derives (.separated operand operator) ks)
    (hoperator : Derives operator [kind]) (h' : Derives (.separated operand operator) ks') :
    Derives (.separated operand operator) (ks ++ kind :: ks') := by
  obtain ⟨first, more, hfirst, hmore, rfl⟩ := derives_separated.mp h
  obtain ⟨first', more', hfirst', hmore', rfl⟩ := derives_separated.mp h'
  have hrest := hmore.manyAppend (.manyCons (.seq hoperator hfirst') hmore')
  refine derives_separated.mpr ⟨first, _, hfirst, hrest, ?_⟩
  simp

/-- The last operand of an operation can be exchanged. -/
theorem Derives.exists_last (h : Derives (.separated operand operator) ks) :
    ∃ before last, ks = before ++ last ∧ Derives operand last ∧
      ∀ other, Derives operand other → Derives (.separated operand operator) (before ++ other) := by
  obtain ⟨first, more, hfirst, hmore, rfl⟩ := derives_separated.mp h
  clear h
  generalize hp : Phrase.many (operator ++ operand) = p at hmore
  induction hmore generalizing first with
  | manyNil => exact ⟨[], first, List.append_nil first, hfirst, fun _ hother => hother.separated⟩
  | @manyCons _ item rest hitem hrest _ ih =>
    cases hp
    cases hitem with
    | @seq _ _ op next hop hnext =>
      obtain ⟨before, last, hlast, hderives, hexchange⟩ :=
        ih next hnext rfl
      refine ⟨first ++ (op ++ before), last, ?_, hderives, fun other hother => ?_⟩
      · rw [List.append_assoc, List.append_assoc, List.append_assoc, ← hlast]
      · obtain ⟨next', more', hnext', hmore', heq⟩ :=
          derives_separated.mp (hexchange other hother)
        rw [List.append_assoc, List.append_assoc, heq, ← List.append_assoc op]
        exact .seq hfirst (.manyCons (.seq hop hnext') hmore')
  | _ => cases hp

/-- The phrase does not contain the end of a script. -/
def Phrase.isEndless : Phrase → Bool
  | oneOf kinds => !kinds.contains .eof
  | ref .program => false
  | ref _ => true
  | seq a b | alt a b => a.isEndless && b.isEndless
  | many a | optional a => a.isEndless

/-- The end of a script is no part of what comes before it. -/
theorem Derives.eof_notMem {p : Phrase} (h : Derives p ks) (hp : p.isEndless = true) :
    .eof ∉ ks := by
  induction h with
  | oneOf hmem =>
    intro heof
    obtain rfl := List.mem_singleton.mp heof
    simp only [Phrase.isEndless, List.contains_iff_mem.mpr hmem, Bool.not_true] at hp
    cases hp
  | @ref symbol ks _ ih =>
    cases symbol with
    | program => cases hp
    | _ => exact ih rfl
  | seq _ _ iha ihb =>
    have hparts := Bool.and_eq_true_iff.mp hp
    exact List.not_mem_append (iha hparts.1) (ihb hparts.2)
  | left _ ih => exact ih (Bool.and_eq_true_iff.mp hp).1
  | right _ ih => exact ih (Bool.and_eq_true_iff.mp hp).2
  | manyCons _ _ iha ihb => exact List.not_mem_append (iha hp) (ihb hp)
  | manyNil | optionalNone => exact List.not_mem_nil
  | optionalSome _ ih => exact ih hp

end Derivations

/-! ## Trees are derivable

A tree is derived from the nonterminal of its level, and then from every looser one. -/

namespace Precedence

theorem rank_le (p : Precedence) : p.rank ≤ 10 := by
  cases p <;> decide

/-- The next precedence is one level tighter. -/
theorem rank_next {p : Precedence} (h : p.rank < 10) : p.next.rank = p.rank + 1 := by
  cases p <;> first | rfl | exact absurd h (by decide)

end Precedence

namespace Tree

theorem derives_tokenOf {kind : Kind} (t : TokenOf kind) : Derives (.token kind) [t.val.kind] := by
  rw [t.property]
  exact derives_token kind

/-- The expressions that hold together as tightly as a level asks. -/
def symbolAt : Precedence → Nonterminal
  | .none | .assignment => .expression
  | .or => .or
  | .and => .and
  | .equality => .equality
  | .comparison => .comparison
  | .term => .term
  | .factor => .factor
  | .unary => .unary
  | .call | .primary => .primary

variable {ks ks' : List Kind}

/-- An operand of a level is derived at the level. -/
theorem derives_next {p : Precedence} (h : Derives (.ref (symbolAt p.next)) ks) :
    Derives (.ref (symbolAt p)) ks := by
  cases p with
  | none | call | primary => exact h
  | assignment | unary => exact .ref (.right h)
  | _ => exact .ref h.separated

/-- An expression is derived at every level that is not tighter than its own. -/
theorem derives_of_le {p q : Precedence} (hle : p ≤ q) (h : Derives (.ref (symbolAt q)) ks) :
    Derives (.ref (symbolAt p)) ks := by
  obtain ⟨n, hn⟩ := Nat.exists_eq_add_of_le hle
  induction n generalizing p with
  | zero => rwa [← Precedence.rank_injective hn]
  | succ n ih =>
    have hrank := q.rank_le
    have hnext : p.next.rank = p.rank + 1 := Precedence.rank_next (by omega)
    apply derives_next
    apply ih
    · rw [← Precedence.rank_strictMono.le_iff_le]
      omega
    · omega

/-- A binary operation is one of its level. -/
theorem derives_binary (operator : BinaryOperator)
    (hleft : Derives (.ref (symbolAt operator.precedence)) ks)
    (hright : Derives (.ref (symbolAt operator.precedence.next)) ks') :
    Derives (.ref (symbolAt operator.precedence)) (ks ++ operator.kind :: ks') := by
  cases operator <;> exact .ref (hleft.of_ref.separatedSnoc (.oneOf (by decide)) hright)

/-- A longer last operand of an assignment. -/
theorem derives_assignment {more : List Kind}
    (hor : ∀ ks, Derives (.ref .or) ks → Derives (.ref .or) (ks ++ more))
    (h : Derives (.ref .expression) ks) : Derives (.ref .expression) (ks ++ more) := by
  induction hlength : ks.length using Nat.strongRecOn generalizing ks with
  | ind length ih =>
  cases h.of_ref with
  | left hassign =>
    cases hassign with
    | @seq _ _ target value htarget hvalue =>
      cases htarget with
      | @seq _ _ name equal hname hequal =>
        cases hname
        cases hequal
        have hlonger := ih value.length (by simp at hlength; omega) hvalue rfl
        rw [List.append_assoc]
        exact .ref (.left (.seq (.seq (.oneOf ‹_›) (.oneOf ‹_›)) hlonger))
  | right hvalue => exact .ref (.right (hor ks hvalue))

/-- An operation of its own level can be written after an expression of a level that is as loose:
how the operands group does not matter to the grammar. -/
theorem derives_operation {p : Precedence} {kind : Kind} {form : InfixForm}
    (hform : kind.infixForm? = some form) (hle : p ≤ form.precedence)
    (h : Derives (.ref (symbolAt p)) ks) (h' : Derives (.ref (symbolAt form.precedence)) ks') :
    Derives (.ref (symbolAt p)) (ks ++ kind :: ks') := by
  obtain ⟨n, hn⟩ := Nat.exists_eq_add_of_le hle
  induction n generalizing p ks with
  | zero =>
    obtain rfl := Precedence.rank_injective hn
    cases kind <;> cases hform <;>
      exact .ref (h.of_ref.separatedAppend (.oneOf (by decide)) h'.of_ref)
  | succ n ih =>
    -- the operation goes to the last operand, which is of the next level
    have hrank := form.precedence.rank_le
    have hnext : p.next.rank = p.rank + 1 := Precedence.rank_next (by omega)
    have hlast : ∀ last, Derives (.ref (symbolAt p.next)) last →
        Derives (.ref (symbolAt p.next)) (last ++ kind :: ks') := by
      intro last hderives
      refine ih ?_ hderives ?_
      · rw [← Precedence.rank_strictMono.le_iff_le]
        omega
      · omega
    have hfactor : form.precedence.rank ≤ 7 := by
      cases kind <;> cases hform <;> decide
    have hloose : p.rank < 7 := by omega
    cases p with
    | none => exact hlast ks h
    | assignment => exact derives_assignment hlast h
    | or | and | equality | comparison | term | factor =>
      obtain ⟨before, last, rfl, hderives, hexchange⟩ := h.of_ref.exists_last
      rw [List.append_assoc]
      exact .ref (hexchange _ (hlast last hderives))
    | unary | call | primary => exact absurd hloose (by decide)

/-- By induction on the expression. -/
theorem derives_expr (e : Expr) (h : e.Grouped) :
    Derives (.ref (symbolAt e.level)) (e.tokens.map Token.kind) := by
  induction e with
  | constant value word =>
    refine .ref (.left (.oneOf ?_))
    rw [word.property]
    cases value <;> decide
  | number token value reads =>
    refine .ref (.left (.oneOf ?_))
    rw [token.property]
    decide
  | string token =>
    refine .ref (.left (.oneOf ?_))
    rw [token.property]
    decide
  | name token =>
    refine .ref (.left (.oneOf ?_))
    rw [token.property]
    decide
  | assign target equal value ih =>
    have hvalue := derives_of_le value.assignment_le_level (ih h)
    exact .ref (.left (.seq (.seq (derives_tokenOf target) (derives_tokenOf equal)) hvalue))
  | grouping left inner right ih =>
    have hinner := derives_of_le inner.assignment_le_level (ih h)
    rw [Expr.tokens, List.map_cons, List.map_append]
    exact .ref (.right (.seq (.seq (derives_tokenOf left) hinner) (derives_tokenOf right)))
  | unary operator token operand ih =>
    have hoperand := derives_of_le h.2 (ih h.1)
    refine .ref (.left (.seq (.oneOf ?_) hoperand))
    rw [token.property]
    cases operator <;> decide
  -- a row of operators of one level is one rule, so the left operand may be such a row itself
  | binary operator left token right ihleft ihright =>
    obtain ⟨hleft, hright, hleftLevel, hrightLevel⟩ := h
    rw [Expr.tokens, List.map_append, List.map_cons, token.property]
    exact derives_binary operator (derives_of_le hleftLevel (ihleft hleft))
      (derives_of_le hrightLevel (ihright hright))
  -- here it is the right operand that may go on with the same operator
  | and left token right ihleft ihright =>
    obtain ⟨hleft, hright, hleftLevel, hrightLevel⟩ := h
    have htight : Precedence.equality ≤ left.level := hleftLevel
    have hfirst : Derives (.ref .equality) _ := derives_of_le htight (ihleft hleft)
    have hmore : Derives (.ref .and) _ := derives_of_le hrightLevel (ihright hright)
    rw [Expr.tokens, List.map_append, List.map_cons]
    exact .ref (hfirst.separatedCons (derives_tokenOf token) hmore.of_ref)
  | or left token right ihleft ihright =>
    obtain ⟨hleft, hright, hleftLevel, hrightLevel⟩ := h
    have htight : Precedence.and ≤ left.level := hleftLevel
    have hfirst : Derives (.ref .and) _ := derives_of_le htight (ihleft hleft)
    have hmore : Derives (.ref .or) _ := derives_of_le hrightLevel (ihright hright)
    rw [Expr.tokens, List.map_append, List.map_cons]
    exact .ref (hfirst.separatedCons (derives_tokenOf token) hmore.of_ref)

/-- Every grouped expression is derivable as one. -/
theorem derives_expression (e : Expr) (h : e.Grouped) :
    Derives (.ref .expression) (e.tokens.map Token.kind) :=
  derives_of_le e.assignment_le_level (derives_expr e h)

/-- An expression with its semicolon is a statement. -/
theorem derives_exprStmt (e : Expr) (h : e.Grouped) (semicolon : TokenOf .semicolon) :
    Derives (.ref .exprStmt) ((e.tokens ++ [semicolon.val]).map Token.kind) := by
  rw [List.map_append]
  exact .ref (.seq (derives_expression e h) (derives_tokenOf semicolon))

/-- A variable is declared with or without a value. -/
theorem derives_varDecl (keyword : TokenOf .varKw) (d : VarDecl) (h : d.Grouped) :
    Derives (.ref .varDecl) ((keyword.val :: d.tokens).map Token.kind) := by
  obtain ⟨name, initializer, semicolon⟩ := d
  have hname := Derives.seq (derives_tokenOf keyword) (derives_tokenOf name)
  cases initializer with
  | none => exact .ref (.seq (.seq hname .optionalNone) (derives_tokenOf semicolon))
  | some initializer =>
    have hvalue := Derives.seq (derives_tokenOf initializer.1)
      (derives_expression initializer.2 (h _ rfl))
    have hall := Derives.seq (.seq hname (.optionalSome hvalue)) (derives_tokenOf semicolon)
    exact .ref (by simpa [VarDecl.tokens, Nonterminal.rule] using hall)

theorem derives_optional (value : Option Expr) (h : ∀ e ∈ value, e.Grouped) :
    Derives (.optional (.ref .expression)) ((optionalTokens value).map Token.kind) := by
  cases value with
  | none => exact .optionalNone
  | some e => exact .optionalSome (derives_expression e (h e rfl))

/-- The first clause of a loop is a declaration, an expression statement or a semicolon. -/
theorem derives_forStart (start : ForStart) (h : start.Grouped) :
    Derives (.ref .varDecl ||| .ref .exprStmt ||| .token .semicolon)
      (start.tokens.map Token.kind) := by
  cases start with
  | none semicolon => exact .right (derives_tokenOf semicolon)
  | declaration keyword declared => exact .left (.left (derives_varDecl keyword declared h))
  | expression value semicolon => exact .left (.right (derives_exprStmt value h semicolon))

/-- A condition in its parentheses, after the keyword. -/
theorem derives_condition {kind : Kind} (keyword : TokenOf kind) (c : Condition)
    (h : c.value.Grouped) :
    Derives (.token kind ++ .token .leftParen ++ .ref .expression ++ .token .rightParen)
      ((keyword.val :: c.tokens).map Token.kind) := by
  have hvalue := derives_expression c.value h
  have hall := Derives.seq (.seq (.seq (derives_tokenOf keyword) (derives_tokenOf c.left)) hvalue)
    (derives_tokenOf c.right)
  simpa [Condition.tokens] using hall

mutual

/-- By mutual recursion on statements, `else` branches and lists of declarations. -/
theorem derives_stmt (t : Stmt) (h : t.Grouped) :
    Derives (.ref .statement) (t.tokens.map Token.kind) := by
  match t with
  | .print keyword value semicolon =>
    have hall := Derives.seq (.seq (derives_tokenOf keyword) (derives_expression value h))
      (derives_tokenOf semicolon)
    rw [Stmt.tokens, List.map_cons, List.map_append]
    exact .ref (.left (.left (.left (.left (.left hall)))))
  | .expression value semicolon => exact .ref (.right (derives_exprStmt value h semicolon))
  | .conditional keyword condition body otherwise =>
    have hall := Derives.seq
      (.seq (derives_condition keyword condition h.1) (derives_stmt body h.2.1))
      (derives_else otherwise h.2.2)
    rw [← List.map_append, ← List.map_append, List.append_assoc] at hall
    exact .ref (.left (.left (.left (.left (.right hall)))))
  | .whileLoop keyword condition body =>
    have hall := Derives.seq (derives_condition keyword condition h.1) (derives_stmt body h.2)
    rw [← List.map_append] at hall
    exact .ref (.left (.left (.left (.right hall))))
  -- clause by clause, each of them with the token that ends it
  | .forLoop keyword clauses body =>
    have hclauses := h.1
    have hstart := Derives.seq (.seq (derives_tokenOf keyword) (derives_tokenOf clauses.left))
      (derives_forStart clauses.start hclauses.1)
    have htest := Derives.seq (.seq hstart (derives_optional clauses.condition hclauses.2.1))
      (derives_tokenOf clauses.semicolon)
    have hstep := Derives.seq (.seq htest (derives_optional clauses.increment hclauses.2.2))
      (derives_tokenOf clauses.right)
    have hall := Derives.seq hstep (derives_stmt body h.2)
    refine .ref (.left (.left (.right ?_)))
    simpa [Stmt.tokens, ForClauses.tokens] using hall
  | .block left body right =>
    have hall := Derives.seq (.seq (derives_tokenOf left) (derives_decls body h))
      (derives_tokenOf right)
    rw [Stmt.tokens, List.map_cons, List.map_append]
    exact .ref (.left (.right hall))

/-- An `else` branch, if there is one. -/
theorem derives_else (o : Else) {isOpen : Bool} (h : o.GroupedAfter isOpen) :
    Derives (.optional (.token .elseKw ++ .ref .statement)) (o.tokens.map Token.kind) := by
  match o with
  | .none => exact .optionalNone
  | .branch keyword body =>
    exact .optionalSome (.seq (derives_tokenOf keyword) (derives_stmt body h.2))

/-- The declarations of a block or of a script. -/
theorem derives_decls (ds : Decls) (h : ds.Grouped) :
    Derives (.many (.ref .declaration)) (ds.tokens.map Token.kind) := by
  match ds with
  | .nil => exact .manyNil
  | .declaration keyword declared rest =>
    have hfirst : Derives (.ref .declaration) _ :=
      .ref (.left (derives_varDecl keyword declared h.1))
    have hall := Derives.manyCons hfirst (derives_decls rest h.2)
    rwa [← List.map_append] at hall
  | .statement first rest =>
    have hfirst : Derives (.ref .declaration) _ := .ref (.right (derives_stmt first h.1))
    have hall := Derives.manyCons hfirst (derives_decls rest h.2)
    rwa [← List.map_append] at hall

end

end Tree

/-! ## Derivable sequences are trees

The other direction: what a phrase derives is read as a tree, rule by rule. -/

/-- A number token denotes a number. -/
def Token.IsReadable (token : Token) : Prop :=
  token.kind = .number → token.numberValue?.isSome

/-- The tokens are those of a phrase, given what the nonterminals stand for. -/
def Phrase.Means (V : Nonterminal → List Token → Prop) : Phrase → List Token → Prop
  | oneOf kinds, ts => ∃ t : Token, t.kind ∈ kinds ∧ t.IsReadable ∧ ts = [t]
  | ref symbol, ts => V symbol ts
  | seq a b, ts => ∃ l r, a.Means V l ∧ b.Means V r ∧ ts = l ++ r
  | alt a b, ts => a.Means V ts ∨ b.Means V ts
  | many a, ts => ∃ items : List (List Token), (∀ item ∈ items, a.Means V item) ∧ ts = items.flatten
  | optional a, ts => ts = [] ∨ a.Means V ts

section Means

variable {V : Nonterminal → List Token → Prop} {ts : List Token}

/-- A token stands for itself. -/
theorem Phrase.means_token {kind : Kind} (h : (token kind).Means V ts) :
    ∃ t : TokenOf kind, ts = [t.val] := by
  obtain ⟨t, hkind, -, rfl⟩ := h
  exact ⟨⟨t, List.mem_singleton.mp hkind⟩, rfl⟩

/-- What obeys all rules is true of all derivable sequences. -/
theorem Derives.means (hrules : ∀ symbol ts, symbol.rule.Means V ts → V symbol ts)
    {p : Phrase} {ks : List Kind} (h : Derives p ks) (hts : ts.map Token.kind = ks)
    (hread : ∀ t ∈ ts, t.IsReadable) : p.Means V ts := by
  induction h generalizing ts with
  | oneOf hmem =>
    obtain ⟨t, rfl, rfl⟩ := List.map_eq_singleton_iff.mp hts
    exact ⟨t, hmem, hread t (List.mem_singleton.mpr rfl), rfl⟩
  -- the only case in which something has to be known about the rules
  | ref _ ih => exact hrules _ ts (ih hts hread)
  | seq _ _ iha ihb =>
    obtain ⟨l, r, rfl, hl, hr⟩ := List.map_eq_append_iff.mp hts
    rw [List.forall_mem_append] at hread
    exact ⟨l, r, iha hl hread.1, ihb hr hread.2, rfl⟩
  | left _ ih => exact .inl (ih hts hread)
  | right _ ih => exact .inr (ih hts hread)
  | manyNil =>
    rw [List.map_eq_nil_iff] at hts
    exact ⟨[], nofun, hts⟩
  | manyCons _ _ iha ihb =>
    obtain ⟨l, r, rfl, hl, hr⟩ := List.map_eq_append_iff.mp hts
    rw [List.forall_mem_append] at hread
    obtain ⟨items, hitems, rfl⟩ := ihb hr hread.2
    exact ⟨l :: items, List.forall_mem_cons.mpr ⟨iha hl hread.1, hitems⟩, rfl⟩
  | optionalNone => exact .inl (List.map_eq_nil_iff.mp hts)
  | optionalSome _ ih => exact .inr (ih hts hread)

/-- Operands with operators between them, grouped to the left. -/
theorem Phrase.means_separated_left {operand operator : Phrase} {P : List Token → Prop}
    (h : (separated operand operator).Means V ts) (hfirst : ∀ l, operand.Means V l → P l)
    (hmore : ∀ l o r, P l → operator.Means V o → operand.Means V r → P (l ++ (o ++ r))) :
    P ts := by
  obtain ⟨l, _, hl, ⟨items, hitems, rfl⟩, rfl⟩ := h
  replace hl := hfirst l hl
  induction items generalizing l with
  | nil => rwa [List.flatten_nil, List.append_nil]
  | cons item items ih =>
    obtain ⟨⟨o, r, ho, hr, rfl⟩, hrest⟩ := List.forall_mem_cons.mp hitems
    rw [List.flatten_cons, ← List.append_assoc]
    exact ih _ hrest (hmore l o r hl ho hr)

/-- Operands with operators between them, grouped to the right. -/
theorem Phrase.means_separated_right {operand operator : Phrase} {P : List Token → Prop}
    (h : (separated operand operator).Means V ts) (hlast : ∀ l, operand.Means V l → P l)
    (hmore : ∀ l o r, operand.Means V l → operator.Means V o → P r → P (l ++ (o ++ r))) :
    P ts := by
  obtain ⟨l, _, hl, ⟨items, hitems, rfl⟩, rfl⟩ := h
  induction items generalizing l with
  | nil =>
    rw [List.flatten_nil, List.append_nil]
    exact hlast l hl
  | cons item items ih =>
    obtain ⟨⟨o, r, ho, hr, rfl⟩, hrest⟩ := List.forall_mem_cons.mp hitems
    rw [List.flatten_cons, List.append_assoc]
    exact hmore l o _ hl ho (ih r hr hrest)

end Means

namespace Tree

/-- The tokens of a grouped expression that holds together as tightly as a level asks. -/
def IsExprAt (p : Precedence) (ts : List Token) : Prop :=
  ∃ e : Expr, e.Grouped ∧ p ≤ e.level ∧ e.tokens = ts

def IsExpr (ts : List Token) : Prop :=
  ∃ e : Expr, e.Grouped ∧ e.tokens = ts

def IsVarDecl (ts : List Token) : Prop :=
  ∃ (keyword : TokenOf .varKw) (d : VarDecl), d.Grouped ∧ keyword.val :: d.tokens = ts

def IsStmt (ts : List Token) : Prop :=
  ∃ t : Stmt, t.Grouped ∧ t.tokens = ts

def IsExprStmt (ts : List Token) : Prop :=
  ∃ (e : Expr) (semicolon : TokenOf .semicolon), e.Grouped ∧ e.tokens ++ [semicolon.val] = ts

def IsDecls (ts : List Token) : Prop :=
  ∃ ds : Decls, ds.Grouped ∧ ds.tokens = ts

/-- The sequences of tokens for which there is a tree. -/
def HasTree : Nonterminal → List Token → Prop
  | .program, ts => ∃ l, IsDecls l ∧ ∃ eof : TokenOf .eof, ts = l ++ [eof.val]
  | .declaration, ts => IsVarDecl ts ∨ IsStmt ts
  | .varDecl, ts => IsVarDecl ts
  | .statement, ts => IsStmt ts
  | .exprStmt, ts => IsExprStmt ts
  | .expression, ts => IsExpr ts
  | .or, ts => IsExprAt .or ts
  | .and, ts => IsExprAt .and ts
  | .equality, ts => IsExprAt .equality ts
  | .comparison, ts => IsExprAt .comparison ts
  | .term, ts => IsExprAt .term ts
  | .factor, ts => IsExprAt .factor ts
  | .unary, ts => IsExprAt .unary ts
  | .primary, ts => IsExprAt .primary ts

variable {l o r ts : List Token}

/-! ### Expressions

The operators of a level are collected from the left, or from the right for `and` and `or`, as the
trees group them. -/

/-- A tree of a tight level is one of a looser level. -/
theorem IsExprAt.mono {p q : Precedence} (h : IsExprAt q ts) (hle : p ≤ q) : IsExprAt p ts := by
  obtain ⟨e, hgrouped, hlevel, htokens⟩ := h
  exact ⟨e, hgrouped, le_trans hle hlevel, htokens⟩

/-- A binary operation whose operands are tight enough. -/
theorem isExprAt_binary {operator : BinaryOperator} {token : Token}
    (hl : IsExprAt operator.precedence l) (htoken : token.kind = operator.kind)
    (hr : IsExprAt operator.precedence.next r) :
    IsExprAt operator.precedence (l ++ ([token] ++ r)) := by
  obtain ⟨left, hleft, hleftLevel, rfl⟩ := hl
  obtain ⟨right, hright, hrightLevel, rfl⟩ := hr
  exact ⟨.binary operator left ⟨token, htoken⟩ right, ⟨hleft, hright, hleftLevel, hrightLevel⟩,
    le_refl _, rfl⟩

/-- A level of binary operators, given the operators of the level. -/
theorem isExprAt_of_separated {p : Precedence} {operand : Nonterminal} {kinds : List Kind}
    (hoperand : ∀ ts, HasTree operand ts → IsExprAt p.next ts) (hle : p ≤ p.next)
    (hoperators : ∀ kind ∈ kinds, ∃ operator : BinaryOperator,
      operator.kind = kind ∧ operator.precedence = p)
    (h : (Phrase.separated (.ref operand) (.oneOf kinds)).Means HasTree ts) : IsExprAt p ts := by
  refine Phrase.means_separated_left h (fun l hl => (hoperand l hl).mono hle) ?_
  rintro l _ r hl ⟨token, hkind, -, rfl⟩ hr
  obtain ⟨operator, hoperator, rfl⟩ := hoperators token.kind hkind
  exact isExprAt_binary hl hoperator.symm (hoperand r hr)

/-- A conjunction is a tree at its level. -/
theorem isExprAt_and (h : Nonterminal.and.rule.Means HasTree ts) : IsExprAt .and ts := by
  refine Phrase.means_separated_right h (fun l hl => IsExprAt.mono hl (by decide)) ?_
  rintro l o r ⟨left, hleft, hleftLevel, rfl⟩ ho ⟨right, hright, hrightLevel, rfl⟩
  obtain ⟨token, rfl⟩ := Phrase.means_token ho
  exact ⟨.and left token right, ⟨hleft, hright, hleftLevel, hrightLevel⟩, le_refl _, rfl⟩

/-- A disjunction is a tree at its level. -/
theorem isExprAt_or (h : Nonterminal.or.rule.Means HasTree ts) : IsExprAt .or ts := by
  refine Phrase.means_separated_right h (fun l hl => IsExprAt.mono hl (by decide)) ?_
  rintro l o r ⟨left, hleft, hleftLevel, rfl⟩ ho ⟨right, hright, hrightLevel, rfl⟩
  obtain ⟨token, rfl⟩ := Phrase.means_token ho
  exact ⟨.or left token right, ⟨hleft, hright, hleftLevel, hrightLevel⟩, le_refl _, rfl⟩

/-- A unary operation, or anything tighter. -/
theorem isExprAt_unary (h : Nonterminal.unary.rule.Means HasTree ts) : IsExprAt .unary ts := by
  rcases h with ⟨_, r, ⟨token, hkind, -, rfl⟩, ⟨operand, hoperand, hlevel, rfl⟩, rfl⟩ | h
  · have hoperator : ∃ operator : UnaryOperator, token.kind = operator.kind := by
      simp only [List.mem_cons, List.not_mem_nil, or_false] at hkind
      rcases hkind with h | h
      · exact ⟨.not, h⟩
      · exact ⟨.negate, h⟩
    obtain ⟨operator, hoperator⟩ := hoperator
    exact ⟨.unary operator ⟨token, hoperator⟩ operand, ⟨hoperand, hlevel⟩,
      le_refl _, rfl⟩
  · exact IsExprAt.mono h (by decide)

/-- A literal, a name or an expression in parentheses. -/
theorem isExprAt_primary (h : Nonterminal.primary.rule.Means HasTree ts) :
    IsExprAt .primary ts := by
  rcases h with ⟨token, hkind, hread, rfl⟩ | ⟨_, _, ⟨_, _, hl, ⟨inner, hinner, rfl⟩, rfl⟩, hr, rfl⟩
  · have hle := le_refl Precedence.primary
    simp only [List.mem_cons, List.not_mem_nil, or_false] at hkind
    rcases hkind with h | h | h | h | h | h
    · obtain ⟨value, hvalue⟩ := Option.isSome_iff_exists.mp (hread h)
      exact ⟨.number ⟨token, h⟩ value hvalue, trivial, hle, rfl⟩
    · exact ⟨.string ⟨token, h⟩, trivial, hle, rfl⟩
    · exact ⟨.name ⟨token, h⟩, trivial, hle, rfl⟩
    · exact ⟨.constant .true ⟨token, h⟩, trivial, hle, rfl⟩
    · exact ⟨.constant .false ⟨token, h⟩, trivial, hle, rfl⟩
    · exact ⟨.constant .nil ⟨token, h⟩, trivial, hle, rfl⟩
  · obtain ⟨left, rfl⟩ := Phrase.means_token hl
    obtain ⟨right, rfl⟩ := Phrase.means_token hr
    exact ⟨.grouping left inner right, hinner, le_refl _, rfl⟩

/-- An assignment, or anything tighter. -/
theorem isExpr_expression (h : Nonterminal.expression.rule.Means HasTree ts) : IsExpr ts := by
  rcases h with ⟨_, _, ⟨_, _, ht, he, rfl⟩, ⟨value, hvalue, rfl⟩, rfl⟩ | ⟨e, he, -, htokens⟩
  · obtain ⟨target, rfl⟩ := Phrase.means_token ht
    obtain ⟨equal, rfl⟩ := Phrase.means_token he
    exact ⟨.assign target equal value, hvalue, rfl⟩
  · exact ⟨e, he, htokens⟩

/-! ### Statements

The grammar does not say to which `if` an `else` belongs; the tree takes the nearest. -/

/-- An `else` after a grouped statement that can take one goes to the nearest `if`. -/
theorem Stmt.exists_attach (t : Stmt) (h : t.Grouped) (hopen : t.endsOpen = true)
    (keyword : TokenOf .elseKw) {other : Stmt} (hother : other.Grouped) :
    ∃ t' : Stmt, t'.Grouped ∧ t'.tokens = t.tokens ++ keyword.val :: other.tokens := by
  match t with
  | .print _ _ _ | .expression _ _ | .block _ _ _ => cases hopen
  | .conditional first condition body .none =>
    obtain ⟨hcondition, hbody, -⟩ := h
    cases hends : body.endsOpen with
    | false =>
      refine ⟨.conditional first condition body (.branch keyword other),
        ⟨hcondition, hbody, hends, hother⟩, ?_⟩
      simp [Stmt.tokens, Else.tokens]
    | true =>
      -- an `if` inside the body is nearer
      obtain ⟨body', hbody', htokens⟩ := body.exists_attach hbody hends keyword hother
      refine ⟨.conditional first condition body' .none, ⟨hcondition, hbody', trivial⟩, ?_⟩
      simp [Stmt.tokens, Else.tokens, htokens]
  | .conditional first condition body (.branch second last) =>
    obtain ⟨hcondition, hbody, hclosed, hlast⟩ := h
    obtain ⟨last', hlast', htokens⟩ := last.exists_attach hlast hopen keyword hother
    refine ⟨.conditional first condition body (.branch second last'),
      ⟨hcondition, hbody, hclosed, hlast'⟩, ?_⟩
    simp [Stmt.tokens, Else.tokens, htokens]
  | .whileLoop first condition body =>
    obtain ⟨body', hbody', htokens⟩ := body.exists_attach h.2 hopen keyword hother
    refine ⟨.whileLoop first condition body', ⟨h.1, hbody'⟩, ?_⟩
    simp [Stmt.tokens, htokens]
  | .forLoop first clauses body =>
    obtain ⟨body', hbody', htokens⟩ := body.exists_attach h.2 hopen keyword hother
    refine ⟨.forLoop first clauses body', ⟨h.1, hbody'⟩, ?_⟩
    simp [Stmt.tokens, htokens]

/-- An `else` after a statement that could take it itself is given to that statement. -/
theorem isStmt_ifElse {first : TokenOf .ifKw} {condition : Condition}
    (hcondition : condition.value.Grouped) {body other : Stmt} (hbody : body.Grouped)
    (keyword : TokenOf .elseKw) (hother : other.Grouped) :
    IsStmt (first.val :: (condition.tokens ++ (body.tokens ++ keyword.val :: other.tokens))) := by
  cases hends : body.endsOpen with
  | false =>
    exact ⟨.conditional first condition body (.branch keyword other),
      ⟨hcondition, hbody, hends, hother⟩, rfl⟩
  | true =>
    obtain ⟨body', hbody', htokens⟩ := body.exists_attach hbody hends keyword hother
    refine ⟨.conditional first condition body' .none, ⟨hcondition, hbody', trivial⟩, ?_⟩
    simp [Stmt.tokens, Else.tokens, htokens]

/-- A condition is read back from its tokens. -/
theorem exists_condition {kind : Kind}
    (h : (Phrase.token kind ++ .token .leftParen ++ .ref .expression ++
      .token .rightParen).Means HasTree ts) :
    ∃ (keyword : TokenOf kind) (c : Condition), c.value.Grouped ∧ ts = keyword.val :: c.tokens := by
  obtain ⟨_, _, ⟨_, _, ⟨_, _, hk, hl, rfl⟩, ⟨value, hvalue, rfl⟩, rfl⟩, hr, rfl⟩ := h
  obtain ⟨keyword, rfl⟩ := Phrase.means_token hk
  obtain ⟨left, rfl⟩ := Phrase.means_token hl
  obtain ⟨right, rfl⟩ := Phrase.means_token hr
  exact ⟨keyword, ⟨left, value, right⟩, hvalue, rfl⟩

theorem exists_optional (h : (Phrase.optional (.ref .expression)).Means HasTree ts) :
    ∃ value : Option Expr, (∀ e ∈ value, e.Grouped) ∧ optionalTokens value = ts := by
  rcases h with rfl | ⟨e, he, rfl⟩
  · exact ⟨none, nofun, rfl⟩
  · refine ⟨some e, ?_, rfl⟩
    rintro _ ⟨rfl⟩
    exact he

/-- The first clause of a loop is read back from its tokens. -/
theorem exists_forStart
    (h : (Phrase.ref .varDecl ||| .ref .exprStmt ||| .token .semicolon).Means HasTree ts) :
    ∃ start : ForStart, start.Grouped ∧ start.tokens = ts := by
  rcases h with (⟨keyword, declared, hdeclared, rfl⟩ | ⟨value, semicolon, hvalue, rfl⟩) | h
  · exact ⟨.declaration keyword declared, hdeclared, rfl⟩
  · exact ⟨.expression value semicolon, hvalue, rfl⟩
  · obtain ⟨semicolon, rfl⟩ := Phrase.means_token h
    exact ⟨.none semicolon, trivial, rfl⟩

theorem isVarDecl_varDecl (h : Nonterminal.varDecl.rule.Means HasTree ts) : IsVarDecl ts := by
  obtain ⟨_, _, ⟨_, _, ⟨_, _, hk, hn, rfl⟩, hi, rfl⟩, hs, rfl⟩ := h
  obtain ⟨keyword, rfl⟩ := Phrase.means_token hk
  obtain ⟨name, rfl⟩ := Phrase.means_token hn
  obtain ⟨semicolon, rfl⟩ := Phrase.means_token hs
  rcases hi with rfl | ⟨_, _, he, ⟨value, hvalue, rfl⟩, rfl⟩
  · have hnone : ∀ pair ∈ (none : Option (TokenOf .equal × Expr)), pair.2.Grouped := nofun
    exact ⟨keyword, ⟨name, none, semicolon⟩, hnone, rfl⟩
  · obtain ⟨equal, rfl⟩ := Phrase.means_token he
    refine ⟨keyword, ⟨name, some (equal, value), semicolon⟩, ?_, rfl⟩
    rintro _ ⟨rfl⟩
    exact hvalue

/-- Declarations one after the other are a list of them. -/
theorem isDecls_of_items {items : List (List Token)}
    (h : ∀ item ∈ items, HasTree .declaration item) : IsDecls items.flatten := by
  induction items with
  | nil => exact ⟨.nil, trivial, rfl⟩
  | cons item items ih =>
    obtain ⟨hitem, hitems⟩ := List.forall_mem_cons.mp h
    obtain ⟨ds, hds, htokens⟩ := ih hitems
    rw [List.flatten_cons, ← htokens]
    rcases hitem with ⟨keyword, declared, hdeclared, rfl⟩ | ⟨first, hfirst, rfl⟩
    · exact ⟨.declaration keyword declared ds, ⟨hdeclared, hds⟩, rfl⟩
    · exact ⟨.statement first ds, ⟨hfirst, hds⟩, rfl⟩

/-- By cases on the alternatives of the rule. -/
theorem isStmt_statement (h : Nonterminal.statement.rule.Means HasTree ts) : IsStmt ts := by
  rcases h with ((((h | h) | h) | h) | h) | ⟨value, semicolon, hvalue, rfl⟩
  · obtain ⟨_, _, ⟨_, _, hk, ⟨value, hvalue, rfl⟩, rfl⟩, hs, rfl⟩ := h
    obtain ⟨keyword, rfl⟩ := Phrase.means_token hk
    obtain ⟨semicolon, rfl⟩ := Phrase.means_token hs
    exact ⟨.print keyword value semicolon, hvalue, rfl⟩
  · obtain ⟨_, _, ⟨_, _, hc, ⟨body, hbody, rfl⟩, rfl⟩, he, rfl⟩ := h
    obtain ⟨keyword, condition, hcondition, rfl⟩ := exists_condition hc
    rw [List.append_assoc]
    rcases he with rfl | ⟨_, _, he, ⟨other, hother, rfl⟩, rfl⟩
    · exact ⟨.conditional keyword condition body .none, ⟨hcondition, hbody, trivial⟩, rfl⟩
    · obtain ⟨second, rfl⟩ := Phrase.means_token he
      -- the grammar allows this `else` also behind a body that would take it
      exact isStmt_ifElse hcondition hbody second hother
  · obtain ⟨_, _, hc, ⟨body, hbody, rfl⟩, rfl⟩ := h
    obtain ⟨keyword, condition, hcondition, rfl⟩ := exists_condition hc
    exact ⟨.whileLoop keyword condition body, ⟨hcondition, hbody⟩, rfl⟩
  · obtain ⟨_, _, ⟨_, _, ⟨_, _, ⟨_, _, ⟨_, _, hstart, hc, rfl⟩, hs, rfl⟩, he, rfl⟩, hr, rfl⟩,
      ⟨body, hbody, rfl⟩, rfl⟩ := h
    obtain ⟨_, _, ⟨_, _, hk, hl, rfl⟩, hi, rfl⟩ := hstart
    obtain ⟨keyword, rfl⟩ := Phrase.means_token hk
    obtain ⟨left, rfl⟩ := Phrase.means_token hl
    obtain ⟨start, hstart, rfl⟩ := exists_forStart hi
    obtain ⟨condition, hcondition, rfl⟩ := exists_optional hc
    obtain ⟨semicolon, rfl⟩ := Phrase.means_token hs
    obtain ⟨increment, hincrement, rfl⟩ := exists_optional he
    obtain ⟨right, rfl⟩ := Phrase.means_token hr
    refine ⟨.forLoop keyword ⟨left, start, condition, semicolon, increment, right⟩ body,
      ⟨⟨hstart, hcondition, hincrement⟩, hbody⟩, ?_⟩
    simp [Stmt.tokens, ForClauses.tokens]
  · obtain ⟨_, _, ⟨_, _, hl, ⟨items, hitems, rfl⟩, rfl⟩, hr, rfl⟩ := h
    obtain ⟨left, rfl⟩ := Phrase.means_token hl
    obtain ⟨right, rfl⟩ := Phrase.means_token hr
    obtain ⟨body, hbody, htokens⟩ := isDecls_of_items hitems
    rw [← htokens]
    exact ⟨.block left body right, hbody, rfl⟩
  · exact ⟨.expression value semicolon, hvalue, rfl⟩

/-- Trees obey the rules of the grammar. -/
theorem hasTree_of_rule (symbol : Nonterminal) (ts : List Token)
    (h : symbol.rule.Means HasTree ts) : HasTree symbol ts := by
  cases symbol with
  | program =>
    obtain ⟨_, _, ⟨items, hitems, rfl⟩, he, rfl⟩ := h
    obtain ⟨eof, rfl⟩ := Phrase.means_token he
    exact ⟨_, isDecls_of_items hitems, eof, rfl⟩
  | declaration => exact h
  | varDecl => exact isVarDecl_varDecl h
  | statement => exact isStmt_statement h
  | exprStmt =>
    obtain ⟨_, _, ⟨value, hvalue, rfl⟩, hs, rfl⟩ := h
    obtain ⟨semicolon, rfl⟩ := Phrase.means_token hs
    exact ⟨value, semicolon, hvalue, rfl⟩
  | expression => exact isExpr_expression h
  | or => exact isExprAt_or h
  | and => exact isExprAt_and h
  -- from here on the rules differ only in their level and in the operators that they allow
  | equality =>
    refine isExprAt_of_separated (fun _ => id) (by decide) ?_ h
    simp only [List.forall_mem_cons]
    exact ⟨⟨.equal, rfl, rfl⟩, ⟨.notEqual, rfl, rfl⟩, nofun⟩
  | comparison =>
    refine isExprAt_of_separated (fun _ => id) (by decide) ?_ h
    simp only [List.forall_mem_cons]
    exact ⟨⟨.greater, rfl, rfl⟩, ⟨.greaterEqual, rfl, rfl⟩, ⟨.less, rfl, rfl⟩,
      ⟨.lessEqual, rfl, rfl⟩, nofun⟩
  | term =>
    refine isExprAt_of_separated (fun _ => id) (by decide) ?_ h
    simp only [List.forall_mem_cons]
    exact ⟨⟨.add, rfl, rfl⟩, ⟨.subtract, rfl, rfl⟩, nofun⟩
  | factor =>
    refine isExprAt_of_separated (fun _ => id) (by decide) ?_ h
    simp only [List.forall_mem_cons]
    exact ⟨⟨.multiply, rfl, rfl⟩, ⟨.divide, rfl, rfl⟩, nofun⟩
  | unary => exact isExprAt_unary h
  | primary => exact isExprAt_primary h

/-- Tokens are those of a grouped script and an end exactly if their kinds are derivable. -/
theorem derives_program_iff {tokens : List Token} (hread : ∀ t ∈ tokens, t.IsReadable) :
    Derives (.ref .program) (tokens.map Token.kind) ↔
      ∃ (script : Decls) (eof : TokenOf .eof),
        script.Grouped ∧ tokens = script.tokens ++ [eof.val] := by
  constructor
  · intro h
    obtain ⟨_, ⟨script, hscript, rfl⟩, eof, rfl⟩ := h.means hasTree_of_rule rfl hread
    exact ⟨script, eof, hscript, rfl⟩
  · rintro ⟨script, eof, hscript, rfl⟩
    rw [List.map_append]
    exact .ref (.seq (derives_decls script hscript) (derives_tokenOf eof))

end Tree

end StackScript
