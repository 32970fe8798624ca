import StackScript.Proofs.Tree.Lowering

/-!
# Where the constants of the code of a tree come from

A tree is compiled from left to right, and a constant is added where its token is read. So the pool
has the literals of a script and the names of its globals in the order in which they are written,
without regard to the order in which the instructions use them.

* **`Literals`**: the constants that tokens add to the pool.
* **`Expr.literals`**, **`Stmt.literals`**, **`Decls.literals`**: the constants of a tree are those.
-/

namespace StackScript.Tree

/-- Constants that the tokens add to a pool, in order. Every string is among them. A name is not if
it is a local's. -/
inductive Literals : List Token → List Value → Prop where
  | nil : Literals [] []
  | other {token : Token} {tokens : List Token} {values : List Value} :
    token.kind ≠ .string → Literals tokens values → Literals (token :: tokens) values
  | number {token : Token} {value : Float} {tokens : List Token} {values : List Value} :
    token.kind = .number → Literals tokens values →
      Literals (token :: tokens) (.number value :: values)
  | string {token : Token} {tokens : List Token} {values : List Value} :
    token.kind = .string → Literals tokens values →
      Literals (token :: tokens) (.string token.stringValue :: values)
  | name {token : Token} {tokens : List Token} {values : List Value} :
    token.kind = .identifier → Literals tokens values →
      Literals (token :: tokens) (.string token.lexeme :: values)

namespace Literals

variable {a b : List Token} {x y : List Value}

/-- The tokens of two parts, one behind the other. -/
theorem append (ha : Literals a x) (hb : Literals b y) : Literals (a ++ b) (x ++ y) := by
  induction ha with
  | nil => exact hb
  | other hkind _ ih => exact .other hkind ih
  | number hkind _ ih => exact .number hkind ih
  | string hkind _ ih => exact .string hkind ih
  | name hkind _ ih => exact .name hkind ih

/-- A token of another kind adds nothing. -/
theorem cons {kind : Kind} (hb : Literals b y) (token : TokenOf kind) (h : kind ≠ .string) :
    Literals (token.val :: b) y :=
  .other (by rwa [token.property]) hb

/-- A token at the end that is no string. -/
theorem concat {kind : Kind} (ha : Literals a x) (token : TokenOf kind) (h : kind ≠ .string) :
    Literals (a ++ [token.val]) x := by
  have happend := ha.append (nil.cons token h)
  rwa [List.append_nil] at happend

end Literals

/-! ## Expressions

A string literal adds its text to the constants. The other constants are numbers and names, which
have no part in this. -/

/-- A name may or may not add a constant. -/
theorem literals_nameConstants {names : List String} (token : TokenOf .identifier)
    {tokens : List Token} {values : List Value} (h : Literals tokens values) :
    Literals (token.val :: tokens) (nameConstants names token.val.lexeme ++ values) := by
  unfold nameConstants
  cases slot? token.val.lexeme names with
  | none => exact .name token.property h
  | some _ => exact h.cons token (by decide)

theorem Expr.literals (e : Expr) (names : List String) (base : Nat) :
    Literals e.tokens (e.lower names base).constants := by
  induction e generalizing base with
  | constant value word => exact Literals.nil.cons word (by cases value <;> decide)
  | number token value reads => exact .number token.property .nil
  | string token => exact .string token.property .nil
  | name token => exact literals_nameConstants token .nil
  | assign target equal value ih =>
    rw [lower, Lowering.constants_append, Lowering.constants_instruction, List.append_nil]
    exact literals_nameConstants target ((ih _).cons equal (by decide))
  | grouping left inner right ih => exact ((ih base).concat right (by decide)).cons left (by decide)
  | unary operator token operand ih =>
    rw [lower, Lowering.constants_append, Lowering.constants_instruction, List.append_nil]
    exact (ih base).cons token (by cases operator <;> decide)
  | binary operator left token right ihleft ihright =>
    rw [lower, Lowering.constants_append, Lowering.constants_instructions, List.append_nil]
    exact (ihleft base).append ((ihright _).cons token (by cases operator <;> decide))
  | and left token right ihleft ihright =>
    rw [lower, Lowering.constants_append, Lowering.constants_append, Lowering.constants_jump,
      List.append_nil]
    exact (ihleft base).append ((ihright _).cons token (by decide))
  | or left token right ihleft ihright =>
    rw [lower_or, lowerBranches]
    exact (ihleft base).append ((ihright _).cons token (by decide))

theorem literals_optional (value : Option Expr) (lower : Expr → Lowering)
    (h : ∀ e, Literals e.tokens (lower e).constants) :
    Literals (optionalTokens value) ((value.map lower).elim [] Lowering.constants) := by
  cases value with
  | none => exact .nil
  | some e => exact h e

/-! ## Statements

By recursion on the statement. The constants come in the order of the tokens. -/

theorem VarDecl.literals (d : VarDecl) (blocks : Blocks) (base : Nat) :
    Literals d.tokens (d.lower blocks base).constants := by
  obtain ⟨name, initializer, semicolon⟩ := d
  -- what stands after the name
  have hvalue : ∀ names base, ∃ rest,
      VarDecl.tokens ⟨name, initializer, semicolon⟩ = name.val :: rest ∧
        Literals rest (VarDecl.lowerValue names base ⟨name, initializer, semicolon⟩).constants := by
    intro names base
    cases initializer with
    | none => exact ⟨_, rfl, Literals.nil.cons semicolon (by decide)⟩
    | some initializer =>
      have htail := (initializer.2.literals names base).concat semicolon (by decide)
      exact ⟨_, rfl, htail.cons initializer.1 (by decide)⟩
  cases blocks with
  | nil =>
    obtain ⟨rest, htokens, hrest⟩ := hvalue [] (base + 1)
    rw [htokens, VarDecl.lower, Lowering.constants_append, Lowering.constants_instruction,
      List.append_nil]
    exact .name name.property hrest
  | cons block outer =>
    obtain ⟨rest, htokens, hrest⟩ := hvalue (block :: outer).flatten base
    rw [htokens]
    exact hrest.cons name (by decide)

theorem Condition.literals (c : Condition) (names : List String) (base : Nat) :
    Literals c.tokens (c.value.lower names base).constants :=
  ((c.value.literals names base).concat c.right (by decide)).cons c.left (by decide)

theorem ForStart.literals (start : ForStart) (blocks : Blocks) (base : Nat) :
    Literals start.tokens (start.lower blocks base).constants := by
  cases start with
  | none semicolon => exact Literals.nil.cons semicolon (by decide)
  | declaration keyword declared => exact (declared.literals blocks base).cons keyword (by decide)
  | expression value semicolon =>
    rw [ForStart.lower, Lowering.constants_append, Lowering.constants_instruction, List.append_nil]
    exact (value.literals _ base).concat semicolon (by decide)

/-- The jumps between the branches have no constants. -/
theorem constants_lowerBranches (line between : Nat) (first second : Lowering) :
    (lowerBranches line first between second).constants = first.constants ++ second.constants := by
  simp [lowerBranches]

/-- A loop adds the constants of its parts in the order in which they are written. -/
theorem constants_lowerLoop (test : Option Lowering) (enter : Nat) (increment : Option Lowering)
    (leave : Nat) (body : Lowering) (line : Nat) :
    (lowerLoop test enter increment leave body line).constants =
      test.elim [] Lowering.constants ++
        (increment.elim [] Lowering.constants ++ body.constants) := by
  have htest : ∀ rest, (lowerTest enter rest test).constants = test.elim [] Lowering.constants := by
    intro rest
    cases test <;> simp [lowerTest]
  have hincrement : ∀ test, (lowerIncrement enter leave test increment).constants =
      increment.elim [] Lowering.constants := by
    intro test
    cases increment <;> simp [lowerIncrement]
  have hexit : (lowerExit line test).constants = [] := by
    cases test <;> simp [lowerExit]
  simp [lowerLoop, htest, hincrement, hexit]

theorem literals_lowerDiscarded (names : List String) (base : Nat) (value : Expr) :
    Literals value.tokens (lowerDiscarded names base value).constants := by
  rw [lowerDiscarded, Lowering.constants_append, Lowering.constants_instruction, List.append_nil]
  exact value.literals names base

/-- The three clauses, in the order in which they are compiled. -/
theorem ForClauses.literals (c : ForClauses) (blocks inner : Blocks)
    (base testBase stepBase : Nat) :
    Literals c.tokens
      ((c.start.lower ([] :: blocks) base).constants ++
        (c.condition.map (·.lower inner.flatten testBase)).elim [] Lowering.constants ++
        (c.increment.map (lowerDiscarded inner.flatten stepBase)).elim [] Lowering.constants) := by
  have htest := literals_optional c.condition (·.lower inner.flatten testBase)
    fun value => value.literals inner.flatten testBase
  have hstep := literals_optional c.increment (lowerDiscarded inner.flatten stepBase)
    fun value => literals_lowerDiscarded inner.flatten stepBase value
  have hrest := (hstep.concat c.right (by decide)).cons c.semicolon (by decide)
  rw [List.append_assoc]
  exact ((c.start.literals _ base).append (htest.append hrest)).cons c.left (by decide)

mutual

theorem Stmt.literals (t : Stmt) (blocks : Blocks) (base : Nat) :
    Literals t.tokens (t.lower blocks base).constants := by
  match t with
  | .print keyword value semicolon =>
    rw [Stmt.lower, Lowering.constants_append, Lowering.constants_instruction, List.append_nil]
    exact ((value.literals _ base).concat semicolon (by decide)).cons keyword (by decide)
  | .expression value semicolon =>
    rw [Stmt.lower, Lowering.constants_append, Lowering.constants_instruction, List.append_nil]
    exact (value.literals _ base).concat semicolon (by decide)
  | .conditional keyword condition body otherwise =>
    rw [Stmt.lower, Lowering.constants_append, constants_lowerBranches]
    refine ((condition.literals _ base).append ?_).cons keyword (by decide)
    exact (body.literals blocks _).append (otherwise.literals blocks _)
  | .whileLoop keyword condition body =>
    rw [Stmt.lower, constants_lowerLoop]
    exact ((condition.literals _ base).append (body.literals blocks _)).cons keyword (by decide)
  | .forLoop keyword clauses body =>
    rw [Stmt.lower, dropLocals, Lowering.constants_append, Lowering.constants_instructions,
      List.append_nil, Lowering.constants_append, constants_lowerLoop, ← List.append_assoc,
      ← List.append_assoc]
    exact ((clauses.literals blocks _ base _ _).append (body.literals _ _)).cons keyword (by decide)
  | .block left body right =>
    rw [Stmt.lower, dropLocals, Lowering.constants_append, Lowering.constants_instructions,
      List.append_nil]
    exact ((body.literals _ base).concat right (by decide)).cons left (by decide)

theorem Else.literals (o : Else) (blocks : Blocks) (base : Nat) :
    Literals o.tokens (o.lower blocks base).constants := by
  match o with
  | .none => exact .nil
  | .branch keyword body => exact (body.literals blocks base).cons keyword (by decide)

theorem Decls.literals (ds : Decls) (blocks : Blocks) (base : Nat) :
    Literals ds.tokens (ds.lower blocks base).constants := by
  match ds with
  | .nil => exact .nil
  | .declaration keyword declared rest =>
    exact ((declared.literals blocks base).append (rest.literals _ _)).cons keyword (by decide)
  | .statement first rest => exact (first.literals blocks base).append (rest.literals _ _)

end

end StackScript.Tree
